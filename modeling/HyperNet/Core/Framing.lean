import Mathlib.Data.List.Basic

/-! # Streams of items that arrive in pieces

A stream is the concatenation of its items. Of the first `k` elements, the items that
have come whole are `whole items k`, and `leftover items k` elements belong to an item
of which more is to come. Both can be computed piece by piece. -/
namespace HyperNet.Core.Framing

variable {α : Type*}

/-- The items that lie within the first `k` elements of their stream. -/
def whole : List (List α) → Nat → List (List α)
  | [], _ => []
  | f :: fs, k => if f.length ≤ k then f :: whole fs (k - f.length) else []

/-- The items that do not. -/
def later : List (List α) → Nat → List (List α)
  | [], _ => []
  | f :: fs, k => if f.length ≤ k then later fs (k - f.length) else f :: fs

/-- How many of the first `k` elements belong to no item that has come whole. -/
def leftover : List (List α) → Nat → Nat
  | [], k => k
  | f :: fs, k => if f.length ≤ k then leftover fs (k - f.length) else k

theorem whole_append_later (fs : List (List α)) (k : Nat) : whole fs k ++ later fs k = fs := by
  induction fs generalizing k with
  | nil => rfl
  | cons f fs ih =>
    by_cases hf : f.length ≤ k
    · simp [whole, later, hf, ih]
    · simp [whole, later, hf]

theorem mem_of_mem_later {fs : List (List α)} (k : Nat) : ∀ f ∈ later fs k, f ∈ fs := by
  intro f hf
  rw [← whole_append_later fs k]
  exact List.mem_append_right _ hf

theorem length_whole (fs : List (List α)) (k : Nat) :
    (whole fs k).flatten.length + leftover fs k = k := by
  induction fs generalizing k with
  | nil => simp [whole, leftover]
  | cons f fs ih =>
    by_cases hf : f.length ≤ k
    · have := ih (k - f.length)
      simp only [whole, leftover, hf, if_true, List.flatten_cons, List.length_append]
      omega
    · simp [whole, leftover, hf]

/-- What has come is the whole items and the beginning of the next one. -/
theorem take_flatten (fs : List (List α)) (k : Nat) :
    fs.flatten.take k = (whole fs k).flatten ++ (later fs k).flatten.take (leftover fs k) := by
  have hlen := length_whole fs k
  calc fs.flatten.take k
      = ((whole fs k).flatten ++ (later fs k).flatten).take k := by
        rw [← List.flatten_append, whole_append_later]
    _ = (whole fs k).flatten ++ (later fs k).flatten.take (leftover fs k) := by
        rw [List.take_append, List.take_of_length_le (by omega)]
        congr 2
        omega

/-- What is to come is the rest of the next item and the items after it. -/
theorem drop_flatten (fs : List (List α)) (k : Nat) :
    fs.flatten.drop k = (later fs k).flatten.drop (leftover fs k) := by
  have hlen := length_whole fs k
  calc fs.flatten.drop k
      = ((whole fs k).flatten ++ (later fs k).flatten).drop k := by
        rw [← List.flatten_append, whole_append_later]
    _ = (later fs k).flatten.drop (leftover fs k) := by
        rw [List.drop_append, List.drop_of_length_le (by omega), List.nil_append]
        congr 1
        omega

/-- In the end all items have come. -/
theorem whole_all (fs : List (List α)) : whole fs fs.flatten.length = fs := by
  induction fs with
  | nil => rfl
  | cons f fs ih => simpa [whole] using ih

/-- The next item is longer than what has come of it. -/
theorem leftover_lt (fs : List (List α)) (k : Nat) :
    ∀ f ∈ (later fs k).head?, leftover fs k < f.length := by
  induction fs generalizing k with
  | nil => simp [later]
  | cons f fs ih =>
    by_cases hf : f.length ≤ k
    · simpa [later, leftover, hf] using ih (k - f.length)
    · simp only [later, leftover, hf, if_false, List.head?_cons, Option.mem_some_iff]
      rintro _ rfl
      omega

theorem leftover_le {fs : List (List α)} {k : Nat} (hk : k ≤ fs.flatten.length) :
    leftover fs k ≤ (later fs k).flatten.length := by
  have hlen := length_whole fs k
  have hall := congrArg (fun gs => gs.flatten.length) (whole_append_later fs k)
  simp only [List.flatten_append, List.length_append] at hall
  omega

/-- Where no item has come whole, everything is left over. -/
theorem of_leftover_lt {fs : List (List α)} {k : Nat} (h : ∀ f ∈ fs.head?, k < f.length) :
    whole fs k = [] ∧ later fs k = fs ∧ leftover fs k = k := by
  cases fs with
  | nil => exact ⟨rfl, rfl, rfl⟩
  | cons f fs =>
    have : ¬ f.length ≤ k := Nat.not_le.mpr (h f rfl)
    simp [whole, later, leftover, this]

/-- Behind items that have all come. -/
theorem whole_append (fs gs : List (List α)) (k : Nat) :
    whole (fs ++ gs) (fs.flatten.length + k) = fs ++ whole gs k := by
  induction fs with
  | nil => simp
  | cons f fs ih =>
    rw [List.cons_append, whole, List.flatten_cons, List.length_append, if_pos (by omega),
      show f.length + fs.flatten.length + k - f.length = fs.flatten.length + k by omega, ih]
    rfl

/-- More elements continue where the first `k` have got to. -/
theorem whole_add (fs : List (List α)) (k j : Nat) :
    whole fs (k + j) = whole fs k ++ whole (later fs k) (leftover fs k + j) := by
  induction fs generalizing k with
  | nil => rfl
  | cons f fs ih =>
    by_cases hf : f.length ≤ k
    · simp only [whole, later, leftover, hf, if_true, show f.length ≤ k + j by omega,
        List.cons_append, Nat.sub_add_comm hf, ih]
    · simp only [whole, later, leftover, hf, if_false, List.nil_append]

theorem leftover_add (fs : List (List α)) (k j : Nat) :
    leftover fs (k + j) = leftover (later fs k) (leftover fs k + j) := by
  induction fs generalizing k with
  | nil => rfl
  | cons f fs ih =>
    by_cases hf : f.length ≤ k
    · simp only [later, leftover, hf, if_true, show f.length ≤ k + j by omega,
        Nat.sub_add_comm hf, ih]
    · simp only [later, leftover, hf, if_false]

/-! ## Pieces that have to fit behind the leftover -/

/-- Each piece, with what is left over from those before it, is at most `n` elements;
`k` elements have come before. -/
def Fits (n : Nat) (items : List (List α)) : Nat → List (List α) → Prop
  | _, [] => True
  | k, piece :: pieces =>
    leftover items k + piece.length ≤ n ∧ Fits n items (k + piece.length) pieces

instance Fits.decidable (n : Nat) (items : List (List α)) :
    ∀ k pieces, Decidable (Fits n items k pieces)
  | _, [] => .isTrue trivial
  | k, piece :: pieces =>
    have := Fits.decidable n items (k + piece.length) pieces
    inferInstanceAs (Decidable (_ ∧ _))

theorem Fits.cons {n k : Nat} {items pieces : List (List α)} {piece : List α} :
    Fits n items k (piece :: pieces) ↔
      leftover items k + piece.length ≤ n ∧ Fits n items (k + piece.length) pieces := Iff.rfl

/-- The items that have come whole can be forgotten. -/
theorem Fits.later (n : Nat) (items : List (List α)) (k j : Nat) (pieces : List (List α)) :
    Fits n items (k + j) pieces ↔
      Fits n (later items k) (leftover items k + j) pieces := by
  induction pieces generalizing j with
  | nil => exact Iff.rfl
  | cons piece pieces ih =>
    rw [Fits.cons, Fits.cons, leftover_add, Nat.add_assoc, ih, Nat.add_assoc]

end HyperNet.Core.Framing
