import Mathlib.Data.List.Infix
import Mathlib.Data.List.TakeWhile

/-! # Histories

A history is the list of the entries made so far. What a step adds is known by
the kind of its entries (`Extends`); what counts in a history may be all of it, the
entries of one kind, or those from a first one on. -/
namespace HyperNet.Core.History

variable {α β : Type*} {p q : α → Bool} {xs ys zs : List α}

/-! ## Growth -/

/-- The history grows from `xs` to `ys` by entries with `p`. -/
def Extends (p : α → Bool) (xs ys : List α) : Prop :=
  ∃ added, ys = xs ++ added ∧ ∀ a ∈ added, p a = true

namespace Extends

theorem refl : Extends p xs xs := ⟨[], (List.append_nil _).symm, nofun⟩

theorem append (added : List α) (h : ∀ a ∈ added, p a = true) : Extends p xs (xs ++ added) :=
  ⟨added, rfl, h⟩

theorem trans (h : Extends p xs ys) (h' : Extends p ys zs) : Extends p xs zs := by
  obtain ⟨added, rfl, ha⟩ := h
  obtain ⟨more, rfl, hb⟩ := h'
  refine ⟨added ++ more, List.append_assoc _ _ _, ?_⟩
  intro a hm
  rcases List.mem_append.mp hm with hm | hm
  · exact ha a hm
  · exact hb a hm

theorem mono (h : Extends p xs ys) (hpq : ∀ a, p a = true → q a = true) : Extends q xs ys := by
  obtain ⟨added, rfl, ha⟩ := h
  exact ⟨added, rfl, fun a hm => hpq a (ha a hm)⟩

theorem any_eq (h : Extends p xs ys) (hq : ∀ a, p a = true → q a = false) :
    ys.any q = xs.any q := by
  obtain ⟨added, rfl, ha⟩ := h
  have : added.any q = false := by
    rw [List.any_eq_false]
    intro a hm
    rw [hq a (ha a hm)]
    nofun
  rw [List.any_append, this, Bool.or_false]

/-- An entry of another kind was there before. -/
theorem split (h : Extends p xs ys) {pre post : List α} {a : α} (ha : p a = false)
    (hy : ys = pre ++ a :: post) : ∃ rest, xs = pre ++ a :: rest := by
  obtain ⟨added, rfl, hp⟩ := h
  rcases List.append_eq_append_iff.mp hy with ⟨mid, rfl, hadd⟩ | ⟨mid, hx, hrest⟩
  · have := hp a (by rw [hadd]; simp)
    rw [ha] at this
    cases this
  · cases mid with
    | nil =>
      have := hp a (by rw [← List.nil_append added, ← hrest]; simp)
      rw [ha] at this
      cases this
    | cons b mid =>
      obtain ⟨rfl, _⟩ := List.cons.inj hrest
      exact ⟨mid, hx⟩

end Extends

theorem forall_snoc {P : α → Prop} (h : ∀ a ∈ xs, P a) {a : α} (ha : P a) :
    ∀ b ∈ xs ++ [a], P b := by
  intro b hb
  rcases List.mem_append.mp hb with hb | hb
  · exact h b hb
  · rwa [List.mem_singleton.mp hb]

theorem any_of_grows (h : xs <+: ys) (hx : xs.any q = true) : ys.any q = true := by
  obtain ⟨a, ha, hq⟩ := List.any_eq_true.mp hx
  exact List.any_eq_true.mpr ⟨a, h.subset ha, hq⟩

theorem not_any_of_grows (h : xs <+: ys) (hy : ys.any q = false) : xs.any q = false :=
  List.any_eq_false.mpr fun a ha => List.any_eq_false.mp hy a (h.subset ha)

/-! ## The entries of one kind -/

theorem any_filter_of (h : ∀ a, p a = false → q a = false) (xs : List α) :
    (xs.filter p).any q = xs.any q := by
  rw [List.any_filter]
  congr 1
  funext a
  cases hp : p a with
  | true => rfl
  | false => exact (h a hp).symm

theorem flatMap_filter_of {f : α → List β} (h : ∀ a, p a = false → f a = []) (xs : List α) :
    (xs.filter p).flatMap f = xs.flatMap f := by
  induction xs with
  | nil => rfl
  | cons a xs ih =>
    cases hp : p a with
    | true => simp [hp, ih]
    | false => simp [hp, ih, h a hp]

/-! ## From the first entry on -/

theorem since_nil (h : xs.any q = false) : xs.dropWhile (fun a => !q a) = [] := by
  rw [List.dropWhile_eq_nil_iff]
  intro a ha
  simpa using List.any_eq_false.mp h a ha

theorem since_append (h : xs.any q = true) (ys : List α) :
    (xs ++ ys).dropWhile (fun a => !q a) = xs.dropWhile (fun a => !q a) ++ ys := by
  rw [List.dropWhile_append, if_neg]
  intro he
  obtain ⟨a, ha, hq⟩ := List.any_eq_true.mp h
  have := List.dropWhile_eq_nil_iff.mp (List.isEmpty_iff.mp he) a ha
  rw [hq] at this
  cases this

theorem since_fresh (h : xs.any q = false) (ys : List α) :
    (xs ++ ys).dropWhile (fun a => !q a) = ys.dropWhile fun a => !q a := by
  rw [List.dropWhile_append, if_pos (List.isEmpty_iff.mpr (since_nil h))]

/-- What comes before the first entry with a property only grows. -/
theorem until_grows (p : α → Bool) (xs ys : List α) :
    xs.takeWhile p <+: (xs ++ ys).takeWhile p := by
  rw [List.takeWhile_append]
  split
  · exact (List.takeWhile_prefix _).trans (List.prefix_append _ _)
  · exact List.prefix_rfl

theorem until_append (h : xs.any q = true) (ys : List α) :
    (xs ++ ys).takeWhile (fun a => !q a) = xs.takeWhile fun a => !q a := by
  rw [List.takeWhile_append, if_neg]
  intro hl
  have hx := (List.takeWhile_prefix fun a => !q a).eq_of_length hl
  obtain ⟨a, ha, hq⟩ := List.any_eq_true.mp h
  have := List.mem_takeWhile_imp (hx ▸ ha)
  rw [hq] at this
  cases this

theorem until_all (h : xs.any q = false) : xs.takeWhile (fun a => !q a) = xs := by
  rw [List.takeWhile_eq_self_iff]
  intro a ha
  simpa using List.any_eq_false.mp h a ha

/-! ## Switching on and off -/

/-- An entry that switches something on (`true`) that is off, or off that is on. -/
def switch (state : Option Bool) (flag : Bool) : Option Bool :=
  if state = some !flag then some flag else none

/-- Where the entries switch in turn, from off: the state after them. -/
def switched (flags : List Bool) : Option Bool := flags.foldl switch (some false)

/-- The entries say on and off strictly in turn. -/
def Alternates (flags : List Bool) : Prop := (switched flags).isSome = true

theorem switched_snoc (flags : List Bool) (flag : Bool) :
    switched (flags ++ [flag]) = switch (switched flags) flag := by
  simp [switched]

end HyperNet.Core.History
