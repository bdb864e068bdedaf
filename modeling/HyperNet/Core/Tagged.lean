import Mathlib.Data.List.Basic

/-! # Lists of entries of several owners

Each entry carries the owner it is for. What one owner has of a list is a list of its own, and the
whole is bounded by what each of them may have. -/
namespace HyperNet.Core.Tagged

variable {ι α : Type*} [DecidableEq ι] {i j : ι} {a : α} {l l' : List (ι × α)}

/-- The entries of one owner, in order. -/
def own (i : ι) (l : List (ι × α)) : List α :=
  l.filterMap fun x => if x.1 = i then some x.2 else none

@[simp] theorem own_nil : own i ([] : List (ι × α)) = [] := rfl

@[simp] theorem own_append : own i (l ++ l') = own i l ++ own i l' := List.filterMap_append

@[simp] theorem own_cons_self : own i ((i, a) :: l) = a :: own i l := by simp [own]

theorem own_cons_of_ne (h : j ≠ i) : own i ((j, a) :: l) = own i l := by simp [own, h]

@[simp] theorem own_map_self (as : List α) : own i (as.map (i, ·)) = as := by
  induction as with
  | nil => rfl
  | cons a as ih => rw [List.map_cons, own_cons_self, ih]

theorem own_map_of_ne (h : j ≠ i) (as : List α) : own i (as.map (j, ·)) = [] := by
  induction as with
  | nil => rfl
  | cons a as ih => rw [List.map_cons, own_cons_of_ne h, ih]

theorem length_own (i : ι) (l : List (ι × α)) : (own i l).length = (l.map Prod.fst).count i := by
  induction l with
  | nil => rfl
  | cons x l ih =>
    obtain ⟨j, a⟩ := x
    by_cases h : j = i
    · subst h
      rw [own_cons_self, List.length_cons, ih, List.map_cons, List.count_cons_self]
    · rw [own_cons_of_ne h, ih, List.map_cons, List.count_cons_of_ne h]

theorem own_eq_nil (h : i ∉ l.map Prod.fst) : own i l = [] := by
  rw [← List.length_eq_zero_iff, length_own]
  exact List.count_eq_zero.mpr h

/-- Lists in which some owners have the same have as many entries of them. -/
theorem length_filter_of_own {q : ι → Bool} (h : ∀ i, q i = true → own i l = own i l') :
    ((l.map Prod.fst).filter q).length = ((l'.map Prod.fst).filter q).length := by
  refine List.Perm.length_eq (List.perm_iff_count.mpr fun i => ?_)
  cases hq : q i with
  | true => rw [List.count_filter hq, List.count_filter hq, ← length_own, ← length_own, h i hq]
  | false =>
    have hnone : ∀ l : List (ι × α), ((l.map Prod.fst).filter q).count i = 0 := by
      intro l
      refine List.count_eq_zero.mpr fun hm => ?_
      rw [(List.mem_filter.mp hm).2] at hq
      cases hq
    rw [hnone, hnone]

/-- Where each of the owners has at most `k` entries, there are at most `k` for each owner. -/
theorem length_le_of_count {k : Nat} {is owners : List ι} (hs : ∀ i ∈ is, i ∈ owners)
    (hc : ∀ i ∈ owners, is.count i ≤ k) : is.length ≤ k * owners.length := by
  induction owners generalizing is with
  | nil =>
    rw [List.eq_nil_iff_forall_not_mem.mpr fun i hi => List.not_mem_nil (hs i hi)]
    exact Nat.zero_le _
  | cons j owners ih =>
    have hrest : (is.filter (· != j)).length ≤ k * owners.length := by
      refine ih (fun i hi => ?_) (fun i hi => ?_)
      · obtain ⟨hi, hne⟩ := List.mem_filter.mp hi
        exact (List.mem_cons.mp (hs i hi)).resolve_left (by simpa using hne)
      · exact Nat.le_trans (List.filter_sublist.count_le i) (hc i (List.mem_cons_of_mem _ hi))
    have hj := hc j List.mem_cons_self
    have hsplit : is.length = is.count j + (is.filter (· != j)).length := by
      rw [List.length_eq_length_filter_add (· == j), List.count_eq_length_filter]
      rfl
    rw [hsplit, List.length_cons, Nat.mul_succ]
    omega

end HyperNet.Core.Tagged
