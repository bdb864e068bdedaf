import Mathlib.Data.List.Basic

/-! # Indices of a ring of `n` slots

`dist n front tail` is the number of slots from `front` up to `tail`, going
round once. It is what a ring buffer with one free slot holds. -/
namespace HyperNet.Core.Ring

/-- The steps forward from `front` to `tail`. -/
def dist (n front tail : Nat) : Nat := (tail + n - front) % n

variable {n front tail : Nat}

/-- The remainder of a sum that goes round at most once. -/
theorem mod_wrap {k : Nat} (hk : k < 2 * n) : k < n ∧ k % n = k ∨ n ≤ k ∧ k % n = k - n := by
  by_cases h : k < n
  · exact .inl ⟨h, Nat.mod_eq_of_lt h⟩
  · exact .inr ⟨by omega, by rw [Nat.mod_eq_sub_mod (by omega), Nat.mod_eq_of_lt (by omega)]⟩

theorem dist_cases (hf : front < n) (ht : tail < n) :
    front ≤ tail ∧ dist n front tail = tail - front ∨
      tail < front ∧ dist n front tail = tail + n - front := by
  unfold dist
  rcases mod_wrap (n := n) (k := tail + n - front) (by omega) with ⟨h, he⟩ | ⟨h, he⟩
  · exact .inr ⟨by omega, he⟩
  · exact .inl ⟨by omega, by omega⟩

theorem dist_lt (hf : front < n) (tail : Nat) : dist n front tail < n := Nat.mod_lt _ (by omega)

theorem dist_eq_zero (hf : front < n) (ht : tail < n) : dist n front tail = 0 ↔ front = tail := by
  rcases dist_cases hf ht with h | h <;> omega

/-- The ring is full when the next tail would meet the front. -/
theorem full_iff (hf : front < n) (ht : tail < n) :
    front = (tail + 1) % n ↔ dist n front tail + 1 = n := by
  have hd := dist_cases hf ht
  have hm := mod_wrap (n := n) (k := tail + 1) (by omega)
  omega

theorem dist_push (hf : front < n) (ht : tail < n) (h : front ≠ (tail + 1) % n) :
    dist n front ((tail + 1) % n) = dist n front tail + 1 := by
  have hd := dist_cases hf ht
  have ht' : (tail + 1) % n < n := Nat.mod_lt _ (by omega)
  have hd' := dist_cases hf ht'
  have hm := mod_wrap (n := n) (k := tail + 1) (by omega)
  omega

theorem dist_pop (hf : front < n) (ht : tail < n) (h : front ≠ tail) :
    dist n front tail = dist n ((front + 1) % n) tail + 1 := by
  have hd := dist_cases hf ht
  have hf' : (front + 1) % n < n := Nat.mod_lt _ (by omega)
  have hd' := dist_cases hf' ht
  have hm := mod_wrap (n := n) (k := front + 1) (by omega)
  omega

/-- The slot `dist` steps after the front is the tail. -/
theorem slot_dist (hf : front < n) (ht : tail < n) :
    (front + dist n front tail) % n = tail := by
  have hd := dist_cases hf ht
  have hm := mod_wrap (n := n) (k := front + dist n front tail) (by omega)
  omega

theorem slot_injective (hf : front < n) {i j : Nat} (hi : i < n) (hj : j < n)
    (h : (front + i) % n = (front + j) % n) : i = j := by
  have hi' := mod_wrap (n := n) (k := front + i) (by omega)
  have hj' := mod_wrap (n := n) (k := front + j) (by omega)
  omega

/-- Stepping the front and counting from it is counting one further. -/
theorem slot_succ (front i : Nat) : ((front + 1) % n + i) % n = (front + (i + 1)) % n := by
  rw [Nat.mod_add_mod, show front + 1 + i = front + (i + 1) by omega]

end HyperNet.Core.Ring
