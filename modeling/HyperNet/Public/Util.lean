import Mathlib.Algebra.Ring.Nat

/-! # The fixed-width integers of util.h -/
namespace HyperNet.Public

/-- The value an `s32` sum takes: modulo `2^32`, from `-2^31` up. -/
def s32 (x : Int) : Int := x.bmod (2 ^ 32)

/-- The first value an `s32` does not hold. -/
def s32Bound : Nat := 2 ^ 31

/-- A sum that fits is itself. -/
theorem s32_of_lt {k : Nat} (h : k < s32Bound) : s32 k = k := by
  unfold s32Bound at h
  exact Int.bmod_eq_of_le (by omega) (by omega)

/-- A sum of two values that does not fit wraps below zero. -/
theorem s32_neg {k : Nat} (h : s32Bound ≤ k) (h' : k < 2 * s32Bound) : s32 k < 0 := by
  unfold s32Bound at h h'
  simp only [s32, Int.bmod, Nat.reducePow]
  split <;> omega

end HyperNet.Public
