import Mathlib.Algebra.Ring.Nat

/-! # Numbers in memory, lowest byte first -/
namespace HyperNet.Core

/-- The `width` low bytes of a number. -/
def toBytes : Nat → Nat → List UInt8
  | 0, _ => []
  | width + 1, x => .ofNat x :: toBytes width (x / 2 ^ 8)

/-- The number that some bytes hold. -/
def ofBytes : List UInt8 → Nat
  | [] => 0
  | byte :: bytes => byte.toNat + 2 ^ 8 * ofBytes bytes

@[simp] theorem length_toBytes (width x : Nat) : (toBytes width x).length = width := by
  induction width generalizing x with
  | zero => rfl
  | succ width ih => rw [toBytes, List.length_cons, ih]

theorem ofBytes_lt (bytes : List UInt8) : ofBytes bytes < 2 ^ (8 * bytes.length) := by
  induction bytes with
  | nil => exact Nat.one_pos
  | cons byte bytes ih =>
    have hbyte := byte.toNat_lt
    rw [ofBytes, List.length_cons, Nat.mul_succ, Nat.pow_add]
    omega

/-- A number of that width is read back. -/
theorem ofBytes_toBytes {width x : Nat} (h : x < 2 ^ (8 * width)) :
    ofBytes (toBytes width x) = x := by
  induction width generalizing x with
  | zero =>
    rw [Nat.mul_zero, Nat.pow_zero] at h
    rw [toBytes, ofBytes]
    omega
  | succ width ih =>
    rw [Nat.mul_succ, Nat.pow_add] at h
    have hrest : x / 2 ^ 8 < 2 ^ (8 * width) := Nat.div_lt_of_lt_mul (by omega)
    rw [toBytes, ofBytes, ih hrest, UInt8.toNat_ofNat']
    omega

/-- Bytes are what their number is written as. -/
theorem toBytes_ofBytes (bytes : List UInt8) : toBytes bytes.length (ofBytes bytes) = bytes := by
  induction bytes with
  | nil => rfl
  | cons byte bytes ih =>
    have hbyte := byte.toNat_lt
    have hhead : UInt8.ofNat (byte.toNat + 2 ^ 8 * ofBytes bytes) = byte := by
      apply UInt8.toNat_inj.mp
      rw [UInt8.toNat_ofNat']
      omega
    have hrest : (byte.toNat + 2 ^ 8 * ofBytes bytes) / 2 ^ 8 = ofBytes bytes := by omega
    rw [List.length_cons, ofBytes, toBytes, hhead, hrest, ih]

end HyperNet.Core
