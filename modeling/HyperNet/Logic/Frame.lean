import HyperNet.Api.PacketParser
import HyperNet.Core.Bytes
import HyperNet.Public.Util
import Mathlib.Algebra.Ring.Int.Defs

/-! # The frames of harbor connections (Harbor::ParsePacket)

A frame begins with a `HarborHeader`: the message kind and the length of the whole
frame, two little-endian `s32`. -/
namespace HyperNet.Logic
open HyperNet.Public HyperNet.Api

/-- The `s32` at byte `i`. -/
def readS32 (bytes : List UInt8) (i : Nat) : Int :=
  let byte k : Nat := (bytes.getD (i + k) 0).toNat
  s32 (byte 0 + 2 ^ 8 * byte 1 + 2 ^ 16 * byte 2 + 2 ^ 24 * byte 3 : Nat)

/-- A field is read from its own bytes. -/
theorem readS32_append {bytes : List UInt8} {i : Nat} (rest : List UInt8)
    (h : i + 4 ≤ bytes.length) : readS32 (bytes ++ rest) i = readS32 bytes i := by
  have hbyte : ∀ k < 4, (bytes ++ rest).getD (i + k) 0 = bytes.getD (i + k) 0 := by
    intro k hk
    rw [List.getD, List.getD, List.getElem?_append_left (by omega)]
  have h0 := hbyte 0 (by omega)
  have h1 := hbyte 1 (by omega)
  have h2 := hbyte 2 (by omega)
  have h3 := hbyte 3 (by omega)
  simp only [readS32, h0, h1, h2, h3]

theorem readS32_take {bytes : List UInt8} {i k : Nat} (hi : i + 4 ≤ k) (hk : k ≤ bytes.length) :
    readS32 (bytes.take k) i = readS32 bytes i := by
  have h := readS32_append (bytes.drop k) (show i + 4 ≤ (bytes.take k).length by simp; omega)
  rwa [List.take_append_drop, eq_comm] at h

/-- The bytes of an `s32` in memory. -/
def s32Bytes (x : Int) : List UInt8 :=
  let u := (x % 2 ^ 32).toNat
  [.ofNat u, .ofNat (u / 2 ^ 8), .ofNat (u / 2 ^ 16), .ofNat (u / 2 ^ 24)]

@[simp] theorem length_s32Bytes (x : Int) : (s32Bytes x).length = 4 := rfl

/-- What was written is read back. -/
theorem readS32_of_drop {bytes rest : List UInt8} {i : Nat} {x : Int}
    (h : bytes.drop i = s32Bytes x ++ rest) : readS32 bytes i = s32 x := by
  have hbyte : ∀ k, bytes.getD (i + k) 0 = (s32Bytes x ++ rest).getD k 0 := by
    intro k
    rw [← h, List.getD, List.getD, List.getElem?_drop]
  have hx := Int.emod_nonneg x (show (2 ^ 32 : Int) ≠ 0 by decide)
  have hlt := Int.emod_lt_of_pos x (show (0 : Int) < 2 ^ 32 by decide)
  have hsum : ((x % 2 ^ 32).toNat % 2 ^ 8 + 2 ^ 8 * ((x % 2 ^ 32).toNat / 2 ^ 8 % 2 ^ 8) +
      2 ^ 16 * ((x % 2 ^ 32).toNat / 2 ^ 16 % 2 ^ 8) +
      2 ^ 24 * ((x % 2 ^ 32).toNat / 2 ^ 24 % 2 ^ 8) : Nat) = (x % 2 ^ 32).toNat := by
    omega
  simp only [readS32, hbyte, s32Bytes, List.cons_append, List.getD_cons_zero, List.getD_cons_succ,
    UInt8.toNat_ofNat', hsum]
  rw [Int.toNat_of_nonneg hx]
  exact Int.emod_bmod x (2 ^ 32)

/-- The number at the beginning of four bytes. -/
theorem readS32_eq {bytes : List UInt8} (h : bytes.length = 4) :
    readS32 bytes 0 = s32 (Core.ofBytes bytes) := by
  match bytes, h with
  | [a, b, c, d], _ =>
    show s32 ((a.toNat + 2 ^ 8 * b.toNat + 2 ^ 16 * c.toNat + 2 ^ 24 * d.toNat : Nat) : Int) = _
    simp only [Core.ofBytes]
    congr 2
    omega

theorem s32Bytes_eq (x : Int) : s32Bytes x = Core.toBytes 4 (x % 2 ^ 32).toNat := by
  simp only [s32Bytes, Core.toBytes, Nat.div_div_eq_div_mul, Nat.reducePow, Nat.reduceMul]

/-- Four bytes are those of the `s32` they hold. -/
theorem s32Bytes_readS32 {bytes : List UInt8} (h : bytes.length = 4) :
    s32Bytes (readS32 bytes 0) = bytes := by
  have hlt := Core.ofBytes_lt bytes
  have hbytes := Core.toBytes_ofBytes bytes
  rw [h] at hlt hbytes
  have hmod : s32 (Core.ofBytes bytes) % 2 ^ 32 = Core.ofBytes bytes := by
    have hbmod : s32 (Core.ofBytes bytes) % 2 ^ 32 = (Core.ofBytes bytes : Int) % 2 ^ 32 :=
      Int.bmod_emod
    omega
  rw [readS32_eq h, s32Bytes_eq, hmod, Int.toNat_natCast, hbytes]

namespace HarborHeader

/-- `sizeof(HarborHeader)`. -/
def size : Nat := 8

def message (bytes : List UInt8) : Int := readS32 bytes 0

def len (bytes : List UInt8) : Int := readS32 bytes 4

end HarborHeader

namespace Harbor

/-- `Harbor::ParsePacket` on a buffer that is there. -/
def parsePacket (bytes : List UInt8) : Int :=
  if HarborHeader.size < bytes.length then
    if (bytes.length : Int) < HarborHeader.len bytes then 0 else HarborHeader.len bytes
  else 0

/-- Harbor is a parser a connection can rely on, whatever the length field holds. -/
def packetParser : PacketParser where
  parsePacket := parsePacket
  le_length bytes := by
    unfold parsePacket
    split
    · split <;> omega
    · omega

example : parsePacket [1, 0, 0, 0, 9, 0, 0, 0, 7, 1, 0] = 9 := by decide

end Harbor
end HyperNet.Logic
