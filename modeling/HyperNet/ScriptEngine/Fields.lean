import HyperNet.ScriptEngine.Values

/-! # The fields of an encoding

The writing side checks the room field by field, but not for the bytes of a string. `ending`
says what becomes of fields from an offset on. -/
namespace HyperNet.ScriptEngine
open HyperNet.Core HyperNet.Public
open HyperNet.Logic (s32Bytes)

/-- What is written at once: only where it fits, or without a check, the bytes of a string. -/
inductive Field
  | checked (bytes : List UInt8)
  | unchecked (bytes : List UInt8)

namespace Field

def bytes : Field → List UInt8
  | .checked bytes | .unchecked bytes => bytes

/-- What is copied: of a string, as many bytes as its length is as an `s32`. -/
def copied : Field → List UInt8
  | .checked bytes => bytes
  | .unchecked bytes => bytes.take (s32 bytes.length).toNat

@[simp] theorem bytes_checked (bytes : List UInt8) : (checked bytes).bytes = bytes := rfl

@[simp] theorem bytes_unchecked (bytes : List UInt8) : (unchecked bytes).bytes = bytes := rfl

@[simp] theorem copied_checked (bytes : List UInt8) : (checked bytes).copied = bytes := rfl

theorem copied_unchecked {bytes : List UInt8} (h : 0 ≤ s32 bytes.length) :
    ((unchecked bytes).copied.length : Int) = s32 bytes.length := by
  have hle : s32 bytes.length ≤ bytes.length := by
    simp only [s32, Int.bmod, Nat.reducePow]
    split <;> omega
  rw [copied, List.length_take]
  omega

/-- What is cut off at an `s32` is long. -/
theorem long_of_cut {field : Field} (h : field.copied ≠ field.bytes) :
    s32Bound ≤ field.bytes.length := by
  cases field with
  | checked bytes => exact absurd rfl h
  | unchecked bytes =>
    refine Nat.le_of_not_lt fun hlt => h ?_
    rw [bytes_unchecked] at hlt ⊢
    rw [copied, s32_of_lt hlt, Int.toNat_natCast, List.take_length]

end Field

mutual

def Item.fields : Item → List Field
  | .nil => [.checked [NIL]]
  | .boolean byte => [.checked [BOOLEAN], .checked [byte]]
  | .integer n => [.checked [INT], .checked (toBytes 8 n.toNat)]
  | .number bits => [.checked [DOUBLE], .checked (toBytes 8 bits.toNat)]
  | .string bytes =>
    [.checked [STRING], .checked (s32Bytes bytes.length), .unchecked bytes]
  | .table entries => .checked [TABLE] :: (entries.fields ++ [.checked [NIL]])

/-- The entries without the end of the table. -/
def Entries.fields : Entries → List Field
  | .nil => []
  | .cons key value entries => key.fields ++ value.fields ++ entries.fields

end

/-- The type comes first. -/
theorem Item.fields_eq (item : Item) :
    ∃ fields, item.fields = .checked [item.type] :: fields := by
  cases item with
  | nil | boolean | integer | number | string | table => exact ⟨_, rfl⟩

theorem Item.length_copied_pos (item : Item) :
    0 < (item.fields.flatMap Field.copied).length := by
  obtain ⟨fields, hfields⟩ := item.fields_eq
  rw [hfields, List.flatMap_cons, List.length_append, Field.copied_checked, List.length_singleton]
  omega

mutual

/-- The fields are the encoding, cut where the writing side looks for room. -/
theorem Item.bytes_fields : ∀ item : Item, item.fields.flatMap Field.bytes = item.bytes
  | .nil => rfl
  | .boolean _ | .integer _ | .number _ => by
    simp [Item.fields, Item.bytes, Item.body, Item.type]
  | .string bytes => by
    simp [Item.fields, Item.bytes, Item.body, Item.type]
  | .table entries => by
    rw [Item.fields, List.flatMap_cons, List.flatMap_append, Item.bytes, Item.body,
      ← Entries.bytes_fields entries]
    rfl

theorem Entries.bytes_fields : ∀ entries : Entries,
    entries.fields.flatMap Field.bytes ++ [NIL] = entries.bytes
  | .nil => rfl
  | .cons key value entries => by
    rw [Entries.fields, List.flatMap_append, List.flatMap_append, Item.bytes_fields key,
      Item.bytes_fields value, Entries.bytes, ← Entries.bytes_fields entries, List.append_assoc]
    rfl

end

/-- How writing fields comes to an end. -/
inductive Ending
  | done
  | full
  /-- A string is copied beyond the end of the buffer. -/
  | overrun

/-- From an offset on. -/
def ending : Nat → List Field → Ending
  | _, [] => .done
  | offset, .checked bytes :: fields =>
    if buffSize < offset + bytes.length then .full else ending (offset + bytes.length) fields
  | offset, .unchecked bytes :: fields =>
    if s32 bytes.length < 0 ∨ buffSize < offset + s32 bytes.length then .overrun
    else ending (offset + (Field.unchecked bytes).copied.length) fields

section Ending
variable {offset : Nat} {fields fields' : List Field}

/-- What comes later is reached if everything before it is written. -/
theorem ending_append : ending offset (fields ++ fields') =
    match ending offset fields with
    | .done => ending (offset + (fields.flatMap Field.copied).length) fields'
    | e => e := by
  induction fields generalizing offset with
  | nil => rfl
  | cons field fields ih =>
    rw [List.flatMap_cons, List.length_append, ← Nat.add_assoc]
    cases field with
    | checked bytes =>
      by_cases hfull : buffSize < offset + bytes.length
      · rw [List.cons_append, ending, ending, if_pos hfull, if_pos hfull]
      · rw [List.cons_append, ending, ending, if_neg hfull, if_neg hfull, ih,
          Field.copied_checked]
    | unchecked bytes =>
      by_cases hover : s32 bytes.length < 0 ∨ buffSize < offset + s32 bytes.length
      · rw [List.cons_append, ending, ending, if_pos hover, if_pos hover]
      · rw [List.cons_append, ending, ending, if_neg hover, if_neg hover, ih]

/-- Fields that fit are written, whole. -/
theorem ending_of_fits (h : offset + (fields.flatMap Field.bytes).length ≤ buffSize) :
    ending offset fields = .done ∧
      fields.flatMap Field.copied = fields.flatMap Field.bytes := by
  induction fields generalizing offset with
  | nil => exact ⟨rfl, by rw [List.flatMap_nil, List.flatMap_nil]⟩
  | cons field fields ih =>
    rw [List.flatMap_cons, List.length_append, ← Nat.add_assoc] at h
    obtain ⟨hending, hcopied⟩ := ih h
    have hbound : buffSize < s32Bound := by decide
    have hwhole : field.copied = field.bytes := by
      refine Decidable.byContradiction fun hcut => ?_
      have hlong := Field.long_of_cut hcut
      omega
    refine ⟨?_, by rw [List.flatMap_cons, List.flatMap_cons, hwhole, hcopied]⟩
    cases field with
    | checked bytes =>
      rw [Field.bytes_checked] at h hending
      rw [ending, if_neg (by omega), hending]
    | unchecked bytes =>
      rw [Field.bytes_unchecked] at h hending hwhole
      have hsmall : s32 bytes.length = bytes.length := s32_of_lt (by omega)
      rw [ending, if_neg (by omega), hwhole, hending]

/-- What is full is too short for all the bytes. -/
theorem lt_of_full (h : ending offset fields = .full) :
    buffSize < offset + (fields.flatMap Field.bytes).length := by
  refine Nat.lt_of_not_le fun hfits => ?_
  rw [(ending_of_fits hfits).1] at h
  cases h

end Ending

end HyperNet.ScriptEngine
