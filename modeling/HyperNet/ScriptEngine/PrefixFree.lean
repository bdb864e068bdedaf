import HyperNet.ScriptEngine.Format

/-! # No encoding is the beginning of another

Where the encodings of well-formed items stand one behind the other, the bytes say what the items
are. -/
namespace HyperNet.ScriptEngine
open HyperNet.Core HyperNet.Public
open HyperNet.Logic (s32Bytes length_s32Bytes)

theorem s32Bytes_inj {m n : Nat} (hm : m < s32Bound) (hn : n < s32Bound)
    (h : s32Bytes m = s32Bytes n) : m = n := by
  have hread := readS32_s32Bytes hm
  rw [h, readS32_s32Bytes hn] at hread
  exact (Int.ofNat.inj hread).symm

theorem toBytes_inj {x y : BitVec 64} (h : toBytes 8 x.toNat = toBytes 8 y.toNat) : x = y := by
  rw [← ofNat_ofBytes x, h, ofNat_ofBytes]

theorem Item.type_ne_nil {item : Item} (h : item ≠ .nil) : item.type ≠ NIL := by
  cases item with
  | nil => exact absurd rfl h
  | boolean | integer | number | string | table => simp [Item.type, NIL, BOOLEAN, INT, DOUBLE,
      STRING, TABLE]

/-- The type says which kind of item it is. -/
theorem Item.ctorIdx_of_type {item item' : Item} (h : item.type = item'.type) :
    item.ctorIdx = item'.ctorIdx := by
  cases item <;> cases item' <;> first
    | rfl
    | exact absurd h (by simp [Item.type, NIL, BOOLEAN, INT, DOUBLE, STRING, TABLE])

mutual

/-- Behind the same type. -/
theorem Item.body_append_inj : ∀ (item item' : Item) {rest rest' : List UInt8},
    item.type = item'.type → item.WellFormed Item.IsKey → item'.WellFormed Item.IsKey →
    item.body ++ rest = item'.body ++ rest' → item = item' ∧ rest = rest'
  | .nil, item', rest, rest', htype, _, _, h => by
    cases item' with
    | nil => exact ⟨rfl, h⟩
    | boolean | integer | number | string | table => exact nomatch Item.ctorIdx_of_type htype
  | .boolean byte, item', rest, rest', htype, _, _, h => by
    cases item' with
    | boolean byte' =>
      obtain ⟨hbyte, hrest⟩ := List.cons.inj h
      exact ⟨by rw [hbyte], hrest⟩
    | nil | integer | number | string | table => exact nomatch Item.ctorIdx_of_type htype
  | .integer n, item', rest, rest', htype, _, _, h => by
    cases item' with
    | integer n' =>
      obtain ⟨hbytes, hrest⟩ := List.append_inj h (by simp [Item.body])
      exact ⟨by rw [toBytes_inj hbytes], hrest⟩
    | nil | boolean | number | string | table => exact nomatch Item.ctorIdx_of_type htype
  | .number bits, item', rest, rest', htype, _, _, h => by
    cases item' with
    | number bits' =>
      obtain ⟨hbytes, hrest⟩ := List.append_inj h (by simp [Item.body])
      exact ⟨by rw [toBytes_inj hbytes], hrest⟩
    | nil | boolean | integer | string | table => exact nomatch Item.ctorIdx_of_type htype
  | .string bytes, item', rest, rest', htype, hwf, hwf', h => by
    cases item' with
    | string bytes' =>
      rw [Item.body, Item.body, List.append_assoc, List.append_assoc] at h
      obtain ⟨hlength, h⟩ := List.append_inj h (by rw [length_s32Bytes, length_s32Bytes])
      obtain ⟨hbytes, hrest⟩ := List.append_inj h (s32Bytes_inj hwf hwf' hlength)
      exact ⟨by rw [hbytes], hrest⟩
    | nil | boolean | integer | number | table => exact nomatch Item.ctorIdx_of_type htype
  | .table entries, item', rest, rest', htype, hwf, hwf', h => by
    cases item' with
    | table entries' =>
      obtain ⟨hentries, hrest⟩ := Entries.bytes_append_inj entries entries' hwf hwf' h
      exact ⟨by rw [hentries], hrest⟩
    | nil | boolean | integer | number | string => exact nomatch Item.ctorIdx_of_type htype

theorem Entries.bytes_append_inj : ∀ (entries entries' : Entries) {rest rest' : List UInt8},
    entries.WellFormed Item.IsKey → entries'.WellFormed Item.IsKey →
    entries.bytes ++ rest = entries'.bytes ++ rest' → entries = entries' ∧ rest = rest'
  | .nil, .nil, rest, rest', _, _, h => ⟨rfl, (List.cons.inj h).2⟩
  | .nil, .cons key value entries, rest, rest', _, hwf', h => by
    rw [Entries.bytes, Entries.bytes, List.append_assoc, List.append_assoc] at h
    exact absurd (List.cons.inj h).1.symm (Item.type_ne_nil hwf'.1.ne_nil)
  | .cons key value entries, .nil, rest, rest', hwf, _, h => by
    rw [Entries.bytes, Entries.bytes, List.append_assoc, List.append_assoc] at h
    exact absurd (List.cons.inj h).1 (Item.type_ne_nil hwf.1.ne_nil)
  | .cons key value entries, .cons key' value' entries', rest, rest', hwf, hwf', h => by
    obtain ⟨_, hkeyWf, hvalueWf, hentriesWf⟩ := hwf
    obtain ⟨_, hkeyWf', hvalueWf', hentriesWf'⟩ := hwf'
    rw [Entries.bytes, Entries.bytes, List.append_assoc, List.append_assoc, List.append_assoc,
      List.append_assoc] at h
    obtain ⟨htype, h⟩ := List.cons.inj h
    obtain ⟨hkey, h⟩ := Item.body_append_inj key key' htype hkeyWf hkeyWf' h
    obtain ⟨htype, h⟩ := List.cons.inj h
    obtain ⟨hvalue, h⟩ := Item.body_append_inj value value' htype hvalueWf hvalueWf' h
    obtain ⟨hentries, hrest⟩ := Entries.bytes_append_inj entries entries' hentriesWf hentriesWf' h
    exact ⟨by rw [hkey, hvalue, hentries], hrest⟩

end

theorem Item.bytes_append_inj {item item' : Item} {rest rest' : List UInt8}
    (hwf : item.WellFormed Item.IsKey) (hwf' : item'.WellFormed Item.IsKey)
    (h : item.bytes ++ rest = item'.bytes ++ rest') : item = item' ∧ rest = rest' := by
  obtain ⟨htype, h⟩ := List.cons.inj h
  exact item.body_append_inj item' htype hwf hwf' h

end HyperNet.ScriptEngine
