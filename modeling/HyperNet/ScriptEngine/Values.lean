import HyperNet.ScriptEngine.Format

/-! # Values of two Lua states compared

A heap is taken as a partial function from addresses. Tables are the same when their entries
are, up to their order. `Encodes` says which item is the encoding of a value: a value that has
one is finite, acyclic and of the types that are serialized. -/
namespace HyperNet.ScriptEngine
open HyperNet.Public

abbrev Heap := Nat → Option Table

def lookup (heap : List Table) : Heap := fun address => heap[address]?

/-- The tables from an address on. -/
def above (low : Nat) (heap : List Table) : Heap :=
  fun address => if low ≤ address then heap[address]? else none

/-- The same value, in two states. -/
inductive Same (g g' : Heap) : LuaValue → LuaValue → Prop
  | scalar {v : LuaValue} (h : ∀ address, v ≠ .table address) : Same g g' v v
  | table {address address' : Nat} {t t' : Table}
      (pairs : List ((LuaValue × LuaValue) × (LuaValue × LuaValue)))
      (ht : g address = some t) (ht' : g' address' = some t')
      (hleft : pairs.map Prod.fst = t.entries)
      (hright : (pairs.map Prod.snd).Perm t'.entries)
      (hkey : ∀ p ∈ pairs, Same g g' p.1.1 p.2.1)
      (hvalue : ∀ p ∈ pairs, Same g g' p.1.2 p.2.2) : Same g g' (.table address) (.table address')

/-- A value of the types that are serialized, and its table if it is one finite and acyclic. -/
inductive Plain (g : Heap) : LuaValue → Prop
  | nil : Plain g .nil
  | boolean (b : Bool) : Plain g (.boolean b)
  | integer (n : BitVec 64) : Plain g (.integer n)
  | number (bits : BitVec 64) : Plain g (.number bits)
  | string (bytes : List UInt8) : Plain g (.string bytes)
  | table {address : Nat} {t : Table} (ht : g address = some t)
      (hkey : ∀ entry ∈ t.entries, Plain g entry.1)
      (hvalue : ∀ entry ∈ t.entries, Plain g entry.2) : Plain g (.table address)

mutual

/-- The item is the encoding of the value. -/
def Item.Encodes (g : Heap) : Item → LuaValue → Prop
  | .nil, v => v = .nil
  | .boolean byte, v => ∃ b, v = .boolean b ∧ byte = if b then 1 else 0
  | .integer n, v => v = .integer n
  | .number bits, v => v = .number bits
  | .string bytes, v => v = .string bytes
  | .table entries, v => ∃ address t, v = .table address ∧ g address = some t ∧
      entries.Encode g t.entries

def Entries.Encode (g : Heap) : Entries → List (LuaValue × LuaValue) → Prop
  | .nil, pairs => pairs = []
  | .cons key value entries, pairs => ∃ k v rest, pairs = (k, v) :: rest ∧
      key.Encodes g k ∧ value.Encodes g v ∧ entries.Encode g rest

end

section Plain
variable {g : Heap}

/-- Entries whose keys and values can be encoded. -/
theorem exists_encode {pairs : List (LuaValue × LuaValue)}
    (hkey : ∀ entry ∈ pairs, ∃ item : Item, item.Encodes g entry.1)
    (hvalue : ∀ entry ∈ pairs, ∃ item : Item, item.Encodes g entry.2) :
    ∃ entries : Entries, entries.Encode g pairs := by
  induction pairs with
  | nil => exact ⟨.nil, rfl⟩
  | cons entry pairs ih =>
    obtain ⟨key, hk⟩ := hkey entry List.mem_cons_self
    obtain ⟨value, hv⟩ := hvalue entry List.mem_cons_self
    obtain ⟨entries, hentries⟩ := ih (fun e he => hkey e (List.mem_cons_of_mem _ he))
      (fun e he => hvalue e (List.mem_cons_of_mem _ he))
    exact ⟨.cons key value entries, entry.1, entry.2, pairs, rfl, hk, hv, hentries⟩

/-- Every plain value has an encoding. -/
theorem Plain.exists_encodes {v : LuaValue} (h : Plain g v) : ∃ item : Item, item.Encodes g v := by
  induction h with
  | nil => exact ⟨.nil, rfl⟩
  | boolean b => exact ⟨.boolean (if b then 1 else 0), b, rfl, rfl⟩
  | integer n => exact ⟨.integer n, rfl⟩
  | number bits => exact ⟨.number bits, rfl⟩
  | string bytes => exact ⟨.string bytes, rfl⟩
  | table ht _ _ hkey hvalue =>
    obtain ⟨entries, hentries⟩ := exists_encode hkey hvalue
    exact ⟨.table entries, _, _, rfl, ht, hentries⟩

mutual

/-- Only plain values have an encoding. -/
theorem Item.Encodes.plain : ∀ (item : Item) {v : LuaValue}, item.Encodes g v → Plain g v
  | .nil, _, h => by rw [show _ = LuaValue.nil from h]; exact .nil
  | .boolean _, _, h => by obtain ⟨b, rfl, _⟩ := h; exact .boolean b
  | .integer n, _, h => by rw [show _ = LuaValue.integer n from h]; exact .integer n
  | .number bits, _, h => by rw [show _ = LuaValue.number bits from h]; exact .number bits
  | .string bytes, _, h => by rw [show _ = LuaValue.string bytes from h]; exact .string bytes
  | .table entries, _, h => by
    obtain ⟨_, _, rfl, ht, hentries⟩ := h
    have hplain := Entries.Encode.plain entries hentries
    exact .table ht (fun entry hmem => (hplain entry hmem).1) (fun entry hmem => (hplain entry hmem).2)

theorem Entries.Encode.plain : ∀ (entries : Entries) {pairs : List (LuaValue × LuaValue)},
    entries.Encode g pairs → ∀ entry ∈ pairs, Plain g entry.1 ∧ Plain g entry.2
  | .nil, _, h, entry, hmem => by
    rw [show _ = [] from h] at hmem
    exact absurd hmem List.not_mem_nil
  | .cons key value entries, _, h, entry, hmem => by
    obtain ⟨k, v, rest, rfl, hk, hv, hrest⟩ := h
    cases List.mem_cons.mp hmem with
    | inl heq => rw [heq]; exact ⟨Item.Encodes.plain key hk, Item.Encodes.plain value hv⟩
    | inr hmem => exact Entries.Encode.plain entries hrest entry hmem

end

/-- The values that have an encoding are the plain ones. -/
theorem plain_iff {v : LuaValue} : Plain g v ↔ ∃ item : Item, item.Encodes g v :=
  ⟨Plain.exists_encodes, fun ⟨item, h⟩ => Item.Encodes.plain item h⟩

end Plain

section Encodes
variable {g : Heap}

/-- The key of a table is encoded as one. -/
theorem Item.Encodes.isKey {item : Item} {v : LuaValue} (h : item.Encodes g v) (hv : v.IsKey) :
    item.IsKey := by
  cases item with
  | nil => exact absurd h hv.ne_nil
  | number bits =>
    have hbits : v = .number bits := h
    rw [hbits] at hv
    exact hv.1
  | boolean | integer | string | table => trivial

mutual

/-- What is written for a value is well formed, if it is not too long. -/
theorem Item.Encodes.wellFormed : ∀ (item : Item) {v : LuaValue}, item.Encodes g v →
    item.body.length < s32Bound → item.WellFormed Item.IsKey
  | .nil, _, _, _ | .boolean _, _, _, _ | .integer _, _, _, _ | .number _, _, _, _ => trivial
  | .string bytes, _, _, hlen => by
    rw [Item.body, List.length_append] at hlen
    exact Nat.lt_of_le_of_lt (Nat.le_add_left _ _) hlen
  | .table entries, _, h, hlen => by
    obtain ⟨_, t, _, _, hentries⟩ := h
    exact Entries.Encode.wellFormed entries hentries t.isKey hlen

theorem Entries.Encode.wellFormed : ∀ (entries : Entries) {pairs : List (LuaValue × LuaValue)},
    entries.Encode g pairs → (∀ entry ∈ pairs, entry.1.IsKey) →
    entries.bytes.length < s32Bound → entries.WellFormed Item.IsKey
  | .nil, _, _, _, _ => trivial
  | .cons key value entries, _, h, hkey, hlen => by
    obtain ⟨k, v, rest, rfl, hk, hv, hrest⟩ := h
    rw [Entries.bytes, List.length_append, List.length_append, List.length_cons,
      List.length_cons] at hlen
    refine ⟨hk.isKey (hkey _ List.mem_cons_self), ?_, ?_, ?_⟩
    · exact Item.Encodes.wellFormed key hk (by omega)
    · exact Item.Encodes.wellFormed value hv (by omega)
    · exact Entries.Encode.wellFormed entries hrest
        (fun entry hmem => hkey entry (List.mem_cons_of_mem _ hmem)) (by omega)

end

theorem wellFormed_of_encodes {vs : List LuaValue} {items : List Item}
    (h : List.Forall₂ (fun v (item : Item) => item.Encodes g v) vs items)
    (hlen : (items.flatMap Item.bytes).length < s32Bound) :
    ∀ item ∈ items, item.WellFormed Item.IsKey := by
  induction h with
  | nil => exact fun _ hmem => absurd hmem List.not_mem_nil
  | cons hv _ ih =>
    rw [List.flatMap_cons, List.length_append, Item.bytes, List.length_cons] at hlen
    intro item hmem
    cases List.mem_cons.mp hmem with
    | inl heq => rw [heq]; exact Item.Encodes.wellFormed _ hv (by omega)
    | inr hmem => exact ih (by omega) item hmem

end Encodes

section Same
variable {g g' g'' : Heap}

/-- More tables in the second state do not matter. -/
theorem Same.mono {v v' : LuaValue} (h : Same g g' v v')
    (hsub : ∀ address t, g' address = some t → g'' address = some t) : Same g g'' v v' := by
  induction h with
  | scalar hv => exact .scalar hv
  | table pairs ht ht' hleft hright _ _ ihkey ihvalue =>
    exact .table pairs ht (hsub _ _ ht') hleft hright ihkey ihvalue

theorem Same.eq_of_scalar {v v' : LuaValue} (h : Same g g' v v') (hv : ∀ a, v ≠ .table a) :
    v' = v := by
  cases h with
  | scalar _ => rfl
  | table => exact absurd rfl (hv _)

/-- The same table has the same entries, and those under a key that is no table under that key. -/
theorem Same.entries {address address' : Nat} {t t' : Table}
    (h : Same g g' (.table address) (.table address')) (ht : g address = some t)
    (ht' : g' address' = some t') :
    t.entries.length = t'.entries.length ∧ ∀ entry ∈ t.entries, ∃ entry' ∈ t'.entries,
      Same g g' entry.1 entry'.1 ∧ Same g g' entry.2 entry'.2 ∧
        ((∀ a, entry.1 ≠ .table a) → entry'.1 = entry.1) := by
  cases h with
  | scalar hv => exact absurd rfl (hv _)
  | table pairs hg hg' hleft hright hkey hvalue =>
    rw [hg] at ht
    rw [hg'] at ht'
    cases ht
    cases ht'
    refine ⟨?_, ?_⟩
    · rw [← hleft, ← hright.length_eq, List.length_map, List.length_map]
    · intro entry hmem
      rw [← hleft] at hmem
      obtain ⟨p, hp, rfl⟩ := List.mem_map.mp hmem
      refine ⟨p.2, hright.mem_iff.mp (List.mem_map_of_mem hp), hkey p hp, hvalue p hp, ?_⟩
      exact (hkey p hp).eq_of_scalar

theorem Same.ne_nil {v v' : LuaValue} (h : Same g g' v v') (hv : v ≠ .nil) : v' ≠ .nil := by
  cases h with
  | scalar _ => exact hv
  | table => simp

theorem Same.isKey {v v' : LuaValue} (h : Same g g' v v') (hv : v.IsKey) : v'.IsKey := by
  cases h with
  | scalar _ => exact hv
  | table => trivial

end Same

end HyperNet.ScriptEngine
