import HyperNet.ScriptEngine.Serialize

/-! # Encodings and what the reading side makes of them

`Item` is the syntax of one encoded value, `Item.build` the value it stands for. The stream
of the reading side is described by what is left of the string (`Reads`). A complete encoding
is taken in as a whole, whatever follows it. -/
namespace HyperNet.ScriptEngine
open HyperNet.Core HyperNet.Public
open HyperNet.Logic (readS32 s32Bytes readS32_of_drop length_s32Bytes)

mutual

/-- One encoded value. -/
inductive Item
  | nil
  | boolean (byte : UInt8)
  | integer (n : BitVec 64)
  | number (bits : BitVec 64)
  | string (bytes : List UInt8)
  | table (entries : Entries)

/-- The keys and values of an encoded table. -/
inductive Entries
  | nil
  | cons (key value : Item) (entries : Entries)

end

namespace Item

def type : Item → UInt8
  | .nil => NIL
  | .boolean _ => BOOLEAN
  | .integer _ => INT
  | .number _ => DOUBLE
  | .string _ => STRING
  | .table _ => TABLE

/-- What `lua_rawset` takes as a key, and `push_table` does not take as the end. -/
def IsKey : Item → Prop
  | .nil => False
  | .number bits => Double.isNaN bits = false
  | _ => True

end Item

mutual

/-- What stands behind the type. -/
def Item.body : Item → List UInt8
  | .nil => []
  | .boolean byte => [byte]
  | .integer n => toBytes 8 n.toNat
  | .number bits => toBytes 8 bits.toNat
  | .string bytes => s32Bytes bytes.length ++ bytes
  | .table entries => entries.bytes

def Entries.bytes : Entries → List UInt8
  | .nil => [NIL]
  | .cons key value entries =>
    (key.type :: key.body) ++ (value.type :: value.body) ++ entries.bytes

end

def Item.bytes (item : Item) : List UInt8 := item.type :: item.body

theorem Item.length_bytes_pos (item : Item) : 0 < item.bytes.length := Nat.succ_pos _

mutual

/-- The lengths of strings fit, and all keys meet a condition. -/
def Item.WellFormed (isKey : Item → Prop) : Item → Prop
  | .string bytes => bytes.length < s32Bound
  | .table entries => entries.WellFormed isKey
  | _ => True

def Entries.WellFormed (isKey : Item → Prop) : Entries → Prop
  | .nil => True
  | .cons key value entries =>
    isKey key ∧ key.WellFormed isKey ∧ value.WellFormed isKey ∧ entries.WellFormed isKey

end

/-- An assignment to the table at an address. -/
def assign (heap : List Table) (address : Nat) (key value : LuaValue) : List Table :=
  match heap[address]?, key.toKey with
  | some t, .ok key => heap.set address (t.set key value)
  | _, _ => heap

@[simp] theorem length_assign (heap : List Table) (address : Nat) (key value : LuaValue) :
    (assign heap address key value).length = heap.length := by
  unfold assign
  split
  · exact List.length_set
  · rfl

/-- `lua_rawset` as `push_table` calls it. -/
theorem rawset_assign {L : LuaState} {key value : LuaValue} {address : Nat}
    {stack : List LuaValue} (hstack : L.stack = value :: key :: .table address :: stack)
    (haddress : address < L.heap.length) {k : { key : LuaValue // key.IsKey }}
    (hkey : key.toKey = .ok k) :
    L.rawset (-3) = .ok { L with
      stack := .table address :: stack
      heap := assign L.heap address key value } := by
  have hvalue : L.value? (-3) = some (.table address) := by rw [LuaState.value?, hstack]; rfl
  have ht : L.heap[address]? = some L.heap[address] := List.getElem?_eq_getElem haddress
  have hassign : assign L.heap address key value =
      L.heap.set address (L.heap[address].set k value) := by
    rw [assign, ht, hkey]
  simp only [LuaState.rawset, hvalue, hstack, ht, hkey, hassign]
  rfl

mutual

/-- The value an item stands for, with the tables made for it. -/
def Item.build : Item → List Table → LuaValue × List Table
  | .nil, heap => (.nil, heap)
  | .boolean byte, heap => (.boolean (byte != 0), heap)
  | .integer n, heap => (.integer n, heap)
  | .number bits, heap => (.number bits, heap)
  | .string bytes, heap => (.string bytes, heap)
  | .table entries, heap =>
    (.table heap.length, entries.build heap.length (heap ++ [Table.empty]))

def Entries.build : Entries → Nat → List Table → List Table
  | .nil, _, heap => heap
  | .cons key value entries, address, heap =>
    let k := key.build heap
    let v := value.build k.2
    entries.build address (assign v.2 address k.1 v.1)

end

/-- The values that a concatenation of items stands for. -/
def buildAll : List Item → List Table → List LuaValue × List Table
  | [], heap => ([], heap)
  | item :: items, heap =>
    let v := item.build heap
    let vs := buildAll items v.2
    (v.1 :: vs.1, vs.2)

mutual

/-- Tables are only ever added. -/
theorem Item.le_build : ∀ (item : Item) (heap : List Table),
    heap.length ≤ (item.build heap).2.length
  | .nil, _ | .boolean _, _ | .integer _, _ | .number _, _ | .string _, _ => Nat.le_refl _
  | .table entries, heap => by
    have h := Entries.le_build entries heap.length (heap ++ [Table.empty])
    rw [List.length_append] at h
    exact Nat.le_trans (Nat.le_add_right _ _) h

theorem Entries.le_build : ∀ (entries : Entries) (address : Nat) (heap : List Table),
    heap.length ≤ (entries.build address heap).length
  | .nil, _, _ => Nat.le_refl _
  | .cons key value entries, address, heap => by
    have hkey := Item.le_build key heap
    have hvalue := Item.le_build value (key.build heap).2
    have hrest := Entries.le_build entries address
      (assign (value.build (key.build heap).2).2 address (key.build heap).1
        (value.build (key.build heap).2).1)
    rw [length_assign] at hrest
    exact Nat.le_trans (Nat.le_trans hkey hvalue) hrest

end

namespace Item

theorem IsKey.ne_nil {item : Item} (h : item.IsKey) : item ≠ .nil := by
  intro hnil
  rw [hnil] at h
  exact h

/-- Only an encoded nil stands for nil. -/
theorem build_ne_nil {item : Item} (h : item ≠ .nil) (heap : List Table) :
    (item.build heap).1 ≠ .nil := by
  cases item with
  | nil => exact absurd rfl h
  | boolean | integer | number | string | table => simp [build]

/-- A key of an encoded table is a key in Lua. -/
theorem toKey_build {item : Item} (h : item.IsKey) (heap : List Table) :
    ∃ key, (item.build heap).1.toKey = .ok key := by
  cases item with
  | nil => exact absurd h id
  | number bits =>
    by_cases hint : Double.toInteger? bits = none
    · exact ⟨_, LuaValue.toKey_of_isKey (v := .number bits) ⟨h, hint⟩⟩
    · exact ⟨_, dif_neg hint⟩
  | boolean | integer | string | table => exact ⟨_, rfl⟩

end Item

/-- The length in front of a string. -/
theorem readS32_s32Bytes {n : Nat} (h : n < s32Bound) : readS32 (s32Bytes n) 0 = n := by
  have hdrop : (s32Bytes n).drop 0 = s32Bytes n ++ [] := by rw [List.append_nil, List.drop_zero]
  rw [readS32_of_drop hdrop, s32_of_lt h]

/-- The offset has stayed within a buffer of `n` bytes and has never moved back. -/
def SerializeStream.Forward (s : SerializeStream) (n : Nat) : Prop :=
  (s.offset :: s.offsets).Pairwise (fun later earlier => earlier ≤ later) ∧
    ∀ k ∈ s.offset :: s.offsets, 0 ≤ k ∧ k ≤ n

/-- The stream reads the string `b`, of which `rest` is left. -/
structure Reads (b : List UInt8) (s : SerializeStream) (rest : List UInt8) : Prop where
  buffer : s.buffer = b
  len : s.len = b.length
  offset : s.offset + rest.length = b.length
  suffix : rest <:+ b
  forward : s.Forward b.length
  /-- The sums that `read` makes are `s32`. -/
  fits : b.length + 8 < s32Bound

/-- The machine with `n` bytes of its stream taken. -/
def Machine.skip (m : Machine) (n : Nat) : Machine :=
  { m with s := m.s.moveTo (m.s.offset + n) }

namespace Reads
variable {b bytes rest : List UInt8} {s : SerializeStream} {m : Machine}

theorem offset_nonneg (h : Reads b s rest) : 0 ≤ s.offset :=
  (h.forward.2 s.offset List.mem_cons_self).1

theorem drop_offset (h : Reads b s rest) : s.buffer.drop s.offset.toNat = rest := by
  obtain ⟨taken, hb⟩ := h.suffix
  have hlen := congrArg List.length hb
  have hoffset := h.offset
  rw [List.length_append] at hlen
  have hpos : s.offset.toNat = taken.length := by omega
  rw [h.buffer, hpos, ← hb, List.drop_left]

/-- Bytes that are there can be taken. -/
theorem moveTo (h : Reads b s (bytes ++ rest)) :
    Reads b (s.moveTo (s.offset + bytes.length)) rest := by
  have hoffset := h.offset
  have hnonneg := h.offset_nonneg
  rw [List.length_append] at hoffset
  refine ⟨h.buffer, h.len, ?_, (List.suffix_append bytes rest).trans h.suffix, ?_, h.fits⟩
  · show s.offset + bytes.length + rest.length = b.length
    omega
  · constructor
    · show ((s.offset + bytes.length) :: s.offset :: s.offsets).Pairwise _
      rw [List.pairwise_cons]
      refine ⟨?_, h.forward.1⟩
      intro earlier hmem
      cases List.mem_cons.mp hmem with
      | inl heq => omega
      | inr hold =>
        have hle := (List.pairwise_cons.mp h.forward.1).1 earlier hold
        omega
    · intro k hk
      cases List.mem_cons.mp hk with
      | inl heq =>
        have hk : k = s.offset + bytes.length := heq
        omega
      | inr hold => exact h.forward.2 k hold

theorem skip (h : Reads b m.s (bytes ++ rest)) : Reads b (m.skip bytes.length).s rest :=
  h.moveTo

/-- The sum in `read` does not overflow. -/
theorem addS32 (h : Reads b s rest) {k : Nat} (hk : k ≤ 8) :
    addS32 s.offset k = .ok (s.offset + k) := by
  have hoffset := h.offset
  have hnonneg := h.offset_nonneg
  have hfits := h.fits
  unfold s32Bound at hfits
  exact if_pos (by omega)

theorem read (h : Reads b s (bytes ++ rest)) (hk : bytes.length ≤ 8) :
    s.read bytes.length = .ok (some bytes, s.moveTo (s.offset + bytes.length)) := by
  have hoffset := h.offset
  have hnonneg := h.offset_nonneg
  have hlen := h.len
  have hbuffer := congrArg List.length h.buffer
  rw [List.length_append] at hoffset
  rw [SerializeStream.read, h.addS32 hk]
  show (if s.len < s.offset + bytes.length then _ else _) = _
  rw [if_neg (by omega), if_pos (by omega), h.drop_offset, List.take_left]

theorem read_short (h : Reads b s rest) {k : Nat} (hk : k ≤ 8) (hshort : rest.length < k) :
    s.read k = .ok (none, s) := by
  have hoffset := h.offset
  have hlen := h.len
  rw [SerializeStream.read, h.addS32 hk]
  exact if_pos (by omega)

theorem fetch (h : Reads b m.s (bytes ++ rest)) (hk : bytes.length ≤ 8) :
    fetch bytes.length m = .ok bytes (m.skip bytes.length) := by
  have hread : onStream (·.read bytes.length) m = .ok (some bytes) (m.skip bytes.length) := by
    rw [onStream, h.read hk, Machine.skip]
  rw [ScriptEngine.fetch, bind_ok hread]
  rfl

theorem fetch_short (h : Reads b m.s rest) {k : Nat} (hk : k ≤ 8) (hshort : rest.length < k) :
    ScriptEngine.fetch k m = .error (.error "unserialize failed") m := by
  have hread : onStream (·.read k) m = .ok none m := by rw [onStream, h.read_short hk hshort]
  rw [ScriptEngine.fetch, bind_ok hread]
  rfl

/-- A string whose bytes are all there. -/
theorem readString (h : Reads b m.s ((s32Bytes bytes.length ++ bytes) ++ rest))
    (hlen : bytes.length < s32Bound) :
    onStream (·.readString) m =
      .ok (some (m.s.offset + 4, bytes.length)) ((m.skip 4).skip bytes.length) := by
  rw [List.append_assoc] at h
  have hread := h.read (show (s32Bytes bytes.length).length ≤ 8 by rw [length_s32Bytes]; omega)
  have hskip := h.skip
  rw [length_s32Bytes] at hread hskip
  have hfield := readS32_s32Bytes hlen
  have hoffset := hskip.offset
  have hnonneg := hskip.offset_nonneg
  have hfits := hskip.fits
  unfold s32Bound at hfits
  rw [List.length_append] at hoffset
  have hsum : s32 ((m.skip 4).s.offset + bytes.length) =
      (m.skip 4).s.offset + bytes.length := by
    rw [← Int.toNat_of_nonneg hnonneg, ← Int.natCast_add, s32_of_lt (by unfold s32Bound; omega)]
  have hstring : m.s.readString =
      .ok (some (m.s.offset + 4, (bytes.length : Int)),
        ((m.skip 4).skip bytes.length).s) := by
    rw [SerializeStream.readString, hread]
    show Except.ok (some ((m.skip 4).s.offset, readS32 (s32Bytes bytes.length) 0),
      (m.skip 4).s.moveTo
        (s32 ((m.skip 4).s.offset + readS32 (s32Bytes bytes.length) 0))) = _
    rw [hfield, hsum]
    rfl
  rw [onStream, hstring]
  rfl

/-- The string is made of the bytes that were passed over. -/
theorem pushlstring (h : Reads b m.s (bytes ++ rest)) (L : LuaState) :
    L.pushlstring (b ++ [0]) m.s.offset bytes.length = .ok (L.push (.string bytes)) := by
  have hdrop := h.drop_offset
  have hoffset := h.offset
  have hnonneg := h.offset_nonneg
  have hlength : (b ++ [0]).length = b.length + 1 := List.length_append
  rw [h.buffer] at hdrop
  rw [List.length_append] at hoffset
  rw [LuaState.pushlstring, if_neg (by omega), if_neg (by omega)]
  split
  · next hnil =>
    have hbytes : bytes = [] := List.eq_nil_of_length_eq_zero (by omega)
    rw [hbytes]
  · rw [if_pos (by omega), List.drop_append_of_le_length (by omega), hdrop, Int.toNat_natCast,
      List.append_assoc, List.take_left]

end Reads

/-- Eight bytes hold 64 bits. -/
theorem ofNat_ofBytes (x : BitVec 64) : BitVec.ofNat 64 (ofBytes (toBytes 8 x.toNat)) = x := by
  rw [ofBytes_toBytes (show x.toNat < 2 ^ (8 * 8) from x.isLt), BitVec.ofNat_toNat,
    BitVec.setWidth_eq]

/-- An item has been taken in: its value is on the stack. -/
structure Took (b rest : List UInt8) (item : Item) (m m' : Machine) : Prop where
  reads : Reads b m'.s rest
  stack : m'.L.stack = (item.build m.L.heap).1 :: m.L.stack
  heap : m'.L.heap = (item.build m.L.heap).2

section Take
variable {b : List UInt8}

/-- `push_one` reads the type, `push_value` what stands behind it. -/
theorem pushOne_item (item : Item) (fuel : Nat) {rest : List UInt8} {m : Machine}
    (hvalue : ∀ m : Machine, Reads b m.s (item.body ++ rest) →
      ∃ m', pushValue (pushEntries fuel) item.type m = .ok () m' ∧ Took b rest item m m')
    (h : Reads b m.s (item.bytes ++ rest)) :
    ∃ m', pushOne (fuel + 1) m = .ok () m' ∧ Took b rest item m m' := by
  have htype : Reads b m.s ([item.type] ++ (item.body ++ rest)) := h
  have hfetch : fetch 1 m = .ok [item.type] (m.skip 1) :=
    htype.fetch (show [item.type].length ≤ 8 by simp)
  obtain ⟨m', hm', htook⟩ := hvalue (m.skip 1) htype.skip
  refine ⟨m', ?_, htook.reads, htook.stack, htook.heap⟩
  rw [pushOne, bind_ok hfetch]
  exact hm'

/-- A fixed number of bytes behind the type is read and pushed. -/
theorem fetch_push {k : Nat} {rest bytes : List UInt8} {item : Item} {m : Machine}
    {f : List UInt8 → LuaValue} (hlen : bytes.length = k) (hk : k ≤ 8)
    (hbuild : item.build m.L.heap = (f bytes, m.L.heap)) (h : Reads b m.s (bytes ++ rest)) :
    ∃ m', (do let bytes ← fetch k; onStack (·.push (f bytes)) : Seri Unit) m = .ok () m' ∧
      Took b rest item m m' := by
  have hfetch := h.fetch (show bytes.length ≤ 8 by omega)
  rw [hlen] at hfetch
  refine ⟨_, bind_ok hfetch, hlen ▸ h.skip, ?_, ?_⟩
  · rw [hbuild]; rfl
  · rw [hbuild]; rfl

/-- A nil in the place of a key ends the loop of `push_table`. -/
theorem pushEntries_end {fuel : Nat} {m m' : Machine} {stack : List LuaValue}
    (h : pushOne fuel m = .ok () m') (hstack : m'.L.stack = .nil :: stack) :
    pushEntries (fuel + 1) m = .ok () { m' with L := m'.L.pop 1 } := by
  have htop : valueAt (-1) m' = .ok (some .nil) m' := by
    rw [valueAt, LuaState.value?, hstack]; rfl
  rw [pushEntries, bind_ok h]
  exact (bind_ok htop).trans rfl

/-- Another value is a key, and the loop goes on with the value. -/
theorem pushEntries_key {fuel : Nat} {m m' : Machine} {stack : List LuaValue} {key : LuaValue}
    (h : pushOne fuel m = .ok () m') (hstack : m'.L.stack = key :: stack) (hkey : key ≠ .nil) :
    pushEntries (fuel + 1) m = (do
      pushOne fuel
      onLua (·.rawset (-3))
      pushEntries fuel : Seri Unit) m' := by
  have htop : valueAt (-1) m' = .ok (some key) m' := by
    rw [valueAt, LuaState.value?, hstack]; rfl
  rw [pushEntries, bind_ok h]
  refine (bind_ok htop).trans ?_
  cases key with
  | nil => exact absurd rfl hkey
  | boolean | integer | number | string | table | other => rfl

mutual

/-- Behind its type, a well-formed item is taken in whole. -/
theorem pushValue_item : ∀ (item : Item) (fuel : Nat) {rest : List UInt8} {m : Machine},
    item.WellFormed Item.IsKey → Reads b m.s (item.body ++ rest) →
    2 * item.body.length + 2 ≤ fuel →
    ∃ m', pushValue (pushEntries fuel) item.type m = .ok () m' ∧ Took b rest item m m'
  | .nil, _, _, m, _, h, _ => ⟨{ m with L := m.L.push .nil }, rfl, h, rfl, rfl⟩
  | .boolean byte, _, _, _, _, h, _ =>
    fetch_push (f := fun bytes => .boolean (bytes.getD 0 0 != 0)) rfl (by omega) rfl h
  | .integer n, _, _, m, _, h, _ => by
    have hbuild : (Item.integer n).build m.L.heap =
        (.integer (.ofNat 64 (ofBytes (toBytes 8 n.toNat))), m.L.heap) := by
      rw [ofNat_ofBytes, Item.build]
    exact fetch_push (f := fun bytes => .integer (.ofNat 64 (ofBytes bytes)))
      (length_toBytes 8 n.toNat) (Nat.le_refl 8) hbuild h
  | .number bits, _, _, m, _, h, _ => by
    have hbuild : (Item.number bits).build m.L.heap =
        (.number (.ofNat 64 (ofBytes (toBytes 8 bits.toNat))), m.L.heap) := by
      rw [ofNat_ofBytes, Item.build]
    exact fetch_push (f := fun bytes => .number (.ofNat 64 (ofBytes bytes)))
      (length_toBytes 8 bits.toNat) (Nat.le_refl 8) hbuild h
  | .string bytes, _, rest, m, hwf, h, _ => by
    have hlength : Reads b m.s (s32Bytes bytes.length ++ (bytes ++ rest)) := by
      rw [← List.append_assoc]; exact h
    have hbytes : Reads b (m.skip 4).s (bytes ++ rest) := hlength.skip
    have hpush : pushlstring (m.s.buffer ++ [0]) (m.s.offset + 4) bytes.length
        ((m.skip 4).skip bytes.length) =
        .ok () { (m.skip 4).skip bytes.length with L := m.L.push (.string bytes) } := by
      rw [h.buffer]
      exact pushlstring_ok (hbytes.pushlstring m.L)
    exact ⟨_, (bind_ok (h.readString hwf)).trans hpush, hbytes.skip, rfl, rfl⟩
  | .table entries, fuel, rest, m, hwf, h, hfuel => by
    have hheap : (m.L.heap ++ [Table.empty]).length = m.L.heap.length + 1 := List.length_append
    obtain ⟨m', hm', hreads, hstack, hbuild⟩ := pushEntries_entries entries fuel
      (m := { m with L := m.L.newtable }) hwf h rfl
      (show m.L.heap.length < (m.L.heap ++ [Table.empty]).length by omega) hfuel
    exact ⟨m', hm', hreads, hstack, hbuild⟩

/-- The loop of `push_table` takes the entries in, up to the end of the table. -/
theorem pushEntries_entries : ∀ (entries : Entries) (fuel : Nat) {rest : List UInt8} {address : Nat}
    {m : Machine} {stack : List LuaValue}, entries.WellFormed Item.IsKey →
    Reads b m.s (entries.bytes ++ rest) → m.L.stack = .table address :: stack →
    address < m.L.heap.length → 2 * entries.bytes.length + 2 ≤ fuel →
    ∃ m', pushEntries fuel m = .ok () m' ∧ Reads b m'.s rest ∧ m'.L.stack = m.L.stack ∧
      m'.L.heap = entries.build address m.L.heap
  | .nil, fuel, rest, address, m, stack, hwf, h, hstack, haddress, hfuel => by
    obtain ⟨bound, rfl⟩ : ∃ bound, fuel = bound + 2 := ⟨fuel - 2, by omega⟩
    obtain ⟨m', hm', htook⟩ := pushOne_item .nil bound
      (fun m h => ⟨{ m with L := m.L.push .nil }, rfl, h, rfl, rfl⟩) h
    refine ⟨{ m' with L := m'.L.pop 1 }, pushEntries_end hm' htook.stack, htook.reads, ?_, ?_⟩
    · show m'.L.stack.drop 1 = m.L.stack
      rw [htook.stack]; rfl
    · exact htook.heap
  | .cons key value entries, fuel, rest, address, m, stack, hwf, h, hstack, haddress, hfuel => by
    obtain ⟨hkey, hkeyWf, hvalueWf, hentriesWf⟩ := hwf
    rw [Entries.bytes, List.length_append, List.length_append, List.length_cons,
      List.length_cons] at hfuel
    obtain ⟨bound, rfl⟩ : ∃ bound, fuel = bound + 2 := ⟨fuel - 2, by omega⟩
    have h : Reads b m.s (key.bytes ++ (value.bytes ++ (entries.bytes ++ rest))) := by
      rw [Entries.bytes, List.append_assoc, List.append_assoc] at h
      exact h
    obtain ⟨m₁, hm₁, hreads₁, hstack₁, hheap₁⟩ := pushOne_item key bound
      (fun m h => pushValue_item key bound hkeyWf h (by omega)) h
    obtain ⟨m₂, hm₂, hreads₂, hstack₂, hheap₂⟩ := pushOne_item value bound
      (fun m h => pushValue_item value bound hvalueWf h (by omega)) hreads₁
    have hnil := Item.build_ne_nil hkey.ne_nil m.L.heap
    obtain ⟨k, hk⟩ := Item.toKey_build hkey m.L.heap
    rw [hstack₁, hstack, hheap₁] at hstack₂
    rw [hheap₁] at hheap₂
    have haddress₂ : address < m₂.L.heap.length := by
      have hle₁ := key.le_build m.L.heap
      have hle₂ := value.le_build (key.build m.L.heap).2
      rw [hheap₂]
      omega
    have hset : onLua (·.rawset (-3)) m₂ = .ok () _ := onLua_ok (rawset_assign hstack₂ haddress₂ hk)
    obtain ⟨m', hm', hreads', hstack', hheap'⟩ := pushEntries_entries entries (bound + 1)
      hentriesWf (m := { m₂ with L := { m₂.L with
        stack := .table address :: stack
        heap := assign m₂.L.heap address (key.build m.L.heap).1 (value.build (key.build m.L.heap).2).1 } })
      hreads₂ rfl (by rw [length_assign]; exact haddress₂) (by omega)
    refine ⟨m', ?_, hreads', hstack'.trans hstack.symm, ?_⟩
    · rw [pushEntries_key hm₁ hstack₁ hnil, bind_ok hm₂]
      exact (bind_ok hset).trans hm'
    · rw [hheap', Entries.build, ← hheap₂]

end

/-- `push_one` takes a well-formed item in. -/
theorem pushOne_whole (item : Item) (fuel : Nat) {rest : List UInt8} {m : Machine}
    (hwf : item.WellFormed Item.IsKey) (h : Reads b m.s (item.bytes ++ rest))
    (hfuel : 2 * item.bytes.length + 1 ≤ fuel) :
    ∃ m', pushOne fuel m = .ok () m' ∧ Took b rest item m m' := by
  rw [Item.bytes, List.length_cons] at hfuel
  obtain ⟨bound, rfl⟩ : ∃ k, fuel = k + 1 := ⟨fuel - 1, by omega⟩
  exact pushOne_item item bound (fun _ h => pushValue_item item bound hwf h (by omega)) h

/-- Where `push_one` succeeds on a well-formed item, this is what it has taken. -/
theorem took_of_ok (item : Item) {fuel : Nat} {rest : List UInt8} {m m' : Machine}
    (hwf : item.WellFormed Item.IsKey) (h : Reads b m.s (item.bytes ++ rest))
    (hfuel : 2 * item.bytes.length + 1 ≤ fuel) (hm' : pushOne fuel m = .ok () m') :
    Took b rest item m m' := by
  obtain ⟨m₁, hm₁, htook⟩ := pushOne_whole item fuel hwf h hfuel
  rw [hm'] at hm₁
  cases hm₁
  exact htook

/-- One round of the loop of `l_unserialize`. -/
theorem pushValues_item (bound fuel i : Nat) {rest : List UInt8} {item : Item} {m : Machine}
    (hwf : item.WellFormed Item.IsKey) (h : Reads b m.s (item.bytes ++ rest))
    (hbound : 2 * item.bytes.length + 2 ≤ bound) :
    ∃ m', pushValues bound (fuel + 1) i m = pushValues bound fuel (i + 1) m' ∧
      Took b rest item m m' := by
  obtain ⟨m₀, hcheck, hs, hstack, hheap⟩ := checkstack_round i m
  rw [← hs] at h
  have htype : Reads b m₀.s ([item.type] ++ (item.body ++ rest)) := h
  have hread : onStream (·.read 1) m₀ = .ok (some [item.type]) (m₀.skip 1) := by
    have hread := htype.read (show [item.type].length ≤ 8 by simp)
    rw [List.length_singleton] at hread
    rw [onStream, hread]
    rfl
  rw [Item.bytes, List.length_cons] at hbound
  obtain ⟨m', hm', htook⟩ := pushValue_item item bound hwf htype.skip (by omega)
  refine ⟨m', ?_, htook.reads, ?_, ?_⟩
  · rw [pushValues, bind_ok hcheck, bind_ok hread]
    exact bind_ok hm'
  · rw [htook.stack]
    show (item.build m₀.L.heap).1 :: m₀.L.stack = _
    rw [hstack, hheap]
  · rw [htook.heap]
    show (item.build m₀.L.heap).2 = _
    rw [hheap]

/-- The loop of `l_unserialize` ends at the end of the string. -/
theorem pushValues_end (bound fuel i : Nat) {m : Machine} (h : Reads b m.s []) :
    ∃ m', pushValues bound (fuel + 1) i m = .ok () m' ∧ m'.s = m.s ∧
      m'.L.stack = m.L.stack ∧ m'.L.heap = m.L.heap := by
  obtain ⟨m₀, hcheck, hs, hstack, hheap⟩ := checkstack_round i m
  rw [← hs] at h
  have hread : onStream (·.read 1) m₀ = .ok none m₀ := by
    rw [onStream, h.read_short (by omega) (by simp)]
  refine ⟨m₀, ?_, hs, hstack, hheap⟩
  rw [pushValues, bind_ok hcheck, bind_ok hread]
  rfl

/-- The loop of `l_unserialize` on a concatenation of well-formed items. -/
theorem pushValues_items {items : List Item} :
    ∀ (bound fuel i : Nat) {m : Machine}, (∀ item ∈ items, item.WellFormed Item.IsKey) →
    Reads b m.s (items.flatMap Item.bytes) → 2 * (items.flatMap Item.bytes).length + 2 ≤ bound →
    items.length < fuel →
    ∃ m', pushValues bound fuel i m = .ok () m' ∧ Reads b m'.s [] ∧
      m'.L.stack = (buildAll items m.L.heap).1.reverse ++ m.L.stack ∧
      m'.L.heap = (buildAll items m.L.heap).2 := by
  induction items with
  | nil =>
    intro bound fuel i m _ h _ hfuel
    obtain ⟨fuel, rfl⟩ : ∃ k, fuel = k + 1 := ⟨fuel - 1, by simp at hfuel; omega⟩
    obtain ⟨m', hm', hs, hstack, hheap⟩ := pushValues_end bound fuel i h
    exact ⟨m', hm', hs ▸ h, hstack, hheap⟩
  | cons item items ih =>
    intro bound fuel i m hwf h hbound hfuel
    rw [List.flatMap_cons] at h hbound
    rw [List.length_append] at hbound
    rw [List.length_cons] at hfuel
    obtain ⟨fuel, rfl⟩ : ∃ k, fuel = k + 1 := ⟨fuel - 1, by omega⟩
    obtain ⟨m₁, hm₁, htook⟩ :=
      pushValues_item bound fuel i (hwf item List.mem_cons_self) h (by omega)
    obtain ⟨m', hm', hreads, hstack, hheap⟩ := ih bound fuel (i + 1)
      (fun item hmem => hwf item (List.mem_cons_of_mem _ hmem)) htook.reads (by omega) (by omega)
    refine ⟨m', hm₁.trans hm', hreads, ?_, ?_⟩
    · rw [hstack, htook.stack, htook.heap, buildAll, List.reverse_cons, List.append_assoc]
      rfl
    · rw [hheap, htook.heap, buildAll]

end Take

/-- A string that is short enough is read from its beginning. -/
theorem reads_ofString {b : List UInt8} (hfits : b.length + 8 < s32Bound) :
    Reads b (.ofString b) b := by
  have hlen : (SerializeStream.ofString b).len = b.length := by
    rw [SerializeStream.ofString, s32_of_lt (by omega)]
  refine ⟨rfl, hlen, Int.zero_add _, List.suffix_refl b, ⟨List.pairwise_singleton _ _, ?_⟩, hfits⟩
  intro k hk
  have hk : k = 0 := List.mem_singleton.mp hk
  omega

/-- Every item takes at least one byte. -/
theorem length_le_bytes (items : List Item) :
    items.length ≤ (items.flatMap Item.bytes).length := by
  induction items with
  | nil => exact Nat.le_refl _
  | cons item items ih =>
    rw [List.flatMap_cons, List.length_append, List.length_cons, Item.bytes, List.length_cons]
    omega

/-- `l_unserialize` on a concatenation of well-formed items returns what they stand for. -/
theorem lUnserialize_items {items : List Item} {m : Machine}
    (hwf : ∀ item ∈ items, item.WellFormed Item.IsKey)
    (hfits : (items.flatMap Item.bytes).length + 8 < s32Bound) :
    ∃ m', results (lUnserialize (items.flatMap Item.bytes)) m =
        .ok (buildAll items m.L.heap).1 m' ∧
      (items ≠ [] → Reads (items.flatMap Item.bytes) m'.s []) ∧
      m'.L.heap = (buildAll items m.L.heap).2 := by
  cases items with
  | nil => exact ⟨m, rfl, by simp, rfl⟩
  | cons item items =>
    have hlen := length_le_bytes (item :: items)
    rw [List.length_cons] at hlen
    have hpos : ((item :: items).flatMap Item.bytes).length ≠ 0 := by omega
    obtain ⟨m', hm', hreads, hstack, hheap⟩ := pushValues_items
      (2 * ((item :: items).flatMap Item.bytes).length + 2)
      (((item :: items).flatMap Item.bytes).length + 1) 0
      (m := ⟨{ m.L with stack := [] }, .ofString ((item :: items).flatMap Item.bytes)⟩)
      hwf (reads_ofString hfits) (Nat.le_refl _) (by rw [List.length_cons]; omega)
    have hcall : lUnserialize ((item :: items).flatMap Item.bytes) m =
        .ok m'.L.stack.length m' := by
      have hset : (modify fun m => { m with
          L := { m.L with stack := [] }
          s := .ofString ((item :: items).flatMap Item.bytes) } : Seri Unit) m =
          .ok () ⟨{ m.L with stack := [] }, .ofString ((item :: items).flatMap Item.bytes)⟩ := rfl
      rw [lUnserialize, if_neg hpos, bind_ok hset, bind_ok hm']
      rfl
    refine ⟨m', ?_, fun _ => hreads, hheap⟩
    rw [results, hcall]
    show EStateM.Result.ok (m'.L.stack.take m'.L.stack.length).reverse m' = _
    rw [List.take_length, hstack, List.append_nil, List.reverse_reverse]

end HyperNet.ScriptEngine
