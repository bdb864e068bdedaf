import HyperNet.ScriptEngine.PrefixFree

/-! # What the reading side accepts

Behind a whole encoding nothing is looked at, so a string is taken in item by item. What is not
a concatenation of items is refused with an error, unless a STRING is reached whose length is
not the length of what follows (`readString` does not compare it with the end of the buffer). -/
namespace HyperNet.ScriptEngine
open HyperNet.Core HyperNet.Public
open HyperNet.Logic (readS32 s32Bytes s32Bytes_readS32 length_s32Bytes)

mutual

/-- In this value, a STRING is reached whose length is bad for the number of bytes that are left
behind it. -/
inductive Meets (bad : Int → Nat → Prop) : List UInt8 → Prop
  | string {length rest : List UInt8} (hlength : length.length = 4)
      (h : bad (readS32 length 0) rest.length) : Meets bad (STRING :: (length ++ rest))
  | table {bytes : List UInt8} (h : EntriesMeet bad bytes) : Meets bad (TABLE :: bytes)

/-- The same within the entries of a table. -/
inductive EntriesMeet (bad : Int → Nat → Prop) : List UInt8 → Prop
  | key {bytes : List UInt8} (h : Meets bad bytes) : EntriesMeet bad bytes
  | value {key : Item} {bytes : List UInt8} (hkey : key ≠ .nil)
      (hwf : key.WellFormed Item.IsKey) (h : Meets bad bytes) : EntriesMeet bad (key.bytes ++ bytes)
  | later {key value : Item} {bytes : List UInt8} (hkey : key.IsKey)
      (hkeyWf : key.WellFormed Item.IsKey) (hvalueWf : value.WellFormed Item.IsKey)
      (h : EntriesMeet bad bytes) : EntriesMeet bad (key.bytes ++ (value.bytes ++ bytes))

end

/-- The same in one of the values of a string. -/
inductive StringMeets (bad : Int → Nat → Prop) : List UInt8 → Prop
  | here {bytes : List UInt8} (h : Meets bad bytes) : StringMeets bad bytes
  | later {item : Item} {bytes : List UInt8} (hwf : item.WellFormed Item.IsKey)
      (h : StringMeets bad bytes) : StringMeets bad (item.bytes ++ bytes)

/-- The length is negative or more than what is left. -/
def Overrun (len : Int) (left : Nat) : Prop := len < 0 ∨ left < len

/-- A STRING is reached whose length is negative or more than what is left. -/
abbrev StringOverrun : List UInt8 → Prop := StringMeets Overrun

section Meets
variable {bad : Int → Nat → Prop}

theorem Meets.type {type : UInt8} {bytes : List UInt8} (h : Meets bad (type :: bytes)) :
    type = STRING ∨ type = TABLE := by
  generalize hb : type :: bytes = all at h
  cases h with
  | string => exact Or.inl (List.cons.inj hb).1
  | table => exact Or.inr (List.cons.inj hb).1

mutual

/-- In a whole encoding, the bytes of each STRING are there. -/
theorem Item.not_meets (hbad : ∀ len left, bad len left → Overrun len left) :
    ∀ (item : Item) {rest : List UInt8}, item.WellFormed Item.IsKey →
      ¬ Meets bad (item.bytes ++ rest)
  | .nil, _, _, h => absurd h.type (show ¬(NIL = STRING ∨ NIL = TABLE) by decide)
  | .boolean _, _, _, h => absurd h.type (show ¬(BOOLEAN = STRING ∨ BOOLEAN = TABLE) by decide)
  | .integer _, _, _, h => absurd h.type (show ¬(INT = STRING ∨ INT = TABLE) by decide)
  | .number _, _, _, h => absurd h.type (show ¬(DOUBLE = STRING ∨ DOUBLE = TABLE) by decide)
  | .string bytes, rest, hwf, h => by
    generalize hb : (Item.string bytes).bytes ++ rest = all at h
    cases h with
    | @string length rest' hlength h =>
      have hb : (s32Bytes bytes.length ++ bytes) ++ rest = length ++ rest' := (List.cons.inj hb).2
      rw [List.append_assoc] at hb
      obtain ⟨rfl, rfl⟩ := List.append_inj hb (by rw [length_s32Bytes, hlength])
      have hover := hbad _ _ h
      rw [readS32_s32Bytes hwf, Overrun, List.length_append] at hover
      omega
    | table => exact absurd (List.cons.inj hb).1 (show STRING ≠ TABLE by decide)
  | .table entries, rest, hwf, h => by
    generalize hb : (Item.table entries).bytes ++ rest = all at h
    cases h with
    | string => exact absurd (List.cons.inj hb).1 (show TABLE ≠ STRING by decide)
    | table h =>
      rw [← (List.cons.inj hb).2] at h
      exact Entries.not_meets hbad entries hwf h

theorem Entries.not_meets (hbad : ∀ len left, bad len left → Overrun len left) :
    ∀ (entries : Entries) {rest : List UInt8}, entries.WellFormed Item.IsKey →
      ¬ EntriesMeet bad (entries.bytes ++ rest)
  | .nil, rest, _, h => by
    have hnil : Item.nil.WellFormed Item.IsKey := trivial
    generalize hb : Entries.nil.bytes ++ rest = all at h
    have hb : Item.nil.bytes ++ rest = all := hb
    cases h with
    | key h =>
      rw [← hb] at h
      exact absurd h.type (show ¬(NIL = STRING ∨ NIL = TABLE) by decide)
    | value hkey hwf => exact hkey (Item.bytes_append_inj hnil hwf hb).1.symm
    | later hkey hwf => exact hkey.ne_nil (Item.bytes_append_inj hnil hwf hb).1.symm
  | .cons key value entries, rest, hwf, h => by
    obtain ⟨_, hkeyWf, hvalueWf, hentriesWf⟩ := hwf
    generalize hb : (Entries.cons key value entries).bytes ++ rest = all at h
    have hb : key.bytes ++ (value.bytes ++ (entries.bytes ++ rest)) = all := by
      rw [← hb, Entries.bytes, List.append_assoc, List.append_assoc]
      rfl
    cases h with
    | key h =>
      rw [← hb] at h
      exact Item.not_meets hbad key hkeyWf h
    | value _ hwf h =>
      rw [← (Item.bytes_append_inj hkeyWf hwf hb).2] at h
      exact Item.not_meets hbad value hvalueWf h
    | later _ hwf hwf' h =>
      have hb := (Item.bytes_append_inj hkeyWf hwf hb).2
      rw [← (Item.bytes_append_inj hvalueWf hwf' hb).2] at h
      exact Entries.not_meets hbad entries hentriesWf h

end

theorem not_stringMeets_nil : ¬ StringMeets bad [] := by
  intro h
  generalize hb : ([] : List UInt8) = bytes at h
  cases h with
  | here h =>
    cases h with
    | string => cases hb
    | table => cases hb
  | later => cases hb

/-- It is behind the whole encodings that stand at the beginning. -/
theorem StringMeets.behind (hbad : ∀ len left, bad len left → Overrun len left)
    {items : List Item} {rest : List UInt8} (hwf : ∀ item ∈ items, item.WellFormed Item.IsKey)
    (h : StringMeets bad (items.flatMap Item.bytes ++ rest)) : StringMeets bad rest := by
  induction items with
  | nil => exact h
  | cons item items ih =>
    rw [List.forall_mem_cons] at hwf
    rw [List.flatMap_cons, List.append_assoc] at h
    generalize hb : item.bytes ++ (items.flatMap Item.bytes ++ rest) = all at h
    cases h with
    | here h =>
      rw [← hb] at h
      exact absurd h (item.not_meets hbad hwf.1)
    | later hwf' h =>
      rw [← (Item.bytes_append_inj hwf.1 hwf' hb).2] at h
      exact ih hwf.2 h

end Meets

/-- The string ends with a whole encoding. -/
def IsEncoding (isKey : Item → Prop) (b : List UInt8) : Prop :=
  ∃ items : List Item, (∀ item ∈ items, item.WellFormed isKey) ∧ b = items.flatMap Item.bytes

/-- An error was raised while `rest` was left. -/
def Refused {α : Type} (b : List UInt8) (r : EStateM.Result Failure Machine α) : Prop :=
  ∃ message m rest, r = .error (.error message) m ∧ Reads b m.s rest

section Refuse
variable {b : List UInt8} {α β : Type} {x : Seri α} {f : α → Seri β} {m m' : Machine}

theorem Refused.bind (h : Refused b (x m)) : Refused b ((x >>= f) m) := by
  obtain ⟨message, m', rest, hx, hreads⟩ := h
  exact ⟨message, m', rest, bind_error hx, hreads⟩

theorem Refused.bind_of_ok {a : α} (hx : x m = .ok a m') (h : Refused b (f a m')) :
    Refused b ((x >>= f) m) := by
  rw [bind_ok hx]
  exact h

theorem Refused.luaError {rest : List UInt8} {message : String} (h : Reads b m.s rest) :
    Refused b ((luaError message : Seri α) m) := ⟨message, m, rest, rfl, h⟩

end Refuse

/-- Eight bytes are the bytes of a 64-bit number. -/
theorem exists_word {rest : List UInt8} (h : 8 ≤ rest.length) :
    ∃ (x : BitVec 64) (rest' : List UInt8), rest = toBytes 8 x.toNat ++ rest' := by
  have hlen : (rest.take 8).length = 8 := List.length_take_of_le h
  have hlt := ofBytes_lt (rest.take 8)
  have hbytes := toBytes_ofBytes (rest.take 8)
  rw [hlen] at hlt hbytes
  refine ⟨.ofNat 64 (ofBytes (rest.take 8)), rest.drop 8, ?_⟩
  rw [BitVec.toNat_ofNat, Nat.mod_eq_of_lt hlt, hbytes, List.take_append_drop]

/-- A whole string is its length and its bytes. -/
theorem exists_string {length : List UInt8} (rest : List UInt8) (hlength : length.length = 4)
    (hnonneg : 0 ≤ readS32 length 0) (hle : readS32 length 0 ≤ rest.length) :
    ∃ bytes rest', length ++ rest = (Item.string bytes).body ++ rest' ∧
      bytes.length ≤ rest.length := by
  have hlen : (rest.take (readS32 length 0).toNat).length = (readS32 length 0).toNat :=
    List.length_take_of_le (by omega)
  refine ⟨rest.take (readS32 length 0).toNat, rest.drop (readS32 length 0).toNat, ?_, by omega⟩
  rw [Item.body, hlen, Int.toNat_of_nonneg hnonneg, s32Bytes_readS32 hlength, List.append_assoc,
    List.take_append_drop]

section Cases
variable {b : List UInt8}

/-- A failing `read` in `push_value`. -/
theorem refused_fetch {k : Nat} {rest : List UInt8} {m : Machine} {f : List UInt8 → Seri Unit}
    (h : Reads b m.s rest) (hk : k ≤ 8) (hshort : rest.length < k) :
    Refused b ((fetch k >>= f) m) :=
  Refused.bind ⟨_, m, rest, h.fetch_short hk hshort, h⟩

/-- Behind the type STRING: the string, an error, or an overrun. -/
theorem pushString_cases {entries : Seri Unit} {rest : List UInt8} {m : Machine}
    (h : Reads b m.s rest) :
    (∃ (bytes : List UInt8) (rest' : List UInt8), (Item.string bytes).WellFormed Item.IsKey ∧
        rest = (Item.string bytes).body ++ rest') ∨
      Refused b (pushValue entries STRING m) ∨ Meets Overrun (STRING :: rest) := by
  by_cases hshort : rest.length < 4
  · have hread : onStream (·.readString) m = .ok none m := by
      rw [onStream, SerializeStream.readString, h.read_short (by omega) hshort]
      rfl
    exact Or.inr (Or.inl (Refused.bind_of_ok hread (Refused.luaError h)))
  · have hlength : (rest.take 4).length = 4 := List.length_take_of_le (by omega)
    by_cases hbad : readS32 (rest.take 4) 0 < 0 ∨
        ((rest.drop 4).length : Int) < readS32 (rest.take 4) 0
    · have hover : Meets Overrun _ := .string hlength hbad
      rw [List.take_append_drop] at hover
      exact Or.inr (Or.inr hover)
    · rw [not_or, Int.not_lt, Int.not_lt] at hbad
      obtain ⟨bytes, rest', hrest, hle⟩ := exists_string _ hlength hbad.1 hbad.2
      rw [List.take_append_drop] at hrest
      have hdrop : (rest.drop 4).length = rest.length - 4 := List.length_drop
      have hsuffix := h.suffix.length_le
      have hfits := h.fits
      exact Or.inl ⟨bytes, rest', show bytes.length < s32Bound by omega, hrest⟩

/-- Behind a type: an item, an error, or an overrun. -/
theorem pushValue_cases {fuel : Nat} {type : UInt8} {rest : List UInt8} {m : Machine}
    (h : Reads b m.s rest) (htable : (∃ (entries : Entries) (rest' : List UInt8),
        entries.WellFormed Item.IsKey ∧ rest = entries.bytes ++ rest') ∨
      Refused b (pushTable (pushEntries fuel) m) ∨ EntriesMeet Overrun rest) :
    (∃ (item : Item) (rest' : List UInt8), item.WellFormed Item.IsKey ∧
        type :: rest = item.bytes ++ rest') ∨
      Refused b (pushValue (pushEntries fuel) type m) ∨ Meets Overrun (type :: rest) := by
  by_cases hnil : type = NIL
  · exact Or.inl ⟨.nil, rest, trivial, by rw [hnil]; rfl⟩
  by_cases hboolean : type = BOOLEAN
  · rw [hboolean]
    cases rest with
    | nil => exact Or.inr (Or.inl (refused_fetch h (by omega) (by simp)))
    | cons byte rest => exact Or.inl ⟨.boolean byte, rest, trivial, rfl⟩
  by_cases hint : type = INT
  · rw [hint]
    by_cases hshort : rest.length < 8
    · exact Or.inr (Or.inl (refused_fetch h (by omega) hshort))
    · obtain ⟨x, rest', rfl⟩ := exists_word (Nat.le_of_not_lt hshort)
      exact Or.inl ⟨.integer x, rest', trivial, rfl⟩
  by_cases hdouble : type = DOUBLE
  · rw [hdouble]
    by_cases hshort : rest.length < 8
    · exact Or.inr (Or.inl (refused_fetch h (by omega) hshort))
    · obtain ⟨x, rest', rfl⟩ := exists_word (Nat.le_of_not_lt hshort)
      exact Or.inl ⟨.number x, rest', trivial, rfl⟩
  by_cases hstring : type = STRING
  · rw [hstring]
    refine (pushString_cases h).imp_left ?_
    intro hitem
    obtain ⟨bytes, rest', hwf, hrest⟩ := hitem
    exact ⟨.string bytes, rest', hwf, by rw [hrest]; rfl⟩
  by_cases htype : type = TABLE
  · rw [htype]
    cases htable with
    | inl hentries =>
      obtain ⟨entries, rest', hwf, hrest⟩ := hentries
      exact Or.inl ⟨.table entries, rest', hwf, by rw [hrest]; rfl⟩
    | inr hfails => exact Or.inr (hfails.imp id Meets.table)
  · refine Or.inr (Or.inl ?_)
    rw [pushValue, if_neg hnil, if_neg hboolean, if_neg hint, if_neg hdouble, if_neg hstring,
      if_neg htype]
    exact Refused.luaError h

/-- An encoded key that is none in Lua makes `lua_rawset` raise an error. -/
theorem rawset_refuses {L : LuaState} {key : Item} {value : LuaValue} {heap : List Table}
    {address : Nat} {stack : List LuaValue}
    (hstack : L.stack = value :: (key.build heap).1 :: .table address :: stack)
    (haddress : address < L.heap.length) (hnil : key ≠ .nil) (hkey : ¬ key.IsKey) :
    L.rawset (-3) = .error (.error "table index is NaN") := by
  have hvalue : L.value? (-3) = some (.table address) := by rw [LuaState.value?, hstack]; rfl
  have ht : L.heap[address]? = some L.heap[address] := List.getElem?_eq_getElem haddress
  have hbuild : ∃ bits, (key.build heap).1 = .number bits ∧ Double.isNaN bits = true := by
    cases key with
    | nil => exact absurd rfl hnil
    | number bits => exact ⟨bits, rfl, by simpa [Item.IsKey] using hkey⟩
    | boolean | integer | string | table => exact absurd trivial hkey
  obtain ⟨bits, hbits, hnan⟩ := hbuild
  have htoKey : (key.build heap).1.toKey = .error (.error "table index is NaN") := by
    rw [hbits, LuaValue.toKey, dif_pos (Double.toInteger?_of_isNaN hnan),
      dif_neg (by rw [hnan]; simp)]
  simp only [LuaState.rawset, hvalue, hstack, ht, htoKey]
  rfl

/-- `lua_rawset` takes a key and its value away, and the table below stays. -/
theorem onLua_rawset {m : Machine} {address : Nat} {stack : List LuaValue} {key value : LuaValue}
    {k : { key : LuaValue // key.IsKey }}
    (hstack : m.L.stack = value :: key :: .table address :: stack)
    (haddress : address < m.L.heap.length) (hk : key.toKey = .ok k) : ∃ m',
    onLua (·.rawset (-3)) m = .ok () m' ∧ m'.s = m.s ∧ m'.L.exceeded = m.L.exceeded ∧
      m'.L.slots = m.L.slots ∧ m'.L.stack = .table address :: stack ∧
      address < m'.L.heap.length := by
  refine ⟨_, onLua_ok (rawset_assign hstack haddress hk), rfl, rfl, rfl, rfl, ?_⟩
  show address < (assign m.L.heap address _ _).length
  rw [length_assign]
  exact haddress

/-- What `push_one` does on any bytes. -/
def OneCases (b : List UInt8) (fuel : Nat) : Prop :=
  ∀ {rest : List UInt8} {m : Machine}, Reads b m.s rest → 2 * rest.length + 1 ≤ fuel →
    (∃ (item : Item) (rest' : List UInt8), item.WellFormed Item.IsKey ∧
        rest = item.bytes ++ rest') ∨
      Refused b (pushOne fuel m) ∨ Meets Overrun rest

/-- What the loop of `push_table` does on any bytes. -/
def EntriesCases (b : List UInt8) (fuel : Nat) : Prop :=
  ∀ {rest : List UInt8} {m : Machine} {address : Nat} {stack : List LuaValue},
    Reads b m.s rest → m.L.stack = .table address :: stack → address < m.L.heap.length →
    2 * rest.length + 2 ≤ fuel →
    (∃ (entries : Entries) (rest' : List UInt8), entries.WellFormed Item.IsKey ∧
        rest = entries.bytes ++ rest') ∨
      Refused b (pushEntries fuel m) ∨ EntriesMeet Overrun rest

/-- One round of the loop of `push_table`, whose key is an item. -/
theorem round_cases {fuel : Nat} {key : Item} {rest : List UInt8} {m : Machine} {address : Nat}
    {stack : List LuaValue} (hone : OneCases b fuel) (hentries : EntriesCases b fuel)
    (hkeyWf : key.WellFormed Item.IsKey) (h : Reads b m.s (key.bytes ++ rest))
    (hstack : m.L.stack = .table address :: stack) (haddress : address < m.L.heap.length)
    (hfuel : 2 * (key.bytes ++ rest).length + 2 ≤ fuel + 1) :
    (∃ (entries : Entries) (rest' : List UInt8), entries.WellFormed Item.IsKey ∧
        key.bytes ++ rest = entries.bytes ++ rest') ∨
      Refused b (pushEntries (fuel + 1) m) ∨ EntriesMeet Overrun (key.bytes ++ rest) := by
  rw [List.length_append] at hfuel
  by_cases hnil : key = .nil
  · exact Or.inl ⟨.nil, rest, trivial, by rw [hnil]; rfl⟩
  obtain ⟨m₁, hm₁, hreads₁, hstack₁, hheap₁⟩ := pushOne_whole key fuel hkeyWf h (by omega)
  have hround := pushEntries_key hm₁ hstack₁ (Item.build_ne_nil hnil m.L.heap)
  have hle₁ := key.le_build m.L.heap
  rcases hone hreads₁ (by omega) with ⟨value, rest₂, hvalueWf, rfl⟩ | hrefused | hover
  · rw [List.length_append] at hfuel
    obtain ⟨m₂, hm₂, hreads₂, hstack₂, hheap₂⟩ :=
      pushOne_whole value fuel hvalueWf hreads₁ (by omega)
    have hle₂ := value.le_build m₁.L.heap
    have haddress₂ : address < m₂.L.heap.length := by
      rw [hheap₁] at hle₂ hheap₂
      rw [hheap₂]
      omega
    rw [hstack₁, hstack] at hstack₂
    by_cases hkey : key.IsKey
    · obtain ⟨k, hk⟩ := Item.toKey_build hkey m.L.heap
      obtain ⟨m₃, hset, hs₃, _, _, hstack₃, haddress₃⟩ := onLua_rawset hstack₂ haddress₂ hk
      rw [← hs₃] at hreads₂
      have hpos := key.length_bytes_pos
      rcases hentries hreads₂ hstack₃ haddress₃ (by omega) with
        ⟨entries, rest₃, hentriesWf, rfl⟩ | hrefused | hover
      · refine Or.inl ⟨.cons key value entries, rest₃, ⟨hkey, hkeyWf, hvalueWf, hentriesWf⟩, ?_⟩
        rw [Entries.bytes, List.append_assoc, List.append_assoc]
        rfl
      · refine Or.inr (Or.inl ?_)
        rw [hround]
        exact Refused.bind_of_ok hm₂ (Refused.bind_of_ok hset hrefused)
      · exact Or.inr (Or.inr (.later hkey hkeyWf hvalueWf hover))
    · have hset : onLua (·.rawset (-3)) m₂ = .error (.error "table index is NaN") m₂ :=
        onLua_error (rawset_refuses hstack₂ haddress₂ hnil hkey)
      refine Or.inr (Or.inl ?_)
      rw [hround]
      exact Refused.bind_of_ok hm₂ (Refused.bind ⟨_, m₂, rest₂, hset, hreads₂⟩)
  · refine Or.inr (Or.inl ?_)
    rw [hround]
    exact Refused.bind hrefused
  · exact Or.inr (Or.inr (.value hnil hkeyWf hover))

/-- Both, with enough fuel. -/
theorem push_cases (fuel : Nat) : OneCases b fuel ∧ EntriesCases b fuel := by
  induction fuel with
  | zero => exact ⟨fun _ hfuel => by omega, fun _ _ _ hfuel => by omega⟩
  | succ fuel ih =>
    refine ⟨?_, ?_⟩
    · intro rest m h hfuel
      cases rest with
      | nil => exact Or.inr (Or.inl (refused_fetch h (by omega) (by simp)))
      | cons type rest =>
        have htype : Reads b m.s ([type] ++ rest) := h
        have hfetch : fetch 1 m = .ok [type] (m.skip 1) :=
          htype.fetch (show [type].length ≤ 8 by simp)
        rw [List.length_cons] at hfuel
        have hheap : (m.L.heap ++ [Table.empty]).length = m.L.heap.length + 1 :=
          List.length_append
        have htable := ih.2 (m := { m.skip 1 with L := m.L.newtable }) htype.skip rfl
          (show m.L.heap.length < (m.L.heap ++ [Table.empty]).length by omega) (by omega)
        refine (pushValue_cases htype.skip htable).imp_right (Or.imp_left ?_)
        intro hrefused
        rw [pushOne]
        exact Refused.bind_of_ok hfetch hrefused
    · intro rest m address stack h hstack haddress hfuel
      rcases ih.1 h (by omega) with ⟨key, rest₁, hkeyWf, rfl⟩ | hrefused | hover
      · exact round_cases ih.1 ih.2 hkeyWf h hstack haddress hfuel
      · refine Or.inr (Or.inl ?_)
        rw [pushEntries]
        exact Refused.bind hrefused
      · exact Or.inr (Or.inr (.key hover))

/-- What the loop of `l_unserialize` does on any bytes. -/
theorem pushValues_cases {bound : Nat} (hbound : 2 * b.length + 2 ≤ bound) (fuel : Nat) :
    ∀ (i : Nat) {rest : List UInt8} {m : Machine}, Reads b m.s rest → rest.length < fuel →
      IsEncoding Item.IsKey rest ∨ Refused b (pushValues bound fuel i m) ∨ StringOverrun rest := by
  induction fuel with
  | zero => exact fun _ _ _ _ hfuel => by omega
  | succ fuel ih =>
    intro i rest m h hfuel
    cases rest with
    | nil => exact Or.inl ⟨[], by simp, rfl⟩
    | cons type rest =>
      rw [List.length_cons] at hfuel
      obtain ⟨m₀, hcheck, hs, hstack, hheap⟩ := checkstack_round i m
      have htype : Reads b m₀.s ([type] ++ rest) := by rw [hs]; exact h
      have hread : onStream (·.read 1) m₀ = .ok (some [type]) (m₀.skip 1) := by
        have hread := htype.read (show [type].length ≤ 8 by simp)
        rw [List.length_singleton] at hread
        rw [onStream, hread]
        rfl
      have hlen : (m₀.L.heap ++ [Table.empty]).length = m₀.L.heap.length + 1 := List.length_append
      have hsuffix := htype.skip.suffix.length_le
      have htable := (push_cases bound).2 (m := { m₀.skip 1 with L := m₀.L.newtable })
        htype.skip rfl (show m₀.L.heap.length < (m₀.L.heap ++ [Table.empty]).length by omega)
        (by omega)
      rcases pushValue_cases htype.skip htable with ⟨item, rest', hwf, hitem⟩ | hrefused | hover
      · rw [hitem] at h ⊢
        have hpos := item.length_bytes_pos
        have hitemLen := congrArg List.length hitem
        rw [List.length_cons, List.length_append] at hitemLen
        have hall := h.suffix.length_le
        rw [List.length_append] at hall
        obtain ⟨m', hm', htook⟩ := pushValues_item bound fuel i hwf h (by omega)
        rw [hm']
        rcases ih (i + 1) htook.reads (by omega) with ⟨items, hitems, rfl⟩ | hrefused | hover
        · refine Or.inl ⟨item :: items, ?_, rfl⟩
          intro item' hmem
          cases List.mem_cons.mp hmem with
          | inl heq => rw [heq]; exact hwf
          | inr hmem => exact hitems item' hmem
        · exact Or.inr (Or.inl hrefused)
        · exact Or.inr (Or.inr (.later hwf hover))
      · refine Or.inr (Or.inl ?_)
        rw [pushValues]
        exact Refused.bind_of_ok hcheck (Refused.bind_of_ok hread (Refused.bind hrefused))
      · exact Or.inr (Or.inr (.here hover))

/-- What `l_unserialize` does on any bytes: it returns, or it raises an error. -/
theorem lUnserialize_cases (hfits : b.length + 8 < s32Bound) (hover : ¬ StringOverrun b)
    (m : Machine) :
    (IsEncoding Item.IsKey b ∧ ∃ vs m', results (lUnserialize b) m = .ok vs m' ∧
        (b ≠ [] → Reads b m'.s [])) ∨
      (b ≠ [] ∧ Refused b (results (lUnserialize b) m)) := by
  by_cases hempty : b = []
  · refine Or.inl ⟨⟨[], by simp, hempty⟩, [], m, ?_, fun hne => absurd hempty hne⟩
    rw [hempty]
    rfl
  have hpos : ¬ b.length = 0 := fun hlen => hempty (List.eq_nil_of_length_eq_zero hlen)
  have hset : (modify fun m => { m with
      L := { m.L with stack := [] }
      s := .ofString b } : Seri Unit) m = .ok () ⟨{ m.L with stack := [] }, .ofString b⟩ := rfl
  rcases pushValues_cases (Nat.le_refl _) (b.length + 1) 0
    (m := ⟨{ m.L with stack := [] }, .ofString b⟩) (reads_ofString hfits) (Nat.lt_succ_self _)
    with hencoding | hrefused | hover'
  · obtain ⟨items, hwf, rfl⟩ := hencoding
    obtain ⟨m', hm', hreads, _⟩ := lUnserialize_items (m := m) hwf hfits
    refine Or.inl ⟨⟨items, hwf, rfl⟩, _, m', hm', ?_⟩
    intro hne
    refine hreads ?_
    intro hnil
    rw [hnil] at hne
    exact hne rfl
  · obtain ⟨message, m', rest, hm', hreads⟩ := hrefused
    refine Or.inr ⟨hempty, message, m', rest, ?_, hreads⟩
    have hcall : lUnserialize b m = .error (.error message) m' := by
      rw [lUnserialize, if_neg hpos, bind_ok hset, bind_error hm']
    rw [results, hcall]
  · exact absurd hover' hover

end Cases

/-- A string is accepted exactly if it is a concatenation of encodings with keys that Lua takes;
otherwise an error is raised. The offset stays within the string and never moves back. -/
theorem unserialize_accepts {b : List UInt8} (hfits : b.length + 8 < s32Bound)
    (hover : ¬ StringOverrun b) (m : Machine) :
    ((∃ vs m', results (lUnserialize b) m = .ok vs m') ↔ IsEncoding Item.IsKey b) ∧
      (¬ IsEncoding Item.IsKey b →
        ∃ message m', results (lUnserialize b) m = .error (.error message) m') ∧
      ∀ m', ((∃ vs, results (lUnserialize b) m = .ok vs m') ∨
          ∃ failure, results (lUnserialize b) m = .error failure m') → b ≠ [] →
        m'.s.buffer = b ∧ m'.s.Forward b.length := by
  have hcases := lUnserialize_cases hfits hover m
  refine ⟨⟨?_, ?_⟩, ?_, ?_⟩
  · intro hreturns
    obtain ⟨vs, m', hm'⟩ := hreturns
    rcases hcases with ⟨hencoding, _⟩ | ⟨_, message, m'', rest, herror, _⟩
    · exact hencoding
    · rw [herror] at hm'
      cases hm'
  · intro hencoding
    obtain ⟨items, hwf, rfl⟩ := hencoding
    obtain ⟨m', hm', _⟩ := lUnserialize_items (m := m) hwf hfits
    exact ⟨_, m', hm'⟩
  · intro hencoding
    rcases hcases with ⟨hyes, _⟩ | ⟨_, message, m', rest, herror, _⟩
    · exact absurd hyes hencoding
    · exact ⟨message, m', herror⟩
  · intro m' hend hne
    rcases hcases with ⟨_, vs, m'', hok, hreads⟩ | ⟨_, message, m'', rest, herror, hreads⟩
    · rw [hok] at hend
      rcases hend with ⟨vs', hend⟩ | ⟨failure, hend⟩
      · cases hend
        exact ⟨(hreads hne).buffer, (hreads hne).forward⟩
      · cases hend
    · rw [herror] at hend
      rcases hend with ⟨vs', hend⟩ | ⟨failure, hend⟩
      · cases hend
      · cases hend
        exact ⟨hreads.buffer, hreads.forward⟩

/-- A table in a table, with a string in it, and a BOOLEAN whose byte is missing. -/
def truncated : List UInt8 :=
  [TABLE, INT, 7, 0, 0, 0, 0, 0, 0, 0, TABLE, BOOLEAN, 1, STRING, 2, 0, 0, 0, 104, 105, NIL, NIL,
    BOOLEAN]

theorem unserialize_accepts_truncated :
    ((∃ vs m', results (lUnserialize truncated) ⟨.call [] [], .alloc []⟩ = .ok vs m') ↔
        IsEncoding Item.IsKey truncated) ∧
      (¬ IsEncoding Item.IsKey truncated → ∃ message m',
        results (lUnserialize truncated) ⟨.call [] [], .alloc []⟩ = .error (.error message) m') ∧
      ∀ m', ((∃ vs, results (lUnserialize truncated) ⟨.call [] [], .alloc []⟩ = .ok vs m') ∨
          ∃ failure, results (lUnserialize truncated) ⟨.call [] [], .alloc []⟩ =
            .error failure m') → truncated ≠ [] →
        m'.s.buffer = truncated ∧ m'.s.Forward truncated.length := by
  refine unserialize_accepts (by decide) ?_ _
  intro hover
  have hwf : ∀ item ∈ [Item.table (.cons (.integer 7)
      (.table (.cons (.boolean 1) (.string [104, 105]) .nil)) .nil)],
      item.WellFormed Item.IsKey := by
    simp [Item.WellFormed, Entries.WellFormed, Item.IsKey, s32Bound]
  have hbehind : StringOverrun ([Item.table (.cons (.integer 7)
      (.table (.cons (.boolean 1) (.string [104, 105]) .nil)) .nil)].flatMap Item.bytes ++
        [BOOLEAN]) := hover
  generalize hb : [BOOLEAN] = bytes at hbehind
  cases hbehind.behind (fun _ _ => id) hwf with
  | here h =>
    rw [← hb] at h
    exact absurd h.type (by decide)
  | @later item rest hitem h =>
    obtain ⟨htype, hbody⟩ :=
      List.cons.inj (show [BOOLEAN] = item.type :: (item.body ++ rest) from hb)
    cases item with
    | boolean byte => cases hbody
    | nil | integer | number | string | table =>
      simp [Item.type, NIL, BOOLEAN, INT, DOUBLE, STRING, TABLE] at htype

/-- A table with a NaN as its key is a well-formed encoding, and is refused. -/
theorem nan_key_refused :
    IsEncoding (fun item => item ≠ .nil)
        [TABLE, DOUBLE, 0, 0, 0, 0, 0, 0, 0xF8, 0x7F, BOOLEAN, 1, NIL] ∧
      ¬ ∃ vs m', results (lUnserialize
        [TABLE, DOUBLE, 0, 0, 0, 0, 0, 0, 0xF8, 0x7F, BOOLEAN, 1, NIL])
        ⟨.call [] [], .alloc []⟩ = .ok vs m' := by
  refine ⟨⟨[.table (.cons (.number 0x7FF8000000000000#64) (.boolean 1) .nil)], ?_, by decide⟩, ?_⟩
  · intro item hmem
    rw [List.mem_singleton.mp hmem]
    exact ⟨by simp, trivial, trivial, trivial⟩
  · intro hreturns
    obtain ⟨vs, m', hm'⟩ := hreturns
    have herror : results (lUnserialize
        [TABLE, DOUBLE, 0, 0, 0, 0, 0, 0, 0xF8, 0x7F, BOOLEAN, 1, NIL])
        ⟨.call [] [], .alloc []⟩ = .error (.error "table index is NaN") _ := rfl
    rw [herror] at hm'
    cases hm'

end HyperNet.ScriptEngine
