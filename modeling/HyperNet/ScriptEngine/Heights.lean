import HyperNet.ScriptEngine.Accepts
import HyperNet.ScriptEngine.Slots

/-! # The slots of the stack that unserializing takes

A value stands above the values before it; in a table, above the table, and where it has a
key, above that as well. Slots are ensured between the values only, and every sixteenth time. -/
namespace HyperNet.ScriptEngine
open HyperNet.Core HyperNet.Public
open HyperNet.Logic (readS32)

mutual

/-- Reading the value at the beginning of the bytes pushes a value `height` slots above where
the first one of it stands. -/
inductive Pushes : List UInt8 → Nat → Prop
  | item {item : Item} {rest : List UInt8} (hwf : item.WellFormed Item.IsKey) :
      Pushes (item.bytes ++ rest) 0
  /-- A string that is longer than what is left is pushed all the same: the byte behind the
  bytes of a Lua string can be read. -/
  | string {length rest : List UInt8} (hlength : length.length = 4) (h : 0 ≤ readS32 length 0) :
      Pushes (STRING :: (length ++ rest)) 0
  | table {bytes : List UInt8} : Pushes (TABLE :: bytes) 0
  | inside {bytes : List UInt8} {height : Nat} (h : PushesIn bytes height) :
      Pushes (TABLE :: bytes) (height + 1)

/-- The same for the entries of a table, above the table. -/
inductive PushesIn : List UInt8 → Nat → Prop
  | key {bytes : List UInt8} {height : Nat} (h : Pushes bytes height) : PushesIn bytes height
  | value {key : Item} {bytes : List UInt8} {height : Nat} (hkey : key ≠ .nil)
      (hwf : key.WellFormed Item.IsKey) (h : Pushes bytes height) :
      PushesIn (key.bytes ++ bytes) (height + 1)
  | later {key value : Item} {bytes : List UInt8} {height : Nat} (hkey : key.IsKey)
      (hkeyWf : key.WellFormed Item.IsKey) (hvalueWf : value.WellFormed Item.IsKey)
      (h : PushesIn bytes height) : PushesIn (key.bytes ++ (value.bytes ++ bytes)) height

end

section Steady

theorem still_fetch (k : Nat) : Still (fetch k) := by
  refine (still_onStream _).bind fun bytes => ?_
  cases bytes with
  | none => exact still_luaError _
  | some bytes => exact still_pure bytes

theorem steady_onLua {f : LuaState → Except Failure LuaState}
    (h : ∀ L L', f L = .ok L' → L'.slots = L.slots ∧ (L.exceeded = true → L'.exceeded = true)) :
    Steady (onLua f) := by
  intro m
  rw [onLua]
  split
  · next L hL => exact ⟨(h _ L hL).1, (h _ L hL).2⟩
  · exact .refl m

/-- A string is pushed, whose bytes can be read. -/
theorem pushlstring_push {L L' : LuaState} {buffer : List UInt8} {position len : Int}
    (h : L.pushlstring buffer position len = .ok L') :
    (∃ bytes, L' = L.push (.string bytes)) ∧ 0 ≤ len ∧
      (len = 0 ∨ position + len ≤ buffer.length) := by
  unfold LuaState.pushlstring at h
  split at h
  · cases h
  split at h
  · cases h
  split at h
  · next hlen => cases h; exact ⟨⟨_, rfl⟩, by omega, Or.inl hlen⟩
  split at h
  · next hinside => cases h; exact ⟨⟨_, rfl⟩, by omega, Or.inr hinside.2⟩
  · cases h

theorem rawset_keeps {L L' : LuaState} {index : Int} (h : L.rawset index = .ok L') :
    L'.slots = L.slots ∧ L'.exceeded = L.exceeded := by
  unfold LuaState.rawset at h
  split at h
  · split at h
    · cases h
    · cases hkey : LuaValue.toKey _ with
      | error failure => rw [hkey] at h; cases h
      | ok key => rw [hkey] at h; cases h; exact ⟨rfl, rfl⟩
  · cases h

theorem steady_rawset (index : Int) : Steady (onLua (·.rawset index)) := by
  refine steady_onLua fun L L' h => ?_
  obtain ⟨hslots, hexceeded⟩ := rawset_keeps h
  exact ⟨hslots, fun hL => by rw [hexceeded]; exact hL⟩

/-- `push_value` behind the type STRING. -/
def pushString : Seri Unit := do
  match ← onStream (·.readString) with
  | none => luaError "unserialize failed"
  | some (position, len) => do
    let m ← get
    pushlstring (m.s.buffer ++ [0]) position len

/-- A copy that succeeds. -/
theorem pushlstring_pushed {buffer : List UInt8} {position len : Int} {m m' : Machine}
    (h : pushlstring buffer position len m = .ok () m') :
    (∃ bytes, m'.L = m.L.push (.string bytes)) ∧ m'.s = m.s ∧ 0 ≤ len ∧
      (len = 0 ∨ position + len ≤ buffer.length) := by
  cases hpush : m.L.pushlstring buffer position len with
  | error failure =>
    rw [pushlstring, hpush] at h
    cases h
  | ok L =>
    rw [pushlstring_ok hpush] at h
    cases h
    obtain ⟨hpushed, hinside⟩ := pushlstring_push hpush
    exact ⟨hpushed, rfl, hinside⟩

/-- A copy that fails, with its slot taken or not. -/
theorem pushlstring_failed {buffer : List UInt8} {position len : Int} {m m' : Machine}
    {failure : Failure} (h : pushlstring buffer position len m = .error failure m') :
    m'.L = m.L ∨ m'.L = m.L.claim := by
  cases hpush : m.L.pushlstring buffer position len with
  | ok L =>
    rw [pushlstring_ok hpush] at h
    cases h
  | error failure =>
    rw [pushlstring, hpush] at h
    cases h
    show (if 0 ≤ len then m.L.claim else m.L) = m.L ∨ _ = m.L.claim
    split
    · exact Or.inr rfl
    · exact Or.inl rfl

/-- It pushes a string, or it fails. -/
theorem pushString_result (m : Machine) :
    (∃ m' bytes, pushString m = .ok () m' ∧ m'.L = m.L.push (.string bytes)) ∨
      ∃ failure m', pushString m = .error failure m' ∧ (m'.L = m.L ∨ m'.L = m.L.claim) := by
  have hstill := still_onStream (·.readString) m
  rw [pushString]
  cases hread : onStream (·.readString) m with
  | error failure m₁ =>
    rw [hread] at hstill
    rw [bind_error hread]
    exact Or.inr ⟨failure, m₁, rfl, Or.inl hstill⟩
  | ok string m₁ =>
    rw [hread] at hstill
    have hL : m₁.L = m.L := hstill
    rw [bind_ok hread, ← hL]
    cases string with
    | none => exact Or.inr ⟨_, m₁, rfl, Or.inl rfl⟩
    | some string =>
      have hget : (get : Seri Machine) m₁ = .ok m₁ m₁ := rfl
      show (∃ m' bytes, (get >>= fun m => pushlstring (m.s.buffer ++ [0]) string.1 string.2 :
          Seri Unit) m₁ = .ok () m' ∧ _) ∨ ∃ failure m',
        (get >>= fun m => pushlstring (m.s.buffer ++ [0]) string.1 string.2 : Seri Unit) m₁ =
          .error failure m' ∧ _
      rw [bind_ok hget]
      cases hpush : pushlstring (m₁.s.buffer ++ [0]) string.1 string.2 m₁ with
      | ok _ m' =>
        obtain ⟨⟨bytes, hm'⟩, _⟩ := pushlstring_pushed hpush
        exact Or.inl ⟨m', bytes, rfl, hm'⟩
      | error failure m' => exact Or.inr ⟨failure, m', rfl, pushlstring_failed hpush⟩

theorem steady_pushString : Steady pushString := by
  intro m
  have hclaim : Retains m { m with L := m.L.claim } :=
    ⟨rfl, fun h => LuaState.claim_exceeded.mpr (Or.inl h)⟩
  cases pushString_result m with
  | inl hok =>
    obtain ⟨m', bytes, hm', hL⟩ := hok
    rw [hm']
    exact ⟨by rw [final, hL]; rfl, fun h => by rw [final, hL]; exact hclaim.exceeded h⟩
  | inr herror =>
    obtain ⟨failure, m', hm', hL⟩ := herror
    rw [hm']
    cases hL with
    | inl hL => exact ⟨by rw [final, hL], fun h => by rw [final, hL]; exact h⟩
    | inr hL => exact ⟨by rw [final, hL]; rfl, fun h => by rw [final, hL]; exact hclaim.exceeded h⟩

theorem steady_pushValue {entries : Seri Unit} (h : Steady entries) (type : UInt8) :
    Steady (pushValue entries type) := by
  unfold pushValue
  split
  · exact steady_push .nil
  split
  · exact (still_fetch 1).steady.bind fun _ => steady_push _
  split
  · exact (still_fetch 8).steady.bind fun _ => steady_push _
  split
  · exact (still_fetch 8).steady.bind fun _ => steady_push _
  split
  · exact steady_pushString
  split
  · exact Steady.bind (fun m => ⟨rfl, fun hm => LuaState.push_exceeded.mpr (Or.inl hm)⟩) fun _ => h
  · exact (still_luaError _).steady

theorem steady_pushOne (fuel : Nat) : Steady (pushOne fuel) ∧ Steady (pushEntries fuel) := by
  induction fuel with
  | zero => exact ⟨fun m => .refl m, fun m => .refl m⟩
  | succ fuel ih =>
    constructor
    · exact (still_fetch 1).steady.bind fun type => steady_pushValue ih.2 _
    · refine ih.1.bind fun _ => (still_valueAt (-1)).steady.bind fun key => ?_
      have hgoOn : Steady (do
          pushOne fuel
          onLua (·.rawset (-3))
          pushEntries fuel : Seri Unit) :=
        ih.1.bind fun _ => (steady_rawset (-3)).bind fun _ => ih.2
      split
      · exact steady_pop 1
      · exact hgoOn

end Steady

section Heights
variable {b : List UInt8}

/-- Nothing is left. -/
def SerializeStream.Spent (s : SerializeStream) : Prop := s.read 1 = .ok (none, s)

/-- A string was pushed that is longer than what was left. -/
structure Cut (bytes : List UInt8) (L : LuaState) (m' : Machine) : Prop where
  /-- It is longer by one byte. -/
  string : ∃ length rest : List UInt8, bytes = STRING :: (length ++ rest) ∧ length.length = 4 ∧
    readS32 length 0 = rest.length + 1
  stack : ∃ bytes, m'.L.stack = .string bytes :: L.stack
  heap : m'.L.heap = L.heap
  spent : m'.s.Spent

/-- What reading a value leaves: if the slots are exceeded, the bytes say so; and without an
error, a whole item has been taken, or a string that is longer than what is left. -/
def Rises (rest : List UInt8) (m : Machine) (r : EStateM.Result Failure Machine Unit) : Prop :=
  ((final r).L.exceeded = true → m.L.exceeded = true ∨
    ∃ height, Pushes rest height ∧ m.L.slots ≤ m.L.stack.length + height) ∧
  ∀ m', r = .ok () m' → (∃ (item : Item) (rest' : List UInt8),
    item.WellFormed Item.IsKey ∧ rest = item.bytes ++ rest') ∨ Cut rest m.L m'

def OneHeights (b : List UInt8) (fuel : Nat) : Prop :=
  ∀ {rest : List UInt8} {m : Machine}, Reads b m.s rest → 2 * rest.length + 1 ≤ fuel →
    Rises rest m (pushOne fuel m)

/-- The same for the loop of `push_table`. -/
def EntriesHeights (b : List UInt8) (fuel : Nat) : Prop :=
  ∀ {rest : List UInt8} {m : Machine} {address : Nat} {stack : List LuaValue},
    Reads b m.s rest → m.L.stack = .table address :: stack → address < m.L.heap.length →
    2 * rest.length + 2 ≤ fuel →
    ((final (pushEntries fuel m)).L.exceeded = true → m.L.exceeded = true ∨
      ∃ height, PushesIn rest height ∧ m.L.slots ≤ m.L.stack.length + height) ∧
    ∀ m', pushEntries fuel m = .ok () m' → ∃ (entries : Entries) (rest' : List UInt8),
      entries.WellFormed Item.IsKey ∧ rest = entries.bytes ++ rest'

/-- What one push in `push_value` comes to, for a type whose bytes are `rest`. -/
def LeafHeights (type : UInt8) (rest : List UInt8) (m : Machine)
    (r : EStateM.Result Failure Machine Unit) : Prop :=
  (∃ (m' : Machine) (v : LuaValue) (item : Item) (rest' : List UInt8),
      r = .ok () m' ∧ m'.L = m.L.push v ∧ item.WellFormed Item.IsKey ∧ type :: rest = item.bytes ++ rest') ∨
    ∃ failure m', r = .error failure m' ∧ m'.L = m.L

theorem LeafHeights.rises {type : UInt8} {rest : List UInt8} {m : Machine}
    {r : EStateM.Result Failure Machine Unit} (h : LeafHeights type rest m r) :
    Rises (type :: rest) m r := by
  cases h with
  | inl hok =>
    obtain ⟨m', v, item, rest', rfl, hL, hwf, hitem⟩ := hok
    refine ⟨fun h => ?_, fun _ _ => Or.inl ⟨item, rest', hwf, hitem⟩⟩
    rw [final, hL] at h
    exact (LuaState.push_exceeded.mp h).imp_right fun hslots => ⟨0, hitem ▸ .item hwf, hslots⟩
  | inr herror =>
    obtain ⟨failure, m', rfl, hL⟩ := herror
    refine ⟨fun h => Or.inl ?_, fun _ hm' => by cases hm'⟩
    rw [final, hL] at h
    exact h

/-- A fixed number of bytes makes a value, if they are there. -/
theorem fetch_leaf {k : Nat} {type : UInt8} {rest : List UInt8} {m : Machine}
    {f : List UInt8 → LuaValue} (h : Reads b m.s rest) (hk : k ≤ 8)
    (hitem : k ≤ rest.length → ∃ (item : Item) (rest' : List UInt8),
      item.WellFormed Item.IsKey ∧ type :: rest = item.bytes ++ rest') :
    LeafHeights type rest m
      ((do let bytes ← fetch k; onStack (·.push (f bytes)) : Seri Unit) m) := by
  by_cases hshort : rest.length < k
  · exact Or.inr ⟨_, m, bind_error (h.fetch_short hk hshort), rfl⟩
  · obtain ⟨item, rest', hwf, heq⟩ := hitem (by omega)
    have hlength : (rest.take k).length = k := List.length_take_of_le (by omega)
    have hsplit : Reads b m.s (rest.take k ++ rest.drop k) := by
      rw [List.take_append_drop]
      exact h
    have hfetch := hsplit.fetch (by omega)
    rw [hlength] at hfetch
    exact Or.inl ⟨_, f (rest.take k), item, rest', bind_ok hfetch, rfl, hwf, heq⟩

/-- The stream behind a string of this length. -/
def SerializeStream.behind (s : SerializeStream) (len : Int) : SerializeStream :=
  s.moveTo (s32 (s.offset + len))

theorem SerializeStream.readString_some {s s₁ : SerializeStream} {bytes : List UInt8}
    (h : s.read 4 = .ok (some bytes, s₁)) :
    s.readString = .ok (some (s₁.offset, readS32 bytes 0), s₁.behind (readS32 bytes 0)) := by
  rw [readString, h]
  rfl

theorem buffer_behind (s : SerializeStream) (len : Int) : (s.behind len).buffer = s.buffer := rfl

/-- The length of a string is there. -/
theorem pushString_length {length rest : List UInt8} {m : Machine}
    (h : Reads b m.s (length ++ rest)) (hlength : length.length = 4) :
    pushString m = pushlstring (b ++ [0]) (m.skip 4).s.offset (readS32 length 0)
      ⟨m.L, (m.skip 4).s.behind (readS32 length 0)⟩ := by
  have hread := h.read (show length.length ≤ 8 by omega)
  have hskip := h.skip
  rw [hlength] at hread hskip
  have hbuffer := (buffer_behind (m.skip 4).s (readS32 length 0)).trans hskip.buffer
  have hstring : m.s.readString = .ok (some ((m.skip 4).s.offset, readS32 length 0),
      (m.skip 4).s.behind (readS32 length 0)) := SerializeStream.readString_some hread
  have hstream : onStream (·.readString) m =
      .ok (some ((m.skip 4).s.offset, readS32 length 0))
        ⟨m.L, (m.skip 4).s.behind (readS32 length 0)⟩ := by
    rw [onStream, hstring]
  generalize (m.skip 4).s.behind (readS32 length 0) = s₁ at hstream hbuffer ⊢
  generalize readS32 length 0 = len at hstream ⊢
  have hget : (get : Seri Machine) ⟨m.L, s₁⟩ = .ok ⟨m.L, s₁⟩ ⟨m.L, s₁⟩ := rfl
  rw [pushString, bind_ok hstream, ← hbuffer]
  exact bind_ok hget

/-- The slot is taken unless the length is negative. -/
theorem pushlstring_exceeded (buffer : List UInt8) (position len : Int) (m : Machine) :
    (final (pushlstring buffer position len m)).L.exceeded = true ↔
      m.L.exceeded = true ∨ 0 ≤ len ∧ m.L.slots ≤ m.L.stack.length := by
  cases hpush : m.L.pushlstring buffer position len with
  | ok L =>
    obtain ⟨⟨bytes, rfl⟩, hnonneg, _⟩ := pushlstring_push hpush
    rw [pushlstring_ok hpush, and_iff_right hnonneg]
    exact LuaState.push_exceeded
  | error failure =>
    rw [pushlstring, hpush]
    show (if 0 ≤ len then m.L.claim else m.L).exceeded = true ↔ _
    split
    · next hnonneg =>
      rw [and_iff_right hnonneg]
      exact LuaState.claim_exceeded
    · next hnegative => exact (or_iff_left fun h => hnegative h.1).symm

theorem pushString_exceeded {length rest : List UInt8} {m : Machine}
    (h : Reads b m.s (length ++ rest)) (hlength : length.length = 4) :
    (final (pushString m)).L.exceeded = true ↔ m.L.exceeded = true ∨
      0 ≤ readS32 length 0 ∧ m.L.slots ≤ m.L.stack.length := by
  rw [pushString_length h hlength]
  exact pushlstring_exceeded _ _ _ ⟨m.L, _⟩

/-- Behind the string that ends one byte behind the end, nothing is left. -/
theorem spent_behind {len : Int} {s : SerializeStream} (hlen : s.len = b.length)
    (hfits : b.length + 8 < s32Bound) (hend : s.offset + len = b.length + 1) :
    (s.behind len).Spent := by
  have hoffset : (s.behind len).offset = b.length + 1 := by
    show s32 (s.offset + len) = _
    rw [hend]
    show s32 ((b.length + 1 : Nat) : Int) = _
    rw [s32_of_lt (by omega)]
    rfl
  have hsum : addS32 (s.behind len).offset (1 : Nat) = .ok (b.length + 1 + 1) := by
    unfold s32Bound at hfits
    rw [hoffset, addS32]
    exact if_pos (by omega)
  have hbehind : (s.behind len).len = b.length := hlen
  rw [SerializeStream.Spent, SerializeStream.read, hsum]
  exact if_pos (by omega)

/-- A string that is pushed is there as a whole, or it ends behind the end. -/
theorem pushString_whole {length rest : List UInt8} {m m' : Machine}
    (h : Reads b m.s (length ++ rest)) (hlength : length.length = 4)
    (hm' : pushString m = .ok () m') :
    (∃ (bytes rest' : List UInt8), (Item.string bytes).WellFormed Item.IsKey ∧
      length ++ rest = (Item.string bytes).body ++ rest') ∨
      Cut (STRING :: (length ++ rest)) m.L m' := by
  have hskip := h.skip
  rw [hlength] at hskip
  have hoffset := hskip.offset
  have hnonneg := hskip.offset_nonneg
  have hfits := hskip.fits
  have hbuffer : (b ++ [(0 : UInt8)]).length = b.length + 1 := List.length_append
  have hstring := pushString_length h hlength
  have hwhole := exists_string rest hlength
  have hlonger : readS32 length 0 = rest.length + 1 → ∃ length' rest' : List UInt8,
      STRING :: (length ++ rest) = STRING :: (length' ++ rest') ∧ length'.length = 4 ∧
        readS32 length' 0 = rest'.length + 1 := fun heq => ⟨length, rest, rfl, hlength, heq⟩
  generalize readS32 length 0 = len at hstring hwhole hlonger
  rw [hstring] at hm'
  obtain ⟨hpushed, hs, hlen, hinside⟩ := pushlstring_pushed hm'
  by_cases hle : len ≤ rest.length
  · obtain ⟨bytes, rest', hbytes, hlong⟩ := hwhole hlen hle
    exact Or.inl ⟨bytes, rest', show bytes.length < s32Bound by omega, hbytes⟩
  · have hspent := spent_behind hskip.len hfits
      (show (m.skip 4).s.offset + len = b.length + 1 by omega)
    obtain ⟨bytes, hL⟩ := hpushed
    exact Or.inr ⟨hlonger (by omega), ⟨bytes, by rw [hL]; rfl⟩, by rw [hL]; rfl,
      by rw [hs]; exact hspent⟩

/-- What a STRING comes to. -/
theorem string_rises {rest : List UInt8} {m : Machine} (h : Reads b m.s rest) :
    Rises (STRING :: rest) m (pushString m) := by
  by_cases hshort : rest.length < 4
  · have hread : onStream (·.readString) m = .ok none m := by
      rw [onStream, SerializeStream.readString, h.read_short (by omega) hshort]
      rfl
    have herror : pushString m = .error (.error "unserialize failed") m := by
      rw [pushString, bind_ok hread]
      rfl
    exact LeafHeights.rises (Or.inr ⟨_, m, herror, rfl⟩)
  · have hlength : (rest.take 4).length = 4 := List.length_take_of_le (by omega)
    have hsplit := List.take_append_drop 4 rest
    generalize rest.take 4 = length at hlength hsplit
    generalize rest.drop 4 = behind at hsplit
    subst hsplit
    refine ⟨fun hexceeded => ?_, fun m' hm' => ?_⟩
    · refine ((pushString_exceeded h hlength).mp hexceeded).imp_right fun hpush => ?_
      exact ⟨0, .string hlength hpush.1, hpush.2⟩
    · refine (pushString_whole h hlength hm').imp_left fun hwhole => ?_
      obtain ⟨bytes, rest', hwf, hbytes⟩ := hwhole
      exact ⟨.string bytes, rest', hwf, by rw [hbytes]; rfl⟩

/-- Behind a type, given what becomes of a table. -/
theorem pushValue_rises {fuel : Nat} {type : UInt8} {rest : List UInt8} {m : Machine}
    (h : Reads b m.s rest)
    (htable : Rises (TABLE :: rest) m (pushTable (pushEntries fuel) m)) :
    Rises (type :: rest) m (pushValue (pushEntries fuel) type m) := by
  by_cases hnil : type = NIL
  · rw [hnil]
    exact LeafHeights.rises (Or.inl ⟨_, .nil, .nil, rest, rfl, rfl, trivial, rfl⟩)
  by_cases hboolean : type = BOOLEAN
  · rw [hboolean]
    refine (fetch_leaf h (show 1 ≤ 8 by omega) fun hlen => ?_).rises
    cases rest with
    | nil => simp at hlen
    | cons byte rest => exact ⟨.boolean byte, rest, trivial, rfl⟩
  by_cases hint : type = INT
  · rw [hint]
    refine (fetch_leaf h (Nat.le_refl 8) fun hlen => ?_).rises
    obtain ⟨x, rest', rfl⟩ := exists_word hlen
    exact ⟨.integer x, rest', trivial, rfl⟩
  by_cases hdouble : type = DOUBLE
  · rw [hdouble]
    refine (fetch_leaf h (Nat.le_refl 8) fun hlen => ?_).rises
    obtain ⟨x, rest', rfl⟩ := exists_word hlen
    exact ⟨.number x, rest', trivial, rfl⟩
  by_cases hstring : type = STRING
  · rw [hstring]
    exact string_rises h
  by_cases htype : type = TABLE
  · rw [htype]
    exact htable
  · rw [pushValue, if_neg hnil, if_neg hboolean, if_neg hint, if_neg hdouble, if_neg hstring,
      if_neg htype]
    exact LeafHeights.rises (Or.inr ⟨_, m, rfl, rfl⟩)

/-- A table: the table itself, and what is in it. -/
theorem pushTable_rises {fuel : Nat} {rest : List UInt8} {m : Machine}
    (hentries : EntriesHeights b fuel) (h : Reads b m.s rest) (hfuel : 2 * rest.length + 2 ≤ fuel) :
    Rises (TABLE :: rest) m (pushTable (pushEntries fuel) m) := by
  have hheap : (m.L.heap ++ [Table.empty]).length = m.L.heap.length + 1 := List.length_append
  obtain ⟨hin, hwhole⟩ := hentries (m := { m with L := m.L.newtable }) h rfl
    (show m.L.heap.length < (m.L.heap ++ [Table.empty]).length by omega) hfuel
  refine ⟨fun hexceeded => ?_, fun m' hm' => ?_⟩
  · cases hin hexceeded with
    | inl hpushed =>
      exact (LuaState.push_exceeded.mp hpushed).imp_right fun hslots => ⟨0, .table, hslots⟩
    | inr hdeep =>
      obtain ⟨height, hpushes, hslots⟩ := hdeep
      have hslots : m.L.slots ≤ m.L.stack.length + 1 + height := hslots
      exact Or.inr ⟨height + 1, .inside hpushes, by omega⟩
  · obtain ⟨entries, rest', hwf, hrest⟩ := hwhole m' hm'
    exact Or.inl ⟨.table entries, rest', hwf, by rw [hrest]; rfl⟩

theorem SerializeStream.Spent.pushOne {m : Machine} (h : m.s.Spent) (fuel : Nat) :
    ∃ failure, pushOne fuel m = .error failure m := by
  have hread : onStream (·.read 1) m = .ok none m := by
    unfold Spent at h
    rw [onStream, h]
  have hfetch : fetch 1 m = .error (.error "unserialize failed") m := by
    rw [fetch, bind_ok hread]
    rfl
  cases fuel with
  | zero => exact ⟨_, rfl⟩
  | succ fuel => exact ⟨_, by rw [ScriptEngine.pushOne, bind_error hfetch]⟩

/-- Behind a key that is cut there is no value. -/
theorem Cut.key {bytes : List UInt8} {L : LuaState} {fuel : Nat} {m m₁ : Machine}
    (h : Cut bytes L m₁)
    (hm₁ : pushOne fuel m = .ok () m₁) :
    ∃ failure, pushEntries (fuel + 1) m = .error failure m₁ := by
  obtain ⟨bytes, hstack⟩ := h.stack
  obtain ⟨failure, hfails⟩ := h.spent.pushOne fuel
  have hstring : LuaValue.string bytes ≠ .nil := by simp
  exact ⟨failure, by rw [pushEntries_key hm₁ hstack hstring, bind_error hfails]⟩

/-- Behind a value that is cut there is no key. -/
theorem Cut.value {bytes : List UInt8} {L : LuaState} {m : Machine} (h : Cut bytes L m)
    (fuel : Nat) :
    ∃ failure m', (do onLua (·.rawset (-3)); pushEntries fuel : Seri Unit) m = .error failure m' ∧
      m'.L.exceeded = m.L.exceeded := by
  cases hset : m.L.rawset (-3) with
  | error failure => exact ⟨failure, m, bind_error (onLua_error hset), rfl⟩
  | ok L =>
    have hspent : (⟨L, m.s⟩ : Machine).s.Spent := h.spent
    obtain ⟨failure, hfails⟩ : ∃ failure, pushEntries fuel ⟨L, m.s⟩ = .error failure ⟨L, m.s⟩ := by
      cases fuel with
      | zero => exact ⟨_, rfl⟩
      | succ fuel =>
        obtain ⟨failure, hfails⟩ := hspent.pushOne fuel
        exact ⟨failure, by rw [pushEntries, bind_error hfails]⟩
    exact ⟨failure, ⟨L, m.s⟩, (bind_ok (onLua_ok hset)).trans hfails, (rawset_keeps hset).2⟩

/-- One round of the loop of `push_table` behind a key, and the rounds behind it. -/
theorem round_heights {fuel : Nat} {key : Item} {rest : List UInt8} {m : Machine} {address : Nat}
    {stack : List LuaValue} (hone : OneHeights b fuel) (hentries : EntriesHeights b fuel)
    (hkeyWf : key.WellFormed Item.IsKey) (h : Reads b m.s (key.bytes ++ rest))
    (hstack : m.L.stack = .table address :: stack) (haddress : address < m.L.heap.length)
    (hfuel : 2 * (key.bytes ++ rest).length + 2 ≤ fuel + 1) :
    ((final (pushEntries (fuel + 1) m)).L.exceeded = true → m.L.exceeded = true ∨
      ∃ height, PushesIn (key.bytes ++ rest) height ∧ m.L.slots ≤ m.L.stack.length + height) ∧
    ∀ m', pushEntries (fuel + 1) m = .ok () m' → ∃ (entries : Entries) (rest' : List UInt8),
      entries.WellFormed Item.IsKey ∧ key.bytes ++ rest = entries.bytes ++ rest' := by
  rw [List.length_append] at hfuel
  have hpos := key.length_bytes_pos
  obtain ⟨hkeyIn, _⟩ := hone h (by rw [List.length_append]; omega)
  obtain ⟨m₁, hm₁, hreads₁, hstack₁, hheap₁⟩ := pushOne_whole key fuel hkeyWf h (by omega)
  have hslots₁ := ((steady_pushOne fuel).1 m).slots
  rw [hm₁] at hkeyIn hslots₁
  have hslots₁ : m₁.L.slots = m.L.slots := hslots₁
  have hfirst : m₁.L.exceeded = true → m.L.exceeded = true ∨
      ∃ height, PushesIn (key.bytes ++ rest) height ∧ m.L.slots ≤ m.L.stack.length + height := by
    intro hexceeded
    refine (hkeyIn hexceeded).imp_right fun hdeep => ?_
    obtain ⟨height, hpushes, hslots⟩ := hdeep
    exact ⟨height, .key hpushes, hslots⟩
  by_cases hnil : key = .nil
  · rw [hnil] at hstack₁
    rw [pushEntries_end hm₁ hstack₁]
    exact ⟨hfirst, fun m' _ => ⟨.nil, rest, trivial, by rw [hnil]; rfl⟩⟩
  have hround := pushEntries_key hm₁ hstack₁ (Item.build_ne_nil hnil m.L.heap)
  have hle₁ := key.le_build m.L.heap
  obtain ⟨hvalueIn, hvalueWhole⟩ := hone hreads₁ (by omega)
  have hlength₁ : m₁.L.stack.length = m.L.stack.length + 1 := congrArg List.length hstack₁
  have hsecond : (final (pushOne fuel m₁)).L.exceeded = true → m.L.exceeded = true ∨
      ∃ height, PushesIn (key.bytes ++ rest) height ∧ m.L.slots ≤ m.L.stack.length + height := by
    intro hexceeded
    cases hvalueIn hexceeded with
    | inl hbefore => exact hfirst hbefore
    | inr hdeep =>
      obtain ⟨height, hpushes, hslots⟩ := hdeep
      exact Or.inr ⟨height + 1, .value hnil hkeyWf hpushes, by omega⟩
  rw [hround]
  cases hm₂ : pushOne fuel m₁ with
  | error failure m₂ =>
    rw [hm₂] at hsecond
    rw [bind_error hm₂]
    exact ⟨hsecond, fun m' hm' => by cases hm'⟩
  | ok _ m₂ =>
    rw [hm₂] at hsecond
    rw [bind_ok hm₂]
    obtain ⟨value, rest₂, hvalueWf, rfl⟩ | hcut := hvalueWhole m₂ hm₂
    swap
    · obtain ⟨failure, m₃, hm₃, hexceeded₃⟩ := hcut.value fuel
      rw [hm₃]
      refine ⟨fun h => hsecond ?_, fun m' hm' => by cases hm'⟩
      rw [final, ← hexceeded₃]
      exact h
    rw [List.length_append] at hfuel
    obtain ⟨hreads₂, hstack₂, hheap₂⟩ := took_of_ok value hvalueWf hreads₁ (by omega) hm₂
    have hslots₂ := ((steady_pushOne fuel).1 m₁).slots
    rw [hm₂] at hslots₂
    have hslots₂ : m₂.L.slots = m₁.L.slots := hslots₂
    have hle₂ := value.le_build m₁.L.heap
    have haddress₂ : address < m₂.L.heap.length := by
      rw [hheap₁] at hle₂ hheap₂
      rw [hheap₂]
      omega
    rw [hstack₁, hstack] at hstack₂
    by_cases hkey : key.IsKey
    · obtain ⟨k, hk⟩ := Item.toKey_build hkey m.L.heap
      obtain ⟨m₃, hset, hs₃, hexceeded₃, hslots₃, hstack₃, haddress₃⟩ :=
        onLua_rawset hstack₂ haddress₂ hk
      rw [← hs₃] at hreads₂
      obtain ⟨hlater, hentriesWhole⟩ := hentries hreads₂ hstack₃ haddress₃ (by omega)
      have hlength₃ : m₃.L.stack.length = m.L.stack.length := by rw [hstack₃, hstack]
      rw [bind_ok hset]
      refine ⟨fun hexceeded => ?_, fun m' hm' => ?_⟩
      · cases hlater hexceeded with
        | inl hbefore =>
          rw [hexceeded₃] at hbefore
          exact hsecond hbefore
        | inr hdeep =>
          obtain ⟨height, hpushes, hslots⟩ := hdeep
          exact Or.inr ⟨height, .later hkey hkeyWf hvalueWf hpushes, by omega⟩
      · obtain ⟨entries, rest₃, hentriesWf, rfl⟩ := hentriesWhole m' hm'
        refine ⟨.cons key value entries, rest₃, ⟨hkey, hkeyWf, hvalueWf, hentriesWf⟩, ?_⟩
        rw [Entries.bytes, List.append_assoc, List.append_assoc]
        rfl
    · have hset : onLua (·.rawset (-3)) m₂ = .error (.error "table index is NaN") m₂ :=
        onLua_error (rawset_refuses hstack₂ haddress₂ hnil hkey)
      rw [bind_error hset]
      exact ⟨hsecond, fun m' hm' => by cases hm'⟩

/-- Both, with enough fuel. -/
theorem push_heights (fuel : Nat) : OneHeights b fuel ∧ EntriesHeights b fuel := by
  induction fuel with
  | zero => exact ⟨fun _ hfuel => by omega, fun _ _ _ hfuel => by omega⟩
  | succ fuel ih =>
    constructor
    · intro rest m h hfuel
      cases rest with
      | nil =>
        have hfetch : fetch 1 m = .error _ m := h.fetch_short (by omega) (by simp)
        rw [pushOne, bind_error hfetch]
        exact ⟨Or.inl, fun m' hm' => by cases hm'⟩
      | cons type rest =>
        have htype : Reads b m.s ([type] ++ rest) := h
        have hfetch : fetch 1 m = .ok [type] (m.skip 1) :=
          htype.fetch (show [type].length ≤ 8 by simp)
        rw [List.length_cons] at hfuel
        rw [pushOne, bind_ok hfetch]
        exact pushValue_rises (m := m.skip 1) htype.skip
          (pushTable_rises ih.2 htype.skip (by omega))
    · intro rest m address stack h hstack haddress hfuel
      obtain ⟨hkeyIn, hkeyWhole⟩ := ih.1 h (by omega)
      cases hm₁ : pushOne fuel m with
      | ok _ m₁ =>
        obtain ⟨key, rest₁, hkeyWf, rfl⟩ | hcut := hkeyWhole m₁ hm₁
        · exact round_heights ih.1 ih.2 hkeyWf h hstack haddress hfuel
        · obtain ⟨failure, hfails⟩ := hcut.key hm₁
          rw [hm₁] at hkeyIn
          rw [hfails]
          refine ⟨fun hexceeded => ?_, fun m' hm' => by cases hm'⟩
          refine (hkeyIn hexceeded).imp_right fun hdeep => ?_
          obtain ⟨height, hpushes, hslots⟩ := hdeep
          exact ⟨height, .key hpushes, hslots⟩
      | error failure m₁ =>
        rw [hm₁] at hkeyIn
        rw [pushEntries, bind_error hm₁]
        refine ⟨fun hexceeded => ?_, fun m' hm' => by cases hm'⟩
        refine (hkeyIn hexceeded).imp_right fun hdeep => ?_
        obtain ⟨height, hpushes, hslots⟩ := hdeep
        exact ⟨height, .key hpushes, hslots⟩

/-- What is read without an error is a whole item, or a string that is longer than what is left. -/
theorem pushOne_ok_cases {fuel : Nat} {rest : List UInt8} {m m' : Machine} (h : Reads b m.s rest)
    (hfuel : 2 * rest.length + 1 ≤ fuel) (hm' : pushOne fuel m = .ok () m') :
    (∃ (item : Item) (rest' : List UInt8), item.WellFormed Item.IsKey ∧
      rest = item.bytes ++ rest' ∧ Took b rest' item m m') ∨ Cut rest m.L m' := by
  refine (((push_heights fuel).1 h hfuel).2 m' hm').imp_left fun hitem => ?_
  obtain ⟨item, rest', hwf, rfl⟩ := hitem
  rw [List.length_append] at hfuel
  exact ⟨item, rest', hwf, rfl, took_of_ok item hwf h (by omega) hm'⟩

theorem steady_round (fuel : Nat) : Steady (do
    match ← valueAt (-1) with
    | some .nil => onStack (·.pop 1)
    | _ => do
      pushOne fuel
      onLua (·.rawset (-3))
      pushEntries fuel : Seri Unit) := by
  refine (still_valueAt (-1)).steady.bind fun key => ?_
  have hgoOn : Steady (do
      pushOne fuel
      onLua (·.rawset (-3))
      pushEntries fuel : Seri Unit) :=
    (steady_pushOne fuel).1.bind fun _ => (steady_rawset (-3)).bind fun _ => (steady_pushOne fuel).2
  split
  · exact steady_pop 1
  · exact hgoOn

/-- A whole round of the loop of `push_table`. -/
theorem pushEntries_round {fuel : Nat} {key value : Item} {rest : List UInt8} {m : Machine}
    {address : Nat} {stack : List LuaValue} (hkey : key.IsKey)
    (hkeyWf : key.WellFormed Item.IsKey) (hvalueWf : value.WellFormed Item.IsKey)
    (h : Reads b m.s (key.bytes ++ (value.bytes ++ rest)))
    (hstack : m.L.stack = .table address :: stack) (haddress : address < m.L.heap.length)
    (hfuel : 2 * key.bytes.length + 2 * value.bytes.length + 1 ≤ fuel) :
    ∃ m₃, pushEntries (fuel + 1) m = pushEntries fuel m₃ ∧ Reads b m₃.s rest ∧
      m₃.L.stack = .table address :: stack ∧ m₃.L.slots = m.L.slots ∧
      address < m₃.L.heap.length := by
  obtain ⟨m₁, hm₁, hreads₁, hstack₁, hheap₁⟩ := pushOne_whole key fuel hkeyWf h (by omega)
  obtain ⟨m₂, hm₂, hreads₂, hstack₂, hheap₂⟩ := pushOne_whole value fuel hvalueWf hreads₁ (by omega)
  have hslots₁ := ((steady_pushOne fuel).1 m).slots
  have hslots₂ := ((steady_pushOne fuel).1 m₁).slots
  rw [hm₁] at hslots₁
  rw [hm₂] at hslots₂
  have hle₁ := key.le_build m.L.heap
  have hle₂ := value.le_build m₁.L.heap
  have haddress₂ : address < m₂.L.heap.length := by
    rw [hheap₁] at hle₂ hheap₂
    rw [hheap₂]
    omega
  obtain ⟨k, hk⟩ := Item.toKey_build hkey m.L.heap
  have hround := pushEntries_key hm₁ hstack₁ (Item.build_ne_nil hkey.ne_nil m.L.heap)
  rw [hstack₁, hstack] at hstack₂
  have hset : onLua (·.rawset (-3)) m₂ = .ok () _ := onLua_ok (rawset_assign hstack₂ haddress₂ hk)
  refine ⟨_, hround.trans ((bind_ok hm₂).trans (bind_ok hset)), hreads₂, rfl,
    hslots₂.trans hslots₁, ?_⟩
  show address < (assign m₂.L.heap address _ _).length
  rw [length_assign]
  exact haddress₂

/-- A value that is pushed takes a slot. -/
theorem pushValue_takes {entries : Seri Unit} (hentries : Steady entries) {type : UInt8}
    {m m' : Machine} (hok : pushValue entries type m = .ok () m')
    (hslots : m.L.slots ≤ m.L.stack.length) : m'.L.exceeded = true := by
  have hfetch : ∀ (k : Nat) (f : List UInt8 → LuaValue),
      (do let bytes ← fetch k; onStack (·.push (f bytes)) : Seri Unit) m = .ok () m' →
      m'.L.exceeded = true := by
    intro k f h
    have hstill := still_fetch k m
    cases hbytes : fetch k m with
    | error failure m₁ => rw [bind_error hbytes] at h; cases h
    | ok bytes m₁ =>
      rw [hbytes] at hstill
      rw [bind_ok hbytes] at h
      cases h
      have hL : m₁.L = m.L := hstill
      refine LuaState.push_exceeded.mpr (Or.inr ?_)
      rw [hL]
      exact hslots
  unfold pushValue at hok
  split at hok
  · cases hok
    exact LuaState.push_exceeded.mpr (Or.inr hslots)
  split at hok
  · exact hfetch 1 _ hok
  split at hok
  · exact hfetch 8 _ hok
  split at hok
  · exact hfetch 8 _ hok
  split at hok
  · have hstring : pushString m = .ok () m' := hok
    cases pushString_result m with
    | inl hpushed =>
      obtain ⟨m₁, bytes, hm₁, hL⟩ := hpushed
      rw [hm₁] at hstring
      cases hstring
      rw [hL]
      exact LuaState.push_exceeded.mpr (Or.inr hslots)
    | inr hfailed =>
      obtain ⟨failure, m₁, hm₁, _⟩ := hfailed
      rw [hm₁] at hstring
      cases hstring
  split at hok
  · have hrest := hentries { m with L := m.L.newtable }
    have hexceeded := hrest.exceeded (LuaState.push_exceeded.mpr (Or.inr hslots))
    have htable : entries { m with L := m.L.newtable } = .ok () m' := hok
    rw [htable] at hexceeded
    exact hexceeded
  · cases hok

theorem pushOne_takes {fuel : Nat} {m m' : Machine} (hok : pushOne fuel m = .ok () m')
    (hslots : m.L.slots ≤ m.L.stack.length) : m'.L.exceeded = true := by
  cases fuel with
  | zero => cases hok
  | succ fuel =>
    have hstill := still_fetch 1 m
    rw [pushOne] at hok
    cases htype : fetch 1 m with
    | error failure m₁ => rw [bind_error htype] at hok; cases hok
    | ok type m₁ =>
      rw [htype] at hstill
      rw [bind_ok htype] at hok
      have hL : m₁.L = m.L := hstill
      exact pushValue_takes (steady_pushOne fuel).2 hok (by rw [hL]; exact hslots)

/-- `push_one` on a table, up to the loop of `push_table`. -/
theorem pushOne_newtable {fuel : Nat} {bytes : List UInt8} {m : Machine}
    (h : Reads b m.s (TABLE :: bytes)) :
    ∃ s, pushOne (fuel + 1) m = pushEntries fuel ⟨m.L.newtable, s⟩ ∧ Reads b s bytes := by
  have htype : Reads b m.s ([TABLE] ++ bytes) := h
  have hfetch : fetch 1 m = .ok [TABLE] (m.skip 1) := htype.fetch (show [TABLE].length ≤ 8 by simp)
  refine ⟨(m.skip 1).s, ?_, htype.skip⟩
  rw [pushOne, bind_ok hfetch]
  rfl

mutual

/-- A value that stands too high takes a slot that is not ensured. -/
theorem Pushes.exceeds {bytes : List UInt8} {height : Nat} :
    Pushes bytes height → ∀ {fuel : Nat} {m : Machine}, Reads b m.s bytes →
      2 * bytes.length + 1 ≤ fuel → m.L.slots ≤ m.L.stack.length + height →
      (final (pushOne fuel m)).L.exceeded = true
  | .item hwf, fuel, m, h, hfuel, hslots => by
    rw [List.length_append] at hfuel
    obtain ⟨m', hm', _⟩ := pushOne_whole _ fuel hwf h (by omega)
    rw [hm']
    exact pushOne_takes hm' hslots
  | @Pushes.string length rest hlength hnonneg, fuel, m, h, hfuel, hslots => by
    obtain ⟨bound, rfl⟩ : ∃ k, fuel = k + 1 := ⟨fuel - 1, by omega⟩
    have htype : Reads b m.s ([STRING] ++ (length ++ rest)) := h
    have hfetch : fetch 1 m = .ok [STRING] (m.skip 1) :=
      htype.fetch (show [STRING].length ≤ 8 by simp)
    rw [pushOne, bind_ok hfetch]
    exact (pushString_exceeded htype.skip hlength).mpr (Or.inr ⟨hnonneg, hslots⟩)
  | .table, fuel, m, h, hfuel, hslots => by
    obtain ⟨bound, rfl⟩ : ∃ k, fuel = k + 1 := ⟨fuel - 1, by omega⟩
    obtain ⟨s, hm, _⟩ : ∃ s, pushOne (bound + 1) m = pushEntries bound ⟨m.L.newtable, s⟩ ∧ _ :=
      pushOne_newtable h
    rw [hm]
    exact ((steady_pushOne bound).2 _).exceeded (LuaState.push_exceeded.mpr (Or.inr hslots))
  | .inside hin, fuel, m, h, hfuel, hslots => by
    obtain ⟨bound, rfl⟩ : ∃ k, fuel = k + 1 := ⟨fuel - 1, by omega⟩
    obtain ⟨s, hm, hreads⟩ : ∃ s, pushOne (bound + 1) m = pushEntries bound ⟨m.L.newtable, s⟩ ∧ _ :=
      pushOne_newtable h
    have hheap : (m.L.heap ++ [Table.empty]).length = m.L.heap.length + 1 := List.length_append
    rw [List.length_cons] at hfuel
    rw [hm]
    refine PushesIn.exceeds hin hreads rfl
      (show m.L.heap.length < (m.L.heap ++ [Table.empty]).length by omega) (by omega) ?_
    show m.L.slots ≤ m.L.stack.length + 1 + _
    omega

theorem PushesIn.exceeds {bytes : List UInt8} {height : Nat} :
    PushesIn bytes height → ∀ {fuel : Nat} {m : Machine} {address : Nat} {stack : List LuaValue},
      Reads b m.s bytes → m.L.stack = .table address :: stack → address < m.L.heap.length →
      2 * bytes.length + 2 ≤ fuel → m.L.slots ≤ m.L.stack.length + height →
      (final (pushEntries fuel m)).L.exceeded = true
  | .key hkey, fuel, m, address, stack, h, hstack, haddress, hfuel, hslots => by
    obtain ⟨bound, rfl⟩ : ∃ k, fuel = k + 1 := ⟨fuel - 1, by omega⟩
    rw [pushEntries]
    exact exceeded_bind (Pushes.exceeds hkey h (by omega) hslots) fun _ => steady_round bound
  | .value hne hwf hvalue, fuel, m, address, stack, h, hstack, haddress, hfuel, hslots => by
    obtain ⟨bound, rfl⟩ : ∃ k, fuel = k + 1 := ⟨fuel - 1, by omega⟩
    rw [List.length_append] at hfuel
    obtain ⟨m₁, hm₁, hreads₁, hstack₁, hheap₁⟩ := pushOne_whole _ bound hwf h (by omega)
    have hslots₁ := ((steady_pushOne bound).1 m).slots
    rw [hm₁] at hslots₁
    have hslots₁ : m₁.L.slots = m.L.slots := hslots₁
    have hlength₁ : m₁.L.stack.length = m.L.stack.length + 1 := congrArg List.length hstack₁
    rw [pushEntries_key hm₁ hstack₁ (Item.build_ne_nil hne m.L.heap)]
    refine exceeded_bind (Pushes.exceeds hvalue hreads₁ (by omega) (by omega)) fun _ => ?_
    exact (steady_rawset (-3)).bind fun _ => (steady_pushOne bound).2
  | @PushesIn.later keyItem valueItem _ _ hkey hkeyWf hvalueWf hlater, fuel, m, address, stack, h,
    hstack, haddress, hfuel, hslots => by
    obtain ⟨bound, rfl⟩ : ∃ k, fuel = k + 1 := ⟨fuel - 1, by omega⟩
    have hpos := keyItem.length_bytes_pos
    rw [List.length_append, List.length_append] at hfuel
    obtain ⟨m₃, hm₃, hreads₃, hstack₃, hslots₃, haddress₃⟩ :=
      pushEntries_round hkey hkeyWf hvalueWf h hstack haddress
        (show 2 * keyItem.bytes.length + 2 * valueItem.bytes.length + 1 ≤ bound by omega)
    rw [hm₃]
    refine PushesIn.exceeds hlater hreads₃ hstack₃ haddress₃ (by omega) ?_
    rw [hstack₃, hslots₃, ← hstack]
    exact hslots

end

/-- `push_one` takes a slot that is not ensured exactly if a value in what it reads stands too
high. -/
theorem pushOne_exceeded {fuel : Nat} {rest : List UInt8} {m : Machine} (h : Reads b m.s rest)
    (hfuel : 2 * rest.length + 1 ≤ fuel) :
    (final (pushOne fuel m)).L.exceeded = true ↔ m.L.exceeded = true ∨
      ∃ height, Pushes rest height ∧ m.L.slots ≤ m.L.stack.length + height := by
  constructor
  · exact ((push_heights fuel).1 h hfuel).1
  · intro hexceeded
    cases hexceeded with
    | inl hbefore => exact ((steady_pushOne fuel).1 m).exceeded hbefore
    | inr hdeep =>
      obtain ⟨height, hpushes, hslots⟩ := hdeep
      exact hpushes.exceeds h hfuel hslots

end Heights

end HyperNet.ScriptEngine
