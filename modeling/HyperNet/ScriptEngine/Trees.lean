import HyperNet.ScriptEngine.Depths
import HyperNet.ScriptEngine.RoundTrip

/-! # What the serializer makes of the tables of a state

`l_unserialize` builds new tables and changes no others, whatever the bytes are and however the
call ends. What it returns are trees of new tables, which are not longer when they are serialized
again. `l_serialize` changes no table. -/
namespace HyperNet.ScriptEngine
open HyperNet.Core HyperNet.Public
open HyperNet.Logic (readS32 length_s32Bytes)

/-! ## The lengths of encodings -/

mutual

/-- More tables do not matter to an encoding. -/
theorem Item.Encodes.mono {g g' : Heap} (hsub : ∀ a t, g a = some t → g' a = some t) :
    ∀ (item : Item) {v : LuaValue}, item.Encodes g v → item.Encodes g' v
  | .nil, _, h | .boolean _, _, h | .integer _, _, h | .number _, _, h | .string _, _, h => h
  | .table entries, _, h => by
    obtain ⟨address, t, rfl, ht, hentries⟩ := h
    exact ⟨address, t, rfl, hsub address t ht, Entries.Encode.mono hsub entries hentries⟩

theorem Entries.Encode.mono {g g' : Heap} (hsub : ∀ a t, g a = some t → g' a = some t) :
    ∀ (entries : Entries) {pairs : List (LuaValue × LuaValue)},
      entries.Encode g pairs → entries.Encode g' pairs
  | .nil, _, h => h
  | .cons key value entries, _, h => by
    obtain ⟨k, v, rest, rfl, hk, hv, hrest⟩ := h
    exact ⟨k, v, rest, rfl, Item.Encodes.mono hsub key hk, Item.Encodes.mono hsub value hv,
      Entries.Encode.mono hsub entries hrest⟩

end

/-- The value has an encoding of at most `n` bytes. -/
def Within (g : Heap) (n : Nat) (v : LuaValue) : Prop :=
  ∃ item : Item, item.Encodes g v ∧ item.bytes.length ≤ n

/-- The same for the entries of a table, with the end of the table. -/
def PairsWithin (g : Heap) (n : Nat) (pairs : List (LuaValue × LuaValue)) : Prop :=
  ∃ entries : Entries, entries.Encode g pairs ∧ entries.bytes.length ≤ n

/-- The same for values one behind the other. -/
def AllWithin (g : Heap) (n : Nat) (vs : List LuaValue) : Prop :=
  ∃ items : List Item, List.Forall₂ (fun v (item : Item) => item.Encodes g v) vs items ∧
    (items.flatMap Item.bytes).length ≤ n

section Within
variable {g g' : Heap} {i j n : Nat} {v key value : LuaValue}
  {pairs : List (LuaValue × LuaValue)} {vs : List LuaValue}

theorem Within.plain (h : Within g n v) : Plain g v := by
  obtain ⟨item, hitem, _⟩ := h
  exact Item.Encodes.plain item hitem

theorem Within.mono (h : Within g i v) (hsub : ∀ a t, g a = some t → g' a = some t) :
    Within g' i v := by
  obtain ⟨item, hitem, hlength⟩ := h
  exact ⟨item, Item.Encodes.mono hsub item hitem, hlength⟩

theorem PairsWithin.mono (h : PairsWithin g n pairs)
    (hsub : ∀ a t, g a = some t → g' a = some t) : PairsWithin g' n pairs := by
  obtain ⟨entries, hentries, hlength⟩ := h
  exact ⟨entries, Entries.Encode.mono hsub entries hentries, hlength⟩

theorem AllWithin.mono (h : AllWithin g n vs) (hsub : ∀ a t, g a = some t → g' a = some t) :
    AllWithin g' n vs := by
  obtain ⟨items, hitems, hlength⟩ := h
  exact ⟨items, hitems.imp fun _ item => Item.Encodes.mono hsub item, hlength⟩

theorem AllWithin.cons (hv : Within g i v) (h : AllWithin g n vs) :
    AllWithin g (i + n) (v :: vs) := by
  obtain ⟨item, hitem, hlength⟩ := hv
  obtain ⟨items, hitems, hlengths⟩ := h
  refine ⟨item :: items, .cons hitem hitems, ?_⟩
  rw [List.flatMap_cons, List.length_append]
  omega

theorem AllWithin.plain (h : AllWithin g n vs) : ∀ v ∈ vs, Plain g v := by
  obtain ⟨items, hitems, -⟩ := h
  induction hitems with
  | nil => exact fun _ hmem => absurd hmem List.not_mem_nil
  | cons hitem _ ih =>
    intro v hmem
    cases List.mem_cons.mp hmem with
    | inl heq => exact heq ▸ Item.Encodes.plain _ hitem
    | inr hmem => exact ih v hmem

theorem pairsWithin_nil : PairsWithin g 1 [] := ⟨.nil, rfl, Nat.le_refl 1⟩

theorem PairsWithin.cons (hkey : Within g i key) (hvalue : Within g j value)
    (h : PairsWithin g n pairs) : PairsWithin g (i + j + n) ((key, value) :: pairs) := by
  obtain ⟨k, hk, hki⟩ := hkey
  obtain ⟨v, hv, hvj⟩ := hvalue
  obtain ⟨entries, hentries, hlength⟩ := h
  refine ⟨.cons k v entries, ⟨key, value, pairs, rfl, hk, hv, hentries⟩, ?_⟩
  rw [Item.bytes] at hki hvj
  rw [Entries.bytes, List.length_append, List.length_append]
  omega

/-- What the first of some entries takes, and what the others take. -/
theorem PairsWithin.uncons {pair : LuaValue × LuaValue} (h : PairsWithin g n (pair :: pairs)) :
    ∃ i j k, Within g i pair.1 ∧ Within g j pair.2 ∧ PairsWithin g k pairs ∧ i + j + k ≤ n := by
  obtain ⟨entries, hentries, hlength⟩ := h
  cases entries with
  | nil => cases (show pair :: pairs = [] from hentries)
  | cons key value entries =>
    obtain ⟨k, v, rest, heq, hk, hv, hrest⟩ := hentries
    obtain ⟨rfl, rfl⟩ := List.cons.inj heq
    refine ⟨_, _, _, ⟨key, hk, Nat.le_refl _⟩, ⟨value, hv, Nat.le_refl _⟩,
      ⟨entries, hrest, Nat.le_refl _⟩, ?_⟩
    rw [Entries.bytes, List.length_append, List.length_append] at hlength
    exact hlength

theorem PairsWithin.weaken (h : PairsWithin g i pairs) (hle : i ≤ n) : PairsWithin g n pairs := by
  obtain ⟨entries, hentries, hlength⟩ := h
  exact ⟨entries, hentries, Nat.le_trans hlength hle⟩

/-- An assignment replaces an entry, takes it away, or adds one. -/
theorem PairsWithin.setEntry (h : PairsWithin g n pairs) (hkey : Within g i key)
    (hvalue : Within g j value) :
    PairsWithin g (i + j + n) (setEntry pairs key value) := by
  induction pairs generalizing n with
  | nil =>
    rw [ScriptEngine.setEntry]
    split
    · exact h.weaken (by omega)
    · exact h.cons hkey hvalue
  | cons pair pairs ih =>
    obtain ⟨i', j', k, hfirst, hsecond, hrest, hle⟩ := h.uncons
    rw [ScriptEngine.setEntry]
    split
    · split
      · exact hrest.weaken (by omega)
      · exact (hrest.cons hkey hvalue).weaken (by omega)
    · exact ((ih hrest).cons hfirst hsecond).weaken (by omega)

/-- A key is stored as what takes the same number of bytes. -/
theorem Within.toKey {k : { key : LuaValue // key.IsKey }} (h : Within g n v)
    (hk : v.toKey = .ok k) : Within g n k.1 := by
  cases v with
  | nil => cases hk
  | number bits =>
    rw [LuaValue.toKey] at hk
    split at hk
    · split at hk
      · cases hk
        exact h
      · cases hk
    · cases hk
      obtain ⟨item, hitem, hlength⟩ := h
      cases item with
      | number bits' => exact ⟨.integer _, rfl, by simpa [Item.bytes, Item.body] using hlength⟩
      | boolean byte => obtain ⟨b, hb, _⟩ := hitem; cases hb
      | table entries => obtain ⟨a, t, hb, _⟩ := hitem; cases hb
      | nil | integer | string => cases hitem
  | boolean | integer | string | table | other => cases hk; exact h

end Within

/-! ## What is read -/

/-- No sum of an offset within the buffer and what is read there overflows. -/
def SerializeStream.Fits (s : SerializeStream) : Prop := s.buffer.length + 8 < s32Bound

/-- The stream has been read `n` bytes further. -/
structure ReadOn (s : SerializeStream) (n : Nat) (s' : SerializeStream) : Prop where
  buffer : s'.buffer = s.buffer
  offset : s'.offset = s.offset + n

namespace ReadOn
variable {s s' s'' : SerializeStream} {i j : Nat}

theorem refl (s : SerializeStream) : ReadOn s 0 s := ⟨rfl, by omega⟩

theorem trans (h : ReadOn s i s') (h' : ReadOn s' j s'') : ReadOn s (i + j) s'' := by
  refine ⟨h'.buffer.trans h.buffer, ?_⟩
  rw [h'.offset, h.offset]
  omega

theorem fits (h : ReadOn s i s') (hs : s.Fits) : s'.Fits := by
  unfold SerializeStream.Fits at hs ⊢
  rw [h.buffer]
  exact hs

end ReadOn

theorem addS32_ok {x y z : Int} (h : addS32 x y = .ok z) : z = x + y := by
  unfold addS32 at h
  split at h
  · cases h
    rfl
  · cases h

/-- Bytes are read, or nothing is. -/
theorem SerializeStream.read_ok {s s' : SerializeStream} {k : Nat} {found : Option (List UInt8)}
    (h : s.read k = .ok (found, s')) : ReadOn s (if found.isSome then k else 0) s' := by
  unfold SerializeStream.read at h
  cases hstop : addS32 s.offset k with
  | error failure => rw [hstop] at h; cases h
  | ok stop =>
    have hsum := addS32_ok hstop
    rw [hstop] at h
    simp only [bind, Except.bind] at h
    split at h
    · cases h
      exact .refl s
    split at h
    · cases h
      exact ⟨rfl, hsum⟩
    · cases h

theorem onStream_read_ok {k : Nat} {found : Option (List UInt8)} {m m' : Machine}
    (h : onStream (·.read k) m = .ok found m') :
    m'.L = m.L ∧ ReadOn m.s (if found.isSome then k else 0) m'.s := by
  rw [onStream] at h
  split at h
  · next hs =>
    cases h
    exact ⟨rfl, SerializeStream.read_ok hs⟩
  · cases h

theorem fetch_ok {k : Nat} {bytes : List UInt8} {m m' : Machine} (h : fetch k m = .ok bytes m') :
    m'.L = m.L ∧ ReadOn m.s k m'.s := by
  rw [fetch] at h
  cases hread : onStream (·.read k) m with
  | error failure m₁ => rw [bind_error hread] at h; cases h
  | ok found m₁ =>
    rw [bind_ok hread] at h
    cases found with
    | none => cases h
    | some bytes =>
      cases h
      exact onStream_read_ok hread

/-- Bytes are read within the buffer. -/
theorem SerializeStream.read_inside {s s' : SerializeStream} {k : Nat} {bytes : List UInt8}
    (h : s.read k = .ok (some bytes, s')) : 0 ≤ s.offset ∧ s'.offset ≤ s.buffer.length := by
  unfold SerializeStream.read at h
  cases hstop : addS32 s.offset k with
  | error failure => rw [hstop] at h; cases h
  | ok stop =>
    rw [hstop] at h
    simp only [bind, Except.bind] at h
    split at h
    · cases h
    split at h
    · next hinside =>
      cases h
      exact hinside
    · cases h

/-- The position of a string is behind its length. -/
theorem SerializeStream.readString_ok {s s' : SerializeStream} {position len : Int}
    (h : s.readString = .ok (some (position, len), s')) : ∃ s₁, ReadOn s 4 s₁ ∧
      (0 ≤ s₁.offset ∧ s₁.offset ≤ s.buffer.length) ∧ position = s₁.offset ∧
        s' = s₁.behind len := by
  unfold SerializeStream.readString at h
  cases hread : s.read 4 with
  | error failure => rw [hread] at h; cases h
  | ok found =>
    obtain ⟨found, s₁⟩ := found
    rw [hread] at h
    cases found with
    | none => cases h
    | some bytes =>
      have hon : ReadOn s 4 s₁ := SerializeStream.read_ok hread
      have hinside := SerializeStream.read_inside hread
      have hoffset := hon.offset
      cases h
      exact ⟨s₁, hon, ⟨by omega, hinside.2⟩, rfl, rfl⟩

/-- As many bytes are pushed as are asked for. -/
theorem pushlstring_bytes {buffer : List UInt8} {position len : Int} {m m' : Machine}
    (h : pushlstring buffer position len m = .ok () m') :
    ∃ bytes, m'.L = m.L.push (.string bytes) ∧ len = bytes.length := by
  have hbytes : ∀ L, m.L.pushlstring buffer position len = .ok L →
      ∃ bytes, L = m.L.push (.string bytes) ∧ len = bytes.length := by
    intro L hL
    unfold LuaState.pushlstring at hL
    split at hL
    · cases hL
    split at hL
    · cases hL
    split at hL
    · next hzero =>
      cases hL
      exact ⟨[], rfl, hzero⟩
    split at hL
    · cases hL
      refine ⟨_, rfl, ?_⟩
      rw [List.length_take, List.length_drop]
      omega
    · cases hL
  cases hpush : m.L.pushlstring buffer position len with
  | error failure =>
    rw [pushlstring, hpush] at h
    cases h
  | ok L =>
    rw [pushlstring_ok hpush] at h
    cases h
    exact hbytes L hpush

/-- The string that is pushed is behind its length. -/
theorem pushString_ok {m m' : Machine} (hfits : m.s.Fits)
    (h : pushString m = .ok () m') : ∃ bytes,
    m'.L = m.L.push (.string bytes) ∧ ReadOn m.s (4 + bytes.length) m'.s := by
  unfold SerializeStream.Fits at hfits
  rw [pushString] at h
  cases hread : onStream (·.readString) m with
  | error failure m₁ => rw [bind_error hread] at h; cases h
  | ok found m₁ =>
    rw [bind_ok hread] at h
    rw [onStream] at hread
    split at hread
    · next s₂ hs =>
      cases hread
      cases found with
      | none => cases h
      | some found =>
        obtain ⟨position, len⟩ := found
        obtain ⟨s₁, hread₁, ⟨hnonneg, hle⟩, rfl, rfl⟩ := SerializeStream.readString_ok hs
        have hpush : pushlstring ((s₁.behind len).buffer ++ [0]) s₁.offset len
            ⟨m.L, s₁.behind len⟩ = .ok () m' := h
        obtain ⟨_, hs', hlen, hinside⟩ := pushlstring_pushed hpush
        have hbuffer : (s₁.behind len).buffer.length = m.s.buffer.length :=
          congrArg List.length hread₁.buffer
        rw [List.length_append, hbuffer, List.length_singleton] at hinside
        -- The sum is no larger than the buffer, so it does not wrap.
        have hoffset : (s₁.behind len).offset = s₁.offset + len := by
          show s32 (s₁.offset + len) = _
          rw [← Int.toNat_of_nonneg (show 0 ≤ s₁.offset + len by omega), s32_of_lt (by omega)]
        obtain ⟨bytes, hL, hbytes⟩ := pushlstring_bytes hpush
        refine ⟨bytes, hL, ?_, ?_⟩
        · rw [hs']
          exact hread₁.buffer
        · rw [hs', hoffset, hread₁.offset, hbytes]
          omega
    · cases hread

/-! ## What is built -/

/-- Behind the first `k` bytes of a value, the rest of it is taken in: the tables that are there are
kept, and a call that returns has pushed a value of new tables. -/
structure Builds (k : Nat) (m : Machine) (r : EStateM.Result Failure Machine Unit) : Prop where
  keeps : Keeps m.L.heap (final r).L.heap
  length : m.L.heap.length ≤ (final r).L.heap.length
  value : ∀ m', r = .ok () m' → ∃ v n, m'.L.stack = v :: m.L.stack ∧ ReadOn m.s n m'.s ∧
    Within (above m.L.heap.length m'.L.heap) (k + n) v

/-- A table, above the stack, whose entries refer to tables behind it. -/
structure Filling (address k : Nat) (stack : List LuaValue) (m : Machine) : Prop where
  fits : m.s.Fits
  stack : m.L.stack = .table address :: stack
  table : ∃ t, m.L.heap[address]? = some t ∧
    PairsWithin (above (address + 1) m.L.heap) k t.entries

/-- The other tables are kept while the rest of the entries is taken in. -/
structure Fills (address k : Nat) (stack : List LuaValue) (m : Machine)
    (r : EStateM.Result Failure Machine Unit) : Prop where
  keeps : ∀ a < m.L.heap.length, a ≠ address → (final r).L.heap[a]? = m.L.heap[a]?
  length : m.L.heap.length ≤ (final r).L.heap.length
  table : ∀ m', r = .ok () m' → ∃ n, ReadOn m.s n m'.s ∧ Filling address (k + n) stack m'

theorem Filling.lt {address k : Nat} {stack : List LuaValue} {m : Machine}
    (h : Filling address k stack m) : address < m.L.heap.length := by
  obtain ⟨t, ht, _⟩ := h.table
  exact (List.getElem?_eq_some_iff.mp ht).1

theorem Keeps.refl (heap : List Table) : Keeps heap heap := fun _ _ => rfl

theorem Keeps.trans {heap heap' heap'' : List Table} (h : Keeps heap heap')
    (hle : heap.length ≤ heap'.length) (h' : Keeps heap' heap'') : Keeps heap heap'' :=
  fun a ha => (h' a (Nat.lt_of_lt_of_le ha hle)).trans (h a ha)

/-- The tables from an address on are there as well when more are kept. -/
theorem Keeps.above_sub {heap heap' : List Table} {low low' : Nat} (h : Keeps heap heap')
    (hle : low' ≤ low) :
    ∀ a t, above low heap a = some t → above low' heap' a = some t :=
  ScriptEngine.above_sub hle fun _ _ _ ht => h.get ht

namespace Builds
variable {k : Nat} {m m' : Machine} {r : EStateM.Result Failure Machine Unit}

/-- An error that leaves the tables. -/
theorem failed {failure : Failure} (h : m'.L.heap = m.L.heap) :
    Builds k m (.error failure m') where
  keeps := by
    show Keeps m.L.heap m'.L.heap
    rw [h]
    exact Keeps.refl _
  length := by
    show m.L.heap.length ≤ m'.L.heap.length
    rw [h]
  value m'' hm'' := by cases hm''

/-- A value without a table is pushed. -/
theorem pushed {v : LuaValue} {n : Nat} (h : m'.L = m.L.push v) (hread : ReadOn m.s n m'.s)
    (hv : Within (above m.L.heap.length m'.L.heap) (k + n) v) : Builds k m (.ok () m') where
  keeps := by
    show Keeps m.L.heap m'.L.heap
    rw [h]
    exact Keeps.refl _
  length := by
    show m.L.heap.length ≤ m'.L.heap.length
    rw [h]
    exact Nat.le_refl _
  value m'' hm'' := by
    cases hm''
    exact ⟨v, n, by rw [h]; rfl, hread, hv⟩

/-- Some bytes are read and a value is made of them. -/
theorem fetch_push {bytes : Nat} {f : List UInt8 → LuaValue}
    (hf : ∀ read g, Within g (k + bytes) (f read)) :
    Builds k m ((do let read ← fetch bytes; onStack (·.push (f read)) : Seri Unit) m) := by
  cases hfetch : fetch bytes m with
  | error failure m₁ =>
    have hstill := still_fetch bytes m
    rw [hfetch] at hstill
    rw [bind_error hfetch]
    exact failed (congrArg LuaState.heap hstill)
  | ok read m₁ =>
    obtain ⟨hL, hread⟩ := fetch_ok hfetch
    rw [bind_ok hfetch]
    exact pushed (show m₁.L.push (f read) = _ by rw [hL]) hread (hf read _)

theorem string (hfits : m.s.Fits) : Builds 1 m (pushString m) := by
  cases hpush : pushString m with
  | error failure m₁ =>
    refine failed ?_
    rcases pushString_result m with ⟨_, _, hok, _⟩ | ⟨_, _, herror, hL⟩
    · rw [hok] at hpush
      cases hpush
    · rw [herror] at hpush
      cases hpush
      cases hL with
      | inl hL => rw [hL]
      | inr hL => rw [hL]; rfl
  | ok _ m₁ =>
    obtain ⟨bytes, hL, hread⟩ := pushString_ok hfits hpush
    refine pushed hL hread ⟨.string bytes, rfl, ?_⟩
    simp [Item.bytes, Item.body, length_s32Bytes, Nat.add_comm]

end Builds

section Take
variable {m : Machine} {fuel : Nat}

/-- A table is made, and then filled. -/
theorem pushTable_builds (hfits : m.s.Fits) (h : ∀ {address : Nat} {stack : List LuaValue} {m : Machine},
    Filling address 1 stack m → Fills address 0 stack m (pushEntries fuel m)) :
    Builds 1 m (pushTable (pushEntries fuel) m) := by
  have hlength : (m.L.heap ++ [Table.empty]).length = m.L.heap.length + 1 := List.length_append
  have hnew : Filling m.L.heap.length 1 m.L.stack { m with L := m.L.newtable } :=
    ⟨hfits, rfl, Table.empty, List.getElem?_concat_length, pairsWithin_nil⟩
  have hfills := h hnew
  refine ⟨fun a ha => ?_, ?_, fun m' hm' => ?_⟩
  · refine (hfills.keeps a ?_ (Nat.ne_of_lt ha)).trans (List.getElem?_append_left ha)
    show a < (m.L.heap ++ [Table.empty]).length
    omega
  · refine Nat.le_trans ?_ hfills.length
    show m.L.heap.length ≤ (m.L.heap ++ [Table.empty]).length
    omega
  · obtain ⟨n, hread, hfilling⟩ := hfills.table m' hm'
    obtain ⟨t, ht, hpairs⟩ := hfilling.table
    obtain ⟨entries, hentries, hle⟩ := hpairs
    have habove : ∀ a t', above (m.L.heap.length + 1) m'.L.heap a = some t' →
        above m.L.heap.length m'.L.heap a = some t' :=
      above_sub (Nat.le_succ m.L.heap.length) fun _ _ _ ht => ht
    refine ⟨.table m.L.heap.length, n, hfilling.stack, hread, .table entries, ?_, ?_⟩
    · refine ⟨m.L.heap.length, t, rfl, ?_, Entries.Encode.mono habove entries hentries⟩
      exact (if_pos (Nat.le_refl _)).trans ht
    · rw [Item.bytes, List.length_cons, Item.body]
      omega

/-- `push_value` behind the type, given what becomes of a table. -/
theorem pushValue_builds {entries : Seri Unit} (type : UInt8) (hfits : m.s.Fits)
    (htable : Builds 1 m (pushTable entries m)) : Builds 1 m (pushValue entries type m) := by
  by_cases hnil : type = NIL
  · rw [hnil]
    exact Builds.pushed rfl (.refl m.s) ⟨.nil, rfl, Nat.le_refl 1⟩
  by_cases hboolean : type = BOOLEAN
  · rw [hboolean]
    exact Builds.fetch_push fun read g =>
      ⟨.boolean (if read.getD 0 0 != 0 then 1 else 0), ⟨_, rfl, rfl⟩, Nat.le_refl 2⟩
  by_cases hint : type = INT
  · rw [hint]
    exact Builds.fetch_push fun read g =>
      ⟨.integer (.ofNat 64 (ofBytes read)), rfl, by simp [Item.bytes, Item.body]⟩
  by_cases hdouble : type = DOUBLE
  · rw [hdouble]
    exact Builds.fetch_push fun read g =>
      ⟨.number (.ofNat 64 (ofBytes read)), rfl, by simp [Item.bytes, Item.body]⟩
  by_cases hstring : type = STRING
  · rw [hstring]
    exact Builds.string hfits
  by_cases htype : type = TABLE
  · rw [htype]
    exact htable
  · rw [pushValue, if_neg hnil, if_neg hboolean, if_neg hint, if_neg hdouble, if_neg hstring,
      if_neg htype]
    exact Builds.failed rfl

/-- Another error than those of the stream leaves what there is so far. -/
theorem rawset_cases {L : LuaState} {key value : LuaValue} {address : Nat} {stack : List LuaValue}
    {t : Table} (hstack : L.stack = value :: key :: .table address :: stack)
    (ht : L.heap[address]? = some t) :
    (∃ failure, L.rawset (-3) = .error failure) ∨ ∃ k, key.toKey = .ok k ∧
      L.rawset (-3) = .ok { L with
        stack := .table address :: stack
        heap := L.heap.set address (t.set k value) } := by
  have hvalue : L.value? (-3) = some (.table address) := by rw [LuaState.value?, hstack]; rfl
  cases hkey : key.toKey with
  | error failure =>
    refine Or.inl ⟨failure, ?_⟩
    simp only [LuaState.rawset, hvalue, hstack, ht, hkey]
    rfl
  | ok k =>
    refine Or.inr ⟨k, rfl, ?_⟩
    simp only [LuaState.rawset, hvalue, hstack, ht, hkey]
    rfl

/-- An entry has been read, and is assigned. -/
theorem Filling.assign {address k i j : Nat} {stack : List LuaValue} {m m₁ m₂ : Machine}
    {key value : LuaValue} {t : Table} {key' : { key : LuaValue // key.IsKey }}
    (h : Filling address k stack m) (hfits : m₂.s.Fits) (hkeeps₁ : Keeps m.L.heap m₁.L.heap)
    (hle₁ : m.L.heap.length ≤ m₁.L.heap.length) (hkeeps₂ : Keeps m₁.L.heap m₂.L.heap)
    (hkey : Within (above m.L.heap.length m₁.L.heap) i key)
    (hvalue : Within (above m₁.L.heap.length m₂.L.heap) j value)
    (ht : m₂.L.heap[address]? = some t) (hkey' : key.toKey = .ok key') :
    Filling address (i + j + k) stack { m₂ with L := { m₂.L with
      stack := .table address :: stack
      heap := m₂.L.heap.set address (t.set key' value) } } := by
  have hlt := h.lt
  have hlt₂ := (List.getElem?_eq_some_iff.mp ht).1
  obtain ⟨t₀, ht₀, hpairs⟩ := h.table
  have hsame : t = t₀ := by
    have hkept := (hkeeps₁.trans hle₁ hkeeps₂).get ht₀
    rw [ht] at hkept
    exact Option.some.inj hkept
  -- What the entries refer to lies behind the table, which is the only one that changes.
  have hset : ∀ {low : Nat} {heap : List Table}, address + 1 ≤ low → Keeps heap m₂.L.heap →
      ∀ a t', above low heap a = some t' →
        above (address + 1) (m₂.L.heap.set address (t.set key' value)) a = some t' := by
    intro low heap hlow hkeeps
    refine above_sub hlow fun a t' ha ht' => ?_
    rw [List.getElem?_set_ne (by omega)]
    exact hkeeps.get ht'
  refine ⟨hfits, rfl, t.set key' value, List.getElem?_set_self hlt₂, ?_⟩
  rw [hsame] at hset ⊢
  exact (hpairs.mono (hset (Nat.le_refl _) (hkeeps₁.trans hle₁ hkeeps₂))).setEntry
    ((hkey.mono (hset hlt hkeeps₂)).toKey hkey')
    (hvalue.mono (hset (Nat.le_trans hlt hle₁) (Keeps.refl _)))

/-- One round of the loop of `push_table`, behind its key. -/
theorem round_fills {address k n : Nat} {stack : List LuaValue} {m₁ : Machine} {key : LuaValue}
    (hone : ∀ m, m.s.Fits → Builds 0 m (pushOne fuel m))
    (hentries : ∀ {k : Nat} {m : Machine}, Filling address (k + 1) stack m →
      Fills address k stack m (pushEntries fuel m))
    (h : Filling address (k + 1) stack m) (hkeeps₁ : Keeps m.L.heap m₁.L.heap)
    (hle₁ : m.L.heap.length ≤ m₁.L.heap.length) (hread₁ : ReadOn m.s n m₁.s)
    (hstack₁ : m₁.L.stack = key :: .table address :: stack)
    (hkey : Within (above m.L.heap.length m₁.L.heap) n key) :
    Fills address k stack m ((do
      pushOne fuel
      onLua (·.rawset (-3))
      pushEntries fuel : Seri Unit) m₁) := by
  have hfits₁ := hread₁.fits h.fits
  have hvalue := hone m₁ hfits₁
  have hle₂ := Nat.le_trans hle₁ hvalue.length
  have hkeeps₂ := hkeeps₁.trans hle₁ hvalue.keeps
  cases hm₂ : pushOne fuel m₁ with
  | error failure m₂ =>
    rw [hm₂] at hle₂ hkeeps₂
    rw [bind_error hm₂]
    exact ⟨fun a ha _ => hkeeps₂ a ha, hle₂, fun m' hm' => by cases hm'⟩
  | ok _ m₂ =>
    obtain ⟨value, n₂, hstack₂, hread₂, hwithin⟩ := hvalue.value m₂ hm₂
    have hkeeps := hvalue.keeps
    rw [hm₂] at hle₂ hkeeps₂ hkeeps
    rw [hstack₁] at hstack₂
    rw [Nat.zero_add] at hwithin
    rw [bind_ok hm₂]
    obtain ⟨t, ht, _⟩ := h.table
    rcases rawset_cases hstack₂ (hkeeps₂.get ht) with ⟨failure, hset⟩ | ⟨key', hkey', hset⟩
    · rw [bind_error (onLua_error hset)]
      exact ⟨fun a ha _ => hkeeps₂ a ha, hle₂, fun m' hm' => by cases hm'⟩
    · rw [bind_ok (onLua_ok hset)]
      have hfilling := h.assign (hread₂.fits hfits₁) hkeeps₁ hle₁ hkeeps hkey hwithin (hkeeps₂.get ht) hkey'
      rw [← Nat.add_assoc] at hfilling
      have hrest := hentries hfilling
      have hlength : (m₂.L.heap.set address (t.set key' value)).length = m₂.L.heap.length :=
        List.length_set
      refine ⟨fun a ha hne => ?_, ?_, fun m' hm' => ?_⟩
      · refine (hrest.keeps a (Nat.lt_of_lt_of_le ha (hlength ▸ hle₂)) hne).trans ?_
        exact (List.getElem?_set_ne (Ne.symm hne)).trans (hkeeps₂ a ha)
      · exact Nat.le_trans (hlength ▸ hle₂) hrest.length
      · obtain ⟨n₃, hread₃, hfilling'⟩ := hrest.table m' hm'
        refine ⟨_, (hread₁.trans hread₂).trans hread₃, ?_⟩
        rwa [show k + (n + n₂ + n₃) = n + n₂ + k + n₃ by omega]

/-- Both, however many calls are made. -/
theorem push_builds (fuel : Nat) : (∀ m, m.s.Fits → Builds 0 m (pushOne fuel m)) ∧
    ∀ {address k : Nat} {stack : List LuaValue} {m : Machine}, Filling address (k + 1) stack m →
      Fills address k stack m (pushEntries fuel m) := by
  induction fuel with
  | zero =>
    refine ⟨fun m _ => Builds.failed rfl, fun _ => ⟨fun _ _ _ => rfl, Nat.le_refl _, ?_⟩⟩
    intro m' hm'
    cases hm'
  | succ fuel ih =>
    constructor
    · intro m hfits
      cases hfetch : fetch 1 m with
      | error failure m₁ =>
        have hstill := still_fetch 1 m
        rw [hfetch] at hstill
        rw [pushOne, bind_error hfetch]
        exact Builds.failed (congrArg LuaState.heap hstill)
      | ok type m₁ =>
        obtain ⟨hL, hread⟩ := fetch_ok hfetch
        have hfits₁ := hread.fits hfits
        have hvalue := pushValue_builds (m := m₁) (type.getD 0 0) hfits₁
          (pushTable_builds hfits₁ ih.2)
        rw [pushOne, bind_ok hfetch]
        refine ⟨hL ▸ hvalue.keeps, hL ▸ hvalue.length, fun m' hm' => ?_⟩
        obtain ⟨v, n, hstack, hread', hwithin⟩ := hvalue.value m' hm'
        rw [hL] at hstack hwithin
        exact ⟨v, 1 + n, hstack, hread.trans hread', by rwa [Nat.zero_add]⟩
    · intro address k stack m h
      have hone := ih.1 m h.fits
      cases hm₁ : pushOne fuel m with
      | error failure m₁ =>
        have hle := hone.length
        have hkeeps := hone.keeps
        rw [hm₁] at hle hkeeps
        rw [pushEntries, bind_error hm₁]
        exact ⟨fun a ha _ => hkeeps a ha, hle, fun m' hm' => by cases hm'⟩
      | ok _ m₁ =>
        obtain ⟨key, n, hstack, hread, hkey⟩ := hone.value m₁ hm₁
        have hle := hone.length
        have hkeeps := hone.keeps
        rw [hm₁] at hle hkeeps
        rw [h.stack] at hstack
        rw [Nat.zero_add] at hkey
        by_cases hnil : key = .nil
        · rw [hnil] at hstack
          rw [pushEntries_end hm₁ hstack]
          refine ⟨fun a ha _ => hkeeps a ha, hle, fun m' hm' => ?_⟩
          cases hm'
          obtain ⟨t, ht, hpairs⟩ := h.table
          obtain ⟨item, _, hlength⟩ := hkey
          have hpos := item.length_bytes_pos
          refine ⟨n, hread, hread.fits h.fits, ?_, t, hkeeps.get ht, ?_⟩
          · show m₁.L.stack.drop 1 = _
            rw [hstack]
            rfl
          · exact (hpairs.mono (hkeeps.above_sub (Nat.le_refl _))).weaken (by omega)
        · rw [pushEntries_key hm₁ hstack hnil]
          exact round_fills ih.1 ih.2 h hkeeps hle hread hstack hkey

/-- The same for values one behind the other. -/
structure BuildsAll (m : Machine) (r : EStateM.Result Failure Machine Unit) : Prop where
  keeps : Keeps m.L.heap (final r).L.heap
  length : m.L.heap.length ≤ (final r).L.heap.length
  values : ∀ m', r = .ok () m' → ∃ vs n, m'.L.stack = vs.reverse ++ m.L.stack ∧
    ReadOn m.s n m'.s ∧ AllWithin (above m.L.heap.length m'.L.heap) n vs

/-- A value and the values behind it. -/
theorem Builds.bind {k : Nat} {x : Seri Unit} {f : Unit → Seri Unit} {m₀ : Machine}
    (hx : Builds k m (x m)) (hL : m₀.L.stack = m.L.stack ∧ m₀.L.heap = m.L.heap)
    (hread : ReadOn m₀.s k m.s)
    (hf : ∀ m' n, ReadOn m.s n m'.s → x m = .ok () m' → BuildsAll m' (f () m')) :
    BuildsAll m₀ ((x >>= f) m) := by
  have hkeeps := hx.keeps
  have hle := hx.length
  cases hm₁ : x m with
  | error failure m₁ =>
    rw [hm₁] at hkeeps hle
    rw [bind_error hm₁]
    refine ⟨hL.2 ▸ hkeeps, hL.2 ▸ hle, fun m' hm' => ?_⟩
    cases hm'
  | ok _ m₁ =>
    obtain ⟨v, n, hstack, hread₁, hv⟩ := hx.value m₁ hm₁
    have hrest := hf m₁ n hread₁ hm₁
    rw [hm₁] at hkeeps hle
    rw [bind_ok hm₁]
    refine ⟨hL.2 ▸ hkeeps.trans hle hrest.keeps, hL.2 ▸ Nat.le_trans hle hrest.length,
      fun m' hm' => ?_⟩
    obtain ⟨vs, n', hstack', hread', hvs⟩ := hrest.values m' hm'
    have hkept := hrest.keeps
    rw [hm'] at hkept
    refine ⟨v :: vs, k + n + n', ?_, (hread.trans hread₁).trans hread', ?_⟩
    · rw [hstack', hstack, hL.1, List.reverse_cons, List.append_assoc]
      rfl
    · rw [hL.2]
      exact .cons (hv.mono (hkept.above_sub (Nat.le_refl _)))
        (hvs.mono (above_sub hle fun _ _ _ ht => ht))

/-- The loop of `l_unserialize`. -/
theorem pushValues_builds (bound fuel : Nat) :
    ∀ (i : Nat) (m : Machine), m.s.Fits → BuildsAll m (pushValues bound fuel i m) := by
  induction fuel with
  | zero =>
    refine fun i m _ => ⟨Keeps.refl _, Nat.le_refl _, fun m' hm' => ?_⟩
    cases hm'
  | succ fuel ih =>
    intro i m hfits
    obtain ⟨m₀, hcheck, hs, hstack, hheap⟩ := checkstack_round i m
    rw [pushValues, bind_ok hcheck]
    cases hread : onStream (·.read 1) m₀ with
    | error failure m₁ =>
      have hstill := still_onStream (·.read 1) m₀
      rw [hread] at hstill
      have hL : m₁.L.heap = m.L.heap := (congrArg LuaState.heap hstill).trans hheap
      rw [bind_error hread]
      refine ⟨?_, ?_, fun m' hm' => by cases hm'⟩
      · show Keeps m.L.heap m₁.L.heap
        rw [hL]
        exact Keeps.refl _
      · exact Nat.le_of_eq (congrArg List.length hL.symm)
    | ok type m₁ =>
      obtain ⟨hL, hon⟩ := onStream_read_ok hread
      rw [hs] at hon
      rw [bind_ok hread]
      cases type with
      | none =>
        have hheap₁ : m₁.L.heap = m.L.heap := (congrArg LuaState.heap hL).trans hheap
        refine ⟨?_, Nat.le_of_eq (congrArg List.length hheap₁.symm), fun m' hm' => ?_⟩
        · show Keeps m.L.heap m₁.L.heap
          rw [hheap₁]
          exact Keeps.refl _
        · cases hm'
          exact ⟨[], 0, (congrArg LuaState.stack hL).trans hstack, hon, [], .nil, Nat.le_refl 0⟩
      | some type =>
        have hfits₁ := hon.fits hfits
        have hvalue := pushValue_builds (m := m₁) (type.getD 0 0) hfits₁
          (pushTable_builds hfits₁ (push_builds bound).2)
        have hstack₁ : m₁.L.stack = m.L.stack := (congrArg LuaState.stack hL).trans hstack
        have hheap₁ : m₁.L.heap = m.L.heap := (congrArg LuaState.heap hL).trans hheap
        exact hvalue.bind ⟨hstack₁.symm, hheap₁.symm⟩ hon fun m' _ hread' _ =>
          ih (i + 1) m' (hread'.fits hfits₁)

end Take

/-- What `l_unserialize` returns has encodings that are together not longer than what was read. -/
theorem lUnserialize_builds {b : List UInt8} (hfits : b.length + 8 < s32Bound) (m : Machine) :
    Keeps m.L.heap (final (results (lUnserialize b) m)).L.heap ∧
      ∀ vs m', results (lUnserialize b) m = .ok vs m' →
        (b ≠ [] → m'.L.stack = vs.reverse) ∧ ∃ n : Nat, (b = [] ∧ n = 0 ∨ b ≠ [] ∧ m'.s.offset = n) ∧
          AllWithin (above m.L.heap.length m'.L.heap) n vs := by
  by_cases hempty : b = []
  · have hcall : lUnserialize b m = .ok 0 m := by rw [hempty]; rfl
    rw [results, hcall]
    refine ⟨Keeps.refl _, fun vs m' hm' => ?_⟩
    cases hm'
    exact ⟨fun h => absurd hempty h, 0, Or.inl ⟨hempty, rfl⟩, [], .nil, Nat.le_refl 0⟩
  · have hpos : ¬ b.length = 0 := fun hlen => hempty (List.eq_nil_of_length_eq_zero hlen)
    have hset : (modify fun m => { m with
        L := { m.L with stack := [] }
        s := .ofString b } : Seri Unit) m = .ok () ⟨{ m.L with stack := [] }, .ofString b⟩ := rfl
    have hbuilds := pushValues_builds (2 * b.length + 2) (b.length + 1) 0
      ⟨{ m.L with stack := [] }, .ofString b⟩ hfits
    have hkeeps := hbuilds.keeps
    cases hm₁ : pushValues (2 * b.length + 2) (b.length + 1) 0
        ⟨{ m.L with stack := [] }, .ofString b⟩ with
    | error failure m₁ =>
      have hcall : lUnserialize b m = .error failure m₁ := by
        rw [lUnserialize, if_neg hpos, bind_ok hset, bind_error hm₁]
      rw [hm₁] at hkeeps
      rw [results, hcall]
      exact ⟨hkeeps, fun vs m' hm' => by cases hm'⟩
    | ok _ m₁ =>
      have hcall : lUnserialize b m = .ok m₁.L.stack.length m₁ := by
        rw [lUnserialize, if_neg hpos, bind_ok hset, bind_ok hm₁]
        rfl
      rw [hm₁] at hkeeps
      rw [results, hcall]
      refine ⟨hkeeps, fun vs m' hm' => ?_⟩
      obtain ⟨vs', n, hstack, hread, hvs⟩ := hbuilds.values m₁ hm₁
      have hoffset : m₁.s.offset = 0 + n := hread.offset
      cases hm'
      have hstack : m₁.L.stack = vs'.reverse := hstack.trans (List.append_nil _)
      have hresults : (m₁.L.stack.take m₁.L.stack.length).reverse = vs' := by
        rw [List.take_length, hstack, List.reverse_reverse]
      rw [hresults]
      exact ⟨fun _ => hstack, n, Or.inr ⟨hempty, by omega⟩, hvs⟩

/-! ## What serializing leaves -/

/-- The tables are as they were, and so is the stack, but for what is named. -/
structure Leaves {α : Type} (stack : List LuaValue) (m : Machine)
    (r : EStateM.Result Failure Machine α) : Prop where
  heap : (final r).L.heap = m.L.heap
  stack : ∀ a m', r = .ok a m' → m'.L.stack = stack

section Leaves
variable {α β : Type} {m : Machine} {stack stack' : List LuaValue}

theorem Still.leaves {x : Seri α} (h : Still x) (m : Machine) : Leaves m.L.stack m (x m) := by
  have hm := h m
  refine ⟨congrArg LuaState.heap hm, fun a m' hx => ?_⟩
  rw [hx] at hm
  exact congrArg LuaState.stack hm

theorem Leaves.bind {x : Seri α} {f : α → Seri β} (h : Leaves stack m (x m))
    (hf : ∀ a m', m'.L.stack = stack → Leaves stack' m' (f a m')) :
    Leaves stack' m ((x >>= f) m) := by
  have hheap := h.heap
  cases hx : x m with
  | error failure m' =>
    rw [hx] at hheap
    rw [bind_error hx]
    exact ⟨hheap, fun a m'' hm'' => by cases hm''⟩
  | ok a m' =>
    rw [hx] at hheap
    rw [bind_ok hx]
    have hrest := hf a m' (h.stack a m' hx)
    exact ⟨hrest.heap.trans hheap, hrest.stack⟩

theorem leaves_next (index : Int) : (final (next index m)).L.heap = m.L.heap ∧
    ∀ more m', next index m = .ok more m' →
      if more then ∃ entry : LuaValue × LuaValue,
        m'.L.stack = entry.2 :: entry.1 :: m.L.stack.drop 1
      else m'.L.stack = m.L.stack.drop 1 := by
  rw [next]
  split
  · next more L h =>
    unfold LuaState.next at h
    split at h
    · next hstack =>
      split at h
      · cases h
      · next t _ =>
        cases hnext : t.next _ with
        | error failure => rw [hnext] at h; cases h
        | ok entry =>
          rw [hnext] at h
          cases entry with
          | none =>
            cases h
            refine ⟨rfl, fun more' m' hm' => ?_⟩
            cases hm'
            rw [hstack]
            rfl
          | some entry =>
            cases h
            refine ⟨rfl, fun more' m' hm' => ?_⟩
            cases hm'
            rw [hstack]
            exact ⟨entry, rfl⟩
    · cases h
  · exact ⟨rfl, fun more m' hm' => by cases hm'⟩

theorem leaves_pack (fuel : Nat) :
    (∀ index (m : Machine), Leaves m.L.stack m (packOne fuel index m)) ∧
      ∀ index (m : Machine), Leaves (m.L.stack.drop 1) m (packEntries fuel index m) := by
  induction fuel with
  | zero =>
    exact ⟨fun index m => ⟨rfl, fun _ m' hm' => by cases hm'⟩,
      fun index m => ⟨rfl, fun _ m' hm' => by cases hm'⟩⟩
  | succ fuel ih =>
    constructor
    · intro index m
      refine ((still_valueAt index).leaves m).bind fun v m₁ hstack₁ => ?_
      rw [← hstack₁]
      cases v with
      | none => exact (still_luaError _).leaves m₁
      | some v =>
        cases v with
        | nil => exact (still_put _).leaves m₁
        | integer n => exact ((still_put _).bind fun _ => still_put _).leaves m₁
        | number bits => exact ((still_put _).bind fun _ => still_put _).leaves m₁
        | boolean b => exact ((still_put _).bind fun _ => still_put _).leaves m₁
        | string bytes => exact (still_packString bytes).leaves m₁
        | other typename address => exact (still_luaError _).leaves m₁
        | table address =>
          refine (still_get.leaves m₁).bind fun m' m₂ hstack₂ => ?_
          refine ((still_put _).leaves m₂).bind fun _ m₃ hstack₃ => ?_
          have hpush : Leaves (.nil :: m₁.L.stack) m₃ (onStack (·.push .nil) m₃) := by
            refine ⟨rfl, fun _ m₄ hm₄ => ?_⟩
            cases hm₄
            show LuaValue.nil :: m₃.L.stack = _
            rw [hstack₃, hstack₂]
          refine hpush.bind fun _ m₄ hstack₄ => ?_
          have hentries := ih.2
            (if index < 0 then m'.L.gettop + index + 1 else index) m₄
          refine hentries.bind fun _ m₅ hstack₅ => ?_
          rw [hstack₄, List.drop_one, List.tail_cons] at hstack₅
          rw [← hstack₅]
          exact (still_put _).leaves m₅
    · intro index m
      obtain ⟨hheap, hnext⟩ := leaves_next (m := m) index
      rw [packEntries]
      cases hmore : next index m with
      | error failure m₁ =>
        rw [hmore] at hheap
        rw [bind_error hmore]
        exact ⟨hheap, fun _ m' hm' => by cases hm'⟩
      | ok more m₁ =>
        have hstack := hnext more m₁ hmore
        rw [hmore] at hheap
        rw [bind_ok hmore]
        cases more with
        | false =>
          refine ⟨hheap, fun _ m' hm' => ?_⟩
          cases hm'
          exact hstack
        | true =>
          obtain ⟨entry, hstack⟩ := hstack
          have hround : Leaves (m.L.stack.drop 1) m₁ ((do
              packOne fuel (-2)
              packOne fuel (-1)
              onStack (·.pop 1)
              packEntries fuel index : Seri Unit) m₁) := by
            refine (ih.1 (-2) m₁).bind fun _ m₂ hstack₂ => ?_
            refine (ih.1 (-1) m₂).bind fun _ m₃ hstack₃ => ?_
            have hpop : Leaves (entry.1 :: m.L.stack.drop 1) m₃ (onStack (·.pop 1) m₃) := by
              refine ⟨rfl, fun _ m₄ hm₄ => ?_⟩
              cases hm₄
              show m₃.L.stack.drop 1 = _
              rw [hstack₃, hstack₂, hstack]
              rfl
            refine hpop.bind fun _ m₄ hstack₄ => ?_
            have hrest := ih.2 index m₄
            rw [hstack₄] at hrest
            exact hrest
          exact ⟨hround.heap.trans hheap, hround.stack⟩

theorem leaves_packArgs (fuel n : Nat) :
    ∀ (i : Int) (m : Machine), Leaves m.L.stack m (packArgs fuel n i m) := by
  induction n with
  | zero => exact fun i m => (still_pure ()).leaves m
  | succ n ih =>
    intro i m
    refine ((leaves_pack fuel).1 i m).bind fun _ m₁ hstack₁ => ?_
    rw [← hstack₁]
    exact ih (i + 1) m₁

end Leaves

/-- `l_serialize` changes no table, and leaves a string on the stack when it returns. -/
theorem lSerialize_leaves (memory : List UInt8) (m : Machine) :
    (final (results (lSerialize memory) m)).L.heap = m.L.heap ∧
      ∀ vs m', results (lSerialize memory) m = .ok vs m' →
        ∃ out, vs = [.string out] ∧ m'.L.stack = .string out :: m.L.stack := by
  have hset : (modify fun m => { m with s := .alloc memory } : Seri Unit) m =
      .ok () ⟨m.L, .alloc memory⟩ := rfl
  have hget : ∀ m : Machine, (get : Seri Machine) m = .ok m m := fun _ => rfl
  have hargs := leaves_packArgs (2 * buffSize + 2) m.L.stack.length 1 ⟨m.L, .alloc memory⟩
  have hheap := hargs.heap
  rw [results, lSerialize, bind_ok hset, bind_ok (hget _)]
  cases hm₁ : packArgs (2 * buffSize + 2) m.L.stack.length 1 ⟨m.L, .alloc memory⟩ with
  | error failure m₁ =>
    rw [hm₁] at hheap
    rw [bind_error hm₁]
    exact ⟨hheap, fun vs m' hm' => by cases hm'⟩
  | ok _ m₁ =>
    have hstack := hargs.stack () m₁ hm₁
    rw [hm₁] at hheap
    rw [bind_ok hm₁, bind_ok (hget _)]
    cases hpush : pushlstring m₁.s.buffer 0 m₁.s.offset m₁ with
    | error failure m₂ =>
      have hheap₂ : m₂.L.heap = m₁.L.heap := by
        cases pushlstring_failed hpush with
        | inl hL => rw [hL]
        | inr hL => rw [hL]; rfl
      rw [bind_error hpush]
      exact ⟨hheap₂.trans hheap, fun vs m' hm' => by cases hm'⟩
    | ok _ m₂ =>
      obtain ⟨⟨out, hL⟩, _⟩ := pushlstring_pushed hpush
      rw [bind_ok hpush]
      refine ⟨(congrArg LuaState.heap hL).trans hheap, fun vs m' hm' => ?_⟩
      cases hm'
      have hstack₂ : m₂.L.stack = .string out :: m.L.stack := by
        rw [hL]
        exact congrArg (LuaValue.string out :: ·) hstack
      exact ⟨out, by rw [hstack₂]; rfl, hstack₂⟩

/-- **The tables of a state.** Wherever the outcome of a call is defined, whether it returns or
raises an error: `l_serialize` changes no table, and where it returns, its string lies above what
was on the stack; `l_unserialize` changes no table that was there, and where it returns, there is
nothing else on the stack than its results, which are finite trees of new tables. -/
theorem serializer_frame {b : List UInt8} (hfits : b.length + 8 < s32Bound) (memory : List UInt8)
    (m : Machine) :
    (Defined (results (lSerialize memory) m) →
      (final (results (lSerialize memory) m)).L.heap = m.L.heap ∧
        ∀ vs m', results (lSerialize memory) m = .ok vs m' →
          ∃ out, vs = [.string out] ∧ m'.L.stack = .string out :: m.L.stack) ∧
    (Defined (results (lUnserialize b) m) →
      Keeps m.L.heap (final (results (lUnserialize b) m)).L.heap ∧
        ∀ vs m', results (lUnserialize b) m = .ok vs m' → (b ≠ [] → m'.L.stack = vs.reverse) ∧
          ∀ v ∈ vs, Plain (above m.L.heap.length m'.L.heap) v) := by
  obtain ⟨hkeeps, hbuilds⟩ := lUnserialize_builds hfits m
  refine ⟨fun _ => lSerialize_leaves memory m, fun _ => ⟨hkeeps, fun vs m' hm' => ?_⟩⟩
  obtain ⟨hstack, _, _, hwithin⟩ := hbuilds vs m' hm'
  exact ⟨hstack, hwithin.plain⟩

/-- A string in a table, serialized, and unserialized behind that table. -/
theorem serializer_frame_nested : ∃ out m m' vs,
    results (lSerialize (List.replicate buffSize 0)) ⟨.call [.table 0]
        [Table.empty.set ⟨.boolean true, trivial⟩ (.string [9])], .alloc []⟩ = .ok [.string out] m ∧
      m.L.heap = [Table.empty.set ⟨.boolean true, trivial⟩ (.string [9])] ∧
      m.L.stack = [.string out, .table 0] ∧
      results (lUnserialize [TABLE, BOOLEAN, 1, STRING, 1, 0, 0, 0, 9, NIL]) ⟨.call [.string
          [TABLE, BOOLEAN, 1, STRING, 1, 0, 0, 0, 9, NIL]] m.L.heap, .alloc []⟩ = .ok vs m' ∧
      Keeps m.L.heap m'.L.heap ∧ m'.L.stack = vs.reverse ∧
      ∀ v ∈ vs, Plain (above m.L.heap.length m'.L.heap) v := by
  have hitems : List.Forall₂ (fun v (item : Item) => item.Encodes
      (lookup [Table.empty.set ⟨.boolean true, trivial⟩ (.string [9])]) v) [.table 0]
      [.table (.cons (.boolean 1) (.string [9]) .nil)] :=
    .cons ⟨0, _, rfl, rfl, _, _, _, rfl, ⟨true, rfl, rfl⟩, rfl, rfl⟩ .nil
  have hwf : ∀ item ∈ [Item.table (.cons (.boolean 1) (.string [9]) .nil)],
      item.WellFormed Item.IsKey := by
    simp [Item.WellFormed, Entries.WellFormed, Item.IsKey, s32Bound]
  have hmemory : (List.replicate buffSize (0 : UInt8)).length = buffSize := List.length_replicate
  have hshallow := (lSerialize_shallow hitems (by decide) hmemory (.alloc [])).mpr (by decide)
  obtain ⟨m, hm, hheap⟩ := lSerialize_items hitems (by decide) hmemory (.alloc [])
  have hfit := (lUnserialize_fit hwf (by decide) m.L.heap (.alloc [])).mpr (by decide)
  obtain ⟨m', hm', _⟩ := lUnserialize_items (m := ⟨.call [.string ([Item.table (.cons (.boolean 1)
    (.string [9]) .nil)].flatMap Item.bytes)] m.L.heap, .alloc []⟩) hwf (by decide)
  have hserialize := (serializer_frame (b := []) (by decide) (List.replicate buffSize 0)
    ⟨.call [.table 0] [Table.empty.set ⟨.boolean true, trivial⟩ (.string [9])], .alloc []⟩).1
      ⟨hshallow, fun _ h => by rw [hm] at h; cases h⟩
  have hunserialize := (serializer_frame (by decide) [] ⟨.call [.string ([Item.table (.cons
    (.boolean 1) (.string [9]) .nil)].flatMap Item.bytes)] m.L.heap, .alloc []⟩).2
      ⟨hfit, fun _ h => by rw [hm'] at h; cases h⟩
  rw [hm'] at hunserialize
  obtain ⟨out, hout, hstack⟩ := hserialize.2 _ m hm
  obtain ⟨hstack', hplain⟩ := hunserialize.2 _ m' rfl
  refine ⟨_, m, m', _, hm, hheap, ?_, hm', hunserialize.1, hstack' (List.cons_ne_nil _ _), hplain⟩
  cases hout
  exact hstack

/-- **Serializing what was unserialized.** What a string that fits into the buffer, and in which
no STRING runs beyond the end, is unserialized to is serialized to a string that is not longer,
and this is unserialized, in any state, to the same values, as far as the slots of the stack are
enough for these calls. -/
theorem unserialize_round_trip {b : List UInt8} {m m' : Machine} {vs : List LuaValue}
    (h : Returns (results (lUnserialize b) m) vs m') (hover : ¬ StringOverrun b)
    (hsize : b.length ≤ buffSize) {memory : List UInt8} (hmemory : memory.length = buffSize)
    (s : SerializeStream)
    (hslots : Disciplined (results (lSerialize memory) ⟨.call vs m'.L.heap, s⟩)) :
    ∃ b' m₁, Returns (results (lSerialize memory) ⟨.call vs m'.L.heap, s⟩) [.string b'] m₁ ∧
      b'.length ≤ b.length ∧ ∀ there, Disciplined (results (lUnserialize b') there) →
        ∃ vs' m₂, Returns (results (lUnserialize b') there) vs' m₂ ∧
          Keeps there.L.heap m₂.L.heap ∧
          List.Forall₂ (Same (lookup m'.L.heap) (lookup m₂.L.heap)) vs vs' := by
  have hbound : buffSize + 8 < s32Bound := by decide
  have hfits : b.length + 8 < s32Bound := by omega
  have hlookup : ∀ a t, above m.L.heap.length m'.L.heap a = some t →
      lookup m'.L.heap a = some t := by
    intro a t ht
    unfold above at ht
    split at ht
    · exact ht
    · cases ht
  obtain ⟨_, n, hoffset, hwithin⟩ := (lUnserialize_builds hfits m).2 vs m' h.1
  obtain ⟨items, hitems, hlength⟩ := hwithin.mono hlookup
  -- All of the string has been read, and no more.
  have hread : n ≤ b.length := by
    rcases lUnserialize_cases hfits hover m with ⟨_, _, m₀, hok, hreads⟩ | ⟨_, _, _, _, herror, _⟩
    · rw [h.1] at hok
      cases hok
      rcases hoffset with ⟨_, hn⟩ | ⟨hne, hn⟩
      · omega
      · have hend := (hreads hne).offset
        rw [List.length_nil] at hend
        omega
    · rw [h.1] at herror
      cases herror
  have hsize' : (items.flatMap Item.bytes).length ≤ buffSize := by omega
  obtain ⟨m₁, hm₁, _⟩ := lSerialize_items hitems hsize' hmemory s
  refine ⟨_, m₁, ⟨hm₁, hslots⟩, Nat.le_trans hlength hread, fun there hslots' => ?_⟩
  obtain ⟨m₂, vs', hm₂, hkeeps, hsame⟩ := lUnserialize_encodes hitems hsize' there
  exact ⟨vs', m₂, ⟨hm₂, hslots'⟩, hkeeps, hsame⟩

/-- A table that under `true` gets a table, and then nil. -/
def emptied : Item := .table (.cons (.boolean 7) (.table .nil) (.cons (.boolean 1) .nil .nil))

/-- What is left is an empty table. -/
theorem unserialize_round_trip_taken : ∃ vs m',
    Returns (results (lUnserialize [TABLE, BOOLEAN, 7, TABLE, NIL, BOOLEAN, 1, NIL, NIL])
        ⟨.call [.string [TABLE, BOOLEAN, 7, TABLE, NIL, BOOLEAN, 1, NIL, NIL]] [], .alloc []⟩) vs m' ∧
      ∃ b' m₁,
        Returns (results (lSerialize (List.replicate buffSize 0))
          ⟨.call vs m'.L.heap, .alloc []⟩) [.string b'] m₁ ∧
        b'.length ≤ [TABLE, BOOLEAN, 7, TABLE, NIL, BOOLEAN, 1, NIL, NIL].length ∧
        ∃ vs' m₂, Returns (results (lUnserialize b') ⟨.call [.string b'] [], .alloc []⟩) vs' m₂ ∧
          Keeps [] m₂.L.heap ∧
          List.Forall₂ (Same (lookup m'.L.heap) (lookup m₂.L.heap)) vs vs' := by
  have hwf : ∀ item ∈ [emptied], item.WellFormed Item.IsKey := by
    simp [emptied, Item.WellFormed, Entries.WellFormed, Item.IsKey]
  have hover : ¬ StringOverrun ([emptied].flatMap Item.bytes) := by
    intro h
    rw [← List.append_nil ([emptied].flatMap Item.bytes)] at h
    exact not_stringMeets_nil (h.behind (fun _ _ => id) hwf)
  obtain ⟨m', hm', _, hheap⟩ := lUnserialize_items (m := ⟨.call [.string ([emptied].flatMap
    Item.bytes)] [], .alloc []⟩) hwf (by decide)
  have hslots := (lUnserialize_fit hwf (by decide) [] (.alloc [])).mpr (by decide)
  have hitems : List.Forall₂ (fun v (item : Item) => item.Encodes (lookup m'.L.heap) v)
      (buildAll [emptied] []).1 [.table .nil] := by
    rw [hheap]
    exact .cons ⟨0, Table.empty, rfl, rfl, rfl⟩ .nil
  have hsize : ([Item.table .nil].flatMap Item.bytes).length ≤ buffSize := by decide
  have hmemory : (List.replicate buffSize (0 : UInt8)).length = buffSize := List.length_replicate
  have hslots₁ := (lSerialize_shallow hitems hsize hmemory (.alloc [])).mpr (by decide)
  obtain ⟨b', m₁, hserialize, hle, hthere⟩ :=
    unserialize_round_trip ⟨hm', hslots⟩ hover (by decide) hmemory (.alloc []) hslots₁
  refine ⟨_, m', ⟨hm', hslots⟩, b', m₁, hserialize, hle, hthere _ ?_⟩
  -- The string is the encoding of the empty table.
  obtain ⟨m₁', hm₁', _⟩ := lSerialize_items hitems hsize hmemory (.alloc [])
  have hbytes : b' = [Item.table .nil].flatMap Item.bytes := by
    have hsame := hserialize.1.symm.trans hm₁'
    cases hsame
    rfl
  have hwf' : ∀ item ∈ [Item.table .nil], item.WellFormed Item.IsKey := by
    simp [Item.WellFormed, Entries.WellFormed]
  rw [hbytes]
  exact (lUnserialize_fit hwf' (by decide) _ (.alloc [])).mpr (by decide)

end HyperNet.ScriptEngine
