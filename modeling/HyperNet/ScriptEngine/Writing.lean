import HyperNet.ScriptEngine.Fields

/-! # What the writing side makes of a value

A value that has an encoding is written as the fields of that encoding, as far as they go, and
the stack is left as it was. -/
namespace HyperNet.ScriptEngine
open HyperNet.Core HyperNet.Public
open HyperNet.Logic (s32Bytes length_s32Bytes)

/-- The stream of `l_serialize` with `out` written to it, whose offset has never left the
buffer. -/
structure Wrote (out : List UInt8) (s : SerializeStream) : Prop where
  length : s.buffer.length = buffSize
  len : s.len = buffSize
  offset : s.offset = out.length
  buffer : s.buffer.take out.length = out
  inside : ∀ offset ∈ s.offset :: s.offsets, 0 ≤ offset ∧ offset ≤ buffSize

/-- The stream that `l_serialize` begins with. -/
theorem wrote_alloc {memory : List UInt8} (h : memory.length = buffSize) :
    Wrote [] (.alloc memory) := by
  refine ⟨h, rfl, rfl, rfl, ?_⟩
  intro offset hmem
  rw [List.mem_singleton.mp hmem]
  exact ⟨Int.le_refl 0, Int.natCast_nonneg buffSize⟩

theorem Wrote.length_le {out : List UInt8} {s : SerializeStream} (h : Wrote out s) :
    out.length ≤ buffSize := by
  have hinside := (h.inside s.offset List.mem_cons_self).2
  rw [h.offset] at hinside
  omega

/-- The stack and the tables are as they were, and no more slots are ensured. -/
structure Kept (m m' : Machine) : Prop where
  stack : m'.L.stack = m.L.stack
  heap : m'.L.heap = m.L.heap
  slots : m'.L.slots = m.L.slots

theorem Kept.refl (m : Machine) : Kept m m := ⟨rfl, rfl, rfl⟩

theorem Kept.trans {m m' m'' : Machine} (h : Kept m m') (h' : Kept m' m'') : Kept m m'' :=
  ⟨h'.stack.trans h.stack, h'.heap.trans h.heap, h'.slots.trans h.slots⟩

/-- Behind `out`, fields are written, as long as there is room; `Q` is what holds then. -/
def Writes (fields : List Field) (out : List UInt8) (Q : Machine → Prop)
    (r : EStateM.Result Failure Machine Unit) : Prop :=
  match ending out.length fields with
  | .done => ∃ m, r = .ok () m ∧ Wrote (out ++ fields.flatMap Field.copied) m.s ∧ Q m
  | .full => ∃ m out', r = .error (.error "serialize buffer full") m ∧ Wrote out' m.s
  | .overrun => ∃ m, r = .error .undefined m

section Writes
variable {fields fields' : List Field} {out src : List UInt8} {Q Q' : Machine → Prop}
  {s : SerializeStream} {m : Machine}

theorem Writes.of_done {r : EStateM.Result Failure Machine Unit}
    (h : ending out.length fields = .done) (hr : r = .ok () m)
    (hwrote : Wrote (out ++ fields.flatMap Field.copied) m.s) (hQ : Q m) :
    Writes fields out Q r := by
  rw [Writes, h]
  exact ⟨m, hr, hwrote, hQ⟩

theorem Writes.of_full {r : EStateM.Result Failure Machine Unit} {out' : List UInt8}
    (h : ending out.length fields = .full)
    (hr : r = .error (.error "serialize buffer full") m) (hwrote : Wrote out' m.s) :
    Writes fields out Q r := by
  rw [Writes, h]
  exact ⟨m, out', hr, hwrote⟩

theorem Writes.of_overrun {r : EStateM.Result Failure Machine Unit}
    (h : ending out.length fields = .overrun) (hr : r = .error .undefined m) :
    Writes fields out Q r := by
  rw [Writes, h]
  exact ⟨m, hr⟩

theorem writes_nil (h : Wrote out m.s) (hQ : Q m) : Writes [] out Q (.ok () m) := by
  refine ⟨m, rfl, ?_, hQ⟩
  rw [List.flatMap_nil, List.append_nil]
  exact h

theorem Writes.mono {r : EStateM.Result Failure Machine Unit} (h : Writes fields out Q r)
    (hQ : ∀ m, Q m → Q' m) : Writes fields out Q' r := by
  unfold Writes at h ⊢
  split at h
  · obtain ⟨m, hr, hwrote, hm⟩ := h
    exact ⟨m, hr, hwrote, hQ m hm⟩
  · exact h
  · exact h

/-- First some fields, then others. -/
theorem Writes.bind {x : Seri Unit} {f : Unit → Seri Unit} (h : Writes fields out Q (x m))
    (fields' : List Field) (hf : ∀ m', Wrote (out ++ fields.flatMap Field.copied) m'.s → Q m' →
      Writes fields' (out ++ fields.flatMap Field.copied) Q' (f () m')) :
    Writes (fields ++ fields') out Q' ((x >>= f) m) := by
  unfold Writes at h ⊢
  rw [ending_append]
  cases hending : ending out.length fields with
  | done =>
    rw [hending] at h
    obtain ⟨m', hm', hwrote, hQ⟩ := h
    have hrest := hf m' hwrote hQ
    unfold Writes at hrest
    rw [List.length_append] at hrest
    rw [bind_ok hm', List.flatMap_append, ← List.append_assoc]
    exact hrest
  | full =>
    rw [hending] at h
    obtain ⟨m', out', hm', hwrote⟩ := h
    exact ⟨m', out', bind_error hm', hwrote⟩
  | overrun =>
    rw [hending] at h
    obtain ⟨m', hm'⟩ := h
    exact ⟨m', bind_error hm'⟩

theorem Wrote.store (h : Wrote out s) (src : List UInt8)
    (hfits : out.length + src.length ≤ buffSize) :
    ∃ s', s.store src = .ok s' ∧ Wrote (out ++ src) s' := by
  have hoffset := h.offset
  have hlength := h.length
  have hpos : s.offset.toNat = out.length := by omega
  refine ⟨_, if_pos (by omega), ?_, h.len, ?_, ?_, ?_⟩
  · show (s.buffer.take s.offset.toNat ++ src ++
      s.buffer.drop (s.offset.toNat + src.length)).length = buffSize
    rw [hpos, h.buffer, List.length_append, List.length_append, List.length_drop]
    omega
  · show s.offset + src.length = _
    rw [List.length_append]
    omega
  · show (s.buffer.take s.offset.toNat ++ src ++
      s.buffer.drop (s.offset.toNat + src.length)).take (out ++ src).length = out ++ src
    rw [hpos, h.buffer, List.take_left]
  · intro offset hmem
    cases List.mem_cons.mp hmem with
    | inl heq =>
      have hnew : offset = s.offset + src.length := heq
      omega
    | inr hold => exact h.inside offset hold

/-- What is too long for the rest of the buffer is not stored. -/
theorem Wrote.store_beyond (h : Wrote out s) (hlong : buffSize < out.length + src.length) :
    s.store src = .error .undefined := by
  have hoffset := h.offset
  have hlength := h.length
  exact if_neg (by omega)

/-- `write` says whether there is room. -/
theorem Wrote.write (h : Wrote out s) (src : List UInt8) (hshort : src.length ≤ 8) :
    if buffSize < out.length + src.length then s.write src = .ok (false, s)
    else ∃ s', s.write src = .ok (true, s') ∧ Wrote (out ++ src) s' := by
  have hoffset := h.offset
  have hlen := h.len
  have hle := h.length_le
  have hbound : buffSize + 8 < 2 ^ 31 := by decide
  have hsum : addS32 s.offset src.length = .ok (s.offset + src.length) := if_pos (by omega)
  have hwrite : s.write src = if s.len < s.offset + src.length then .ok (false, s)
      else (s.store src).map fun s' => (true, s') := by
    rw [SerializeStream.write, hsum]
    show (if s.len < s.offset + src.length then _ else _) = _
    split
    · rfl
    · cases s.store src <;> rfl
  split
  · next hfull => rw [hwrite, if_pos (by omega)]
  · next hfits =>
    obtain ⟨s', hs', hwrote⟩ := h.store src (by omega)
    refine ⟨s', ?_, hwrote⟩
    rw [hwrite, if_neg (by omega), hs']
    rfl

theorem put_writes (h : Wrote out m.s) (hshort : src.length ≤ 8) :
    Writes [.checked src] out (Kept m) (put src m) := by
  have hwrite := h.write src hshort
  split at hwrite
  · next hfull =>
    have hending : ending out.length [.checked src] = .full := by rw [ending, if_pos hfull]
    have hstream : onStream (·.write src) m = .ok false m := by rw [onStream, hwrite]
    refine .of_full hending ?_ h
    rw [put, bind_ok hstream]
    rfl
  · next hfits =>
    obtain ⟨s', hs', hwrote⟩ := hwrite
    have hending : ending out.length [.checked src] = .done := by
      rw [ending, if_neg hfits, ending]
    have hstream : onStream (·.write src) m = .ok true { m with s := s' } := by
      rw [onStream, hs']
    refine .of_done hending (m := { m with s := s' }) ?_ ?_ ⟨rfl, rfl, rfl⟩
    · rw [put, bind_ok hstream]
      rfl
    · rw [List.flatMap_singleton]
      exact hwrote

/-- The type and what stands behind it. -/
theorem put_put_writes {type : UInt8} (h : Wrote out m.s) (hshort : src.length ≤ 8) :
    Writes [.checked [type], .checked src] out (Kept m)
      ((do put [type]; put src : Seri Unit) m) := by
  have htype : [type].length ≤ 8 := by simp
  refine (put_writes h htype).bind [.checked src] (fun m' hwrote hkept => ?_)
  exact (put_writes hwrote hshort).mono fun _ => hkept.trans

theorem s32Bytes_s32 (x : Int) : s32Bytes (s32 x) = s32Bytes x := by
  have hmod : s32 x % 2 ^ 32 = x % 2 ^ 32 := Int.bmod_emod
  simp only [s32Bytes, hmod]

/-- After the length, the bytes are copied in any case. -/
theorem writeString_writes (bytes : List UInt8) (h : Wrote out m.s) :
    Writes [.checked (s32Bytes bytes.length), .unchecked bytes] out (Kept m)
      ((do
        let done ← onStream (·.writeString bytes (s32 bytes.length))
        if done then pure () else luaError "serialize buffer full" : Seri Unit) m) := by
  have hwrite := h.write (s32Bytes bytes.length) (by rw [length_s32Bytes]; omega)
  split at hwrite
  · next hfull =>
    have hending : ending out.length [.checked (s32Bytes bytes.length), .unchecked bytes] =
        .full := by rw [ending, if_pos hfull]
    have hstring : m.s.writeString bytes (s32 bytes.length) = .ok (false, m.s) := by
      simp only [SerializeStream.writeString, s32Bytes_s32, hwrite, bind, Except.bind]
    have hstream : onStream (·.writeString bytes (s32 bytes.length)) m = .ok false m := by
      rw [onStream, hstring]
    refine .of_full hending ?_ h
    rw [bind_ok hstream]
    rfl
  · next hfits =>
    obtain ⟨s₂, hs₂, hwrote₂⟩ := hwrite
    have hending : ending out.length [.checked (s32Bytes bytes.length), .unchecked bytes] =
        if s32 bytes.length < 0 ∨
          buffSize < (out ++ s32Bytes bytes.length).length + s32 bytes.length then .overrun
        else .done := by
      rw [ending, if_neg hfits, ending, List.length_append, ending]
    have hstring : m.s.writeString bytes (s32 bytes.length) =
        if s32 bytes.length < 0 then .error .undefined
        else (s₂.store (Field.unchecked bytes).copied).map fun s => (true, s) := by
      simp only [SerializeStream.writeString, s32Bytes_s32, hs₂, bind, Except.bind]
      split
      · rfl
      · rw [Field.copied]
        cases s₂.store _ <;> rfl
    split at hending
    · next hover =>
      have herror : m.s.writeString bytes (s32 bytes.length) = .error .undefined := by
        rw [hstring]
        split
        · rfl
        · next hnonneg =>
          have hcopied := Field.copied_unchecked (show 0 ≤ s32 bytes.length by omega)
          rw [hwrote₂.store_beyond (by omega)]
          rfl
      refine .of_overrun hending (m := m) (bind_error ?_)
      rw [onStream, herror]
    · next hroom =>
      have hcopied := Field.copied_unchecked (show 0 ≤ s32 bytes.length by omega)
      obtain ⟨s', hs', hwrote⟩ := hwrote₂.store (Field.unchecked bytes).copied (by omega)
      rw [if_neg (by omega), hs'] at hstring
      have hstream : onStream (·.writeString bytes (s32 bytes.length)) m =
          .ok true { m with s := s' } := by rw [onStream, hstring]; rfl
      refine .of_done hending (m := { m with s := s' }) ?_ ?_ ⟨rfl, rfl, rfl⟩
      · rw [bind_ok hstream]
        rfl
      · rw [List.flatMap_cons, List.flatMap_singleton, Field.copied_checked, ← List.append_assoc]
        exact hwrote

theorem packString_writes (bytes : List UInt8) (h : Wrote out m.s) :
    Writes (Item.string bytes).fields out (Kept m) (packString bytes m) := by
  have htype : [STRING].length ≤ 8 := by simp
  refine (put_writes h htype).bind
    [.checked (s32Bytes bytes.length), .unchecked bytes] (fun m' hwrote hkept => ?_)
  exact (writeString_writes bytes hwrote).mono fun _ => hkept.trans

end Writes

section Next
variable {t : Table} {entries : List (LuaValue × LuaValue)}

/-- The traversal of a table begins with its first entry. -/
theorem Table.next_nil : t.next .nil = .ok t.entries.head? := if_pos rfl

/-- Behind an entry comes the next one. -/
theorem Table.next_key {before : List (LuaValue × LuaValue)} {entry : LuaValue × LuaValue}
    (h : t.entries = before ++ entry :: entries) : t.next entry.1 = .ok entries.head? := by
  have hmem : entry ∈ t.entries := by
    rw [h]
    exact List.mem_append_right _ List.mem_cons_self
  have hbefore : ∀ e ∈ before, e.1 ≠ entry.1 := by
    intro e he heq
    have hnodup := t.nodup
    rw [h, List.map_append, List.map_cons] at hnodup
    exact (List.nodup_append.mp hnodup).2.2 e.1 (List.mem_map_of_mem he) _ List.mem_cons_self heq
  have hdrop : t.entries.dropWhile (·.1 ≠ entry.1) = entry :: entries := by
    rw [h, List.dropWhile_append_of_pos (by simpa using hbefore),
      List.dropWhile_cons_of_neg (by simp)]
  rw [Table.next, if_neg (t.isKey entry hmem).ne_nil, hdrop]

/-- `lua_next` replaces the key by the next entry. -/
theorem next_cons {m : Machine} {index : Int} {address : Nat} {key : LuaValue}
    {entry : LuaValue × LuaValue} {stack : List LuaValue}
    (hvalue : m.L.value? index = some (.table address)) (hstack : m.L.stack = key :: stack)
    (ht : m.L.heap[address]? = some t) (hnext : t.next key = .ok (some entry)) :
    ∃ m', next index m = .ok true m' ∧ m'.s = m.s ∧ m'.L.heap = m.L.heap ∧
      m'.L.stack = entry.2 :: entry.1 :: stack ∧ m'.L.slots = m.L.slots ∧
      m'.L.exceeded = (m.L.exceeded || decide (m.L.slots ≤ stack.length + 1)) := by
  refine ⟨{ m with L := ({ m.L with stack := entry.1 :: stack }).push entry.2 }, ?_, rfl, rfl, rfl,
    rfl, rfl⟩
  have hL : m.L.next index = .ok (true, ({ m.L with stack := entry.1 :: stack }).push entry.2) := by
    simp only [LuaState.next, hvalue, hstack, ht, hnext]
    rfl
  rw [next, hL]

/-- `lua_next` takes the last key away. -/
theorem next_end {m : Machine} {index : Int} {address : Nat} {key : LuaValue}
    {stack : List LuaValue} (hvalue : m.L.value? index = some (.table address))
    (hstack : m.L.stack = key :: stack) (ht : m.L.heap[address]? = some t)
    (hnext : t.next key = .ok none) :
    next index m = .ok false { m with L := { m.L with stack := stack } } := by
  have hL : m.L.next index = .ok (false, { m.L with stack := stack }) := by
    simp only [LuaState.next, hvalue, hstack, ht, hnext]
    rfl
  rw [next, hL]

end Next

/-- The loop of `pack_table` on the table at an index, before its next call of `lua_next`: the
entries of `rest` are still to come. -/
structure Walks (m : Machine) (index : Int) (t : Table) (key : LuaValue) (stack : List LuaValue)
    (rest : List (LuaValue × LuaValue)) : Prop where
  pos : 0 < index
  table : ∃ address, stackValue? stack index = some (.table address) ∧
    m.L.heap[address]? = some t
  stack : m.L.stack = key :: stack
  next : t.next key = .ok rest.head?
  suffix : rest <:+ t.entries

section Pack
variable {heap : List Table}

theorem valueAt_some {index : Int} {m : Machine} {v : LuaValue}
    (h : m.L.value? index = some v) : valueAt index m = .ok (some v) m := by
  rw [valueAt, h]

/-- The table is found below what the loop has pushed. -/
theorem Walks.value {m : Machine} {index : Int} {t : Table} {key : LuaValue}
    {stack : List LuaValue} {rest : List (LuaValue × LuaValue)}
    (h : Walks m index t key stack rest) : ∃ address,
      m.L.value? index = some (.table address) ∧ m.L.heap[address]? = some t := by
  obtain ⟨address, hvalue, ht⟩ := h.table
  refine ⟨address, ?_, ht⟩
  rw [LuaState.value?, h.stack]
  exact stackValue?_append [key] h.pos hvalue

/-- The loop goes on behind an entry. -/
theorem Walks.goOn {m m' : Machine} {index : Int} {t : Table} {key : LuaValue}
    {stack : List LuaValue} {entry : LuaValue × LuaValue} {rest : List (LuaValue × LuaValue)}
    (h : Walks m index t key stack (entry :: rest)) (hheap : m'.L.heap = m.L.heap)
    (hstack : m'.L.stack = entry.1 :: stack) : Walks m' index t entry.1 stack rest := by
  obtain ⟨address, hvalue, ht⟩ := h.table
  obtain ⟨before, hbefore⟩ := h.suffix
  exact ⟨h.pos, ⟨address, hvalue, by rw [hheap, ht]⟩, hstack, t.next_key hbefore.symm,
    (List.suffix_cons _ _).trans h.suffix⟩

/-- The loop begins behind nil. -/
theorem walks_first {m m' : Machine} {index : Int} {address : Nat} {t : Table}
    (hvalue : m.L.value? index = some (.table address)) (ht : m.L.heap[address]? = some t)
    (hkept : Kept m m') : Walks { m' with L := m'.L.push .nil }
      (if index < 0 then m.L.gettop + index + 1 else index) t .nil m.L.stack t.entries := by
  obtain ⟨hpos, hbottom⟩ := stackValue?_bottom hvalue
  exact ⟨hpos, ⟨address, hbottom, by rw [← ht, ← hkept.heap]; rfl⟩,
    congrArg (LuaValue.nil :: ·) hkept.stack, t.next_nil, List.suffix_refl _⟩

/-- A table is packed at its absolute index. -/
theorem packOne_packTable (fuel : Nat) {address : Nat} {index : Int} {m : Machine}
    (hvalue : m.L.value? index = some (.table address)) :
    packOne (fuel + 1) index m = packTable (packEntries fuel
      (if index < 0 then m.L.gettop + index + 1 else index)) m := by
  have hget : (get : Seri Machine) m = .ok m m := rfl
  rw [packOne, bind_ok (valueAt_some hvalue)]
  exact bind_ok hget

mutual

/-- A value is written as its encoding. -/
theorem packOne_writes : ∀ (item : Item) (fuel : Nat) {v : LuaValue} {index : Int} {m : Machine}
    {out : List UInt8}, item.Encodes (lookup heap) v → m.L.heap = heap →
    m.L.value? index = some v → Wrote out m.s → 2 * (buffSize - out.length) + 1 ≤ fuel →
    Writes item.fields out (Kept m) (packOne fuel index m)
  | item, 0, _, _, _, _, _, _, _, _, hfuel => by omega
  | .nil, fuel + 1, v, index, m, out, h, hheap, hvalue, hwrote, hfuel => by
    have hv : v = .nil := h
    have hnil : [NIL].length ≤ 8 := by simp
    rw [packOne, bind_ok (valueAt_some hvalue), hv]
    exact put_writes hwrote hnil
  | .boolean byte, fuel + 1, v, index, m, out, h, hheap, hvalue, hwrote, hfuel => by
    obtain ⟨b, rfl, rfl⟩ := h
    rw [packOne, bind_ok (valueAt_some hvalue)]
    exact put_put_writes hwrote (by simp)
  | .integer n, fuel + 1, v, index, m, out, h, hheap, hvalue, hwrote, hfuel => by
    have hv : v = .integer n := h
    rw [packOne, bind_ok (valueAt_some hvalue), hv]
    exact put_put_writes hwrote (by simp)
  | .number bits, fuel + 1, v, index, m, out, h, hheap, hvalue, hwrote, hfuel => by
    have hv : v = .number bits := h
    rw [packOne, bind_ok (valueAt_some hvalue), hv]
    exact put_put_writes hwrote (by simp)
  | .string bytes, fuel + 1, v, index, m, out, h, hheap, hvalue, hwrote, hfuel => by
    have hv : v = .string bytes := h
    rw [packOne, bind_ok (valueAt_some hvalue), hv]
    exact packString_writes bytes hwrote
  | .table entries, fuel + 1, v, index, m, out, h, hheap, hvalue, hwrote, hfuel => by
    obtain ⟨address, t, rfl, ht, hentries⟩ := h
    have htype : [TABLE].length ≤ 8 := by simp
    have hnil : [NIL].length ≤ 8 := by simp
    rw [packOne_packTable fuel hvalue, packTable, Item.fields]
    refine (put_writes hwrote htype).bind (entries.fields ++ [.checked [NIL]])
      (fun m₁ hwrote₁ hkept₁ => ?_)
    have hpush : onStack (·.push .nil) m₁ = .ok () { m₁ with L := m₁.L.push .nil } := rfl
    have hwalks := walks_first hvalue (by rw [hheap]; exact ht) hkept₁
    have hlength : (out ++ [Field.checked [TABLE]].flatMap Field.copied).length =
        out.length + 1 := List.length_append
    have hle := hwrote₁.length_le
    rw [bind_ok hpush]
    refine Writes.bind (packEntries_writes entries fuel hwalks (hkept₁.heap.trans hheap) hentries
      hwrote₁ (by omega)) _ (fun m₂ hwrote₂ hkept₂ => ?_)
    exact (put_writes hwrote₂ hnil).mono fun m' hkept' =>
      ⟨hkept'.stack.trans hkept₂.1, hkept'.heap.trans (hkept₂.2.1.trans hkept₁.heap),
        hkept'.slots.trans (hkept₂.2.2.trans hkept₁.slots)⟩

/-- The loop of `pack_table` writes the entries, but for the end of the table, and takes the
last key away. -/
theorem packEntries_writes : ∀ (entries : Entries) (fuel : Nat) {index : Int} {m : Machine}
    {out : List UInt8} {key : LuaValue} {stack : List LuaValue} {t : Table}
    {rest : List (LuaValue × LuaValue)}, Walks m index t key stack rest → m.L.heap = heap →
    entries.Encode (lookup heap) rest → Wrote out m.s →
    2 * (buffSize - out.length) + 2 ≤ fuel →
    Writes entries.fields out (fun m' => m'.L.stack = stack ∧ m'.L.heap = m.L.heap ∧
      m'.L.slots = m.L.slots) (packEntries fuel index m)
  | entries, 0, _, _, _, _, _, _, _, _, _, _, _, hfuel => by omega
  | .nil, fuel + 1, index, m, out, key, stack, t, rest, hwalks, hheap, h, hwrote, hfuel => by
    have hrest : rest = [] := h
    obtain ⟨address, hvalue, ht⟩ := hwalks.value
    have hnext := hwalks.next
    rw [hrest] at hnext
    rw [packEntries, bind_ok (next_end hvalue hwalks.stack ht hnext)]
    exact writes_nil hwrote ⟨rfl, rfl, rfl⟩
  | .cons key' value entries, fuel + 1, index, m, out, key, stack, t, rest, hwalks, hheap, h,
    hwrote, hfuel => by
    obtain ⟨k, v, rest, rfl, hk, hv, hrest⟩ := h
    obtain ⟨address, hvalue, ht⟩ := hwalks.value
    have hpos := key'.length_copied_pos
    obtain ⟨m₁, hm₁, hs₁, hheap₁, hstack₁, hslots₁, _⟩ :=
      next_cons hvalue hwalks.stack ht hwalks.next
    rw [← hs₁] at hwrote
    have hkey : m₁.L.value? (-2) = some k := by rw [LuaState.value?, hstack₁]; rfl
    rw [packEntries, bind_ok hm₁, if_pos rfl, Entries.fields, List.append_assoc]
    refine (packOne_writes key' fuel hk (hheap₁.trans hheap) hkey hwrote (by omega)).bind _
      (fun m₂ hwrote₂ hkept₂ => ?_)
    have hle := hwrote₂.length_le
    rw [List.length_append] at hle
    have hval : m₂.L.value? (-1) = some v := by
      rw [LuaState.value?, hkept₂.stack, hstack₁]; rfl
    refine (packOne_writes value fuel hv (hkept₂.heap.trans (hheap₁.trans hheap)) hval hwrote₂
      (by rw [List.length_append]; omega)).bind _ (fun m₃ hwrote₃ hkept₃ => ?_)
    have hkept := hkept₂.trans hkept₃
    have hheap₃ : m₃.L.heap = m.L.heap := hkept.heap.trans hheap₁
    have hpop : onStack (·.pop 1) m₃ = .ok () { m₃ with L := m₃.L.pop 1 } := rfl
    have hstack : (m₃.L.pop 1).stack = k :: stack := by
      rw [LuaState.pop, hkept.stack, hstack₁]; rfl
    have hwalks₄ : Walks { m₃ with L := m₃.L.pop 1 } index t k stack rest :=
      hwalks.goOn hheap₃ hstack
    rw [bind_ok hpop]
    refine (packEntries_writes entries fuel hwalks₄ (hheap₃.trans hheap) hrest hwrote₃
      (by rw [List.length_append, List.length_append]; omega)).mono fun m' hm' => ?_
    exact ⟨hm'.1, hm'.2.1.trans hheap₃, hm'.2.2.trans (hkept.slots.trans hslots₁)⟩

end

/-- The arguments from one on are written one behind the other. -/
theorem packArgs_writes {items : List Item} : ∀ (fuel : Nat) (done : List LuaValue)
    {todo : List LuaValue} {m : Machine} {out : List UInt8},
    List.Forall₂ (fun v (item : Item) => item.Encodes (lookup heap) v) todo items →
    m.L.heap = heap → m.L.stack = (done ++ todo).reverse → Wrote out m.s →
    2 * buffSize + 1 ≤ fuel →
    Writes (items.flatMap Item.fields) out (Kept m)
      (packArgs fuel todo.length (done.length + 1) m) := by
  induction items with
  | nil =>
    intro fuel done todo m out h _ _ hwrote _
    cases h
    exact writes_nil hwrote (.refl m)
  | cons item items ih =>
    intro fuel done todo m out h hheap hstack hwrote hfuel
    cases h with
    | @cons v _ todo _ hv htodo =>
      have hvalue : m.L.value? (done.length + 1) = some v := by
        rw [LuaState.value?, hstack, stackValue?, if_pos (by omega), List.reverse_reverse]
        simp
      rw [List.flatMap_cons, List.length_cons, packArgs]
      refine (packOne_writes item fuel hv hheap hvalue hwrote (by omega)).bind _
        (fun m₁ hwrote₁ hkept₁ => ?_)
      have hstack₁ : m₁.L.stack = ((done ++ [v]) ++ todo).reverse := by
        rw [hkept₁.stack, hstack, List.append_assoc]
        rfl
      have hrest := ih fuel (done ++ [v]) htodo (hkept₁.heap.trans hheap) hstack₁ hwrote₁ hfuel
      have hlength : ((done ++ [v]).length : Int) = done.length + 1 := by simp
      rw [hlength] at hrest
      exact hrest.mono fun _ => hkept₁.trans

end Pack

/-- What was written is made a string. -/
theorem Wrote.pushlstring {out : List UInt8} {s : SerializeStream} (h : Wrote out s)
    (L : LuaState) : L.pushlstring s.buffer 0 s.offset = .ok (L.push (.string out)) := by
  have hoffset := h.offset
  have hbuffer := h.buffer
  have hle : out.length ≤ s.buffer.length := by
    rw [← hbuffer, List.length_take]
    exact Nat.min_le_right _ _
  rw [LuaState.pushlstring, if_neg (by omega), if_neg (by omega)]
  split
  · next hnil => rw [List.eq_nil_of_length_eq_zero (show out.length = 0 by omega)]
  · rw [if_pos (by omega), hoffset, Int.toNat_natCast]
    show Except.ok (L.push (.string (s.buffer.take out.length))) = _
    rw [hbuffer]

/-- `l_serialize` on values that have encodings. -/
theorem lSerialize_ending {heap : List Table} {vs : List LuaValue} {items : List Item}
    {memory : List UInt8}
    (h : List.Forall₂ (fun v (item : Item) => item.Encodes (lookup heap) v) vs items)
    (hmemory : memory.length = buffSize) (s : SerializeStream) :
    (ending 0 (items.flatMap Item.fields) = .done →
      ∃ m, results (lSerialize memory) ⟨.call vs heap, s⟩ =
          .ok [.string ((items.flatMap Item.fields).flatMap Field.copied)] m ∧
        m.L.heap = heap ∧ Wrote ((items.flatMap Item.fields).flatMap Field.copied) m.s) ∧
    (ending 0 (items.flatMap Item.fields) = .full →
      ∃ m out, results (lSerialize memory) ⟨.call vs heap, s⟩ =
        .error (.error "serialize buffer full") m ∧ Wrote out m.s) ∧
    (ending 0 (items.flatMap Item.fields) = .overrun →
      ∃ m, results (lSerialize memory) ⟨.call vs heap, s⟩ = .error .undefined m) := by
  have hwrites : Writes (items.flatMap Item.fields) [] (Kept ⟨.call vs heap, .alloc memory⟩)
      (packArgs (2 * buffSize + 2) vs.length 1 ⟨.call vs heap, .alloc memory⟩) :=
    packArgs_writes (2 * buffSize + 2) [] h rfl rfl (wrote_alloc hmemory) (by omega)
  have hlength : (LuaState.call vs heap).stack.length = vs.length := List.length_reverse
  have hset : (modify fun m => { m with s := .alloc memory } : Seri Unit) ⟨.call vs heap, s⟩ =
      .ok () ⟨.call vs heap, .alloc memory⟩ := rfl
  have hget : ∀ m : Machine, (get : Seri Machine) m = .ok m m := fun _ => rfl
  have hcall : lSerialize memory ⟨.call vs heap, s⟩ =
      (packArgs (2 * buffSize + 2) vs.length 1 >>= fun _ => do
        let m ← get
        pushlstring m.s.buffer 0 m.s.offset
        return 1 : Seri Nat) ⟨.call vs heap, .alloc memory⟩ := by
    rw [lSerialize, bind_ok hset, bind_ok (hget _), hlength]
  rw [results, hcall]
  unfold Writes at hwrites
  rw [List.length_nil] at hwrites
  refine ⟨fun hending => ?_, fun hending => ?_, fun hending => ?_⟩
  · rw [hending] at hwrites
    obtain ⟨m₁, hm₁, hwrote, hkept⟩ := hwrites
    rw [List.nil_append] at hwrote
    have hpush : pushlstring m₁.s.buffer 0 m₁.s.offset m₁ = _ :=
      pushlstring_ok (hwrote.pushlstring m₁.L)
    refine ⟨{ m₁ with
      L := m₁.L.push (.string ((items.flatMap Item.fields).flatMap Field.copied)) }, ?_,
      hkept.heap, hwrote⟩
    rw [bind_ok hm₁, bind_ok (hget _), bind_ok hpush]
    rfl
  · rw [hending] at hwrites
    obtain ⟨m₁, out, hm₁, hwrote⟩ := hwrites
    rw [bind_error hm₁]
    exact ⟨m₁, out, rfl, hwrote⟩
  · rw [hending] at hwrites
    obtain ⟨m₁, hm₁⟩ := hwrites
    rw [bind_error hm₁]
    exact ⟨m₁, rfl⟩

theorem bytes_allFields (items : List Item) :
    (items.flatMap Item.fields).flatMap Field.bytes = items.flatMap Item.bytes := by
  rw [List.flatMap_assoc]
  exact congrArg items.flatMap (funext Item.bytes_fields)

/-- Values whose encodings fit are written as these. -/
theorem lSerialize_items {heap : List Table} {vs : List LuaValue} {items : List Item}
    {memory : List UInt8}
    (h : List.Forall₂ (fun v (item : Item) => item.Encodes (lookup heap) v) vs items)
    (hfits : (items.flatMap Item.bytes).length ≤ buffSize) (hmemory : memory.length = buffSize)
    (s : SerializeStream) :
    ∃ m, results (lSerialize memory) ⟨.call vs heap, s⟩ =
        .ok [.string (items.flatMap Item.bytes)] m ∧ m.L.heap = heap := by
  have hall := bytes_allFields items
  rw [← hall, ← Nat.zero_add (List.length _)] at hfits
  obtain ⟨hending, hcopied⟩ := ending_of_fits hfits
  obtain ⟨m, hm, hheap, _⟩ := (lSerialize_ending h hmemory s).1 hending
  rw [hcopied, hall] at hm
  exact ⟨m, hm, hheap⟩

end HyperNet.ScriptEngine
