import HyperNet.ScriptEngine.Writing

/-! # The slots of the stack that serializing takes

A table takes a slot for the key and one for the value, and the tables in it theirs above
these. Nothing ensures them. -/
namespace HyperNet.ScriptEngine
open HyperNet.Core HyperNet.Public

/-- No slot is ensured or given back, and that they were exceeded is not forgotten. -/
structure Retains (m m' : Machine) : Prop where
  slots : m'.L.slots = m.L.slots
  exceeded : m.L.exceeded = true → m'.L.exceeded = true

theorem Retains.refl (m : Machine) : Retains m m := ⟨rfl, id⟩

theorem Retains.trans {m m' m'' : Machine} (h : Retains m m') (h' : Retains m' m'') :
    Retains m m'' := ⟨h'.slots.trans h.slots, h'.exceeded ∘ h.exceeded⟩

/-- A call that ensures nothing. -/
def Steady {α : Type} (x : Seri α) : Prop := ∀ m, Retains m (final (x m))

/-- The Lua state is not changed. -/
def Still {α : Type} (x : Seri α) : Prop := ∀ m, (final (x m)).L = m.L

section Steady
variable {α β : Type} {x : Seri α} {f : α → Seri β}

theorem final_bind (x : Seri α) (f : α → Seri β) (m : Machine) : final ((x >>= f) m) =
    match x m with
    | .ok a m' => final (f a m')
    | .error _ m' => m' := by
  cases hx : x m with
  | ok a m' => rw [bind_ok hx]
  | error failure m' => rw [bind_error hx]; rfl

theorem Still.bind (hx : Still x) (hf : ∀ a, Still (f a)) : Still (x >>= f) := by
  intro m
  have hm := hx m
  rw [final_bind]
  cases h : x m with
  | ok a m' =>
    rw [h] at hm
    exact (hf a m').trans hm
  | error failure m' =>
    rw [h] at hm
    exact hm

theorem Still.steady (h : Still x) : Steady x :=
  fun m => ⟨by rw [h m], fun hm => by rw [h m]; exact hm⟩

theorem Steady.bind (hx : Steady x) (hf : ∀ a, Steady (f a)) : Steady (x >>= f) := by
  intro m
  have hm := hx m
  rw [final_bind]
  cases h : x m with
  | ok a m' =>
    rw [h] at hm
    exact hm.trans (hf a m')
  | error failure m' =>
    rw [h] at hm
    exact hm

theorem still_pure (a : α) : Still (pure a : Seri α) := fun _ => rfl

theorem still_luaError (message : String) : Still (luaError message : Seri α) := fun _ => rfl

theorem still_get : Still (get : Seri Machine) := fun _ => rfl

theorem still_valueAt (index : Int) : Still (valueAt index) := fun _ => rfl

theorem still_onStream (g : SerializeStream → Except Failure (α × SerializeStream)) :
    Still (onStream g) := by
  intro m
  rw [onStream]
  split <;> rfl

theorem steady_push (v : LuaValue) : Steady (onStack (·.push v)) := by
  refine fun m => ⟨rfl, fun hm => ?_⟩
  show (m.L.exceeded || _) = true
  rw [hm, Bool.true_or]

theorem steady_pop (n : Nat) : Steady (onStack (·.pop n)) := fun _ => ⟨rfl, id⟩

theorem LuaState.next_retains {L L' : LuaState} {index : Int} {more : Bool}
    (h : L.next index = .ok (more, L')) :
    L'.slots = L.slots ∧ (L.exceeded = true → L'.exceeded = true) := by
  unfold LuaState.next at h
  split at h
  · split at h
    · cases h
    · next t _ =>
      cases hnext : t.next _ with
      | error failure => rw [hnext] at h; cases h
      | ok entry =>
        rw [hnext] at h
        cases entry with
        | none => cases h; exact ⟨rfl, id⟩
        | some entry =>
          cases h
          refine ⟨rfl, fun hL => ?_⟩
          show (L.exceeded || _) = true
          rw [hL, Bool.true_or]
  · cases h

theorem steady_next (index : Int) : Steady (next index) := by
  intro m
  rw [next]
  split
  · next hL => exact ⟨(LuaState.next_retains hL).1, (LuaState.next_retains hL).2⟩
  · exact .refl m

theorem still_put (src : List UInt8) : Still (put src) := by
  refine (still_onStream _).bind fun done => ?_
  cases done with
  | true => exact still_pure ()
  | false => exact still_luaError _

theorem still_packString (bytes : List UInt8) : Still (packString bytes) := by
  refine (still_put _).bind fun _ => (still_onStream _).bind fun done => ?_
  cases done with
  | true => exact still_pure ()
  | false => exact still_luaError _

theorem steady_pack (fuel : Nat) :
    (∀ index, Steady (packOne fuel index)) ∧ ∀ index, Steady (packEntries fuel index) := by
  induction fuel with
  | zero => exact ⟨fun _ m => .refl m, fun _ m => .refl m⟩
  | succ fuel ih =>
    constructor
    · intro index
      refine (still_valueAt index).steady.bind fun v => ?_
      cases v with
      | none => exact (still_luaError _).steady
      | some v =>
        cases v with
        | nil => exact (still_put _).steady
        | integer n => exact ((still_put _).bind fun _ => still_put _).steady
        | number bits => exact ((still_put _).bind fun _ => still_put _).steady
        | boolean b => exact ((still_put _).bind fun _ => still_put _).steady
        | string bytes => exact (still_packString bytes).steady
        | other typename address => exact (still_luaError _).steady
        | table address =>
          refine still_get.steady.bind fun m => (still_put _).steady.bind fun _ => ?_
          exact (steady_push .nil).bind fun _ => (ih.2 _).bind fun _ => (still_put _).steady
    · intro index
      refine (steady_next index).bind fun more => ?_
      cases more with
      | true =>
        exact (ih.1 _).bind fun _ => (ih.1 _).bind fun _ => (steady_pop 1).bind fun _ => ih.2 index
      | false => exact (still_pure ()).steady

end Steady

mutual

/-- Written from an offset on, a value comes to a table in `depth` others before the buffer is
full. -/
inductive Nests (g : Heap) : Nat → LuaValue → Nat → Prop
  | here {offset address : Nat} (hroom : offset < buffSize) : Nests g offset (.table address) 0
  | inside {offset address depth : Nat} {t : Table} (hroom : offset < buffSize)
      (ht : g address = some t) (h : NestsIn g (offset + 1) t.entries depth) :
      Nests g offset (.table address) (depth + 1)

/-- The same among entries of a table. -/
inductive NestsIn (g : Heap) : Nat → List (LuaValue × LuaValue) → Nat → Prop
  | key {offset depth : Nat} {k v : LuaValue} {rest : List (LuaValue × LuaValue)}
      (h : Nests g offset k depth) : NestsIn g offset ((k, v) :: rest) depth
  | value {offset depth : Nat} {k v : LuaValue} {rest : List (LuaValue × LuaValue)} {key : Item}
      (hkey : key.Encodes g k) (hdone : ending offset key.fields = .done)
      (h : Nests g (offset + (key.fields.flatMap Field.copied).length) v depth) :
      NestsIn g offset ((k, v) :: rest) depth
  | later {offset depth : Nat} {k v : LuaValue} {rest : List (LuaValue × LuaValue)}
      {key value : Item} (hkey : key.Encodes g k) (hvalue : value.Encodes g v)
      (hdone : ending offset (key.fields ++ value.fields) = .done)
      (h : NestsIn g (offset + ((key.fields ++ value.fields).flatMap Field.copied).length) rest
        depth) : NestsIn g offset ((k, v) :: rest) depth

end

/-- The same for one of several values. -/
inductive NestsAll (g : Heap) : Nat → List LuaValue → Nat → Prop
  | here {offset depth : Nat} {v : LuaValue} {vs : List LuaValue} (h : Nests g offset v depth) :
      NestsAll g offset (v :: vs) depth
  | later {offset depth : Nat} {v : LuaValue} {vs : List LuaValue} {item : Item}
      (hitem : item.Encodes g v) (hdone : ending offset item.fields = .done)
      (h : NestsAll g (offset + (item.fields.flatMap Field.copied).length) vs depth) :
      NestsAll g offset (v :: vs) depth

theorem ending_append_done {offset : Nat} {fields fields' : List Field}
    (h : ending offset fields = .done)
    (h' : ending (offset + (fields.flatMap Field.copied).length) fields' = .done) :
    ending offset (fields ++ fields') = .done := by
  rw [ending_append, h]
  exact h'

theorem done_of_append {offset : Nat} {fields fields' : List Field}
    (h : ending offset (fields ++ fields') = .done) : ending offset fields = .done ∧
      ending (offset + (fields.flatMap Field.copied).length) fields' = .done := by
  rw [ending_append] at h
  cases hfirst : ending offset fields with
  | done =>
    rw [hfirst] at h
    exact ⟨rfl, h⟩
  | full => rw [hfirst] at h; cases h
  | overrun => rw [hfirst] at h; cases h

theorem Writes.of_ok {fields : List Field} {out : List UInt8} {Q : Machine → Prop}
    {r : EStateM.Result Failure Machine Unit} {m : Machine} (h : Writes fields out Q r)
    (hr : r = .ok () m) : ending out.length fields = .done ∧
      Wrote (out ++ fields.flatMap Field.copied) m.s ∧ Q m := by
  rw [hr] at h
  unfold Writes at h
  split at h
  · next hdone =>
    obtain ⟨m', hm', hwrote, hQ⟩ := h
    cases hm'
    exact ⟨hdone, hwrote, hQ⟩
  · obtain ⟨_, _, hm', _⟩ := h; cases hm'
  · obtain ⟨_, hm'⟩ := h; cases hm'

section Pack
variable {heap : List Table} {out : List UInt8}

/-- What a value that was written has made of the state. -/
def Whole (heap : List Table) (v : LuaValue) (out : List UInt8) (m m' : Machine) : Prop :=
  ∃ item : Item, item.Encodes (lookup heap) v ∧ ending out.length item.fields = .done ∧
    Wrote (out ++ item.fields.flatMap Field.copied) m'.s ∧ Kept m m'

/-- The slots are exceeded by a table that `pack_one` comes to; and only a whole value is
written without an error. -/
def OneSlots (heap : List Table) (fuel : Nat) : Prop :=
  ∀ {v : LuaValue} {index : Int} {m : Machine} {out : List UInt8}, m.L.heap = heap →
    m.L.value? index = some v → Wrote out m.s → 2 * (buffSize - out.length) + 1 ≤ fuel →
    ((final (packOne fuel index m)).L.exceeded = true → m.L.exceeded = true ∨
      ∃ depth, Nests (lookup heap) out.length v depth ∧
        m.L.slots ≤ m.L.stack.length + 2 * depth + 1) ∧
    ∀ m', packOne fuel index m = .ok () m' → Whole heap v out m m'

/-- The same for the loop of `pack_table`. -/
def EntriesSlots (heap : List Table) (fuel : Nat) : Prop :=
  ∀ {index : Int} {m : Machine} {out : List UInt8} {key : LuaValue} {stack : List LuaValue}
    {t : Table} {rest : List (LuaValue × LuaValue)}, Walks m index t key stack rest →
    m.L.heap = heap → Wrote out m.s → 2 * (buffSize - out.length) + 2 ≤ fuel →
    ((final (packEntries fuel index m)).L.exceeded = true → m.L.exceeded = true ∨
      m.L.slots ≤ stack.length + 1 ∨ ∃ depth, NestsIn (lookup heap) out.length rest depth ∧
        m.L.slots ≤ stack.length + 2 + 2 * depth + 1) ∧
    ∀ m', packEntries fuel index m = .ok () m' → ∃ entries : Entries,
      entries.Encode (lookup heap) rest ∧ ending out.length entries.fields = .done ∧
        Wrote (out ++ entries.fields.flatMap Field.copied) m'.s ∧ m'.L.stack = stack ∧
        m'.L.heap = heap ∧ m'.L.slots = m.L.slots

theorem packOne_still (fuel : Nat) {v : LuaValue} {index : Int} {m : Machine}
    (hvalue : m.L.value? index = some v) (hv : ∀ address, v ≠ .table address) :
    (final (packOne (fuel + 1) index m)).L = m.L := by
  rw [packOne, bind_ok (valueAt_some hvalue)]
  cases v with
  | nil => exact still_put _ m
  | integer n => exact (still_put _).bind (fun _ => still_put _) m
  | number bits => exact (still_put _).bind (fun _ => still_put _) m
  | boolean b => exact (still_put _).bind (fun _ => still_put _) m
  | string bytes => exact still_packString bytes m
  | table address => exact absurd rfl (hv address)
  | other typename address => rfl

/-- A value that is no table takes no slots. -/
theorem leaf_slots (item : Item) {fuel : Nat} {v : LuaValue} {index : Int} {m : Machine}
    (hheap : m.L.heap = heap) (hvalue : m.L.value? index = some v) (hwrote : Wrote out m.s)
    (hfuel : 2 * (buffSize - out.length) + 1 ≤ fuel) (hitem : item.Encodes (lookup heap) v)
    (hstill : (final (packOne fuel index m)).L = m.L) :
    ((final (packOne fuel index m)).L.exceeded = true → m.L.exceeded = true ∨
      ∃ depth, Nests (lookup heap) out.length v depth ∧
        m.L.slots ≤ m.L.stack.length + 2 * depth + 1) ∧
    ∀ m', packOne fuel index m = .ok () m' → Whole heap v out m m' := by
  rw [hstill]
  refine ⟨Or.inl, fun m' hm' => ?_⟩
  have hwrites := packOne_writes item fuel hitem hheap hvalue hwrote hfuel
  exact ⟨item, hitem, hwrites.of_ok hm'⟩

/-- Without its table, the loop of `pack_table` fails at once. -/
theorem packEntries_none (fuel : Nat) {index : Int} {m : Machine} {address : Nat}
    (hvalue : m.L.value? index = some (.table address)) (ht : m.L.heap[address]? = none) :
    ∃ failure, packEntries fuel index m = .error failure m := by
  cases fuel with
  | zero => exact ⟨.outOfFuel, rfl⟩
  | succ fuel =>
    have hL : m.L.next index = .error .undefined := by
      cases hstack : m.L.stack with
      | nil => simp only [LuaState.next, hvalue, hstack]
      | cons key stack => simp only [LuaState.next, hvalue, hstack, ht]
    have hnext : next index m = .error .undefined m := by rw [next, hL]
    exact ⟨.undefined, by rw [packEntries, bind_error hnext]⟩

/-- A table is whole with its type, its entries and the `NIL` behind them. -/
theorem Whole.of_entries {address : Nat} {t : Table} {entries : Entries} {m m' : Machine}
    (ht : lookup heap address = some t) (hencode : entries.Encode (lookup heap) t.entries)
    (htype : ending out.length [.checked [TABLE]] = .done)
    (hentries : ending (out ++ [TABLE]).length entries.fields = .done)
    (hnil : ending (out ++ [TABLE] ++ entries.fields.flatMap Field.copied).length
      [.checked [NIL]] = .done)
    (hwrote : Wrote (out ++ [TABLE] ++ entries.fields.flatMap Field.copied ++ [NIL]) m'.s)
    (hkept : Kept m m') : Whole heap (.table address) out m m' := by
  refine ⟨.table entries, ⟨address, t, rfl, ht, hencode⟩, ?_, ?_, hkept⟩
  · refine ending_append_done htype (ending_append_done ?_ ?_)
    · rw [← List.length_append]
      exact hentries
    · rw [← List.length_append, ← List.length_append]
      exact hnil
  · rw [Item.fields, List.flatMap_cons, List.flatMap_append]
    rw [List.append_assoc, List.append_assoc] at hwrote
    exact hwrote

theorem Nests.of_entries {address : Nat} {t : Table} {m : Machine} (hroom : out.length < buffSize)
    (ht : lookup heap address = some t)
    (h : m.L.slots ≤ m.L.stack.length + 1 ∨ ∃ depth,
      NestsIn (lookup heap) (out.length + 1) t.entries depth ∧
        m.L.slots ≤ m.L.stack.length + 2 + 2 * depth + 1) :
    ∃ depth, Nests (lookup heap) out.length (.table address) depth ∧
      m.L.slots ≤ m.L.stack.length + 2 * depth + 1 := by
  cases h with
  | inl hvalue => exact ⟨0, .here hroom, by omega⟩
  | inr hdeep =>
    obtain ⟨depth, hnests, hslots⟩ := hdeep
    exact ⟨depth + 1, .inside hroom ht hnests, by omega⟩

theorem table_slots {fuel address : Nat} {index : Int} {m : Machine}
    (hentries : EntriesSlots heap fuel) (hheap : m.L.heap = heap)
    (hvalue : m.L.value? index = some (.table address)) (hwrote : Wrote out m.s)
    (hfuel : 2 * (buffSize - out.length) + 1 ≤ fuel + 1) :
    ((final (packOne (fuel + 1) index m)).L.exceeded = true → m.L.exceeded = true ∨
      ∃ depth, Nests (lookup heap) out.length (.table address) depth ∧
        m.L.slots ≤ m.L.stack.length + 2 * depth + 1) ∧
    ∀ m', packOne (fuel + 1) index m = .ok () m' → Whole heap (.table address) out m m' := by
  have htype : [TABLE].length ≤ 8 := by simp
  have hnil : [NIL].length ≤ 8 := by simp
  have hstill := still_put [TABLE] m
  rw [packOne_packTable fuel hvalue, packTable]
  cases hput : put [TABLE] m with
  | error failure m₁ =>
    rw [hput] at hstill
    rw [bind_error hput]
    refine ⟨fun h => Or.inl ?_, fun m' hm' => by cases hm'⟩
    rw [← hstill]
    exact h
  | ok _ m₁ =>
    rw [hput] at hstill
    obtain ⟨hdone, hwrote₁, hkept₁⟩ := (put_writes hwrote htype).of_ok hput
    have hlength : (out ++ [Field.checked [TABLE]].flatMap Field.copied).length =
        out.length + 1 := List.length_append
    have hle := hwrote₁.length_le
    have hroom : out.length < buffSize := by omega
    have hpush : onStack (·.push .nil) m₁ = .ok () { m₁ with L := m₁.L.push .nil } := rfl
    have hL : m₁.L = m.L := hstill
    have hexceeded : (m₁.L.push .nil).exceeded = true →
        m.L.exceeded = true ∨ m.L.slots ≤ m.L.stack.length := by
      intro h
      rw [hL] at h
      exact LuaState.push_exceeded.mp h
    rw [bind_ok hput, bind_ok hpush]
    cases ht : m.L.heap[address]? with
    | none =>
      obtain ⟨hpos, hbottom⟩ := stackValue?_bottom hvalue
      have hvalue₁ : (m₁.L.push .nil).value?
          (if index < 0 then m.L.gettop + index + 1 else index) = some (.table address) := by
        show stackValue? (.nil :: m₁.L.stack) _ = _
        rw [hL]
        exact stackValue?_append [.nil] hpos hbottom
      obtain ⟨failure, hfails⟩ := packEntries_none fuel
        (m := { m₁ with L := m₁.L.push .nil }) hvalue₁ (by rw [← ht, ← hL]; rfl)
      rw [bind_error hfails]
      refine ⟨fun h => (hexceeded h).imp_right fun hslots => ?_, fun m' hm' => by cases hm'⟩
      exact ⟨0, .here hroom, by omega⟩
    | some t =>
      have hwalks := walks_first hvalue ht hkept₁
      obtain ⟨hdeep, hwhole⟩ := hentries hwalks (hkept₁.heap.trans hheap) hwrote₁ (by omega)
      rw [hlength] at hdeep
      have hin : (final (packEntries fuel (if index < 0 then m.L.gettop + index + 1 else index)
            { m₁ with L := m₁.L.push .nil })).L.exceeded = true →
          m.L.exceeded = true ∨ ∃ depth, Nests (lookup heap) out.length (.table address) depth ∧
            m.L.slots ≤ m.L.stack.length + 2 * depth + 1 := by
        intro h
        rw [hheap] at ht
        cases hdeep h with
        | inl hpushed =>
          exact (hexceeded hpushed).imp_right fun hslots => ⟨0, .here hroom, by omega⟩
        | inr hbelow =>
          refine Or.inr (Nests.of_entries hroom ht ?_)
          rw [← hL]
          exact hL ▸ hbelow
      cases hloop : packEntries fuel (if index < 0 then m.L.gettop + index + 1 else index)
          { m₁ with L := m₁.L.push .nil } with
      | error failure m₂ =>
        rw [hloop] at hin
        rw [bind_error hloop]
        exact ⟨hin, fun m' hm' => by cases hm'⟩
      | ok _ m₂ =>
        rw [hloop] at hin
        obtain ⟨entries, hencode, hdone₂, hwrote₂, hstack₂, hheap₂, hslots₂⟩ := hwhole m₂ hloop
        have hend := still_put [NIL] m₂
        rw [bind_ok hloop]
        refine ⟨fun h => hin ?_, fun m' hm' => ?_⟩
        · show m₂.L.exceeded = true
          rw [← hend]
          exact h
        · obtain ⟨hdone₃, hwrote₃, hkept₃⟩ := (put_writes hwrote₂ hnil).of_ok hm'
          exact .of_entries (by rw [← hheap]; exact ht) hencode hdone hdone₂ hdone₃ hwrote₃
            ⟨hkept₃.stack.trans hstack₂, hkept₃.heap.trans (hheap₂.trans hheap.symm),
              hkept₃.slots.trans (hslots₂.trans hkept₁.slots)⟩

/-- One round of the loop of `pack_table` takes the next entry. -/
theorem packEntries_round (fuel : Nat) {index : Int} {m : Machine} {key k v : LuaValue}
    {stack : List LuaValue} {t : Table} {rest : List (LuaValue × LuaValue)}
    (hwalks : Walks m index t key stack ((k, v) :: rest)) : ∃ m₁,
    packEntries (fuel + 1) index m = (do
      packOne fuel (-2)
      packOne fuel (-1)
      onStack (·.pop 1)
      packEntries fuel index : Seri Unit) m₁ ∧ m₁.s = m.s ∧ m₁.L.heap = m.L.heap ∧
    m₁.L.stack = v :: k :: stack ∧ m₁.L.slots = m.L.slots ∧
    m₁.L.exceeded = (m.L.exceeded || decide (m.L.slots ≤ stack.length + 1)) := by
  obtain ⟨address, hvalue, ht⟩ := hwalks.value
  obtain ⟨m₁, hm₁, hrest⟩ := next_cons hvalue hwalks.stack ht hwalks.next
  refine ⟨m₁, ?_, hrest⟩
  rw [packEntries, bind_ok hm₁]
  rfl

/-- One round of the loop of `pack_table`, and the rounds behind it. -/
theorem round_slots {fuel : Nat} {index : Int} {m : Machine} {key k v : LuaValue}
    {stack : List LuaValue} {t : Table} {rest : List (LuaValue × LuaValue)}
    (hone : OneSlots heap fuel) (hentries : EntriesSlots heap fuel)
    (hwalks : Walks m index t key stack ((k, v) :: rest)) (hheap : m.L.heap = heap)
    (hwrote : Wrote out m.s) (hfuel : 2 * (buffSize - out.length) + 2 ≤ fuel + 1) :
    ((final (packEntries (fuel + 1) index m)).L.exceeded = true → m.L.exceeded = true ∨
      m.L.slots ≤ stack.length + 1 ∨
        ∃ depth, NestsIn (lookup heap) out.length ((k, v) :: rest) depth ∧
          m.L.slots ≤ stack.length + 2 + 2 * depth + 1) ∧
    ∀ m', packEntries (fuel + 1) index m = .ok () m' → ∃ entries : Entries,
      entries.Encode (lookup heap) ((k, v) :: rest) ∧
        ending out.length entries.fields = .done ∧
        Wrote (out ++ entries.fields.flatMap Field.copied) m'.s ∧ m'.L.stack = stack ∧
        m'.L.heap = heap ∧ m'.L.slots = m.L.slots := by
  obtain ⟨m₁, hm₁, hs₁, hheap₁, hstack₁, hslots₁, hexceeded₁⟩ := packEntries_round fuel hwalks
  rw [← hs₁] at hwrote
  have hlength₁ : m₁.L.stack.length = stack.length + 2 := congrArg List.length hstack₁
  have hfirst : m₁.L.exceeded = true → m.L.exceeded = true ∨ m.L.slots ≤ stack.length + 1 := by
    intro h
    rw [hexceeded₁] at h
    simpa using h
  have hk : m₁.L.value? (-2) = some k := by rw [LuaState.value?, hstack₁]; rfl
  obtain ⟨hkeyIn, hkeyWhole⟩ := hone (hheap₁.trans hheap) hk hwrote (by omega)
  have hkeyOr : (final (packOne fuel (-2) m₁)).L.exceeded = true → m.L.exceeded = true ∨
      m.L.slots ≤ stack.length + 1 ∨
        ∃ depth, NestsIn (lookup heap) out.length ((k, v) :: rest) depth ∧
          m.L.slots ≤ stack.length + 2 + 2 * depth + 1 := by
    intro h
    cases hkeyIn h with
    | inl hbefore => exact (hfirst hbefore).imp_right Or.inl
    | inr hdeep =>
      obtain ⟨depth, hnests, hslots⟩ := hdeep
      exact Or.inr (Or.inr ⟨depth, .key hnests, by omega⟩)
  rw [hm₁]
  cases hm₂ : packOne fuel (-2) m₁ with
  | error failure m₂ =>
    rw [hm₂] at hkeyOr
    rw [bind_error hm₂]
    exact ⟨hkeyOr, fun m' hm' => by cases hm'⟩
  | ok _ m₂ =>
    rw [hm₂] at hkeyOr
    obtain ⟨keyItem, hkeyItem, hkeyDone, hwrote₂, hkept₂⟩ := hkeyWhole m₂ hm₂
    have hle₂ := hwrote₂.length_le
    have hpos := keyItem.length_copied_pos
    rw [List.length_append] at hle₂
    have hv : m₂.L.value? (-1) = some v := by
      rw [LuaState.value?, hkept₂.stack, hstack₁]; rfl
    obtain ⟨hvalueIn, hvalueWhole⟩ := hone (hkept₂.heap.trans (hheap₁.trans hheap)) hv hwrote₂
      (by rw [List.length_append]; omega)
    rw [List.length_append, hkept₂.slots, hkept₂.stack] at hvalueIn
    have hvalueOr : (final (packOne fuel (-1) m₂)).L.exceeded = true → m.L.exceeded = true ∨
        m.L.slots ≤ stack.length + 1 ∨
          ∃ depth, NestsIn (lookup heap) out.length ((k, v) :: rest) depth ∧
            m.L.slots ≤ stack.length + 2 + 2 * depth + 1 := by
      intro h
      cases hvalueIn h with
      | inl hbefore => exact hkeyOr hbefore
      | inr hdeep =>
        obtain ⟨depth, hnests, hslots⟩ := hdeep
        exact Or.inr (Or.inr ⟨depth, .value hkeyItem hkeyDone hnests, by omega⟩)
    rw [bind_ok hm₂]
    cases hm₃ : packOne fuel (-1) m₂ with
    | error failure m₃ =>
      rw [hm₃] at hvalueOr
      rw [bind_error hm₃]
      exact ⟨hvalueOr, fun m' hm' => by cases hm'⟩
    | ok _ m₃ =>
      rw [hm₃] at hvalueOr
      obtain ⟨valueItem, hvalueItem, hvalueDone, hwrote₃, hkept₃⟩ := hvalueWhole m₃ hm₃
      rw [List.length_append] at hvalueDone
      rw [List.append_assoc, ← List.flatMap_append] at hwrote₃
      have hkept := hkept₂.trans hkept₃
      have hheap₃ : m₃.L.heap = m.L.heap := hkept.heap.trans hheap₁
      have hdone := ending_append_done hkeyDone hvalueDone
      have hpop : onStack (·.pop 1) m₃ = .ok () { m₃ with L := m₃.L.pop 1 } := rfl
      have hstack : (m₃.L.pop 1).stack = k :: stack := by
        rw [LuaState.pop, hkept.stack, hstack₁]; rfl
      have hwalks₄ : Walks { m₃ with L := m₃.L.pop 1 } index t k stack rest :=
        hwalks.goOn hheap₃ hstack
      obtain ⟨hrestIn, hrestWhole⟩ := hentries hwalks₄ (hheap₃.trans hheap) hwrote₃
        (by rw [List.length_append, List.flatMap_append, List.length_append]; omega)
      have hslots₃ : (m₃.L.pop 1).slots = m.L.slots := hkept.slots.trans hslots₁
      rw [bind_ok hm₃, bind_ok hpop]
      refine ⟨fun h => ?_, fun m' hm' => ?_⟩
      · rw [List.length_append, hslots₃] at hrestIn
        cases hrestIn h with
        | inl hbefore => exact hvalueOr hbefore
        | inr hbelow =>
          refine Or.inr (hbelow.imp_right fun hdeep => ?_)
          obtain ⟨depth, hnests, hslots⟩ := hdeep
          exact ⟨depth, .later hkeyItem hvalueItem hdone hnests, hslots⟩
      · obtain ⟨entries, hencode, hdone', hwrote', hstack', hheap', hslots'⟩ := hrestWhole m' hm'
        rw [List.length_append] at hdone'
        rw [List.append_assoc, ← List.flatMap_append] at hwrote'
        exact ⟨.cons keyItem valueItem entries, ⟨k, v, rest, rfl, hkeyItem, hvalueItem, hencode⟩,
          ending_append_done hdone hdone', hwrote', hstack', hheap', hslots'.trans hslots₃⟩

theorem pack_slots (heap : List Table) (fuel : Nat) :
    OneSlots heap fuel ∧ EntriesSlots heap fuel := by
  induction fuel with
  | zero => exact ⟨fun _ _ _ hfuel => by omega, fun _ _ _ hfuel => by omega⟩
  | succ fuel ih =>
    refine ⟨?_, ?_⟩
    · intro v index m out hheap hvalue hwrote hfuel
      have hstill := packOne_still fuel hvalue
      cases v with
      | nil => exact leaf_slots .nil hheap hvalue hwrote hfuel rfl (hstill (by simp))
      | boolean b =>
        exact leaf_slots (.boolean (if b then 1 else 0)) hheap hvalue hwrote hfuel ⟨b, rfl, rfl⟩
          (hstill (by simp))
      | integer n => exact leaf_slots (.integer n) hheap hvalue hwrote hfuel rfl (hstill (by simp))
      | number bits =>
        exact leaf_slots (.number bits) hheap hvalue hwrote hfuel rfl (hstill (by simp))
      | string bytes =>
        exact leaf_slots (.string bytes) hheap hvalue hwrote hfuel rfl (hstill (by simp))
      | table address => exact table_slots ih.2 hheap hvalue hwrote hfuel
      | other typename address =>
        have herror : packOne (fuel + 1) index m =
            .error (.error ("Unsupport type " ++ typename ++ " to serialize")) m := by
          rw [packOne, bind_ok (valueAt_some hvalue)]
          rfl
        rw [herror]
        exact ⟨Or.inl, fun m' hm' => by cases hm'⟩
    · intro index m out key stack t rest hwalks hheap hwrote hfuel
      cases rest with
      | cons entry rest => exact round_slots ih.1 ih.2 hwalks hheap hwrote hfuel
      | nil =>
        obtain ⟨address, hvalue, ht⟩ := hwalks.value
        rw [packEntries, bind_ok (next_end hvalue hwalks.stack ht hwalks.next)]
        refine ⟨Or.inl, fun m' hm' => ?_⟩
        cases hm'
        refine ⟨.nil, rfl, rfl, ?_, rfl, hheap, rfl⟩
        rw [Entries.fields, List.flatMap_nil, List.append_nil]
        exact hwrote

theorem Writes.of_done_ending {fields : List Field} {Q : Machine → Prop}
    {r : EStateM.Result Failure Machine Unit} (h : Writes fields out Q r)
    (hdone : ending out.length fields = .done) :
    ∃ m, r = .ok () m ∧ Wrote (out ++ fields.flatMap Field.copied) m.s ∧ Q m := by
  unfold Writes at h
  rw [hdone] at h
  exact h

/-- What comes later does not take it back. -/
theorem exceeded_bind {x : Seri Unit} {f : Unit → Seri Unit} {m : Machine}
    (h : (final (x m)).L.exceeded = true) (hf : ∀ a, Steady (f a)) :
    (final ((x >>= f) m)).L.exceeded = true := by
  rw [final_bind]
  cases hx : x m with
  | ok a m' =>
    rw [hx] at h
    exact (hf a m').exceeded h
  | error failure m' =>
    rw [hx] at h
    exact h

/-- `pack_table`, up to its loop. -/
theorem packOne_table {fuel address : Nat} {index : Int} {m : Machine}
    (hvalue : m.L.value? index = some (.table address)) (hwrote : Wrote out m.s)
    (hroom : out.length < buffSize) :
    ∃ m₁, packOne (fuel + 1) index m = (packEntries fuel
        (if index < 0 then m.L.gettop + index + 1 else index) >>= fun _ => packNil)
        { m₁ with L := m₁.L.push .nil } ∧ m₁.L = m.L ∧ Kept m m₁ ∧
      Wrote (out ++ [TABLE]) m₁.s := by
  have htype : [TABLE].length ≤ 8 := by simp
  have hdone : ending out.length [.checked [TABLE]] = .done := by
    rw [ending, List.length_singleton, if_neg (by omega), ending]
  obtain ⟨m₁, hput, hwrote₁, hkept₁⟩ := (put_writes hwrote htype).of_done_ending hdone
  have hstill := still_put [TABLE] m
  have hpush : onStack (·.push .nil) m₁ = .ok () { m₁ with L := m₁.L.push .nil } := rfl
  rw [hput] at hstill
  refine ⟨m₁, ?_, hstill, hkept₁, hwrote₁⟩
  rw [packOne_packTable fuel hvalue, packTable, bind_ok hput, bind_ok hpush]

mutual

/-- A table that is too deep takes a slot that is not ensured. -/
theorem Nests.exceeds {offset depth : Nat} {v : LuaValue} :
    Nests (lookup heap) offset v depth → ∀ {fuel : Nat} {index : Int} {m : Machine}
      {out : List UInt8}, m.L.heap = heap → m.L.value? index = some v → Wrote out m.s →
      out.length = offset → 2 * (buffSize - out.length) + 1 ≤ fuel →
      m.L.slots ≤ m.L.stack.length + 2 * depth →
      (final (packOne fuel index m)).L.exceeded = true
  | .here hroom, fuel, index, m, out, hheap, hvalue, hwrote, hlength, hfuel, hslots => by
    obtain ⟨bound, rfl⟩ : ∃ k, fuel = k + 1 := ⟨fuel - 1, by omega⟩
    obtain ⟨m₁, hm₁, hL, _⟩ := packOne_table hvalue hwrote (by omega)
    rw [hm₁]
    refine (((steady_pack bound).2 _).bind fun _ => (still_put _).steady) _ |>.exceeded ?_
    show (m₁.L.exceeded || decide (m₁.L.slots ≤ m₁.L.stack.length)) = true
    rw [hL, decide_eq_true (show m.L.slots ≤ m.L.stack.length from hslots), Bool.or_true]
  | .inside hroom ht h, fuel, index, m, out, hheap, hvalue, hwrote, hlength, hfuel, hslots => by
    obtain ⟨bound, rfl⟩ : ∃ k, fuel = k + 1 := ⟨fuel - 1, by omega⟩
    obtain ⟨m₁, hm₁, hL, hkept₁, hwrote₁⟩ := packOne_table hvalue hwrote (by omega)
    have hwalks := walks_first hvalue (by rw [hheap]; exact ht) hkept₁
    have hlength₁ : (out ++ [TABLE]).length = out.length + 1 := List.length_append
    rw [hm₁]
    refine exceeded_bind (NestsIn.exceeds h hwalks (hkept₁.heap.trans hheap) hwrote₁ (by omega)
      (by omega) ?_) fun _ => (still_put _).steady
    show m₁.L.slots ≤ _
    rw [hL]
    omega

theorem NestsIn.exceeds {offset depth : Nat} {rest : List (LuaValue × LuaValue)} :
    NestsIn (lookup heap) offset rest depth → ∀ {fuel : Nat} {index : Int} {m : Machine}
      {out : List UInt8} {key : LuaValue} {stack : List LuaValue} {t : Table},
      Walks m index t key stack rest → m.L.heap = heap → Wrote out m.s → out.length = offset →
      2 * (buffSize - out.length) + 2 ≤ fuel → m.L.slots ≤ stack.length + 2 + 2 * depth →
      (final (packEntries fuel index m)).L.exceeded = true
  | .key h, fuel, index, m, out, key, stack, t, hwalks, hheap, hwrote, hlength, hfuel, hslots => by
    obtain ⟨bound, rfl⟩ : ∃ k, fuel = k + 1 := ⟨fuel - 1, by omega⟩
    obtain ⟨m₁, hm₁, hs₁, hheap₁, hstack₁, hslots₁, _⟩ := packEntries_round bound hwalks
    have hlength₁ : m₁.L.stack.length = stack.length + 2 := congrArg List.length hstack₁
    rw [← hs₁] at hwrote
    rw [hm₁]
    refine exceeded_bind (Nests.exceeds h (hheap₁.trans hheap) ?_ hwrote hlength (by omega)
      (by omega)) fun _ => ?_
    · rw [LuaState.value?, hstack₁]; rfl
    · exact ((steady_pack bound).1 _).bind fun _ => (steady_pop 1).bind fun _ =>
        (steady_pack bound).2 index
  | .value hkey hdone h, fuel, index, m, out, key, stack, t, hwalks, hheap, hwrote, hlength, hfuel,
    hslots => by
    obtain ⟨bound, rfl⟩ : ∃ k, fuel = k + 1 := ⟨fuel - 1, by omega⟩
    obtain ⟨m₁, hm₁, hs₁, hheap₁, hstack₁, hslots₁, _⟩ := packEntries_round bound hwalks
    have hlength₁ : m₁.L.stack.length = stack.length + 2 := congrArg List.length hstack₁
    rw [← hs₁] at hwrote
    rw [← hlength] at hdone
    obtain ⟨m₂, hm₂, hwrote₂, hkept₂⟩ := (packOne_writes _ bound hkey (hheap₁.trans hheap)
      (show m₁.L.value? (-2) = some _ by rw [LuaState.value?, hstack₁]; rfl) hwrote
      (by omega)).of_done_ending hdone
    rw [hm₁, bind_ok hm₂]
    refine exceeded_bind (Nests.exceeds h (hkept₂.heap.trans (hheap₁.trans hheap)) ?_ hwrote₂
      (by rw [List.length_append, hlength]) (by rw [List.length_append]; omega) ?_) fun _ => ?_
    · rw [LuaState.value?, hkept₂.stack, hstack₁]; rfl
    · rw [hkept₂.slots, hkept₂.stack]
      omega
    · exact (steady_pop 1).bind fun _ => (steady_pack bound).2 index
  | @NestsIn.later _ _ _ _ _ _ keyItem _ hkey hvalue hdone h, fuel, index, m, out, key, stack, t,
    hwalks, hheap, hwrote, hlength, hfuel, hslots => by
    obtain ⟨bound, rfl⟩ : ∃ k, fuel = k + 1 := ⟨fuel - 1, by omega⟩
    obtain ⟨m₁, hm₁, hs₁, hheap₁, hstack₁, hslots₁, _⟩ := packEntries_round bound hwalks
    rw [← hs₁] at hwrote
    rw [← hlength] at hdone
    obtain ⟨hkeyDone, hvalueDone⟩ := done_of_append hdone
    obtain ⟨m₂, hm₂, hwrote₂, hkept₂⟩ := (packOne_writes _ bound hkey (hheap₁.trans hheap)
      (show m₁.L.value? (-2) = some _ by rw [LuaState.value?, hstack₁]; rfl) hwrote
      (by omega)).of_done_ending hkeyDone
    rw [← List.length_append] at hvalueDone
    obtain ⟨m₃, hm₃, hwrote₃, hkept₃⟩ := (packOne_writes _ bound hvalue
      (hkept₂.heap.trans (hheap₁.trans hheap))
      (show m₂.L.value? (-1) = some _ by rw [LuaState.value?, hkept₂.stack, hstack₁]; rfl) hwrote₂
      (by rw [List.length_append]; omega)).of_done_ending hvalueDone
    have hkept := hkept₂.trans hkept₃
    have hheap₃ : m₃.L.heap = m.L.heap := hkept.heap.trans hheap₁
    have hpop : onStack (·.pop 1) m₃ = .ok () { m₃ with L := m₃.L.pop 1 } := rfl
    have hwalks₄ : Walks { m₃ with L := m₃.L.pop 1 } index t _ stack _ :=
      hwalks.goOn hheap₃ (by rw [LuaState.pop, hkept.stack, hstack₁]; rfl)
    have hpos := keyItem.length_copied_pos
    have hle₂ := hwrote₂.length_le
    rw [List.append_assoc, ← List.flatMap_append] at hwrote₃
    rw [List.length_append] at hle₂
    rw [hm₁, bind_ok hm₂, bind_ok hm₃, bind_ok hpop]
    refine NestsIn.exceeds h hwalks₄ (hheap₃.trans hheap) hwrote₃
      (by rw [List.length_append, hlength]) ?_ ?_
    · rw [List.length_append, List.flatMap_append, List.length_append]
      omega
    · show m₃.L.slots ≤ _
      rw [hkept.slots, hslots₁]
      exact hslots

end

/-- A value takes slots beyond those that are ensured for a C function exactly if a table in it
is in ten others. -/
theorem packOne_exceeded {fuel : Nat} {v : LuaValue} {index : Int} {m : Machine}
    (hheap : m.L.heap = heap) (hvalue : m.L.value? index = some v) (hwrote : Wrote out m.s)
    (hfuel : 2 * (buffSize - out.length) + 1 ≤ fuel)
    (hslots : m.L.slots = m.L.stack.length + LuaState.minStack) :
    (final (packOne fuel index m)).L.exceeded = true ↔ m.L.exceeded = true ∨
      ∃ depth, Nests (lookup heap) out.length v depth ∧ 10 ≤ depth := by
  unfold LuaState.minStack at hslots
  constructor
  · intro h
    refine (((pack_slots heap fuel).1 hheap hvalue hwrote hfuel).1 h).imp_right fun hdeep => ?_
    obtain ⟨depth, hnests, hle⟩ := hdeep
    exact ⟨depth, hnests, by omega⟩
  · intro h
    cases h with
    | inl hbefore => exact ((steady_pack fuel).1 index m).exceeded hbefore
    | inr hdeep =>
      obtain ⟨depth, hnests, hle⟩ := hdeep
      exact hnests.exceeds hheap hvalue hwrote rfl hfuel (by omega)

theorem packArgs_exceeded {fuel : Nat} (hfuel : 2 * buffSize + 1 ≤ fuel) (todo : List LuaValue) :
    ∀ (done : List LuaValue) {m : Machine} {out : List UInt8}, m.L.heap = heap →
      m.L.stack = (done ++ todo).reverse → Wrote out m.s →
      m.L.slots = m.L.stack.length + LuaState.minStack →
      ((final (packArgs fuel todo.length (done.length + 1) m)).L.exceeded = true ↔
        m.L.exceeded = true ∨
          ∃ depth, NestsAll (lookup heap) out.length todo depth ∧ 10 ≤ depth) ∧
      ∀ m', packArgs fuel todo.length (done.length + 1) m = .ok () m' →
        ∃ out', Wrote out' m'.s ∧ Kept m m' := by
  induction todo with
  | nil =>
    intro done m out hheap hstack hwrote hslots
    refine ⟨⟨Or.inl, fun h => ?_⟩, fun m' hm' => ?_⟩
    · cases h with
      | inl hbefore => exact hbefore
      | inr hdeep => obtain ⟨_, hnests, _⟩ := hdeep; cases hnests
    · cases hm'
      exact ⟨out, hwrote, .refl m⟩
  | cons v todo ih =>
    intro done m out hheap hstack hwrote hslots
    have hvalue : m.L.value? (done.length + 1) = some v := by
      rw [LuaState.value?, hstack, stackValue?, if_pos (by omega), List.reverse_reverse]
      simp
    have hone := packOne_exceeded hheap hvalue hwrote (show _ ≤ fuel by omega) hslots
    have hwhole := ((pack_slots heap fuel).1 hheap hvalue hwrote (by omega)).2
    have hwrites : ∀ item : Item, item.Encodes (lookup heap) v →
        Writes item.fields out (Kept m) (packOne fuel (done.length + 1) m) :=
      fun item hitem => packOne_writes item fuel hitem hheap hvalue hwrote (by omega)
    rw [List.length_cons, packArgs]
    cases hm₁ : packOne fuel (done.length + 1) m with
    | error failure m₁ =>
      rw [hm₁] at hone hwrites
      rw [bind_error hm₁]
      refine ⟨⟨fun h => (hone.mp h).imp_right fun hdeep => ?_, fun h => hone.mpr ?_⟩,
        fun m' hm' => by cases hm'⟩
      · obtain ⟨depth, hnests, hle⟩ := hdeep
        exact ⟨depth, .here hnests, hle⟩
      · refine h.imp_right fun hdeep => ?_
        obtain ⟨depth, hnests, hle⟩ := hdeep
        cases hnests with
        | here hnests => exact ⟨depth, hnests, hle⟩
        | later hitem hdone _ =>
          obtain ⟨_, hok, _⟩ := (hwrites _ hitem).of_done_ending hdone
          cases hok
    | ok _ m₁ =>
      rw [hm₁] at hone hwrites
      obtain ⟨item, hitem, hdone, hwrote₁, hkept₁⟩ := hwhole m₁ hm₁
      have hstack₁ : m₁.L.stack = ((done ++ [v]) ++ todo).reverse := by
        rw [hkept₁.stack, hstack, List.append_assoc]
        rfl
      have hlength : ((done ++ [v]).length : Int) = done.length + 1 := by simp
      obtain ⟨hrest, hend⟩ := ih (done ++ [v]) (hkept₁.heap.trans hheap) hstack₁ hwrote₁
        (by rw [hkept₁.slots, hkept₁.stack]; exact hslots)
      rw [hlength] at hrest hend
      rw [bind_ok hm₁]
      refine ⟨⟨fun h => ?_, fun h => hrest.mpr ?_⟩, fun m' hm' => ?_⟩
      · rw [List.length_append] at hrest
        cases hrest.mp h with
        | inl hbefore =>
          refine (hone.mp hbefore).imp_right fun hdeep => ?_
          obtain ⟨depth, hnests, hle⟩ := hdeep
          exact ⟨depth, .here hnests, hle⟩
        | inr hdeep =>
          obtain ⟨depth, hnests, hle⟩ := hdeep
          exact Or.inr ⟨depth, .later hitem hdone hnests, hle⟩
      · cases h with
        | inl hbefore => exact Or.inl (hone.mpr (Or.inl hbefore))
        | inr hdeep =>
          obtain ⟨depth, hnests, hle⟩ := hdeep
          cases hnests with
          | here hnests => exact Or.inl (hone.mpr (Or.inr ⟨depth, hnests, hle⟩))
          | later hitem' hdone' hnests =>
            -- Both items are what has been written.
            obtain ⟨_, hok, hwrote', _⟩ := (hwrites _ hitem').of_done_ending hdone'
            cases hok
            have hsame : (out ++ item.fields.flatMap Field.copied).length =
                (out ++ _).length := Int.ofNat.inj (hwrote₁.offset.symm.trans hwrote'.offset)
            rw [← List.length_append, ← hsame] at hnests
            exact Or.inr ⟨depth, hnests, hle⟩
      · obtain ⟨out', hwrote', hkept'⟩ := hend m' hm'
        exact ⟨out', hwrote', hkept₁.trans hkept'⟩

end Pack

theorem final_results (f : Seri Nat) (m : Machine) : final (results f m) = final (f m) := by
  rw [results]
  cases f m <;> rfl

/-- `l_serialize` takes slots that nothing ensures exactly if it comes to a table in ten others
before the buffer is full. -/
theorem lSerialize_exceeded {heap : List Table} {vs : List LuaValue} {memory : List UInt8}
    (hmemory : memory.length = buffSize) (s : SerializeStream) :
    (final (results (lSerialize memory) ⟨.call vs heap, s⟩)).L.exceeded = true ↔
      ∃ depth, NestsAll (lookup heap) 0 vs depth ∧ 10 ≤ depth := by
  have hlength : (LuaState.call vs heap).stack.length = vs.length := List.length_reverse
  have hset : (modify fun m => { m with s := .alloc memory } : Seri Unit) ⟨.call vs heap, s⟩ =
      .ok () ⟨.call vs heap, .alloc memory⟩ := rfl
  have hget : ∀ m : Machine, (get : Seri Machine) m = .ok m m := fun _ => rfl
  have hslots : (LuaState.call vs heap).slots =
      (LuaState.call vs heap).stack.length + LuaState.minStack := by rw [hlength]; rfl
  have hheap : (⟨.call vs heap, .alloc memory⟩ : Machine).L.heap = heap := rfl
  have hwrote : Wrote [] (⟨.call vs heap, .alloc memory⟩ : Machine).s := wrote_alloc hmemory
  obtain ⟨hargs, hend⟩ := packArgs_exceeded (Nat.le_succ (2 * buffSize + 1)) vs [] hheap rfl hwrote
    hslots
  have hargs : (final (packArgs (2 * buffSize + 2) vs.length 1
      ⟨.call vs heap, .alloc memory⟩)).L.exceeded = true ↔
      false = true ∨ ∃ depth, NestsAll (lookup heap) 0 vs depth ∧ 10 ≤ depth := hargs
  simp only [Bool.false_eq_true, false_or] at hargs
  rw [← hargs, final_results, lSerialize, bind_ok hset, bind_ok (hget _), hlength]
  cases hm : packArgs (2 * buffSize + 2) vs.length 1 ⟨.call vs heap, .alloc memory⟩ with
  | error failure m₁ =>
    rw [bind_error hm]
    exact Iff.rfl
  | ok _ m₁ =>
    obtain ⟨out, hwrote, hkept⟩ := hend m₁ hm
    have hpush : pushlstring m₁.s.buffer 0 m₁.s.offset m₁ =
        .ok () { m₁ with L := m₁.L.push (.string out) } := pushlstring_ok (hwrote.pushlstring m₁.L)
    have hroom : ¬ m₁.L.slots ≤ m₁.L.stack.length := by
      have hkeptSlots : m₁.L.slots = (LuaState.call vs heap).slots := hkept.slots
      have hkeptStack : m₁.L.stack = (LuaState.call vs heap).stack := hkept.stack
      rw [hkeptSlots, hkeptStack, hslots]
      unfold LuaState.minStack
      omega
    rw [bind_ok hm, bind_ok (hget _), bind_ok hpush]
    show (m₁.L.exceeded || decide (m₁.L.slots ≤ m₁.L.stack.length)) = true ↔ _
    rw [decide_eq_false hroom, Bool.or_false]
    exact Iff.rfl

end HyperNet.ScriptEngine
