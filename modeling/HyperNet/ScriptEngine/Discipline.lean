import HyperNet.ScriptEngine.Bounds
import HyperNet.ScriptEngine.Heights

/-! # Stack discipline

Whether a value is pushed only on a slot that has been ensured. -/
namespace HyperNet.ScriptEngine
open HyperNet.Core HyperNet.Public

/-- The slots that are ensured after `n` rounds of the loop of `l_unserialize`: those of a C
function with one argument, or twice the values there were at the last check. -/
def ensured (n : Nat) : Nat := max 21 (2 * min (16 * (n / 16) - 1) 499999)

section Unserialize
variable {b : List UInt8}

/-- The check of a round, with `i` values on the stack. -/
theorem ensured_round {i : Nat} {m : Machine} (hstack : m.L.stack.length = i)
    (hslots : m.L.slots = ensured i) :
    ∃ m', onStack (fun L => if i % 16 = 15 then L.checkstack i else L) m = .ok () m' ∧
      m'.s = m.s ∧ m'.L.stack = m.L.stack ∧ m'.L.exceeded = m.L.exceeded ∧
      m'.L.slots = ensured (i + 1) := by
  refine ⟨_, rfl, rfl, ?_⟩
  show (if i % 16 = 15 then m.L.checkstack i else m.L).stack = m.L.stack ∧
    (if i % 16 = 15 then m.L.checkstack i else m.L).exceeded = m.L.exceeded ∧
    (if i % 16 = 15 then m.L.checkstack i else m.L).slots = ensured (i + 1)
  unfold ensured at hslots ⊢
  split
  · unfold LuaState.checkstack
    split
    · refine ⟨rfl, rfl, ?_⟩
      show max m.L.slots (m.L.stack.length + i) = _
      omega
    · exact ⟨rfl, rfl, by omega⟩
  · exact ⟨rfl, rfl, by omega⟩

/-- One round of the loop of `l_unserialize` is `push_one` behind the check. -/
theorem pushValues_one (bound fuel : Nat) {i : Nat} {type : UInt8} {rest : List UInt8}
    {m m' : Machine}
    (hcheck : onStack (fun L => if i % 16 = 15 then L.checkstack i else L) m = .ok () m')
    (h : Reads b m'.s (type :: rest)) :
    pushValues bound (fuel + 1) i m =
      (pushOne (bound + 1) >>= fun _ => pushValues bound fuel (i + 1)) m' := by
  have htype : Reads b m'.s ([type] ++ rest) := h
  have hfetch : fetch 1 m' = .ok [type] (m'.skip 1) :=
    htype.fetch (show [type].length ≤ 8 by simp)
  have hread : onStream (·.read 1) m' = .ok (some [type]) (m'.skip 1) := by
    have hread := htype.read (show [type].length ≤ 8 by simp)
    rw [List.length_singleton] at hread
    rw [onStream, hread]
    rfl
  have hone : pushOne (bound + 1) m' = pushValue (pushEntries bound) type (m'.skip 1) := by
    rw [pushOne, bind_ok hfetch]
    rfl
  rw [pushValues, bind_ok hcheck, bind_ok hread]
  show (pushValue (pushEntries bound) type >>= fun _ => pushValues bound fuel (i + 1)) (m'.skip 1) =
    _
  cases hvalue : pushValue (pushEntries bound) type (m'.skip 1) with
  | ok _ m₁ => rw [bind_ok hvalue, bind_ok (hone.trans hvalue)]
  | error failure m₁ => rw [bind_error hvalue, bind_error (hone.trans hvalue)]

theorem pushValues_round (bound fuel : Nat) {i : Nat} {type : UInt8} {rest : List UInt8}
    {m : Machine} (h : Reads b m.s (type :: rest)) (hstack : m.L.stack.length = i)
    (hslots : m.L.slots = ensured i) :
    ∃ m', pushValues bound (fuel + 1) i m =
        (pushOne (bound + 1) >>= fun _ => pushValues bound fuel (i + 1)) m' ∧
      Reads b m'.s (type :: rest) ∧ m'.L.stack.length = i ∧ m'.L.exceeded = m.L.exceeded ∧
      m'.L.slots = ensured (i + 1) := by
  obtain ⟨m', hcheck, hs, hstack', hexceeded, hslots'⟩ := ensured_round hstack hslots
  rw [← hs] at h
  exact ⟨m', pushValues_one bound fuel hcheck h, h, by rw [hstack', hstack], hexceeded, hslots'⟩

/-- Behind `i` values, a value is pushed on a slot that is not ensured. -/
def Exceeding (i : Nat) (rest : List UInt8) : Prop :=
  ∃ (items : List Item) (rest' : List UInt8) (height : Nat),
    (∀ item ∈ items, item.WellFormed Item.IsKey) ∧ rest = items.flatMap Item.bytes ++ rest' ∧
      Pushes rest' height ∧ ensured (i + items.length + 1) ≤ i + items.length + height

theorem not_pushes_nil {height : Nat} : ¬Pushes [] height := by
  intro h
  generalize hb : ([] : List UInt8) = bytes at h
  cases h with
  | @item item rest =>
    have hpos := item.length_bytes_pos
    have hlength := congrArg List.length hb
    rw [List.length_append, List.length_nil] at hlength
    omega
  | string => cases hb
  | table => cases hb
  | inside => cases hb

theorem not_exceeding_nil (i : Nat) : ¬Exceeding i [] := by
  intro h
  obtain ⟨items, rest', height, _, hrest, hpushes, _⟩ := h
  rw [(List.append_eq_nil_iff.mp hrest.symm).2] at hpushes
  exact not_pushes_nil hpushes

/-- Where nothing is left the loop of `l_unserialize` ends. -/
theorem pushValues_spent (bound fuel i : Nat) {m : Machine} (h : m.s.Spent) :
    ∃ m', pushValues bound (fuel + 1) i m = .ok () m' ∧ m'.L.exceeded = m.L.exceeded := by
  unfold SerializeStream.Spent at h
  obtain ⟨m', hcheck, hs, _, _⟩ := checkstack_round i m
  rw [← hs] at h
  have hread : onStream (·.read 1) m' = .ok none m' := by rw [onStream, h]
  have hexceeded : m'.L.exceeded = m.L.exceeded := by
    cases hcheck
    show (if i % 16 = 15 then m.L.checkstack i else m.L).exceeded = _
    split
    · exact LuaState.exceeded_checkstack m.L i
    · rfl
  refine ⟨m', ?_, hexceeded⟩
  rw [pushValues, bind_ok hcheck, bind_ok hread]
  rfl

/-- Where nothing is left there is no item. -/
theorem Reads.eq_nil_of_spent {s : SerializeStream} {rest : List UInt8} (h : Reads b s rest)
    (hspent : s.Spent) : rest = [] := by
  cases rest with
  | nil => rfl
  | cons byte rest =>
    have htype : Reads b s ([byte] ++ rest) := h
    have hread := htype.read (show [byte].length ≤ 8 by simp)
    unfold SerializeStream.Spent at hspent
    rw [List.length_singleton, hspent] at hread
    cases hread

/-- The first value stands too high, or one behind it does. -/
theorem exceeding_iff {i : Nat} {rest : List UInt8} :
    Exceeding i rest ↔ (∃ height, Pushes rest height ∧ ensured (i + 1) ≤ i + height) ∨
      ∃ (item : Item) (rest' : List UInt8), item.WellFormed Item.IsKey ∧
        rest = item.bytes ++ rest' ∧ Exceeding (i + 1) rest' := by
  constructor
  · intro h
    obtain ⟨items, rest', height, hitems, rfl, hpushes, hslots⟩ := h
    cases items with
    | nil => exact Or.inl ⟨height, hpushes, hslots⟩
    | cons item items =>
      refine Or.inr ⟨item, items.flatMap Item.bytes ++ rest', hitems item List.mem_cons_self, ?_,
        items, rest', height, fun item hmem => hitems item (List.mem_cons_of_mem _ hmem), rfl,
        hpushes, ?_⟩
      · rw [List.flatMap_cons, List.append_assoc]
      · rw [List.length_cons, ← Nat.add_assoc, Nat.add_right_comm i] at hslots
        exact hslots
  · intro h
    cases h with
    | inl hfirst =>
      obtain ⟨height, hpushes, hslots⟩ := hfirst
      exact ⟨[], rest, height, by simp, rfl, hpushes, hslots⟩
    | inr hlater =>
      obtain ⟨item, _, hwf, rfl, items, rest', height, hitems, rfl, hpushes, hslots⟩ := hlater
      refine ⟨item :: items, rest', height, List.forall_mem_cons.mpr ⟨hwf, hitems⟩, ?_, hpushes, ?_⟩
      · rw [List.flatMap_cons, List.append_assoc]
      · rw [List.length_cons, ← Nat.add_assoc, Nat.add_right_comm i]
        exact hslots

theorem pushValues_exceeded {bound : Nat} (hbound : 2 * b.length + 2 ≤ bound) (fuel : Nat) :
    ∀ {i : Nat} {rest : List UInt8} {m : Machine}, Reads b m.s rest → rest.length < fuel →
      m.L.stack.length = i → m.L.slots = ensured i →
      ((final (pushValues bound fuel i m)).L.exceeded = true ↔
        m.L.exceeded = true ∨ Exceeding i rest) := by
  induction fuel with
  | zero => exact fun _ hfuel => by omega
  | succ fuel ih =>
    intro i rest m h hfuel hstack hslots
    cases rest with
    | nil =>
      have hspent : m.s.Spent := h.read_short (by omega) (by simp)
      obtain ⟨m', hm', hexceeded⟩ := pushValues_spent bound fuel i hspent
      rw [hm', final, hexceeded]
      exact (or_iff_left (not_exceeding_nil i)).symm
    | cons type rest =>
      obtain ⟨m₀, hm₀, h₀, hstack₀, hexceeded₀, hslots₀⟩ :=
        pushValues_round bound fuel h hstack hslots
      have hsuffix := h.suffix.length_le
      have hone := pushOne_exceeded h₀ (show 2 * (type :: rest).length + 1 ≤ bound + 1 by omega)
      have hslots₁ := ((steady_pushOne (bound + 1)).1 m₀).slots
      rw [hslots₀, hstack₀, hexceeded₀] at hone
      rw [hslots₀] at hslots₁
      rw [hm₀]
      have hpos : 0 < (type :: rest).length := Nat.succ_pos _
      generalize type :: rest = bytes at h₀ hone hfuel hsuffix hpos
      have htakes : ∀ {item : Item} {rest' : List UInt8}, item.WellFormed Item.IsKey →
          bytes = item.bytes ++ rest' → ∃ m₁, pushOne (bound + 1) m₀ = .ok () m₁ ∧
            Took b rest' item m₀ m₁ := by
        intro item rest' hwf hitem
        rw [hitem] at h₀ hsuffix
        rw [List.length_append] at hsuffix
        exact pushOne_whole item (bound + 1) hwf h₀ (by omega)
      rw [exceeding_iff]
      cases hm₁ : pushOne (bound + 1) m₀ with
      | error failure m₁ =>
        have hlater : ¬∃ (item : Item) (rest' : List UInt8), item.WellFormed Item.IsKey ∧
            bytes = item.bytes ++ rest' ∧ Exceeding (i + 1) rest' := by
          intro h
          obtain ⟨item, rest', hwf, hitem, _⟩ := h
          obtain ⟨_, hok, _⟩ := htakes hwf hitem
          rw [hm₁] at hok
          cases hok
        rw [hm₁] at hone
        rw [bind_error hm₁, or_iff_left hlater]
        exact hone
      | ok _ m₁ =>
        rw [hm₁] at hone hslots₁
        have hone : m₁.L.exceeded = true ↔ _ := hone
        have htook : ∀ {item : Item} {rest' : List UInt8}, item.WellFormed Item.IsKey →
            bytes = item.bytes ++ rest' → Took b rest' item m₀ m₁ := by
          intro item rest' hwf hitem
          obtain ⟨m₁', hm₁', htook⟩ := htakes hwf hitem
          rw [hm₁] at hm₁'
          cases hm₁'
          exact htook
        rw [bind_ok hm₁]
        obtain ⟨item, rest', hwf, rfl, hfirst⟩ | hcut := pushOne_ok_cases h₀ (by omega) hm₁
        · have hpos := item.length_bytes_pos
          rw [List.length_append] at hfuel
          have hstack₁ : m₁.L.stack.length = i + 1 := by
            rw [hfirst.stack, List.length_cons, hstack₀]
          -- What is left behind the first item does not depend on how it is taken.
          have hlater : (∃ (item' : Item) (rest'' : List UInt8), item'.WellFormed Item.IsKey ∧
              item.bytes ++ rest' = item'.bytes ++ rest'' ∧ Exceeding (i + 1) rest'') ↔
                Exceeding (i + 1) rest' := by
            refine ⟨fun h => ?_, fun h => ⟨item, rest', hwf, rfl, h⟩⟩
            obtain ⟨item', rest'', hwf', hitem', hexceeding⟩ := h
            rw [← hfirst.reads.drop_offset, (htook hwf' hitem').reads.drop_offset]
            exact hexceeding
          rw [ih hfirst.reads (by omega) hstack₁ hslots₁, hone, or_assoc, hlater]
        · obtain ⟨k, rfl⟩ : ∃ k, fuel = k + 1 := ⟨fuel - 1, by omega⟩
          obtain ⟨m₂, hm₂, hexceeded₂⟩ := pushValues_spent bound k (i + 1) hcut.spent
          have hlater : ¬∃ (item : Item) (rest' : List UInt8), item.WellFormed Item.IsKey ∧
              bytes = item.bytes ++ rest' ∧ Exceeding (i + 1) rest' := by
            intro h
            obtain ⟨item, rest', hwf, hitem, hexceeding⟩ := h
            rw [(htook hwf hitem).reads.eq_nil_of_spent hcut.spent] at hexceeding
            exact not_exceeding_nil _ hexceeding
          rw [hm₂, final, hexceeded₂, hone, or_iff_left hlater]

end Unserialize

/-- Counting the values changes nothing. -/
theorem final_values (values : Seri Unit) (m : Machine) :
    final ((do values; let m ← get; pure m.L.stack.length : Seri Nat) m) = final (values m) := by
  cases h : values m with
  | ok _ m' => rw [bind_ok h]; rfl
  | error failure m' => rw [bind_error h]; rfl

/-- `l_unserialize` has taken its argument from the stack. -/
def started (b : List UInt8) (heap : List Table) : Machine :=
  ⟨{ LuaState.call [.string b] heap with stack := [] }, .ofString b⟩

theorem started_slots (b : List UInt8) (heap : List Table) :
    (started b heap).L.slots = ensured 0 := by
  rw [show ensured 0 = 21 by decide]
  rfl

/-- It goes through its loop, unless the string is empty. -/
theorem lUnserialize_started {b : List UInt8} (hne : b ≠ []) (heap : List Table)
    (s : SerializeStream) : lUnserialize b ⟨.call [.string b] heap, s⟩ =
      (do
        pushValues (2 * b.length + 2) (b.length + 1) 0
        let m ← get
        pure m.L.stack.length : Seri Nat) (started b heap) := by
  have hpos : ¬ b.length = 0 := fun hlen => hne (List.eq_nil_of_length_eq_zero hlen)
  have hset : (modify fun m => { m with
      L := { m.L with stack := [] }
      s := .ofString b } : Seri Unit) ⟨.call [.string b] heap, s⟩ = .ok () (started b heap) := rfl
  rw [lUnserialize, if_neg hpos, bind_ok hset]

/-- `l_unserialize` takes slots that nothing ensures exactly if a value in its string stands too
high. -/
theorem lUnserialize_exceeded {b : List UInt8} (hfits : b.length + 8 < s32Bound)
    (heap : List Table) (s : SerializeStream) :
    (final (results (lUnserialize b) ⟨.call [.string b] heap, s⟩)).L.exceeded = true ↔
      Exceeding 0 b := by
  rw [final_results]
  by_cases hempty : b = []
  · rw [hempty]
    have hfinal : (final (lUnserialize [] ⟨.call [.string []] heap, s⟩)).L.exceeded = false := rfl
    rw [hfinal]
    exact iff_of_false Bool.false_ne_true (not_exceeding_nil 0)
  have hbefore : ¬(started b heap).L.exceeded = true := Bool.false_ne_true
  have hvalues := pushValues_exceeded (Nat.le_refl (2 * b.length + 2)) (b.length + 1) (i := 0)
    (m := started b heap) (reads_ofString hfits) (Nat.lt_succ_self _) rfl (started_slots b heap)
  rw [or_iff_right hbefore] at hvalues
  rw [lUnserialize_started hempty, final_values]
  exact hvalues

theorem lUnserialize_disciplined {b : List UInt8} (hfits : b.length + 8 < s32Bound)
    {heap : List Table} (s : SerializeStream) :
    Disciplined (results (lUnserialize b) ⟨.call [.string b] heap, s⟩) ↔
      ∀ (items : List Item) (rest : List UInt8) (height : Nat),
        (∀ item ∈ items, item.WellFormed Item.IsKey) → b = items.flatMap Item.bytes ++ rest →
          Pushes rest height → items.length + height < ensured (items.length + 1) := by
  unfold Disciplined
  rw [← Bool.not_eq_true, lUnserialize_exceeded hfits]
  constructor
  · intro h items rest height hwf hb hpushes
    refine Nat.lt_of_not_le fun hslots => h ⟨items, rest, height, hwf, hb, hpushes, ?_⟩
    rw [Nat.zero_add]
    exact hslots
  · intro h hexceeding
    obtain ⟨items, rest, height, hwf, hb, hpushes, hslots⟩ := hexceeding
    rw [Nat.zero_add] at hslots
    exact Nat.not_le_of_lt (h items rest height hwf hb hpushes) hslots

end HyperNet.ScriptEngine
