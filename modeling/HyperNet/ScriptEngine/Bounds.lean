import HyperNet.ScriptEngine.Slots

/-! # The bounds of the serializer

`serialize buffer full` is to be raised exactly for encodings that do not fit. A string whose
length still fits is copied without a check, and the values of a table are pushed without one. -/
namespace HyperNet.ScriptEngine
open HyperNet.Core HyperNet.Public
open HyperNet.Logic (length_s32Bytes)

/-- A call of `l_serialize` on values with this encoding keeps to the buffer. -/
structure InBuffer (encoding : List UInt8) (r : EStateM.Result Failure Machine (List LuaValue)) :
    Prop where
  outcome : (∃ out m, r = .ok [.string out] m ∧ out.length ≤ buffSize) ∨
    ∃ message m, r = .error (.error message) m
  full : (∃ m, r = .error (.error "serialize buffer full") m) ↔ buffSize < encoding.length
  inside : ∀ offset ∈ (final r).s.offset :: (final r).s.offsets, 0 ≤ offset ∧ offset ≤ (final r).s.len

/-- The same, and it keeps to the slots of the stack: what a push beyond them does to the call and
to its memory is not defined. -/
structure Bounded (encoding : List UInt8) (r : EStateM.Result Failure Machine (List LuaValue)) :
    Prop extends InBuffer encoding r where
  disciplined : Disciplined r

/-- Up to the first other field for which there is no room, the bytes of the strings are copied
within the buffer; and without such a field, all of them are (`whole`, so far). -/
def Guarded : Nat → Bool → List Field → Prop
  | _, whole, [] => whole
  | offset, whole, .checked bytes :: fields =>
    buffSize < offset + bytes.length ∨ Guarded (offset + bytes.length) whole fields
  | offset, whole, .unchecked bytes :: fields =>
    0 ≤ s32 bytes.length ∧ offset + s32 bytes.length ≤ buffSize ∧
      Guarded (offset + (Field.unchecked bytes).copied.length)
        (whole && decide (bytes.length < s32Bound)) fields

theorem Field.copied_eq_bytes {bytes : List UInt8} (h : 0 ≤ s32 bytes.length) :
    (Field.unchecked bytes).copied = bytes ↔ bytes.length < s32Bound := by
  constructor
  · intro hwhole
    have hlength := Field.copied_unchecked h
    rw [hwhole] at hlength
    refine Nat.lt_of_not_le fun hlong => ?_
    have hlt : s32 bytes.length < s32Bound := by
      simp only [s32, Int.bmod, s32Bound, Nat.reducePow]
      split <;> omega
    omega
  · intro hlt
    refine Decidable.byContradiction fun hcut => ?_
    have hlong : s32Bound ≤ bytes.length := Field.long_of_cut hcut
    omega

theorem guarded_iff {offset : Nat} {whole : Bool} {fields : List Field} :
    Guarded offset whole fields ↔ ending offset fields ≠ .overrun ∧
      (ending offset fields = .done → whole = true ∧ ∀ field ∈ fields, field.copied = field.bytes) := by
  induction fields generalizing offset whole with
  | nil => simp [Guarded, ending]
  | cons field fields ih =>
    cases field with
    | checked bytes =>
      rw [Guarded, ending, ih, List.forall_mem_cons]
      split
      · next hfull => simp [hfull]
      · next hfits => simp [hfits]
    | unchecked bytes =>
      rw [Guarded, ending, ih, List.forall_mem_cons]
      split
      · next hover => 
        constructor
        · intro h
          omega
        · intro h
          exact absurd rfl h.1
      · next hroom =>
        rw [Field.bytes_unchecked, Field.copied_eq_bytes (by omega), Bool.and_eq_true,
          decide_eq_true_iff, and_assoc]
        constructor
        · exact fun h => h.2.2
        · exact fun h => ⟨by omega, by omega, h⟩

theorem Wrote.within {out : List UInt8} {s : SerializeStream} (h : Wrote out s) :
    ∀ offset ∈ s.offset :: s.offsets, 0 ≤ offset ∧ offset ≤ s.len := by
  rw [h.len]
  exact h.inside

/-- Whether the call keeps to the buffer is decided by the strings. -/
theorem inBuffer_iff {heap : List Table} {vs : List LuaValue} {items : List Item}
    {memory : List UInt8}
    (hitems : List.Forall₂ (fun v (item : Item) => item.Encodes (lookup heap) v) vs items)
    (hmemory : memory.length = buffSize) (s : SerializeStream) :
    InBuffer (items.flatMap Item.bytes) (results (lSerialize memory) ⟨.call vs heap, s⟩) ↔
      Guarded 0 true (items.flatMap Item.fields) := by
  have hend := lSerialize_ending hitems hmemory s
  have hall := bytes_allFields items
  rw [guarded_iff]
  cases hending : ending 0 (items.flatMap Item.fields) with
  | done =>
    obtain ⟨m, hm, _, hwrote⟩ := hend.1 hending
    rw [hm]
    constructor
    · intro h
      refine ⟨by simp, fun _ => ⟨rfl, fun field hfield => ?_⟩⟩
      refine Decidable.byContradiction fun hcut => ?_
      -- A string of which only a part is copied is too long.
      have hlong := Field.long_of_cut hcut
      obtain ⟨before, after, hsplit⟩ := List.append_of_mem hfield
      have hlength : (items.flatMap Item.bytes).length = (before.flatMap Field.bytes).length +
          (field.bytes.length + (after.flatMap Field.bytes).length) := by
        rw [← hall, hsplit, List.flatMap_append, List.flatMap_cons, List.length_append,
          List.length_append]
      have hbound : buffSize < s32Bound := by decide
      obtain ⟨m', hm'⟩ := h.full.mpr (by omega)
      cases hm'
    · intro h
      have hwhole : (items.flatMap Item.fields).flatMap Field.copied =
          (items.flatMap Item.fields).flatMap Field.bytes :=
        List.flatMap_congr fun field hfield => (h.2 rfl).2 field hfield
      have hle := hwrote.length_le
      refine ⟨Or.inl ⟨_, m, rfl, hle⟩, ?_, hwrote.within⟩
      rw [hwhole, hall] at hle
      constructor
      · intro herror
        obtain ⟨m', hm'⟩ := herror
        cases hm'
      · intro hlt
        omega
  | full =>
    obtain ⟨m, out, hm, hwrote⟩ := hend.2.1 hending
    have hlt := lt_of_full hending
    rw [hall, Nat.zero_add] at hlt
    rw [hm]
    refine ⟨fun _ => ⟨by simp, by simp⟩, fun _ => ?_⟩
    exact ⟨Or.inr ⟨_, m, rfl⟩, ⟨fun _ => hlt, fun _ => ⟨m, rfl⟩⟩, hwrote.within⟩
  | overrun =>
    obtain ⟨m, hm⟩ := hend.2.2 hending
    rw [hm]
    constructor
    · intro h
      cases h.outcome with
      | inl hok => obtain ⟨_, _, hok, _⟩ := hok; cases hok
      | inr herror => obtain ⟨_, _, herror⟩ := herror; cases herror
    · intro h
      exact absurd rfl h.1

/-- Whether it keeps to the slots, by the tables. -/
theorem lSerialize_disciplined {heap : List Table} {vs : List LuaValue} {memory : List UInt8}
    (hmemory : memory.length = buffSize) (s : SerializeStream) :
    Disciplined (results (lSerialize memory) ⟨.call vs heap, s⟩) ↔
      ∀ depth, NestsAll (lookup heap) 0 vs depth → depth < 10 := by
  unfold Disciplined
  rw [← Bool.not_eq_true, lSerialize_exceeded hmemory]
  constructor
  · intro h depth hnests
    exact Nat.lt_of_not_le fun hdeep => h ⟨depth, hnests, hdeep⟩
  · intro h hdeep
    obtain ⟨depth, hnests, hle⟩ := hdeep
    exact Nat.not_le_of_lt (h depth hnests) hle

/-- **Bounds of the serializer.** A list of values that have encodings, and fresh memory:
`l_serialize` returns a string that fits or raises an error, raises `serialize buffer full`
exactly if the encodings are too long together, and stays inside the buffer, all on slots that
are ensured, if and only if the strings are guarded and every table that is come to stands in
fewer than ten others. -/
theorem serialize_bounded {heap : List Table} {vs : List LuaValue} {items : List Item}
    {memory : List UInt8}
    (hitems : List.Forall₂ (fun v (item : Item) => item.Encodes (lookup heap) v) vs items)
    (hmemory : memory.length = buffSize) (s : SerializeStream) :
    Bounded (items.flatMap Item.bytes) (results (lSerialize memory) ⟨.call vs heap, s⟩) ↔
      Guarded 0 true (items.flatMap Item.fields) ∧
        ∀ depth, NestsAll (lookup heap) 0 vs depth → depth < 10 := by
  rw [← inBuffer_iff hitems hmemory s, ← lSerialize_disciplined hmemory s]
  exact ⟨fun h => ⟨h.toInBuffer, h.disciplined⟩, fun h => ⟨h.1, h.2⟩⟩

/-- A table with a string in it. -/
theorem serialize_bounded_nested :
    Bounded ([Item.table (.cons (.integer 1) (.string [7]) .nil)].flatMap Item.bytes)
        (results (lSerialize (List.replicate buffSize 0)) ⟨.call [.table 0]
          [Table.empty.set ⟨.integer 1, trivial⟩ (.string [7])], .alloc []⟩) ↔
      Guarded 0 true
          ([Item.table (.cons (.integer 1) (.string [7]) .nil)].flatMap Item.fields) ∧
        ∀ depth, NestsAll (lookup [Table.empty.set ⟨.integer 1, trivial⟩ (.string [7])]) 0
          [.table 0] depth → depth < 10 := by
  have hitems : List.Forall₂ (fun v (item : Item) => item.Encodes
      (lookup [Table.empty.set ⟨.integer 1, trivial⟩ (.string [7])]) v) [.table 0]
      [.table (.cons (.integer 1) (.string [7]) .nil)] :=
    .cons ⟨0, _, rfl, rfl, _, _, _, rfl, rfl, rfl, rfl⟩ .nil
  exact serialize_bounded hitems List.length_replicate _

/-- A string of 2044 bytes: its length ends at 5, and the last byte is copied behind the
buffer. -/
theorem string_overruns : ¬Bounded ([Item.string (List.replicate 2044 0)].flatMap Item.bytes)
    (results (lSerialize (List.replicate buffSize 0))
      ⟨.call [.string (List.replicate 2044 0)] [], .alloc []⟩) := by
  have hitems : List.Forall₂ (fun v (item : Item) => item.Encodes (lookup []) v)
      [.string (List.replicate 2044 0)] [.string (List.replicate 2044 0)] := .cons rfl .nil
  have hmemory : (List.replicate buffSize (0 : UInt8)).length = buffSize := List.length_replicate
  have hend := lSerialize_ending hitems hmemory (.alloc [])
  have hending : ending 0 ([Item.string (List.replicate 2044 0)].flatMap Item.fields) =
      .overrun := by
    rw [List.flatMap_singleton, Item.fields, ending, if_neg (by decide), ending,
      length_s32Bytes, if_neg (by decide), ending, List.length_replicate]
    exact if_pos (by decide)
  obtain ⟨m, hm⟩ := hend.2.2 hending
  rw [hm]
  intro h
  cases h.outcome with
  | inl hok => obtain ⟨_, _, hok, _⟩ := hok; cases hok
  | inr herror => obtain ⟨_, _, herror⟩ := herror; cases herror

end HyperNet.ScriptEngine
