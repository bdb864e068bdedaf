import HyperNet.ScriptEngine.Writing

/-! # What was serialized is unserialized

The items written for the values are well formed, so the reading side takes them in; what it
builds for the encoding of a value is the same value again. -/
namespace HyperNet.ScriptEngine
open HyperNet.Core HyperNet.Public
open HyperNet.Logic (s32Bytes length_s32Bytes)

section Build
variable {g : Heap}

/-- The tables before an address are kept. -/
def Keeps (heap heap' : List Table) : Prop := ∀ a < heap.length, heap'[a]? = heap[a]?

theorem Keeps.get {heap heap' : List Table} (h : Keeps heap heap') {a : Nat} {t : Table}
    (ht : heap[a]? = some t) : heap'[a]? = some t := by
  rw [h a (List.getElem?_eq_some_iff.mp ht).1, ht]

theorem above_sub {low low' : Nat} {heap heap' : List Table} (hle : low' ≤ low)
    (hsub : ∀ a t, low ≤ a → heap[a]? = some t → heap'[a]? = some t) :
    ∀ a t, above low heap a = some t → above low' heap' a = some t := by
  intro a t h
  unfold above at h ⊢
  split at h
  · next hlow => rw [if_pos (Nat.le_trans hle hlow), hsub a t hlow h]
  · cases h

/-- Two values that are the same as a third one are equal, unless that is a table. -/
theorem Same.eq_or_table {g g' g'' : Heap} {v u w : LuaValue} (hv : Same g g' v w)
    (hu : Same g g'' u w) :
    v = u ∨ ∃ a t t', w = .table a ∧ g' a = some t ∧ g'' a = some t' := by
  cases hv with
  | scalar hscalar =>
    cases hu with
    | scalar => exact Or.inl rfl
    | table => exact absurd rfl (hscalar _)
  | table _ _ ht =>
    cases hu with
    | scalar hscalar => exact absurd rfl (hscalar _)
    | table _ _ ht' => exact Or.inr ⟨_, _, _, rfl, ht, ht'⟩

/-- The entries of a table being built, side by side with those it is built from. -/
structure Matches (g : Heap) (heap : List Table) (address : Nat)
    (pairs : List ((LuaValue × LuaValue) × (LuaValue × LuaValue))) (t : Table) : Prop where
  here : heap[address]? = some t
  entries : pairs.map Prod.snd = t.entries
  key : ∀ p ∈ pairs, Same g (above (address + 1) heap) p.1.1 p.2.1
  value : ∀ p ∈ pairs, Same g (above (address + 1) heap) p.1.2 p.2.2

/-- A key that a table does not have yet in the original is built as a new key. -/
theorem Matches.fresh {heap heap' : List Table} {address : Nat}
    {pairs : List ((LuaValue × LuaValue) × (LuaValue × LuaValue))} {t : Table} {k k' : LuaValue}
    (h : Matches g heap address pairs t) (hk : k ∉ pairs.map (·.1.1))
    (hsame : Same g (above heap.length heap') k k') : k' ∉ t.entries.map Prod.fst := by
  intro hmem
  rw [← h.entries, List.map_map] at hmem
  obtain ⟨p, hp, hpk⟩ := List.mem_map.mp hmem
  have hpk : p.2.1 = k' := hpk
  have hold := h.key p hp
  rw [hpk] at hold
  cases hold.eq_or_table hsame with
  | inl heq => exact hk (List.mem_map.mpr ⟨p, hp, heq⟩)
  | inr htable =>
    -- The table of an earlier key is below the heap's end, that of the new key is not.
    obtain ⟨a, t, t', _, ht, ht'⟩ := htable
    unfold above at ht ht'
    split at ht
    · split at ht'
      · next hlow =>
        have hlt := (List.getElem?_eq_some_iff.mp ht).1
        omega
      · cases ht'
    · cases ht

/-- One more entry is matched once it is assigned. -/
theorem Matches.assign {heap heap₁ heap₂ : List Table} {address : Nat}
    {pairs : List ((LuaValue × LuaValue) × (LuaValue × LuaValue))} {t : Table}
    {k v k' v' : LuaValue} (h : Matches g heap address pairs t) (hk : k ∉ pairs.map (·.1.1))
    (hisKey : k.IsKey) (hv : v ≠ .nil) (hkeeps₁ : Keeps heap heap₁) (hkeeps₂ : Keeps heap₁ heap₂)
    (hle₁ : heap.length ≤ heap₁.length)
    (hkey : Same g (above heap.length heap₁) k k')
    (hvalue : Same g (above heap₁.length heap₂) v v') :
    (∃ t', Matches g (assign heap₂ address k' v') address (pairs ++ [((k, v), (k', v'))]) t') ∧
      ∀ a < heap.length, a ≠ address → (assign heap₂ address k' v')[a]? = heap[a]? := by
  have hlt := (List.getElem?_eq_some_iff.mp h.here).1
  have hhere : heap₂[address]? = some t := hkeeps₂.get (hkeeps₁.get h.here)
  have hlt₂ := (List.getElem?_eq_some_iff.mp hhere).1
  have hassign : ScriptEngine.assign heap₂ address k' v' =
      heap₂.set address (t.set ⟨k', hkey.isKey hisKey⟩ v') := by
    rw [ScriptEngine.assign, hhere, LuaValue.toKey_of_isKey (hkey.isKey hisKey)]
  have hother : ∀ a, a ≠ address →
      (ScriptEngine.assign heap₂ address k' v')[a]? = heap₂[a]? := by
    intro a ha
    rw [hassign, List.getElem?_set_ne (Ne.symm ha)]
  have hentries : (t.set ⟨k', hkey.isKey hisKey⟩ v').entries = t.entries ++ [(k', v')] :=
    setEntry_new (h.fresh hk hkey) (hvalue.ne_nil hv)
  have hsub : ∀ a t, address + 1 ≤ a → heap[a]? = some t →
      (ScriptEngine.assign heap₂ address k' v')[a]? = some t := by
    intro a t ha ht
    rw [hother a (by omega)]
    exact hkeeps₂.get (hkeeps₁.get ht)
  have hold := above_sub (Nat.le_refl (address + 1)) hsub
  have hnewKey : Same g (above (address + 1) (ScriptEngine.assign heap₂ address k' v')) k k' := by
    refine hkey.mono (above_sub hlt ?_)
    intro a t ha ht
    rw [hother a (by omega)]
    exact hkeeps₂.get ht
  have hnewValue :
      Same g (above (address + 1) (ScriptEngine.assign heap₂ address k' v')) v v' := by
    refine hvalue.mono (above_sub (Nat.le_trans hlt hle₁) ?_)
    intro a t ha ht
    rw [hother a (by omega)]
    exact ht
  refine ⟨⟨t.set ⟨k', hkey.isKey hisKey⟩ v', ?_, ?_, ?_, ?_⟩, ?_⟩
  · rw [hassign, List.getElem?_set_self hlt₂]
  · rw [List.map_append, h.entries, hentries]
    rfl
  · intro p hp
    cases List.mem_append.mp hp with
    | inl hp => exact (h.key p hp).mono hold
    | inr hp => rw [List.mem_singleton.mp hp]; exact hnewKey
  · intro p hp
    cases List.mem_append.mp hp with
    | inl hp => exact (h.value p hp).mono hold
    | inr hp => rw [List.mem_singleton.mp hp]; exact hnewValue
  · intro a ha hne
    rw [hother a hne, hkeeps₂ a (by omega), hkeeps₁ a ha]

mutual

/-- What is built for the encoding of a value is the same value, made of new tables. -/
theorem Item.Encodes.same : ∀ (item : Item) {v : LuaValue} (heap : List Table),
    item.Encodes g v → Same g (above heap.length (item.build heap).2) v (item.build heap).1 ∧
      Keeps heap (item.build heap).2
  | .nil, v, heap, h => by
    have hv : v = .nil := h
    rw [hv]
    exact ⟨.scalar (by simp), fun _ _ => rfl⟩
  | .boolean byte, v, heap, h => by
    obtain ⟨b, rfl, rfl⟩ := h
    have hbyte : ((if b then (1 : UInt8) else 0) != 0) = b := by cases b <;> rfl
    rw [Item.build, hbyte]
    exact ⟨.scalar (by simp), fun _ _ => rfl⟩
  | .integer n, v, heap, h => by
    have hv : v = .integer n := h
    rw [hv]
    exact ⟨.scalar (by simp), fun _ _ => rfl⟩
  | .number bits, v, heap, h => by
    have hv : v = .number bits := h
    rw [hv]
    exact ⟨.scalar (by simp), fun _ _ => rfl⟩
  | .string bytes, v, heap, h => by
    have hv : v = .string bytes := h
    rw [hv]
    exact ⟨.scalar (by simp), fun _ _ => rfl⟩
  | .table entries, v, heap, h => by
    obtain ⟨address, t, rfl, ht, hentries⟩ := h
    have hempty : Matches g (heap ++ [Table.empty]) heap.length [] Table.empty :=
      ⟨List.getElem?_concat_length, rfl, by simp, by simp⟩
    obtain ⟨pairs, t', hmatches, hfst, hkeeps⟩ :=
      Entries.Encode.same entries t [] hempty hentries rfl
    have hmono : ∀ a t, above (heap.length + 1) (Item.build (.table entries) heap).2 a = some t →
        above heap.length (Item.build (.table entries) heap).2 a = some t :=
      above_sub (Nat.le_succ heap.length) (fun _ _ _ ht => ht)
    refine ⟨.table pairs ht ?_ hfst (List.Perm.of_eq hmatches.entries) ?_ ?_, ?_⟩
    · exact (if_pos (Nat.le_refl _)).trans hmatches.here
    · exact fun p hp => (hmatches.key p hp).mono hmono
    · exact fun p hp => (hmatches.value p hp).mono hmono
    · intro a ha
      have hlen : (heap ++ [Table.empty]).length = heap.length + 1 := List.length_append
      rw [Item.build, hkeeps a (by omega) (by omega), List.getElem?_append_left ha]

/-- The same for the entries from one on, given those before it. -/
theorem Entries.Encode.same : ∀ (entries : Entries) (t : Table) {heap : List Table}
    {address : Nat} {rest : List (LuaValue × LuaValue)} {t' : Table}
    (pairs : List ((LuaValue × LuaValue) × (LuaValue × LuaValue))),
    Matches g heap address pairs t' → entries.Encode g rest →
    pairs.map Prod.fst ++ rest = t.entries →
    ∃ pairs' t'', Matches g (entries.build address heap) address pairs' t'' ∧
      pairs'.map Prod.fst = t.entries ∧
      ∀ a < heap.length, a ≠ address → (entries.build address heap)[a]? = heap[a]?
  | .nil, t, heap, address, rest, t', pairs, hmatches, h, hall => by
    have hrest : rest = [] := h
    rw [hrest, List.append_nil] at hall
    exact ⟨pairs, t', hmatches, hall, fun _ _ _ => rfl⟩
  | .cons key value entries, t, heap, address, rest, t', pairs, hmatches, h, hall => by
    obtain ⟨k, v, rest, rfl, hk, hv, hrest⟩ := h
    obtain ⟨hkey, hkeeps₁⟩ := Item.Encodes.same key heap hk
    obtain ⟨hvalue, hkeeps₂⟩ := Item.Encodes.same value (key.build heap).2 hv
    have hmem : (k, v) ∈ t.entries := by
      rw [← hall]
      exact List.mem_append_right _ List.mem_cons_self
    have hnew : k ∉ pairs.map (·.1.1) := by
      have hnodup := t.nodup
      rw [← hall, List.map_append, List.map_map, List.map_cons] at hnodup
      intro hold
      exact (List.nodup_append.mp hnodup).2.2 k hold k List.mem_cons_self rfl
    obtain ⟨⟨t₁, hmatches₁⟩, hframe₁⟩ := hmatches.assign hnew (t.isKey _ hmem) (t.ne_nil _ hmem)
      hkeeps₁ hkeeps₂ (key.le_build heap) hkey hvalue
    obtain ⟨pairs', t'', hmatches', hfst, hframe⟩ := Entries.Encode.same entries t _ hmatches₁
      hrest (by rw [List.map_append, List.append_assoc]; exact hall)
    refine ⟨pairs', t'', hmatches', hfst, ?_⟩
    intro a ha hne
    have hlen : heap.length ≤ (value.build (key.build heap).2).2.length :=
      Nat.le_trans (key.le_build heap) (value.le_build _)
    rw [Entries.build, hframe a (by rw [length_assign]; omega) hne, hframe₁ a ha hne]

end

/-- A list of values is built value by value, from new tables only. -/
theorem buildAll_same {items : List Item} : ∀ {vs : List LuaValue} (heap : List Table),
    List.Forall₂ (fun v (item : Item) => item.Encodes g v) vs items →
    List.Forall₂ (Same g (lookup (buildAll items heap).2)) vs (buildAll items heap).1 ∧
      heap.length ≤ (buildAll items heap).2.length ∧ Keeps heap (buildAll items heap).2 := by
  induction items with
  | nil =>
    intro vs heap h
    cases h
    exact ⟨.nil, Nat.le_refl _, fun _ _ => rfl⟩
  | cons item items ih =>
    intro vs heap h
    cases h with
    | cons hv hvs =>
      obtain ⟨hsame, hkeeps⟩ := Item.Encodes.same item heap hv
      have hle := item.le_build heap
      obtain ⟨hrest, hleRest, hkeepsRest⟩ := ih (item.build heap).2 hvs
      rw [buildAll]
      refine ⟨.cons (hsame.mono ?_) hrest, Nat.le_trans hle hleRest, ?_⟩
      · intro a t ht
        unfold above at ht
        split at ht
        · exact hkeepsRest.get ht
        · cases ht
      · intro a ha
        show (buildAll items (item.build heap).2).2[a]? = heap[a]?
        rw [hkeepsRest a (by omega), hkeeps a ha]

end Build

/-- The encodings of values are unserialized to the same values. -/
theorem lUnserialize_encodes {g : Heap} {vs : List LuaValue} {items : List Item}
    (hitems : List.Forall₂ (fun v (item : Item) => item.Encodes g v) vs items)
    (hsize : (items.flatMap Item.bytes).length ≤ buffSize) (there : Machine) :
    ∃ m vs', results (lUnserialize (items.flatMap Item.bytes)) there = .ok vs' m ∧
      Keeps there.L.heap m.L.heap ∧ List.Forall₂ (Same g (lookup m.L.heap)) vs vs' := by
  have hbound : buffSize + 8 < s32Bound := by decide
  have hwf := wellFormed_of_encodes hitems (by omega)
  obtain ⟨m, hm, _, hheap⟩ := lUnserialize_items (m := there) hwf (by omega)
  obtain ⟨hsame, _, hkeeps⟩ := buildAll_same there.L.heap hitems
  rw [← hheap] at hsame hkeeps
  exact ⟨m, _, hm, hkeeps, hsame⟩

/-- Values whose encodings fit into the buffer are serialized, and unserialized, in any state,
to the same values; tables that are there already are kept. -/
theorem serialize_round_trip {heap : List Table} {vs : List LuaValue} {items : List Item}
    (hitems : List.Forall₂ (fun v (item : Item) => item.Encodes (lookup heap) v) vs items)
    (hsize : (items.flatMap Item.bytes).length ≤ buffSize) {memory : List UInt8}
    (hmemory : memory.length = buffSize) (s : SerializeStream) (there : Machine) :
    ∃ bytes m m' vs', results (lSerialize memory) ⟨.call vs heap, s⟩ = .ok [.string bytes] m ∧
      m.L.heap = heap ∧ results (lUnserialize bytes) there = .ok vs' m' ∧
      Keeps there.L.heap m'.L.heap ∧
      List.Forall₂ (Same (lookup heap) (lookup m'.L.heap)) vs vs' := by
  obtain ⟨m, hm, hheap⟩ := lSerialize_items hitems hsize hmemory s
  obtain ⟨m', vs', hm', hkeeps, hsame⟩ := lUnserialize_encodes hitems hsize there
  exact ⟨_, m, m', vs', hm, hheap, hm', hkeeps, hsame⟩

/-- Round trip of a table in a table, and a nil. -/
theorem serialize_round_trip_nested :
    ∃ bytes m m' vs', results (lSerialize (List.replicate buffSize 0))
        ⟨.call [.table 0, .nil] [Table.empty.set ⟨.boolean true, trivial⟩ (.table 1),
          Table.empty.set ⟨.integer 1, trivial⟩ (.boolean false)], .alloc []⟩ =
        .ok [.string bytes] m ∧
      m.L.heap = [Table.empty.set ⟨.boolean true, trivial⟩ (.table 1),
        Table.empty.set ⟨.integer 1, trivial⟩ (.boolean false)] ∧
      results (lUnserialize bytes) ⟨.call [] [], .alloc []⟩ = .ok vs' m' ∧ Keeps [] m'.L.heap ∧
      List.Forall₂ (Same (lookup [Table.empty.set ⟨.boolean true, trivial⟩ (.table 1),
        Table.empty.set ⟨.integer 1, trivial⟩ (.boolean false)]) (lookup m'.L.heap))
        [.table 0, .nil] vs' := by
  have hinner : (Item.table (.cons (.integer 1) (.boolean 0) .nil)).Encodes
      (lookup [Table.empty.set ⟨.boolean true, trivial⟩ (.table 1),
        Table.empty.set ⟨.integer 1, trivial⟩ (.boolean false)]) (.table 1) :=
    ⟨1, _, rfl, rfl, _, _, _, rfl, rfl, ⟨false, rfl, rfl⟩, rfl⟩
  have hitems : List.Forall₂ (fun v (item : Item) => item.Encodes
      (lookup [Table.empty.set ⟨.boolean true, trivial⟩ (.table 1),
        Table.empty.set ⟨.integer 1, trivial⟩ (.boolean false)]) v) [.table 0, .nil]
      [.table (.cons (.boolean 1) (.table (.cons (.integer 1) (.boolean 0) .nil)) .nil), .nil] :=
    .cons ⟨0, _, rfl, rfl, _, _, _, rfl, ⟨true, rfl, rfl⟩, hinner, rfl⟩ (.cons rfl .nil)
  exact serialize_round_trip hitems (by decide) List.length_replicate _ _

end HyperNet.ScriptEngine
