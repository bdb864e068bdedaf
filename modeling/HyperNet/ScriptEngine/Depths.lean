import HyperNet.ScriptEngine.Discipline

/-! # How deep the tables of an encoding are

What a string of whole encodings needs of the stack can be read off the items: how many tables
each of them has within each other, and how high above its first slot a value of it is pushed. -/
namespace HyperNet.ScriptEngine
open HyperNet.Core HyperNet.Public

mutual

/-- The number of tables that stand within each other. -/
def Item.nesting : Item → Nat
  | .table entries => entries.nesting + 1
  | _ => 0

def Entries.nesting : Entries → Nat
  | .nil => 0
  | .cons key value entries => max (max key.nesting value.nesting) entries.nesting

end

mutual

/-- The slots above the one where the value ends up that reading it takes. -/
def Item.height : Item → Nat
  | .table entries => entries.height + 1
  | _ => 0

/-- The same for the entries of a table, above the slot of the first key. -/
def Entries.height : Entries → Nat
  | .nil => 0
  | .cons key value entries => max (max key.height (value.height + 1)) entries.height

end

/-! ## Where unserializing pushes -/

mutual

/-- The value that stands highest. -/
theorem Item.pushes : ∀ (item : Item) {rest : List UInt8}, item.WellFormed Item.IsKey →
    Pushes (item.bytes ++ rest) item.height
  | .nil, _, hwf | .boolean _, _, hwf | .integer _, _, hwf | .number _, _, hwf
  | .string _, _, hwf => .item hwf
  | .table entries, _, hwf => .inside (Entries.pushes entries hwf)

theorem Entries.pushes : ∀ (entries : Entries) {rest : List UInt8}, entries.WellFormed Item.IsKey →
    PushesIn (entries.bytes ++ rest) entries.height
  | .nil, rest, _ => .key (Item.pushes .nil trivial)
  | .cons key value entries, rest, hwf => by
    obtain ⟨hkey, hkeyWf, hvalueWf, hentriesWf⟩ := hwf
    have hbytes : (Entries.cons key value entries).bytes ++ rest =
        key.bytes ++ (value.bytes ++ (entries.bytes ++ rest)) := by
      rw [Entries.bytes, List.append_assoc, List.append_assoc]
      rfl
    rw [hbytes, Entries.height]
    rcases Nat.le_total (max key.height (value.height + 1)) entries.height with hle | hle
    · rw [Nat.max_eq_right hle]
      exact .later hkey hkeyWf hvalueWf (Entries.pushes entries hentriesWf)
    · rw [Nat.max_eq_left hle]
      rcases Nat.le_total key.height (value.height + 1) with hle | hle
      · rw [Nat.max_eq_right hle]
        exact .value hkey.ne_nil hkeyWf (Item.pushes value hvalueWf)
      · rw [Nat.max_eq_left hle]
        exact .key (Item.pushes key hkeyWf)

end

theorem Pushes.of_not_table {type : UInt8} {bytes : List UInt8} {height : Nat}
    (h : Pushes (type :: bytes) height) (htype : type ≠ TABLE) : height = 0 := by
  generalize hb : type :: bytes = all at h
  cases h with
  | item => rfl
  | string => rfl
  | table => rfl
  | inside => exact absurd (List.cons.inj hb).1 htype

mutual

/-- No value stands higher. -/
theorem Item.pushes_le : ∀ (item : Item) {rest : List UInt8} {height : Nat},
    item.WellFormed Item.IsKey → Pushes (item.bytes ++ rest) height → height ≤ item.height
  | .nil, _, _, _, h => Nat.le_of_eq (h.of_not_table (show NIL ≠ TABLE by decide))
  | .boolean _, _, _, _, h => Nat.le_of_eq (h.of_not_table (show BOOLEAN ≠ TABLE by decide))
  | .integer _, _, _, _, h => Nat.le_of_eq (h.of_not_table (show INT ≠ TABLE by decide))
  | .number _, _, _, _, h => Nat.le_of_eq (h.of_not_table (show DOUBLE ≠ TABLE by decide))
  | .string _, _, _, _, h => Nat.le_of_eq (h.of_not_table (show STRING ≠ TABLE by decide))
  | .table entries, rest, height, hwf, h => by
    generalize hb : (Item.table entries).bytes ++ rest = bytes at h
    cases h with
    | item => exact Nat.zero_le _
    | string => exact Nat.zero_le _
    | table => exact Nat.zero_le _
    | inside hin =>
      rw [← (List.cons.inj hb).2] at hin
      exact Nat.succ_le_succ (Entries.pushes_le entries hwf hin)

theorem Entries.pushes_le : ∀ (entries : Entries) {rest : List UInt8} {height : Nat},
    entries.WellFormed Item.IsKey → PushesIn (entries.bytes ++ rest) height →
    height ≤ entries.height
  | .nil, rest, height, _, h => by
    have hnil : Item.nil.WellFormed Item.IsKey := trivial
    generalize hb : Entries.nil.bytes ++ rest = bytes at h
    have hb : Item.nil.bytes ++ rest = bytes := hb
    cases h with
    | key h =>
      rw [← hb] at h
      exact Nat.le_of_eq (h.of_not_table (by decide))
    | value hkey hwf =>
      exact absurd (Item.bytes_append_inj hnil hwf hb).1.symm hkey
    | later hkey hwf =>
      exact absurd (Item.bytes_append_inj hnil hwf hb).1.symm hkey.ne_nil
  | .cons key value entries, rest, height, hwf, h => by
    obtain ⟨_, hkeyWf, hvalueWf, hentriesWf⟩ := hwf
    generalize hb : (Entries.cons key value entries).bytes ++ rest = bytes at h
    have hb : key.bytes ++ (value.bytes ++ (entries.bytes ++ rest)) = bytes := by
      rw [← hb, Entries.bytes, List.append_assoc, List.append_assoc]
      rfl
    rw [Entries.height]
    cases h with
    | key h =>
      rw [← hb] at h
      have hle := Item.pushes_le key hkeyWf h
      omega
    | value _ hwf h =>
      rw [← (Item.bytes_append_inj hkeyWf hwf hb).2] at h
      have hle := Item.pushes_le value hvalueWf h
      omega
    | later _ hwf hwf' h =>
      have hb := (Item.bytes_append_inj hkeyWf hwf hb).2
      rw [← (Item.bytes_append_inj hvalueWf hwf' hb).2] at h
      have hle := Entries.pushes_le entries hentriesWf h
      omega

end

/-- What is pushed behind whole values is pushed for the next one. -/
theorem pushes_behind {items : List Item} : ∀ {items' : List Item} {rest : List UInt8}
    {height : Nat}, (∀ item ∈ items, item.WellFormed Item.IsKey) →
    (∀ item ∈ items', item.WellFormed Item.IsKey) →
    items.flatMap Item.bytes = items'.flatMap Item.bytes ++ rest → Pushes rest height →
    ∃ h : items'.length < items.length, height ≤ items[items'.length].height := by
  induction items with
  | nil =>
    intro items' rest height _ _ hb h
    rw [(List.append_eq_nil_iff.mp hb.symm).2] at h
    exact absurd h not_pushes_nil
  | cons item items ih =>
    intro items' rest height hwf hwf' hb h
    rw [List.flatMap_cons] at hb
    rw [List.forall_mem_cons] at hwf
    cases items' with
    | nil =>
      have hb : item.bytes ++ items.flatMap Item.bytes = rest := hb
      rw [← hb] at h
      exact ⟨Nat.succ_pos _, item.pushes_le hwf.1 h⟩
    | cons item' items' =>
      rw [List.flatMap_cons, List.append_assoc] at hb
      rw [List.forall_mem_cons] at hwf'
      obtain ⟨hlt, hle⟩ := ih hwf.2 hwf'.2 (Item.bytes_append_inj hwf.1 hwf'.1 hb).2 h
      exact ⟨Nat.succ_lt_succ hlt, hle⟩

/-- The slots are enough to unserialize these values. -/
def Fit (items : List Item) : Prop :=
  ∀ i, (h : i < items.length) → i + items[i].height < ensured (i + 1)

instance (items : List Item) : Decidable (Fit items) :=
  inferInstanceAs (Decidable (∀ i, (h : i < items.length) → i + items[i].height < ensured (i + 1)))

/-- Whole values are unserialized on slots that are ensured exactly if these are enough. -/
theorem lUnserialize_fit {items : List Item} (hwf : ∀ item ∈ items, item.WellFormed Item.IsKey)
    (hfits : (items.flatMap Item.bytes).length + 8 < s32Bound) (heap : List Table)
    (s : SerializeStream) :
    Disciplined (results (lUnserialize (items.flatMap Item.bytes))
        ⟨.call [.string (items.flatMap Item.bytes)] heap, s⟩) ↔ Fit items := by
  rw [lUnserialize_disciplined hfits]
  constructor
  · intro h i hi
    have hsplit : items = items.take i ++ items[i] :: items.drop (i + 1) := by
      rw [← List.drop_eq_getElem_cons hi, List.take_append_drop]
    have hbytes : items.flatMap Item.bytes = (items.take i).flatMap Item.bytes ++
        (items[i].bytes ++ (items.drop (i + 1)).flatMap Item.bytes) := by
      rw [← List.flatMap_cons, ← List.flatMap_append, ← hsplit]
    have hslots := h (items.take i) _ _ (fun item hmem => hwf item (List.mem_of_mem_take hmem))
      hbytes (items[i].pushes (hwf _ (List.getElem_mem hi)))
    rw [List.length_take_of_le (Nat.le_of_lt hi)] at hslots
    exact hslots
  · intro h items' rest height hwf' hb hpushes
    obtain ⟨hi, hle⟩ := pushes_behind hwf hwf' hb hpushes
    exact Nat.lt_of_le_of_lt (Nat.add_le_add_left hle _) (h _ hi)

/-! ## How deep serializing goes -/

section Nests
variable {g : Heap}

mutual

/-- A table that is come to is one of those within each other. -/
theorem Item.Encodes.nests_lt : ∀ (item : Item) {offset depth : Nat} {v : LuaValue},
    item.Encodes g v → Nests g offset v depth → depth < item.nesting
  | .nil, _, _, _, h, hnests => by
    rw [show _ = LuaValue.nil from h] at hnests
    cases hnests
  | .boolean _, _, _, _, h, hnests => by
    obtain ⟨b, rfl, _⟩ := h
    cases hnests
  | .integer n, _, _, _, h, hnests => by
    rw [show _ = LuaValue.integer n from h] at hnests
    cases hnests
  | .number bits, _, _, _, h, hnests => by
    rw [show _ = LuaValue.number bits from h] at hnests
    cases hnests
  | .string bytes, _, _, _, h, hnests => by
    rw [show _ = LuaValue.string bytes from h] at hnests
    cases hnests
  | .table entries, _, _, _, h, hnests => by
    obtain ⟨address, t, rfl, ht, hentries⟩ := h
    cases hnests with
    | here => exact Nat.succ_pos _
    | inside _ ht' hin =>
      rw [ht] at ht'
      cases ht'
      exact Nat.succ_lt_succ (Entries.Encode.nests_lt entries hentries hin)

theorem Entries.Encode.nests_lt : ∀ (entries : Entries) {offset depth : Nat}
    {pairs : List (LuaValue × LuaValue)}, entries.Encode g pairs → NestsIn g offset pairs depth →
    depth < entries.nesting
  | .nil, _, _, _, h, hnests => by
    rw [show _ = [] from h] at hnests
    cases hnests
  | .cons key value entries, _, _, _, h, hnests => by
    obtain ⟨k, v, rest, rfl, hk, hv, hrest⟩ := h
    rw [Entries.nesting]
    cases hnests with
    | key h =>
      have hlt := Item.Encodes.nests_lt key hk h
      omega
    | value _ _ h =>
      have hlt := Item.Encodes.nests_lt value hv h
      omega
    | later _ _ _ h =>
      have hlt := Entries.Encode.nests_lt entries hrest h
      omega

end

/-- What fits is written in full. -/
theorem Item.ending_of_fits {item : Item} {offset : Nat}
    (h : offset + item.bytes.length ≤ buffSize) : ending offset item.fields = .done ∧
      (item.fields.flatMap Field.copied).length = item.bytes.length := by
  rw [← item.bytes_fields] at h ⊢
  obtain ⟨hdone, hcopied⟩ := ScriptEngine.ending_of_fits h
  exact ⟨hdone, by rw [hcopied]⟩

mutual

/-- The innermost table is come to, where there is room for everything. -/
theorem Item.Encodes.nests : ∀ (item : Item) {offset depth : Nat} {v : LuaValue},
    item.Encodes g v → offset + item.bytes.length ≤ buffSize → item.nesting = depth + 1 →
    Nests g offset v depth
  | .nil, _, _, _, _, _, h | .boolean _, _, _, _, _, _, h | .integer _, _, _, _, _, _, h
  | .number _, _, _, _, _, _, h | .string _, _, _, _, _, _, h => by cases h
  | .table entries, offset, depth, _, h, hfits, hdepth => by
    obtain ⟨address, t, rfl, ht, hentries⟩ := h
    rw [Item.bytes, List.length_cons, Item.body] at hfits
    have hnesting : entries.nesting = depth := Nat.succ.inj hdepth
    cases depth with
    | zero => exact .here (by omega)
    | succ depth =>
      exact .inside (by omega) ht
        (Entries.Encode.nests entries hentries (by omega) hnesting)

theorem Entries.Encode.nests : ∀ (entries : Entries) {offset depth : Nat}
    {pairs : List (LuaValue × LuaValue)}, entries.Encode g pairs →
    offset + entries.bytes.length ≤ buffSize → entries.nesting = depth + 1 →
    NestsIn g offset pairs depth
  | .nil, _, _, _, _, _, h => by cases h
  | .cons key value entries, offset, depth, _, h, hfits, hdepth => by
    obtain ⟨k, v, rest, rfl, hk, hv, hrest⟩ := h
    have hlength : (Entries.cons key value entries).bytes.length =
        key.bytes.length + value.bytes.length + entries.bytes.length := by
      rw [Entries.bytes, List.length_append, List.length_append]
      rfl
    rw [hlength] at hfits
    rw [Entries.nesting] at hdepth
    obtain ⟨hkeyDone, hkeyLength⟩ :=
      Item.ending_of_fits (show offset + key.bytes.length ≤ buffSize by omega)
    obtain ⟨hvalueDone, hvalueLength⟩ := Item.ending_of_fits
      (show offset + key.bytes.length + value.bytes.length ≤ buffSize by omega)
    rw [← hkeyLength] at hvalueDone
    by_cases hkey : key.nesting = depth + 1
    · exact .key (Item.Encodes.nests key hk (by omega) hkey)
    by_cases hvalue : value.nesting = depth + 1
    · exact .value hk hkeyDone (Item.Encodes.nests value hv (by omega) hvalue)
    · refine .later hk hv (ending_append_done hkeyDone hvalueDone)
        (Entries.Encode.nests entries hrest ?_ (by omega))
      rw [List.flatMap_append, List.length_append]
      omega

end

theorem nestsAll_lt {vs : List LuaValue} {items : List Item}
    (h : List.Forall₂ (fun v (item : Item) => item.Encodes g v) vs items) {offset depth : Nat}
    (hnests : NestsAll g offset vs depth) : ∃ item ∈ items, depth < item.nesting := by
  induction h generalizing offset with
  | nil => cases hnests
  | cons hv _ ih =>
    cases hnests with
    | here h => exact ⟨_, List.mem_cons_self, Item.Encodes.nests_lt _ hv h⟩
    | later _ _ h =>
      obtain ⟨item, hmem, hlt⟩ := ih h
      exact ⟨item, List.mem_cons_of_mem _ hmem, hlt⟩

theorem nestsAll_of_nesting {vs : List LuaValue} {items : List Item}
    (h : List.Forall₂ (fun v (item : Item) => item.Encodes g v) vs items) {offset depth : Nat}
    (hfits : offset + (items.flatMap Item.bytes).length ≤ buffSize) {item : Item}
    (hmem : item ∈ items) (hdepth : item.nesting = depth + 1) : NestsAll g offset vs depth := by
  induction h generalizing offset with
  | nil => cases hmem
  | @cons v first vs items hv _ ih =>
    rw [List.flatMap_cons, List.length_append] at hfits
    obtain ⟨hdone, hlength⟩ :=
      Item.ending_of_fits (show offset + first.bytes.length ≤ buffSize by omega)
    cases List.mem_cons.mp hmem with
    | inl heq =>
      rw [heq] at hdepth
      exact .here (Item.Encodes.nests first hv (by omega) hdepth)
    | inr hmem => exact .later hv hdone (ih (by omega) hmem)

end Nests

/-- No table stands in ten others. -/
def Shallow (items : List Item) : Prop := ∀ item ∈ items, item.nesting ≤ 10

instance (items : List Item) : Decidable (Shallow items) :=
  inferInstanceAs (Decidable (∀ item ∈ items, item.nesting ≤ 10))

/-- Values that fit into the buffer are serialized on slots that are ensured exactly if no table
stands in ten others. -/
theorem lSerialize_shallow {heap : List Table} {vs : List LuaValue} {items : List Item}
    {memory : List UInt8}
    (h : List.Forall₂ (fun v (item : Item) => item.Encodes (lookup heap) v) vs items)
    (hsize : (items.flatMap Item.bytes).length ≤ buffSize) (hmemory : memory.length = buffSize)
    (s : SerializeStream) :
    Disciplined (results (lSerialize memory) ⟨.call vs heap, s⟩) ↔ Shallow items := by
  rw [lSerialize_disciplined hmemory]
  constructor
  · intro hdepths item hmem
    refine Nat.le_of_not_lt fun hdeep => ?_
    have hnests : NestsAll (lookup heap) 0 vs (item.nesting - 1) :=
      nestsAll_of_nesting h (by omega) hmem (by omega)
    have hlt := hdepths _ hnests
    omega
  · intro hshallow depth hnests
    obtain ⟨item, hmem, hlt⟩ := nestsAll_lt h hnests
    have hle := hshallow item hmem
    omega

end HyperNet.ScriptEngine
