import HyperNet.Core.Simulation
import HyperNet.Public.CycleQueue

/-! # The cyclic queue between two threads (CycleQueue.h)

One thread calls `Push`, another `Read`, without a lock: `_front` and `_tail` are `volatile`
and nothing else is. Here each access to memory is a step of its own. An element is copied word
by word, and a thread's stores go through a buffer that the processor empties in order, as on
x86: the other thread sees them late. `Push` can then find the queue full that is not full any
more, and `Read` find it empty that is not empty any more; what is read is whole all the same. -/
namespace HyperNet.Public
open HyperNet.Core HyperNet.Core.Transition

variable {ω : Type}

/-! ## The machine -/

/-- A store of the producer on its way to memory: word `k` of a slot, or `_tail`. -/
inductive QueueStore (ω : Type)
  | word (slot k : Nat) (x : ω)
  | tail (i : Nat)
  deriving DecidableEq

/-- `_queue`, word by word. -/
abbrev Slots (ω : Type) := Nat → Nat → ω

def Slots.set (slots : Slots ω) (i k : Nat) (x : ω) : Slots ω :=
  fun j l => if j = i ∧ l = k then x else slots j l

structure SharedQueue (ω : Type) where
  /-- `_queue`, `_front` and `_tail` in memory. -/
  slots : Slots ω
  memoryFront : Nat
  memoryTail : Nat
  /-- The producer: `_tail` as it has stored it, its store buffer, and the element that it is
  copying with the number of words stored. -/
  tail : Nat
  stores : List (QueueStore ω)
  pushing : Option (List ω × Nat)
  /-- The consumer: `_front` as it has stored it, its store buffer, and the words it has
  copied. -/
  front : Nat
  fronts : List Nat
  reading : Option (List ω)
  /-- What `Push` has put in and `Read` has given. -/
  accepted : List (List ω)
  taken : List (List ω)

inductive QueueAccess (ω : Type)
  /-- `Push` calls `IsFull`. -/
  | push (t : List ω)
  | store
  /-- `_tail = (_tail + 1) % _size`. -/
  | publish
  /-- The oldest store of the producer reaches memory. -/
  | commit
  /-- `Read` calls `IsEmpty`. -/
  | read
  | load
  /-- `_front = (_front + 1) % _size`. -/
  | advance
  /-- The oldest store of the consumer reaches memory. -/
  | retire
  deriving DecidableEq

namespace SharedQueue

/-- After the constructor; `MALLOC` leaves `junk` in the slots. -/
def create (junk : Slots ω) : SharedQueue ω where
  slots := junk
  memoryFront := 0
  memoryTail := 0
  tail := 0
  stores := []
  pushing := none
  front := 0
  fronts := []
  reading := none
  accepted := []
  taken := []

/-- `_front == (_tail + 1) % _size`, as the producer sees it. -/
def isFull (capacity : Nat) (s : SharedQueue ω) : Bool :=
  s.memoryFront == (s.tail + 1) % (capacity + 1)

/-- `_front == _tail`, as the consumer sees it. -/
def isEmpty (s : SharedQueue ω) : Bool := s.front == s.memoryTail

def commit (s : SharedQueue ω) : Option (SharedQueue ω) :=
  match s.stores with
  | [] => none
  | .word i k x :: stores => some { s with slots := s.slots.set i k x, stores }
  | .tail i :: stores => some { s with memoryTail := i, stores }

/-- One access, for elements of `width` words. -/
def step (capacity width : Nat) (s : SharedQueue ω) : QueueAccess ω → Option (SharedQueue ω)
  | .push t =>
    if s.pushing = none ∧ t.length = width then
      if s.isFull capacity then some s else some { s with pushing := some (t, 0) }
    else none
  | .store =>
    match s.pushing with
    | some (t, k) => t[k]?.map fun x => { s with
        stores := s.stores ++ [.word s.tail k x], pushing := some (t, k + 1) }
    | none => none
  | .publish =>
    match s.pushing with
    | some (t, k) =>
      if k = width then
        some { s with
          stores := s.stores ++ [.tail ((s.tail + 1) % (capacity + 1))]
          tail := (s.tail + 1) % (capacity + 1)
          pushing := none
          accepted := s.accepted ++ [t] }
      else none
    | none => none
  | .commit => s.commit
  | .read =>
    if s.reading = none then
      if s.isEmpty then some s else some { s with reading := some [] }
    else none
  | .load =>
    match s.reading with
    | some words =>
      if words.length < width then
        some { s with reading := some (words ++ [s.slots s.front words.length]) }
      else none
    | none => none
  | .advance =>
    match s.reading with
    | some words =>
      if words.length = width then
        some { s with
          fronts := s.fronts ++ [(s.front + 1) % (capacity + 1)]
          front := (s.front + 1) % (capacity + 1)
          reading := none
          taken := s.taken ++ [words] }
      else none
    | none => none
  | .retire =>
    match s.fronts with
    | [] => none
    | i :: fronts => some { s with memoryFront := i, fronts }

end SharedQueue

/-- The two threads on one queue. -/
def sharedQueue (capacity width : Nat) (junk : Slots ω) :
    System (SharedQueue ω) (QueueAccess ω) :=
  ⟨.create junk, SharedQueue.step capacity width⟩

/-! ## What is under way -/

/-- Slot `j` of the ring holds an element. -/
def Slots.Holds (n width : Nat) (slots : Slots ω) (t : List ω) (j : Nat) : Prop :=
  ∀ k < width, t[k]? = some (slots (j % n) k)

/-- Memory after the stores of a buffer. -/
def Slots.settle (slots : Slots ω) : List (QueueStore ω) → Slots ω
  | [] => slots
  | .word i k x :: stores => (slots.set i k x).settle stores
  | .tail _ :: stores => slots.settle stores

theorem Slots.settle_append (slots : Slots ω) (ss ss' : List (QueueStore ω)) :
    slots.settle (ss ++ ss') = (slots.settle ss).settle ss' := by
  induction ss generalizing slots with
  | nil => rfl
  | cons s ss ih => cases s <;> exact ih _

/-- The word that is stored. -/
theorem Slots.set_self (slots : Slots ω) (i k : Nat) (x : ω) : slots.set i k x i k = x := by
  simp [set]

/-- Another word. -/
theorem Slots.set_of_ne (slots : Slots ω) {i k j l : Nat} (x : ω) (h : j ≠ i ∨ l ≠ k) :
    slots.set i k x j l = slots j l := by
  rw [set, if_neg (by omega)]

section
variable {n width front published : Nat} {slots : Slots ω} {stores : List (QueueStore ω)}
  {accepted : List (List ω)}

/-- The buffer of the producer, from a memory in which `published` elements are to be seen: no
store touches a slot that holds one which is not read, and before `_tail` moves on, the slot it
passes holds the next element. -/
def Pending (n width front : Nat) (accepted : List (List ω)) :
    Slots ω → Nat → List (QueueStore ω) → Prop
  | _, published, [] => published = accepted.length
  | slots, published, .word i k x :: stores =>
    (∀ j, front ≤ j → j < published → j % n ≠ i) ∧
      Pending n width front accepted (slots.set i k x) published stores
  | slots, published, .tail i :: stores =>
    (i = (published + 1) % n ∧ ∃ t, accepted[published]? = some t ∧
      slots.Holds n width t published) ∧
      Pending n width front accepted slots (published + 1) stores

namespace Pending

theorem le_length (h : Pending n width front accepted slots published stores) :
    published ≤ accepted.length := by
  induction stores generalizing slots published with
  | nil => exact Nat.le_of_eq h
  | cons s ss ih =>
    cases s with
    | word => exact ih h.2
    | tail => exact Nat.le_of_succ_le (ih h.2)

/-- The consumer gives a slot free. -/
theorem advance (h : Pending n width front accepted slots published stores) :
    Pending n width (front + 1) accepted slots published stores := by
  induction stores generalizing slots published with
  | nil => exact h
  | cons s ss ih =>
    cases s with
    | word => exact ⟨fun j hj => h.1 j (by omega), ih h.2⟩
    | tail => exact ⟨h.1, ih h.2⟩

/-- A store into a slot that holds no element. -/
theorem store (h : Pending n width front accepted slots published stores) {i k : Nat} (x : ω)
    (hi : ∀ j, front ≤ j → j < accepted.length → j % n ≠ i) :
    Pending n width front accepted slots published (stores ++ [.word i k x]) := by
  induction stores generalizing slots published with
  | nil =>
    have h : published = accepted.length := h
    exact ⟨fun j hj hlt => hi j hj (h ▸ hlt), h⟩
  | cons s ss ih =>
    cases s with
    | word => exact ⟨h.1, ih h.2⟩
    | tail => exact ⟨h.1, ih h.2⟩

/-- `_tail` moves past a slot that has been filled. -/
theorem publish (h : Pending n width front accepted slots published stores) {t : List ω}
    (ht : (slots.settle stores).Holds n width t accepted.length) :
    Pending n width front (accepted ++ [t]) slots published
      (stores ++ [.tail ((accepted.length + 1) % n)]) := by
  induction stores generalizing slots published with
  | nil =>
    have h : published = accepted.length := h
    subst h
    exact ⟨⟨rfl, t, by simp, ht⟩, by simp [Pending]⟩
  | cons s ss ih =>
    cases s with
    | word => exact ⟨h.1, ih h.2 ht⟩
    | tail =>
      obtain ⟨⟨hi, u, hu, hold⟩, hrest⟩ := h
      refine ⟨⟨hi, u, ?_, hold⟩, ih hrest ht⟩
      rw [List.getElem?_append_left (List.getElem?_eq_some_iff.mp hu).1]
      exact hu

/-- No store is under way to a slot that the consumer may be reading. -/
theorem slot_ne (h : Pending n width front accepted slots published stores)
    (hf : front < published) {i k : Nat} {x : ω} (hm : .word i k x ∈ stores) : front % n ≠ i := by
  induction stores generalizing slots published with
  | nil => cases hm
  | cons s ss ih =>
    cases s with
    | word i' k' x' =>
      rcases List.mem_cons.mp hm with he | hm
      · cases he
        exact h.1 front (Nat.le_refl front) hf
      · exact ih h.2 hf hm
    | tail i' =>
      rcases List.mem_cons.mp hm with he | hm
      · cases he
      · exact ih h.2 (by omega) hm

end Pending
end

/-! ## The invariant -/

namespace SharedQueue

/-- The indices are those of running counts: `published` elements are to be seen in memory, and
`retired` slots are free there. -/
structure Consistent (capacity width : Nat) (s : SharedQueue ω) (published retired : Nat) :
    Prop where
  memoryTail : s.memoryTail = published % (capacity + 1)
  memoryFront : s.memoryFront = retired % (capacity + 1)
  tail : s.tail = s.accepted.length % (capacity + 1)
  front : s.front = s.taken.length % (capacity + 1)
  fronts : s.fronts = (List.range' (retired + 1) s.fronts.length).map (· % (capacity + 1))
  count : retired + s.fronts.length = s.taken.length
  read_le : s.taken.length ≤ published
  fits : s.accepted.length ≤ retired + capacity
  room : s.pushing ≠ none → s.accepted.length < retired + capacity
  reading : s.reading ≠ none → s.taken.length < published
  held : ∀ j, s.taken.length ≤ j → j < published → ∃ t, s.accepted[j]? = some t ∧
    s.slots.Holds (capacity + 1) width t j
  pending : Pending (capacity + 1) width s.taken.length s.accepted s.slots published s.stores
  taken : s.taken <+: s.accepted
  size : ∀ t ∈ s.accepted, t.length = width
  copying : ∀ t k, s.pushing = some (t, k) → t.length = width ∧ ∀ i < k,
    t[i]? = some (s.slots.settle s.stores (s.accepted.length % (capacity + 1)) i)
  copied : ∀ words, s.reading = some words → ∃ t, s.accepted[s.taken.length]? = some t ∧
    words = t.take words.length ∧ words.length ≤ width

namespace Consistent
variable {capacity width published retired : Nat} {s s' : SharedQueue ω} {l : QueueAccess ω}

theorem create (capacity width : Nat) (junk : Slots ω) :
    Consistent capacity width (create junk) 0 0 where
  memoryTail := (Nat.zero_mod _).symm
  memoryFront := (Nat.zero_mod _).symm
  tail := (Nat.zero_mod _).symm
  front := (Nat.zero_mod _).symm
  fronts := rfl
  count := rfl
  read_le := Nat.le_refl 0
  fits := Nat.zero_le _
  room h := absurd rfl h
  reading h := absurd rfl h
  held j _ hj := absurd hj (Nat.not_lt_zero j)
  pending := rfl
  taken := List.prefix_rfl
  size t ht := absurd ht List.not_mem_nil
  copying t k h := by cases h
  copied words h := by cases h

theorem published_le (h : s.Consistent capacity width published retired) :
    published ≤ s.accepted.length := h.pending.le_length

/-- Indices less than the size of the ring apart are different. -/
theorem mod_ne {n i j : Nat} (hij : i < j) (hj : j < i + n) : i % n ≠ j % n := by
  intro he
  have hzero := Nat.sub_mod_eq_zero_of_mod_eq he.symm
  rw [Nat.mod_eq_of_lt (by omega)] at hzero
  omega

/-- `IsFull` counts the elements whose removal is not to be seen yet. -/
theorem isFull_iff (h : s.Consistent capacity width published retired) :
    s.isFull capacity = true ↔ s.accepted.length = retired + capacity := by
  have hle := h.read_le
  have hpub := h.published_le
  have hret := h.count
  have hfits := h.fits
  rw [isFull, h.memoryFront, h.tail, Nat.mod_add_mod, beq_iff_eq]
  constructor
  · intro he
    by_contra hne
    exact mod_ne (n := capacity + 1) (i := retired) (by omega) (by omega) he
  · intro he
    rw [he, Nat.add_assoc, Nat.add_mod_right]

/-- `IsEmpty` counts the elements that are to be seen. -/
theorem isEmpty_iff (h : s.Consistent capacity width published retired) :
    s.isEmpty = true ↔ s.taken.length = published := by
  have hle := h.read_le
  have hpub := h.published_le
  have hret := h.count
  have hfits := h.fits
  rw [isEmpty, h.memoryTail, h.front, beq_iff_eq]
  constructor
  · intro he
    by_contra hne
    exact mod_ne (n := capacity + 1) (i := s.taken.length) (by omega) (by omega) he
  · intro he
    rw [he]

/-! ### The producer -/

/-- The slot behind the last element is read by nobody. -/
theorem free (h : s.Consistent capacity width published retired)
    (hroom : s.accepted.length < retired + capacity) :
    ∀ j, s.taken.length ≤ j → j < s.accepted.length →
      j % (capacity + 1) ≠ s.accepted.length % (capacity + 1) := by
  intro j hj hlt
  have := h.count
  exact mod_ne hlt (by omega)

theorem push (h : s.Consistent capacity width published retired) {t : List ω}
    (ht : t.length = width) (hf : s.isFull capacity = false) :
    Consistent capacity width { s with pushing := some (t, 0) } published retired :=
  { h with
    room := fun _ => by
      have hne : s.accepted.length ≠ retired + capacity := fun he => by
        rw [h.isFull_iff.mpr he] at hf
        cases hf
      exact Nat.lt_of_le_of_ne h.fits hne
    copying := fun t' k he => by
      cases he
      exact ⟨ht, fun i hi => absurd hi (Nat.not_lt_zero i)⟩ }

theorem store (h : s.Consistent capacity width published retired) {t : List ω} {k : Nat} {x : ω}
    (hp : s.pushing = some (t, k)) (hx : t[k]? = some x) :
    Consistent capacity width { s with
      stores := s.stores ++ [.word s.tail k x], pushing := some (t, k + 1) } published retired := by
  have hroom : s.accepted.length < retired + capacity :=
    h.room (by rw [hp]; exact Option.some_ne_none _)
  obtain ⟨ht, hwords⟩ := h.copying t k hp
  refine { h with
    room := fun _ => hroom
    pending := h.pending.store x fun j hj hlt => by rw [h.tail]; exact h.free hroom j hj hlt
    copying := fun t' k' he => ?_ }
  cases he
  refine ⟨ht, fun i hi => ?_⟩
  rw [Slots.settle_append, h.tail]
  show _ = some ((s.slots.settle s.stores).set _ _ _ _ _)
  rcases Nat.lt_succ_iff_lt_or_eq.mp hi with hlt | rfl
  · rw [Slots.set_of_ne _ _ (.inr (Nat.ne_of_lt hlt))]
    exact hwords i hlt
  · rw [Slots.set_self]
    exact hx

theorem publish (h : s.Consistent capacity width published retired) {t : List ω}
    (hp : s.pushing = some (t, width)) :
    Consistent capacity width { s with
      stores := s.stores ++ [.tail ((s.tail + 1) % (capacity + 1))]
      tail := (s.tail + 1) % (capacity + 1)
      pushing := none
      accepted := s.accepted ++ [t] } published retired := by
  have hroom : s.accepted.length < retired + capacity :=
    h.room (by rw [hp]; exact Option.some_ne_none _)
  obtain ⟨ht, hwords⟩ := h.copying t width hp
  have htail : (s.tail + 1) % (capacity + 1) = (s.accepted.length + 1) % (capacity + 1) := by
    rw [h.tail, Nat.mod_add_mod]
  have hlater : ∀ {j : Nat} {u : List ω}, s.accepted[j]? = some u → (s.accepted ++ [t])[j]? = some u := by
    intro j u hu
    rw [List.getElem?_append_left (List.getElem?_eq_some_iff.mp hu).1]
    exact hu
  refine { h with
    tail := by rw [htail, List.length_append]; rfl
    fits := by rw [List.length_append]; exact hroom
    room := fun hne => absurd rfl hne
    held := fun j hj hlt => ?_
    pending := htail ▸ h.pending.publish hwords
    taken := h.taken.trans (List.prefix_append _ _)
    size := fun u hu => ?_
    copying := fun _ _ he => by cases he
    copied := fun words he => ?_ }
  · obtain ⟨u, hu, hold⟩ := h.held j hj hlt
    exact ⟨u, hlater hu, hold⟩
  · rcases List.mem_append.mp hu with hu | hu
    · exact h.size u hu
    · rw [List.mem_singleton.mp hu]
      exact ht
  · obtain ⟨u, hu, hcopied⟩ := h.copied words he
    exact ⟨u, hlater hu, hcopied⟩

/-- A store reaches memory. -/
theorem commit (h : s.Consistent capacity width published retired) (hs : s.commit = some s') :
    ∃ published', s'.Consistent capacity width published' retired := by
  have hpending := h.pending
  have hcopying := h.copying
  unfold SharedQueue.commit at hs
  split at hs
  · cases hs
  · next i k x stores he =>
    cases hs
    rw [he] at hpending hcopying
    refine ⟨published, { h with
      held := fun j hj hlt => ?_
      pending := hpending.2
      copying := hcopying }⟩
    obtain ⟨t, ht, hold⟩ := h.held j hj hlt
    refine ⟨t, ht, fun l hl => ?_⟩
    show _ = some (s.slots.set i k x _ _)
    rw [Slots.set_of_ne _ _ (.inl (hpending.1 j hj hlt))]
    exact hold l hl
  · next i stores he =>
    cases hs
    rw [he] at hpending hcopying
    obtain ⟨⟨hi, t, ht, hold⟩, hrest⟩ := hpending
    refine ⟨published + 1, { h with
      memoryTail := hi
      read_le := Nat.le_succ_of_le h.read_le
      reading := fun hne => Nat.lt_succ_of_lt (h.reading hne)
      held := fun j hj hlt => ?_
      pending := hrest
      copying := hcopying }⟩
    rcases Nat.lt_succ_iff_lt_or_eq.mp hlt with hlt | rfl
    · exact h.held j hj hlt
    · exact ⟨t, ht, hold⟩

/-! ### The consumer -/

theorem read (h : s.Consistent capacity width published retired) (he : s.isEmpty = false) :
    Consistent capacity width { s with reading := some [] } published retired := by
  have hlt : s.taken.length < published := by
    refine Nat.lt_of_le_of_ne h.read_le fun heq => ?_
    rw [h.isEmpty_iff.mpr heq] at he
    cases he
  refine { h with
    reading := fun _ => hlt
    copied := fun words hw => ?_ }
  cases hw
  obtain ⟨t, ht, _⟩ := h.held s.taken.length (Nat.le_refl _) hlt
  exact ⟨t, ht, rfl, Nat.zero_le _⟩

theorem load (h : s.Consistent capacity width published retired) {words : List ω}
    (hr : s.reading = some words) (hw : words.length < width) :
    Consistent capacity width { s with
      reading := some (words ++ [s.slots s.front words.length]) } published retired := by
  have hlt : s.taken.length < published := h.reading (by rw [hr]; exact Option.some_ne_none _)
  obtain ⟨t, ht, hcopied, _⟩ := h.copied words hr
  obtain ⟨u, hu, hold⟩ := h.held s.taken.length (Nat.le_refl _) hlt
  cases ht.symm.trans hu
  refine { h with
    reading := fun _ => hlt
    copied := fun words' hw' => ?_ }
  cases hw'
  refine ⟨t, ht, ?_, ?_⟩
  · rw [List.length_append, List.length_singleton, List.take_add_one, ← hcopied, h.front,
      hold words.length hw]
    rfl
  · rw [List.length_append]
    exact hw

theorem advance (h : s.Consistent capacity width published retired) {words : List ω}
    (hr : s.reading = some words) (hw : words.length = width) :
    s.accepted[s.taken.length]? = some words ∧ Consistent capacity width { s with
      fronts := s.fronts ++ [(s.front + 1) % (capacity + 1)]
      front := (s.front + 1) % (capacity + 1)
      reading := none
      taken := s.taken ++ [words] } published retired := by
  have hlt : s.taken.length < published := h.reading (by rw [hr]; exact Option.some_ne_none _)
  obtain ⟨t, ht, hcopied, _⟩ := h.copied words hr
  have hsize := h.size t (List.mem_of_getElem? ht)
  rw [hw, ← hsize, List.take_length] at hcopied
  subst hcopied
  have hfront : (s.front + 1) % (capacity + 1) = (s.taken.length + 1) % (capacity + 1) := by
    rw [h.front, Nat.mod_add_mod]
  have hcount := h.count
  refine ⟨ht, { h with
    front := by rw [hfront, List.length_append]; rfl
    fronts := ?_
    count := by simp only [List.length_append, List.length_singleton]; omega
    read_le := by rw [List.length_append]; exact hlt
    reading := fun hne => absurd rfl hne
    held := fun j hj hj' => h.held j (by rw [List.length_append] at hj; omega) hj'
    pending := by rw [List.length_append]; exact h.pending.advance
    taken := ?_
    copied := fun _ he => by cases he }⟩
  · rw [List.length_append, List.length_singleton, List.range'_concat, List.map_append, ← h.fronts,
      hfront]
    simp only [List.map_cons, List.map_nil]
    congr 3
    omega
  · obtain ⟨rest, hrest⟩ := h.taken
    rw [← hrest, List.getElem?_append_right (Nat.le_refl _), Nat.sub_self] at ht
    cases rest with
    | nil => cases ht
    | cons u rest =>
      cases ht
      exact ⟨rest, by rw [← hrest, List.append_assoc]; rfl⟩

theorem retire (h : s.Consistent capacity width published retired) {i : Nat} {fronts : List Nat}
    (hf : s.fronts = i :: fronts) :
    Consistent capacity width { s with memoryFront := i, fronts } published (retired + 1) := by
  have hfronts := h.fronts
  have hcount := h.count
  have hfits := h.fits
  rw [hf, List.length_cons, List.range'_succ, List.map_cons] at hfronts
  rw [hf, List.length_cons] at hcount
  obtain ⟨hi, hrest⟩ := List.cons.inj hfronts
  exact { h with
    memoryFront := hi
    fronts := hrest
    count := (by omega : retired + 1 + fronts.length = s.taken.length)
    fits := (by omega : s.accepted.length ≤ retired + 1 + capacity)
    room := fun hne => Nat.lt_of_lt_of_le (h.room hne) (by omega) }

/-! ### A step -/

theorem step (h : s.Consistent capacity width published retired)
    (hs : s.step capacity width l = some s') :
    ∃ published' retired', s'.Consistent capacity width published' retired' := by
  cases l with
  | push t =>
    simp only [SharedQueue.step] at hs
    split at hs
    · next hp =>
      split at hs
      · cases hs
        exact ⟨_, _, h⟩
      · next hf =>
        cases hs
        exact ⟨_, _, h.push hp.2 (by simpa using hf)⟩
    · cases hs
  | store =>
    simp only [SharedQueue.step] at hs
    split at hs
    · next t k hp =>
      obtain ⟨x, hx, rfl⟩ := Option.map_eq_some_iff.mp hs
      exact ⟨_, _, h.store hp hx⟩
    · cases hs
  | publish =>
    simp only [SharedQueue.step] at hs
    split at hs
    · next t k hp =>
      split at hs
      · next hk =>
        cases hs
        exact ⟨_, _, h.publish (hk ▸ hp)⟩
      · cases hs
    · cases hs
  | commit =>
    obtain ⟨published', h'⟩ := h.commit hs
    exact ⟨published', _, h'⟩
  | read =>
    simp only [SharedQueue.step] at hs
    split at hs
    · split at hs
      · cases hs
        exact ⟨_, _, h⟩
      · next he =>
        cases hs
        exact ⟨_, _, h.read (by simpa using he)⟩
    · cases hs
  | load =>
    simp only [SharedQueue.step] at hs
    split at hs
    · next words hr =>
      split at hs
      · next hw =>
        cases hs
        exact ⟨_, _, h.load hr hw⟩
      · cases hs
    · cases hs
  | advance =>
    simp only [SharedQueue.step] at hs
    split at hs
    · next words hr =>
      split at hs
      · next hw =>
        cases hs
        exact ⟨_, _, (h.advance hr hw).2⟩
      · cases hs
    · cases hs
  | retire =>
    simp only [SharedQueue.step] at hs
    split at hs
    · cases hs
    · next i fronts hf =>
      cases hs
      exact ⟨_, _, h.retire hf⟩

end Consistent

variable {capacity width : Nat} {junk : Slots ω} {s s' : SharedQueue ω} {l : QueueAccess ω}

theorem consistent (h : (sharedQueue capacity width junk).Reachable s) :
    ∃ published retired, s.Consistent capacity width published retired :=
  h.invariant (I := fun s => ∃ published retired, s.Consistent capacity width published retired)
    ⟨0, 0, .create capacity width junk⟩ fun _ _ _ _ ⟨_, _, ih⟩ hs => ih.step hs

/-! ## The queue of one thread -/

/-- The ring as it stands in memory. -/
def ring (capacity width : Nat) (s : SharedQueue ω) : CycleQueue (List ω) where
  size := capacity + 1
  queue := .ofFn fun i => .ofFn fun k : Fin width => s.slots i k
  front := s.memoryFront % (capacity + 1)
  tail := s.memoryTail % (capacity + 1)
  front_lt := Nat.mod_lt _ (Nat.succ_pos _)
  tail_lt := Nat.mod_lt _ (Nat.succ_pos _)

theorem dist_mod {n i j : Nat} (hij : i ≤ j) (hj : j < i + n) :
    Ring.dist n (i % n) (j % n) = j - i := by
  have hn : 0 < n := by omega
  have hi := Nat.mod_lt i hn
  refine Ring.slot_injective hi (Ring.dist_lt hi _) (by omega) ?_
  rw [Ring.slot_dist hi (Nat.mod_lt j hn), Nat.mod_add_mod, Nat.add_sub_cancel' hij]

/-- With all stores in memory, the ring holds what has been put in and not taken. -/
theorem Consistent.toList_ring {published retired : Nat}
    (h : s.Consistent capacity width published retired) (hs : s.stores = []) (hf : s.fronts = []) :
    (s.ring capacity width).toList = s.accepted.drop s.taken.length := by
  have hpub : published = s.accepted.length := by
    have := h.pending
    rwa [hs] at this
  have hret : retired = s.taken.length := by
    have := h.count
    rwa [hf, List.length_nil, Nat.add_zero] at this
  have hle := h.read_le
  have hfits := h.fits
  have hdist : Ring.dist (capacity + 1) (s.memoryFront % (capacity + 1))
      (s.memoryTail % (capacity + 1)) = s.accepted.length - s.taken.length := by
    rw [h.memoryFront, h.memoryTail, Nat.mod_mod, Nat.mod_mod, hpub, hret]
    exact dist_mod (by omega) (by omega)
  refine List.ext_getElem? fun i => ?_
  rw [CycleQueue.toList, show Ring.dist (s.ring capacity width).size (s.ring capacity width).front
    (s.ring capacity width).tail = _ from hdist, List.getElem?_map, List.getElem?_drop]
  by_cases hi : i < s.accepted.length - s.taken.length
  · obtain ⟨t, ht, hold⟩ := h.held (s.taken.length + i) (by omega) (by omega)
    rw [List.getElem?_range hi, ht, Option.map_some]
    have hsize := h.size t (List.mem_of_getElem? ht)
    have hslot : (s.memoryFront % (capacity + 1) + i) % (capacity + 1) =
        (s.taken.length + i) % (capacity + 1) := by
      rw [h.memoryFront, Nat.mod_mod, Nat.mod_add_mod, hret]
    have hget : (s.ring capacity width).slot i =
        List.ofFn fun k : Fin width => s.slots ((s.taken.length + i) % (capacity + 1)) k := by
      rw [← hslot]
      exact Vector.getElem_ofFn (Nat.mod_lt _ (Nat.succ_pos _))
    rw [hget]
    congr 1
    refine List.ext_getElem? fun k => ?_
    by_cases hk : k < width
    · rw [hold k hk, List.getElem?_ofFn, dif_pos hk]
    · rw [List.getElem?_eq_none (by simpa using hk), List.getElem?_eq_none (by omega)]
  · rw [List.getElem?_eq_none (by simpa using hi), List.getElem?_eq_none (by omega)]
    rfl

end SharedQueue

/-! ## What the two threads do is what one could do -/

inductive QueueMove (α : Type)
  | push (t : α)
  | read (t : α)
  deriving DecidableEq

/-- `Push` on a queue that is not full, or a `Read` that gives `t`. -/
def CycleQueue.move {α : Type} [DecidableEq α] (q : CycleQueue α) :
    QueueMove α → Option (CycleQueue α)
  | .push t => if q.isFull then none else some (q.push t)
  | .read t => q.read.bind fun (u, q) => if u = t then some q else none

/-- The queue of one thread. -/
def sequentialQueue (α : Type) [Inhabited α] [DecidableEq α] (capacity : Nat) :
    System (CycleQueue α) (QueueMove α) :=
  ⟨.create capacity, CycleQueue.move⟩

namespace SharedQueue
variable {capacity width : Nat} {junk : Slots ω} {s s' : SharedQueue ω} {l : QueueAccess ω}

/-- `Push` takes effect when the producer stores `_tail`, `Read` when the consumer stores
`_front`. -/
def act (s : SharedQueue ω) : QueueAccess ω → Option (QueueMove (List ω))
  | .publish => s.pushing.map fun (t, _) => .push t
  | .advance => s.reading.map .read
  | _ => none

/-- The queue of one thread holds what has been put in and not taken. -/
structure Represented (capacity width : Nat) (s : SharedQueue ω) (q : CycleQueue (List ω)) :
    Prop where
  consistent : ∃ published retired, s.Consistent capacity width published retired
  toList : q.toList = s.accepted.drop s.taken.length
  capacity : q.capacity = capacity

theorem act_none (hs : s.step capacity width l = some s') (ha : s.act l = none) :
    s'.accepted = s.accepted ∧ s'.taken = s.taken := by
  cases l with
  | push t =>
    simp only [step] at hs
    split at hs
    · split at hs <;> cases hs <;> exact ⟨rfl, rfl⟩
    · cases hs
  | store =>
    simp only [step] at hs
    split at hs
    · obtain ⟨_, _, rfl⟩ := Option.map_eq_some_iff.mp hs
      exact ⟨rfl, rfl⟩
    · cases hs
  | publish =>
    have hp : s.pushing = none := Option.map_eq_none_iff.mp ha
    simp [step, hp] at hs
  | commit =>
    simp only [step, commit] at hs
    split at hs <;> cases hs <;> exact ⟨rfl, rfl⟩
  | read =>
    simp only [step] at hs
    split at hs
    · split at hs <;> cases hs <;> exact ⟨rfl, rfl⟩
    · cases hs
  | load =>
    simp only [step] at hs
    split at hs
    · split at hs
      · cases hs
        exact ⟨rfl, rfl⟩
      · cases hs
    · cases hs
  | advance =>
    have hr : s.reading = none := Option.map_eq_none_iff.mp ha
    simp [step, hr] at hs
  | retire =>
    simp only [step] at hs
    split at hs <;> cases hs
    exact ⟨rfl, rfl⟩

variable [DecidableEq ω]

theorem Represented.publish {q : CycleQueue (List ω)} (h : s.Represented capacity width q)
    (hs : s.step capacity width .publish = some s') {m : QueueMove (List ω)}
    (ha : s.act .publish = some m) : ∃ r, q.move m = some r ∧ s'.Represented capacity width r := by
  obtain ⟨⟨published, retired, hc⟩, hlist, hcap⟩ := h
  obtain ⟨published', retired', hc'⟩ := hc.step hs
  obtain ⟨⟨t, k⟩, hp, rfl⟩ := Option.map_eq_some_iff.mp ha
  have hroom : s.accepted.length < retired + capacity :=
    hc.room (by rw [hp]; exact Option.some_ne_none _)
  have hcount := hc.count
  have hle := hc.taken.length_le
  have hlt : q.toList.length < q.capacity := by
    rw [hlist, List.length_drop, hcap]
    omega
  have hfull : q.isFull = false := by
    rw [Bool.eq_false_iff, Ne, CycleQueue.isFull_iff]
    omega
  refine ⟨q.push t, by rw [CycleQueue.move, hfull]; rfl, ⟨⟨_, _, hc'⟩, ?_, ?_⟩⟩
  · simp only [step, hp] at hs
    split at hs
    · cases hs
      rw [CycleQueue.toList_push t hlt, hlist, List.drop_append_of_le_length hle]
    · cases hs
  · rw [CycleQueue.capacity_push, hcap]

theorem Represented.advance {q : CycleQueue (List ω)} (h : s.Represented capacity width q)
    (hs : s.step capacity width .advance = some s') {m : QueueMove (List ω)}
    (ha : s.act .advance = some m) : ∃ r, q.move m = some r ∧ s'.Represented capacity width r := by
  obtain ⟨⟨published, retired, hc⟩, hlist, hcap⟩ := h
  obtain ⟨published', retired', hc'⟩ := hc.step hs
  obtain ⟨words, hr, rfl⟩ := Option.map_eq_some_iff.mp ha
  simp only [step, hr] at hs
  split at hs
  · next hw =>
    cases hs
    have hhead := (hc.advance hr hw).1
    obtain ⟨hlt, hget⟩ := List.getElem?_eq_some_iff.mp hhead
    rw [List.drop_eq_getElem_cons hlt, hget] at hlist
    obtain ⟨r, hread, hrest⟩ := CycleQueue.read_of_toList hlist
    refine ⟨r, by simp [CycleQueue.move, hread], ⟨⟨_, _, hc'⟩, ?_, ?_⟩⟩
    · rw [hrest, List.length_append]
      rfl
    · rw [CycleQueue.capacity_read hread, hcap]
  · cases hs

/-- Every run of the two threads is one of a single thread. -/
theorem simulates (capacity width : Nat) (junk : Slots ω) :
    Simulates (sharedQueue capacity width junk) (fun _ _ => True)
      (sequentialQueue (List ω) capacity) (fun _ _ => True) act (Represented capacity width) where
  init := ⟨⟨0, 0, .create capacity width junk⟩, CycleQueue.toList_create capacity,
    CycleQueue.capacity_create capacity⟩
  silent := by
    rintro s q l s' ⟨⟨_, _, hc⟩, hlist, hcap⟩ _ hs ha
    obtain ⟨hacc, htaken⟩ := act_none hs ha
    exact ⟨hc.step hs |>.imp fun _ h => h, by rw [hacc, htaken]; exact hlist, hcap⟩
  step := by
    intro s q l s' m h _ hs ha
    refine ⟨trivial, ?_⟩
    cases l with
    | publish => exact h.publish hs ha
    | advance => exact h.advance hs ha
    | push | store | commit | read | load | retire => cases ha

end SharedQueue

/-- **No lock is needed.** Whatever the interleaving of the two threads, and however late the
stores of each reach the other, the elements that `Push` puts in and `Read` gives are those of one
thread that calls both on the queue of `CycleQueue`, in an order that each of the threads sees;
what it has then is what has been put in and not taken. -/
theorem shared_queue_sequential [DecidableEq ω] {capacity width : Nat} {junk : Slots ω}
    {accesses : List (QueueAccess ω)} {s : SharedQueue ω}
    (h : (sharedQueue capacity width junk).exec (fun _ _ => True) (.create junk) accesses = some s) :
    ∃ q, (sequentialQueue (List ω) capacity).exec (fun _ _ => True) (.create capacity)
        ((sharedQueue capacity width junk).acts SharedQueue.act (.create junk) accesses) = some q ∧
      q.toList = s.accepted.drop s.taken.length := by
  obtain ⟨q, hq, hr⟩ := (SharedQueue.simulates capacity width junk).exec
    (SharedQueue.simulates capacity width junk).init h
  exact ⟨q, hq, hr.toList⟩

/-- One slot, two words. The consumer looks too early once, the producer is told that the queue
is full although its element has been taken, and the slot is used twice. -/
def SharedQueue.handover : List (QueueAccess Nat) :=
  [.push [1, 2], .store, .store, .publish, .commit, .commit, .read, .commit, .read, .load, .load,
    .advance, .push [3, 4], .retire, .push [5, 6], .store, .store, .publish]

theorem shared_queue_sequential_two : ∃ (s : SharedQueue Nat) (q : CycleQueue (List Nat)),
    s.accepted = [[1, 2], [5, 6]] ∧ s.taken = [[1, 2]] ∧
    (sequentialQueue (List Nat) 1).exec (fun _ _ => True) (.create 1)
      [.push [1, 2], .read [1, 2], .push [5, 6]] = some q ∧
    q.toList = s.accepted.drop s.taken.length := by
  have hrun : ((sharedQueue 1 2 fun _ _ => 0).exec (fun _ _ => True) (.create fun _ _ => 0)
      SharedQueue.handover).map (fun s => (s.accepted, s.taken)) =
        some ([[1, 2], [5, 6]], [[1, 2]]) := by decide
  obtain ⟨s, hs, hparts⟩ := Option.map_eq_some_iff.mp hrun
  obtain ⟨q, hq, hlist⟩ := shared_queue_sequential hs
  have hmoves : (sharedQueue 1 2 fun _ _ => 0).acts SharedQueue.act (.create fun _ _ => 0)
      SharedQueue.handover = [.push [1, 2], .read [1, 2], .push [5, 6]] := by decide
  rw [hmoves] at hq
  exact ⟨s, q, congrArg Prod.fst hparts, congrArg Prod.snd hparts, hq, hlist⟩

def QueueStore.isTail : QueueStore ω → Bool
  | .word _ _ _ => false
  | .tail _ => true

theorem Pending.length_eq {n width front published : Nat} {slots : Slots ω}
    {stores : List (QueueStore ω)} {accepted : List (List ω)}
    (h : Pending n width front accepted slots published stores) :
    accepted.length = published + stores.countP QueueStore.isTail := by
  induction stores generalizing slots published with
  | nil => exact Eq.symm h
  | cons s ss ih =>
    cases s with
    | word => exact ih h.2
    | tail =>
      rw [List.countP_cons_of_pos rfl, ih h.2]
      omega

/-- **Elements are whole.** What has been read are the first elements that have been put in, word
for word, and never more than `capacity` are unread. While the consumer copies a slot, the producer
neither copies into it nor has a store to it under way. `IsFull` and `IsEmpty` lag behind by the
stores of the other thread that have not reached memory; when all have, the ring is the queue. -/
theorem shared_queue_whole {capacity width : Nat} {junk : Slots ω} {s : SharedQueue ω}
    (h : (sharedQueue capacity width junk).Reachable s) :
    s.taken <+: s.accepted ∧ s.accepted.length ≤ s.taken.length + capacity ∧
    (s.reading ≠ none → (s.pushing ≠ none → s.tail ≠ s.front) ∧
      ∀ i k x, .word i k x ∈ s.stores → i ≠ s.front) ∧
    (s.isFull capacity = true ↔
      s.accepted.length + s.fronts.length = s.taken.length + capacity) ∧
    (s.isEmpty = true ↔
      s.accepted.length = s.taken.length + s.stores.countP QueueStore.isTail) ∧
    (s.stores = [] → s.fronts = [] →
      (s.ring capacity width).toList = s.accepted.drop s.taken.length) := by
  obtain ⟨published, retired, hc⟩ := SharedQueue.consistent h
  have hcount := hc.count
  have hfits := hc.fits
  have hpub := hc.pending.length_eq
  refine ⟨hc.taken, by omega, fun hr => ⟨fun hp he => ?_, fun i k x hm he => ?_⟩, ?_, ?_,
    hc.toList_ring⟩
  · have hlt := hc.reading hr
    have hle := hc.published_le
    have hroom := hc.room hp
    rw [hc.tail, hc.front] at he
    exact hc.free hroom s.taken.length (Nat.le_refl _) (by omega) he.symm
  · exact hc.pending.slot_ne (hc.reading hr) hm (by rw [← hc.front, he])
  · rw [hc.isFull_iff]
    omega
  · rw [hc.isEmpty_iff]
    omega

/-- Room for two, one element unread: the producer is told that the queue is full, and the consumer
that it is empty. -/
theorem shared_queue_whole_late : ∃ s : SharedQueue Nat,
    s.accepted = [[1], [2]] ∧ s.taken = [[1]] ∧ s.isFull 2 = true ∧ s.isEmpty = true ∧
      s.accepted.length + s.fronts.length = s.taken.length + 2 ∧
      s.accepted.length = s.taken.length + s.stores.countP QueueStore.isTail := by
  obtain ⟨s, h, hs⟩ := (sharedQueue 2 1 fun _ _ => 0).run_of_exec (P := fun _ _ => True)
    [.push [1], .store, .publish, .commit, .commit, .read, .load, .advance, .push [2], .store,
      .publish]
    (p := fun s => s.accepted == [[1], [2]] && s.taken == [[1]] && s.isFull 2 && s.isEmpty)
    (by decide)
  simp only [Bool.and_eq_true, beq_iff_eq] at hs
  obtain ⟨⟨⟨hacc, htaken⟩, hfull⟩, hempty⟩ := hs
  obtain ⟨_, _, _, hlate, hearly, _⟩ := shared_queue_whole h
  exact ⟨s, hacc, htaken, hfull, hempty, hlate.mp hfull, hearly.mp hempty⟩

end HyperNet.Public
