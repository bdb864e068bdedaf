import HyperNet.Core.Ring

/-! # The cyclic queue of the worker threads (CycleQueue.h)

A ring of `capacity + 1` slots, of which one stays free so that an empty ring and
a full one differ. `toList` reads a queue as the list of what it holds; the
operations act on it as those of a FIFO bounded by the capacity. -/
namespace HyperNet.Public
open HyperNet.Core

/-- `_queue`, `_front`, `_tail` and `_size`, with both indices in the array. -/
structure CycleQueue (α : Type) where
  size : Nat
  queue : Vector α size
  front : Nat
  tail : Nat
  front_lt : front < size
  tail_lt : tail < size

namespace CycleQueue
variable {α : Type}

/-- The constructor. What `MALLOC` leaves in the slots is never read; it is `default` here. -/
def create [Inhabited α] (capacity : Nat) : CycleQueue α where
  size := capacity + 1
  queue := Vector.replicate (capacity + 1) default
  front := 0
  tail := 0
  front_lt := by omega
  tail_lt := by omega

def isEmpty (q : CycleQueue α) : Bool := q.front == q.tail

def isFull (q : CycleQueue α) : Bool := q.front == (q.tail + 1) % q.size

theorem size_pos (q : CycleQueue α) : 0 < q.size := Nat.lt_of_le_of_lt (Nat.zero_le _) q.front_lt

/-- `Read`: the element it stores through its argument, and the queue after it. -/
def read (q : CycleQueue α) : Option (α × CycleQueue α) :=
  if q.isEmpty then none
  else some (q.queue.get ⟨q.front, q.front_lt⟩,
    { q with front := (q.front + 1) % q.size, front_lt := Nat.mod_lt _ q.size_pos })

/-- `Push`: on a full queue an assertion ends the process, with the queue as it was. -/
def push (q : CycleQueue α) (t : α) : CycleQueue α :=
  if q.isFull then q
  else { q with
    queue := q.queue.set q.tail t q.tail_lt
    tail := (q.tail + 1) % q.size
    tail_lt := Nat.mod_lt _ q.size_pos }

/-! ## What a queue holds -/

/-- The slot `i` steps after the front. -/
def slot (q : CycleQueue α) (i : Nat) : α :=
  q.queue.get ⟨(q.front + i) % q.size, Nat.mod_lt _ q.size_pos⟩

/-- The elements, oldest first. -/
def toList (q : CycleQueue α) : List α :=
  (List.range (Ring.dist q.size q.front q.tail)).map q.slot

/-- How many elements fit. -/
def capacity (q : CycleQueue α) : Nat := q.size - 1

@[simp] theorem length_toList (q : CycleQueue α) :
    q.toList.length = Ring.dist q.size q.front q.tail := by simp [toList]

theorem length_le_capacity (q : CycleQueue α) : q.toList.length ≤ q.capacity := by
  have := Ring.dist_lt q.front_lt q.tail
  simp only [length_toList, capacity]
  omega

@[simp] theorem capacity_create [Inhabited α] (n : Nat) :
    (create n : CycleQueue α).capacity = n := rfl

@[simp] theorem toList_create [Inhabited α] (n : Nat) : (create n : CycleQueue α).toList = [] := by
  simp [toList, create, Ring.dist]

theorem isEmpty_iff (q : CycleQueue α) : q.isEmpty = true ↔ q.toList = [] := by
  rw [← List.length_eq_zero_iff, length_toList, Ring.dist_eq_zero q.front_lt q.tail_lt]
  simp [isEmpty]

theorem isFull_iff (q : CycleQueue α) : q.isFull = true ↔ q.toList.length = q.capacity := by
  have := q.size_pos
  rw [length_toList, capacity, isFull, beq_iff_eq, Ring.full_iff q.front_lt q.tail_lt]
  omega

@[simp] theorem capacity_push (q : CycleQueue α) (t : α) : (q.push t).capacity = q.capacity := by
  unfold push
  split <;> rfl

/-- A push on a queue that is not full appends. -/
theorem toList_push {q : CycleQueue α} (t : α) (h : q.toList.length < q.capacity) :
    (q.push t).toList = q.toList ++ [t] := by
  have hn : q.isFull = false := by
    rw [Bool.eq_false_iff, Ne, isFull_iff]
    omega
  have hne : q.front ≠ (q.tail + 1) % q.size := by simpa [isFull] using hn
  have hd := Ring.dist_push q.front_lt q.tail_lt hne
  have hlt := Ring.dist_lt q.front_lt q.tail
  simp only [push, hn, Bool.false_eq_true, if_false, toList, hd, List.range_succ, List.map_append,
    List.map_cons, List.map_nil]
  congr 1
  · apply List.map_congr_left
    intro i hi
    have hi := List.mem_range.mp hi
    have hq : (q.front + i) % q.size ≠ q.tail := by
      intro he
      rw [← Ring.slot_dist q.front_lt q.tail_lt] at he
      have := Ring.slot_injective q.front_lt (by omega) hlt he
      omega
    exact Vector.getElem_set_ne q.tail_lt (Nat.mod_lt _ q.size_pos) (Ne.symm hq)
  · simp only [slot, Ring.slot_dist q.front_lt q.tail_lt]
    exact congrArg (fun x => [x]) (Vector.getElem_set_self q.tail_lt)

/-- A push on a full queue changes nothing. -/
theorem push_full {q : CycleQueue α} (t : α) (h : q.toList.length = q.capacity) : q.push t = q := by
  simp [push, q.isFull_iff.mpr h]

theorem length_push_le (q : CycleQueue α) (t : α) :
    (q.push t).toList.length ≤ q.toList.length + 1 := by
  rcases Nat.lt_or_ge q.toList.length q.capacity with h | h
  · exact Nat.le_of_eq (by rw [toList_push t h, List.length_append, List.length_singleton])
  · rw [push_full t (Nat.le_antisymm q.length_le_capacity h)]
    exact Nat.le_succ _

theorem read_none_iff (q : CycleQueue α) : q.read = none ↔ q.toList = [] := by
  rw [← isEmpty_iff]
  unfold read
  split <;> simp_all

/-- A read takes the oldest element. -/
theorem toList_read {q r : CycleQueue α} {t : α} (h : q.read = some (t, r)) :
    q.toList = t :: r.toList := by
  unfold read at h
  split at h
  · cases h
  · next he =>
    have hne : q.front ≠ q.tail := by simpa [isEmpty] using he
    simp only [Option.some.injEq, Prod.mk.injEq] at h
    obtain ⟨rfl, rfl⟩ := h
    simp only [toList, Ring.dist_pop q.front_lt q.tail_lt hne, List.range_succ_eq_map,
      List.map_cons, List.map_map]
    congr 1
    · simp [slot, Nat.mod_eq_of_lt q.front_lt]
    · apply List.map_congr_left
      intro i _
      simp only [Function.comp, slot, Nat.succ_eq_add_one]
      congr 2
      exact (Ring.slot_succ q.front i).symm

/-- A queue that holds something is read. -/
theorem read_of_toList {q : CycleQueue α} {t : α} {l : List α} (h : q.toList = t :: l) :
    ∃ r, q.read = some (t, r) ∧ r.toList = l := by
  cases hr : q.read with
  | none =>
    rw [(read_none_iff q).mp hr] at h
    cases h
  | some x =>
    obtain ⟨u, r⟩ := x
    obtain ⟨rfl, rfl⟩ := List.cons.inj ((toList_read hr).symm.trans h)
    exact ⟨r, rfl, rfl⟩

theorem capacity_read {q r : CycleQueue α} {t : α} (h : q.read = some (t, r)) :
    r.capacity = q.capacity := by
  unfold read at h
  split at h
  · cases h
  · simp only [Option.some.injEq, Prod.mk.injEq] at h
    rw [← h.2]
    rfl

end CycleQueue
end HyperNet.Public
