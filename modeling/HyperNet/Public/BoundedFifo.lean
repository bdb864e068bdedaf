import HyperNet.Core.Refinement
import HyperNet.Public.CycleQueue

/-! # A queue of bounded length, and the cyclic queue as one

The abstract queue is a list that the capacity bounds. A client of `CycleQueue` cannot tell the
two apart, however often the indices of the ring have wrapped around. -/
namespace HyperNet.Public
open HyperNet.Core.Refinement

inductive QueueOp (α : Type)
  | push (t : α)
  | read
  deriving DecidableEq

inductive QueueOutput (α : Type)
  | pushed
  /-- What `Read` stores, if it returns true. -/
  | read (t : Option α)
  deriving DecidableEq

/-- The oldest element is the first of the list. -/
structure BoundedFifo (α : Type) (capacity : Nat) where
  list : List α
  length_le : list.length ≤ capacity

namespace BoundedFifo
variable {α : Type} {capacity : Nat}

def empty : BoundedFifo α capacity := ⟨[], Nat.zero_le capacity⟩

def push (t : α) (f : BoundedFifo α capacity) : BoundedFifo α capacity :=
  if h : f.list.length < capacity then
    ⟨f.list ++ [t], by rw [List.length_append, List.length_singleton]; exact h⟩
  else f

def tail (f : BoundedFifo α capacity) : BoundedFifo α capacity :=
  ⟨f.list.tail, Nat.le_trans (List.length_tail ▸ Nat.sub_le _ _) f.length_le⟩

@[simp] theorem list_tail (f : BoundedFifo α capacity) : f.tail.list = f.list.tail := rfl

def step (f : BoundedFifo α capacity) : QueueOp α → QueueOutput α × BoundedFifo α capacity
  | .push t => (.pushed, f.push t)
  | .read => (.read f.list.head?, f.tail)

theorem list_push (t : α) {f : BoundedFifo α capacity} (h : f.list.length < capacity) :
    (f.push t).list = f.list ++ [t] := by
  rw [push, dif_pos h]

theorem push_full (t : α) {f : BoundedFifo α capacity} (h : f.list.length = capacity) :
    f.push t = f :=
  dif_neg (by omega)

end BoundedFifo

def boundedFifo (α : Type) (capacity : Nat) :
    Object (BoundedFifo α capacity) (QueueOp α) (QueueOutput α) :=
  ⟨.empty, BoundedFifo.step⟩

namespace CycleQueue
variable {α : Type} {capacity : Nat}

def step (q : CycleQueue α) : QueueOp α → QueueOutput α × CycleQueue α
  | .push t => (.pushed, q.push t)
  | .read =>
    match q.read with
    | some (t, q) => (.read (some t), q)
    | none => (.read none, q)

/-- The queue holds the list. -/
structure Represents (q : CycleQueue α) (f : BoundedFifo α capacity) : Prop where
  toList : q.toList = f.list
  capacity : q.capacity = capacity

namespace Represents
variable {q : CycleQueue α} {f : BoundedFifo α capacity}

theorem push (h : q.Represents f) (t : α) : (q.push t).Represents (f.push t) := by
  refine ⟨?_, (q.capacity_push t).trans h.capacity⟩
  by_cases hfull : f.list.length = capacity
  · have hq : q.toList.length = q.capacity := by rw [h.toList, hfull, h.capacity]
    rw [CycleQueue.push_full t hq, BoundedFifo.push_full t hfull, h.toList]
  · have hf : f.list.length < capacity := Nat.lt_of_le_of_ne f.length_le hfull
    have hq : q.toList.length < q.capacity := by rw [h.toList, h.capacity]; exact hf
    rw [toList_push t hq, BoundedFifo.list_push t hf, h.toList]

theorem read (h : q.Represents f) :
    (q.step .read).1 = .read f.list.head? ∧ (q.step .read).2.Represents f.tail := by
  cases hr : q.read with
  | none =>
    have hlist : f.list = [] := by rw [← h.toList, (read_none_iff q).mp hr]
    simp only [CycleQueue.step, hr, hlist, List.head?_nil, true_and]
    exact ⟨by rw [h.toList, BoundedFifo.list_tail, hlist, List.tail_nil], h.capacity⟩
  | some x =>
    obtain ⟨t, r⟩ := x
    have hlist : f.list = t :: r.toList := by rw [← h.toList, toList_read hr]
    simp only [CycleQueue.step, hr, hlist, List.head?_cons, true_and]
    exact ⟨by rw [BoundedFifo.list_tail, hlist, List.tail_cons], (capacity_read hr).trans h.capacity⟩

end Represents

def object (α : Type) [Inhabited α] (capacity : Nat) :
    Object (CycleQueue α) (QueueOp α) (QueueOutput α) :=
  ⟨create capacity, step⟩

theorem object_refines (α : Type) [Inhabited α] (capacity : Nat) :
    Refines (object α capacity) (boundedFifo α capacity) Represents where
  init := ⟨toList_create capacity, capacity_create capacity⟩
  step q f op h := by
    cases op with
    | push t => exact ⟨rfl, h.push t⟩
    | read => exact h.read

/-- After any operations the outputs are those of the list, the tests tell its length, and both
indices are in the ring; so with a size in `s32` neither `_front + 1` nor `_tail + 1` overflows. -/
theorem fifo_exact (α : Type) [Inhabited α] (capacity : Nat) (ops : List (QueueOp α)) :
    ∃ (q : CycleQueue α) (f : BoundedFifo α capacity) (outputs : List (QueueOutput α)),
      (object α capacity).run ops = (outputs, q) ∧
      (boundedFifo α capacity).run ops = (outputs, f) ∧ q.toList = f.list ∧
      (q.isEmpty = true ↔ f.list.length = 0) ∧ (q.isFull = true ↔ f.list.length = capacity) ∧
      (q.isFull = true → ∀ t, q.push t = q) ∧
      q.size = capacity + 1 ∧ q.front < q.size ∧ q.tail < q.size := by
  obtain ⟨houts, hrep⟩ := (object_refines α capacity).run ops
  let q := ((object α capacity).run ops).2
  refine ⟨q, ((boundedFifo α capacity).run ops).2, ((object α capacity).run ops).1, rfl,
    Prod.ext houts.symm rfl, hrep.toList, ?_, ?_, ?_, ?_, q.front_lt, q.tail_lt⟩
  · rw [isEmpty_iff, hrep.toList, List.length_eq_zero_iff]
  · rw [isFull_iff, hrep.toList, hrep.capacity]
  · intro hfull t
    exact push_full t (q.isFull_iff.mp hfull)
  · have hcapacity : q.size - 1 = capacity := hrep.capacity
    have hpos := q.size_pos
    omega

/-- Two slots: the third push is lost, and the ring wraps around. -/
example : ((object Nat 2).run [.read, .push 1, .push 2, .push 3, .read, .push 4, .read, .read]).1 =
    [.read none, .pushed, .pushed, .pushed, .read (some 1), .pushed, .read (some 2),
      .read (some 4)] := by decide

end CycleQueue
end HyperNet.Public
