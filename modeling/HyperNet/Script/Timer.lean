import HyperNet.Core.Transition
import Mathlib.Algebra.Ring.Int.Defs
import Mathlib.Logic.Function.Basic

/-! # Timers of the scripts (core/timer.lua)

A timer lies in a list of one of five cycles until the first of them comes to the list. `schedule`
hands its timer to `findTimerList`, which compares it with `now`: in Lua this is an error.
`checkHighGear` is local to what follows its function, and not yet to the function itself: a call
inside it is one of a global, and `_ENV` has none of that name.

A step of the cycles is the body of the first loop in the function of `reg_loop`, whose `now` is
its own: that of the module is 0 for good. `math` is nil as well, and `start` and that function end
with an error where they call it; what stands behind is modelled all the same. -/
namespace HyperNet.Script
open HyperNet.Core.Transition

/-- The fields of a timer's base that the cycles read, and what tells it apart. -/
structure TimerBase where
  address : Nat
  expire : Int
  pause : Option Int
  deriving DecidableEq

/-- What `findTimerList` is called with: by `schedule` a base, elsewhere the `expire` of one. -/
inductive Expire
  | table (base : TimerBase)
  | number (n : Int)
  deriving DecidableEq

/-- The lists are by their index; one that is nil is empty. -/
structure Cycle where
  timers : Nat → List TimerBase
  size : Nat
  now : Nat

/-- A list of timers: `running`, or the list of a cycle at an index. -/
inductive TimerList
  | running
  | cycle (index slot : Nat)
  deriving DecidableEq

structure Timers where
  /-- `cycles`, from 1 to 5. -/
  cycles : Nat → Cycle
  running : List TimerBase
  now : Int
  /-- The steps so far. -/
  ticks : Nat
  /-- The timers put into `running`, with the step. -/
  moved : List (Nat × TimerBase)

inductive TimerLabel
  /-- A call of `schedule`. -/
  | schedule (base : TimerBase)
  | step
  /-- The second loop of the function of `reg_loop`, which `poll` ends with an error. -/
  | run
  deriving DecidableEq

namespace Timers

def init : Timers where
  cycles index := ⟨fun _ => [], if index = 1 then 256 else 64, 0⟩
  running := []
  now := 0
  ticks := 0
  moved := []

def setCycle (index : Nat) (cycle : Cycle) (w : Timers) : Timers :=
  { w with cycles := Function.update w.cycles index cycle }

def findTimerListFromCycle (index : Nat) (expire : Int) (w : Timers) : TimerList :=
  .cycle index (expire % (w.cycles index).size).toNat

def findTimerList (w : Timers) : Expire → Except String (Option TimerList)
  | .table _ => .error "attempt to compare table with number"
  | .number expire =>
    if expire ≤ w.now then .ok (some .running)
    else
      let life := expire - w.now
      if life < 256 then .ok (some (w.findTimerListFromCycle 1 expire))
      else if life < 64 * 256 then .ok (some (w.findTimerListFromCycle 2 expire))
      else if life < 64 * 64 * 256 then .ok (some (w.findTimerListFromCycle 3 expire))
      else if life < 64 * 64 * 64 * 256 then .ok (some (w.findTimerListFromCycle 4 expire))
      else if life < 64 * 64 * 64 * 64 * 256 then .ok (some (w.findTimerListFromCycle 5 expire))
      else .ok none

/-- `list[base] = true` -/
def put (base : TimerBase) (w : Timers) : TimerList → Timers
  | .running => { w with
      running := base :: w.running.filter (· != base), moved := w.moved ++ [(w.ticks, base)] }
  | .cycle index slot =>
    let cycle := w.cycles index
    w.setCycle index { cycle with
      timers := Function.update cycle.timers slot (base :: (cycle.timers slot).filter (· != base)) }

def schedule (base : TimerBase) (w : Timers) : Except String Timers :=
  match w.findTimerList (.table base) with
  | .error message => .error message
  | .ok none => .error "where is timer list"
  | .ok (some list) => .ok (w.put base list)

/-- The loop of `checkHighGear` over a list. An error leaves what has been done before it. -/
def scheduleAll : List TimerBase → Timers → Except Timers Timers
  | [], w => .ok w
  | base :: list, w =>
    match w.schedule base with
    | .error _ => .error w
    | .ok w => scheduleAll list w

/-- `checkHighGear` starts a cycle again. -/
def wrap (index : Nat) (w : Timers) : Timers :=
  let cycle := w.cycles index
  if cycle.now > cycle.size then w.setCycle index { cycle with now := 0 } else w

def advance (index : Nat) (w : Timers) : Timers :=
  let cycle := w.cycles index
  w.setCycle index { cycle with now := cycle.now + 1 }

/-- The end of `checkHighGear`, if `index` is not 1. -/
def turn (index : Nat) (w : Timers) : Except Timers Timers :=
  let cycle := w.cycles index
  let list := cycle.timers cycle.now
  let w := w.setCycle index { cycle with timers := Function.update cycle.timers cycle.now [] }
  (w.scheduleAll list).map (advance index)

def checkHighGear (index : Nat) (w : Timers) : Except Timers Timers :=
  let w := w.wrap index
  -- the call of `checkHighGear`: attempt to call a nil value
  if index ≠ 5 ∧ (w.cycles index).now = 0 then .error w
  else if index ≠ 1 then w.turn index
  else .ok w

def update (w : Timers) : Timers :=
  let cycle := w.cycles 1
  let list := cycle.timers cycle.now
  let due := list.filter (·.pause.isNone)
  let w := w.setCycle 1 ⟨Function.update cycle.timers cycle.now (list.filter (·.pause.isSome)),
    cycle.size, cycle.now + 1⟩
  { w with
    running := due ++ w.running.filter fun base => !due.contains base
    moved := w.moved ++ due.map fun base => (w.ticks, base) }

def step (w : Timers) : TimerLabel → Option Timers
  | .schedule base => some ((w.schedule base).toOption.getD w)
  | .step =>
    match checkHighGear 1 { w with ticks := w.ticks + 1 } with
    | .ok w => some w.update
    | .error w => some w
  | .run => some { w with running := [] }

end Timers

def timers : System Timers TimerLabel := ⟨.init, Timers.step⟩

namespace Timers
variable {w w' : Timers}

/-! ## No step gets past its first call -/

theorem schedule_error (base : TimerBase) (w : Timers) :
    w.schedule base = .error "attempt to compare table with number" := rfl

/-- Where a cycle below the fifth stands at 0, `checkHighGear` calls for the next one. -/
theorem checkHighGear_error {index : Nat} (hindex : index ≠ 5) (hnow : (w.cycles index).now = 0) :
    w.checkHighGear index = .error w := by
  have hwrap : w.wrap index = w := by
    rw [wrap, hnow]
    exact if_neg (Nat.not_lt_zero _)
  rw [checkHighGear, hwrap]
  exact if_pos ⟨hindex, hnow⟩

/-- The cycles stand where the module has set them, and every list is empty. -/
def Still (w : Timers) : Prop := w = { init with ticks := w.ticks }

namespace Still

theorem step (h : Still w) {l : TimerLabel} (hs : w.step l = some w') : Still w' := by
  cases l with
  | schedule base =>
    rw [Timers.step, schedule_error] at hs
    cases hs
    exact h
  | step =>
    have hnow : ({ w with ticks := w.ticks + 1 }.cycles 1).now = 0 := by rw [h]; rfl
    rw [Timers.step, checkHighGear_error (by decide) hnow] at hs
    cases hs
    rw [Still, h]
  | run =>
    cases hs
    rw [Still, h]
    rfl

end Still

/-- No run of the timers puts one into a list. -/
theorem still (h : timers.Reachable w) : Still w := by
  have hinit : Still timers.init := rfl
  exact h.invariant hinit fun _ _ _ _ hstill hs => hstill.step hs

/-! ## When a timer is moved -/

/-- The steps that have moved a timer to `running`. -/
def movesOf (base : TimerBase) (w : Timers) : List Nat :=
  (w.moved.filter (·.2 == base)).map Prod.fst

/-- The timer has been moved once, in the step to its `expire`. -/
def Exact (base : TimerBase) (w : Timers) : Prop := (w.movesOf base).map Int.ofNat = [base.expire]

/-- However long the cycles turn behind a call of `schedule`, its timer is not moved in the step to
its `expire`: no step moves a timer at all. -/
theorem never_exact {w w' : Timers} (h : timers.Reachable w) {base : TimerBase}
    (labels : List TimerLabel)
    (hs : timers.exec (fun _ _ => True) w (.schedule base :: labels) = some w') :
    ¬ w'.Exact base ∧ w'.moved = [] := by
  have hmoved : w'.moved = [] := by rw [still (h.exec hs)]; rfl
  refine ⟨fun hexact => ?_, hmoved⟩
  rw [Exact, movesOf, hmoved] at hexact
  cases hexact

/-- A timer that expires at the first step. -/
theorem never_exact_first :
    ∃ w', timers.exec (fun _ _ => True) init [.schedule ⟨0, 1, none⟩, .step, .step] = some w' ∧
      ¬ w'.Exact ⟨0, 1, none⟩ := by
  cases he : timers.exec (fun _ _ => True) init [.schedule ⟨0, 1, none⟩, .step, .step] with
  | none => exact absurd he nofun
  | some w' => exact ⟨w', rfl, (never_exact .start _ he).1⟩

/-- It is in no list behind the second step, and the first cycle still stands at 0. -/
theorem first_not_moved :
    ∃ w', timers.exec (fun _ _ => True) init [.schedule ⟨0, 1, none⟩, .step, .step] = some w' ∧
      w'.ticks = 2 ∧ (w'.cycles 1).now = 0 ∧ w'.moved = [] ∧ ¬ w'.Exact ⟨0, 1, none⟩ := by
  refine ⟨_, rfl, rfl, rfl, rfl, fun hexact => ?_⟩
  have hexact : ([] : List Int) = [1] := hexact
  cases hexact

end Timers
end HyperNet.Script
