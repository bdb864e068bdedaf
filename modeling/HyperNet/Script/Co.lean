import HyperNet.Core.Transition
import Mathlib.Algebra.Ring.Int.Defs
import Mathlib.Algebra.Ring.Nat
import Mathlib.Data.List.Basic
import Mathlib.Logic.Function.Basic

/-! # Coroutines of the scripts (core/co.lua)

Scripts run in calls from C, on the main thread, and in coroutines. A label is what the code
that runs does next: it calls a function of co.lua, it comes to the end of a callback that
co.lua has called, it finishes, or it raises an error. A forked function has the number of its
fork. The stacks of C and of Lua are taken as deep enough. -/
namespace HyperNet.Script
open HyperNet.Core.Transition

/-- The number of values of a Lua integer. -/
def integers : Nat := 2 ^ 64

/-- A function of co.lua that a thread is in, and in which other code runs. -/
inductive Frame
  /-- In `fork`, `onCoCreated` runs; the coroutine is to be resumed. -/
  | forking (co : Nat)
  /-- In `wait`, `func` runs; the coroutine is to yield. -/
  | waiting (seq : Int)
  /-- In `co_suspend`, the exit listeners run. -/
  | exiting (co : Nat) (failed : Bool)
  /-- An error is raised: nothing else runs until it is caught. -/
  | raising
  deriving DecidableEq

/-- A call from C or a coroutine. -/
inductive Thread
  | call (k : Nat)
  | co (n : Nat)
  deriving DecidableEq

/-- Where a coroutine is in the body that `create_co` gives it, with the forked function. -/
inductive Point
  /-- Created, and not resumed yet. -/
  | initial (f : Nat)
  | running (f : Nat)
  /-- In the `yield` of `wait`. -/
  | waiting (f : Nat) (seq : Int)
  /-- In `yield("EXIT")`. -/
  | idle
  /-- In the `yield` that is the argument of `func`. -/
  | staged (func : Option Nat)
  /-- Ended by an error, or not created yet. -/
  | dead
  deriving DecidableEq

/-- The forked function that has the coroutine. -/
def Point.func : Point → Option Nat
  | .initial f | .running f | .waiting f _ => some f
  | .staged func => func
  | .idle | .dead => none

/-- What a coroutine is resumed with. -/
inductive Payload (α : Type)
  | none
  | func (f : Nat)
  | args (a : α)
  deriving DecidableEq

def Payload.func? {α : Type} : Payload α → Option Nat
  | .func f => some f
  | _ => Option.none

inductive CoEvent (α : Type)
  /-- A forked function begins on a coroutine. -/
  | start (f co : Nat)
  /-- It ends, by returning or by an error. -/
  | ended (f : Nat)
  /-- The error of other code leaves `fork` before the coroutine was resumed. -/
  | dropped (co : Nat)
  | suspended (seq : Int) (co : Nat)
  | respone (seq : Int) (a : α)
  /-- `wait` returns. -/
  | returned (seq : Int) (payload : Payload α)
  deriving DecidableEq

/-- The state of co.lua. -/
structure Scheduler (α : Type) where
  /-- The last one first. -/
  coroutinePool : List Nat
  waitSequence : Int → Option Nat
  nextSequenceId : Int
  points : Nat → Point
  /-- The number of coroutines there are. -/
  created : Nat
  /-- What runs, and below it what waits for a resume or a call to return. -/
  stack : List Thread
  /-- The functions of co.lua each thread is in, the innermost first. -/
  frames : Thread → List Frame
  calls : Nat
  forks : Nat
  /-- The number of calls of `create_sequence`. -/
  sequences : Nat
  trace : List (CoEvent α)

inductive CoLabel (α : Type)
  /-- A call from C begins or ends. -/
  | enter
  | leave
  | fork
  /-- `onCoCreated` returns. -/
  | created
  | respone (seq : Int) (a : α)
  | createSequence
  | wait
  /-- The `func` of `wait` returns. -/
  | yield
  /-- The exit listeners return. -/
  | listened
  /-- The forked function returns. -/
  | finish
  /-- An error leaves the coroutine or the call. -/
  | throw
  /-- An error leaves the innermost `n` functions of co.lua and is caught. -/
  | caught (n : Nat)
  deriving DecidableEq

namespace Scheduler
variable {α : Type}

def init : Scheduler α where
  coroutinePool := []
  waitSequence := fun _ => none
  nextSequenceId := 1
  points := fun _ => .dead
  created := 0
  stack := []
  frames := fun _ => []
  calls := 0
  forks := 0
  sequences := 0
  trace := []

def setPoint (s : Scheduler α) (co : Nat) (p : Point) : Scheduler α :=
  { s with points := Function.update s.points co p }

def setFrames (s : Scheduler α) (t : Thread) (frames : List Frame) : Scheduler α :=
  { s with frames := Function.update s.frames t frames }

def push (s : Scheduler α) (t : Thread) (frame : Frame) : Scheduler α :=
  s.setFrames t (frame :: s.frames t)

def setWait (s : Scheduler α) (seq : Int) (co : Option Nat) : Scheduler α :=
  { s with waitSequence := Function.update s.waitSequence seq co }

def log (s : Scheduler α) (events : List (CoEvent α)) : Scheduler α :=
  { s with trace := s.trace ++ events }

/-- The thread whose code runs, unless an error is on its way through it. -/
def active (s : Scheduler α) : Option Thread :=
  match s.stack with
  | [] => none
  | t :: _ => if (s.frames t).head? = some .raising then none else some t

/-- `coroutine.resume`, and what it returns if the coroutine does not run on. -/
def resume (s : Scheduler α) (co : Nat) (payload : Payload α) : Scheduler α × Option Bool :=
  match s.points co with
  | .initial f | .staged (some f) =>
    ({ (s.setPoint co (.running f)).log [.start f co] with stack := .co co :: s.stack }, none)
  | .waiting f seq =>
    ({ (s.setPoint co (.running f)).log [.returned seq payload] with
      stack := .co co :: s.stack }, none)
  | .idle => (s.setPoint co (.staged payload.func?), some true)
  | .staged none => (s.setPoint co .dead, some false)
  | .running _ | .dead => (s, some false)

/-- `create_co`. A coroutine of the pool that would run on here has no outcome. -/
def createCo (s : Scheduler α) : Option (Nat × Scheduler α) :=
  match s.coroutinePool with
  | [] => some (s.created,
      { s.setPoint s.created (.initial s.forks) with
        created := s.created + 1
        forks := s.forks + 1 })
  | co :: pool =>
    match ({ s with coroutinePool := pool, forks := s.forks + 1 }).resume co (.func s.forks) with
    | (s, some _) => some (co, s)
    | (_, none) => none

/-- `create_sequence` -/
def createSequence (s : Scheduler α) : Int × Scheduler α :=
  let next := (s.nextSequenceId + 1).bmod integers
  let next := if next < 1 then 1 else next
  (next, { s with nextSequenceId := next, sequences := s.sequences + 1 })

/-- `co_suspend` in a thread, where the resumed coroutine does not run on. -/
def coSuspend (t : Thread) (co : Nat) : Scheduler α × Option Bool → Scheduler α
  | (s, none) => s
  | (s, some true) => s.push t .raising
  | (s, some false) => s.push t (.exiting co true)

/-- The coroutines that are not resumed any more when these functions are left. -/
def droppedBy (frames : List Frame) : List (CoEvent α) :=
  frames.filterMap fun frame =>
    match frame with
    | .forking co => some (.dropped co)
    | _ => none

def step (s : Scheduler α) : CoLabel α → Option (Scheduler α)
  | .enter => some { s with stack := .call s.calls :: s.stack, calls := s.calls + 1 }
  | .leave =>
    match s.stack with
    | .call k :: rest => if s.frames (.call k) = [] then some { s with stack := rest } else none
    | _ => none
  | .fork => do
    let t ← s.active
    let (co, s) ← s.createCo
    some (s.push t (.forking co))
  | .created =>
    match s.stack with
    | [] => none
    | t :: _ =>
      match s.frames t with
      | .forking co :: frames => some (coSuspend t co ((s.setFrames t frames).resume co .none))
      | _ => none
  | .respone seq a => do
    let t ← s.active
    let s := s.log [.respone seq a]
    match s.waitSequence seq with
    | none => some s
    | some co => some (coSuspend t co ((s.setWait seq none).resume co (.args a)))
  | .createSequence => do
    let _ ← s.active
    some s.createSequence.2
  | .wait => do
    let t ← s.active
    let (seq, s) := s.createSequence
    some (s.push t (.waiting seq))
  | .yield =>
    match s.stack with
    | [] => none
    | t :: rest =>
      match s.frames t with
      | .waiting seq :: frames =>
        match t, rest with
        -- The main thread cannot yield.
        | .call _, _ => some (s.setFrames t (.raising :: frames))
        | .co _, [] => none
        | .co n, below =>
          match s.points n with
          | .running f =>
            some { (((s.setFrames t frames).setPoint n (.waiting f seq)).setWait seq
              (some n)).log [.suspended seq n] with stack := below }
          | _ => none
      | _ => none
  | .listened =>
    match s.stack with
    | [] => none
    | t :: _ =>
      match s.frames t with
      | .exiting _ false :: frames => some (s.setFrames t frames)
      | .exiting _ true :: frames => some (s.setFrames t (.raising :: frames))
      | _ => none
  | .finish =>
    match s.stack with
    | .co n :: t :: rest =>
      if s.frames (.co n) = [] then
        match s.points n with
        | .running f =>
          some { ((s.setPoint n .idle).push t (.exiting n false)).log [.ended f] with
            coroutinePool := n :: s.coroutinePool
            stack := t :: rest }
        | _ => none
      else none
    | _ => none
  | .throw =>
    match s.stack with
    | [] => none
    | .call k :: rest =>
      some { (s.setFrames (.call k) []).log (droppedBy (s.frames (.call k))) with stack := rest }
    | .co _ :: [] => none
    | .co n :: t :: rest =>
      match s.points n with
      | .running f =>
        some { (((s.setPoint n .dead).setFrames (.co n) []).push t (.exiting n true)).log
          (droppedBy (s.frames (.co n)) ++ [.ended f]) with stack := t :: rest }
      | _ => none
  | .caught n =>
    match s.stack with
    | [] => none
    | t :: _ =>
      if n ≤ (s.frames t).length ∧ ((s.frames t).head? = some .raising → 0 < n) then
        some ((s.setFrames t ((s.frames t).drop n)).log (droppedBy ((s.frames t).take n)))
      else none

end Scheduler

/-- The scheduler under any scripts. -/
def coSystem (α : Type) : System (Scheduler α) (CoLabel α) where
  init := .init
  step := Scheduler.step

end HyperNet.Script
