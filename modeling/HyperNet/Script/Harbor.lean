import HyperNet.Script.Orderly

/-! # Calls from other nodes (core/harbor.lua)

A call starts the registered function on a coroutine of co.lua and notes in three tables who is
to be answered. `ret` answers; the exit listener, the only one there is, runs as soon as the
coroutine has left its function. `serializes` says of the arguments of a `ret` that
`string.serialize` takes them. -/
namespace HyperNet.Script
open HyperNet.Core.Transition

/-- The node that has called. -/
structure CallNode where
  nodeType : Int
  nodeId : Int
  deriving DecidableEq

/-- A delivery to a registered function, with the number of the fork that runs it. -/
structure Call where
  handler : Nat
  node : CallNode
  /-- Where an answer is asked for. -/
  seq : Option Int
  deriving DecidableEq

/-- What `harbor.respone` sends: `seq, true, ...` or `seq, false`. -/
structure Response (α : Type) where
  node : CallNode
  seq : Int
  results : Option α
  deriving DecidableEq

structure Harbor (α : Type) where
  co : Scheduler α
  sequence : Int → Option Nat
  coSequence : Nat → Option Int
  coCallNode : Nat → Option CallNode
  proto : List String
  calls : List Call
  /-- What each forked function has given `ret` for the call that it answers. -/
  rets : List (Nat × α)
  /-- What has been sent, and for which forked function. -/
  sent : List (Nat × Response α)

inductive HarborLabel (α : Type)
  | register (name : String)
  | onCall (node : CallNode) (seq : Option Int) (func : Option String)
  | onCallNoRet (node : CallNode) (func : Option String)
  | ret (results : α)
  | co (l : CoLabel α)
  deriving DecidableEq

namespace Harbor
variable {α : Type}

def init : Harbor α where
  co := .init
  sequence := fun _ => none
  coSequence := fun _ => none
  coCallNode := fun _ => none
  proto := []
  calls := []
  rets := []
  sent := []

/-- An `assert` or a call fails in a thread. -/
def raise (s : Harbor α) (t : Thread) : Harbor α := { s with co := s.co.push t .raising }

def setSequence (s : Harbor α) (seq : Int) (running : Option Nat) : Harbor α :=
  { s with sequence := Function.update s.sequence seq running }

def setCoSequence (s : Harbor α) (running : Nat) (seq : Option Int) : Harbor α :=
  { s with coSequence := Function.update s.coSequence running seq }

def setCoCallNode (s : Harbor α) (running : Nat) (node : Option CallNode) : Harbor α :=
  { s with coCallNode := Function.update s.coCallNode running node }

/-- `co.fork(proto[func], onCoCreated, ...)` in a thread. -/
def fork (s : Harbor α) (t : Thread) (onCoCreated : Nat → Harbor α → Harbor α) :
    Option (Harbor α) := do
  let co ← s.co.step .fork
  match co.frames t with
  | .forking running :: _ =>
    let s := onCoCreated running { s with co := co }
    let co ← s.co.step .created
    some { s with co := co }
  | _ => none

/-- `rpc`'s `onCoCreated`. -/
def rpcCreated (node : CallNode) (seq : Int) (running : Nat) (s : Harbor α) : Harbor α :=
  ((s.setSequence seq (some running)).setCoSequence running (some seq)).setCoCallNode running
    (some node)

/-- `rpcnr`'s. -/
def rpcnrCreated (node : CallNode) (running : Nat) (s : Harbor α) : Harbor α :=
  s.setCoCallNode running (some node)

/-- The function is registered. -/
def knows (s : Harbor α) (func : Option String) : Bool := func.any s.proto.contains

def rpc (s : Harbor α) (t : Thread) (node : CallNode) (seq : Option Int) (func : Option String) :
    Option (Harbor α) :=
  match seq with
  | none => some (s.raise t)
  | some seq =>
    if s.knows func then
      ({ s with calls := s.calls ++ [⟨s.co.forks, node, some seq⟩] } : Harbor α).fork t
        (rpcCreated node seq)
    else some (s.raise t)

def rpcnr (s : Harbor α) (t : Thread) (node : CallNode) (func : Option String) :
    Option (Harbor α) :=
  if s.knows func then
    ({ s with calls := s.calls ++ [⟨s.co.forks, node, none⟩] } : Harbor α).fork t (rpcnrCreated node)
  else some (s.raise t)

/-- `ret` in a thread, on a coroutine with its function `f`. -/
def ret (serializes : α → Bool) (s : Harbor α) (t : Thread) (results : α) : Option (Harbor α) :=
  match t with
  | .call _ => some (s.raise t)
  | .co running =>
    match s.coSequence running, (s.co.points running).func with
    | none, _ => some (s.raise t)
    | some _, none => none
    | some seq, some f =>
      let s := { s with rets := s.rets ++ [(f, results)] }
      let s := (s.setCoSequence running none).setSequence seq none
      match s.coCallNode running with
      | none => some (s.raise t)
      | some node =>
        if serializes results then
          some { s with sent := s.sent ++ [(f, ⟨node, seq, some results⟩)] }
        else some (s.raise t)

/-- The exit listener, on a coroutine that has left its function `f`; none where it asserts. -/
def exitListener (s : Harbor α) (running f : Nat) : Option (Harbor α) :=
  if s.coSequence running = none then
    let s : Harbor α :=
      match s.coSequence running with
      | some seq =>
        let s := s.setSequence seq none
        match s.coCallNode running with
        | some node => { s with sent := s.sent ++ [(f, ⟨node, seq, none⟩)] }
        | none => s
      | none => s
    some ((s.setCoSequence running none).setCoCallNode running none)
  else none

/-- A coroutine leaves its function (`.finish` or `.throw`), and the listener runs in the thread
below. -/
def exit (s : Harbor α) (l : CoLabel α) : Option (Harbor α) :=
  match s.co.stack with
  | .co running :: t :: _ =>
    match s.co.step l, (s.co.points running).func with
    | some co, some f =>
      match co.frames t with
      | .exiting _ _ :: frames =>
        match ({ s with co := co } : Harbor α).exitListener running f with
        | some s' => do
          let co ← s'.co.step .listened
          some { s' with co := co }
        | none => some { s with co := co.setFrames t (.raising :: frames) }
      | _ => none
    | _, _ => none
  | _ => do
    let co ← s.co.step l
    some { s with co := co }

def step (serializes : α → Bool) (s : Harbor α) : HarborLabel α → Option (Harbor α)
  | .register name => some { s with proto := name :: s.proto }
  | .onCall node seq func => do
    let t ← s.co.active
    s.rpc t node seq func
  | .onCallNoRet node func => do
    let t ← s.co.active
    s.rpcnr t node func
  | .ret results => do
    let t ← s.co.active
    s.ret serializes t results
  | .co .listened => none
  | .co .finish => s.exit .finish
  | .co .throw => s.exit .throw
  | .co l => do
    let co ← s.co.step l
    some { s with co := co }

end Harbor

/-- A node under any deliveries and any scripts. -/
def harborSystem {α : Type} (serializes : α → Bool) : System (Harbor α) (HarborLabel α) where
  init := .init
  step := Harbor.step serializes

end HyperNet.Script
