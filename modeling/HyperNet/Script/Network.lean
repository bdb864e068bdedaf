import HyperNet.Script.Harbor

/-! # Nodes that call each other (core/harbor.lua, Rpc.cpp, Harbor.cpp)

A node is a process with its scripts; it may be restarted, and begins again with no calls and
with the first number. A session leads to one process of a node: what is sent through it reaches
that process or is lost, in any order. The scripts answer no wait of `harbor.call` by themselves.
`arguments` are the values that a response holds after its number. -/
namespace HyperNet.Script
open HyperNet.Core.Transition

/-- A call by `harbor.call` that waits. -/
structure Asked where
  caller : CallNode
  /-- Which process of the caller. -/
  incarnation : Nat
  callee : CallNode
  seq : Int
  /-- How many calls there were before it, of all nodes. -/
  serial : Nat
  deriving DecidableEq

/-- A message, and for which call it is sent; what is read of it is the number. -/
inductive Message (α : Type)
  | rpc (asked : Asked) (func : Option String)
  | rpcnr (func : Option String)
  | respone (asked : Option Asked) (seq : Int) (results : Option α)
  deriving DecidableEq

structure Packet (α : Type) where
  source : CallNode
  target : CallNode
  /-- The process that the session leads to. -/
  incarnation : Nat
  message : Message α
  deriving DecidableEq

/-- A process of a node. -/
structure Process (α : Type) where
  incarnation : Nat
  harbor : Harbor α
  /-- `Harbor::_nodes`: the process that the session with a node leads to. -/
  nodes : CallNode → Option Nat
  /-- The call that each coroutine is suspended in. -/
  calling : Nat → Option Asked
  /-- The call that each forked function has been started for. -/
  origins : Nat → Option Asked

structure Network (α : Type) where
  processes : CallNode → Process α
  flight : List (Packet α)
  asked : List Asked

inductive NetworkLabel (α : Type)
  /-- What the scripts of a node do, calls to other nodes apart. -/
  | script (node : CallNode) (l : HarborLabel α)
  | call (node callee : CallNode) (func : Option String)
  | callNoRet (node callee : CallNode) (func : Option String)
  | deliver (i : Nat)
  | lose (i : Nat)
  | opened (node peer : CallNode) (incarnation : Nat)
  | closed (node peer : CallNode)
  | restart (node : CallNode)
  deriving DecidableEq

namespace Process
variable {α : Type}

def start (incarnation : Nat) : Process α where
  incarnation := incarnation
  harbor := .init
  nodes := fun _ => none
  calling := fun _ => none
  origins := fun _ => none

/-- `PrepareSend` and `Send`: nothing is sent where there is no session. -/
def send (p : Process α) (source target : CallNode) (message : Message α) : List (Packet α) :=
  (p.nodes target).toList.map fun incarnation => ⟨source, target, incarnation, message⟩

/-- The responses that a step has sent. -/
def responses (p : Process α) (source : CallNode) (sent : List (Nat × Response α)) :
    List (Packet α) :=
  sent.flatMap fun entry => p.send source entry.2.node
    (.respone (p.origins entry.1) entry.2.seq entry.2.results)

/-- The thread suspends in a call; a call from C cannot. -/
def suspend (p : Process α) (asked : Asked) : Thread → Nat → Option Asked
  | .co running => Function.update p.calling running (some asked)
  | .call _ => p.calling

/-- No coroutine in `harbor.call` waits for the number. -/
def ownWait (p : Process α) (seq : Int) : Bool :=
  (p.harbor.co.waitSequence seq).all fun running => (p.calling running).isNone

/-- What the scripts do by themselves. -/
def owns (p : Process α) : HarborLabel α → Bool
  | .register _ | .ret _ => true
  | .onCall _ _ _ | .onCallNoRet _ _ => false
  | .co (.respone seq _) => p.ownWait seq
  | .co _ => true

end Process

namespace Network
variable {α : Type}

def init : Network α where
  processes := fun _ => .start 0
  flight := []
  asked := []

def setProcess (s : Network α) (node : CallNode) (p : Process α) : Network α :=
  { s with processes := Function.update s.processes node p }

def post (s : Network α) (packets : List (Packet α)) : Network α :=
  { s with flight := s.flight ++ packets }

/-- A step of the scripts of a node. -/
def script (serializes : α → Bool) (s : Network α) (node : CallNode) (l : HarborLabel α) :
    Option (Network α) :=
  let p := s.processes node
  if p.owns l then do
    let harbor ← p.harbor.step serializes l
    some ((s.setProcess node { p with harbor := harbor }).post
      (p.responses node (harbor.sent.drop p.harbor.sent.length)))
  else none

/-- `harbor.call` that waits, in a thread. -/
def call (s : Network α) (node callee : CallNode) (func : Option String) : Option (Network α) := do
  let p := s.processes node
  let t ← p.harbor.co.active
  let co ← p.harbor.co.step .wait
  let co ← co.step .yield
  let asked := ⟨node, p.incarnation, callee, p.harbor.co.createSequence.1, s.asked.length⟩
  let s := (s.setProcess node
    { p with harbor := { p.harbor with co := co }, calling := p.suspend asked t }).post
      (p.send node callee (.rpc asked func))
  some { s with asked := s.asked ++ [asked] }

/-- `harbor.onCall`, `onCallNoRet` and `onRespone`, called from C. -/
def receive (serializes : α → Bool) (arguments : Option α → α) (p : Process α) (source : CallNode)
    (message : Message α) : Option (Process α) := do
  let h ← p.harbor.step serializes (.co .enter)
  match message with
  | .rpc asked func => do
    let harbor ← h.step serializes (.onCall source (some asked.seq) func)
    some { p with
      harbor := harbor
      origins := Function.update p.origins h.co.forks (some asked) }
  | .rpcnr func => do
    let harbor ← h.step serializes (.onCallNoRet source func)
    some { p with harbor := harbor }
  | .respone _ seq results => do
    let harbor ← h.step serializes (.co (.respone seq (arguments results)))
    let calling :=
      match h.co.waitSequence seq with
      | some running => Function.update p.calling running none
      | none => p.calling
    some { p with harbor := harbor, calling := calling }

def step (serializes : α → Bool) (arguments : Option α → α) (s : Network α) :
    NetworkLabel α → Option (Network α)
  | .script node l => s.script serializes node l
  | .call node callee func => s.call node callee func
  | .callNoRet node callee func => do
    let _ ← (s.processes node).harbor.co.active
    some (s.post ((s.processes node).send node callee (.rpcnr func)))
  | .deliver i => do
    let packet ← s.flight[i]?
    let p := s.processes packet.target
    if p.incarnation = packet.incarnation then do
      let p ← receive serializes arguments p packet.source packet.message
      some { s.setProcess packet.target p with flight := s.flight.eraseIdx i }
    else none
  | .lose i => some { s with flight := s.flight.eraseIdx i }
  | .opened node peer incarnation =>
    let p := s.processes node
    if incarnation ≤ (s.processes peer).incarnation then
      some (s.setProcess node { p with nodes := Function.update p.nodes peer (some incarnation) })
    else none
  | .closed node peer =>
    let p := s.processes node
    some (s.setProcess node { p with nodes := Function.update p.nodes peer none })
  | .restart node =>
    some (s.setProcess node (.start ((s.processes node).incarnation + 1)))

end Network

/-- Nodes under any calls, sessions and restarts. -/
def network {α : Type} (serializes : α → Bool) (arguments : Option α → α) :
    System (Network α) (NetworkLabel α) where
  init := .init
  step := Network.step serializes arguments

end HyperNet.Script
