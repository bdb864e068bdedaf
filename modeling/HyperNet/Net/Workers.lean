import HyperNet.Net.Items
import HyperNet.Net.Requests
import Mathlib.Algebra.Ring.Int.Defs
import Mathlib.Data.List.MinMax
import Mathlib.Data.List.Nodup
import Mathlib.Logic.Function.Basic

/-! # Connections that share workers (NetWorker.cpp, NetEngine::GetWorker)

A new connection is given to a worker that has a free slot, and stays there until `OnClose` removes
it. A worker serves the requests of all its connections from one queue and puts the results in
another. The main thread goes from one connection to another inside their callbacks: the stack
holds the callbacks it is in, with the connections that have called them.

A connection is its address, which may be that of one deleted before. There is no step where the
source would use a connection that is deleted, or a worker where none has a free slot. -/
namespace HyperNet.Net
open HyperNet.Api HyperNet.Public HyperNet.Core.History HyperNet.Core.Transition

/-! ## A connection -/

/-- What `SetBufferSize` and `SetParser` give to a connection. -/
structure Setup where
  sendSize : Nat
  recvSize : Nat
  parser : PacketParser
  send_pos : 0 < sendSize
  recv_pos : 0 < recvSize
  send_lt : sendSize < s32Bound
  recv_lt : recvSize < s32Bound

/-- The connection alone with a worker. -/
@[reducible] def Setup.config (s : Setup) : Config where
  sendSize := s.sendSize
  recvSize := s.recvSize
  maxConnection := 2
  parser := s.parser
  send_pos := s.send_pos
  recv_pos := s.recv_pos
  send_lt := s.send_lt
  recv_lt := s.recv_lt
  worker_pos := by decide

/-- For harbor frames, with small buffers. -/
def Setup.small : Setup :=
  ⟨Config.small.sendSize, Config.small.recvSize, Config.small.parser, Config.small.send_pos,
    Config.small.recv_pos, Config.small.send_lt, Config.small.recv_lt⟩

/-- A connection, and the number of its `_worker`. -/
structure Connection where
  setup : Setup
  worker : Nat
  send : SendSide setup.sendSize
  recv : RecvSide setup.recvSize

namespace Connection

def create (setup : Setup) (worker : Nat) : Connection where
  setup := setup
  worker := worker
  send := ⟨.sendNone, .empty, .empty⟩
  recv := ⟨.recvNone, .empty, .empty⟩

/-- The connection where its functions are called: the stack and the worker have nothing yet. -/
def world (c : Connection) : World c.setup.config where
  send := c.send
  recv := c.recv
  worker := .create 2
  pipe := true
  released := false
  stack := []
  trace := []

/-- What a function of the connection comes to. -/
structure Outcome where
  connection : Connection
  /-- The callback it ends in, if any. -/
  frames : List Frame
  /-- Its calls of `NetWorker::Send` and `NetWorker::Recv`. -/
  requests : List WorkRequest

def run (c : Connection) (f : World c.setup.config → Option (World c.setup.config)) :
    Option Outcome :=
  (f c.world).map fun w =>
    ⟨{ c with send := w.send, recv := w.recv }, w.stack, w.worker.workQueue.toList⟩

end Connection

/-! ## A worker -/

/-- `NetWorker`, with the connections in its requests and results. -/
structure SharedWorker (maxConnection : Nat) where
  nowConnection : Int
  workQueue : CycleQueue (Nat × WorkRequest)
  executing : Option (Nat × Item)
  resultQueue : CycleQueue (Nat × NetEventType)
  work_capacity : workQueue.capacity = maxConnection * 2
  result_capacity : resultQueue.capacity = maxConnection * 2

namespace SharedWorker
variable {m : Nat}

def create (m : Nat) : SharedWorker m where
  nowConnection := 0
  workQueue := .create (m * 2)
  executing := none
  resultQueue := .create (m * 2)
  work_capacity := rfl
  result_capacity := rfl

def getFreeSlot (wk : SharedWorker m) : Int := m - wk.nowConnection

def add (wk : SharedWorker m) : SharedWorker m :=
  { wk with nowConnection := wk.nowConnection + 1 }

def remove (wk : SharedWorker m) : SharedWorker m :=
  { wk with nowConnection := wk.nowConnection - 1 }

/-- `NetWorker::Recv` and `NetWorker::Send`. -/
def post (wk : SharedWorker m) (c : Nat) (r : WorkRequest) : SharedWorker m :=
  { wk with
    workQueue := wk.workQueue.push (c, r)
    work_capacity := (CycleQueue.capacity_push _ _).trans wk.work_capacity }

/-- `ThreadProc` reads a request. -/
def take (wk : SharedWorker m) : Option (SharedWorker m) :=
  match wk.executing, h : wk.workQueue.read with
  | none, some ((c, r), q) => some { wk with
      workQueue := q
      executing := some (c, .request r)
      work_capacity := (CycleQueue.capacity_read h).trans wk.work_capacity }
  | _, _ => none

/-- `DoRequest` has its event. -/
def finish (wk : SharedWorker m) (c : Nat) (e : NetEventType) : SharedWorker m :=
  { wk with executing := some (c, .result e) }

/-- `DoRequest` pushes its result. -/
def pushResult (wk : SharedWorker m) : Option (SharedWorker m) :=
  match wk.executing with
  | some (c, .result e) => some { wk with
      executing := none
      resultQueue := wk.resultQueue.push (c, e)
      result_capacity := (CycleQueue.capacity_push _ _).trans wk.result_capacity }
  | _ => none

/-- `Process` reads a result. -/
def readResult (wk : SharedWorker m) : Option ((Nat × NetEventType) × SharedWorker m) :=
  match h : wk.resultQueue.read with
  | some (r, q) => some (r, { wk with
      resultQueue := q
      result_capacity := (CycleQueue.capacity_read h).trans wk.result_capacity })
  | none => none

end SharedWorker

/-! ## The whole -/

/-- A `Push` on a queue of a worker, and whether it has found it full. -/
structure Pushed where
  worker : Nat
  full : Bool
  deriving DecidableEq

/-- The connections and `_workers`, of which there are `workerCount` for `size` connections. -/
structure Workers (size workerCount : Nat) where
  workers : Nat → SharedWorker (size / workerCount)
  /-- The connections between `Add` and `Remove`. -/
  live : List Nat
  conn : Nat → Connection
  stack : List (Nat × Frame)
  trace : List Pushed

/-- The steps of the main thread and of the workers, which have numbers. -/
inductive WorkersLabel
  /-- `Acceptor::OnIn` or `Connector::OnOut` makes a connection. -/
  | arrive (c : Nat) (setup : Setup)
  | send (c : Nat) (context : List UInt8)
  | close (c : Nat)
  | ret
  | onIn (c : Nat)
  | onOut (c : Nat)
  | onError (c : Nat)
  | process (k : Nat)
  | take (k : Nat)
  | runRecv (k : Nat) (rs : List RecvRes)
  | runSend (k : Nat) (rs : List SendRes)
  | push (k : Nat)

namespace Workers
variable {size workerCount : Nat}

/-- `NetEngine::Initialize`. -/
def init (size workerCount : Nat) : Workers size workerCount where
  workers := fun _ => .create _
  live := []
  conn := fun _ => .create .small 0
  stack := []
  trace := []

/-- The loop in `GetWorker`, from worker to worker. -/
def better (p : Workers size workerCount) (ret : Option Nat) (k : Nat) : Option Nat :=
  if 0 < (p.workers k).getFreeSlot then
    match ret with
    | none => some k
    | some r =>
      if (p.workers r).getFreeSlot < (p.workers k).getFreeSlot then some k else some r
  else ret

def getWorker (p : Workers size workerCount) : Option Nat :=
  (List.range workerCount).foldl p.better none

def setWorker (k : Nat) (wk : SharedWorker (size / workerCount)) (p : Workers size workerCount) :
    Workers size workerCount :=
  { p with workers := Function.update p.workers k wk }

def setConn (c : Nat) (conn : Connection) (p : Workers size workerCount) :
    Workers size workerCount :=
  { p with conn := Function.update p.conn c conn }

/-- The connection calls `_worker->Recv` or `_worker->Send`. -/
def post (c : Nat) (p : Workers size workerCount) (r : WorkRequest) : Workers size workerCount :=
  let k := (p.conn c).worker
  let wk := p.workers k
  { p.setWorker k (wk.post c r) with trace := p.trace ++ [⟨k, wk.workQueue.isFull⟩] }

/-- A function of the connection is called. -/
def call (c : Nat) (f : ∀ {cfg : Config}, World cfg → Option (World cfg))
    (p : Workers size workerCount) : Option (Workers size workerCount) :=
  ((p.conn c).run f).map fun o =>
    { (o.requests.foldl (post c) p).setConn c o.connection with
      stack := o.frames.map (c, ·) ++ p.stack }

/-- The rest of `OnClose`: `Remove`, and the connection is deleted. -/
def release (c : Nat) (p : Workers size workerCount) : Workers size workerCount :=
  let k := (p.conn c).worker
  { p.setWorker k (p.workers k).remove with live := p.live.erase c }

def step (p : Workers size workerCount) : WorkersLabel → Option (Workers size workerCount)
  | .arrive c setup =>
    if p.stack = [] ∧ c ∉ p.live then
      p.getWorker.map fun k => { (p.setWorker k (p.workers k).add).setConn c (.create setup k) with
        live := c :: p.live
        stack := [(c, .onConnected)] }
    else none
  | .send c context =>
    if c ∈ p.live ∧ context.length < s32Bound then p.call c (World.sendCall context) else none
  | .close c => if c ∈ p.live then p.call c World.closeCall else none
  | .ret =>
    match p.stack with
    | [] => none
    | (c, f) :: fs =>
      if c ∈ p.live then
        if f = .onDisconnected then some (release c { p with stack := fs })
        else call c (fun w => w.resume f) { p with stack := fs }
      -- `OnConnected` has nothing to do after its call of the session
      else if f = .onConnected then some { p with stack := fs }
      else none
  | .onIn c => if p.stack = [] ∧ c ∈ p.live then p.call c (World.onEvent .recv) else none
  | .onOut c => if p.stack = [] ∧ c ∈ p.live then p.call c (World.onEvent .sendReady) else none
  | .onError c =>
    if p.stack = [] ∧ c ∈ p.live then some { p with stack := [(c, .onError)] } else none
  | .process k =>
    if p.stack = [] then
      (p.workers k).readResult.bind fun o =>
        if o.1.1 ∈ p.live then (p.setWorker k o.2).call o.1.1 (World.onEvent o.1.2) else none
    else none
  | .take k => (p.workers k).take.map fun wk => p.setWorker k wk
  | .runRecv k rs =>
    match (p.workers k).executing with
    | some (c, .request .recv) =>
      let conn := p.conn c
      let (ret, b, _) := onRecv conn.recv.worked rs
      if c ∈ p.live then
        (recvEvent ret).map fun e =>
          (p.setConn c { conn with recv.worked := b }).setWorker k ((p.workers k).finish c e)
      else none
    | _ => none
  | .runSend k rs =>
    match (p.workers k).executing with
    | some (c, .request .send) =>
      let conn := p.conn c
      if c ∈ p.live then
        (onSend conn.send.worked rs).bind fun (ret, b, _) =>
          (sendEvent ret).map fun e =>
            (p.setConn c { conn with send.worked := b }).setWorker k ((p.workers k).finish c e)
      else none
    | _ => none
  | .push k =>
    (p.workers k).pushResult.map fun wk =>
      { p.setWorker k wk with trace := p.trace ++ [⟨k, (p.workers k).resultQueue.isFull⟩] }

section
variable {p p' : Workers size workerCount} {k : Nat}

/-- A worker has run `OnRecv` of a connection. -/
theorem runRecv_cases {rs : List RecvRes} (hs : p.step (.runRecv k rs) = some p') :
    ∃ c e, (p.workers k).executing = some (c, .request .recv) ∧ c ∈ p.live ∧
      recvEvent (onRecv (p.conn c).recv.worked rs).1 = some e ∧
      p' = (p.setConn c { p.conn c with
        recv.worked := (onRecv (p.conn c).recv.worked rs).2.1 }).setWorker k
          ((p.workers k).finish c e) := by
  simp only [step] at hs
  split at hs
  · next c hx =>
    split at hs
    · next hc =>
      obtain ⟨e, he, rfl⟩ := Option.map_eq_some_iff.mp hs
      exact ⟨c, e, hx, hc, he, rfl⟩
    · cases hs
  · cases hs

/-- A worker has run `OnSend` of a connection. -/
theorem runSend_cases {rs : List SendRes} (hs : p.step (.runSend k rs) = some p') :
    ∃ c e ret b bytes, (p.workers k).executing = some (c, .request .send) ∧ c ∈ p.live ∧
      onSend (p.conn c).send.worked rs = some (ret, b, bytes) ∧ sendEvent ret = some e ∧
      p' = (p.setConn c { p.conn c with send.worked := b }).setWorker k
        ((p.workers k).finish c e) := by
  simp only [step] at hs
  split at hs
  · next c hx =>
    split at hs
    · next hc =>
      obtain ⟨⟨ret, b, bytes⟩, ho, hs⟩ := Option.bind_eq_some_iff.mp hs
      obtain ⟨e, he, rfl⟩ := Option.map_eq_some_iff.mp hs
      exact ⟨c, e, ret, b, bytes, hx, hc, ho, he, rfl⟩
    · cases hs
  · cases hs

end

end Workers

/-! ## GetWorker -/

/-- `GetWorker`, from the free slots of the workers. -/
def getWorker (workerCount : Nat) (freeSlot : Nat → Int) : Option Nat :=
  (List.range workerCount).foldl (fun ret k =>
    if 0 < freeSlot k then
      match ret with
      | none => some k
      | some r => if freeSlot r < freeSlot k then some k else some r
    else ret) none

/-- It is `List.argmax` of the free slots: the first of the workers that have the most. -/
theorem getWorker_eq (workerCount : Nat) (freeSlot : Nat → Int) :
    getWorker workerCount freeSlot =
      ((List.range workerCount).filter fun k => 0 < freeSlot k).foldl
        (List.argAux fun k r => freeSlot r < freeSlot k) none := by
  rw [List.foldl_filter, getWorker]
  congr 1
  funext ret k
  cases ret <;> simp [List.argAux]

theorem getWorker_mem {workerCount k : Nat} {freeSlot : Nat → Int}
    (h : getWorker workerCount freeSlot = some k) : k < workerCount ∧ 0 < freeSlot k := by
  rw [getWorker_eq] at h
  have hmem := List.argmax_mem (f := freeSlot) h
  simpa using hmem

theorem getWorker_eq_none {workerCount : Nat} {freeSlot : Nat → Int} :
    getWorker workerCount freeSlot = none ↔ ∀ k < workerCount, freeSlot k ≤ 0 := by
  have hnone : getWorker workerCount freeSlot = none ↔
      (List.range workerCount).filter (fun k => 0 < freeSlot k) = [] := by
    rw [getWorker_eq]
    exact List.argmax_eq_none (f := freeSlot)
  rw [hnone, List.filter_eq_nil_iff]
  simp

/-- The engine's workers, from its start on. -/
def netWorkers (size workerCount : Nat) : System (Workers size workerCount) WorkersLabel :=
  ⟨.init size workerCount, Workers.step⟩

end HyperNet.Net
