import HyperNet.Api.PacketParser
import HyperNet.Core.Transition
import HyperNet.Logic.Frame
import HyperNet.Net.NetWorker

/-! # One connection, its worker and its session (Connection.cpp)

The main thread runs an event to its end, except that it can be left inside a
callback of the session: the stack holds the callbacks it is in. There the
session may call `Send` and `Close` on its pipe, which runs a nested event, or
return, which resumes what called it. The worker takes its own steps at any
time. The main thread is at an event boundary when the stack is empty.

`Option` stands for undefined behaviour and for the end of the process: a function
has no result where the source would copy past the end of a buffer, or where an
assertion fails (Buffer). A `::send` that fails as the peer is gone may also raise
`SIGPIPE`, which nothing ignores; a run that the signal ends has no further steps.

The trace is not part of the program. It records, in order, what a property of
whole runs speaks of. -/
namespace HyperNet.Net
open HyperNet.Public HyperNet.Api HyperNet.Core.Transition

/-! ## The two sides of a connection -/

/-- `_sendMachine` and `_sendbuffer`: `worked` is the buffer at `INDEX_WORKING`, `used`
the one at `INDEX_USING`. -/
structure SendSide (n : Nat) where
  state : SendState
  worked : Buffer n
  used : Buffer n
  deriving DecidableEq

namespace SendSide
variable {n : Nat}

/-- `BeginSend`, up to the call of the worker: whether it gets there. -/
def beginSend (s : SendSide n) : Option (Bool × SendSide n) :=
  if 0 < s.used.offset then
    if s.worked.exceeds s.used.offset then some (false, s)
    else (s.worked.append? s.used.data).map fun b => (true, { s with worked := b, used := .empty })
  else some (true, s)

/-- `_sendMachine.OnEvent`, and whether it has called `_worker->Send`. -/
def onEvent (e : NetEventType) (s : SendSide n) : Option (Bool × SendSide n) :=
  match s.state.onEvent e with
  | .stay => some (false, s)
  | .change t => some (false, { s with state := t })
  | .beginSend t => s.beginSend.map fun (ok, s) =>
      (ok, { s with state := if ok then t else .sendClose })

end SendSide

/-- `_recvMachine` and `_recvbuffer`. -/
structure RecvSide (n : Nat) where
  state : RecvState
  worked : Buffer n
  used : Buffer n
  deriving DecidableEq

/-- Where the loop of `ProcessPacket` gets to: its return, or `session->OnRecv` on the
`u` bytes at `pos`. -/
inductive Parsing
  | done (ok : Bool)
  | onRecv (pos u : Nat)
  deriving DecidableEq

namespace RecvSide
variable {n : Nat}

/-- The loop of `ProcessPacket` from `pos` on. Only the normal exit moves the rest of
the bytes to the front. -/
def parse (p : PacketParser) (pos : Nat) (r : RecvSide n) : Parsing × RecvSide n :=
  if pos < r.used.offset then
    let u := p.parsePacket (r.used.data.drop pos)
    if u = 0 then (.done true, { r with used := r.used.drop pos })
    else if 0 < u then (.onRecv pos u.toNat, r)
    else (.done false, r)
  else (.done true, { r with used := r.used.drop pos })

/-- `ProcessPacket`, up to its first call of the session. -/
def processPacket (p : PacketParser) (r : RecvSide n) : Option (Parsing × RecvSide n) :=
  if 0 < r.worked.offset then
    if r.used.exceeds r.worked.offset then some (.done false, r)
    else (r.used.append? r.worked.data).map fun b =>
      parse p 0 { r with used := b, worked := .empty }
  else some (.done true, r)

/-- The bytes that `ProcessPacket` takes from the working buffer. -/
def taken (r : RecvSide n) : List UInt8 :=
  if r.used.exceeds r.worked.offset then [] else r.worked.data

end RecvSide

/-! ## The whole -/

/-- What a connection is made with. The buffer sizes are positive (asserted in
`Acceptor::accept` and `Connector::OnOut`), and `GetWorker` gives a worker that has
a free slot. -/
structure Config where
  sendSize : Nat
  recvSize : Nat
  maxConnection : Nat
  parser : PacketParser
  send_pos : 0 < sendSize
  recv_pos : 0 < recvSize
  send_lt : sendSize < s32Bound
  recv_lt : recvSize < s32Bound
  worker_pos : 0 < maxConnection

/-- A connection that carries harbor frames through small buffers. -/
def Config.small : Config where
  sendSize := 4
  recvSize := 18
  maxConnection := 1
  parser := Logic.Harbor.packetParser
  send_pos := by decide
  recv_pos := by decide
  send_lt := by decide
  recv_lt := by decide
  worker_pos := by decide

/-- A callback of the session that the main thread is in, with what its caller
does next: the loop of `ProcessPacket` at `pos`, called from `RecvingWait` if
`again` and from `Recving` otherwise. -/
inductive Frame
  | onConnected
  | onRecv (pos u : Nat) (again : Bool)
  | onError
  | onDisconnected
  deriving DecidableEq

/-- What a run leaves in its trace. -/
inductive Obs
  /-- `Send`, and whether its capacity check accepted the context. -/
  | send (context : List UInt8) (accepted : Bool)
  | close
  /-- `OnEvent` hands the event to both machines. -/
  | dispatch (e : NetEventType)
  /-- `BeginSend` calls the worker: SEND items it had, offset of the working buffer. -/
  | beginSend (outstanding offset : Nat)
  | beginRecv
  /-- `ProcessPacket`: RECV items at the worker, bytes taken from the working buffer. -/
  | processPacket (outstanding : Nat) (bytes : List UInt8)
  /-- `ProcessPacket` returns. -/
  | packetsDone (ok : Bool)
  | onConnected
  | onRecv (packet : List UInt8)
  | onError (errno : Int)
  | onDisconnected
  /-- `OnClose`, and the items at the worker. -/
  | onClose (outstanding : Nat)
  /-- The end of `OnClose`: the connection is deleted. -/
  | release
  /-- The worker runs `OnRecv`: offset it starts with, bytes received, result. -/
  | workerRecv (offset : Nat) (bytes : List UInt8) (ret : WRet)
  /-- The worker runs `OnSend`: offset it starts with, bytes handed to the kernel, result. -/
  | workerSend (offset : Nat) (bytes : List UInt8) (ret : WRet)
  deriving DecidableEq

structure World (cfg : Config) where
  send : SendSide cfg.sendSize
  recv : RecvSide cfg.recvSize
  worker : NetWorker cfg.maxConnection
  /-- Whether `_pipe` of the session is set. -/
  pipe : Bool
  /-- `OnClose` has run to its end: `DEL this`. -/
  released : Bool
  stack : List Frame
  trace : List Obs

namespace World
variable {cfg : Config}

/-- The connection as `Acceptor::OnIn` or `Connector::OnOut` has set it up, inside
`session->OnConnected`. -/
def init (cfg : Config) : World cfg where
  send := ⟨.sendNone, .empty, .empty⟩
  recv := ⟨.recvNone, .empty, .empty⟩
  worker := .create cfg.maxConnection
  pipe := true
  released := false
  stack := [.onConnected]
  trace := [.onConnected]

def log (o : Obs) (w : World cfg) : World cfg := { w with trace := w.trace ++ [o] }

def sendItems (w : World cfg) : List Item := w.worker.items.filter Item.isSend

def recvItems (w : World cfg) : List Item := w.worker.items.filter Item.isRecv

/-- The result that `Process` would handle. -/
def nextResult (w : World cfg) : Option NetEventType := w.worker.readResult.map Prod.fst

/-- `_sendMachine.OnEvent(evt)`. -/
def sendMachine (e : NetEventType) (w : World cfg) : Option (World cfg) :=
  (w.send.onEvent e).map fun (posted, s) =>
    if posted then
      { w with
        send := s
        worker := w.worker.post .send
        trace := w.trace ++ [.beginSend w.sendItems.length s.worked.offset] }
    else { w with send := s }

def changeRecvState (s : RecvState) (w : World cfg) : World cfg :=
  { w with recv.state := s }

def beginRecv (w : World cfg) : World cfg :=
  { w with worker := w.worker.post .recv, trace := w.trace ++ [.beginRecv] }

/-- `OnClose`, up to its call of the session. -/
def onClose (w : World cfg) : World cfg :=
  { w with
    stack := .onDisconnected :: w.stack
    trace := w.trace ++ [.onClose w.worker.items.length, .onDisconnected] }

/-- The last lines of `OnEvent`. -/
def releaseCheck (w : World cfg) : World cfg :=
  if w.send.state = .sendClose ∧ w.recv.state = .recvClose then w.onClose else w

/-- What `Recving` and `RecvingWait` do with the result of `ProcessPacket`. -/
def endPacket (again ok : Bool) (w : World cfg) : World cfg :=
  if ok then
    if again then w.beginRecv.changeRecvState .recving else w.changeRecvState .recvNone
  else w.changeRecvState .recvClose

/-- On from where the loop of `ProcessPacket` has got to: into the session, or out
of `ProcessPacket` and to the end of `OnEvent`. -/
def runPacket (again : Bool) (o : Parsing × RecvSide cfg.recvSize) (w : World cfg) : World cfg :=
  match o.1 with
  | .onRecv pos u => { w with
      recv := o.2
      stack := .onRecv pos u again :: w.stack
      trace := w.trace ++ [.onRecv ((o.2.used.data.drop pos).take u)] }
  | .done ok =>
    (endPacket again ok { w with
      recv := o.2, trace := w.trace ++ [.packetsDone ok] }).releaseCheck

/-- `_recvMachine.OnEvent(evt)` and the rest of `OnEvent`. -/
def recvMachine (e : NetEventType) (w : World cfg) : Option (World cfg) :=
  match w.recv.state.onEvent e with
  | .stay => some w.releaseCheck
  | .change s => some (w.changeRecvState s).releaseCheck
  | .beginRecv s => some (w.beginRecv.changeRecvState s).releaseCheck
  | .processPacket again => (w.recv.processPacket cfg.parser).map fun o =>
      (w.log (.processPacket w.recvItems.length w.recv.taken)).runPacket again o

/-- `Connection::OnEvent`. -/
def onEvent (e : NetEventType) (w : World cfg) : Option (World cfg) :=
  ((w.log (.dispatch e)).sendMachine e).bind (recvMachine e)

/-- `Connection::Send`. -/
def sendCall (context : List UInt8) (w : World cfg) : Option (World cfg) :=
  if w.send.used.exceeds context.length then (w.log (.send context false)).onEvent .error
  else (w.send.used.append? context).bind fun b =>
    onEvent .send { w with send.used := b, trace := w.trace ++ [.send context true] }

/-- `Connection::Close`. -/
def closeCall (w : World cfg) : Option (World cfg) := (w.log .close).onEvent .close

/-- A callback has returned: the rest of its caller. -/
def resume (w : World cfg) : Frame → Option (World cfg)
  | .onConnected => some w
  | .onRecv pos u again => some (w.runPacket again (w.recv.parse cfg.parser (pos + u)))
  | .onError => w.onEvent .error
  | .onDisconnected => some { w with
      pipe := false, released := true, trace := w.trace ++ [.release] }

end World

/-- One step of the main thread or of the worker. `send` and `close` are calls
through the session, by itself or by other code; `onIn`, `onOut` and `onError`
come from the engine, `process` is one result in `NetWorker::Process`; `take`,
`runRecv`, `runSend` and `push` are `ThreadProc`, with the answers of the socket. -/
inductive Label
  | send (context : List UInt8)
  | close
  | ret
  | onIn
  | onOut
  | onError (errno : Int)
  | process
  | take
  | runRecv (rs : List RecvRes)
  | runSend (rs : List SendRes)
  | push
  deriving DecidableEq

namespace World
variable {cfg : Config}

/-- The engine finds the connection in its table, and the main thread is free. -/
def idle (w : World cfg) : Bool := w.stack.isEmpty && !w.released

theorem idle_iff {w : World cfg} : w.idle = true ↔ w.stack = [] ∧ w.released = false := by
  simp [idle]

def step (w : World cfg) : Label → Option (World cfg)
  | .send context =>
    if w.pipe then (if context.length < s32Bound then w.sendCall context else none) else some w
  | .close => if w.pipe then w.closeCall else some w
  | .ret =>
    match w.stack with
    | [] => none
    | f :: fs => ({ w with stack := fs }).resume f
  | .onIn => if w.idle then w.onEvent .recv else none
  | .onOut => if w.idle then w.onEvent .sendReady else none
  | .onError errno =>
    if w.idle then
      some { w with stack := .onError :: w.stack, trace := w.trace ++ [.onError errno] }
    else none
  | .process =>
    if w.stack.isEmpty then
      w.worker.readResult.bind fun (e, wk) => ({ w with worker := wk }).onEvent e
    else none
  | .take => w.worker.take.map fun wk => { w with worker := wk }
  | .runRecv rs =>
    match w.worker.executing with
    | some (.request .recv) =>
      let (ret, b, bytes) := onRecv w.recv.worked rs
      (recvEvent ret).map fun e => { w with
        recv.worked := b
        worker := w.worker.finish e
        trace := w.trace ++ [.workerRecv w.recv.worked.offset bytes ret] }
    | _ => none
  | .runSend rs =>
    match w.worker.executing with
    | some (.request .send) =>
      (onSend w.send.worked rs).bind fun (ret, b, bytes) =>
        (sendEvent ret).map fun e => { w with
          send.worked := b
          worker := w.worker.finish e
          trace := w.trace ++ [.workerSend w.send.worked.offset bytes ret] }
    | _ => none
  | .push => w.worker.pushResult.map fun wk => { w with worker := wk }

end World

/-- The connection and its worker, from `OnConnected` on. -/
def system (cfg : Config) : System (World cfg) Label := ⟨.init cfg, World.step⟩

/-- The states reached by any session, socket and interleaving. -/
abbrev Reachable {cfg : Config} (w : World cfg) : Prop := (system cfg).Reachable w

end HyperNet.Net
