import Mathlib.Tactic.Common

/-! # The send and the receive machine of a connection (kernel/net/state)

Each state class handles an event with one of a few bodies: it returns, it
changes the state, or it first calls `BeginSend`, `BeginRecv` or
`ProcessPacket`. A handler is the function from events to its body; what the
bodies do to a connection is in Connection. `ChangeState` runs `OnLeave` and
`OnEnter`, which are empty in all the states.

The lemmas say what a handler's choice means for the machine's request at the
worker (`busy`) and for its closing. Later modules use them in place of the
tables. -/
namespace HyperNet.Net

/-- `NetEventType`, `NEVT_*`. -/
inductive NetEventType
  | send | sendDone | sendError | sendReady | sendPending
  | recv | recvDone | recvError | recvClose
  | close | error
  deriving DecidableEq, Repr

/-- The events a SEND request comes back as. -/
def NetEventType.isSendResult : NetEventType → Bool
  | .sendDone | .sendError | .sendPending => true
  | _ => false

/-- The events a RECV request comes back as. -/
def NetEventType.isRecvResult : NetEventType → Bool
  | .recvDone | .recvError | .recvClose => true
  | _ => false

/-- The events after which neither direction can go on. -/
def NetEventType.fails : NetEventType → Bool
  | .close | .error | .sendError | .recvError | .recvClose => true
  | _ => false

/-- The events of `Close` and of an error of the socket. -/
def NetEventType.shuts : NetEventType → Bool
  | .close | .error => true
  | _ => false

/-! ## The send machine -/

inductive SendState
  | sendNone | sending | sendPending | sendingWait | sendingReady | sendingReadyWait
  | sendingWaitClose | sendWaitClose | sendClose
  deriving DecidableEq, Repr

/-- The bodies of the send states' handlers. `beginSend s` is
`if (BeginSend()) ChangeSendState(s) else ChangeSendState(SendClose)`. -/
inductive SendAction
  | stay
  | change (s : SendState)
  | beginSend (s : SendState)
  deriving DecidableEq, Repr

def SendNone.onEvent : NetEventType → SendAction
  | .sendPending | .sendDone | .sendError | .sendReady => .stay
  | .send => .beginSend .sending
  | .recvError | .recvClose | .close | .error => .change .sendClose
  | _ => .stay

def Sending.onEvent : NetEventType → SendAction
  | .sendPending => .change .sendPending
  | .sendDone => .change .sendNone
  | .sendError => .change .sendClose
  | .sendReady => .change .sendingReady
  | .send => .change .sendingWait
  | .recvError | .recvClose | .close | .error => .change .sendWaitClose
  | _ => .stay

def SendPending.onEvent : NetEventType → SendAction
  | .sendReady => .beginSend .sending
  | .recvError | .recvClose | .close | .error => .change .sendClose
  | _ => .stay

def SendingWait.onEvent : NetEventType → SendAction
  | .sendPending => .change .sendPending
  | .sendDone => .beginSend .sending
  | .sendError => .change .sendClose
  | .sendReady => .change .sendingReadyWait
  | .send => .stay
  | .recvError | .recvClose | .close | .error => .change .sendingWaitClose
  | _ => .stay

def SendingReady.onEvent : NetEventType → SendAction
  | .sendPending => .beginSend .sending
  | .sendDone => .change .sendNone
  | .sendReady => .stay
  | .send => .change .sendingReadyWait
  | .sendError => .change .sendClose
  | .recvError | .recvClose | .close | .error => .change .sendingWaitClose
  | _ => .stay

def SendingReadyWait.onEvent : NetEventType → SendAction
  | .sendPending | .sendDone => .beginSend .sending
  | .sendError => .change .sendClose
  | .sendReady | .send => .stay
  | .recvError | .recvClose | .close | .error => .change .sendingWaitClose
  | _ => .stay

def SendingWaitClose.onEvent : NetEventType → SendAction
  | .sendPending | .sendError => .change .sendClose
  | .sendDone => .beginSend .sendWaitClose
  | .recvError | .recvClose => .change .sendWaitClose
  | _ => .stay

def SendWaitClose.onEvent : NetEventType → SendAction
  | .sendPending | .sendDone | .sendError => .change .sendClose
  | _ => .stay

def SendClose.onEvent : NetEventType → SendAction := fun _ => .stay

namespace SendState

/-- `_sendMachine.OnEvent`: the current state's handler. -/
def onEvent : SendState → NetEventType → SendAction
  | .sendNone => SendNone.onEvent
  | .sending => Sending.onEvent
  | .sendPending => SendPending.onEvent
  | .sendingWait => SendingWait.onEvent
  | .sendingReady => SendingReady.onEvent
  | .sendingReadyWait => SendingReadyWait.onEvent
  | .sendingWaitClose => SendingWaitClose.onEvent
  | .sendWaitClose => SendWaitClose.onEvent
  | .sendClose => SendClose.onEvent

/-- The states in which a SEND request is at the worker. -/
def busy : SendState → Bool
  | .sending | .sendingWait | .sendingReady | .sendingReadyWait
  | .sendingWaitClose | .sendWaitClose => true
  | _ => false

def closing : SendState → Bool
  | .sendingWaitClose | .sendWaitClose | .sendClose => true
  | _ => false

variable {s t : SendState} {e : NetEventType}

theorem busy_iff : s.busy = true ↔ s ∈ [sending, sendingWait, sendingReady, sendingReadyWait,
    sendingWaitClose, sendWaitClose] := by
  cases s <;> decide

/-- A state with a request at the worker handles each of its results. -/
theorem busy_of_stay (h : s.onEvent e = .stay) : s.busy = (s.busy && !e.isSendResult) := by
  cases s <;> cases e <;> first | rfl | cases h

/-- A change gives up the request exactly on a result. -/
theorem busy_of_change (h : s.onEvent e = .change t) : t.busy = (s.busy && !e.isSendResult) := by
  cases s <;> cases e <;> cases h <;> rfl

/-- `BeginSend` is called with no request at the worker. -/
theorem busy_of_beginSend (h : s.onEvent e = .beginSend t) :
    t.busy = true ∧ s.busy = e.isSendResult := by
  cases s <;> cases e <;> cases h <;> exact ⟨rfl, rfl⟩

theorem closing_iff : s.closing = true ↔ s ∈ [sendingWaitClose, sendWaitClose, sendClose] := by
  cases s <;> decide

/-- A closing machine takes no notice of `Send`. -/
theorem closing_send (hc : s.closing = true) : s.onEvent .send = .stay := by
  revert hc
  cases s <;> decide

/-- A failure is ignored in a closing state only, if a result meets its request. -/
theorem closing_of_stay (h : s.onEvent e = .stay) (hf : e.fails = true)
    (hb : e.isSendResult = true → s.busy = true) : s.closing = true := by
  revert h hf hb
  cases s <;> cases e <;> decide

theorem closing_of_change (h : s.onEvent e = .change t) : t.closing = (s.closing || e.fails) := by
  cases s <;> cases e <;> cases h <;> rfl

theorem closing_of_beginSend (h : s.onEvent e = .beginSend t) :
    t.closing = s.closing ∧ e.fails = false := by
  cases s <;> cases e <;> cases h <;> exact ⟨rfl, rfl⟩

/-- The one closing state that still begins a send. -/
theorem closing_beginSend (h : s.onEvent e = .beginSend t) (hc : s.closing = true) :
    s = .sendingWaitClose ∧ e = .sendDone := by
  revert hc
  cases s <;> cases e <;> cases h <;> decide

/-- The states in which the using buffer is empty. -/
def drained : SendState → Bool
  | .sendNone | .sending | .sendingReady => true
  | _ => false

/-- The states that have seen no `NEVT_SEND_READY` since their request was made. -/
def unready : SendState → Bool
  | .sending | .sendingWait | .sendPending => true
  | _ => false

/-- The states that owe the using buffer a send. -/
def waiting : SendState → Bool
  | .sendingWait | .sendingReadyWait => true
  | _ => false

/-- A drained state leaves on `Send`. -/
theorem drained_of_stay (h : s.onEvent e = .stay) (hd : s.drained = true) : e ≠ .send := by
  rintro rfl
  revert h hd
  cases s <;> decide

theorem drained_of_change (h : s.onEvent e = .change t) (hd : t.drained = true) :
    s.drained = true ∧ e ≠ .send := by
  revert hd
  cases s <;> cases e <;> cases h <;> decide

/-- A state that has seen no edge leaves on one. -/
theorem unready_of_stay (h : s.onEvent e = .stay) (hu : s.unready = true) : e ≠ .sendReady := by
  rintro rfl
  revert h hu
  cases s <;> decide

theorem unready_of_change (h : s.onEvent e = .change t) (hu : t.unready = true) :
    s.unready = true ∧ e ≠ .sendReady := by
  revert hu
  cases s <;> cases e <;> cases h <;> decide

theorem waiting_of_change (h : s.onEvent e = .change t) (hw : t.waiting = true) :
    s.waiting = true ∨ e = .send := by
  revert hw
  cases s <;> cases e <;> cases h <;> decide

/-- The machine rests only with the result that allows it. -/
theorem result_of_change (h : s.onEvent e = .change t) :
    (t = .sendNone → e = .sendDone) ∧ (t = .sendPending → e = .sendPending) := by
  cases s <;> cases e <;> cases h <;> decide

/-- `BeginSend` leads to a state with a request, never to one that waits. -/
theorem beginSend_target (h : s.onEvent e = .beginSend t) : t = .sending ∨ t = .sendWaitClose := by
  cases s <;> cases e <;> cases h <;> decide

/-- Why there is something to send when `BeginSend` is called; after `SendingWaitClose`
there may be nothing. -/
theorem beginSend_source (h : s.onEvent e = .beginSend t) :
    e = .send ∨ s = .sendPending ∨ e = .sendPending ∨ s.waiting = true ∨
      s = .sendingWaitClose ∧ e = .sendDone := by
  cases s <;> cases e <;> cases h <;> decide

/-- Where the working buffer may still hold bytes when `BeginSend` adds to them: nothing was
sent before, all of it was, there is nothing to add, or the last send was cut short. -/
theorem beginSend_worked (h : s.onEvent e = .beginSend t) :
    s = .sendNone ∨ e = .sendDone ∨ s = .sendingReady ∧ e ≠ .send ∨
      s = .sendPending ∧ e = .sendReady ∨ s = .sendingReadyWait ∧ e = .sendPending := by
  cases s <;> cases e <;> cases h <;> decide

/-- An error result ends the send direction. -/
theorem onEvent_sendError (hb : s.busy = true) : s.onEvent .sendError = .change .sendClose := by
  revert hb
  cases s <;> decide

/-- What the machine closes from while nothing fails and no send is cut short. -/
theorem sendClose_source (h : s.onEvent e = .change .sendClose) (hf : e.fails = e.shuts)
    (hp : e ≠ .sendPending) :
    s = .sendNone ∨ s = .sendPending ∨ s = .sendWaitClose ∧ e = .sendDone := by
  revert hf hp
  cases s <;> cases e <;> cases h <;> decide

theorem sendWaitClose_source (h : s.onEvent e = .change .sendWaitClose)
    (hf : e.fails = e.shuts) : s = .sending := by
  revert hf
  cases s <;> cases e <;> cases h <;> decide

theorem rest_of_not_busy (hb : s.busy = false) (hc : s.closing = false) :
    s = .sendNone ∨ s = .sendPending := by
  revert hb hc
  cases s <;> decide

theorem close_of_not_busy (hb : s.busy = false) (hc : s.closing = true) : s = .sendClose := by
  revert hb hc
  cases s <;> decide

end SendState

/-! ## The receive machine -/

inductive RecvState
  | recvNone | recving | recvingWait | recvWaitClose | recvClose
  deriving DecidableEq, Repr

/-- The bodies of the receive states' handlers. `processPacket again` is
`if (ProcessPacket()) … else ChangeRecvState(RecvClose)`, where `…` is
`BeginRecv(); ChangeRecvState(Recving)` if `again` and
`ChangeRecvState(RecvNone)` otherwise. -/
inductive RecvAction
  | stay
  | change (s : RecvState)
  | beginRecv (s : RecvState)
  | processPacket (again : Bool)
  deriving DecidableEq, Repr

def RecvNone.onEvent : NetEventType → RecvAction
  | .recv => .beginRecv .recving
  | .error | .close | .sendError | .recvError | .recvClose => .change .recvClose
  | _ => .stay

def Recving.onEvent : NetEventType → RecvAction
  | .recv => .change .recvingWait
  | .recvDone => .processPacket false
  | .error | .close | .sendError => .change .recvWaitClose
  | .recvError | .recvClose => .change .recvClose
  | _ => .stay

def RecvingWait.onEvent : NetEventType → RecvAction
  | .recv => .stay
  | .recvDone => .processPacket true
  | .error | .close | .sendError => .change .recvWaitClose
  | .recvError | .recvClose => .change .recvClose
  | _ => .stay

def RecvWaitClose.onEvent : NetEventType → RecvAction
  | .recvDone | .recvError | .recvClose => .change .recvClose
  | _ => .stay

def RecvClose.onEvent : NetEventType → RecvAction := fun _ => .stay

namespace RecvState

/-- `_recvMachine.OnEvent`: the current state's handler. -/
def onEvent : RecvState → NetEventType → RecvAction
  | .recvNone => RecvNone.onEvent
  | .recving => Recving.onEvent
  | .recvingWait => RecvingWait.onEvent
  | .recvWaitClose => RecvWaitClose.onEvent
  | .recvClose => RecvClose.onEvent

/-- The states in which a RECV request is at the worker. -/
def busy : RecvState → Bool
  | .recving | .recvingWait | .recvWaitClose => true
  | _ => false

def closing : RecvState → Bool
  | .recvWaitClose | .recvClose => true
  | _ => false

variable {s t : RecvState} {e : NetEventType} {again : Bool}

theorem busy_iff : s.busy = true ↔ s ∈ [recving, recvingWait, recvWaitClose] := by
  cases s <;> decide

theorem busy_of_stay (h : s.onEvent e = .stay) : s.busy = (s.busy && !e.isRecvResult) := by
  cases s <;> cases e <;> first | rfl | cases h

theorem busy_of_change (h : s.onEvent e = .change t) : t.busy = (s.busy && !e.isRecvResult) := by
  cases s <;> cases e <;> cases h <;> rfl

/-- A result that is not processed closes. -/
theorem change_of_result (h : s.onEvent e = .change t) (he : e.isRecvResult = true) :
    t = .recvClose := by
  revert he
  cases s <;> cases e <;> cases h <;> decide

/-- A result that ends the stream closes whichever state it meets. -/
theorem onEvent_ends (hb : s.busy = true) (he : e = .recvError ∨ e = .recvClose) :
    s.onEvent e = .change .recvClose := by
  revert hb
  rcases he with rfl | rfl <;> cases s <;> decide

/-- The machine waits to close only on a failure of the local side. -/
theorem waitClose_of_change (h : s.onEvent e = .change .recvWaitClose) :
    e = .close ∨ e = .error ∨ e = .sendError := by
  revert h
  cases s <;> cases e <;> decide

theorem not_close_of_change (h : s.onEvent e = .change t) : s ≠ .recvClose := by
  rintro rfl
  cases h

/-- A plain change leads neither to rest nor to a read. -/
theorem rest_of_change (h : s.onEvent e = .change t) : t ≠ .recvNone ∧ t ≠ .recving := by
  cases s <;> cases e <;> cases h <;> decide

/-- A state that ignores an edge has seen one or is closing. -/
theorem stay_of_recv (h : s.onEvent .recv = .stay) : s ≠ .recvNone ∧ s ≠ .recving := by
  revert h
  cases s <;> decide

/-- `BeginRecv` is called on an edge only. -/
theorem beginRecv_cases (h : s.onEvent e = .beginRecv t) : e = .recv ∧ t = .recving := by
  cases s <;> cases e <;> cases h
  exact ⟨rfl, rfl⟩

/-- `BeginRecv` is called with no request at the worker. -/
theorem busy_of_beginRecv (h : s.onEvent e = .beginRecv t) :
    t.busy = true ∧ s.busy = false ∧ e.isRecvResult = false := by
  cases s <;> cases e <;> cases h
  exact ⟨rfl, rfl, rfl⟩

/-- `ProcessPacket` runs on the result of the one request. -/
theorem processPacket_cases (h : s.onEvent e = .processPacket again) :
    e = .recvDone ∧ s = if again then .recvingWait else .recving := by
  cases s <;> cases e <;> cases h <;> exact ⟨rfl, rfl⟩

theorem closing_iff : s.closing = true ↔ s ∈ [recvWaitClose, recvClose] := by
  cases s <;> decide

theorem closing_of_stay (h : s.onEvent e = .stay) (hf : e.fails = true) : s.closing = true := by
  revert h hf
  cases s <;> cases e <;> decide

theorem closing_of_change (h : s.onEvent e = .change t) : t.closing = (s.closing || e.fails) := by
  cases s <;> cases e <;> cases h <;> rfl

theorem closing_of_beginRecv (h : s.onEvent e = .beginRecv t) :
    t.closing = false ∧ s.closing = false ∧ e.fails = false := by
  cases s <;> cases e <;> cases h
  exact ⟨rfl, rfl, rfl⟩

theorem close_of_not_busy (hb : s.busy = false) (hc : s.closing = true) : s = .recvClose := by
  revert hb hc
  cases s <;> decide

end RecvState
end HyperNet.Net
