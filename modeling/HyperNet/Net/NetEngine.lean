import HyperNet.Core.History
import HyperNet.Core.Transition
import Mathlib.Data.List.Nodup
import Mathlib.Logic.Function.Basic

/-! # The engine (NetEngine.cpp, Connector.cpp, Acceptor.cpp)

`Loop` goes through what `epoll_wait` has collected and looks up the handler of an event by
the number of its socket, up to three times an event. Handlers call their sessions, and a session,
like all code of the main thread outside the loop, may dial, listen, and close connections. The
stack holds the calls the main thread is in.

A number stands for a socket as long as that is open, and the system may give any free one to
the next socket. What tells the sockets apart is `socket`, which the program does not have. What a
`Connection` does with an event is left open: it calls its session, and `OnClose` of any
connection may come of it. -/
namespace HyperNet.Net
open HyperNet.Core.History HyperNet.Core.Transition

/-! ## Handlers and events -/

/-- The classes of handlers; a connector and a connection have a session. -/
inductive HandlerKind (σ : Type)
  | acceptor
  | connector (session : σ)
  | connection (session : σ)
  deriving DecidableEq

/-- `INetHandler`, with the socket that its `_fd` was made for. -/
structure INetHandler (σ : Type) where
  kind : HandlerKind σ
  fd : Nat
  socket : Nat
  deriving DecidableEq

/-- A socket in the interest list of `_epollFd`. Errors are always reported. -/
structure Registration where
  socket : Nat
  fd : Nat
  epollin : Bool
  epollout : Bool
  deriving DecidableEq

/-- One of `_events`. -/
structure EpollEvent where
  socket : Nat
  fd : Nat
  epollerr : Bool
  epollout : Bool
  epollin : Bool
  deriving DecidableEq

inductive EpollFlag
  | epollerr | epollout | epollin
  deriving DecidableEq

/-- A test in `Loop` that finds the flag of an event set. -/
structure Lookup where
  socket : Nat
  fd : Nat
  flag : EpollFlag
  deriving DecidableEq

/-- The body of the loop over `_events`. -/
def EpollEvent.lookups (e : EpollEvent) : List Lookup :=
  (if e.epollerr then [⟨e.socket, e.fd, .epollerr⟩] else []) ++
  (if e.epollout then [⟨e.socket, e.fd, .epollout⟩] else []) ++
  if e.epollin then [⟨e.socket, e.fd, .epollin⟩] else []

theorem EpollEvent.lookup_of (e : EpollEvent) {q : Lookup} (h : q ∈ e.lookups) :
    q.socket = e.socket ∧ q.fd = e.fd := by
  have one : ∀ (b : Bool) (f : EpollFlag),
      (q ∈ if b then [(⟨e.socket, e.fd, f⟩ : Lookup)] else []) →
        q.socket = e.socket ∧ q.fd = e.fd := by
    intro b f hq
    cases b with
    | false => cases hq
    | true => rw [List.mem_singleton.mp hq]; exact ⟨rfl, rfl⟩
  rcases List.mem_append.mp h with h | h
  · rcases List.mem_append.mp h with h | h
    · exact one _ _ h
    · exact one _ _ h
  · exact one _ _ h

/-- An event that the registration allows. -/
def EpollEvent.allowed (e : EpollEvent) (r : Registration) : Bool :=
  e.socket == r.socket && e.fd == r.fd && (!e.epollout || r.epollout) && (!e.epollin || r.epollin)

/-- How `Connect` and `Listen` end: `socket` fails; a later call fails and the socket is closed;
the handler is made. The number is that of the socket. -/
inductive Opening
  | noSocket
  | closed (fd : Nat)
  | made (fd : Nat)
  deriving DecidableEq

/-- What the function returns. -/
def Opening.ok : Opening → Bool
  | .made _ => true
  | _ => false

/-- A call that the main thread is in. -/
inductive EngineFrame (σ : Type)
  /-- `Acceptor::OnIn`, at its call of `accept`. -/
  | onIn
  | onConnected (session : σ)
  | onConnectFailed (session : σ)
  /-- `OnIn`, `OnOut` or `OnError` of a connection. -/
  | connection
  /-- `Connection::OnClose`, in `session->OnDisconnected`. -/
  | onDisconnected (session : σ) (fd socket : Nat)
  /-- What runs outside the loop over `_events`: `NetWorker::Process`, timers and modules. -/
  | outside
  deriving DecidableEq

/-- A handler is called for an event. -/
structure Delivery (σ : Type) where
  lookup : Lookup
  handler : INetHandler σ
  deriving DecidableEq

/-- The event is handed to a handler of the socket that it was collected for. -/
def Delivery.own {σ : Type} (d : Delivery σ) : Bool := d.handler.socket == d.lookup.socket

structure NetEngine (σ : Type) where
  /-- The numbers of the open sockets of the process. -/
  sockets : Nat → Option Nat
  /-- The sockets opened so far. -/
  opened : Nat
  interest : List Registration
  handlers : List (INetHandler σ)
  /-- What is left of `_events`. -/
  lookups : List Lookup
  stack : List (EngineFrame σ)
  trace : List (Delivery σ)

inductive EngineLabel (σ : Type)
  /-- `epoll_wait` returns. -/
  | wait (events : List EpollEvent)
  /-- The next flag that is set in `_events`. -/
  | next
  | outside
  /-- `::accept` returns a socket, or has no more. -/
  | accept (fd : Nat) (session : σ)
  | eagain
  | listen (r : Opening)
  | connect (session : σ) (r : Opening)
  /-- `Connection::OnClose` of the connection at this number. -/
  | onClose (fd : Nat)
  /-- The top call returns. -/
  | ret
  deriving DecidableEq

/-- The number of the socket that a step makes a handler for. -/
def EngineLabel.gives {σ : Type} : EngineLabel σ → Option Nat
  | .accept fd _ | .listen (.made fd) | .connect _ (.made fd) => some fd
  | _ => none

namespace NetEngine
variable {σ : Type}

def init : NetEngine σ where
  sockets := fun _ => none
  opened := 0
  interest := []
  handlers := []
  lookups := []
  stack := []
  trace := []

/-! ## The table of handlers -/

def getHandler (fd : Nat) (w : NetEngine σ) : Option (INetHandler σ) :=
  w.handlers.find? (·.fd == fd)

/-- `Add(handler)`. -/
def add (h : INetHandler σ) (w : NetEngine σ) : NetEngine σ :=
  { w with handlers := h :: w.handlers.filter (·.fd != h.fd) }

def remove (h : INetHandler σ) (w : NetEngine σ) : NetEngine σ :=
  { w with handlers := w.handlers.filter (·.fd != h.fd) }

/-- `Add(handler, events)`: `epoll_ctl` on the socket that the number stands for. -/
def addEvents (h : INetHandler σ) (epollin epollout : Bool) (w : NetEngine σ) : NetEngine σ :=
  match w.sockets h.fd with
  | some s => { w with interest := ⟨s, h.fd, epollin, epollout⟩ :: w.interest }
  | none => w

/-- `Del(handler, events)`. -/
def del (h : INetHandler σ) (w : NetEngine σ) : NetEngine σ :=
  { w with interest := w.interest.filter (·.fd != h.fd) }

@[simp] theorem add_trace (h : INetHandler σ) (w : NetEngine σ) : (w.add h).trace = w.trace := rfl

@[simp] theorem remove_trace (h : INetHandler σ) (w : NetEngine σ) :
    (w.remove h).trace = w.trace := rfl

@[simp] theorem addEvents_trace (h : INetHandler σ) (epollin epollout : Bool) (w : NetEngine σ) :
    (w.addEvents h epollin epollout).trace = w.trace := by
  unfold addEvents
  split <;> rfl

@[simp] theorem del_trace (h : INetHandler σ) (w : NetEngine σ) : (w.del h).trace = w.trace := rfl

/-! ## The system -/

/-- `::socket` or `::accept` gives a free number to a new socket. -/
def socket (fd : Nat) (w : NetEngine σ) : Option (NetEngine σ) :=
  match w.sockets fd with
  | none => some { w with
      sockets := Function.update w.sockets fd (some w.opened), opened := w.opened + 1 }
  | some _ => none

/-- `::close`: the socket leaves the interest list too. -/
def close (fd : Nat) (w : NetEngine σ) : NetEngine σ :=
  { w with
    sockets := Function.update w.sockets fd none
    interest := w.interest.filter (·.fd != fd) }

@[simp] theorem close_trace (fd : Nat) (w : NetEngine σ) : (w.close fd).trace = w.trace := rfl

theorem socket_trace {w w' : NetEngine σ} {fd : Nat} (h : w.socket fd = some w') :
    w'.trace = w.trace := by
  unfold socket at h
  split at h
  · cases h
    rfl
  · cases h

/-! ## The functions -/

def push (f : EngineFrame σ) (w : NetEngine σ) : NetEngine σ := { w with stack := f :: w.stack }

@[simp] theorem push_trace (f : EngineFrame σ) (w : NetEngine σ) :
    (w.push f).trace = w.trace := rfl

/-- A call of `connect` that fails at once fails an assertion. -/
def connect (session : σ) (w : NetEngine σ) : Opening → Option (NetEngine σ)
  | .noSocket => some w
  | .closed fd => (w.socket fd).map (close fd)
  | .made fd =>
    let connector := ⟨.connector session, fd, w.opened⟩
    (w.socket fd).map fun w => (w.add connector).addEvents connector false true

/-- `Listen` asserts that it gets a socket. -/
def listen (w : NetEngine σ) : Opening → Option (NetEngine σ)
  | .noSocket => none
  | .closed fd => (w.socket fd).map (close fd)
  | .made fd =>
    let acceptor := ⟨.acceptor, fd, w.opened⟩
    (w.socket fd).map fun w => (w.add acceptor).addEvents acceptor true false

/-- The body of the loop in `Acceptor::OnIn`, up to its call of the session. -/
def accept (fd : Nat) (session : σ) (w : NetEngine σ) : Option (NetEngine σ) :=
  let connection := ⟨.connection session, fd, w.opened⟩
  (w.socket fd).map fun w =>
    ((w.add connection).addEvents connection true true).push (.onConnected session)

/-- `Connector::OnOut`, up to its call of the session. -/
def onOut (h : INetHandler σ) (session : σ) (w : NetEngine σ) : NetEngine σ :=
  let connection := ⟨.connection session, h.fd, h.socket⟩
  ((((w.del h).remove h).add connection).addEvents connection true true).push
    (.onConnected session)

/-- `Connector::OnError`, up to its call of the session. -/
def onError (h : INetHandler σ) (session : σ) (w : NetEngine σ) : NetEngine σ :=
  ((w.close h.fd).remove h).push (.onConnectFailed session)

/-- `Connection::OnClose` after its call of the session. -/
def onClose (h : INetHandler σ) (w : NetEngine σ) : NetEngine σ :=
  ((w.del h).close h.fd).remove h

/-- The handler's `OnError`, `OnOut` or `OnIn`. `Acceptor::OnError` asserts that it is not
called, and the process ends. -/
def handle (h : INetHandler σ) (flag : EpollFlag) (w : NetEngine σ) : Option (NetEngine σ) :=
  match h.kind, flag with
  | .acceptor, .epollin => some (w.push .onIn)
  | .acceptor, .epollout => some w
  | .acceptor, .epollerr => none
  | .connector session, .epollerr => some (w.onError h session)
  | .connector session, .epollout => some (w.onOut h session)
  | .connector _, .epollin => some w
  | .connection _, _ => some (w.push .connection)

/-- `handle`, way by way. -/
inductive Handles (w : NetEngine σ) : INetHandler σ → EpollFlag → NetEngine σ → Prop
  | accepting {fd s : Nat} : Handles w ⟨.acceptor, fd, s⟩ .epollin (w.push .onIn)
  | nothing {h : INetHandler σ} {flag : EpollFlag} : Handles w h flag w
  | failed {session : σ} {fd s : Nat} : Handles w ⟨.connector session, fd, s⟩ .epollerr
      (w.onError ⟨.connector session, fd, s⟩ session)
  | connected {session : σ} {fd s : Nat} : Handles w ⟨.connector session, fd, s⟩ .epollout
      (w.onOut ⟨.connector session, fd, s⟩ session)
  | connection {session : σ} {fd s : Nat} {flag : EpollFlag} :
      Handles w ⟨.connection session, fd, s⟩ flag (w.push .connection)

theorem handle_cases {h : INetHandler σ} {flag : EpollFlag} {w w' : NetEngine σ}
    (hh : w.handle h flag = some w') : w.Handles h flag w' := by
  obtain ⟨kind, fd, s⟩ := h
  cases kind with
  | acceptor =>
    cases flag with
    | epollin =>
      cases hh
      exact .accepting
    | epollout =>
      cases hh
      exact .nothing
    | epollerr => cases hh
  | connector session =>
    cases flag with
    | epollerr =>
      cases hh
      exact .failed
    | epollout =>
      cases hh
      exact .connected
    | epollin =>
      cases hh
      exact .nothing
  | connection session =>
    cases hh
    exact .connection

/-- The top call may call the engine: it is no call of `accept`. -/
def free (w : NetEngine σ) : Bool :=
  match w.stack with
  | [] | .onIn :: _ => false
  | _ => true

variable [DecidableEq σ]

def step (w : NetEngine σ) : EngineLabel σ → Option (NetEngine σ)
  | .wait events =>
    if w.stack = [] ∧ w.lookups = [] ∧ events.length ≤ w.handlers.length ∧
        (events.map EpollEvent.socket).Nodup ∧
        (events.all fun e => w.interest.any e.allowed) = true then
      some { w with lookups := events.flatMap EpollEvent.lookups }
    else none
  | .next =>
    match w.stack, w.lookups with
    | [], q :: rest =>
      match w.getHandler q.fd with
      | some h => handle h q.flag { w with lookups := rest, trace := w.trace ++ [⟨q, h⟩] }
      | none => some { w with lookups := rest }
    | _, _ => none
  | .outside => if w.stack = [] ∧ w.lookups = [] then some (w.push .outside) else none
  | .accept fd session =>
    match w.stack with
    | .onIn :: _ => w.accept fd session
    | _ => none
  | .eagain =>
    match w.stack with
    | .onIn :: fs => some { w with stack := fs }
    | _ => none
  | .listen r => if w.free then w.listen r else none
  | .connect session r => if w.free then w.connect session r else none
  | .onClose fd =>
    match w.free, w.getHandler fd with
    | true, some ⟨.connection session, n, s⟩ =>
      some (w.push (.onDisconnected session n s))
    | _, _ => none
  | .ret =>
    match w.stack with
    | [] | .onIn :: _ => none
    | .onDisconnected session fd s :: fs =>
      -- the connection has not been deleted in the meantime
      if w.getHandler fd = some ⟨.connection session, fd, s⟩ then
        some (onClose ⟨.connection session, fd, s⟩ { w with stack := fs })
      else none
    | _ :: fs => some { w with stack := fs }

/-- `step`, way by way. -/
inductive Does (w : NetEngine σ) : EngineLabel σ → NetEngine σ → Prop
  | wait {events : List EpollEvent} (hst : w.stack = []) (hl : w.lookups = [])
      (hreg : ∀ e ∈ events, ∃ r ∈ w.interest, e.allowed r = true) :
      Does w (.wait events) { w with lookups := events.flatMap EpollEvent.lookups }
  | miss {q : Lookup} {rest : List Lookup} (hst : w.stack = []) (hl : w.lookups = q :: rest)
      (hg : w.getHandler q.fd = none) : Does w .next { w with lookups := rest }
  | hit {q : Lookup} {rest : List Lookup} {h : INetHandler σ} {w' : NetEngine σ}
      (hst : w.stack = []) (hl : w.lookups = q :: rest) (hg : w.getHandler q.fd = some h)
      (hh : handle h q.flag { w with lookups := rest, trace := w.trace ++ [⟨q, h⟩] } = some w') :
      Does w .next w'
  | outside (hst : w.stack = []) (hl : w.lookups = []) : Does w .outside (w.push .outside)
  | accept {fd : Nat} {session : σ} {fs : List (EngineFrame σ)} {w' : NetEngine σ}
      (hst : w.stack = .onIn :: fs) (h : w.accept fd session = some w') :
      Does w (.accept fd session) w'
  | eagain {fs : List (EngineFrame σ)} (hst : w.stack = .onIn :: fs) :
      Does w .eagain { w with stack := fs }
  | listen {r : Opening} {w' : NetEngine σ} (h : w.listen r = some w') : Does w (.listen r) w'
  | connect {session : σ} {r : Opening} {w' : NetEngine σ} (h : w.connect session r = some w') :
      Does w (.connect session r) w'
  | onClose {fd : Nat} {session : σ} {n s : Nat}
      (hg : w.getHandler fd = some ⟨.connection session, n, s⟩) :
      Does w (.onClose fd) (w.push (.onDisconnected session n s))
  | closed {session : σ} {fd s : Nat} {fs : List (EngineFrame σ)}
      (hst : w.stack = .onDisconnected session fd s :: fs)
      (hg : w.getHandler fd = some ⟨.connection session, fd, s⟩) :
      Does w .ret (NetEngine.onClose ⟨.connection session, fd, s⟩ { w with stack := fs })
  | ret {f : EngineFrame σ} {fs : List (EngineFrame σ)} (hst : w.stack = f :: fs)
      (hf : ∀ session fd s, f ≠ .onDisconnected session fd s) : Does w .ret { w with stack := fs }

theorem step_cases {w w' : NetEngine σ} {l : EngineLabel σ} (h : w.step l = some w') :
    w.Does l w' := by
  cases l with
  | wait events =>
    simp only [step] at h
    split at h
    · next hw =>
      cases h
      obtain ⟨hst, hl, _, _, hreg⟩ := hw
      refine .wait hst hl fun e he => ?_
      exact List.any_eq_true.mp (List.all_eq_true.mp hreg e he)
    · cases h
  | next =>
    simp only [step] at h
    split at h
    · next q rest hst hl =>
      split at h
      · next k hg => exact .hit hst hl hg h
      · next hg =>
        cases h
        exact .miss hst hl hg
    · cases h
  | outside =>
    simp only [step] at h
    split at h
    · next hw =>
      cases h
      exact .outside hw.1 hw.2
    · cases h
  | accept fd session =>
    simp only [step] at h
    split at h
    · next fs hst => exact .accept hst h
    · cases h
  | eagain =>
    simp only [step] at h
    split at h
    · next fs hst =>
      cases h
      exact .eagain hst
    · cases h
  | listen r =>
    simp only [step] at h
    split at h
    · exact .listen h
    · cases h
  | connect session r =>
    simp only [step] at h
    split at h
    · exact .connect h
    · cases h
  | onClose fd =>
    simp only [step] at h
    split at h
    · next session n s _ hg =>
      cases h
      exact .onClose hg
    · cases h
  | ret =>
    simp only [step] at h
    split at h
    · cases h
    · cases h
    · next k fs hst =>
      split at h
      · next hg =>
        cases h
        exact .closed hst hg
      · cases h
    · next f fs hne hn hst =>
      cases h
      exact .ret hst hn

end NetEngine

/-- The engine, from `Initialize` on. -/
def netEngine (σ : Type) [DecidableEq σ] : System (NetEngine σ) (EngineLabel σ) :=
  ⟨.init, NetEngine.step⟩

namespace NetEngine
variable {σ : Type} {w w' : NetEngine σ} {h : INetHandler σ} {fd : Nat}

/-! ## Numbers, sockets and handlers -/

/-- A handler in the table is for the socket that its number stands for, and so is an event when
it is collected. -/
structure Consistent (w : NetEngine σ) : Prop where
  live : ∀ h ∈ w.handlers, w.sockets h.fd = some h.socket
  distinct : (w.handlers.map INetHandler.fd).Nodup
  fresh : ∀ fd s, w.sockets fd = some s → s < w.opened
  registered : ∀ r ∈ w.interest, w.sockets r.fd = some r.socket
  collected : ∀ q ∈ w.lookups, q.socket < w.opened

namespace Consistent

/-- A handler that is found is in the table. -/
theorem found (hc : w.Consistent) (hg : w.getHandler fd = some h) :
    h.fd = fd ∧ w.sockets h.fd = some h.socket :=
  ⟨by simpa using List.find?_some hg, hc.live h (List.mem_of_find?_eq_some hg)⟩

/-- An event is collected for the socket that its number stands for. -/
theorem collects (hc : w.Consistent) {events : List EpollEvent}
    (hreg : ∀ e ∈ events, ∃ r ∈ w.interest, e.allowed r = true) {q : Lookup}
    (hq : q ∈ events.flatMap EpollEvent.lookups) : w.sockets q.fd = some q.socket := by
  obtain ⟨e, he, hq⟩ := List.mem_flatMap.mp hq
  obtain ⟨r, hr, ha⟩ := hreg e he
  simp only [EpollEvent.allowed, Bool.and_eq_true, beq_iff_eq] at ha
  obtain ⟨⟨⟨hsock, hfd⟩, _⟩, _⟩ := ha
  obtain ⟨hqsock, hqfd⟩ := e.lookup_of hq
  rw [hqsock, hqfd, hsock, hfd]
  exact hc.registered r hr

/-- The assertion in `Add(handler)`. -/
theorem vacant (hc : w.Consistent) (hs : w.sockets fd = none) : ∀ h ∈ w.handlers, h.fd ≠ fd := by
  rintro h hm rfl
  rw [hc.live h hm] at hs
  cases hs

theorem withStack (hc : w.Consistent) (fs : List (EngineFrame σ)) :
    Consistent { w with stack := fs } :=
  ⟨hc.live, hc.distinct, hc.fresh, hc.registered, hc.collected⟩

/-- An event has been looked up. -/
theorem rest (hc : w.Consistent) {q : Lookup} {rest : List Lookup} (hl : w.lookups = q :: rest)
    (tr : List (Delivery σ)) : Consistent { w with lookups := rest, trace := tr } :=
  ⟨hc.live, hc.distinct, hc.fresh, hc.registered,
    fun q' hq => hc.collected q' (hl ▸ List.mem_cons_of_mem _ hq)⟩

theorem push (hc : w.Consistent) (f : EngineFrame σ) : (w.push f).Consistent := hc.withStack _

theorem socket (hc : w.Consistent) (hs : w.socket fd = some w') :
    w'.Consistent ∧ w.sockets fd = none ∧ w'.sockets fd = some w.opened ∧
      w'.handlers = w.handlers := by
  unfold NetEngine.socket at hs
  split at hs
  · next hfree =>
    cases hs
    have hne : ∀ {n s}, w.sockets n = some s → n ≠ fd := by
      rintro n s hn rfl
      rw [hfree] at hn
      cases hn
    have hkeep : ∀ {n s}, w.sockets n = some s →
        Function.update w.sockets fd (some w.opened) n = some s := by
      intro n s hn
      rw [Function.update_of_ne (hne hn), hn]
    refine ⟨⟨?_, hc.distinct, ?_, ?_, ?_⟩, hfree, Function.update_self .., rfl⟩
    · exact fun h hm => hkeep (hc.live h hm)
    · intro n s hn
      change Function.update w.sockets fd (some w.opened) n = some s at hn
      rw [Function.update_apply] at hn
      split at hn
      · cases hn
        exact Nat.lt_succ_self _
      · exact Nat.lt_succ_of_lt (hc.fresh n s hn)
    · exact fun r hm => hkeep (hc.registered r hm)
    · exact fun q hq => Nat.lt_succ_of_lt (hc.collected q hq)
  · cases hs

/-- A socket without a handler is closed. -/
theorem close (hc : w.Consistent) (hv : ∀ h ∈ w.handlers, h.fd ≠ fd) :
    (w.close fd).Consistent := by
  have hkeep : ∀ {n s}, (w.close fd).sockets n = some s → w.sockets n = some s := by
    intro n s hn
    change Function.update w.sockets fd none n = some s at hn
    rw [Function.update_apply] at hn
    split at hn
    · cases hn
    · exact hn
  refine ⟨?_, hc.distinct, fun n s hn => hc.fresh n s (hkeep hn), ?_, hc.collected⟩
  · intro h hm
    change Function.update w.sockets fd none h.fd = some h.socket
    rw [Function.update_of_ne (hv h hm), hc.live h hm]
  · intro r hm
    obtain ⟨hm, hne⟩ := List.mem_filter.mp hm
    change Function.update w.sockets fd none r.fd = some r.socket
    rw [Function.update_of_ne (by simpa using hne), hc.registered r hm]

theorem remove (hc : w.Consistent) (h : INetHandler σ) : (w.remove h).Consistent :=
  ⟨fun k hm => hc.live k (List.mem_of_mem_filter hm),
    hc.distinct.sublist (List.filter_sublist.map _), hc.fresh, hc.registered, hc.collected⟩

theorem del (hc : w.Consistent) (h : INetHandler σ) : (w.del h).Consistent :=
  ⟨hc.live, hc.distinct, hc.fresh, fun r hm => hc.registered r (List.mem_of_mem_filter hm),
    hc.collected⟩

theorem add (hc : w.Consistent) (hs : w.sockets h.fd = some h.socket) :
    (w.add h).Consistent := by
  refine ⟨?_, ?_, hc.fresh, hc.registered, hc.collected⟩
  · intro k hm
    rcases List.mem_cons.mp hm with rfl | hm
    · exact hs
    · exact hc.live k (List.mem_of_mem_filter hm)
  · refine List.nodup_cons.mpr ⟨?_, hc.distinct.sublist (List.filter_sublist.map _)⟩
    intro hm
    obtain ⟨k, hk, he⟩ := List.mem_map.mp hm
    have := (List.mem_filter.mp hk).2
    rw [he] at this
    simp at this

theorem addEvents (hc : w.Consistent) (h : INetHandler σ) (epollin epollout : Bool) :
    (w.addEvents h epollin epollout).Consistent := by
  unfold NetEngine.addEvents
  split
  · next s hs =>
    refine ⟨hc.live, hc.distinct, hc.fresh, ?_, hc.collected⟩
    intro r hm
    rcases List.mem_cons.mp hm with rfl | hm
    · exact hs
    · exact hc.registered r hm
  · exact hc

/-- A new socket gets its handler. -/
theorem enter (hc : w.Consistent) (hs : w.socket h.fd = some w') (hn : h.socket = w.opened)
    (epollin epollout : Bool) : ((w'.add h).addEvents h epollin epollout).Consistent := by
  obtain ⟨hc', _, hs', _⟩ := hc.socket hs
  exact (hc'.add (by rw [hs', hn])).addEvents h epollin epollout

/-- A handler goes with its socket. -/
theorem retire (hc : w.Consistent) (h : INetHandler σ) : ((w.close h.fd).remove h).Consistent := by
  have hv : ∀ k ∈ (w.remove h).handlers, k.fd ≠ h.fd := by
    intro k hm
    simpa using (List.mem_filter.mp hm).2
  exact (hc.remove h).close hv

theorem connect (hc : w.Consistent) {session : σ} {r : Opening}
    (hs : w.connect session r = some w') : w'.Consistent := by
  cases r with
  | noSocket =>
    cases hs
    exact hc
  | closed fd =>
    obtain ⟨v, hv, rfl⟩ := Option.map_eq_some_iff.mp hs
    obtain ⟨hc', hfree, _, hh⟩ := hc.socket hv
    exact hc'.close (hh ▸ hc.vacant hfree)
  | made fd =>
    obtain ⟨v, hv, rfl⟩ := Option.map_eq_some_iff.mp hs
    exact hc.enter (h := ⟨_, fd, _⟩) hv rfl false true

theorem listen (hc : w.Consistent) {r : Opening} (hs : w.listen r = some w') :
    w'.Consistent := by
  cases r with
  | noSocket => cases hs
  | closed fd =>
    obtain ⟨v, hv, rfl⟩ := Option.map_eq_some_iff.mp hs
    obtain ⟨hc', hfree, _, hh⟩ := hc.socket hv
    exact hc'.close (hh ▸ hc.vacant hfree)
  | made fd =>
    obtain ⟨v, hv, rfl⟩ := Option.map_eq_some_iff.mp hs
    exact hc.enter (h := ⟨_, fd, _⟩) hv rfl true false

theorem accept (hc : w.Consistent) {session : σ} (hs : w.accept fd session = some w') :
    w'.Consistent := by
  obtain ⟨v, hv, rfl⟩ := Option.map_eq_some_iff.mp hs
  exact (hc.enter (h := ⟨_, fd, _⟩) hv rfl true true).push _

theorem handle (hc : w.Consistent) (hs : w.sockets h.fd = some h.socket) {flag : EpollFlag}
    (hh : w.handle h flag = some w') : w'.Consistent := by
  cases handle_cases hh with
  | accepting | connection => exact hc.push _
  | nothing => exact hc
  | failed => exact (hc.retire _).push _
  | @connected session fd s =>
    have hout := ((hc.del ⟨.connector session, fd, s⟩).remove ⟨.connector session, fd, s⟩).add
      (h := ⟨.connection session, fd, s⟩) hs
    exact (hout.addEvents _ true true).push _

theorem step [DecidableEq σ] (hc : w.Consistent) {l : EngineLabel σ} (hs : w.step l = some w') :
    w'.Consistent := by
  cases step_cases hs with
  | wait hst hl hreg =>
    exact ⟨hc.live, hc.distinct, hc.fresh, hc.registered, fun q hq =>
      hc.fresh _ _ (hc.collects hreg hq)⟩
  | miss hst hl hg => exact hc.rest hl _
  | hit hst hl hg hh => exact (hc.rest hl _).handle (hc.found hg).2 hh
  | outside => exact hc.push _
  | accept hst h => exact hc.accept h
  | eagain => exact hc.withStack _
  | listen h => exact hc.listen h
  | connect h => exact hc.connect h
  | onClose => exact hc.push _
  | closed => exact ((hc.withStack _).del _).retire _
  | ret => exact hc.withStack _

end Consistent

theorem consistent_init : (init : NetEngine σ).Consistent where
  live := nofun
  distinct := List.nodup_nil
  fresh := nofun
  registered := nofun
  collected := nofun

/-! ## Events and sockets -/

theorem connect_trace {session : σ} {r : Opening} (hs : w.connect session r = some w') :
    w'.trace = w.trace := by
  cases r with
  | noSocket =>
    cases hs
    rfl
  | closed fd | made fd =>
    obtain ⟨v, hv, rfl⟩ := Option.map_eq_some_iff.mp hs
    simpa using socket_trace hv

theorem listen_trace {r : Opening} (hs : w.listen r = some w') : w'.trace = w.trace := by
  cases r with
  | noSocket => cases hs
  | closed fd | made fd =>
    obtain ⟨v, hv, rfl⟩ := Option.map_eq_some_iff.mp hs
    simpa using socket_trace hv

theorem accept_trace {session : σ} (hs : w.accept fd session = some w') : w'.trace = w.trace := by
  obtain ⟨v, hv, rfl⟩ := Option.map_eq_some_iff.mp hs
  simpa using socket_trace hv

theorem handle_trace {flag : EpollFlag} (hh : w.handle h flag = some w') : w'.trace = w.trace := by
  cases handle_cases hh with
  | accepting | nothing | connection => rfl
  | failed => simp [onError]
  | connected => simp [onOut]

/-- A step adds to the trace what the loop finds. -/
theorem Does.trace {l : EngineLabel σ} (hd : w.Does l w') :
    w'.trace = w.trace ∨ ∃ q rest h, l = .next ∧ w.lookups = q :: rest ∧
      w.getHandler q.fd = some h ∧ w'.trace = w.trace ++ [⟨q, h⟩] := by
  cases hd with
  | wait | miss | outside | eagain | onClose | closed | ret => exact .inl rfl
  | hit hst hl hg hh => exact .inr ⟨_, _, _, rfl, hl, hg, handle_trace hh⟩
  | accept hst h => exact .inl (accept_trace h)
  | listen h => exact .inl (listen_trace h)
  | connect h => exact .inl (connect_trace h)

/-- No event that is left would be handed to the handler of another socket. -/
def Clear (w : NetEngine σ) : Prop :=
  ∀ q ∈ w.lookups, ∀ h ∈ w.handlers, h.fd = q.fd → h.socket = q.socket

theorem Clear.keep (hw : w.Clear) (hl : ∀ q ∈ w'.lookups, q ∈ w.lookups)
    (hh : ∀ h ∈ w'.handlers, h ∈ w.handlers) : w'.Clear :=
  fun q hq h hm => hw q (hl q hq) h (hh h hm)

/-- A new socket has its handler, and the events are the same. -/
structure Enters (w : NetEngine σ) (fd : Nat) (w' : NetEngine σ) : Prop where
  lookups : w'.lookups = w.lookups
  handlers : ∃ kind, w'.handlers = ⟨kind, fd, w.opened⟩ :: w.handlers.filter (·.fd != fd)

theorem socket_keeps (hs : w.socket fd = some w') :
    w'.lookups = w.lookups ∧ w'.handlers = w.handlers := by
  unfold NetEngine.socket at hs
  split at hs
  · cases hs
    exact ⟨rfl, rfl⟩
  · cases hs

theorem addEvents_keeps (h : INetHandler σ) (epollin epollout : Bool) (w : NetEngine σ) :
    (w.addEvents h epollin epollout).lookups = w.lookups ∧
      (w.addEvents h epollin epollout).handlers = w.handlers := by
  unfold addEvents
  split <;> exact ⟨rfl, rfl⟩

theorem socket_enters (hs : w.socket fd = some w') (kind : HandlerKind σ)
    (epollin epollout : Bool) :
    w.Enters fd
      ((w'.add ⟨kind, fd, w.opened⟩).addEvents ⟨kind, fd, w.opened⟩ epollin epollout) := by
  obtain ⟨hl, hh⟩ := socket_keeps hs
  obtain ⟨hl', hh'⟩ := addEvents_keeps ⟨kind, fd, w.opened⟩ epollin epollout
    (w'.add ⟨kind, fd, w.opened⟩)
  refine ⟨hl'.trans hl, kind, hh'.trans ?_⟩
  rw [add, hh]

theorem Does.enters {l : EngineLabel σ} (hd : w.Does l w') (hg : l.gives = some fd) :
    w.Enters fd w' := by
  cases hd with
  | @accept n session fs _ _ h =>
    cases hg
    obtain ⟨v, hv, rfl⟩ := Option.map_eq_some_iff.mp h
    have henters := socket_enters hv (.connection session) true true
    exact ⟨henters.lookups, henters.handlers⟩
  | @listen r _ h =>
    cases r with
    | made =>
      cases hg
      obtain ⟨v, hv, rfl⟩ := Option.map_eq_some_iff.mp h
      exact socket_enters hv .acceptor true false
    | noSocket | closed => cases hg
  | @connect session r _ h =>
    cases r with
    | made =>
      cases hg
      obtain ⟨v, hv, rfl⟩ := Option.map_eq_some_iff.mp h
      exact socket_enters hv (.connector session) false true
    | noSocket | closed => cases hg
  | wait | miss | hit | outside | eagain | onClose | closed | ret => cases hg

/-- A connector hands its number to the connection that replaces it. -/
theorem Clear.handle (hw : w.Clear) (hm : h ∈ w.handlers) {flag : EpollFlag}
    (hh : w.handle h flag = some w') : w'.Clear := by
  cases handle_cases hh with
  | accepting | nothing | connection => exact hw
  | failed => exact hw.keep (fun _ => id) fun _ => List.mem_of_mem_filter
  | @connected session fd s =>
    obtain ⟨hlookups, hhandlers⟩ := addEvents_keeps ⟨.connection session, fd, s⟩ true true
      (add ⟨.connection session, fd, s⟩ (remove ⟨.connector session, fd, s⟩
        (del ⟨.connector session, fd, s⟩ w)))
    intro q hq k hk hfd
    rw [onOut, push, hlookups] at hq
    rw [onOut, push, hhandlers] at hk
    rcases List.mem_cons.mp hk with rfl | hk
    · exact hw q hq ⟨.connector session, fd, s⟩ hm hfd
    · exact hw q hq k (List.mem_of_mem_filter (List.mem_of_mem_filter hk)) hfd

/-- A step that makes no new handler. -/
theorem Clear.step_of_none (hw : w.Clear) (hc : w.Consistent) {l : EngineLabel σ}
    (hd : w.Does l w') (hg : l.gives = none) : w'.Clear := by
  cases hd with
  | wait hst hl hreg =>
    intro q hq h hm hfd
    have hcollected := hc.collects hreg hq
    rw [← hfd, hc.live h hm] at hcollected
    exact Option.some.inj hcollected
  | miss hst hl hh => exact hw.keep (fun q hq => hl ▸ List.mem_cons_of_mem _ hq) fun _ => id
  | @hit q rest h _ hst hl hfound hh =>
    have hrest : Clear { w with lookups := rest, trace := w.trace ++ [⟨q, h⟩] } :=
      hw.keep (fun q hq => hl ▸ List.mem_cons_of_mem _ hq) fun _ => id
    exact hrest.handle (List.mem_of_find?_eq_some hfound) hh
  | outside | eagain | onClose | ret => exact hw.keep (fun _ => id) fun _ => id
  | accept => cases hg
  | @listen r _ h =>
    cases r with
    | noSocket => cases h
    | closed fd =>
      obtain ⟨v, hv, rfl⟩ := Option.map_eq_some_iff.mp h
      obtain ⟨hlookups, hhandlers⟩ := socket_keeps hv
      exact hw.keep (fun _ hq => hlookups ▸ hq) fun _ hm => hhandlers ▸ hm
    | made => cases hg
  | @connect session r _ h =>
    cases r with
    | noSocket =>
      cases h
      exact hw
    | closed fd =>
      obtain ⟨v, hv, rfl⟩ := Option.map_eq_some_iff.mp h
      obtain ⟨hlookups, hhandlers⟩ := socket_keeps hv
      exact hw.keep (fun _ hq => hlookups ▸ hq) fun _ hm => hhandlers ▸ hm
    | made => cases hg
  | closed => exact hw.keep (fun _ => id) fun _ => List.mem_of_mem_filter

/-- A step that makes a handler gives its socket no number that is still to be looked up. -/
def NoReuse (w : NetEngine σ) (l : EngineLabel σ) : Prop :=
  ∀ fd ∈ l.gives, ∀ q ∈ w.lookups, q.fd ≠ fd

instance (w : NetEngine σ) (l : EngineLabel σ) : Decidable (w.NoReuse l) :=
  inferInstanceAs (Decidable (∀ fd ∈ l.gives, ∀ q ∈ w.lookups, q.fd ≠ fd))

theorem Clear.step (hw : w.Clear) (hc : w.Consistent) {l : EngineLabel σ} (hd : w.Does l w')
    (hr : w.NoReuse l) : w'.Clear := by
  cases hg : l.gives with
  | none => exact hw.step_of_none hc hd hg
  | some fd =>
    obtain ⟨hlookups, kind, hhandlers⟩ := hd.enters hg
    intro q hq h hm hfd
    rw [hlookups] at hq
    rw [hhandlers] at hm
    rcases List.mem_cons.mp hm with rfl | hm
    · exact absurd hfd.symm (hr fd hg q hq)
    · exact hw q hq h (List.mem_of_mem_filter hm) hfd

/-- The event of the old socket would go to the handler of the new one. -/
theorem not_clear_of_reuse (hc : w.Consistent) {l : EngineLabel σ} (hd : w.Does l w')
    (hr : ¬ w.NoReuse l) : ¬ w'.Clear := by
  intro hclear
  refine hr fun fd hg q hq hfd => ?_
  obtain ⟨hlookups, kind, hhandlers⟩ := hd.enters hg
  have hsame := hclear q (hlookups ▸ hq) ⟨kind, fd, w.opened⟩
    (by rw [hhandlers]; exact List.mem_cons_self) hfd.symm
  have hold := hc.collected q hq
  have hsame : w.opened = q.socket := hsame
  omega

/-- The next event is handed to its own socket, if nothing is in its way. -/
theorem Clear.own (hw : w.Clear) {q : Lookup} {rest : List Lookup} (hl : w.lookups = q :: rest)
    (hg : w.getHandler q.fd = some h) : Delivery.own ⟨q, h⟩ = true := by
  have hfd : h.fd = q.fd := by simpa using List.find?_some hg
  exact beq_iff_eq.mpr (hw q (hl ▸ List.mem_cons_self) h (List.mem_of_find?_eq_some hg) hfd)

variable [DecidableEq σ]

theorem consistent (h : (netEngine σ).Reachable w) : w.Consistent :=
  h.invariant consistent_init fun _ _ _ _ ih hs => ih.step hs

/-- Events go to handlers of their own sockets in every run that gives no new handler a number that
is still to be looked up. A step that gives one leaves an event that would go to the new handler. -/
theorem delivered_to_own :
    (∀ w : NetEngine σ, (netEngine σ).Run NoReuse w → (∀ d ∈ w.trace, d.own = true) ∧ w.Clear) ∧
    ∀ (w w' : NetEngine σ) (l : EngineLabel σ), (netEngine σ).Reachable w → w.step l = some w' →
      ¬ w.NoReuse l → ¬ w'.Clear := by
  constructor
  · intro w hr
    refine hr.invariant_with (I := fun w => (∀ d ∈ w.trace, d.own = true) ∧ w.Clear)
      (J := Consistent) (fun _ hr => consistent hr.reachable) ⟨nofun, nofun⟩ ?_
    intro w l w' hg hc ⟨ih, hclear⟩ hs
    have hd := step_cases hs
    refine ⟨?_, hclear.step hc hd hg⟩
    rcases hd.trace with ht | ⟨q, rest, h, rfl, hl, hh, ht⟩
    · rw [ht]
      exact ih
    · rw [ht]
      exact forall_snoc ih (hclear.own hl hh)
  · intro w w' l hr hs hn
    exact not_clear_of_reuse (consistent hr) (step_cases hs) hn

/-- A connection is refused and dialled again from `OnConnectFailed`. -/
def refused (fd : Nat) : List (EngineLabel Nat) :=
  [.outside, .connect 7 (.made 4), .ret, .wait [⟨0, 4, true, true, false⟩], .next,
    .connect 7 (.made fd), .ret]

/-- Where the system gives another number to the retry, the event that is left finds no
handler; where it gives the same one, the retry is in the way of the event. -/
theorem delivered_to_own_refused :
    (∃ w : NetEngine Nat, w.trace.length = 2 ∧ (∀ d ∈ w.trace, d.own = true) ∧ w.Clear) ∧
    ∃ w' : NetEngine Nat, w'.lookups = [⟨0, 4, .epollout⟩] ∧ ¬ w'.Clear := by
  constructor
  · obtain ⟨w, h, hw⟩ := (netEngine Nat).run_of_exec (P := NoReuse)
      (refused 5 ++ [.next, .wait [⟨1, 5, false, true, false⟩], .next])
      (p := fun w => w.trace.length == 2) (by decide)
    exact ⟨w, beq_iff_eq.mp hw, delivered_to_own.1 w h⟩
  · obtain ⟨w, h, hw⟩ := (netEngine Nat).run_of_exec (P := fun _ _ => True)
      [.outside, .connect 7 (.made 4), .ret, .wait [⟨0, 4, true, true, false⟩], .next]
      (p := fun w => (w.step (.connect 7 (.made 4))).any (fun w' =>
        w'.lookups == [⟨0, 4, .epollout⟩]) && !decide (w.NoReuse (.connect 7 (.made 4))))
      (by decide)
    simp only [Bool.and_eq_true, Bool.not_eq_true', decide_eq_false_iff_not,
      Option.any_eq_true] at hw
    obtain ⟨⟨w', hs, hl⟩, hn⟩ := hw
    exact ⟨w', beq_iff_eq.mp hl, delivered_to_own.2 w w' _ h hs hn⟩

/-- The `EPOLLOUT` that comes with the refusal reaches the connector of the retry, which goes on
as connected. -/
theorem retry_taken_for_connected : ∃ w : NetEngine Nat, (netEngine Nat).Reachable w ∧
    (∃ d ∈ w.trace, d.own = false) ∧ w.stack = [.onConnected 7] ∧
      w.handlers = [⟨.connection 7, 4, 1⟩] := by
  obtain ⟨w, h, hw⟩ := (netEngine Nat).run_of_exec (P := fun _ _ => True) (refused 4 ++ [.next])
    (p := fun w => w.trace.any (fun d => !d.own) && w.stack == [.onConnected 7] &&
      w.handlers == [⟨.connection 7, 4, 1⟩]) (by decide)
  simp only [Bool.and_eq_true, beq_iff_eq] at hw
  obtain ⟨⟨ht, hst⟩, hh⟩ := hw
  obtain ⟨d, hd, ho⟩ := List.any_eq_true.mp ht
  exact ⟨w, h, ⟨d, hd, by simpa using ho⟩, hst, hh⟩

end NetEngine
end HyperNet.Net
