import HyperNet.Net.NetEngine

/-! # The engine does not look at its sessions

Sessions are handed on, from a connector to its connection and to the calls of it. What the engine
does is the same whatever they are, so each run gives a run with other sessions in their place. -/
namespace HyperNet.Net

variable {σ τ : Type}

def HandlerKind.map (f : σ → τ) : HandlerKind σ → HandlerKind τ
  | .acceptor => .acceptor
  | .connector session => .connector (f session)
  | .connection session => .connection (f session)

def INetHandler.map (f : σ → τ) (h : INetHandler σ) : INetHandler τ :=
  ⟨h.kind.map f, h.fd, h.socket⟩

def EngineFrame.map (f : σ → τ) : EngineFrame σ → EngineFrame τ
  | .onIn => .onIn
  | .onConnected session => .onConnected (f session)
  | .onConnectFailed session => .onConnectFailed (f session)
  | .connection => .connection
  | .onDisconnected session fd socket => .onDisconnected (f session) fd socket
  | .outside => .outside

def Delivery.map (f : σ → τ) (d : Delivery σ) : Delivery τ := ⟨d.lookup, d.handler.map f⟩

def EngineLabel.map (f : σ → τ) : EngineLabel σ → EngineLabel τ
  | .wait events => .wait events
  | .next => .next
  | .outside => .outside
  | .accept fd session => .accept fd (f session)
  | .eagain => .eagain
  | .listen r => .listen r
  | .connect session r => .connect (f session) r
  | .onClose fd => .onClose fd
  | .ret => .ret

namespace NetEngine
variable {f : σ → τ} {w w' : NetEngine σ} {h : INetHandler σ} {fd : Nat}

def map (f : σ → τ) (w : NetEngine σ) : NetEngine τ where
  sockets := w.sockets
  opened := w.opened
  interest := w.interest
  handlers := w.handlers.map (·.map f)
  lookups := w.lookups
  stack := w.stack.map (·.map f)
  trace := w.trace.map (·.map f)

/-! ## The functions -/

theorem getHandler_map (fd : Nat) :
    (w.map f).getHandler fd = (w.getHandler fd).map (·.map f) :=
  List.find?_map ..

theorem filter_map (hs : List (INetHandler σ)) :
    (hs.map (·.map f)).filter (·.fd != fd) = (hs.filter (·.fd != fd)).map (·.map f) :=
  List.filter_map ..

theorem map_add : (w.add h).map f = (w.map f).add (h.map f) := by
  simp only [map, add, List.map_cons, filter_map]
  rfl

theorem map_remove : (w.remove h).map f = (w.map f).remove (h.map f) := by
  simp only [map, remove]
  rw [← filter_map]
  rfl

theorem map_addEvents (epollin epollout : Bool) :
    (w.addEvents h epollin epollout).map f = (w.map f).addEvents (h.map f) epollin epollout := by
  have hsocket : (w.map f).sockets (h.map f).fd = w.sockets h.fd := rfl
  rw [addEvents, addEvents, hsocket]
  cases w.sockets h.fd <;> rfl

theorem map_socket : (w.map f).socket fd = (w.socket fd).map (map f) := by
  have hsocket : (w.map f).sockets fd = w.sockets fd := rfl
  rw [socket, socket, hsocket]
  cases w.sockets fd <;> rfl

theorem map_connect (session : σ) (r : Opening) :
    (w.map f).connect (f session) r = (w.connect session r).map (map f) := by
  cases r with
  | noSocket => rfl
  | closed fd =>
    rw [connect, connect, map_socket, Option.map_map, Option.map_map]
    rfl
  | made fd =>
    rw [connect, connect, map_socket, Option.map_map, Option.map_map]
    congr 1
    funext v
    exact ((map_addEvents false true).trans (by rw [map_add]; rfl)).symm

theorem map_listen (r : Opening) : (w.map f).listen r = (w.listen r).map (map f) := by
  cases r with
  | noSocket => rfl
  | closed fd =>
    rw [listen, listen, map_socket, Option.map_map, Option.map_map]
    rfl
  | made fd =>
    rw [listen, listen, map_socket, Option.map_map, Option.map_map]
    congr 1
    funext v
    exact ((map_addEvents true false).trans (by rw [map_add]; rfl)).symm

theorem map_accept {session : σ} :
    (w.map f).accept fd (f session) = (w.accept fd session).map (map f) := by
  rw [accept, accept, map_socket, Option.map_map, Option.map_map]
  congr 1
  funext v
  have hadd := (map_addEvents (f := f) (w := v.add ⟨.connection session, fd, w.opened⟩)
    (h := ⟨.connection session, fd, w.opened⟩) true true).trans (by rw [map_add])
  exact (congrArg (push (.onConnected (f session))) hadd).symm

theorem map_onOut {session : σ} :
    (w.onOut h session).map f = (w.map f).onOut (h.map f) (f session) := by
  have hout := map_addEvents (f := f)
    (w := (((w.del h).remove h).add ⟨.connection session, h.fd, h.socket⟩))
    (h := ⟨.connection session, h.fd, h.socket⟩) true true
  rw [map_add, map_remove] at hout
  exact congrArg (push (.onConnected (f session))) hout

theorem map_onError {session : σ} :
    (w.onError h session).map f = (w.map f).onError (h.map f) (f session) := by
  have herror := map_remove (f := f) (w := w.close h.fd) (h := h)
  exact congrArg (push (.onConnectFailed (f session))) herror

theorem map_handle (flag : EpollFlag) :
    (w.map f).handle (h.map f) flag = (w.handle h flag).map (map f) := by
  obtain ⟨kind, fd, s⟩ := h
  cases kind with
  | acceptor => cases flag <;> rfl
  | connector session =>
    cases flag with
    | epollerr => exact congrArg some map_onError.symm
    | epollout => exact congrArg some map_onOut.symm
    | epollin => rfl
  | connection session => rfl

theorem map_onClose : (w.onClose h).map f = (w.map f).onClose (h.map f) :=
  map_remove (w := (w.del h).close h.fd)

theorem map_free : (w.map f).free = w.free := by
  unfold free
  rw [show (w.map f).stack = w.stack.map (·.map f) from rfl]
  cases w.stack with
  | nil => rfl
  | cons frame fs => cases frame <;> rfl

/-! ## A step -/

variable [DecidableEq σ] [DecidableEq τ] {q : Lookup} {rest : List Lookup}

theorem next_some (hstack : w.stack = []) (hlookups : w.lookups = q :: rest)
    (hget : w.getHandler q.fd = some h) :
    w.step .next = handle h q.flag { w with lookups := rest, trace := w.trace ++ [⟨q, h⟩] } := by
  simp only [step, hstack, hlookups, hget]

theorem next_none (hstack : w.stack = []) (hlookups : w.lookups = q :: rest)
    (hget : w.getHandler q.fd = none) : w.step .next = some { w with lookups := rest } := by
  simp only [step, hstack, hlookups, hget]

theorem next_map (hs : w.step .next = some w') : (w.map f).step .next = some (w'.map f) := by
  simp only [step] at hs
  split at hs
  · next q rest hstack hlookups =>
    have hstack' : (w.map f).stack = [] := List.map_eq_nil_iff.mpr hstack
    have hget := getHandler_map (f := f) (w := w) q.fd
    split at hs
    · next h hg =>
      rw [hg] at hget
      have hhandle := map_handle (f := f) (h := h)
        (w := { w with lookups := rest, trace := w.trace ++ [⟨q, h⟩] }) q.flag
      rw [hs] at hhandle
      rw [next_some hstack' hlookups hget]
      refine Eq.trans (congrArg (handle (h.map f) q.flag) ?_) hhandle
      simp only [map, List.map_append]
      rfl
    · next hg =>
      cases hs
      rw [hg] at hget
      exact next_none hstack' hlookups hget
  · cases hs

theorem onClose_map (hs : w.step (.onClose fd) = some w') :
    (w.map f).step (.onClose fd) = some (w'.map f) := by
  simp only [step] at hs ⊢
  rw [map_free, getHandler_map]
  split at hs
  · next session n s hfree hg =>
    cases hs
    rw [hfree, hg]
    rfl
  · cases hs

theorem ret_map (hs : w.step .ret = some w') : (w.map f).step .ret = some (w'.map f) := by
  obtain ⟨sockets, opened, interest, handlers, lookups, stack, trace⟩ := w
  cases stack with
  | nil => cases hs
  | cons frame fs =>
    cases frame with
    | onIn => cases hs
    | onDisconnected session fd s =>
      have hget := getHandler_map (f := f) fd
        (w := ⟨sockets, opened, interest, handlers, lookups, .onDisconnected session fd s :: fs,
          trace⟩)
      simp only [step] at hs
      split at hs
      · next hg =>
        cases hs
        rw [hg] at hget
        have hclose := map_onClose (f := f) (h := ⟨.connection session, fd, s⟩)
          (w := ⟨sockets, opened, interest, handlers, lookups, fs, trace⟩)
        exact (if_pos hget).trans (congrArg some hclose.symm)
      · cases hs
    | onConnected | onConnectFailed | connection | outside =>
      cases hs
      rfl

/-- The engine does the same with other sessions. -/
theorem step_map {l : EngineLabel σ} (hs : w.step l = some w') :
    (w.map f).step (l.map f) = some (w'.map f) := by
  cases l with
  | wait events =>
    simp only [step] at hs
    split at hs
    · next hwait =>
      cases hs
      refine if_pos ⟨List.map_eq_nil_iff.mpr hwait.1, hwait.2.1, ?_, hwait.2.2.2⟩
      exact le_of_le_of_eq hwait.2.2.1 (List.length_map _).symm
    · cases hs
  | next => exact next_map hs
  | outside =>
    simp only [step] at hs
    split at hs
    · next hempty =>
      cases hs
      exact if_pos ⟨List.map_eq_nil_iff.mpr hempty.1, hempty.2⟩
    · cases hs
  | accept fd session =>
    obtain ⟨sockets, opened, interest, handlers, lookups, stack, trace⟩ := w
    simp only [step] at hs
    split at hs
    · exact map_accept.trans (congrArg (Option.map (map f)) hs)
    · cases hs
  | eagain =>
    obtain ⟨sockets, opened, interest, handlers, lookups, stack, trace⟩ := w
    simp only [step] at hs
    split at hs
    · cases hs
      rfl
    · cases hs
  | listen r =>
    simp only [step] at hs
    split at hs
    · next hfree => exact (if_pos (map_free.trans hfree)).trans (by rw [map_listen, hs]; rfl)
    · cases hs
  | connect session r =>
    simp only [step] at hs
    split at hs
    · next hfree => exact (if_pos (map_free.trans hfree)).trans (by rw [map_connect, hs]; rfl)
    · cases hs
  | onClose fd => exact onClose_map hs
  | ret => exact ret_map hs

end NetEngine
end HyperNet.Net
