import HyperNet.Net.NetEngine

/-! # Where the engine has a session

A session given to `Connect` is that of a connector, then of a connection; in between, or when
either ends, it is with the call that takes it on. `held` counts the places. -/
namespace HyperNet.Net
open HyperNet.Core.History HyperNet.Core.Transition

variable {σ : Type} [DecidableEq σ]

/-- The handler is a connector or a connection of the session. -/
def INetHandler.holds (s : σ) (h : INetHandler σ) : Bool :=
  match h.kind with
  | .acceptor => false
  | .connector session | .connection session => session == s

/-- The connector is gone, and the session is told. -/
def EngineFrame.holds (s : σ) : EngineFrame σ → Bool
  | .onConnectFailed session => session == s
  | _ => false

namespace NetEngine
variable {s : σ} {w w' : NetEngine σ} {h : INetHandler σ} {fd : Nat} {l : EngineLabel σ}

def held (s : σ) (w : NetEngine σ) : Nat :=
  w.handlers.countP (·.holds s) + w.stack.countP (·.holds s)

/-- The step brings the session in. -/
def entering (s : σ) : EngineLabel σ → Nat
  | .accept _ session => (session == s).toNat
  | .connect session r => (session == s && r.ok).toNat
  | _ => 0

/-- The step ends the last call that has the session. -/
def leaving (s : σ) (w : NetEngine σ) : EngineLabel σ → Nat
  | .ret =>
    match w.stack.head? with
    | some (.onDisconnected session _ _) => (session == s).toNat
    | some f => (f.holds s).toNat
    | none => 0
  | _ => 0

/-! ## The operations -/

omit [DecidableEq σ] in
theorem countP_without (p : INetHandler σ → Bool) {hs : List (INetHandler σ)}
    (hd : (hs.map INetHandler.fd).Nodup) (hm : h ∈ hs) :
    hs.countP p = (hs.filter (·.fd != h.fd)).countP p + (p h).toNat := by
  induction hs with
  | nil => cases hm
  | cons k hs ih =>
    obtain ⟨hk, hd⟩ := List.nodup_cons.mp hd
    by_cases he : k = h
    · subst he
      have hall : hs.filter (·.fd != k.fd) = hs := by
        rw [List.filter_eq_self]
        intro x hx
        rw [bne_iff_ne]
        intro hfd
        exact hk (hfd ▸ List.mem_map_of_mem hx)
      rw [List.filter_cons_of_neg (by simp), hall, List.countP_cons]
      cases p k <;> rfl
    · have hm : h ∈ hs := (List.mem_cons.mp hm).resolve_left fun h => he h.symm
      have hne : k.fd ≠ h.fd := fun hfd => hk (hfd ▸ List.mem_map_of_mem hm)
      rw [List.filter_cons_of_pos (by simpa using hne), List.countP_cons, List.countP_cons,
        ih hd hm]
      omega

@[simp] theorem held_addEvents (epollin epollout : Bool) :
    (w.addEvents h epollin epollout).held s = w.held s := by
  unfold addEvents
  split <;> rfl

@[simp] theorem held_close : (w.close fd).held s = w.held s := rfl

theorem held_push (f : EngineFrame σ) : (w.push f).held s = w.held s + (f.holds s).toNat := by
  simp only [held, NetEngine.push, List.countP_cons]
  cases f.holds s <;> rfl

theorem held_pop {f : EngineFrame σ} {fs : List (EngineFrame σ)} (hst : w.stack = f :: fs) :
    held s { w with stack := fs } + (f.holds s).toNat = w.held s := by
  simp only [held, hst, List.countP_cons]
  cases f.holds s <;> rfl

theorem held_socket (hs : w.socket fd = some w') : w'.held s = w.held s := by
  unfold NetEngine.socket at hs
  split at hs
  · cases hs
    rfl
  · cases hs

theorem held_add (hv : ∀ k ∈ w.handlers, k.fd ≠ h.fd) :
    (w.add h).held s = w.held s + (h.holds s).toNat := by
  have hall : w.handlers.filter (·.fd != h.fd) = w.handlers := by
    rw [List.filter_eq_self]
    intro k hk
    simpa using hv k hk
  simp only [held, NetEngine.add, hall, List.countP_cons]
  cases h.holds s with
  | false => rfl
  | true => exact (Nat.add_right_comm _ _ _)

theorem held_remove (hd : (w.handlers.map INetHandler.fd).Nodup) (hm : h ∈ w.handlers) :
    (w.remove h).held s + (h.holds s).toNat = w.held s := by
  have := countP_without (·.holds s) hd hm
  simp only [held, NetEngine.remove]
  omega

omit [DecidableEq σ] in
theorem vacant_remove : ∀ k ∈ (w.remove h).handlers, k.fd ≠ h.fd := by
  intro k hk
  simpa using (List.mem_filter.mp hk).2

/-! ## A step -/

namespace Consistent

/-- A new socket gets its handler. -/
theorem held_enter (hc : w.Consistent) (hs : w.socket h.fd = some w')
    (epollin epollout : Bool) :
    ((w'.add h).addEvents h epollin epollout).held s = w.held s + (h.holds s).toNat := by
  obtain ⟨_, hfree, _, hh⟩ := hc.socket hs
  have hv : ∀ k ∈ w'.handlers, k.fd ≠ h.fd := hh ▸ hc.vacant hfree
  rw [held_addEvents, held_add hv, held_socket hs]

theorem held_connect (hc : w.Consistent) {session : σ} {r : Opening}
    (hs : w.connect session r = some w') :
    w'.held s = w.held s + (session == s && r.ok).toNat := by
  cases r with
  | noSocket =>
    cases hs
    simp [Opening.ok]
  | closed fd =>
    obtain ⟨v, hv, rfl⟩ := Option.map_eq_some_iff.mp hs
    simpa [Opening.ok] using held_socket hv
  | made fd =>
    obtain ⟨v, hv, rfl⟩ := Option.map_eq_some_iff.mp hs
    simpa [Opening.ok, INetHandler.holds] using
      hc.held_enter (s := s) (h := ⟨.connector session, fd, w.opened⟩) hv false true

theorem held_listen (hc : w.Consistent) {r : Opening} (hs : w.listen r = some w') :
    w'.held s = w.held s := by
  cases r with
  | noSocket => cases hs
  | closed fd =>
    obtain ⟨v, hv, rfl⟩ := Option.map_eq_some_iff.mp hs
    simpa using held_socket hv
  | made fd =>
    obtain ⟨v, hv, rfl⟩ := Option.map_eq_some_iff.mp hs
    simpa [INetHandler.holds] using
      hc.held_enter (s := s) (h := ⟨.acceptor, fd, w.opened⟩) hv true false

theorem held_accept (hc : w.Consistent) {session : σ} (hs : w.accept fd session = some w') :
    w'.held s = w.held s + (session == s).toNat := by
  obtain ⟨v, hv, rfl⟩ := Option.map_eq_some_iff.mp hs
  simpa [INetHandler.holds, held_push, EngineFrame.holds] using
    hc.held_enter (s := s) (h := ⟨.connection session, fd, w.opened⟩) hv true true

theorem held_handle (hc : w.Consistent) (hm : h ∈ w.handlers) {flag : EpollFlag}
    (hh : w.handle h flag = some w') : w'.held s = w.held s := by
  have hremove := held_remove (s := s) hc.distinct hm
  have hpush : ∀ f : EngineFrame σ, f.holds s = false → (w.push f).held s = w.held s := by
    intro f hf
    rw [held_push, hf]
    rfl
  cases handle_cases hh with
  | accepting | connection => exact hpush _ rfl
  | nothing => rfl
  | failed => exact (held_push _).trans hremove
  | @connected session fd n =>
    have hadd := held_add (s := s) (h := ⟨.connection session, fd, n⟩)
      (vacant_remove (w := w.del ⟨.connector session, fd, n⟩) (h := ⟨.connector session, fd, n⟩))
    refine (held_push _).trans ?_
    rw [held_addEvents]
    exact hadd.trans hremove

/-- A session is where it was, or comes in, or leaves. -/
theorem held_step (hc : w.Consistent) (hd : w.Does l w') :
    w'.held s + w.leaving s l = w.held s + entering s l := by
  cases hd with
  | wait | miss => rfl
  | hit hst hl hg hh =>
    exact (hc.rest hl _).held_handle (List.mem_of_find?_eq_some hg) hh
  | outside => simp [held_push, EngineFrame.holds, leaving, entering]
  | accept hst h => exact hc.held_accept h
  | eagain hst => exact held_pop hst
  | listen h => exact hc.held_listen h
  | connect h => exact hc.held_connect h
  | onClose => simp [held_push, EngineFrame.holds, leaving, entering]
  | @closed session fd n fs hst hg =>
    have hremove := held_remove (s := s) (w := { w with stack := fs }) hc.distinct
      (List.mem_of_find?_eq_some hg)
    have hpop : held s { w with stack := fs } = w.held s := held_pop hst
    have hleave : w.leaving s .ret = (session == s).toNat := by
      simp only [leaving, hst, List.head?_cons]
    rw [hleave]
    exact hremove.trans hpop
  | @ret f fs hst hf =>
    have hpop := held_pop (s := s) hst
    have hleave : w.leaving s .ret = (f.holds s).toNat := by
      simp only [leaving, hst, List.head?_cons]
    rw [hleave]
    exact hpop

end Consistent
end NetEngine
end HyperNet.Net
