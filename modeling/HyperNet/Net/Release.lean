import HyperNet.Net.Coupling

/-! # The release of a connection

`OnClose` runs where `OnEvent` finds both machines closed, and the calls that a
session makes from its callbacks end in `OnEvent` too. `OnClose` clears the
session's pipe, so that no call reaches a connection that is gone, but only
after `OnDisconnected` has returned; and `OnError` raises `NEVT_ERROR` after the
session has returned, whatever it has done. -/
namespace HyperNet.Net
open HyperNet.Api HyperNet.Public HyperNet.Core.History HyperNet.Core.Transition

/-! ## The trace after OnClose -/

/-- The callbacks of the session, the events of the machines, and `OnClose`. -/
def Obs.live : Obs → Bool
  | .onConnected | .onRecv _ | .onError _ | .onDisconnected | .dispatch _ | .onClose _ => true
  | _ => false

def Obs.isOnClose : Obs → Bool
  | .onClose _ => true
  | _ => false

/-- `OnClose` and the callback it makes. -/
def Obs.parts : Obs → Bool
  | .onClose _ | .onDisconnected => true
  | _ => false

/-- Before `OnClose`, or after the one that has run. -/
inductive Parting (tr : List Obs) : Prop
  | before (h : ∀ o ∈ tr, o.parts = false) : Parting tr
  | after {pre post : List Obs} {k : Nat} (h : tr = pre ++ .onClose k :: post)
      (hpre : ∀ o ∈ pre, o.parts = false) (hpost : post.filter Obs.live = [.onDisconnected]) :
      Parting tr

/-- `OnClose` runs at most once, and calls the session once. -/
theorem Parting.count {tr : List Obs} (h : Parting tr) :
    tr.countP Obs.isOnClose ≤ 1 ∧ tr.count .onDisconnected = tr.countP Obs.isOnClose := by
  have none : ∀ l : List Obs, (∀ o ∈ l, o.parts = false) →
      l.countP Obs.isOnClose = 0 ∧ l.count .onDisconnected = 0 := by
    intro l hl
    refine ⟨List.countP_eq_zero.mpr ?_, List.count_eq_zero.mpr ?_⟩
    · intro o ho hc
      have := hl o ho
      cases o <;> first | cases hc; done | cases this
    · intro hm
      cases hl _ hm
  cases h with
  | before h =>
    obtain ⟨hc, hd⟩ := none tr h
    rw [hc, hd]
    exact ⟨Nat.zero_le 1, rfl⟩
  | @after pre post k h hpre hpost =>
    obtain ⟨hc, hd⟩ := none pre hpre
    have hcpost : post.countP Obs.isOnClose = 0 := by
      rw [List.countP_eq_zero]
      intro o ho hcl
      have hm : o ∈ post.filter Obs.live :=
        List.mem_filter.mpr ⟨ho, by cases o <;> first | rfl | cases hcl⟩
      rw [hpost, List.mem_singleton] at hm
      rw [hm] at hcl
      cases hcl
    have hdpost : post.count .onDisconnected = 1 := by
      have := List.count_filter (p := Obs.live) (a := Obs.onDisconnected) (l := post) rfl
      rw [← this, hpost]
      rfl
    subst h
    simp [List.countP_append, List.count_append, List.countP_cons, hc, hd, hcpost,
      hdpost, Obs.isOnClose]

/-- The trace after the first `OnClose`. -/
def afterOnClose (tr : List Obs) : List Obs := (tr.dropWhile fun o => !o.isOnClose).tail

theorem Parting.filter_after {tr : List Obs} (h : Parting tr)
    (hc : tr.any Obs.isOnClose = true) : (afterOnClose tr).filter Obs.live = [.onDisconnected] := by
  cases h with
  | before h =>
    obtain ⟨o, ho, hcl⟩ := List.any_eq_true.mp hc
    have := h o ho
    cases o <;> first | cases hcl; done | cases this
  | @after pre post k h hpre hpost =>
    have hskip : ∀ o ∈ pre, (!o.isOnClose) = true := by
      intro o ho
      have := hpre o ho
      cases o <;> first | rfl | cases this
    rw [afterOnClose, h, List.dropWhile_append_of_pos hskip]
    exact hpost

theorem Parting.extends {tr ts : List Obs} {p : Obs → Bool} (h : Extends p tr ts)
    {pre post : List Obs} {k : Nat} (htr : tr = pre ++ .onClose k :: post)
    (hpost : post.filter Obs.live = [.onDisconnected]) (hp : ∀ o, p o = true → o.live = false) :
    ∃ post', ts = pre ++ .onClose k :: post' ∧ post'.filter Obs.live = [.onDisconnected] := by
  obtain ⟨added, rfl, ha⟩ := h
  refine ⟨post ++ added, by rw [htr]; simp, ?_⟩
  have : added.filter Obs.live = [] := by
    rw [List.filter_eq_nil_iff]
    intro o ho hl
    rw [hp o (ha o ho)] at hl
    cases hl
  rw [List.filter_append, hpost, this, List.append_nil]

namespace World
variable {cfg : Config} {w w' w₀ u : World cfg} {e : NetEventType} {l : Label}

/-! ## The end of an event -/

def bothClosed (w : World cfg) : Prop := w.send.state = .sendClose ∧ w.recv.state = .recvClose

/-- From `w` to `u` neither the session's callbacks nor the release have moved. -/
structure Follows (w u : World cfg) : Prop where
  pipe : u.pipe = w.pipe
  released : u.released = w.released
  stack : u.stack = w.stack
  trace : Extends (fun o => !o.parts) w.trace u.trace

theorem Follows.trans (h : w.Follows u) (h' : u.Follows w') : w.Follows w' where
  pipe := h'.pipe.trans h.pipe
  released := h'.released.trans h.released
  stack := h'.stack.trans h.stack
  trace := h.trace.trans h'.trace

/-- The three ways out of `OnEvent`. -/
inductive Ends (w : World cfg) : World cfg → Prop
  | stay {u : World cfg} (h : w.Follows u) (hb : ¬ u.bothClosed) : Ends w u
  | close {u : World cfg} (h : w.Follows u) (hb : u.bothClosed) : Ends w u.onClose
  | onRecv {u : World cfg} {f : Frame} (h : w.Follows u) (hb : ¬ u.bothClosed)
      (hf : f.isOnRecv = true) : Ends w { u with stack := f :: u.stack }

theorem ends_releaseCheck (h : w.Follows u) : w.Ends u.releaseCheck := by
  unfold World.releaseCheck
  split
  · next hb => exact .close h hb
  · next hb => exact .stay h hb

theorem ends_runPacket (hf : w.Follows u) (again : Bool) {o : Parsing × RecvSide cfg.recvSize}
    (hb : o.2.state.busy = true) : w.Ends (u.runPacket again o) := by
  obtain ⟨parsing, r⟩ := o
  cases parsing with
  | onRecv pos n =>
    refine Ends.onRecv (u := { u with recv := r, trace := _ })
      (hf.trans ⟨rfl, rfl, rfl, .append _ (by simp [Obs.parts])⟩) ?_ rfl
    rintro ⟨_, hr⟩
    have hr : r.state = .recvClose := hr
    rw [hr] at hb
    cases hb
  | done ok =>
    have hd : w.Follows { u with recv := r, trace := u.trace ++ [.packetsDone ok] } :=
      hf.trans ⟨rfl, rfl, rfl, .append _ (by simp [Obs.parts])⟩
    refine ends_releaseCheck (hd.trans ?_)
    cases ok with
    | false => exact ⟨rfl, rfl, rfl, .refl⟩
    | true =>
      cases again with
      | false => exact ⟨rfl, rfl, rfl, .refl⟩
      | true => exact ⟨rfl, rfl, rfl, .append [Obs.beginRecv] (by simp [Obs.parts])⟩

theorem RecvHandles.ends (h : u.RecvHandles e w') (hf : w.Follows u) : w.Ends w' := by
  cases h with
  | stay => exact ends_releaseCheck hf
  | change => exact ends_releaseCheck (hf.trans ⟨rfl, rfl, rfl, .refl⟩)
  | beginRecv =>
    exact ends_releaseCheck (hf.trans ⟨rfl, rfl, rfl,
      .append [Obs.beginRecv] (by simp [Obs.parts])⟩)
  | @processPacket again o ha ho =>
    have hb : o.2.state.busy = true := by
      rw [ho.keeps.1, (RecvState.processPacket_cases ha).2]
      split <;> rfl
    refine ends_runPacket (u := u.log _) (hf.trans ⟨rfl, rfl, rfl, .append _ ?_⟩) again hb
    simp [Obs.parts]

theorem onEvent_ends (he : w.onEvent e = some w') : w.Ends w' := by
  obtain ⟨posted, s, _, hr⟩ := onEvent_cases he
  exact hr.ends ⟨rfl, rfl, rfl, afterSend_extends rfl (fun _ _ => rfl) posted s w⟩

/-! ## Calls from the callbacks -/

/-- The label is a call that reaches the connection. -/
def calls (w : World cfg) : Label → Bool
  | .send _ | .close => w.pipe
  | _ => false

/-- The session makes no call from `OnDisconnected`, and from `OnError` none that closes while
no request is at the worker. -/
def NoReentry (w : World cfg) (l : Label) : Prop :=
  (w.stack.head? = some .onDisconnected → w.calls l = false) ∧
  (w.stack.head? = some .onError → w.closingCall l = true →
    w.send.state.busy = true ∨ w.recv.state.busy = true)

instance (w : World cfg) (l : Label) : Decidable (w.NoReentry l) :=
  inferInstanceAs (Decidable ((_ → _) ∧ (_ → _ → _ ∨ _)))

/-- An event that is no result neither makes nor takes a request when it closes. -/
theorem closing_event_busy (he : w.onEvent e = some w') (hf : e.fails = true)
    (hs : e.isSendResult = false) (hr : e.isRecvResult = false) :
    w'.send.state.busy = w.send.state.busy ∧ w'.recv.state.busy = w.recv.state.busy := by
  obtain ⟨posted, s, hh, hrecv⟩ := onEvent_cases he
  have hsend : s.state.busy = w.send.state.busy := by
    cases hh with
    | stay => rfl
    | change ha =>
      rw [SendState.busy_of_change ha, hs]
      exact Bool.and_true _
    | full ha | beginSend ha =>
      rw [(SendState.closing_of_beginSend ha).2] at hf
      cases hf
  cases hrecv with
  | stay => exact ⟨by simpa [afterSend] using hsend, by simp [afterSend]⟩
  | @change t ha =>
    refine ⟨by simpa [afterSend, changeRecvState] using hsend, ?_⟩
    have := RecvState.busy_of_change ha
    rw [hr, Bool.not_false, Bool.and_true] at this
    simpa [changeRecvState, afterSend] using this
  | beginRecv ha =>
    rw [(RecvState.closing_of_beginRecv ha).2.2] at hf
    cases hf
  | processPacket ha =>
    obtain ⟨rfl, _⟩ := RecvState.processPacket_cases ha
    cases hf

/-- An accepted context does not close the connection. -/
theorem send_keeps_open (hacc : Accounts false false w) (hawake : w.sendView.Awake)
    (hr : w.Raises l .send w₀) (hopen : ¬ w₀.bothClosed) (he : w₀.onEvent .send = some w') :
    ¬ w'.bothClosed := by
  rintro ⟨hsend, hrecv⟩
  have hg : w.sendOverflows l = false := by
    cases hr with
    | send => rfl
    | result hst hq =>
      have := hacc.kind (.result .send) (by simp [NetWorker.items_readResult hq])
      cases this
  obtain ⟨posted, s, hh, hrh⟩ := onEvent_cases he
  have hstay : ∀ t : RecvState, t.onEvent .send = .stay := by
    intro t
    cases t <;> rfl
  obtain rfl : w' = (w₀.afterSend .send posted s).releaseCheck := by
    cases hrh with
    | stay => rfl
    | change ha | beginRecv ha | processPacket ha => rw [hstay] at ha; cases ha
  rw [releaseCheck_send] at hsend
  rw [releaseCheck_recv] at hrecv
  refine hopen ⟨?_, hrecv⟩
  have hs : s.state = .sendClose := hsend
  cases hh with
  | stay => exact hs
  | @change t ha =>
    have ht : t = .sendClose := hs
    have hc : (w₀.send.state.closing || false) = true :=
      (SendState.closing_of_change ha).symm.trans (by rw [ht]; rfl)
    rw [Bool.or_false] at hc
    rw [SendState.closing_send hc] at ha
    cases ha
  | full ha hu hx =>
    rw [not_full hacc hawake hg hr ha hu] at hx
    cases hx
  | @beginSend t b ha hb =>
    have ht : t = .sendClose := hs
    rcases SendState.beginSend_target ha with h | h
    · rw [ht] at h
      cases h
    · rw [ht] at h
      cases h

/-- No `OnError` is left to return when an event closes the connection. -/
theorem no_error_frame (hacc : Accounts false false w) (hawake : w.sendView.Awake)
    (hg : w.NoReentry l) (hopen : ¬ w.bothClosed) (hst : w.stack.length ≤ 1)
    (hr : w.Raises l e w₀) (he : w₀.onEvent e = some w') (hb : w'.bothClosed) :
    Frame.onError ∉ w₀.stack := by
  have hhead : Frame.onError ∈ w.stack → w.stack.head? = some .onError := by
    intro hm
    match hs : w.stack with
    | [] => rw [hs] at hm; cases hm
    | [f] => rw [hs] at hm; rw [List.mem_singleton.mp hm]; rfl
    | _ :: _ :: _ => rw [hs] at hst; simp at hst
  have hcall : w.closingCall l = true → w₀.send = w.send → w₀.recv = w.recv →
      e.fails = true → e.isSendResult = false → e.isRecvResult = false →
      Frame.onError ∉ w.stack := by
    intro hc hs₀ hr₀ hf hsr hrr hm
    obtain ⟨hsend, hrecv⟩ := closing_event_busy he hf hsr hrr
    rw [hb.1, hs₀] at hsend
    rw [hb.2, hr₀] at hrecv
    rcases hg.2 (hhead hm) hc with h | h
    · rw [h] at hsend
      cases hsend
    · rw [h] at hrecv
      cases hrecv
  cases hr with
  | send hp hx hbuf => exact absurd hb (send_keeps_open hacc hawake (.send hp hx hbuf) hopen he)
  | overflow hp hx => exact hcall (by simp [closingCall, hp, hx]) rfl rfl rfl rfl rfl
  | close hp => exact hcall hp rfl rfl rfl rfl rfl
  | onIn hi | onOut hi =>
    rw [(idle_iff.mp hi).1]
    exact List.not_mem_nil
  | @onError fs hs =>
    rw [hs, List.length_cons] at hst
    have : fs = [] := List.length_eq_zero_iff.mp (by omega)
    rw [this]
    exact List.not_mem_nil
  | result hs =>
    change Frame.onError ∉ w.stack
    rw [hs]
    exact List.not_mem_nil

/-! ## The life of a connection -/

/-- Before `OnClose`; or after it, in `OnDisconnected` or released. -/
inductive Phase (w : World cfg) : Prop
  | alive (hopen : ¬ w.bothClosed) (hpipe : w.pipe = true) (hrel : w.released = false)
      (htr : ∀ o ∈ w.trace, o.parts = false) (hst : w.stack.length ≤ 1)
      (hd : Frame.onDisconnected ∉ w.stack)
  | gone (hb : w.bothClosed) {pre post : List Obs} {k : Nat}
      (htr : w.trace = pre ++ .onClose k :: post) (hpre : ∀ o ∈ pre, o.parts = false)
      (hpost : post.filter Obs.live = [.onDisconnected]) (herr : Frame.onError ∉ w.stack)
      (h : (∃ fs, w.stack = .onDisconnected :: fs ∧ Frame.onDisconnected ∉ fs) ∨
        w.pipe = false ∧ w.released = true ∧ Frame.onDisconnected ∉ w.stack) : Phase w

theorem Phase.parting (h : w.Phase) : Parting w.trace := by
  cases h with
  | alive _ _ _ htr => exact .before htr
  | gone _ htr hpre hpost => exact .after htr hpre hpost

/-- Out of `OnEvent`, into the next phase. -/
theorem Ends.phase (h : w.Ends w') (hpipe : w.pipe = true) (hrel : w.released = false)
    (htr : ∀ o ∈ w.trace, o.parts = false) (hst : w.stack.length ≤ 1)
    (hd : Frame.onDisconnected ∉ w.stack)
    (hone : ∀ pos u again, Frame.onRecv pos u again ∈ w'.stack → w'.stack.length ≤ 1)
    (herr : w'.bothClosed → Frame.onError ∉ w.stack) : w'.Phase := by
  have grow : ∀ {u : World cfg}, w.Follows u → ∀ o ∈ u.trace, o.parts = false := by
    intro u hu o ho
    obtain ⟨added, hadd, hp⟩ := hu.trace
    rw [hadd] at ho
    rcases List.mem_append.mp ho with ho | ho
    · exact htr o ho
    · simpa using hp o ho
  cases h with
  | stay hf hb =>
    exact .alive hb (hf.pipe.trans hpipe) (hf.released.trans hrel) (grow hf)
      (by rw [hf.stack]; exact hst) (by rw [hf.stack]; exact hd)
  | @onRecv u f hf hb hrecv =>
    have hu := grow hf
    refine .alive hb (hf.pipe.trans hpipe) (hf.released.trans hrel) hu ?_ ?_
    · cases f with
      | onRecv pos n again => exact hone pos n again List.mem_cons_self
      | onConnected | onError | onDisconnected => cases hrecv
    · intro hm
      rcases List.mem_cons.mp hm with hm | hm
      · rw [← hm] at hrecv
        cases hrecv
      · rw [hf.stack] at hm
        exact hd hm
  | @close u hf hb =>
    have htrace : u.onClose.trace =
        u.trace ++ .onClose u.worker.items.length :: [.onDisconnected] := rfl
    refine .gone hb htrace (grow hf) rfl ?_ (.inl ⟨u.stack, rfl, by rw [hf.stack]; exact hd⟩)
    intro hm
    rcases List.mem_cons.mp hm with hm | hm
    · cases hm
    · rw [hf.stack] at hm
      exact herr hb hm

/-- A step of a connection that has not closed. -/
theorem Phase.step_alive (hacc : Accounts false false w) (hawake : w.sendView.Awake)
    (hg : w.NoReentry l) (hopen : ¬ w.bothClosed) (hpipe : w.pipe = true)
    (hrel : w.released = false) (htr : ∀ o ∈ w.trace, o.parts = false)
    (hst : w.stack.length ≤ 1) (hd : Frame.onDisconnected ∉ w.stack)
    (hs : w.step l = some w') : w'.Phase := by
  have hone : ∀ pos u again, Frame.onRecv pos u again ∈ w'.stack → w'.stack.length ≤ 1 := by
    intro pos u again hm
    rw [((hacc.step hs).alone pos u again hm).1]
    exact Nat.le_refl 1
  have htail : ∀ {f : Frame} {fs : List Frame}, w.stack = f :: fs → fs = [] := by
    intro f fs hs
    rw [hs, List.length_cons] at hst
    exact List.length_eq_zero_iff.mp (by omega)
  cases step_cases hs with
  | @event _ e w₀ _ hr he =>
    have herr : w'.bothClosed → Frame.onError ∉ w₀.stack :=
      no_error_frame hacc hawake hg hopen hst hr he
    cases hr with
    | send => exact (onEvent_ends he).phase hpipe hrel (forall_snoc htr rfl) hst hd hone herr
    | overflow => exact (onEvent_ends he).phase hpipe hrel (forall_snoc htr rfl) hst hd hone herr
    | close => exact (onEvent_ends he).phase hpipe hrel (forall_snoc htr rfl) hst hd hone herr
    | onIn | onOut | result => exact (onEvent_ends he).phase hpipe hrel htr hst hd hone herr
    | onError hf =>
      obtain rfl := htail hf
      exact (onEvent_ends he).phase hpipe hrel htr (Nat.zero_le 1) nofun hone herr
  | detached hp => rw [hpipe] at hp; cases hp
  | onConnected hf =>
    obtain rfl := htail hf
    exact .alive hopen hpipe hrel htr (Nat.zero_le 1) nofun
  | @onRecv pos u again fs hf =>
    obtain rfl := htail hf
    have hb : (w.recv.parse cfg.parser (pos + u)).2.state.busy = true := by
      rw [(RecvSide.parse_cases cfg.parser (pos + u) w.recv).keeps.1]
      exact (hacc.alone pos u again (by simp [hf])).2
    have hends := ends_runPacket (w := { w with stack := [] }) ⟨rfl, rfl, rfl, .refl⟩ again hb
    exact hends.phase hpipe hrel htr (Nat.zero_le 1) nofun hone nofun
  | onDisconnected hf =>
    rw [hf] at hd
    exact absurd List.mem_cons_self hd
  | onError hi =>
    have hst := (idle_iff.mp hi).1
    exact .alive hopen hpipe hrel (forall_snoc htr rfl) (by simp [hst]) (by simp [hst])
  | take | push => exact .alive hopen hpipe hrel htr hst hd
  | runRecv => exact .alive hopen hpipe hrel (forall_snoc htr rfl) hst hd
  | runSend => exact .alive hopen hpipe hrel (forall_snoc htr rfl) hst hd

/-- The engine finds no connection that is gone. -/
theorem not_idle_when_gone (h : (∃ fs, w.stack = .onDisconnected :: fs ∧
    Frame.onDisconnected ∉ fs) ∨ w.pipe = false ∧ w.released = true ∧
      Frame.onDisconnected ∉ w.stack) : ¬ w.idle = true := by
  intro hi
  obtain ⟨hstack, hreleased⟩ := idle_iff.mp hi
  rcases h with ⟨fs, hs, _⟩ | ⟨_, hrel, _⟩
  · rw [hstack] at hs
    cases hs
  · rw [hreleased] at hrel
    cases hrel

/-- Nothing is dispatched once `OnClose` has run. -/
theorem no_event_when_gone (hacc : Accounts false false w) (hg : w.NoReentry l)
    (hb : w.bothClosed) (herr : Frame.onError ∉ w.stack)
    (h : (∃ fs, w.stack = .onDisconnected :: fs ∧ Frame.onDisconnected ∉ fs) ∨
      w.pipe = false ∧ w.released = true ∧ Frame.onDisconnected ∉ w.stack) :
    ¬ w.Raises l e w₀ := by
  have hcall : w.calls l = true → w.pipe = true → False := by
    intro hc hp
    rcases h with ⟨fs, hs, _⟩ | ⟨hpipe, _⟩
    · rw [hg.1 (by rw [hs]; rfl)] at hc
      cases hc
    · rw [hpipe] at hp
      cases hp
  intro hr
  cases hr with
  | send hp => exact hcall hp hp
  | overflow hp => exact hcall hp hp
  | close hp => exact hcall hp hp
  | onIn hi => exact not_idle_when_gone h hi
  | onOut hi => exact not_idle_when_gone h hi
  | onError hs =>
    rw [hs] at herr
    exact herr List.mem_cons_self
  | result hs hq =>
    have hi := NetWorker.items_readResult hq
    rw [hacc.items_nil hb.1 hb.2] at hi
    cases hi

theorem Phase.step (h : w.Phase) (hacc : Accounts false false w) (hawake : w.sendView.Awake)
    (hg : w.NoReentry l) (hs : w.step l = some w') : w'.Phase := by
  cases h with
  | alive hopen hpipe hrel htr hst hd =>
    exact Phase.step_alive hacc hawake hg hopen hpipe hrel htr hst hd hs
  | @gone hb pre post k htr hpre hpost herr h =>
    have silent : ∀ x : Obs, x.live = false →
        ∃ post', w.trace ++ [x] = pre ++ .onClose k :: post' ∧
          post'.filter Obs.live = [.onDisconnected] := by
      intro x hx
      exact Parting.extends (p := fun o => !o.live) (.append _ (by simpa using hx)) htr hpost
        (by simp)
    cases step_cases hs with
    | event hr => exact absurd hr (no_event_when_gone hacc hg hb herr h)
    | detached => exact .gone hb htr hpre hpost herr h
    | onConnected hf =>
      rcases h with ⟨fs, hs, _⟩ | ⟨hp, hrel, hd⟩
      · rw [hf] at hs
        cases hs
      · rw [hf] at herr hd
        exact .gone hb htr hpre hpost (fun hm => herr (List.mem_cons_of_mem _ hm))
          (.inr ⟨hp, hrel, fun hm => hd (List.mem_cons_of_mem _ hm)⟩)
    | @onRecv pos u again fs hf =>
      have := (hacc.alone pos u again (by simp [hf])).2
      rw [hb.2] at this
      cases this
    | onDisconnected hf =>
      rw [hf] at herr h
      rcases h with ⟨fs, hs, hd⟩ | ⟨_, _, hd⟩
      · obtain ⟨_, rfl⟩ := List.cons.inj hs
        obtain ⟨post', htr', hpost'⟩ := silent .release rfl
        exact .gone hb htr' hpre hpost' (fun hm => herr (List.mem_cons_of_mem _ hm))
          (.inr ⟨rfl, rfl, hd⟩)
      · exact absurd List.mem_cons_self hd
    | onError hi => exact absurd hi (not_idle_when_gone h)
    | take | push => exact .gone hb htr hpre hpost herr h
    | @runRecv rs ret b bytes =>
      obtain ⟨post', htr', hpost'⟩ := silent (.workerRecv w.recv.worked.offset bytes ret) rfl
      exact .gone hb htr' hpre hpost' herr h
    | @runSend rs ret b bytes =>
      obtain ⟨post', htr', hpost'⟩ := silent (.workerSend w.send.worked.offset bytes ret) rfl
      exact .gone hb htr' hpre hpost' herr h

/-- Closed machines stay closed. -/
theorem closed_of_closed (hb : w.bothClosed) (he : w.onEvent e = some w') : w'.bothClosed := by
  have hsend : SendState.sendClose.onEvent e = .stay := by cases e <;> rfl
  have hrecv : RecvState.recvClose.onEvent e = .stay := by cases e <;> rfl
  obtain ⟨posted, s, hh, hr⟩ := onEvent_cases he
  have hs : s.state = .sendClose := by
    cases hh with
    | stay => exact hb.1
    | change ha | full ha | beginSend ha => cases hsend.symm.trans (hb.1 ▸ ha)
  cases hr with
  | stay =>
    rw [bothClosed, releaseCheck_send, releaseCheck_recv]
    exact ⟨hs, hb.2⟩
  | change ha | beginRecv ha | processPacket ha =>
    have hclosed : (w.afterSend e posted s).recv.state = .recvClose := hb.2
    cases hrecv.symm.trans (hclosed ▸ ha)

/-- `OnDisconnected` is called on a connection that is closed, whatever its session does. -/
theorem disconnecting_closed (h : Reachable w) :
    Frame.onDisconnected ∈ w.stack → w.bothClosed := by
  refine h.invariant_with (J := Accounts false false) (I := fun w =>
    Frame.onDisconnected ∈ w.stack → w.bothClosed) (fun _ hr => Reachable.accounts hr) ?_ ?_
  · simp [system, World.init]
  intro w l w' _ hacc ih hs
  have ended : ∀ {u : World cfg}, u.Ends w' →
      (Frame.onDisconnected ∈ u.stack → w'.bothClosed) →
        Frame.onDisconnected ∈ w'.stack → w'.bothClosed := by
    intro u hends hu hm
    cases hends with
    | stay hf => exact hu (hf.stack ▸ hm)
    | close _ hb => exact hb
    | onRecv hf _ hrecv =>
      rcases List.mem_cons.mp hm with hm | hm
      · rw [← hm] at hrecv
        cases hrecv
      · exact hu (hf.stack ▸ hm)
  cases step_cases hs with
  | @event _ e w₀ _ hr he =>
    refine ended (onEvent_ends he) fun hm => closed_of_closed ?_ he
    cases hr with
    | send | overflow | close | onIn | onOut | result => exact ih hm
    | onError hst => exact ih (hst ▸ List.mem_cons_of_mem _ hm)
  | detached | take | runRecv | runSend | push => exact ih
  | onConnected hst => exact fun hm => ih (hst ▸ List.mem_cons_of_mem _ hm)
  | @onRecv pos u again fs hst =>
    obtain ⟨rfl, _, _, _, hb⟩ := hacc.in_onRecv hst
    refine ended (ends_runPacket (w := { w with stack := [] }) ⟨rfl, rfl, rfl, .refl⟩ again ?_)
      fun hm => absurd hm List.not_mem_nil
    rw [(RecvSide.parse_cases cfg.parser (pos + u) w.recv).keeps.1]
    exact hb
  | onDisconnected hst => exact fun _ => ih (hst ▸ List.mem_cons_self)
  | onError =>
    intro hm
    rcases List.mem_cons.mp hm with hm | hm
    · cases hm
    · exact ih hm

end World

theorem phase_init (cfg : Config) : (World.init cfg).Phase := by
  refine .alive ?_ rfl rfl ?_ (Nat.le_refl 1) ?_
  · rintro ⟨hs, _⟩
    cases hs
  · simp [World.init, Obs.parts]
  · simp [World.init]

/-- `OnClose` runs at most once and calls `OnDisconnected` once each time it runs; and after it
has begun, that is the only callback, and no event reaches the machines, as long as
the session does not close again from inside a callback. -/
theorem released_once {cfg : Config} {w : World cfg} (h : (system cfg).Run World.NoReentry w) :
    w.trace.countP Obs.isOnClose ≤ 1 ∧
    w.trace.count .onDisconnected = w.trace.countP Obs.isOnClose ∧
    (w.trace.any Obs.isOnClose = true →
      (afterOnClose w.trace).filter Obs.live = [.onDisconnected]) := by
  have hphase : w.Phase := h.invariant_with (I := World.Phase)
    (J := fun w => Accounts false false w ∧ w.sendView.Awake)
    (fun _ hr => ⟨Reachable.accounts hr.reachable, Reachable.awake hr.reachable⟩)
    (phase_init cfg) (fun _ _ _ hg hj ih hs => ih.step hj.1 hj.2 hg hs)
  exact ⟨hphase.parting.count.1, hphase.parting.count.2, hphase.parting.filter_after⟩

theorem released_once_small : ∃ w : World .small, w.released = true ∧
    w.trace.countP Obs.isOnClose = 1 ∧ w.trace.count .onDisconnected = 1 ∧
      (afterOnClose w.trace).filter Obs.live = [.onDisconnected] := by
  obtain ⟨w, h, hw⟩ := (system .small).run_of_exec (P := World.NoReentry)
    [.ret, .send [1], .onIn, .onError 104, .close, .close, .ret, .take, .runSend [.sent 1], .push,
      .process, .take, .runRecv [.eof], .push, .process, .ret, .close]
    (p := fun w => w.released && w.trace.countP Obs.isOnClose == 1) (by decide)
  simp only [Bool.and_eq_true, beq_iff_eq] at hw
  obtain ⟨_, hcount, hafter⟩ := released_once h
  rw [hw.2] at hcount
  exact ⟨w, hw.1, hw.2, hcount,
    hafter (List.any_eq_true.mpr (List.countP_pos_iff.mp (by rw [hw.2]; decide)))⟩

/-- The session closes again from `OnDisconnected`: `OnClose` runs twice. -/
theorem close_in_onDisconnected : ∃ w : World .small, Reachable w ∧
    w.trace.countP Obs.isOnClose = 2 ∧ w.trace.count .onDisconnected = 2 ∧
      .dispatch .close ∈ afterOnClose w.trace := by
  obtain ⟨w, h, hw⟩ := (system .small).run_of_exec (P := fun _ _ => True) [.ret, .close, .close]
    (p := fun w => w.trace.countP Obs.isOnClose == 2 && w.trace.count .onDisconnected == 2 &&
      (afterOnClose w.trace).any (· == .dispatch .close)) (by decide)
  simp only [Bool.and_eq_true, beq_iff_eq] at hw
  obtain ⟨⟨hclose, hdisc⟩, hm⟩ := hw
  obtain ⟨o, ho, he⟩ := List.any_eq_true.mp hm
  exact ⟨w, h, hclose, hdisc, beq_iff_eq.mp he ▸ ho⟩

end HyperNet.Net
