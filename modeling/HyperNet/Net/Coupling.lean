import HyperNet.Net.Closing
import HyperNet.Net.SendWakeup

/-! # Closing in both directions

A connection is released when both machines have closed, so one that closes in
one direction only is never released. `ProcessPacket` and `BeginSend` return
false to the machine that called them and raise no event, unlike `Send`, which
raises `NEVT_ERROR` for the same overflow; the other machine goes on. -/
namespace HyperNet.Net
open HyperNet.Api HyperNet.Public HyperNet.Core.History HyperNet.Core.Transition

namespace World
variable {cfg : Config} {w w' w₀ : World cfg} {e : NetEventType} {l : Label}

/-! ## Release -/

/-- Once both machines have closed, the session has been told, and the connection is
released when it returns. -/
def Parted (w : World cfg) : Prop :=
  w.send.state = .sendClose → w.recv.state = .recvClose →
    Obs.onDisconnected ∈ w.trace ∧ (w.released = true ∨ Frame.onDisconnected ∈ w.stack)

theorem parted_releaseCheck (w : World cfg) : w.releaseCheck.Parted := by
  unfold World.releaseCheck
  split
  · exact fun _ _ => ⟨by simp [onClose], .inr (by simp [onClose])⟩
  · next h => exact fun hs hr => absurd ⟨hs, hr⟩ h

theorem parted_runPacket (again : Bool) {o : Parsing × RecvSide cfg.recvSize}
    (hb : o.2.state.busy = true) (w : World cfg) : (w.runPacket again o).Parted := by
  obtain ⟨parsing, r⟩ := o
  cases parsing with
  | onRecv pos u =>
    intro _ hr
    have hr : r.state = .recvClose := hr
    rw [hr] at hb
    cases hb
  | done ok => exact parted_releaseCheck _

theorem RecvHandles.parted (h : w.RecvHandles e w') : w'.Parted := by
  cases h with
  | stay => exact parted_releaseCheck _
  | change => exact parted_releaseCheck _
  | beginRecv => exact parted_releaseCheck _
  | processPacket ha ho =>
    refine parted_runPacket _ ?_ _
    rw [ho.keeps.1, (RecvState.processPacket_cases ha).2]
    split <;> rfl

theorem Parted.step (h : w.Parted) (hacc : Accounts false false w) (hs : w.step l = some w') :
    w'.Parted := by
  have transfer : ∀ u : World cfg, u.send.state = w.send.state → u.recv.state = w.recv.state →
      (∀ o ∈ w.trace, o ∈ u.trace) → (w.released = true → u.released = true) →
      (Frame.onDisconnected ∈ w.stack → u.released = true ∨ Frame.onDisconnected ∈ u.stack) →
      u.Parted := by
    intro u hsend hrecv htrace hrel hstack hs hr
    obtain ⟨ho, hor⟩ := h (hsend.symm.trans hs) (hrecv.symm.trans hr)
    refine ⟨htrace _ ho, ?_⟩
    rcases hor with hrl | hst
    · exact .inl (hrel hrl)
    · exact hstack hst
  cases step_cases hs with
  | event hr he =>
    obtain ⟨_, _, _, hrecv⟩ := onEvent_cases he
    exact hrecv.parted
  | detached => exact h
  | onConnected hst =>
    exact transfer _ rfl rfl (fun _ => id) id (fun hm => .inr (by simpa [hst] using hm))
  | @onRecv pos u again fs hst =>
    refine parted_runPacket _ ?_ _
    rw [(RecvSide.parse_cases cfg.parser (pos + u) w.recv).keeps.1]
    exact (hacc.alone pos u again (by simp [hst])).2
  | onDisconnected hst =>
    exact transfer _ rfl rfl (fun _ ho => List.mem_append_left _ ho) (fun _ => rfl)
      (fun _ => .inl rfl)
  | onError =>
    exact transfer _ rfl rfl (fun _ ho => List.mem_append_left _ ho) id
      (fun hm => .inr (List.mem_cons_of_mem _ hm))
  | take => exact transfer _ rfl rfl (fun _ => id) id .inr
  | runRecv =>
    exact transfer _ rfl rfl (fun _ ho => List.mem_append_left _ ho) id .inr
  | runSend =>
    exact transfer _ rfl rfl (fun _ ho => List.mem_append_left _ ho) id .inr
  | push => exact transfer _ rfl rfl (fun _ => id) id .inr

/-! ## Coupling -/

/-- The label has `ProcessPacket` return false. -/
def packetFails (w : World cfg) : Label → Bool
  | .ret =>
    match w.stack with
    | .onRecv pos u _ :: _ => cfg.parser.rejects (w.recv.used.data.drop (pos + u))
    | _ => false
  | .process => w.nextResult == some .recvDone &&
      (w.recv.state == .recving || w.recv.state == .recvingWait) && w.recv.worked.data != [] &&
      (w.recv.used.exceeds w.recv.worked.offset ||
        cfg.parser.rejects (w.recv.used.data ++ w.recv.worked.data))
  | _ => false

/-- The label has `BeginSend` find that the two send buffers do not fit into one. -/
def sendOverflows (w : World cfg) (l : Label) : Bool :=
  (l == .onOut && w.send.state == .sendPending ||
    l == .process && w.nextResult == some .sendPending && w.send.state == .sendingReadyWait) &&
  w.send.worked.exceeds w.send.used.offset

/-- No failure of the step stays with one machine. -/
def NoSplit (w : World cfg) (l : Label) : Prop :=
  w.NoCloseInside l ∧ (w.packetFails l = true → w.send.state.closing = true) ∧
    w.sendOverflows l = false

instance (w : World cfg) (l : Label) : Decidable (w.NoSplit l) :=
  inferInstanceAs (Decidable (_ ∧ _ ∧ _))

/-- Both machines are closing, or neither is. -/
structure Coupled (w : World cfg) : Prop where
  states : w.send.state.closing = w.recv.state.closing
  rest : w.send.state.closing = true → w.restRejected = true

theorem Closed.coupled (h : w.Closed) : w.Coupled :=
  ⟨h.send.trans h.recv.symm, fun _ => h.rest⟩

theorem coupled_of_open (hs : w.send.state.closing = false) (hr : w.recv.state.closing = false) :
    w.Coupled :=
  ⟨hs.trans hr.symm, fun h => (Bool.false_ne_true (hs.symm.trans h)).elim⟩

theorem Coupled.releaseCheck (h : w.Coupled) : w.releaseCheck.Coupled := by
  unfold World.releaseCheck
  split
  · exact ⟨h.states, h.rest⟩
  · exact h

/-- `ProcessPacket` goes on or returns true. -/
theorem coupled_runPacket (hs : w.send.state.closing = false) {again : Bool}
    {o : Parsing × RecvSide cfg.recvSize} (hr : o.2.state.closing = false)
    (ho : o.1 ≠ .done false) : (w.runPacket again o).Coupled := by
  obtain ⟨parsing, r⟩ := o
  cases parsing with
  | onRecv pos u => exact coupled_of_open hs hr
  | done ok =>
    cases ok with
    | false => exact absurd rfl ho
    | true =>
      refine Coupled.releaseCheck (coupled_of_open ?_ ?_)
      · rw [endPacket_send]
        exact hs
      · cases again <;> rfl

/-- The session is not in `OnRecv` when an event closes, or nothing follows the packet. -/
theorem restRejected_of_fails (hacc : Accounts false false w) (hg : w.NoCloseInside l)
    (hr : w.Raises l e w₀) (hf : e.fails = true) : w₀.restRejected = true := by
  cases hr with
  | send => cases hf
  | overflow hp hx => exact hg (by simp [closingCall, hp, hx])
  | close hp => exact hg hp
  | onIn => cases hf
  | onOut => cases hf
  | @onError fs hst =>
    rw [restRejected, List.all_eq_true]
    intro f hm
    cases f with
    | onRecv pos u again =>
      have := (hacc.alone pos u again (by rw [hst]; exact List.mem_cons_of_mem _ hm)).1
      rw [hst] at this
      cases this
    | onConnected | onError | onDisconnected => rfl
  | result hst => simp [restRejected, hst]

theorem Coupled.raises (h : w.Coupled) (hr : w.Raises l e w₀) : w₀.Coupled := by
  cases hr with
  | onError hst =>
    refine ⟨h.states, fun hc => ?_⟩
    have := h.rest hc
    simpa [restRejected, hst] using this
  | send | overflow | close | onIn | onOut | result => exact ⟨h.states, h.rest⟩

/-- `BeginSend` does not overflow in this step. -/
theorem not_full (hacc : Accounts false false w) (hawake : w.sendView.Awake)
    (hg : w.sendOverflows l = false) (hr : w.Raises l e w₀) {t : SendState}
    (ha : w₀.send.state.onEvent e = .beginSend t) (hu : w₀.send.used.data ≠ []) :
    w₀.send.worked.exceeds w₀.send.used.offset = false := by
  cases hx : w₀.send.worked.exceeds w₀.send.used.offset with
  | false => rfl
  | true =>
    have hsource := hawake.full_source hacc.send cfg.send_lt (hacc.sendView_raises hr) ha hu hx
    cases hr with
    | send | overflow | close | onIn | onError => rcases hsource with ⟨_, h⟩ | ⟨_, h⟩ <;> cases h
    | onOut hi =>
      rcases hsource with ⟨hs, _⟩ | ⟨_, h⟩
      · have hs : w.send.state = .sendPending := hs
        simp [sendOverflows, hs, hx] at hg
      · cases h
    | @result e wk hst hq =>
      rcases hsource with ⟨_, rfl⟩ | ⟨hs, rfl⟩
      · have := hacc.kind (.result .sendReady) (by simp [NetWorker.items_readResult hq])
        cases this
      · have hs : w.send.state = .sendingReadyWait := hs
        have hx : w.send.worked.exceeds w.send.used.offset = true := hx
        simp [sendOverflows, nextResult, hq, hs, hx] at hg

/-- `ProcessPacket` does not return false at once in this step. -/
theorem packet_ok (hg : w.packetFails l = false) (hr : w.Raises l .recvDone w₀)
    (hs : w₀.recv.state = .recving ∨ w₀.recv.state = .recvingWait)
    {o : Parsing × RecvSide cfg.recvSize} (ho : w₀.recv.Processes cfg.parser o) :
    o.1 ≠ .done false := by
  cases hr with
  | @result _ wk hst hq =>
    have hstate : (w.recv.state == .recving || w.recv.state == .recvingWait) = true := by
      simpa using hs
    simp only [packetFails, nextResult, hq, hstate, Option.map_some, beq_self_eq_true,
      Bool.and_true, Bool.true_and] at hg
    cases ho with
    | nothing => simp
    | full hw hx =>
      have hw : w.recv.worked.data ≠ [] := hw
      have hx : w.recv.used.exceeds w.recv.worked.offset = true := hx
      simp [hw, hx] at hg
    | @parse b hw hx hb =>
      have hw : w.recv.worked.data ≠ [] := hw
      have hx : w.recv.used.exceeds w.recv.worked.offset = false := hx
      refine (RecvSide.parse_cases cfg.parser 0 _).of_not_rejects ?_
      simpa [hw, hx, hb] using hg

theorem Coupled.event (h : w.Coupled) (hacc : Accounts false false w) (hawake : w.sendView.Awake)
    (hg : w.NoSplit l) (hr : w.Raises l e w₀) (he : w₀.onEvent e = some w') : w'.Coupled := by
  obtain ⟨hinside, hpacket, hsend⟩ := hg
  have h₀ := h.raises hr
  have hb : e.isSendResult = true → w₀.send.state.busy = true :=
    fun hres => ((hacc.sendView_raises hr).busy hacc.send hres).2
  cases hc : w₀.send.state.closing || e.fails with
  | true =>
    refine (closed_onEvent he hb hc (by rwa [← h₀.states]) ?_).1.coupled
    rcases Bool.or_eq_true_iff.mp hc with hs | hf
    · exact h₀.rest hs
    · exact restRejected_of_fails hacc hinside hr hf
  | false =>
    obtain ⟨hs, hf⟩ := Bool.or_eq_false_iff.mp hc
    have hrs := h₀.states.symm.trans hs
    obtain ⟨posted, s, hh, hrecv⟩ := onEvent_cases he
    have hs₁ : (w₀.afterSend e posted s).send.state.closing = false := by
      cases hh with
      | stay => exact hs
      | change ha => exact (SendState.closing_of_change ha).trans hc
      | beginSend ha => exact (SendState.closing_of_beginSend ha).1.trans hs
      | full ha hu hx =>
        rw [not_full hacc hawake hsend hr ha hu] at hx
        cases hx
    have hr₁ : (w₀.afterSend e posted s).recv.state.closing = false := hrs
    cases hrecv with
    | stay => exact (coupled_of_open hs₁ hr₁).releaseCheck
    | @change t ha =>
      have ht := RecvState.closing_of_change ha
      rw [hr₁, hf] at ht
      exact (coupled_of_open (w := (w₀.afterSend e posted s).changeRecvState t) hs₁ ht).releaseCheck
    | @beginRecv t ha =>
      have ht := (RecvState.closing_of_beginRecv ha).1
      exact (coupled_of_open (w := (w₀.afterSend e posted s).beginRecv.changeRecvState t)
        hs₁ ht).releaseCheck
    | @processPacket again o ha ho =>
      obtain ⟨rfl, hstate⟩ := RecvState.processPacket_cases ha
      refine coupled_runPacket (w := (w₀.afterSend .recvDone posted s).log _) hs₁ ?_ ?_
      · rw [ho.keeps.1]
        exact hr₁
      · refine packet_ok ?_ hr ?_ ho
        · cases hp : w.packetFails l with
          | false => rfl
          | true =>
            have hst : w₀.send.state = w.send.state := (hacc.sendView_raises hr).state
            rw [hst, hpacket hp] at hs
            cases hs
        · cases again
          · exact .inl hstate
          · exact .inr hstate

/-- The session returns from `OnRecv`. -/
theorem Coupled.onRecv (h : w.Coupled)
    (hg : w.packetFails .ret = true → w.send.state.closing = true) {pos u : Nat} {again : Bool}
    {fs : List Frame} (hst : w.stack = .onRecv pos u again :: fs) :
    ((World.mk w.send w.recv w.worker w.pipe w.released fs w.trace).runPacket again
      (w.recv.parse cfg.parser (pos + u))).Coupled := by
  have hparse := RecvSide.parse_cases cfg.parser (pos + u) w.recv
  have hfail : w.packetFails .ret =
      cfg.parser.rejects (w.recv.used.data.drop (pos + u)) := by
    simp [packetFails, hst]
  cases hs : w.send.state.closing with
  | true =>
    have hrest := h.rest hs
    simp only [restRejected, hst, List.all_cons, Bool.and_eq_true] at hrest
    rw [hparse.of_rejects hrest.1]
    refine Closed.coupled ?_
    exact Closed.releaseCheck ⟨hs, rfl, hrest.2⟩
  | false =>
    cases hrej : cfg.parser.rejects (w.recv.used.data.drop (pos + u)) with
    | true =>
      rw [hg (hfail.trans hrej)] at hs
      cases hs
    | false =>
      refine coupled_runPacket (w := { w with stack := fs }) hs ?_ (hparse.of_not_rejects hrej)
      rw [hparse.keeps.1]
      exact h.states.symm.trans hs

theorem Coupled.step (h : w.Coupled) (hacc : Accounts false false w) (hawake : w.sendView.Awake)
    (hg : w.NoSplit l) (hs : w.step l = some w') : w'.Coupled := by
  cases step_cases hs with
  | event hr he => exact h.event hacc hawake hg hr he
  | detached => exact h
  | onConnected hst =>
    exact ⟨h.states, fun hc => by simpa [restRejected, hst] using h.rest hc⟩
  | onRecv hst => exact h.onRecv hg.2.1 hst
  | onDisconnected hst =>
    exact ⟨h.states, fun hc => by simpa [restRejected, hst] using h.rest hc⟩
  | onError | take | runRecv | runSend | push => exact ⟨h.states, h.rest⟩

end World

/-- Between events both machines are closing or neither is, so a closed machine and no items
mean that the session was told and the connection released, as long as no failure
stays with one machine. -/
theorem closing_is_coupled {cfg : Config} {w : World cfg} (h : (system cfg).Run World.NoSplit w)
    (hb : w.stack = []) :
    (w.send.state ∈ [SendState.sendingWaitClose, .sendWaitClose, .sendClose] ↔
      w.recv.state ∈ [RecvState.recvWaitClose, .recvClose]) ∧
    (w.worker.items = [] → w.send.state = .sendClose ∨ w.recv.state = .recvClose →
      Obs.onDisconnected ∈ w.trace ∧ w.released = true) := by
  have hacc := Reachable.accounts h.reachable
  have hcoupled : w.Coupled := h.invariant_with (I := World.Coupled)
    (J := fun w => Accounts false false w ∧ w.sendView.Awake)
    (fun _ hr => ⟨Reachable.accounts hr.reachable, Reachable.awake hr.reachable⟩)
    ⟨rfl, fun hc => by cases hc⟩ (fun _ _ _ hg hj ih hs => ih.step hj.1 hj.2 hg hs)
  have hparted : w.Parted := h.invariant_with (I := World.Parted) (J := Accounts false false)
    (fun _ hr => Reachable.accounts hr.reachable) (fun hs => by cases hs)
    (fun _ _ _ _ hacc ih hs => ih.step hacc hs)
  refine ⟨?_, fun hi hclose => ?_⟩
  · rw [← SendState.closing_iff, ← RecvState.closing_iff, hcoupled.states]
  · have hsend : w.send.state.busy = false := by
      have := hacc.send
      simp only [World.sendItems, hi, List.filter_nil, List.length_nil] at this
      cases hs : w.send.state.busy with
      | false => rfl
      | true => rw [hs] at this; cases this
    have hrecv : w.recv.state.busy = false := by
      have := hacc.recv
      simp only [World.recvItems, World.inOnRecv, hi, hb, List.filter_nil, List.length_nil,
        List.any_nil, Bool.not_false, Bool.and_true] at this
      cases hr : w.recv.state.busy with
      | false => rfl
      | true => rw [hr] at this; cases this
    have hc : w.send.state.closing = true := by
      rcases hclose with hs | hr
      · rw [hs]
        rfl
      · rw [hcoupled.states, hr]
        rfl
    obtain ⟨ho, hor⟩ := hparted (SendState.close_of_not_busy hsend hc)
      (RecvState.close_of_not_busy hrecv (hcoupled.states.symm.trans hc))
    refine ⟨ho, hor.resolve_right ?_⟩
    rw [hb]
    simp

theorem closing_is_coupled_small : ∃ w : World .small, w.stack = [] ∧ w.worker.items = [] ∧
    w.send.state = .sendClose ∧ w.recv.state = .recvClose ∧
      Obs.onDisconnected ∈ w.trace ∧ w.released = true := by
  obtain ⟨w, h, hw⟩ := (system .small).run_of_exec (P := World.NoSplit)
    [.ret, .onIn, .take, .runRecv [.eof], .push, .process, .ret]
    (p := fun w => w.stack.isEmpty && w.worker.items.isEmpty && w.send.state == .sendClose &&
      w.recv.state == .recvClose) (by decide)
  simp only [Bool.and_eq_true, List.isEmpty_iff, beq_iff_eq] at hw
  obtain ⟨⟨⟨hst, hi⟩, hs⟩, hr⟩ := hw
  exact ⟨w, hst, hi, hs, hr, (closing_is_coupled h hst).2 hi (.inl hs)⟩

/-- A frame with a negative length closes one direction. The peer is not read any more, the
session is not told, and the connection stays. -/
theorem bad_frame_closes_one_direction : ∃ w : World .small, Reachable w ∧ w.stack = [] ∧
    w.worker.items = [] ∧ w.recv.state = .recvClose ∧ w.send.state = .sendNone ∧
      w.released = false ∧ Obs.onDisconnected ∉ w.trace := by
  obtain ⟨w, h, hw⟩ := (system .small).run_of_exec (P := fun _ _ => True)
    [.ret, .onIn, .take, .runRecv [.data 1 [0, 0, 0, 255, 255, 255, 255, 7]], .push, .process]
    (p := fun w => w.stack.isEmpty && w.worker.items.isEmpty && w.recv.state == .recvClose &&
      w.send.state == .sendNone && !w.released && w.trace.all (· != .onDisconnected))
    (by decide)
  simp only [Bool.and_eq_true, List.isEmpty_iff, beq_iff_eq, Bool.not_eq_true', List.all_eq_true,
    bne_iff_ne] at hw
  obtain ⟨⟨⟨⟨⟨hst, hi⟩, hr⟩, hs⟩, hrel⟩, hno⟩ := hw
  exact ⟨w, h, hst, hi, hr, hs, hrel, fun hm => hno _ hm rfl⟩

end HyperNet.Net
