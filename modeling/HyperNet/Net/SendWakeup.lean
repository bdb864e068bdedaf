import HyperNet.Net.SendView

/-! # Edges and requests of the send direction

`EPOLLOUT` is edge triggered: an edge that the machine forgets does not come
again. The states are named after what they remember, and two invariants say
that they remember it: `Awake` about rest and edges, `Loaded` about what a request
finds in the working buffer. -/
namespace HyperNet.Net
open HyperNet.Public HyperNet.Core.History HyperNet.Core.Transition

/-! ## Edges -/

/-- What an entry does to the edge that came last. -/
def Obs.ready (r : Bool) : Obs → Bool
  | .beginSend _ _ => false
  | .dispatch .sendReady => true
  | _ => r

/-- Whether `NEVT_SEND_READY` has been delivered since `BeginSend` last called the worker. -/
def readySince (tr : List Obs) : Bool := tr.foldl Obs.ready false

theorem readySince_snoc (tr : List Obs) (o : Obs) :
    readySince (tr ++ [o]) = o.ready (readySince tr) := by
  simp [readySince]

theorem readySince_filter (tr : List Obs) : readySince (tr.filter Obs.ofSend) = readySince tr := by
  unfold readySince
  rw [List.foldl_filter]
  congr 1
  funext r o
  cases o <;> rfl

namespace SendView
variable {n : Nat} {v v' v₀ : SendView n} {e : NetEventType} {posted : Bool} {s : SendSide n}
  {next : Option NetEventType} {l : Label}

/-- The machine rests only on empty buffers, or on an edge that is still to come. -/
structure Awake (v : SendView n) : Prop where
  rest : v.side.state = .sendNone → v.side.worked.data = []
  drained : v.side.state.drained = true → v.side.used.data = []
  pending : v.side.state = .sendPending → v.side.worked.data ≠ []
  unready : v.side.state.unready = true → readySince v.trace = false
  done : v.items = [.result .sendDone] → v.side.worked.data = []
  left : v.items = [.result .sendPending] → v.side.worked.data ≠ []

theorem Raises.worked (hr : v.Raises next l e v₀) : v₀.side.worked = v.side.worked := by
  cases hr <;> rfl

theorem Raises.used (hr : v.Raises next l e v₀) (he : e ≠ .send) : v₀.side.used = v.side.used := by
  cases hr with
  | accept => exact absurd rfl he
  | reject | result | other => rfl

theorem Raises.items_of_result (hr : v.Raises next l e v₀) {i : Item} (hi : v₀.items = [i]) :
    v.items = [i] := by
  cases hr with
  | accept | reject | other => exact hi
  | result => cases hi

theorem Raises.readySince (hr : v.Raises next l e v₀) :
    Net.readySince v₀.trace = Net.readySince v.trace := by
  cases hr with
  | accept => exact readySince_snoc _ _
  | reject => exact readySince_snoc _ _
  | result | other => rfl

/-- Without a new request nothing moves but the state. -/
theorem Awake.idle (h : v.Awake) (hc : v.items.length = v.side.state.busy.toNat)
    (hr : v.Raises next l e v₀) {t : SendState}
    (ht : v₀.side.state.onEvent e = .stay ∧ t = v₀.side.state ∨
      v₀.side.state.onEvent e = .change t ∨ t = .sendClose) :
    (v₀.handled e false { v₀.side with state := t }).Awake := by
  have hstate := hr.state
  have hready : t.unready = true → v.side.state.unready = true ∧ e ≠ .sendReady := by
    intro hu
    rw [← hstate]
    rcases ht with ⟨ha, rfl⟩ | ha | rfl
    · exact ⟨hu, SendState.unready_of_stay ha hu⟩
    · exact SendState.unready_of_change ha hu
    · cases hu
  have hdrained : t.drained = true → v.side.state.drained = true ∧ e ≠ .send := by
    intro hd
    rw [← hstate]
    rcases ht with ⟨ha, rfl⟩ | ha | rfl
    · exact ⟨hd, SendState.drained_of_stay ha hd⟩
    · exact SendState.drained_of_change ha hd
    · cases hd
  refine ⟨?_, ?_, ?_, ?_, ?_, ?_⟩
  · rintro rfl
    change v₀.side.worked.data = []
    rw [hr.worked]
    rcases ht with ⟨_, hs⟩ | ha | hs
    · exact h.rest (hstate.symm.trans hs.symm)
    · obtain rfl := (SendState.result_of_change ha).1 rfl
      exact h.done (hr.busy hc rfl).1
    · cases hs
  · intro hd
    obtain ⟨hv, he⟩ := hdrained hd
    change v₀.side.used.data = []
    rw [hr.used he]
    exact h.drained hv
  · rintro rfl
    change v₀.side.worked.data ≠ []
    rw [hr.worked]
    rcases ht with ⟨_, hs⟩ | ha | hs
    · exact h.pending (hstate.symm.trans hs.symm)
    · obtain rfl := (SendState.result_of_change ha).2 rfl
      exact h.left (hr.busy hc rfl).1
    · cases hs
  · intro hu
    obtain ⟨hv, he⟩ := hready hu
    have htrace : (v₀.handled e false { v₀.side with state := t }).trace =
        v₀.trace ++ [.dispatch e] := List.append_nil _
    rw [htrace, readySince_snoc, hr.readySince, h.unready hv]
    cases e <;> first | rfl | exact absurd rfl he
  · intro hi
    change v₀.side.worked.data = []
    rw [hr.worked]
    exact h.done (hr.items_of_result hi)
  · intro hi
    change v₀.side.worked.data ≠ []
    rw [hr.worked]
    exact h.left (hr.items_of_result hi)

theorem Awake.event (h : v.Awake) (hc : v.items.length = v.side.state.busy.toNat)
    (hr : v.Raises next l e v₀) (hh : v₀.side.Handles e posted s) :
    (v₀.handled e posted s).Awake := by
  cases hh with
  | stay ha => exact h.idle hc hr (.inl ⟨ha, rfl⟩)
  | change ha => exact h.idle hc hr (.inr (.inl ha))
  | full => exact h.idle hc hr (.inr (.inr rfl))
  | @beginSend t b ha hb =>
    have htarget := SendState.beginSend_target ha
    refine ⟨?_, fun _ => rfl, ?_, ?_, nofun, nofun⟩
    · rintro rfl
      rcases htarget with ht | ht <;> cases ht
    · rintro rfl
      rcases htarget with ht | ht <;> cases ht
    · intro _
      exact readySince_snoc _ _

/-- `BeginSend` overflows only on top of a send that was cut short. -/
theorem Awake.full_source (h : v.Awake) (hc : v.items.length = v.side.state.busy.toNat)
    (hn : n < s32Bound) (hr : v.Raises next l e v₀) {t : SendState}
    (ha : v₀.side.state.onEvent e = .beginSend t) (hu : v₀.side.used.data ≠ [])
    (hx : v₀.side.worked.exceeds v₀.side.used.offset = true) :
    v.side.state = .sendPending ∧ e = .sendReady ∨
      v.side.state = .sendingReadyWait ∧ e = .sendPending := by
  have hworked : v₀.side.worked.data ≠ [] := by
    intro hw
    have hlt := Buffer.exceeds_sound hn hx
    have hle := v₀.side.used.le_size
    rw [Buffer.offset_eq_zero.mpr hw, Buffer.offset] at hlt
    omega
  rw [hr.worked] at hworked
  rw [hr.state] at ha
  rcases SendState.beginSend_worked ha with hs | rfl | ⟨hs, he⟩ | hp | hp
  · exact absurd (h.rest hs) hworked
  · exact absurd (h.done (hr.busy hc rfl).1) hworked
  · rw [hr.used he] at hu
    exact absurd (h.drained (by rw [hs]; rfl)) hu
  · exact .inl hp
  · exact .inr hp

theorem Awake.step (h : v.Awake) (hc : v.items.length = v.side.state.busy.toNat)
    (hs : v.Step next l v') : v'.Awake := by
  cases hs with
  | quiet => exact h
  | event hr hh _ => exact h.event hc hr hh
  | @run rs ret b out e hi ho he =>
    obtain ⟨_, _, _, hdone, hpending⟩ := onSend_spec ho
    have hbusy : v.side.state.busy = true := Bool.toNat_eq_one.mp (by rw [← hc, hi]; rfl)
    refine ⟨?_, h.drained, ?_, ?_, ?_, ?_⟩
    · intro hn
      have hn : v.side.state = .sendNone := hn
      rw [hn] at hbusy
      cases hbusy
    · intro hn
      have hn : v.side.state = .sendPending := hn
      rw [hn] at hbusy
      cases hbusy
    · intro hu
      exact (readySince_snoc _ _).trans (h.unready hu)
    · intro hr
      refine hdone ?_
      cases ret <;> cases he <;> first | rfl | cases hr
    · intro hr
      refine hpending ?_
      cases ret <;> cases he <;> first | rfl | cases hr

end SendView

theorem awake_init (cfg : Config) : (World.init cfg).sendView.Awake where
  rest _ := rfl
  drained _ := rfl
  pending hp := by cases hp
  unready _ := rfl
  done hi := by simp [World.sendView, World.init, World.sendItems] at hi
  left hi := by simp [World.sendView, World.init, World.sendItems] at hi

theorem Reachable.awake {cfg : Config} {w : World cfg} (h : Reachable w) : w.sendView.Awake :=
  h.invariant_with (I := fun w => w.sendView.Awake) (J := Accounts false false)
    (fun _ hr => Reachable.accounts hr)
    (awake_init cfg) (fun _ _ _ _ hacc ih hs => ih.step hacc.send (hacc.sendView_step hs))

/-- No edge is lost. The machine rests on empty buffers in `SendNone`; in `SendPending` it
rests on an edge that has not come since the request that asked for it; and while the
connection is not closing, accepted bytes have a request or such an edge. -/
theorem no_lost_send_wakeup {cfg : Config} {w : World cfg} (h : Reachable w) :
    (w.send.state = .sendNone → w.send.worked.data = [] ∧ w.send.used.data = []) ∧
    (w.send.state = .sending ∨ w.send.state = .sendingReady → w.send.used.data = []) ∧
    (w.send.state = .sendPending → w.send.worked.data ≠ [] ∧ readySince w.trace = false) ∧
    (w.send.state.closing = false → w.send.worked.data ++ w.send.used.data ≠ [] →
      w.sendItems ≠ [] ∨ w.send.state = .sendPending) := by
  have hawake := h.awake
  have hrest : w.send.state = .sendNone → w.send.worked.data = [] ∧ w.send.used.data = [] := by
    intro hn
    have hdrained : w.send.state.drained = true := by rw [hn]; rfl
    exact ⟨hawake.rest hn, hawake.drained hdrained⟩
  refine ⟨hrest, ?_, ?_, ?_⟩
  · rintro (hs | hs)
    · exact hawake.drained (by rw [World.sendView, hs]; rfl)
    · exact hawake.drained (by rw [World.sendView, hs]; rfl)
  · intro hp
    have hunready : w.send.state.unready = true := by rw [hp]; rfl
    exact ⟨hawake.pending hp, (readySince_filter _).symm.trans (hawake.unready hunready)⟩
  · intro hc hdata
    cases hb : w.send.state.busy with
    | true =>
      refine .inl fun hn => ?_
      have := h.accounts.send
      rw [hn, hb] at this
      cases this
    | false =>
      rcases SendState.rest_of_not_busy hb hc with hn | hp
      · obtain ⟨hworked, hused⟩ := hrest hn
        rw [hworked, hused] at hdata
        exact absurd rfl hdata
      · exact .inr hp

theorem no_lost_send_wakeup_small : ∃ w : World .small, w.send.state = .sendPending ∧
    w.send.worked.data ≠ [] ∧ readySince w.trace = false := by
  obtain ⟨w, h, hw⟩ := (system .small).run_of_exec (P := fun _ _ => True)
    [.ret, .onOut, .send [1, 2], .onOut, .take, .runSend [.sent 1, .eagain], .push, .process, .take,
      .runSend [.eagain], .push, .process]
    (p := fun w => w.send.state == .sendPending) (by decide)
  have hp := beq_iff_eq.mp hw
  exact ⟨w, hp, (no_lost_send_wakeup h).2.2.1 hp⟩

/-! ## What a request finds -/

/-- `BeginSend` and `OnSend` find bytes in the working buffer. -/
def Obs.Loaded : Obs → Prop
  | .beginSend _ offset => 0 < offset
  | .workerSend offset _ _ => 0 < offset
  | _ => True

namespace SendView
variable {n : Nat} {v v' v₀ : SendView n} {e : NetEventType} {posted : Bool} {s : SendSide n}
  {next : Option NetEventType} {l : Label}

/-- The machine owes the using buffer a send only if there is something in it. -/
structure Loaded (v : SendView n) : Prop where
  waiting : v.side.state.waiting = true → v.side.used.data ≠ []
  request : v.items = [.request .send] → v.side.worked.data ≠ []
  clean : ∀ o ∈ v.trace, o.Loaded

theorem Raises.used_ne_nil (hr : v.Raises next l e v₀)
    (hl : ∀ context, l = .send context → context ≠ [])
    (hu : v.side.used.data ≠ [] ∨ e = .send) : v₀.side.used.data ≠ [] := by
  cases hr with
  | @accept context b hb =>
    rw [hb]
    exact List.append_ne_nil_of_right_ne_nil _ (hl context rfl)
  | reject => exact hu.resolve_right nofun
  | result he => exact hu.resolve_right (by rintro rfl; cases he)
  | other _ hs => exact hu.resolve_right hs

theorem Raises.loaded (hr : v.Raises next l e v₀) (h : v.Loaded) : ∀ o ∈ v₀.trace, o.Loaded := by
  cases hr with
  | accept => exact forall_snoc h.clean trivial
  | reject => exact forall_snoc h.clean trivial
  | result | other => exact h.clean

theorem Loaded.event (h : v.Loaded) (hawake : v.Awake)
    (hc : v.items.length = v.side.state.busy.toNat) (hr : v.Raises next l e v₀)
    (hh : v₀.side.Handles e posted s) (hl : ∀ context, l = .send context → context ≠ [])
    (hg : l = .process → next = some .sendDone → v.side.state = .sendingWaitClose →
      v.side.used.data ≠ []) : (v₀.handled e posted s).Loaded := by
  have hstate := hr.state
  have hreq : v₀.items = [.request .send] → v₀.side.worked.data ≠ [] := by
    intro hi
    rw [hr.worked]
    exact h.request (hr.items_of_result hi)
  have hlog : ∀ o ∈ v₀.trace ++ [.dispatch e], o.Loaded := forall_snoc (hr.loaded h) trivial
  have hquiet : ∀ o ∈ v₀.trace ++ [.dispatch e] ++ [], o.Loaded := by
    rw [List.append_nil]
    exact hlog
  cases hh with
  | stay ha =>
    refine ⟨fun hw => hr.used_ne_nil hl (.inl (h.waiting ?_)), hreq, hquiet⟩
    rw [← hstate]
    exact hw
  | @change t ha =>
    refine ⟨fun hw => hr.used_ne_nil hl ?_, hreq, hquiet⟩
    rcases SendState.waiting_of_change ha hw with hv | he
    · exact .inl (h.waiting (by rw [← hstate]; exact hv))
    · exact .inr he
  | full => exact ⟨nofun, hreq, hquiet⟩
  | @beginSend t b ha hb =>
    have hne : b.data ≠ [] := by
      rw [hb]
      rcases SendState.beginSend_source ha with he | hs | he | hw | ⟨hs, he⟩
      · exact List.append_ne_nil_of_right_ne_nil _ (hr.used_ne_nil hl (.inr he))
      · refine List.append_ne_nil_of_left_ne_nil ?_ _
        rw [hr.worked]
        exact hawake.pending (hstate.symm.trans hs)
      · subst he
        refine List.append_ne_nil_of_left_ne_nil ?_ _
        rw [hr.worked]
        exact hawake.left (hr.busy hc rfl).1
      · refine List.append_ne_nil_of_right_ne_nil _ (hr.used_ne_nil hl (.inl (h.waiting ?_)))
        rw [← hstate]
        exact hw
      · subst he
        refine List.append_ne_nil_of_right_ne_nil _ ?_
        rw [hr.used nofun]
        cases hr with
        | result _ hnext _ => exact hg rfl hnext hs
        | other he => cases he
    refine ⟨?_, fun _ => hne, forall_snoc hlog (Buffer.offset_pos.mpr hne)⟩
    intro hw
    rcases SendState.beginSend_target ha with rfl | rfl <;> cases hw

theorem Loaded.step (h : v.Loaded) (hawake : v.Awake)
    (hc : v.items.length = v.side.state.busy.toNat)
    (hl : ∀ context, l = .send context → context ≠ [])
    (hg : l = .process → next = some .sendDone → v.side.state = .sendingWaitClose →
      v.side.used.data ≠ []) (hs : v.Step next l v') : v'.Loaded := by
  cases hs with
  | quiet => exact h
  | event hr hh _ => exact h.event hawake hc hr hh hl hg
  | run hi ho he =>
    exact ⟨h.waiting, nofun, forall_snoc h.clean (Buffer.offset_pos.mpr (h.request hi))⟩

end SendView

/-- The step sends nothing empty: no `Send` of no bytes, and no `NEVT_SEND_DONE` handled in
`SendingWaitClose` on an empty using buffer. -/
def World.NoEmptyFlush {cfg : Config} (w : World cfg) (l : Label) : Prop :=
  (∀ context, l = .send context → context ≠ []) ∧
  (l = .process → w.nextResult = some .sendDone → w.send.state = .sendingWaitClose →
    w.send.used.data ≠ [])

instance (l : Label) : Decidable (∀ context, l = .send context → context ≠ []) :=
  match l with
  | .send context => decidable_of_iff (context ≠ []) ⟨fun h _ he => (Label.send.inj he) ▸ h,
      fun h => h context rfl⟩
  | .close | .ret | .onIn | .onOut | .onError _ | .process | .take | .runRecv _
  | .runSend _ | .push => isTrue (by simp)

instance {cfg : Config} (w : World cfg) (l : Label) : Decidable (w.NoEmptyFlush l) :=
  inferInstanceAs (Decidable (_ ∧ (_ → _ → _ → _)))

theorem loaded_init (cfg : Config) : (World.init cfg).sendView.Loaded where
  waiting hw := by cases hw
  request hi := by simp [World.sendView, World.init, World.sendItems] at hi
  clean := by simp [World.sendView, World.init, Obs.ofSend]

theorem loaded_of_run {cfg : Config} {w : World cfg}
    (h : (system cfg).Run World.NoEmptyFlush w) : w.sendView.Loaded :=
  h.invariant_with (I := fun w => w.sendView.Loaded)
    (J := fun w => Accounts false false w ∧ w.sendView.Awake)
    (fun _ hr => ⟨Reachable.accounts hr.reachable, Reachable.awake hr.reachable⟩)
    (loaded_init cfg)
    (fun _ _ _ hg hj ih hs =>
      ih.step hj.2 hj.1.send hg.1 hg.2 (hj.1.sendView_step hs))

namespace World
variable {cfg : Config} {w : World cfg}

/-- The worker comes to `OnSend` with an empty buffer: the assertion there ends the process. -/
def Aborts (w : World cfg) : Prop :=
  w.worker.executing = some (.request .send) ∧ w.send.worked.data = []

instance (w : World cfg) : Decidable w.Aborts := inferInstanceAs (Decidable (_ ∧ _))

theorem Aborts.step (h : w.Aborts) (rs : List SendRes) : w.step (.runSend rs) = none := by
  have hsend : Net.onSend w.send.worked rs = none := if_pos (Buffer.offset_eq_zero.mpr h.2)
  simp only [World.step, h.1, hsend, Option.bind_none]

theorem Aborts.sendItems (h : w.Aborts) (hr : Reachable w) : w.sendItems = [.request .send] :=
  (finish_items (e := .sendDone) h.1 rfl rfl hr.accounts.sendItems_le).1

/-- The machine waits for what the worker does not come back from. -/
theorem Aborts.busy (h : w.Aborts) (hr : Reachable w) : w.send.state.busy = true := by
  have hlength := hr.accounts.send
  rw [h.sendItems hr] at hlength
  exact Bool.toNat_eq_one.mp hlength.symm

/-- Where requests have something to send, so has `OnSend`. -/
theorem not_aborts (hr : Reachable w) (h : w.sendView.Loaded) : ¬ w.Aborts :=
  fun ha => h.request (ha.sendItems hr) ha.2

end World

/-- As long as nothing empty is flushed, `BeginSend` never asks the worker to send an empty
buffer, and the assertion of `OnSend` holds. -/
theorem no_empty_send {cfg : Config} {w : World cfg} (h : (system cfg).Run World.NoEmptyFlush w) :
    (∀ o ∈ w.trace, o.Loaded) ∧ ¬ w.Aborts := by
  have hloaded := loaded_of_run h
  refine ⟨fun o ho => ?_, World.not_aborts h.reachable hloaded⟩
  cases hb : o.ofSend with
  | true => exact hloaded.clean o (List.mem_filter.mpr ⟨ho, hb⟩)
  | false => cases o <;> trivial

theorem no_empty_send_small : ∃ w : World .small, Obs.workerSend 2 [1, 2] .done ∈ w.trace ∧
    (∀ o ∈ w.trace, o.Loaded) ∧ ¬ w.Aborts := by
  obtain ⟨w, h, hw⟩ := (system .small).run_of_exec (P := World.NoEmptyFlush)
    [.ret, .send [1, 2], .onOut, .take, .runSend [.sent 1, .sent 1], .push, .process, .close]
    (p := fun w => w.trace.any (· == .workerSend 2 [1, 2] .done)) (by decide)
  obtain ⟨o, ho, he⟩ := List.any_eq_true.mp hw
  exact ⟨w, beq_iff_eq.mp he ▸ ho, no_empty_send h⟩

/-- An edge, a close and a completed send: `SendingWaitClose` asks for an empty one. -/
theorem empty_send_after_close : ∃ w : World .small, Reachable w ∧
    Obs.beginSend 0 0 ∈ w.trace ∧ w.Aborts := by
  obtain ⟨w, h, hw⟩ := (system .small).run_of_exec (P := fun _ _ => True)
    [.ret, .send [1], .onOut, .close, .take, .runSend [.sent 1], .push, .process, .take]
    (p := fun w => w.trace.any (· == .beginSend 0 0) && decide w.Aborts) (by decide)
  simp only [Bool.and_eq_true, List.any_eq_true, beq_iff_eq, exists_eq_right,
    decide_eq_true_eq] at hw
  exact ⟨w, h, hw⟩

end HyperNet.Net
