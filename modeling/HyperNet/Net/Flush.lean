import HyperNet.Net.Release
import HyperNet.Net.SendStream

/-! # What a close flushes

The first event that closes finds the bytes of accepted contexts in the working
buffer, in the using buffer, or in neither, and the closing state that the send machine
goes to remembers which: `SendingWaitClose` has both buffers still to send,
`SendWaitClose` the working one, `SendClose` none. No closing state takes notice of
`NEVT_SEND`, so what `Send` accepts afterwards goes out only if `SendingWaitClose`
happens to find it. -/
namespace HyperNet.Net
open HyperNet.Public HyperNet.Core.History HyperNet.Core.Transition

/-! ## What the trace says -/

/-- `Send` refuses a context, `OnSend` returns something else than `WRET_DONE`, or a receive
error or a close of the peer is handled. -/
def Obs.disturbs : Obs → Bool
  | .send _ ok => !ok
  | .workerSend _ _ ret => ret != .done
  | .dispatch .recvError | .dispatch .recvClose => true
  | _ => false

/-- `OnEvent` hands the machines the event of `Close` or of an error of the socket. -/
def Obs.shuts : Obs → Bool
  | .dispatch e => e.shuts
  | _ => false

/-- The contexts that `Send` accepted before the connection began to close. -/
def acceptedOpen (tr : List Obs) : List UInt8 := accepted (tr.takeWhile fun o => !o.shuts)

theorem acceptedOpen_isPrefix (tr : List Obs) : acceptedOpen tr <+: accepted tr :=
  (List.takeWhile_prefix _).flatMap _

theorem acceptedOpen_mono (tr ts : List Obs) : acceptedOpen tr <+: acceptedOpen (tr ++ ts) :=
  (until_grows _ tr ts).flatMap _

theorem acceptedOpen_of_open {tr : List Obs} (h : tr.any Obs.shuts = false) :
    acceptedOpen tr = accepted tr := by
  rw [acceptedOpen, until_all h]

theorem acceptedOpen_of_shut {tr : List Obs} (h : tr.any Obs.shuts = true) (ts : List Obs) :
    acceptedOpen (tr ++ ts) = acceptedOpen tr := by
  rw [acceptedOpen, until_append h, acceptedOpen]

/-- An entry that is no accepted context. -/
theorem acceptedOpen_snoc (tr : List Obs) {o : Obs} (ho : o.accepted = []) :
    acceptedOpen (tr ++ [o]) = acceptedOpen tr := by
  cases hs : tr.any Obs.shuts with
  | true => exact acceptedOpen_of_shut hs _
  | false =>
    have hall := until_all hs
    rw [acceptedOpen, acceptedOpen, List.takeWhile_append, if_pos (by rw [hall]), hall,
      List.takeWhile_cons]
    split <;> simp [accepted, ho]

theorem acceptedOpen_filter (tr : List Obs) :
    acceptedOpen (tr.filter Obs.ofSend) = acceptedOpen tr := by
  have h : (tr.filter Obs.ofSend).takeWhile (fun o => !o.shuts) =
      (tr.takeWhile fun o => !o.shuts).filter Obs.ofSend := by
    rw [List.takeWhile_filter]
    congr 2
    funext o
    cases o <;> rfl
  rw [acceptedOpen, h, accepted_filter]
  rfl

theorem disturbs_filter (tr : List Obs) :
    (tr.filter Obs.ofSend).any Obs.disturbs = tr.any Obs.disturbs :=
  any_filter_of (fun o ho => by cases o <;> first | rfl | cases ho) tr

theorem wire_snoc (tr : List Obs) (o : Obs) : wire (tr ++ [o]) = wire tr ++ o.wire := by
  simp [wire]

/-! ## What each closing state has still to send -/

namespace SendView
variable {n : Nat} {v v' v₀ : SendView n} {e : NetEventType} {posted : Bool} {s : SendSide n}
  {next : Option NetEventType} {l : Label}

/-- While nothing is disturbed, the machine closes on a `Close` or an error only, and knows
where the bytes are that were accepted before. -/
structure Flushing (v : SendView n) : Prop where
  shut : v.trace.any Obs.shuts = v.side.state.closing
  pending : v.side.state ≠ .sendPending
  done : ∀ e, v.items = [.result e] → e = .sendDone
  last : v.side.state = .sendWaitClose →
    acceptedOpen v.trace <+: wire v.trace ++ v.side.worked.data
  closed : v.side.state = .sendClose → acceptedOpen v.trace <+: wire v.trace

/-- Within an event: what is known before the machine handles it. -/
structure Handing (e : NetEventType) (v v₀ : SendView n) : Prop where
  fails : e.fails = e.shuts
  pending : e ≠ .sendPending
  result : e.isSendResult = true → e = .sendDone
  exact : wire v₀.trace ++ v₀.side.worked.data ++ v₀.side.used.data = accepted v₀.trace
  shut : v₀.trace.any Obs.shuts = v₀.side.state.closing
  wire : wire v₀.trace = wire v.trace
  kept : v₀.side.state.closing = true → acceptedOpen v₀.trace = acceptedOpen v.trace

theorem sendFails_of_disturbs {tr : List Obs} (h : tr.any Obs.disturbs = false) :
    tr.any Obs.sendFails = false := by
  rw [List.any_eq_false] at h ⊢
  intro o ho hf
  refine h o ho ?_
  cases o with
  | workerSend offset bytes ret =>
    have hret : ret = .error := by simpa [Obs.sendFails] using hf
    subst hret
    rfl
  | _ => cases hf

theorem Flushing.raises (h : v.Flushing) (hexact : v.Exact) (hr : v.Raises next l e v₀)
    (hq : (v₀.trace ++ [Obs.dispatch e]).any Obs.disturbs = false) : Handing e v v₀ := by
  rw [List.any_append, Bool.or_eq_false_iff] at hq
  obtain ⟨hq, he⟩ := hq
  have hresult : e.isSendResult = true → e = .sendDone := by
    intro hres
    cases hr with
    | accept | reject => cases hres
    | result _ _ hi => exact h.done e hi
    | other hn => rw [hn] at hres; cases hres
  refine ⟨?_, ?_, hresult, hexact.raises hr (sendFails_of_disturbs hq), ?_, ?_, ?_⟩
  · cases e with
    | sendError => cases hresult rfl
    | recvError | recvClose => cases he
    | _ => rfl
  · rintro rfl
    cases hresult rfl
  · cases hr with
    | accept => simpa [Obs.shuts] using h.shut
    | reject => simpa [Obs.shuts] using h.shut
    | result => exact h.shut
    | other => exact h.shut
  · cases hr with
    | accept | reject => exact (wire_snoc _ _).trans (List.append_nil _)
    | result | other => rfl
  · intro hc
    rw [hr.state, ← h.shut] at hc
    cases hr with
    | accept | reject => exact acceptedOpen_of_shut hc _
    | result | other => rfl

/-- All that was accepted has been sent or is in the working buffer. -/
theorem Handing.flushes (h : Handing e v v₀) (hu : v₀.side.used.data = []) :
    acceptedOpen v₀.trace <+: Net.wire v₀.trace ++ v₀.side.worked.data := by
  have hexact := h.exact
  rw [hu, List.append_nil] at hexact
  rw [hexact]
  exact acceptedOpen_isPrefix _

theorem Flushing.last' (h : v.Flushing) (hh : Handing e v v₀) (hr : v.Raises next l e v₀)
    (hs : v₀.side.state = .sendWaitClose) :
    acceptedOpen v₀.trace <+: wire v₀.trace ++ v₀.side.worked.data := by
  rw [hh.kept (by rw [hs]; rfl), hh.wire, hr.worked]
  exact h.last (hr.state.symm.trans hs)

/-- Without a new request nothing moves but the state. -/
theorem Flushing.idle (h : v.Flushing) (hawake : v.Awake)
    (hc : v.items.length = v.side.state.busy.toNat) (hr : v.Raises next l e v₀)
    (hh : Handing e v v₀) {t : SendState}
    (ht : v₀.side.state.onEvent e = .stay ∧ t = v₀.side.state ∨
      v₀.side.state.onEvent e = .change t) :
    (v₀.handled e false { v₀.side with state := t }).Flushing := by
  have htrace : (v₀.handled e false { v₀.side with state := t }).trace =
      v₀.trace ++ [.dispatch e] := List.append_nil _
  have hbusy : e.isSendResult = true → v₀.side.state.busy = true := fun he => (hr.busy hc he).2
  have hdrained : v₀.side.state.drained = true → e ≠ .send → v₀.side.used.data = [] := by
    intro hd he
    rw [hr.used he]
    exact hawake.drained (by rwa [← hr.state])
  refine ⟨?_, ?_, ?_, ?_, ?_⟩
  · rw [htrace, List.any_append, hh.shut]
    change (v₀.side.state.closing || (e.shuts || false)) = t.closing
    rw [Bool.or_false, ← hh.fails]
    rcases ht with ⟨ha, rfl⟩ | ha
    · cases hf : e.fails with
      | false => exact Bool.or_false _
      | true => rw [SendState.closing_of_stay ha hf hbusy, Bool.true_or]
    · exact (SendState.closing_of_change ha).symm
  · rintro rfl
    rcases ht with ⟨_, hs⟩ | ha
    · exact h.pending (hr.state.symm.trans hs.symm)
    · exact hh.pending ((SendState.result_of_change ha).2 rfl)
  · intro e' hi
    exact h.done e' (hr.items_of_result hi)
  · rintro rfl
    rw [htrace, acceptedOpen_snoc _ rfl, wire_snoc]
    change acceptedOpen v₀.trace <+: wire v₀.trace ++ [] ++ v₀.side.worked.data
    rw [List.append_nil]
    rcases ht with ⟨_, hs⟩ | ha
    · exact h.last' hh hr hs.symm
    · have hs := SendState.sendWaitClose_source ha hh.fails
      refine hh.flushes (hdrained (by rw [hs]; rfl) ?_)
      rintro rfl
      rw [hs] at ha
      cases ha
  · rintro rfl
    rw [htrace, acceptedOpen_snoc _ rfl, wire_snoc]
    change acceptedOpen v₀.trace <+: wire v₀.trace ++ []
    rw [List.append_nil]
    rcases ht with ⟨_, hs⟩ | ha
    · rw [hh.kept (by rw [← hs]; rfl), hh.wire]
      exact h.closed (hr.state.symm.trans hs.symm)
    · rcases SendState.sendClose_source ha hh.fails hh.pending with hs | hs | ⟨hs, rfl⟩
      · have hflush := hh.flushes (hdrained (by rw [hs]; rfl) (by
          rintro rfl
          rw [hs] at ha
          cases ha))
        rwa [hr.worked, hawake.rest (hr.state.symm.trans hs), List.append_nil] at hflush
      · exact absurd (hr.state.symm.trans hs) h.pending
      · have hlast := h.last' hh hr hs
        rwa [hr.worked, hawake.done (hr.busy hc rfl).1, List.append_nil] at hlast

theorem Flushing.event (h : v.Flushing) (hexact : v.Exact) (hawake : v.Awake)
    (hc : v.items.length = v.side.state.busy.toNat) (hn : n < s32Bound)
    (hr : v.Raises next l e v₀) (hs : v₀.side.Handles e posted s)
    (hq : (v₀.trace ++ [Obs.dispatch e]).any Obs.disturbs = false) :
    (v₀.handled e posted s).Flushing := by
  have hh := h.raises hexact hr hq
  cases hs with
  | stay ha => exact h.idle hawake hc hr hh (.inl ⟨ha, rfl⟩)
  | change ha => exact h.idle hawake hc hr hh (.inr ha)
  | full ha hu hx =>
    rcases hawake.full_source hc hn hr ha hu hx with ⟨hs, _⟩ | ⟨_, he⟩
    · exact absurd hs h.pending
    · exact absurd he hh.pending
  | @beginSend t b ha hb =>
    obtain ⟨hclosing, hf⟩ := SendState.closing_of_beginSend ha
    have htarget := SendState.beginSend_target ha
    have htrace : (v₀.handled e true ⟨t, b, .empty⟩).trace =
        v₀.trace ++ [.dispatch e] ++ [.beginSend 0 b.offset] := rfl
    refine ⟨?_, ?_, nofun, ?_, ?_⟩
    · rw [htrace, List.any_append, List.any_append, hh.shut]
      change (v₀.side.state.closing || (e.shuts || false) || false) = t.closing
      rw [← hh.fails, hf, Bool.or_false, Bool.or_false, Bool.or_false, hclosing]
    · rintro rfl
      rcases htarget with ht | ht <;> cases ht
    · intro _
      rw [htrace, acceptedOpen_snoc _ rfl, acceptedOpen_snoc _ rfl, wire_snoc, wire_snoc]
      change acceptedOpen v₀.trace <+: wire v₀.trace ++ [] ++ [] ++ b.data
      rw [List.append_nil, List.append_nil, hb, ← List.append_assoc, hh.exact]
      exact acceptedOpen_isPrefix _
    · rintro rfl
      rcases htarget with ht | ht <;> cases ht

theorem Flushing.step (h : v.trace.any Obs.disturbs = false → v.Flushing) (hexact : v.Exact)
    (hawake : v.Awake) (hc : v.items.length = v.side.state.busy.toNat) (hn : n < s32Bound)
    (hs : v.Step next l v') (hq : v'.trace.any Obs.disturbs = false) : v'.Flushing := by
  cases hs with
  | quiet => exact h hq
  | @event _ e v₀ posted s hr hh _ =>
    have hq₀ := not_any_of_grows (List.prefix_append _ _) hq
    refine (h ?_).event hexact hawake hc hn hr hh hq₀
    rcases hr.trace with ht | ⟨context, ok, ht⟩
    · rw [← ht]
      exact not_any_of_grows (List.prefix_append _ _) hq₀
    · rw [ht] at hq₀
      exact not_any_of_grows (List.prefix_append _ _)
        (not_any_of_grows (List.prefix_append _ _) hq₀)
  | @run rs ret b out e hi ho he =>
    have hret : ret = .done := by
      have := hq
      simp only [List.any_append, List.any_cons, Obs.disturbs, List.any_nil, Bool.or_false,
        Bool.or_eq_false_iff, bne_eq_false_iff_eq] at this
      exact this.2
    have hv := h (not_any_of_grows (List.prefix_append _ _) hq)
    subst hret
    obtain ⟨_, hdata, _, hdone, _⟩ := onSend_spec ho
    cases he
    refine ⟨?_, hv.pending, ?_, ?_, ?_⟩
    · rw [List.any_append, hv.shut]
      exact Bool.or_false _
    · intro e' hi'
      cases hi'
      rfl
    · intro hs
      rw [acceptedOpen_snoc _ rfl, wire_snoc]
      change acceptedOpen v.trace <+: wire v.trace ++ out ++ b.data
      rw [List.append_assoc, ← hdata nofun]
      exact hv.last hs
    · intro hs
      rw [acceptedOpen_snoc _ rfl, wire_snoc]
      exact (hv.closed hs).trans (List.prefix_append _ _)

end SendView

/-! ## Up to OnClose -/

variable {cfg : Config} {w w' : World cfg} {l : Label}

theorem Reachable.exact (h : Reachable w) : w.sendView.Exact :=
  h.invariant_with (I := fun w => w.sendView.Exact) (J := Accounts false false)
    (fun _ hr => Reachable.accounts hr) (fun _ => rfl)
    (fun _ _ _ _ hacc ih hs => ih.step (hacc.sendView_step hs))

theorem flushing_init (cfg : Config) : (World.init cfg).sendView.Flushing where
  shut := rfl
  pending := nofun
  done := by simp [World.sendView, World.init, World.sendItems]
  last := nofun
  closed := nofun

theorem Reachable.flushing (h : Reachable w) (hq : w.trace.any Obs.disturbs = false) :
    w.sendView.Flushing := by
  have hinv := h.invariant_with
    (I := fun w => w.sendView.trace.any Obs.disturbs = false → w.sendView.Flushing)
    (J := Reachable) (fun _ hr => hr) (fun _ => flushing_init cfg)
    (fun _ _ _ _ hj ih hs => SendView.Flushing.step ih hj.exact hj.awake hj.accounts.send
      cfg.send_lt (hj.accounts.sendView_step hs))
  exact hinv ((disturbs_filter _).trans hq)

theorem not_onClose_of_parts (o : Obs) (h : (!o.parts) = true) : (!o.isOnClose) = true := by
  cases o <;> first | rfl | cases h

/-- A step makes its entries, and may then come to `OnClose`. -/
inductive World.Logs (w : World cfg) : World cfg → Prop
  | on {w' : World cfg} (h : Extends (fun o => !o.isOnClose) w.trace w'.trace) : Logs w w'
  | close {w' : World cfg} {tr : List Obs} {k : Nat}
      (h : Extends (fun o => !o.isOnClose) w.trace tr)
      (ht : w'.trace = tr ++ [.onClose k, .onDisconnected])
      (hs : w'.send.state = .sendClose) : Logs w w'

theorem World.Ends.logs {w₀ : World cfg} (h : w₀.Ends w')
    (ht : Extends (fun o => !o.parts) w.trace w₀.trace) : w.Logs w' := by
  cases h with
  | stay hf => exact .on ((ht.trans hf.trace).mono not_onClose_of_parts)
  | close hf hb => exact .close ((ht.trans hf.trace).mono not_onClose_of_parts) rfl hb.1
  | onRecv hf => exact .on ((ht.trans hf.trace).mono not_onClose_of_parts)

theorem Accounts.logs (h : Accounts false false w) (hs : w.step l = some w') : w.Logs w' := by
  cases World.step_cases hs with
  | @event _ e w₀ _ hr he =>
    refine (World.onEvent_ends he).logs ?_
    cases hr with
    | send | overflow | close => exact .append _ (by simp [Obs.parts])
    | onIn | onOut | onError | result => exact .refl
  | detached => exact .on .refl
  | onConnected => exact .on .refl
  | @onRecv pos u again fs hst =>
    obtain ⟨hkeep, _⟩ := (RecvSide.parse_cases cfg.parser (pos + u) w.recv).keeps
    have hbusy := (h.alone pos u again (by rw [hst]; exact List.mem_cons_self)).2
    refine (World.ends_runPacket (w := { w with stack := fs }) ⟨rfl, rfl, rfl, .refl⟩ again
      (by rw [hkeep]; exact hbusy)).logs .refl
  | onDisconnected => exact .on (.append _ (by simp [Obs.isOnClose]))
  | onError => exact .on (.append _ (by simp [Obs.isOnClose]))
  | take => exact .on .refl
  | runRecv => exact .on (.append _ (by simp [Obs.isOnClose]))
  | runSend => exact .on (.append _ (by simp [Obs.isOnClose]))
  | push => exact .on .refl

/-- Each `OnClose` of the run finds what was accepted in time on the wire. -/
def World.Flushed (w : World cfg) : Prop :=
  ∀ pre k post, w.trace = pre ++ .onClose k :: post → pre.any Obs.disturbs = false →
    acceptedOpen pre <+: wire pre

/-- An `OnClose` is the last one or an earlier one. -/
theorem close_split {tr pre post : List Obs} {j k : Nat}
    (h : tr ++ [.onClose j, .onDisconnected] = pre ++ .onClose k :: post) :
    pre = tr ∨ ∃ rest, tr = pre ++ .onClose k :: rest := by
  rcases List.append_eq_append_iff.mp h with ⟨mid, hpre, hmid⟩ | ⟨mid, htr, hmid⟩
  · match mid, hmid with
    | [], _ => exact .inl (hpre.trans (List.append_nil _))
    | [_], hmid => simp at hmid
    | _ :: _ :: _, hmid => simp at hmid
  · cases mid with
    | nil => exact .inl ((List.append_nil _).symm.trans htr.symm)
    | cons o mid =>
      obtain ⟨rfl, _⟩ := List.cons.inj hmid
      exact .inr ⟨mid, htr⟩

theorem World.Flushed.step (h : w.Flushed) (hr : Reachable w) (hs : w.step l = some w') :
    w'.Flushed := by
  intro pre k post ht hq
  cases hr.accounts.logs hs with
  | on hext =>
    obtain ⟨rest, hw⟩ := hext.split rfl ht
    exact h pre k rest hw hq
  | @close tr j hext ht' hstate =>
    rcases close_split (ht'.symm.trans ht) with rfl | ⟨rest, htr⟩
    · have hq' : w'.trace.any Obs.disturbs = false := by
        rw [ht', List.any_append, hq]
        rfl
      have hflush := (Reachable.flushing (hr.next trivial hs) hq').closed hstate
      rw [World.sendView, acceptedOpen_filter, wire_filter, ht', List.append_cons,
        acceptedOpen_snoc _ rfl, acceptedOpen_snoc _ rfl, wire_snoc, wire_snoc] at hflush
      simpa [Obs.wire] using hflush
    · obtain ⟨rest, hw⟩ := hext.split rfl htr
      exact h pre k rest hw hq

theorem Reachable.flushed (h : Reachable w) : w.Flushed := by
  refine h.invariant_with (I := World.Flushed) (J := Reachable) (fun _ hr => hr) ?_
    (fun _ _ _ _ hr ih hs => ih.step hr hs)
  intro pre k post ht
  match pre, ht with
  | [], ht => cases ht
  | [_], ht => simp [system, World.init] at ht
  | _ :: _ :: _, ht => simp [system, World.init] at ht

/-- The bytes that `Send` accepted before the connection began to close, by this `Close` and no
earlier one and no error of the socket, have been handed to the kernel, in order, when
`OnClose` runs. -/
theorem flush_on_close (h : Reachable w) {tr₁ tr₂ tr₃ : List Obs} {k : Nat}
    (ht : w.trace = tr₁ ++ .close :: tr₂ ++ .onClose k :: tr₃)
    (hq : ∀ o ∈ tr₁ ++ .close :: tr₂, o.disturbs = false)
    (hopen : ∀ o ∈ tr₁, o.shuts = false) :
    accepted tr₁ <+: wire (tr₁ ++ .close :: tr₂) := by
  have hflushed := h.flushed _ k tr₃ ht (List.any_eq_false.mpr fun o ho => by
    rw [hq o ho]
    nofun)
  have hany : tr₁.any Obs.shuts = false := List.any_eq_false.mpr fun o ho => by
    rw [hopen o ho]
    nofun
  rw [← acceptedOpen_of_open hany]
  exact (acceptedOpen_mono tr₁ _).trans hflushed

/-- A `Close` that finds bytes in both buffers. -/
theorem flush_on_close_small : ∃ w : World .small, ∃ tr₁ tr₂ tr₃ k,
    w.trace = tr₁ ++ .close :: tr₂ ++ .onClose k :: tr₃ ∧ accepted tr₁ = [1, 2, 3] ∧
      accepted tr₁ <+: wire (tr₁ ++ .close :: tr₂) := by
  let tr₁ : List Obs := [.onConnected, .send [1] true, .dispatch .send, .beginSend 0 1,
    .send [2, 3] true, .dispatch .send]
  let tr₂ : List Obs := [.dispatch .close, .workerSend 1 [1] .done, .dispatch .sendDone,
    .beginSend 0 2, .workerSend 2 [2, 3] .done, .dispatch .sendDone]
  obtain ⟨w, h, hw⟩ := (system .small).run_of_exec (P := fun _ _ => True)
    [.ret, .send [1], .send [2, 3], .close, .take, .runSend [.sent 1], .push, .process,
      .take, .runSend [.sent 2], .push, .process]
    (p := fun w => w.trace == tr₁ ++ .close :: tr₂ ++ .onClose 0 :: [.onDisconnected])
    (by decide)
  have ht := beq_iff_eq.mp hw
  exact ⟨w, tr₁, tr₂, _, 0, ht, rfl, flush_on_close h ht (by decide) (by decide)⟩

/-- What `Send` accepts in a closing state is lost, though `Close` is called again after it. -/
theorem lost_before_second_close : ∃ w : World .small, Reachable w ∧ ∃ tr₁ tr₂ tr₃ k,
    w.trace = tr₁ ++ .close :: tr₂ ++ .onClose k :: tr₃ ∧
    (∀ o ∈ tr₁ ++ .close :: tr₂, o.disturbs = false) ∧
      ¬ accepted tr₁ <+: wire (tr₁ ++ .close :: tr₂) := by
  let tr₁ : List Obs := [.onConnected, .send [1] true, .dispatch .send, .beginSend 0 1,
    .close, .dispatch .close, .send [2] true, .dispatch .send]
  let tr₂ : List Obs := [.dispatch .close, .workerSend 1 [1] .done, .dispatch .sendDone]
  obtain ⟨w, h, hw⟩ := (system .small).run_of_exec (P := fun _ _ => True)
    [.ret, .send [1], .close, .send [2], .close, .take, .runSend [.sent 1], .push, .process]
    (p := fun w => w.trace == tr₁ ++ .close :: tr₂ ++ .onClose 0 :: [.onDisconnected])
    (by decide)
  exact ⟨w, h, tr₁, tr₂, _, 0, beq_iff_eq.mp hw, by decide, by decide⟩

end HyperNet.Net
