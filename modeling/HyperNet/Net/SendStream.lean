import HyperNet.Net.SendView

/-! # The stream of sent bytes

What `OnSend` has handed to the kernel, the working buffer and the using buffer
hold the contexts that `Send` accepted, in order. A refused context leaves a gap,
and whether later bytes can follow it on the wire depends on the state the
refusal meets: `SendingWaitClose` still flushes the using buffer, to which `Send`
has gone on adding. -/
namespace HyperNet.Net
open HyperNet.Public HyperNet.Core.History HyperNet.Core.Transition

/-! ## What the trace says of the stream -/

/-- The bytes an entry puts on the wire. -/
def Obs.wire : Obs → List UInt8
  | .workerSend _ bytes _ => bytes
  | _ => []

/-- The bytes that `Send` takes. -/
def Obs.accepted : Obs → List UInt8
  | .send context true => context
  | _ => []

/-- The bytes that `Send` is given. -/
def Obs.context : Obs → List UInt8
  | .send context _ => context
  | _ => []

/-- `Send` refuses a context. -/
def Obs.refuses : Obs → Bool
  | .send _ ok => !ok
  | _ => false

/-- `OnSend` returns `WRET_ERROR`. -/
def Obs.sendFails : Obs → Bool
  | .workerSend _ _ ret => ret == .error
  | _ => false

/-- The bytes handed to the kernel. -/
def wire (tr : List Obs) : List UInt8 := tr.flatMap Obs.wire

/-- The contexts that `Send` accepted. -/
def accepted (tr : List Obs) : List UInt8 := tr.flatMap Obs.accepted

/-- All contexts. -/
def contexts (tr : List Obs) : List UInt8 := tr.flatMap Obs.context

/-- The contexts of the calls before the first refusal. -/
def contextsBefore (tr : List Obs) : List UInt8 :=
  contexts (tr.takeWhile fun o => !o.refuses)

/-- The contexts accepted after the first refusal. -/
def acceptedAfter (tr : List Obs) : List UInt8 :=
  accepted (tr.dropWhile fun o => !o.refuses)

theorem accepted_eq_before_after (tr : List Obs) :
    accepted tr = contextsBefore tr ++ acceptedAfter tr := by
  induction tr with
  | nil => rfl
  | cons o tr ih =>
    cases hr : o.refuses with
    | true => simp [contextsBefore, acceptedAfter, contexts, hr]
    | false =>
      have ho : o.context = o.accepted := by
        cases o with
        | send c ok =>
          cases ok with
          | true => rfl
          | false => cases hr
        | _ => rfl
      simp only [contextsBefore, acceptedAfter, contexts, accepted] at ih ⊢
      simp [hr, ho, ih]

theorem contextsBefore_isPrefix (tr : List Obs) : contextsBefore tr <+: contexts tr :=
  (List.takeWhile_prefix _).flatMap _

theorem contextsBefore_mono (tr ts : List Obs) :
    contextsBefore tr <+: contextsBefore (tr ++ ts) :=
  (until_grows _ tr ts).flatMap _

theorem acceptedAfter_eq_nil {tr : List Obs} (h : tr.any Obs.refuses = false) :
    acceptedAfter tr = [] := by
  rw [acceptedAfter, since_nil h]
  rfl

/-- Before a refusal nothing counts, and after it everything does. -/
theorem acceptedAfter_snoc (tr : List Obs) (o : Obs) :
    acceptedAfter (tr ++ [o]) =
      acceptedAfter tr ++ if tr.any Obs.refuses then o.accepted else [] := by
  unfold acceptedAfter
  cases hr : tr.any Obs.refuses with
  | true => simp [since_append hr, accepted]
  | false =>
    rw [since_fresh hr, since_nil hr]
    cases o with
    | send c ok => cases ok <;> simp [Obs.refuses, accepted, Obs.accepted]
    | _ => simp [Obs.refuses, accepted]

/-! ## The filtered trace -/

theorem wire_filter (tr : List Obs) : wire (tr.filter Obs.ofSend) = wire tr :=
  flatMap_filter_of (fun o ho => by cases o <;> first | rfl | cases ho) tr

theorem accepted_filter (tr : List Obs) : accepted (tr.filter Obs.ofSend) = accepted tr :=
  flatMap_filter_of (fun o ho => by cases o <;> first | rfl | cases ho) tr

theorem sendFails_filter (tr : List Obs) :
    (tr.filter Obs.ofSend).any Obs.sendFails = tr.any Obs.sendFails :=
  any_filter_of (fun o ho => by cases o <;> first | rfl | cases ho) tr

theorem dropWhile_refuses_filter (tr : List Obs) :
    (tr.filter Obs.ofSend).dropWhile (fun o => !o.refuses) =
      (tr.dropWhile fun o => !o.refuses).filter Obs.ofSend := by
  rw [List.dropWhile_filter]
  congr 2
  funext o
  cases o <;> rfl

theorem takeWhile_refuses_filter (tr : List Obs) :
    (tr.filter Obs.ofSend).takeWhile (fun o => !o.refuses) =
      (tr.takeWhile fun o => !o.refuses).filter Obs.ofSend := by
  rw [List.takeWhile_filter]
  congr 2
  funext o
  cases o <;> rfl

theorem acceptedAfter_filter (tr : List Obs) :
    acceptedAfter (tr.filter Obs.ofSend) = acceptedAfter tr := by
  rw [acceptedAfter, dropWhile_refuses_filter]
  exact accepted_filter _

theorem contextsBefore_filter (tr : List Obs) :
    contextsBefore (tr.filter Obs.ofSend) = contextsBefore tr := by
  rw [contextsBefore, takeWhile_refuses_filter]
  exact flatMap_filter_of (fun o ho => by cases o <;> first | rfl | cases ho) _

/-! ## Exactness -/

namespace SendView
variable {n : Nat} {v v' v₀ : SendView n} {e : NetEventType} {posted : Bool} {s : SendSide n}
  {next : Option NetEventType} {l : Label}

/-- Until `OnSend` fails, the wire and the two buffers hold the accepted bytes. -/
def Exact (v : SendView n) : Prop :=
  v.trace.any Obs.sendFails = false →
    wire v.trace ++ v.side.worked.data ++ v.side.used.data = accepted v.trace

theorem Exact.raises (h : v.Exact) (hr : v.Raises next l e v₀) : v₀.Exact := by
  cases hr with
  | @accept context b hb =>
    intro hf
    have := h (by simpa [Obs.sendFails] using hf)
    simp [wire, accepted, Obs.wire, Obs.accepted, hb] at this ⊢
    rw [← this]
    simp
  | reject =>
    intro hf
    have := h (by simpa [Obs.sendFails] using hf)
    simpa [wire, accepted, Obs.wire, Obs.accepted] using this
  | result => exact h
  | other => exact h

theorem Exact.handled (h : v.Exact) (hh : v.side.Handles e posted s) :
    (v.handled e posted s).Exact := by
  intro hf
  have hv := h (by simp [SendView.handled] at hf; simpa using hf.1)
  cases hh with
  | stay | change | full =>
    simpa [SendView.handled, wire, accepted, Obs.wire, Obs.accepted] using hv
  | beginSend ha hb =>
    simpa [SendView.handled, wire, accepted, Obs.wire, Obs.accepted, hb] using hv

theorem Exact.step (h : v.Exact) (hs : v.Step next l v') : v'.Exact := by
  cases hs with
  | quiet => exact h
  | event hr hh _ => exact (h.raises hr).handled hh
  | @run rs ret b out e hi ho he =>
    intro hf
    simp only [List.any_append, List.any_cons, Obs.sendFails, List.any_nil, Bool.or_false,
      Bool.or_eq_false_iff, beq_eq_false_iff_ne] at hf
    have hv := h hf.1
    obtain ⟨_, hdata, _⟩ := onSend_spec ho
    rw [hdata hf.2] at hv
    simpa [wire, accepted, Obs.wire, Obs.accepted] using hv

end SendView

/-- Until `OnSend` fails, the bytes handed to the kernel and those in the two buffers are
those of the contexts that `Send` accepted, in order. -/
theorem send_stream_exact {cfg : Config} {w : World cfg} (h : Reachable w)
    (hok : ∀ offset bytes, Obs.workerSend offset bytes .error ∉ w.trace) :
    wire w.trace ++ w.send.worked.data ++ w.send.used.data = accepted w.trace := by
  have hexact : w.sendView.Exact := h.invariant_with
    (I := fun w => w.sendView.Exact) (J := Accounts false false)
    (fun _ hr => Reachable.accounts hr) (fun _ => rfl)
    (fun _ _ _ _ hacc ih hs => ih.step (hacc.sendView_step hs))
  have hf : w.trace.any Obs.sendFails = false := by
    rw [List.any_eq_false]
    intro o ho hfail
    cases o with
    | workerSend offset bytes ret =>
      have : ret = .error := by simpa [Obs.sendFails] using hfail
      exact hok offset bytes (this ▸ ho)
    | _ => cases hfail
  have := hexact (by rw [World.sendView, sendFails_filter]; exact hf)
  rwa [World.sendView, wire_filter, accepted_filter] at this

theorem send_stream_exact_small : ∃ w : World .small,
    wire w.trace = [1, 2] ∧ w.send.worked.data = [3] ∧ w.send.used.data = [4] ∧
      wire w.trace ++ w.send.worked.data ++ w.send.used.data = accepted w.trace := by
  obtain ⟨w, h, hw⟩ := (system .small).run_of_exec (P := fun _ _ => True)
    [.ret, .send [1, 2, 3], .send [4], .take, .runSend [.sent 2, .eagain]]
    (p := fun w => w.trace.all (fun o => !o.sendFails) && wire w.trace == [1, 2] &&
      w.send.worked.data == [3] && w.send.used.data == [4]) (by decide)
  simp only [Bool.and_eq_true, beq_iff_eq, List.all_eq_true] at hw
  obtain ⟨⟨⟨hok, hwire⟩, hworked⟩, hused⟩ := hw
  exact ⟨w, hwire, hworked, hused,
    send_stream_exact h fun _ _ hm => absurd (hok _ hm) (by simp [Obs.sendFails])⟩

/-! ## After a refusal -/

namespace SendView
variable {n : Nat} {v v' v₀ : SendView n} {e : NetEventType} {posted : Bool} {s : SendSide n}
  {next : Option NetEventType} {l : Label}

/-- What a refusal leaves: the machine closes, what `Send` takes from then on stays at the
end of the using buffer, and a failed `OnSend` is the last one. -/
structure Refused (v : SendView n) : Prop where
  closing : v.trace.any Obs.refuses = true → v.side.state.closing = true
  late : acceptedAfter v.trace <:+ v.side.used.data
  sound : wire v.trace <+: contextsBefore v.trace
  failed : v.trace.any Obs.sendFails = true →
    v.items = [.result .sendError] ∨ v.items = [] ∧ v.side.state = .sendClose

/-- An event adds nothing to the wire and takes nothing from the contexts. -/
theorem Raises.trace (hr : v.Raises next l e v₀) :
    v₀.trace = v.trace ∨ ∃ context ok, v₀.trace = v.trace ++ [.send context ok] := by
  cases hr with
  | accept => exact .inr ⟨_, _, rfl⟩
  | reject => exact .inr ⟨_, _, rfl⟩
  | result => exact .inl rfl
  | other => exact .inl rfl

theorem wire_handled (posted : Bool) (s : SendSide n) (hr : v.Raises next l e v₀) :
    wire (v₀.handled e posted s).trace = wire v.trace ∧
      contextsBefore v.trace <+: contextsBefore (v₀.handled e posted s).trace ∧
      (v₀.handled e posted s).trace.any Obs.sendFails = v.trace.any Obs.sendFails := by
  have htail : ∃ ts, (v₀.handled e posted s).trace = v.trace ++ ts ∧ wire ts = [] ∧
      ts.any Obs.sendFails = false := by
    rcases hr.trace with ht | ⟨c, ok, ht⟩
    · refine ⟨_, by rw [SendView.handled, ht, List.append_assoc], ?_⟩
      cases posted <;> exact ⟨rfl, rfl⟩
    · refine ⟨_, by rw [SendView.handled, ht, List.append_assoc, List.append_assoc], ?_⟩
      cases posted <;> exact ⟨rfl, rfl⟩
  obtain ⟨ts, ht, hw, hf⟩ := htail
  rw [ht]
  refine ⟨?_, contextsBefore_mono _ _, by rw [List.any_append, hf, Bool.or_false]⟩
  rw [wire, List.flatMap_append]
  exact (congrArg _ hw).trans (List.append_nil _)

/-- Within an event: the machine has not yet handled the refusal. -/
theorem Refused.raises_late (h : v.Refused) (hr : v.Raises next l e v₀) :
    acceptedAfter v₀.trace <:+ v₀.side.used.data := by
  cases hr with
  | @accept context b hb =>
    simp only [acceptedAfter_snoc, hb, Obs.accepted]
    cases href : v.trace.any Obs.refuses with
    | true =>
      obtain ⟨u, hu⟩ := h.late
      exact ⟨u, by rw [if_pos rfl, ← List.append_assoc, hu]⟩
    | false => simp [acceptedAfter_eq_nil href]
  | reject hx => simpa [acceptedAfter_snoc, Obs.accepted] using h.late
  | result => exact h.late
  | other => exact h.late

theorem acceptedAfter_handled (e : NetEventType) (posted : Bool) (s : SendSide n)
    (v : SendView n) : acceptedAfter (v.handled e posted s).trace = acceptedAfter v.trace := by
  cases posted with
  | false => simp [SendView.handled, acceptedAfter_snoc, Obs.accepted]
  | true =>
    simp only [SendView.handled, if_true, acceptedAfter_snoc, Obs.accepted, ite_self,
      List.append_nil]

theorem refuses_handled (e : NetEventType) (posted : Bool) (s : SendSide n) (v : SendView n) :
    (v.handled e posted s).trace.any Obs.refuses = v.trace.any Obs.refuses := by
  cases posted <;> simp [SendView.handled, Obs.refuses]

/-- A context is refused with the event that closes. -/
theorem Raises.refuses (hr : v.Raises next l e v₀) (hn : v₀.trace.any Obs.refuses = true) :
    v.trace.any Obs.refuses = true ∨ e.fails = true := by
  cases hr with
  | accept => exact .inl (by simpa [Obs.refuses] using hn)
  | reject => exact .inr rfl
  | result => exact .inl hn
  | other => exact .inl hn

/-- `BeginSend` leaves nothing of a later context in the using buffer to move. -/
theorem Refused.beginSend (h : v.Refused) (hr : v.Raises next l e v₀) {t : SendState}
    (ha : v₀.side.state.onEvent e = .beginSend t)
    (hg : l = .process → next = some .sendDone → v.side.state = .sendingWaitClose →
      acceptedAfter v.trace = []) :
    acceptedAfter v₀.trace = [] := by
  cases hn : v₀.trace.any Obs.refuses with
  | false => exact acceptedAfter_eq_nil hn
  | true =>
    rcases hr.refuses hn with hv | hf
    · rw [hr.state] at ha
      obtain ⟨hs, rfl⟩ := SendState.closing_beginSend ha (h.closing hv)
      cases hr with
      | result _ hnext _ => exact hg rfl hnext hs
      | other he => cases he
    · rw [(SendState.closing_of_beginSend ha).2] at hf
      cases hf

theorem Refused.event (h : v.Refused) (hc : v.items.length = v.side.state.busy.toNat)
    (hr : v.Raises next l e v₀) (hh : v₀.side.Handles e posted s)
    (hi : posted = true → v₀.items = [])
    (hg : l = .process → next = some .sendDone → v.side.state = .sendingWaitClose →
      acceptedAfter v.trace = []) :
    (v₀.handled e posted s).Refused := by
  obtain ⟨hwire, hbefore, hfails⟩ := wire_handled posted s hr
  have hlate := h.raises_late hr
  refine ⟨?_, ?_, ?_, ?_⟩
  · intro hn
    rw [refuses_handled] at hn
    refine hh.closing (fun he => (hr.busy hc he).2) ?_
    rw [hr.state]
    rcases hr.refuses hn with hv | hf
    · rw [h.closing hv, Bool.true_or]
    · rw [hf, Bool.or_true]
  · rw [acceptedAfter_handled]
    cases hh with
    | stay | change | full => exact hlate
    | beginSend ha _ =>
      rw [h.beginSend hr ha hg]
      exact List.nil_suffix
  · rw [hwire]
    exact h.sound.trans hbefore
  · intro hf
    rw [hfails] at hf
    have hpost : v₀.items ≠ [] → posted = false := by
      intro hne
      cases posted with
      | false => rfl
      | true => exact absurd (hi rfl) hne
    rcases h.failed hf with hitem | ⟨hitem, hclose⟩
    · cases he : e.isSendResult with
      | false =>
        have hv := (hr.items_eq he).trans hitem
        rw [hpost (by rw [hv]; exact List.cons_ne_nil _ _)]
        exact .inl hv
      | true =>
        obtain ⟨hres, hbusy⟩ := hr.busy hc he
        obtain rfl : e = .sendError := by
          rw [hitem] at hres
          cases hres
          rfl
        have ht := SendState.onEvent_sendError hbusy
        have hv : v₀.items = [] := by
          cases hr with
          | result => rfl
          | other hn => cases hn
        cases hh with
        | change ha =>
          rw [ht] at ha
          cases ha
          exact .inr ⟨hv, rfl⟩
        | stay ha | full ha | beginSend ha => rw [ht] at ha; cases ha
    · have hv : v₀.items = [] := by
        cases hr with
        | result => rfl
        | accept | reject | other => exact hitem
      rw [← hr.state] at hclose
      cases hh with
      | stay => exact .inr ⟨hv, hclose⟩
      | change ha | full ha | beginSend ha => rw [hclose] at ha; cases ha

theorem Refused.step (h : v.Refused) (hexact : v.Exact)
    (hc : v.items.length = v.side.state.busy.toNat)
    (hg : l = .process → next = some .sendDone → v.side.state = .sendingWaitClose →
      acceptedAfter v.trace = [])
    (hs : v.Step next l v') : v'.Refused := by
  cases hs with
  | quiet => exact h
  | event hr hh hi => exact h.event hc hr hh hi hg
  | @run rs ret b out e hi ho he =>
    have hnf : v.trace.any Obs.sendFails = false := by
      cases hf : v.trace.any Obs.sendFails with
      | false => rfl
      | true =>
        rcases h.failed hf with hv | ⟨hv, _⟩
        · rw [hi] at hv
          cases hv
        · rw [hi] at hv
          cases hv
    refine ⟨?_, ?_, ?_, ?_⟩
    · intro hn
      exact h.closing (by simpa [Obs.refuses] using hn)
    · simpa [acceptedAfter_snoc, Obs.accepted] using h.late
    · have hv := hexact hnf
      obtain ⟨u, hu⟩ := h.late
      obtain ⟨_, _, ⟨left, hout⟩, _⟩ := onSend_spec ho
      rw [accepted_eq_before_after, ← hu, ← List.append_assoc] at hv
      have hbefore := List.append_cancel_right hv
      refine List.IsPrefix.trans ?_ (contextsBefore_mono _ _)
      rw [← hbefore, ← hout]
      refine ⟨left ++ u, ?_⟩
      simp [wire, Obs.wire]
    · intro hf
      have hret : ret = .error := by simpa [hnf, Obs.sendFails] using hf
      subst hret
      cases he
      exact .inl rfl

end SendView

/-- The step does not flush bytes that `Send` took after it had refused a context: it
handles no `NEVT_SEND_DONE` in `SendingWaitClose` while there are any. -/
def World.NoLateFlush {cfg : Config} (w : World cfg) (l : Label) : Prop :=
  l = .process → w.nextResult = some .sendDone → w.send.state = .sendingWaitClose →
    acceptedAfter w.trace = []

instance {cfg : Config} (w : World cfg) (l : Label) : Decidable (w.NoLateFlush l) :=
  inferInstanceAs (Decidable (_ → _ → _ → _))

/-- As long as no late bytes are flushed, the wire carries nothing past the first refused
context: it is a prefix of the contexts before it, and so of all. -/
theorem wire_prefix_before_refusal {cfg : Config} {w : World cfg}
    (h : (system cfg).Run World.NoLateFlush w) :
    wire w.trace <+: contextsBefore w.trace ∧ wire w.trace <+: contexts w.trace := by
  have hinv : w.sendView.Exact ∧ w.sendView.Refused := h.invariant_with
    (I := fun w => w.sendView.Exact ∧ w.sendView.Refused) (J := Accounts false false)
    (fun _ hr => Reachable.accounts hr.reachable)
    ⟨fun _ => rfl, by simp [World.sendView, World.init, system, Obs.ofSend], List.nil_suffix,
      List.nil_prefix, by simp [World.sendView, World.init, system, Obs.ofSend]⟩
    (fun w _ _ hg hacc ih hs => by
      have hstep := hacc.sendView_step hs
      refine ⟨ih.1.step hstep, ih.2.step ih.1 hacc.send ?_ hstep⟩
      intro hl hnext hstate
      exact (acceptedAfter_filter _).trans (hg hl hnext hstate))
  have hsound := hinv.2.sound
  rw [World.sendView, wire_filter, contextsBefore_filter] at hsound
  exact ⟨hsound, hsound.trans (contextsBefore_isPrefix _)⟩

theorem wire_prefix_before_refusal_small : ∃ w : World .small,
    contexts w.trace = [1, 2, 3, 4, 5, 6, 7] ∧ wire w.trace = [1, 2, 3] ∧
      wire w.trace <+: contextsBefore w.trace ∧ wire w.trace <+: contexts w.trace := by
  obtain ⟨w, h, hw⟩ := (system .small).run_of_exec (P := World.NoLateFlush)
    [.ret, .send [1, 2], .send [3], .send [4, 5, 6, 7], .take, .runSend [.sent 2], .push, .process,
      .take, .runSend [.sent 1]]
    (p := fun w => contexts w.trace == [1, 2, 3, 4, 5, 6, 7] && wire w.trace == [1, 2, 3])
    (by decide)
  simp only [Bool.and_eq_true, beq_iff_eq] at hw
  exact ⟨w, hw.1, hw.2, wire_prefix_before_refusal h⟩

/-- `Send` refuses 4 to 7 and takes 8, which follows 3 on the wire. -/
theorem wire_skips_refused_context : ∃ w : World .small, Reachable w ∧
    contextsBefore w.trace = [1, 2, 3] ∧ contexts w.trace = [1, 2, 3, 4, 5, 6, 7, 8] ∧
      wire w.trace = [1, 2, 3, 8] ∧ ¬ wire w.trace <+: contexts w.trace := by
  obtain ⟨w, h, hw⟩ := (system .small).run_of_exec (P := fun _ _ => True)
    [.ret, .send [1, 2], .send [3], .send [4, 5, 6, 7], .send [8], .take, .runSend [.sent 2],
      .push, .process, .take, .runSend [.sent 2]]
    (p := fun w => contextsBefore w.trace == [1, 2, 3] &&
      contexts w.trace == [1, 2, 3, 4, 5, 6, 7, 8] && wire w.trace == [1, 2, 3, 8]) (by decide)
  simp only [Bool.and_eq_true, beq_iff_eq] at hw
  obtain ⟨⟨hbefore, hall⟩, hwire⟩ := hw
  exact ⟨w, h, hbefore, hall, hwire, by rw [hall, hwire]; decide⟩

end HyperNet.Net
