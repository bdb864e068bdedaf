import HyperNet.Net.Rest

/-! # What a close loses

One end calls `Close`, its send machine flushes what it has accepted, and `::close` resets the
connection. So what was accepted before the close has been handed to the kernel; what has come to
the other end before the reset is read there, and the rest is lost. -/
namespace HyperNet.Net
open HyperNet.Api HyperNet.Public HyperNet.Core.Framing HyperNet.Core.History
open HyperNet.Core.Transition

variable {cfg : Config} {w : World cfg} {a b : Config} {s s' : Link a b}

/-- A connection that was closed without a disturbance has sent what it accepted in time. -/
theorem Reachable.flushed_wire (h : Reachable w) (hq : w.trace.any Obs.disturbs = false)
    (hrel : w.released = true) : acceptedOpen w.trace <+: wire w.trace := by
  have hclosed := (h.flushing hq).closed (World.released_closed h hrel).1
  rwa [World.sendView, acceptedOpen_filter, wire_filter] at hclosed

/-- Behind the reset nothing is received. -/
theorem Link.reset_final {l : LinkLabel} (hr : s.reset = true) (hs : s.step l = some s') :
    s'.reset = true ∧ received s'.right.trace = received s.right.trace := by
  cases l with
  | left l =>
    obtain ⟨_, w, _, rfl⟩ := stepLeft_cases hs
    exact ⟨hr, rfl⟩
  | right l =>
    obtain ⟨t, ht, rfl⟩ := Option.map_eq_some_iff.mp hs
    obtain ⟨⟨_, hgets, _⟩, u, hu, rfl⟩ := stepLeft_cases ht
    have hu : s.right.step l = some u := hu
    have hnone : s.right.gets l = [] := hgets hr
    refine ⟨hr, ?_⟩
    change received u.trace = _
    rw [(World.step_exchanges hu).received, hnone, List.append_nil]
  | reset =>
    obtain rfl := reset_cases hs
    exact ⟨rfl, rfl⟩

theorem Link.reset_exec (hr : s.reset = true) {ls : List LinkLabel}
    (he : (link a b).exec (fun _ _ => True) s ls = some s') :
    received s'.right.trace = received s.right.trace := by
  have hkept := System.exec_invariant
    (I := fun t => t.reset = true ∧ received t.right.trace = received s.right.trace)
    (fun t l t' _ ht hs => by
      obtain ⟨hr', hreceived⟩ := Link.reset_final ht.1 hs
      exact ⟨hr', hreceived.trans ht.2⟩) ⟨hr, rfl⟩ he
  exact hkept.2

/-- **A hard close loses what has not come.** The left end has closed undisturbed. Then all that it
accepted before the close has been received by the right end or is under way. Where nothing is under
way and the right end has processed what it has received, packets accepted in time that its parser
recognises have all been handed to its session, first and in order. And behind the reset the right
end receives nothing more. -/
theorem hard_close (h : (link a b).Reachable s) (hq : s.left.trace.any Obs.disturbs = false)
    (hrel : s.left.released = true) :
    acceptedOpen s.left.trace <+: received s.right.trace ++ s.toRight ∧
    (s.toRight = [] → received s.right.trace = processed s.right.trace →
      s.right.trace.any Obs.rejected = false → (∀ f ∈ s.right.stack, f.isOnRecv = false) →
        ∀ frames, Carries b.parser frames → frames.flatten <+: acceptedOpen s.left.trace →
          frames <+: packets s.right.trace) ∧
    (s.reset = true → ∀ ls s', (link a b).exec (fun _ _ => True) s ls = some s' →
      received s'.right.trace = received s.right.trace) := by
  have hconserved := Link.conserved h
  have hopen : acceptedOpen s.left.trace <+: received s.right.trace ++ s.toRight :=
    hconserved ▸ (Link.reachable_left h).flushed_wire hq hrel
  refine ⟨hopen, fun hflight hprocessed hrejected hstack frames hc hframes => ?_,
    fun hr ls s' he => Link.reset_exec hr he⟩
  rw [hflight, List.append_nil, hprocessed] at hopen
  have hright := Link.reachable_right h
  obtain ⟨hsplit, hi⟩ := hright.rest hstack hrejected
  exact (hprocessed ▸ hright.segmented).contains hc (hframes.trans hopen) hsplit hi

/-- Twelve bytes, of which eight are still in the buffers of the sender when it calls `Close`. They
have been read when its socket is closed, and the next read fails. -/
theorem hard_close_twelve : ∃ s : Link .small .small,
    acceptedOpen s.left.trace = Logic.twelve ∧ s.left.released = true ∧ s.reset = true ∧
      Obs.dispatch .recvError ∈ s.right.trace ∧ [Logic.twelve] <+: packets s.right.trace := by
  obtain ⟨s, h, hs⟩ := (link .small .small).run_of_exec (P := fun _ _ => True)
    [.left .ret, .right .ret, .left (.send [1, 0, 0, 0]), .left .take, .left (.runSend [.sent 4]),
      .left .push, .left .process, .left (.send [12, 0, 0, 0]), .left (.send [3, 0, 0, 0]),
      .left .close, .left .take, .left (.runSend [.sent 4]), .left .push, .left .process,
      .left .take, .left (.runSend [.sent 4]), .right .onIn, .right .take,
      .right (.runRecv [.data 1 [0, 0, 0, 12, 0, 0, 0, 3, 0, 0, 0]]), .right .push, .right .process,
      .right .ret, .left .push, .left .process, .left .ret, .reset, .right .onIn, .right .take,
      .right (.runRecv [.error]), .right .push, .right .process]
    (p := fun s => acceptedOpen s.left.trace == Logic.twelve && s.left.released && s.reset &&
      s.right.trace.any (· == .dispatch .recvError) && !s.left.trace.any Obs.disturbs &&
      s.toRight.isEmpty && received s.right.trace == processed s.right.trace &&
      !s.right.trace.any Obs.rejected && s.right.stack.all fun f => !f.isOnRecv) (by decide)
  simp only [Bool.and_eq_true, beq_iff_eq, Bool.not_eq_true', List.isEmpty_iff,
    List.any_eq_true, exists_eq_right, List.all_eq_true] at hs
  obtain ⟨⟨⟨⟨⟨⟨⟨⟨hopen, hrel⟩, hr⟩, hfailed⟩, hq⟩, hflight⟩, hprocessed⟩, hrejected⟩, hstack⟩ := hs
  refine ⟨s, hopen, hrel, hr, hfailed, ?_⟩
  exact (hard_close h hq hrel).2.1 hflight hprocessed hrejected hstack [Logic.twelve]
    (Logic.Harbor.carries (by decide)) (by rw [hopen]; exact List.prefix_rfl)

end HyperNet.Net
