import HyperNet.Net.Connection

/-! # What a connection asks of its worker

The functions of a connection touch its worker only through `Recv` and `Send`, and the stack of
the main thread only by the call of the session that they end in. So they do the same wherever
they are called, and with any worker (`Calls`). -/
namespace HyperNet.Net
open HyperNet.Api

variable {cfg : Config} {m : Nat}

/-- The calls of `NetWorker::Recv` and `NetWorker::Send`, in order. -/
def NetWorker.posts (wk : NetWorker m) (rs : List WorkRequest) : NetWorker m :=
  rs.foldl NetWorker.post wk

theorem NetWorker.posts_append (wk : NetWorker m) (rs rs' : List WorkRequest) :
    wk.posts (rs ++ rs') = (wk.posts rs).posts rs' := List.foldl_append

/-- A queue with room for the calls has them in the end. -/
theorem NetWorker.workQueue_posts (wk : NetWorker m) (rs : List WorkRequest)
    (h : wk.workQueue.toList.length + rs.length ≤ m * 2) :
    (wk.posts rs).workQueue.toList = wk.workQueue.toList ++ rs ∧
      (wk.posts rs).executing = wk.executing ∧ (wk.posts rs).resultQueue = wk.resultQueue := by
  induction rs generalizing wk with
  | nil => exact ⟨(List.append_nil _).symm, rfl, rfl⟩
  | cons r rs ih =>
    have hlt : wk.workQueue.toList.length < wk.workQueue.capacity := by
      rw [wk.work_capacity]
      simp only [List.length_cons] at h
      omega
    have hpush : (wk.post r).workQueue.toList = wk.workQueue.toList ++ [r] :=
      Public.CycleQueue.toList_push r hlt
    obtain ⟨hq, he, hr⟩ := ih (wk.post r) (by
      rw [hpush, List.length_append, List.length_singleton]
      simp only [List.length_cons] at h
      omega)
    refine ⟨?_, he, hr⟩
    rw [hpush, List.append_assoc, List.singleton_append] at hq
    exact hq

namespace World

/-- The connection with another worker, called from further down a stack. -/
def elsewhere (wk : NetWorker cfg.maxConnection) (fs : List Frame) (tr : List Obs) (w : World cfg) :
    World cfg := { w with worker := wk, stack := w.stack ++ fs, trace := tr }

/-- `f` comes from `w` to `w'` and calls the worker with `rs`, here and elsewhere. -/
structure Calls (f : World cfg → Option (World cfg)) (w w' : World cfg)
    (rs : List WorkRequest) : Prop where
  worker : w'.worker = w.worker.posts rs
  pipe : w'.pipe = w.pipe
  released : w'.released = w.released
  elsewhere : ∀ wk fs tr, ∃ tr', f (w.elsewhere wk fs tr) = some (w'.elsewhere (wk.posts rs) fs tr')

variable {f g : World cfg → Option (World cfg)} {w w₁ w₂ w' : World cfg} {e : NetEventType}
  {rs rs' : List WorkRequest}

theorem Calls.bind (h : Calls f w w₁ rs) (h' : Calls g w₁ w₂ rs') :
    Calls (fun w => (f w).bind g) w w₂ (rs ++ rs') := by
  refine ⟨?_, h'.pipe.trans h.pipe, h'.released.trans h.released, ?_⟩
  · rw [h'.worker, h.worker, NetWorker.posts_append]
  · intro wk fs tr
    obtain ⟨tr₁, h₁⟩ := h.elsewhere wk fs tr
    obtain ⟨tr₂, h₂⟩ := h'.elsewhere (wk.posts rs) fs tr₁
    refine ⟨tr₂, ?_⟩
    rw [h₁, NetWorker.posts_append]
    exact h₂

/-- A call that only makes an entry in the trace first. -/
theorem Calls.log {o : Obs} (h : Calls f (w.log o) w' rs) :
    Calls (fun w => f (w.log o)) w w' rs :=
  ⟨h.worker, h.pipe, h.released, fun wk fs tr => h.elsewhere wk fs (tr ++ [o])⟩

theorem Calls.releaseCheck (w : World cfg) :
    Calls (fun w => some w.releaseCheck) w w.releaseCheck [] := by
  have hif : ∀ u : World cfg, u.send = w.send → u.recv = w.recv →
      u.releaseCheck = if w.send.state = .sendClose ∧ w.recv.state = .recvClose then
        u.onClose else u := by
    intro u hs hr
    rw [World.releaseCheck, hs, hr]
  refine ⟨?_, ?_, ?_, ?_⟩
  · rw [hif w rfl rfl]
    split <;> rfl
  · rw [hif w rfl rfl]
    split <;> rfl
  · rw [hif w rfl rfl]
    split <;> rfl
  · intro wk fs tr
    rw [hif w rfl rfl, hif (w.elsewhere wk fs tr) rfl rfl]
    split
    · exact ⟨_, rfl⟩
    · exact ⟨_, rfl⟩

theorem sendMachine_calls (h : w.sendMachine e = some w') :
    ∃ rs, rs.length ≤ 1 ∧ Calls (sendMachine e) w w' rs := by
  obtain ⟨⟨posted, s⟩, hs, rfl⟩ := Option.map_eq_some_iff.mp h
  cases posted with
  | true =>
    refine ⟨[.send], Nat.le_refl _, rfl, rfl, rfl, fun wk fs tr => ?_⟩
    refine ⟨_, Option.map_eq_some_iff.mpr ⟨(true, s), hs, rfl⟩⟩
  | false =>
    refine ⟨[], Nat.zero_le _, rfl, rfl, rfl, fun wk fs tr => ?_⟩
    exact ⟨_, Option.map_eq_some_iff.mpr ⟨(false, s), hs, rfl⟩⟩

theorem endPacket_calls (again ok : Bool) (w : World cfg) :
    ∃ rs, rs.length ≤ 1 ∧
      Calls (fun w => some (w.endPacket again ok)) w (w.endPacket again ok) rs := by
  cases ok with
  | false => exact ⟨[], Nat.zero_le _, rfl, rfl, rfl, fun wk fs tr => ⟨tr, rfl⟩⟩
  | true =>
    cases again with
    | false => exact ⟨[], Nat.zero_le _, rfl, rfl, rfl, fun wk fs tr => ⟨tr, rfl⟩⟩
    | true => exact ⟨[.recv], Nat.le_refl _, rfl, rfl, rfl, fun wk fs tr => ⟨_, rfl⟩⟩

theorem runPacket_calls (again : Bool) (o : Parsing × RecvSide cfg.recvSize) (w : World cfg) :
    ∃ rs, rs.length ≤ 1 ∧
      Calls (fun w => some (w.runPacket again o)) w (w.runPacket again o) rs := by
  obtain ⟨parsing, r⟩ := o
  cases parsing with
  | onRecv pos u => exact ⟨[], Nat.zero_le _, rfl, rfl, rfl, fun wk fs tr => ⟨_, rfl⟩⟩
  | done ok =>
    let w₀ : World cfg := { w with recv := r, trace := w.trace ++ [.packetsDone ok] }
    obtain ⟨rs, hlen, hcalls⟩ := endPacket_calls again ok w₀
    have hboth := hcalls.bind (Calls.releaseCheck (w₀.endPacket again ok))
    rw [List.append_nil] at hboth
    exact ⟨rs, hlen, hboth.worker, hboth.pipe, hboth.released,
      fun wk fs tr => hboth.elsewhere wk fs (tr ++ [Obs.packetsDone ok])⟩

/-- A change of the receive direction, and the look at both that follows. -/
theorem recvMachine_calls_of {g : World cfg → World cfg}
    (hg : Calls (fun w => some (g w)) w (g w) rs)
    (hu : ∀ u : World cfg, u.recv = w.recv → u.recvMachine e = some (g u).releaseCheck) :
    Calls (recvMachine e) w (g w).releaseCheck rs := by
  have hboth := hg.bind (Calls.releaseCheck (g w))
  rw [List.append_nil] at hboth
  refine ⟨hboth.worker, hboth.pipe, hboth.released, fun wk fs tr => ?_⟩
  rw [hu (w.elsewhere wk fs tr) rfl]
  exact hboth.elsewhere wk fs tr

theorem recvMachine_calls (h : w.recvMachine e = some w') :
    ∃ rs, rs.length ≤ 1 ∧ Calls (recvMachine e) w w' rs := by
  cases ha : w.recv.state.onEvent e with
  | stay =>
    have hu : ∀ u : World cfg, u.recv = w.recv → u.recvMachine e = some u.releaseCheck := by
      intro u hr
      simp only [recvMachine, hr, ha]
    obtain rfl := Option.some.inj ((hu w rfl).symm.trans h)
    exact ⟨[], Nat.zero_le _, recvMachine_calls_of ⟨rfl, rfl, rfl, fun _ _ _ => ⟨_, rfl⟩⟩ hu⟩
  | change s =>
    have hu : ∀ u : World cfg, u.recv = w.recv →
        u.recvMachine e = some (u.changeRecvState s).releaseCheck := by
      intro u hr
      simp only [recvMachine, hr, ha]
    obtain rfl := Option.some.inj ((hu w rfl).symm.trans h)
    exact ⟨[], Nat.zero_le _, recvMachine_calls_of ⟨rfl, rfl, rfl, fun _ _ _ => ⟨_, rfl⟩⟩ hu⟩
  | beginRecv s =>
    have hu : ∀ u : World cfg, u.recv = w.recv →
        u.recvMachine e = some (u.beginRecv.changeRecvState s).releaseCheck := by
      intro u hr
      simp only [recvMachine, hr, ha]
    obtain rfl := Option.some.inj ((hu w rfl).symm.trans h)
    exact ⟨[.recv], Nat.le_refl _,
      recvMachine_calls_of ⟨rfl, rfl, rfl, fun _ _ _ => ⟨_, rfl⟩⟩ hu⟩
  | processPacket again =>
    simp only [recvMachine, ha] at h
    obtain ⟨o, ho, rfl⟩ := Option.map_eq_some_iff.mp h
    obtain ⟨rs, hlen, hcalls⟩ := runPacket_calls again o
      (w.log (.processPacket w.recvItems.length w.recv.taken))
    refine ⟨rs, hlen, hcalls.worker, hcalls.pipe, hcalls.released, fun wk fs tr => ?_⟩
    obtain ⟨tr', ht⟩ := hcalls.elsewhere wk fs (tr ++
      [.processPacket (w.elsewhere wk fs tr).recvItems.length w.recv.taken])
    refine ⟨tr', ?_⟩
    have hst : (w.elsewhere wk fs tr).recv.state.onEvent e = .processPacket again := ha
    simp only [recvMachine, hst]
    exact Option.map_eq_some_iff.mpr ⟨o, ho, Option.some.inj ht⟩

theorem onEvent_calls (h : w.onEvent e = some w') :
    ∃ rs, rs.length ≤ 2 ∧ Calls (onEvent e) w w' rs := by
  obtain ⟨w₁, h₁, h₂⟩ := Option.bind_eq_some_iff.mp h
  obtain ⟨rs, hlen, hsend⟩ := sendMachine_calls h₁
  obtain ⟨rs', hlen', hrecv⟩ := recvMachine_calls h₂
  refine ⟨rs ++ rs', ?_, hsend.log.bind hrecv⟩
  rw [List.length_append]
  omega

theorem sendCall_calls {context : List UInt8} (h : w.sendCall context = some w') :
    ∃ rs, rs.length ≤ 2 ∧ Calls (sendCall context) w w' rs := by
  cases hx : w.send.used.exceeds context.length with
  | true =>
    simp only [sendCall, hx, if_true] at h
    obtain ⟨rs, hlen, hcalls⟩ := onEvent_calls h
    refine ⟨rs, hlen, hcalls.worker, hcalls.pipe, hcalls.released, fun wk fs tr => ?_⟩
    obtain ⟨tr', ht⟩ := hcalls.elsewhere wk fs (tr ++ [.send context false])
    exact ⟨tr', by simpa [sendCall, elsewhere, log, hx] using ht⟩
  | false =>
    simp only [sendCall, hx, Bool.false_eq_true, if_false] at h
    obtain ⟨b, hb, h⟩ := Option.bind_eq_some_iff.mp h
    obtain ⟨rs, hlen, hcalls⟩ := onEvent_calls h
    refine ⟨rs, hlen, hcalls.worker, hcalls.pipe, hcalls.released, fun wk fs tr => ?_⟩
    obtain ⟨tr', ht⟩ := hcalls.elsewhere wk fs (tr ++ [.send context true])
    exact ⟨tr', by simpa [sendCall, elsewhere, hx, hb] using ht⟩

theorem closeCall_calls (h : w.closeCall = some w') :
    ∃ rs, rs.length ≤ 2 ∧ Calls closeCall w w' rs := by
  obtain ⟨rs, hlen, hcalls⟩ := onEvent_calls h
  exact ⟨rs, hlen, hcalls.log⟩

/-- The callbacks other than `OnDisconnected`, after which there is no connection. -/
theorem resume_calls {c : Frame} (h : w.resume c = some w') (hc : c ≠ .onDisconnected) :
    ∃ rs, rs.length ≤ 2 ∧ Calls (fun w => w.resume c) w w' rs := by
  cases c with
  | onConnected =>
    cases h
    exact ⟨[], Nat.zero_le _, rfl, rfl, rfl, fun wk fs tr => ⟨tr, rfl⟩⟩
  | onRecv pos u again =>
    cases h
    obtain ⟨rs, hlen, hcalls⟩ := runPacket_calls again (w.recv.parse cfg.parser (pos + u)) w
    exact ⟨rs, by omega, hcalls.worker, hcalls.pipe, hcalls.released, hcalls.elsewhere⟩
  | onError => exact onEvent_calls h
  | onDisconnected => exact absurd rfl hc

end World
end HyperNet.Net
