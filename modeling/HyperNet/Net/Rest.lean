import HyperNet.Core.Settling
import HyperNet.Net.Copies
import HyperNet.Net.Coupling
import HyperNet.Net.Delivery

/-! # A connection comes to rest

Returning from callbacks, handling results and serving requests is a connection's own work. The
other steps bring it something: calls of `Send` and `Close`, events of the socket, bytes that a
read finds there. Of its own work it does no more than the measure below says, and when none is
left it has nothing at the worker. -/
namespace HyperNet.Net
open HyperNet.Api HyperNet.Public HyperNet.Core.Framing HyperNet.Core.History
open HyperNet.Core.Transition

/-! ## The work -/

/-- The steps that bring nothing to the connection. -/
def Label.works : Label → Bool
  | .ret | .process | .take | .runSend _ | .push => true
  | .runRecv rs => rs.all fun r => !r.isData
  | .send _ | .close | .onIn | .onOut | .onError _ => false

/-- The events that ask a machine for a request. -/
def NetEventType.asks : NetEventType → Bool
  | .send | .sendReady | .recv => true
  | _ => false

theorem NetEventType.asks_of_result {e : NetEventType} (h : e.isSendResult = !e.isRecvResult) :
    e.asks = false := by
  revert h
  cases e <;> decide

/-- The states in which the result of the request may be followed by another one. -/
def SendState.again : SendState → Bool
  | .sendingWait | .sendingReady | .sendingReadyWait | .sendingWaitClose => true
  | _ => false

def RecvState.again : RecvState → Bool
  | .recvingWait => true
  | _ => false

namespace SendState
variable {s t : SendState} {e : NetEventType}

theorem again_of_change (h : s.onEvent e = .change t) (he : e.asks = false) :
    t.again = true → s.again = true := by
  revert he
  cases s <;> cases e <;> cases h <;> decide

/-- Another request is the last one, unless something asks for more. -/
theorem again_of_beginSend (h : s.onEvent e = .beginSend t) (he : e.asks = false) :
    s.again = true ∧ t.again = false := by
  revert he
  cases s <;> cases e <;> cases h <;> decide

end SendState

namespace RecvState
variable {s t : RecvState} {e : NetEventType}

theorem again_of_change (h : s.onEvent e = .change t) (he : e.asks = false) : t.again = false := by
  revert he
  cases s <;> cases e <;> cases h <;> decide

end RecvState

/-- A call of `OnRecv` that is given nothing leaves the buffer as it is. -/
theorem onRecv_of_no_data {n : Nat} {b b' : Buffer n} {rs : List RecvRes} {ret : WRet}
    {bytes : List UInt8} (h : rs.all (fun r => !r.isData) = true)
    (ho : onRecv b rs = (ret, b', bytes)) : b' = b := by
  have hloop : (recvLoop b rs).2 = b := by
    cases rs with
    | nil => rfl
    | cons r rs =>
      rw [List.all_cons, Bool.and_eq_true] at h
      unfold recvLoop
      split
      · cases r with
        | data => cases h.1
        | eof | eagain | error => rfl
      · rfl
  simp only [onRecv, Prod.mk.injEq] at ho
  obtain ⟨rfl, rfl, _⟩ := ho
  split
  · exact hloop
  · rfl

/-! ## The measure -/

/-- What is left of a callback, and of the loop of `ProcessPacket` behind it, where the using
buffer holds `used` bytes. -/
def Frame.effort (used : Nat) : Frame → Nat
  | .onConnected | .onDisconnected => 1
  | .onError => 2
  | .onRecv pos u again => 2 + (used - (pos + u)) + if again then 5 else 0

def Item.effort : Item → Nat
  | .request _ => 4
  | .result _ => 3

def NetWorker.effort {m : Nat} (wk : NetWorker m) : Nat :=
  5 * wk.workQueue.toList.length + (wk.executing.toList.map Item.effort).sum +
    2 * wk.resultQueue.toList.length

/-- The packets that bytes in the working buffer may make. -/
def RecvSide.effort {n : Nat} (r : RecvSide n) : Nat :=
  if r.worked.data = [] then 0 else 2 + r.used.offset + r.worked.offset

namespace World
variable {cfg : Config}

def frames (w : World cfg) : Nat := (w.stack.map (Frame.effort w.recv.used.offset)).sum

/-- The requests that the machines may still begin by themselves. -/
def further (w : World cfg) : Nat :=
  w.send.state.again.toNat + (w.recv.state.again && !w.inOnRecv).toNat

/-- A bound on the connection's own work. -/
def effort (w : World cfg) : Nat :=
  w.worker.effort + 5 * w.further + w.frames + w.recv.effort

end World

namespace NetWorker
variable {m : Nat} {wk wk' : NetWorker m}

theorem effort_post (wk : NetWorker m) (r : WorkRequest) : (wk.post r).effort ≤ wk.effort + 5 := by
  have hl := wk.workQueue.length_push_le r
  simp only [effort, post]
  omega

theorem effort_take (h : wk.take = some wk') : wk'.effort < wk.effort := by
  unfold take at h
  split at h
  · next r q hx hr =>
    cases h
    simp only [effort, hx, CycleQueue.toList_read hr, List.length_cons, Option.toList_some,
      Option.toList_none, List.map_cons, List.map_nil, List.sum_cons, List.sum_nil, Item.effort]
    omega
  · cases h

theorem effort_finish {r : WorkRequest} (e : NetEventType) (h : wk.executing = some (.request r)) :
    (wk.finish e).effort < wk.effort := by
  simp only [effort, finish, h, Option.toList_some, List.map_cons, List.map_nil, List.sum_cons,
    List.sum_nil, Item.effort]
  omega

theorem effort_pushResult (h : wk.pushResult = some wk') : wk'.effort < wk.effort := by
  unfold pushResult at h
  split at h
  · next e hx =>
    cases h
    have hl := wk.resultQueue.length_push_le e
    simp only [effort, hx, Option.toList_some, Option.toList_none, List.map_cons, List.map_nil,
      List.sum_cons, List.sum_nil, Item.effort]
    omega
  · cases h

theorem effort_readResult {e : NetEventType} (h : wk.readResult = some (e, wk')) :
    wk'.effort + 2 = wk.effort := by
  unfold readResult at h
  split at h
  · next hr =>
    cases h
    simp only [effort, CycleQueue.toList_read hr, List.length_cons]
    omega
  · cases h

end NetWorker

theorem RecvSide.effort_drop {n : Nat} (r : RecvSide n) (pos : Nat) :
    RecvSide.effort { r with used := r.used.drop pos } ≤ r.effort := by
  have hl : (r.used.drop pos).offset ≤ r.used.offset := by
    simp only [Buffer.offset, Buffer.data_drop, List.length_drop]
    omega
  simp only [RecvSide.effort]
  split
  · exact Nat.le_refl _
  · omega

namespace World
variable {cfg : Config} {w w' w₀ : World cfg} {e : NetEventType} {l : Label}

/-! ## What a step costs -/

/-- `OnClose` is one callback more. -/
theorem effort_releaseCheck (w : World cfg) : w.releaseCheck.effort ≤ w.effort + 1 := by
  unfold releaseCheck
  split
  · have hout : w.onClose.inOnRecv = w.inOnRecv := rfl
    have hframes : w.onClose.frames = 1 + w.frames := rfl
    simp only [effort, further, hout, hframes]
    simp only [onClose]
    omega
  · exact Nat.le_succ _

theorem effort_afterSend {posted : Bool} {s : SendSide cfg.sendSize}
    (h : w.send.Handles e posted s) (he : e.asks = false) :
    (w.afterSend e posted s).effort ≤ w.effort := by
  have hpost := w.worker.effort_post .send
  have hout : (w.afterSend e posted s).inOnRecv = w.inOnRecv := rfl
  have hframes : (w.afterSend e posted s).frames = w.frames := rfl
  have hagain : s.state.again.toNat + posted.toNat ≤ w.send.state.again.toNat := by
    cases h with
    | stay => exact Nat.le_refl _
    | @change t ha =>
      show t.again.toNat + 0 ≤ _
      cases ht : t.again with
      | false => exact Nat.zero_le _
      | true =>
        rw [SendState.again_of_change ha he ht]
        exact Nat.le_refl _
    | full => exact Nat.zero_le _
    | beginSend ha =>
      obtain ⟨hs, ht⟩ := SendState.again_of_beginSend ha he
      rw [hs, ht]
      decide
  simp only [effort, further, hout, hframes]
  simp only [afterSend]
  cases posted with
  | false =>
    simp only [Bool.toNat_false] at hagain
    simp only [Bool.false_eq_true, if_false]
    omega
  | true =>
    simp only [Bool.toNat_true] at hagain
    simp only [if_true]
    omega

/-- `ProcessPacket` returns. -/
theorem effort_done (hst : w.stack = []) (again ok : Bool) (r : RecvSide cfg.recvSize) :
    (w.runPacket again (.done ok, r)).effort ≤ w.worker.effort + 5 * w.send.state.again.toNat +
      (if again then 5 else 0) + r.effort + 1 := by
  refine Nat.le_trans (effort_releaseCheck _) (Nat.succ_le_succ ?_)
  have hpost := w.worker.effort_post .recv
  cases ok <;> cases again <;>
    (simp [endPacket, effort, further, frames, beginRecv, changeRecvState, RecvState.again, hst,
      RecvSide.effort]; try omega)

/-- The loop of `ProcessPacket` goes on at `pos`. -/
theorem effort_parsed (hst : w.stack = []) (again : Bool) {pos : Nat}
    {r : RecvSide cfg.recvSize} {o : Parsing × RecvSide cfg.recvSize}
    (ho : r.Parses cfg.parser pos o) :
    (w.runPacket again o).effort ≤ w.worker.effort + 5 * w.send.state.again.toNat +
      (if again then 5 else 0) + r.effort + 1 + (r.used.offset - pos) := by
  cases ho with
  | rest =>
    have hdone := effort_done hst again true { r with used := r.used.drop pos }
    have hdrop := RecvSide.effort_drop r pos
    omega
  | @packet u hu _ hl =>
    have hl : pos + u ≤ r.used.offset := hl
    simp only [runPacket, effort, further, frames, inOnRecv, hst, List.any_cons, List.any_nil,
      Frame.isOnRecv, List.map_cons, List.map_nil, List.sum_cons, List.sum_nil, Frame.effort,
      Bool.or_false, Bool.not_true, Bool.and_false, Bool.toNat_false]
    omega
  | bad =>
    have hdone := effort_done hst again false r
    omega

theorem effort_processed (hst : w.stack = []) (again : Bool)
    {o : Parsing × RecvSide cfg.recvSize} (ho : w.recv.Processes cfg.parser o) :
    (w.runPacket again o).effort ≤ w.worker.effort + 5 * w.send.state.again.toNat +
      (if again then 5 else 0) + w.recv.effort + 1 := by
  cases ho with
  | nothing => exact effort_done hst again true w.recv
  | full => exact effort_done hst again false w.recv
  | @parse b hw _ hb =>
    have hparsed := effort_parsed hst again
      (RecvSide.parse_cases cfg.parser 0 { w.recv with used := b, worked := .empty })
    -- the bytes of the working buffer are in the other one now
    have hoffset : b.offset = w.recv.used.offset + w.recv.worked.offset := by
      rw [Buffer.offset, hb, List.length_append]
      rfl
    have hbefore : w.recv.effort = 2 + b.offset := by
      rw [RecvSide.effort, if_neg hw, hoffset, Nat.add_assoc]
    have hafter : RecvSide.effort { w.recv with used := b, worked := Buffer.empty } = 0 :=
      if_pos rfl
    simp only [hafter] at hparsed
    omega

theorem RecvHandles.effort (h : w.RecvHandles e w') (he : e.asks = false)
    (hst : e = .recvDone → w.stack = []) : w'.effort ≤ w.effort + 1 := by
  cases h with
  | stay => exact effort_releaseCheck w
  | @change t ha =>
    refine Nat.le_trans (effort_releaseCheck _) (Nat.succ_le_succ ?_)
    have hout : (w.changeRecvState t).inOnRecv = w.inOnRecv := rfl
    have hframes : (w.changeRecvState t).frames = w.frames := rfl
    have hrecv : (w.changeRecvState t).recv.effort = w.recv.effort := rfl
    simp only [World.effort, further, hout, hframes, hrecv]
    simp only [changeRecvState, RecvState.again_of_change ha he, Bool.false_and, Bool.toNat_false]
    omega
  | beginRecv ha =>
    rw [(RecvState.beginRecv_cases ha).1] at he
    cases he
  | @processPacket again o ha ho =>
    obtain ⟨hdone, hstate⟩ := RecvState.processPacket_cases ha
    have hst := hst hdone
    have hprocessed := effort_processed (w := w.log (.processPacket w.recvItems.length
      w.recv.taken)) hst again ho
    refine Nat.le_trans hprocessed (Nat.succ_le_succ ?_)
    have hout : w.inOnRecv = false := by simp [inOnRecv, hst]
    have hagain : w.recv.state.again = again := by
      rw [hstate]
      cases again <;> rfl
    simp only [World.effort, further, frames, hout, hagain, hst, log, List.map_nil, List.sum_nil]
    cases again with
    | false =>
      simp only [Bool.false_eq_true, if_false, Bool.false_and, Bool.toNat_false]
      omega
    | true =>
      simp only [if_true, Bool.not_false, Bool.and_self, Bool.toNat_true]
      omega

/-- An event that asks for nothing. -/
theorem effort_onEvent (he : e.asks = false) (hst : e = .recvDone → w.stack = [])
    (h : w.onEvent e = some w') : w'.effort ≤ w.effort + 1 := by
  obtain ⟨posted, s, hs, hr⟩ := onEvent_cases h
  have hsend := effort_afterSend hs he
  have hrecv := hr.effort he hst
  omega

/-- A callback of the session, other than `OnRecv`, returns. -/
theorem effort_pop {f : Frame} {fs : List Frame} (hst : w.stack = f :: fs)
    (hf : f.isOnRecv = false) :
    effort { w with stack := fs } + f.effort w.recv.used.offset = w.effort := by
  have hout : inOnRecv { w with stack := fs } = w.inOnRecv := by simp [inOnRecv, hst, hf]
  simp only [effort, further, hout]
  simp only [frames, hst, List.map_cons, List.sum_cons]
  omega

/-- The work of the connection lowers the measure. -/
theorem effort_step (hacc : Accounts false false w) (hl : l.works = true)
    (hs : w.step l = some w') : w'.effort < w.effort := by
  have queue : ∀ wk : NetWorker cfg.maxConnection, wk.effort < w.worker.effort →
      effort { w with worker := wk } < w.effort := by
    intro wk hlt
    have hframes : frames { w with worker := wk } = w.frames := rfl
    have hfurther : further { w with worker := wk } = w.further := rfl
    simp only [effort, hframes, hfurther]
    omega
  cases step_cases hs with
  | @event _ e w₀ _ hr he =>
    cases hr with
    | send | overflow | close | onIn | onOut => cases hl
    | onError hst =>
      have hpop := effort_pop hst rfl
      have hevent := effort_onEvent (e := .error) rfl (fun hd => by cases hd) he
      simp only [Frame.effort] at hpop
      omega
    | @result e wk hst hr =>
      have hread := NetWorker.effort_readResult hr
      have hframes : frames { w with worker := wk } = w.frames := rfl
      have hfurther : further { w with worker := wk } = w.further := rfl
      have hasks : e.asks = false := NetEventType.asks_of_result
        (hacc.kind (.result e) (by simp [NetWorker.items_readResult hr]))
      have hevent := effort_onEvent (w := { w with worker := wk }) hasks (fun _ => hst) he
      simp only [effort, hframes, hfurther] at hevent ⊢
      omega
  | detached hp hd => rcases hd with rfl | ⟨context, rfl⟩ <;> cases hl
  | onConnected hst =>
    have hpop := effort_pop hst rfl
    simp only [Frame.effort] at hpop
    omega
  | @onRecv pos u again fs hst =>
    obtain ⟨rfl, _⟩ := hacc.in_onRecv hst
    have hparsed := effort_parsed (w := { w with stack := [] }) rfl again
      (RecvSide.parse_cases cfg.parser (pos + u) w.recv)
    refine Nat.lt_of_le_of_lt hparsed ?_
    simp only [effort, further, frames, hst, List.map_cons, List.map_nil, List.sum_cons,
      List.sum_nil, Frame.effort]
    omega
  | onDisconnected hst =>
    have hpop := effort_pop hst rfl
    simp only [Frame.effort] at hpop
    exact Nat.lt_of_lt_of_eq (Nat.lt_succ_self _) hpop
  | onError => cases hl
  | take hq => exact queue _ (NetWorker.effort_take hq)
  | @runRecv rs ret b bytes e hx ho he =>
    have hfinish := NetWorker.effort_finish e hx
    have hb : b = w.recv.worked := onRecv_of_no_data hl ho
    subst hb
    exact queue _ hfinish
  | @runSend rs ret b bytes e hx ho he =>
    have hfinish := NetWorker.effort_finish e hx
    exact queue _ hfinish
  | push hq => exact queue _ (NetWorker.effort_pushResult hq)

/-! ## Rest -/

/-- None of the connection's own work is left. -/
def Resting (w : World cfg) : Prop := ∀ l : Label, l.works = true → ¬ w.Enabled l

theorem Resting.stack (h : w.Resting) : w.stack = [] := by
  by_contra hne
  exact h .ret rfl hne

theorem Resting.quiet (h : w.Resting) (ha : ¬ w.Aborts) : w.stack = [] ∧ w.worker.items = [] := by
  have hst := h.stack
  have hexecuting : w.worker.executing = none := by
    cases hx : w.worker.executing with
    | none => rfl
    | some i =>
      cases i with
      | request r =>
        cases r with
        | send => exact absurd ⟨hx, fun hworked => ha ⟨hx, hworked⟩⟩ (h (.runSend []) rfl)
        | recv => exact absurd hx (h (.runRecv []) rfl)
      | result e =>
        refine absurd ?_ (h .push rfl)
        intro hnone
        simp only [NetWorker.pushResult, hx] at hnone
        cases hnone
  have hresults : w.worker.resultQueue.toList = [] := by
    cases hq : w.worker.resultQueue.toList with
    | nil => rfl
    | cons e rest =>
      obtain ⟨wk, hr, _⟩ := NetWorker.readResult_of_resultQueue hq
      refine absurd ⟨hst, ?_⟩ (h .process rfl)
      rw [nextResult, hr]
      exact Option.some_ne_none _
  have hrequests : w.worker.workQueue.toList = [] := by
    cases hq : w.worker.workQueue.toList with
    | nil => rfl
    | cons r rest =>
      obtain ⟨wk, ht, _⟩ := NetWorker.take_of_workQueue hexecuting hq
      refine absurd ?_ (h .take rfl)
      rw [Enabled, ht]
      exact Option.some_ne_none _
  exact ⟨hst, by simp [NetWorker.items, hresults, hexecuting, hrequests]⟩

/-- Where nothing is at the worker and no callback is left, there is no work. -/
theorem resting_of_quiet (hst : w.stack = []) (hi : w.worker.items = []) : w.Resting := by
  simp only [NetWorker.items, List.append_eq_nil_iff, List.map_eq_nil_iff,
    Option.toList_eq_nil_iff] at hi
  obtain ⟨⟨hresults, hexecuting⟩, hrequests⟩ := hi
  intro l hl henabled
  cases l with
  | ret => exact henabled hst
  | process =>
    obtain ⟨o, ho⟩ := Option.ne_none_iff_exists'.mp henabled.2
    obtain ⟨⟨e, wk⟩, hr, _⟩ := Option.map_eq_some_iff.mp ho
    have hitems := NetWorker.items_readResult hr
    simp [NetWorker.items, hresults, hexecuting, hrequests] at hitems
  | take =>
    obtain ⟨wk, ht⟩ := Option.ne_none_iff_exists'.mp henabled
    have hlt := NetWorker.effort_take ht
    simp [NetWorker.effort, hresults, hexecuting, hrequests] at hlt
  | push =>
    obtain ⟨wk, hp⟩ := Option.ne_none_iff_exists'.mp henabled
    have hlt := NetWorker.effort_pushResult hp
    simp [NetWorker.effort, hresults, hexecuting, hrequests] at hlt
  | runSend => cases hexecuting.symm.trans henabled.1
  | runRecv => cases hexecuting.symm.trans henabled
  | send | close | onIn | onOut | onError => cases hl

/-- A connection at rest: it has nothing at the worker; unless it has closed, everything that
`Send` has accepted is with the kernel, or the socket is full and has not been ready since. -/
structure Settled (w : World cfg) : Prop where
  stack : w.stack = []
  items : w.worker.items = []
  recv : w.recv.state = .recvNone ∨ w.recv.state = .recvClose
  send : w.send.state = .sendNone ∨ w.send.state = .sendPending ∨ w.send.state = .sendClose
  handed : w.send.state = .sendNone → wire w.trace = accepted w.trace
  pending : w.send.state = .sendPending →
    w.send.worked.data ≠ [] ∧ readySince w.trace = false

theorem settled_of_quiet (h : Reachable w) (hst : w.stack = []) (hitems : w.worker.items = []) :
    w.Settled := by
  have hacc := h.accounts
  have hawake := h.awake
  have hsendItems : w.sendItems = [] := by rw [sendItems, hitems, List.filter_nil]
  have hsend : w.send.state.busy = false := by
    have hs := hacc.send
    rw [hsendItems] at hs
    exact Bool.toNat_eq_zero.mp hs.symm
  have hrecv : w.recv.state.busy = false := by
    have hr := hacc.recv
    simp only [recvItems, hitems, inOnRecv, hst, List.filter_nil, List.length_nil, List.any_nil,
      Bool.not_false, Bool.and_true] at hr
    exact Bool.toNat_eq_zero.mp hr.symm
  refine ⟨hst, hitems, ?_, ?_, fun hn => ?_, fun hp => ?_⟩
  · cases hs : w.recv.state with
    | recvNone => exact .inl rfl
    | recvClose => exact .inr rfl
    | recving | recvingWait | recvWaitClose => rw [hs] at hrecv; cases hrecv
  · cases hs : w.send.state with
    | sendNone => exact .inl rfl
    | sendPending => exact .inr (.inl rfl)
    | sendClose => exact .inr (.inr rfl)
    | sending | sendingWait | sendingReady | sendingReadyWait | sendingWaitClose
    | sendWaitClose => rw [hs] at hsend; cases hsend
  · have hnf : w.sendView.trace.any Obs.sendFails = false := by
      cases hf : w.sendView.trace.any Obs.sendFails with
      | false => rfl
      | true =>
        rcases h.sendView_sent.failed hf with hi | ⟨_, hc⟩
        · cases hsendItems.symm.trans hi
        · cases hn.symm.trans hc
    have hexact := h.exact hnf
    have hused := hawake.drained (by rw [sendView, hn]; rfl)
    rw [hawake.rest hn, hused, List.append_nil, List.append_nil] at hexact
    rwa [sendView, wire_filter, accepted_filter] at hexact
  · refine ⟨hawake.pending hp, ?_⟩
    have hunready := hawake.unready (by rw [sendView, hp]; rfl)
    exact (readySince_filter _).symm.trans hunready

theorem Resting.settled (hr : w.Resting) (h : Reachable w) (ha : ¬ w.Aborts) : w.Settled :=
  settled_of_quiet h (hr.quiet ha).1 (hr.quiet ha).2

/-- The sums of an event, where the sizes of two buffers have one. -/
theorem sumFits_of_small (hsend : 2 * cfg.sendSize < s32Bound)
    (hrecv : 2 * cfg.recvSize < s32Bound) (w : World cfg) (e : NetEventType) :
    w.send.SumFits e ∧ w.recv.SumFits e := by
  have hworked := w.send.worked.offset_le
  have hused := w.send.used.offset_le
  have hrworked := w.recv.worked.offset_le
  have hrused := w.recv.used.offset_le
  constructor
  · cases ha : w.send.state.onEvent e with
    | stay | change => simp [SendSide.SumFits, ha]
    | beginSend =>
      simp only [SendSide.SumFits, ha]
      omega
  · cases ha : w.recv.state.onEvent e with
    | stay | change | beginRecv => simp [RecvSide.SumFits, ha]
    | processPacket =>
      simp only [RecvSide.SumFits, ha]
      omega

/-- The sums of a step other than `Send`. -/
theorem sumsFit_of_small (hsend : 2 * cfg.sendSize < s32Bound)
    (hrecv : 2 * cfg.recvSize < s32Bound) (w : World cfg) (hl : l.works = true) : w.SumsFit l := by
  cases l with
  | process => exact fun e _ => w.sumFits_of_small hsend hrecv e
  | send | onOut => cases hl
  | close | ret | onIn | onError | take | runRecv | runSend | push => trivial

end World

/-- A receive machine at rest that has not closed has processed all that was received. -/
theorem Reachable.processed_eq {cfg : Config} {w : World cfg} (h : Reachable w)
    (hn : w.recv.state = .recvNone) :
    received w.trace = processed w.trace ∧ w.trace.any Obs.rejected = false := by
  have hi : w.recvItems = [] := h.accounts.recvItems_nil (by rw [hn]; rfl)
  have hworked : w.recv.worked.data = [] :=
    h.accounts.worked_eq_nil (by rw [hi]; nofun) (by rw [hn]; nofun)
  have hends : w.recvView.trace.any Obs.recvEnds = false := by
    cases he : w.recvView.trace.any Obs.recvEnds with
    | false => rfl
    | true =>
      rcases h.recvView_got.ended he with hv | hv | ⟨_, hc⟩
      · cases hi.symm.trans hv
      · cases hi.symm.trans hv
      · cases hn.symm.trans hc
  obtain ⟨hreceived, _, hprocessed, _⟩ := w.recvView_streams
  have htaken := h.recvBytes.taken
  rw [show w.recvView.side.worked.data = [] from hworked, List.append_nil, hprocessed] at htaken
  refine ⟨?_, ?_⟩
  · rw [← hreceived, received_eq_published hends, htaken]
  · cases hr : w.trace.any Obs.rejected with
    | false => rfl
    | true =>
      have hview : w.recvView.trace.any Obs.rejected = true :=
        (any_filter_of (fun o ho => by cases o <;> first | rfl | cases ho) _).trans hr
      cases hn.symm.trans (h.handed.stopped hview).1

/-- A settled sender with nothing left and a receiver that reads nothing and has not closed, with
nothing under way, have processed everything. -/
theorem processed_of_settled {a b : Config} {s : Link a b} (h : (link a b).Reachable s)
    (hl : s.left.Settled) (hflight : s.toRight = [])
    (hsend : s.left.send.state = .sendNone) (hrecv : s.right.recv.state = .recvNone) :
    accepted s.left.trace = processed s.right.trace ∧ s.right.trace.any Obs.rejected = false := by
  obtain ⟨hprocessed, hrejected⟩ := (Link.reachable_right h).processed_eq hrecv
  refine ⟨?_, hrejected⟩
  rw [← hl.handed hsend, (Link.carried h).kernel, hflight, List.append_nil, hprocessed]

/-- **A quiet link has delivered everything.** Both ends are at rest and nothing is under way; the
sender has nothing left and the receiver has not closed. Then every byte that `Send` has accepted
is processed, and packets that the parser recognises have all been handed to the session. -/
theorem quiet_link {a b : Config} {s : Link a b} (h : (link a b).Reachable s)
    (hl : s.left.Resting) (hr : s.right.Resting) (hflight : s.toRight = [])
    (hsend : s.left.send.state = .sendNone) (hrecv : s.right.recv.state = .recvNone) :
    accepted s.left.trace = processed s.right.trace ∧
    ∀ frames, Carries b.parser frames → accepted s.left.trace = frames.flatten →
      packets s.right.trace = frames := by
  have hright := Link.reachable_right h
  have hleft := Link.reachable_left h
  have hasserted : ¬ s.left.Aborts := fun ha => by
    have hbusy := ha.busy hleft
    rw [hsend] at hbusy
    cases hbusy
  obtain ⟨hall, hrejected⟩ :=
    processed_of_settled h (hl.settled hleft hasserted) hflight hsend hrecv
  refine ⟨hall, fun frames hc hframes => ?_⟩
  have hcarried := Link.carried h
  have hstack : ∀ f ∈ s.right.stack, f.isOnRecv = false := by
    rw [hr.stack]
    nofun
  obtain ⟨hsplit, hincomplete⟩ := hright.rest hstack hrejected
  rw [← hall] at hsplit
  have hless : packets s.right.trace <+: frames :=
    hcarried.cut.isPrefix hc (by rw [hframes])
  have hmore : frames <+: packets s.right.trace :=
    hcarried.cut.contains hc (by rw [hframes]) hsplit hincomplete
  exact hless.eq_of_length_le hmore.length_le

/-- A frame of twelve bytes that has come in two pieces. -/
theorem quiet_link_twelve : ∃ s : Link .small .small,
    accepted s.left.trace = Logic.twelve ∧ accepted s.left.trace = processed s.right.trace ∧
      packets s.right.trace = [Logic.twelve] := by
  obtain ⟨s, h, hs⟩ := (link .small .small).run_of_exec (P := fun _ _ => True)
    [.left .ret, .right .ret, .left (.send [1, 0, 0, 0]), .left .take, .left (.runSend [.sent 4]),
      .left .push, .left .process, .left (.send [12, 0, 0, 0]), .left .take,
      .left (.runSend [.sent 4]), .right .onIn, .right .take,
      .right (.runRecv [.data 1 [0, 0, 0, 12]]), .left .push, .left .process,
      .left (.send [3, 0, 0, 0]), .left .take, .left (.runSend [.sent 4]), .left .push,
      .left .process, .right .push, .right .process, .right .onIn, .right .take,
      .right (.runRecv [.data 0 [0, 0, 3, 0, 0, 0]]), .right .push, .right .process, .right .ret]
    (p := fun s => accepted s.left.trace == Logic.twelve && s.left.stack.isEmpty &&
      s.left.worker.items.isEmpty && s.right.stack.isEmpty && s.right.worker.items.isEmpty &&
      s.toRight.isEmpty && s.left.send.state == .sendNone && s.right.recv.state == .recvNone)
    (by decide)
  simp only [Bool.and_eq_true, beq_iff_eq, List.isEmpty_iff] at hs
  obtain ⟨⟨⟨⟨⟨⟨⟨haccepted, hlst⟩, hli⟩, hrst⟩, hri⟩, hflight⟩, hsend⟩, hrecv⟩ := hs
  obtain ⟨hall, hpackets⟩ := quiet_link h (World.resting_of_quiet hlst hli)
    (World.resting_of_quiet hrst hri) hflight hsend hrecv
  refine ⟨s, haccepted, hall, hpackets _ (Logic.Harbor.carries (by decide)) ?_⟩
  rw [haccepted]
  decide

end HyperNet.Net
