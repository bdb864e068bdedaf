import HyperNet.Core.History
import HyperNet.Net.Steps
import Mathlib.Data.List.Basic

/-! # The items of a connection at its worker

`Accounts` ties the items to the states of the two machines: one SEND item while
the send machine is busy, one RECV item while the receive machine is busy,
unless the main thread is in `session->OnRecv` with the result of the request.
It holds in every reachable state, also inside callbacks, for sessions that call
`Send` and `Close` from any callback. -/
namespace HyperNet.Net
open HyperNet.Api HyperNet.Public HyperNet.Core.History HyperNet.Core.Transition

variable {cfg : Config}

/-! ## The invariant -/

def Frame.isOnRecv : Frame → Bool
  | .onRecv _ _ _ => true
  | _ => false

/-- The main thread is in `session->OnRecv`. -/
def World.inOnRecv (w : World cfg) : Bool := w.stack.any Frame.isOnRecv

/-- What an entry of the trace may have measured: buffers are touched while no item of
their direction is at the worker, the worker starts `OnRecv` on an empty buffer,
and `OnClose` finds no item. -/
def Obs.Clean : Obs → Prop
  | .beginSend outstanding _ => outstanding = 0
  | .processPacket outstanding _ => outstanding = 0
  | .onClose outstanding => outstanding = 0
  | .workerRecv offset _ _ => offset = 0
  | _ => True

/-- The invariant. Within an event, `ps` and `pr` say that the main thread holds the
result of a SEND or a RECV request that it has not handled yet. -/
structure Accounts (ps pr : Bool) (w : World cfg) : Prop where
  send : w.sendItems.length + ps.toNat = w.send.state.busy.toNat
  recv : w.recvItems.length + pr.toNat = (w.recv.state.busy && !w.inOnRecv).toNat
  kind : ∀ i ∈ w.worker.items, i.isSend = !i.isRecv
  alone : ∀ pos u again, Frame.onRecv pos u again ∈ w.stack →
    w.stack = [.onRecv pos u again] ∧ w.recv.state.busy = true
  free : pr = true → w.stack = []
  worked : w.recv.worked.data ≠ [] →
    w.recvItems = [.result .recvDone] ∨ w.recv.state = .recvClose ∨ pr = true
  clean : ∀ o ∈ w.trace, o.Clean

/-! ## The worker's list -/

theorem length_items {wk : NetWorker m} (h : ∀ i ∈ wk.items, i.isSend = !i.isRecv) :
    wk.items.length = (wk.items.filter Item.isSend).length +
      (wk.items.filter Item.isRecv).length := by
  rw [List.length_eq_length_filter_add Item.isRecv, Nat.add_comm]
  congr 2
  exact List.filter_congr fun i hi => (h i hi).symm

/-- There is room for one more item while there is at most one. -/
theorem room (cfg : Config) {k : Nat} (h : k ≤ 1) : k < cfg.maxConnection * 2 := by
  have := cfg.worker_pos
  omega

theorem toNat_and_not {k : Nat} {b r : Bool} (h : k + r.toNat = b.toNat) :
    k = (b && !r).toNat := by
  cases b <;> cases r <;> simp_all

theorem not_mem_of_out {w : World cfg} (h : w.inOnRecv = false) {pos u : Nat} {again : Bool} :
    Frame.onRecv pos u again ∉ w.stack := by
  intro hm
  have := List.any_eq_false.mp h _ hm
  exact this rfl

namespace Accounts
variable {ps pr : Bool} {w : World cfg}

theorem length_le (h : Accounts ps pr w) :
    w.worker.items.length + ps.toNat + pr.toNat =
      w.send.state.busy.toNat + (w.recv.state.busy && !w.inOnRecv).toNat := by
  have hl := length_items h.kind
  have hs := h.send
  have hr := h.recv
  unfold World.sendItems at hs
  unfold World.recvItems at hr
  omega

theorem sendItems_nil (h : Accounts ps pr w) (hb : w.send.state.busy = ps) :
    w.sendItems = [] := by
  have := h.send
  rw [hb] at this
  exact List.length_eq_zero_iff.mp (by omega)

theorem recvItems_nil (h : Accounts ps pr w) (hb : (w.recv.state.busy && !w.inOnRecv) = pr) :
    w.recvItems = [] := by
  have := h.recv
  rw [hb] at this
  exact List.length_eq_zero_iff.mp (by omega)

/-- A result in hand, or an item at the worker, is that of a machine that waits for it. -/
theorem send_busy (h : Accounts ps pr w) (hp : ps = true ∨ w.sendItems ≠ []) :
    w.send.state.busy = true := by
  have hs := h.send
  rw [← List.length_pos_iff] at hp
  refine Bool.toNat_eq_one.mp ?_
  have := Bool.toNat_le w.send.state.busy
  rcases hp with rfl | hp
  · simp only [Bool.toNat_true] at hs
    omega
  · omega

theorem recv_busy (h : Accounts ps pr w) (hp : pr = true ∨ w.recvItems ≠ []) :
    w.recv.state.busy = true ∧ w.inOnRecv = false := by
  have hr := h.recv
  rw [← List.length_pos_iff] at hp
  have hone : (w.recv.state.busy && !w.inOnRecv) = true := by
    refine Bool.toNat_eq_one.mp ?_
    have := Bool.toNat_le (w.recv.state.busy && !w.inOnRecv)
    rcases hp with rfl | hp
    · simp only [Bool.toNat_true] at hr
      omega
    · omega
  simpa using hone

/-- The main thread is in `OnRecv` only while the machine waits for it to return. -/
theorem out_of_not_busy (h : Accounts ps pr w) (hb : w.recv.state.busy = false) :
    w.inOnRecv = false := by
  rw [World.inOnRecv, List.any_eq_false]
  intro f hm hf
  cases f with
  | onRecv pos u again =>
    rw [(h.alone pos u again hm).2] at hb
    cases hb
  | onConnected | onError | onDisconnected => cases hf

/-- The working buffer is filled between the worker's `OnRecv` and the event of its result. -/
theorem worked_eq_nil (h : Accounts ps false w) (hi : w.recvItems ≠ [.result .recvDone])
    (hs : w.recv.state ≠ .recvClose) : w.recv.worked.data = [] := by
  by_contra hn
  rcases h.worked hn with hd | hc | hp
  · exact hi hd
  · exact hs hc
  · cases hp

/-- Nothing is at the worker when both machines have closed. -/
theorem items_nil (h : Accounts false false w) (hs : w.send.state = .sendClose)
    (hr : w.recv.state = .recvClose) : w.worker.items = [] := by
  have := h.length_le
  simp only [hs, hr, SendState.busy, RecvState.busy, Bool.toNat_false, Bool.false_and] at this
  exact List.length_eq_zero_iff.mp (by omega)

end Accounts

/-! ## The pieces of an event -/

theorem post_items {wk : NetWorker cfg.maxConnection} {r : WorkRequest}
    (h : wk.items.length ≤ 1) : (wk.post r).items = wk.items ++ [.request r] :=
  NetWorker.items_post (room cfg h)

namespace World

@[simp] theorem releaseCheck_send (w : World cfg) : w.releaseCheck.send = w.send := by
  unfold releaseCheck; split <;> rfl

@[simp] theorem releaseCheck_recv (w : World cfg) : w.releaseCheck.recv = w.recv := by
  unfold releaseCheck; split <;> rfl

@[simp] theorem endPacket_send (w : World cfg) (again ok : Bool) :
    (w.endPacket again ok).send = w.send := by
  cases again <;> cases ok <;> rfl

end World

namespace Accounts
variable {w : World cfg} {pr : Bool}

theorem releaseCheck (h : Accounts false false w) : Accounts false false w.releaseCheck := by
  unfold World.releaseCheck
  split
  · next hc =>
    obtain ⟨hs, hr⟩ := hc
    have hi := h.items_nil hs hr
    have hb : w.recv.state.busy = false := by rw [hr]; rfl
    refine ⟨h.send, ?_, h.kind, ?_, nofun, h.worked, ?_⟩
    · simp [World.onClose, World.recvItems, hi, hb]
    · intro pos u again hm
      rcases List.mem_cons.mp hm with hm | hm
      · cases hm
      · exact absurd hm (not_mem_of_out (h.out_of_not_busy hb))
    · have hclose : (Obs.onClose w.worker.items.length).Clean := by
        rw [hi]
        rfl
      have hall := forall_snoc (forall_snoc h.clean hclose) (a := .onDisconnected) trivial
      simpa [World.onClose] using hall
  · exact h

/-- `BeginSend` is called with no SEND item at the worker, and room for one. -/
theorem free_of_beginSend {e : NetEventType} {t : SendState} (h : Accounts e.isSendResult pr w)
    (ha : w.send.state.onEvent e = .beginSend t) :
    w.sendItems = [] ∧ w.worker.items.length ≤ 1 := by
  have hbusy := (SendState.busy_of_beginSend ha).2
  refine ⟨h.sendItems_nil hbusy, ?_⟩
  have hl := h.length_le
  have hr := Bool.toNat_le (w.recv.state.busy && !w.inOnRecv)
  rw [hbusy] at hl
  omega

/-- `BeginRecv` is called with no RECV item at the worker, and room for one. -/
theorem free_of_beginRecv {e : NetEventType} {t : RecvState}
    (h : Accounts false e.isRecvResult w) (ha : w.recv.state.onEvent e = .beginRecv t) :
    w.recvItems = [] ∧ w.worker.items.length ≤ 1 := by
  obtain ⟨_, hb, hr⟩ := RecvState.busy_of_beginRecv ha
  refine ⟨h.recvItems_nil (by rw [hb, hr]; rfl), ?_⟩
  have hl := h.length_le
  have hs := Bool.toNat_le w.send.state.busy
  rw [hb] at hl
  simp only [Bool.false_and, Bool.toNat_false] at hl
  omega

/-- The send machine handles the event, and its result with it. -/
theorem afterSend {e : NetEventType} {posted : Bool} {s : SendSide cfg.sendSize}
    (h : Accounts e.isSendResult pr w) (hh : w.send.Handles e posted s) :
    Accounts false pr (w.afterSend e posted s) := by
  have hclean : ∀ o ∈ w.trace ++ [.dispatch e], o.Clean := forall_snoc h.clean trivial
  cases hh with
  | stay ha =>
    have hb : w.sendItems.length = w.send.state.busy.toNat := by
      rw [SendState.busy_of_stay ha]
      exact toNat_and_not h.send
    exact ⟨hb, h.recv, h.kind, h.alone, h.free, h.worked, by simpa [World.afterSend] using hclean⟩
  | @change t ha =>
    have hb : w.sendItems.length = t.busy.toNat := by
      rw [SendState.busy_of_change ha]
      exact toNat_and_not h.send
    exact ⟨hb, h.recv, h.kind, h.alone, h.free, h.worked, by simpa [World.afterSend] using hclean⟩
  | full ha =>
    have hb : w.sendItems.length = SendState.sendClose.busy.toNat := by
      rw [h.sendItems_nil (SendState.busy_of_beginSend ha).2]
      rfl
    exact ⟨hb, h.recv, h.kind, h.alone, h.free, h.worked, by simpa [World.afterSend] using hclean⟩
  | @beginSend t b ha _ =>
    obtain ⟨hn, hlen⟩ := h.free_of_beginSend ha
    have ht := (SendState.busy_of_beginSend ha).1
    have hp := post_items (r := .send) hlen
    have hrecv : (w.afterSend e true ⟨t, b, .empty⟩).recvItems = w.recvItems := by
      simp [World.afterSend, World.recvItems, hp, Item.isRecv]
    refine ⟨?_, by rw [hrecv]; exact h.recv, ?_, h.alone, h.free, by rw [hrecv]; exact h.worked, ?_⟩
    · have : w.worker.items.filter Item.isSend = [] := hn
      simp [World.afterSend, World.sendItems, hp, this, ht, Item.isSend]
    · simp only [World.afterSend, if_true, hp, List.mem_append, List.mem_singleton]
      rintro i (hi | rfl)
      · exact h.kind i hi
      · rfl
    · exact forall_snoc hclean (by simp [Obs.Clean, hn])

end Accounts

/-! ## The receive machine -/

/-- No RECV item is at the worker and no `OnRecv` is on the stack: the main thread has the
receive buffers. -/
structure Owned (w : World cfg) : Prop where
  send : w.sendItems.length = w.send.state.busy.toNat
  recv : w.recvItems = []
  kind : ∀ i ∈ w.worker.items, i.isSend = !i.isRecv
  out : w.inOnRecv = false
  clean : ∀ o ∈ w.trace, o.Clean

namespace Owned
variable {w : World cfg}

theorem length_le (h : Owned w) : w.worker.items.length ≤ 1 := by
  have hl := length_items h.kind
  have hs := h.send
  have hr := h.recv
  have hb := Bool.toNat_le w.send.state.busy
  unfold World.sendItems at hs
  unfold World.recvItems at hr
  rw [hs, hr] at hl
  simp only [List.length_nil] at hl
  omega

/-- The machine goes to a state that waits for nothing. -/
theorem settle (h : Owned w) {t : RecvState} (ht : t.busy = false)
    (hw : w.recv.worked.data = [] ∨ t = .recvClose) :
    Accounts false false (w.changeRecvState t) where
  send := h.send
  recv := by
    have : (w.changeRecvState t).recvItems = [] := h.recv
    rw [this]
    simp [World.changeRecvState, ht]
  kind := h.kind
  alone _ _ _ hm := absurd hm (not_mem_of_out h.out)
  free := nofun
  worked hn := .inr (.inl (hw.resolve_left hn))
  clean := h.clean

/-- The machine asks the worker for more. -/
theorem beginRecv (h : Owned w) {t : RecvState} (ht : t.busy = true)
    (hw : w.recv.worked.data = []) :
    Accounts false false (w.beginRecv.changeRecvState t) := by
  have hp := post_items (r := .recv) h.length_le
  have hr : w.worker.items.filter Item.isRecv = [] := h.recv
  refine ⟨?_, ?_, ?_, ?_, nofun, ?_, ?_⟩
  · have : (w.beginRecv.changeRecvState t).sendItems = w.sendItems := by
      simp [World.beginRecv, World.changeRecvState, World.sendItems, hp, Item.isSend]
    rw [this]
    exact h.send
  · have hout : (w.beginRecv.changeRecvState t).inOnRecv = false := h.out
    rw [hout]
    simp [World.beginRecv, World.changeRecvState, World.recvItems, hp, hr, ht, Item.isRecv]
  · simp only [World.beginRecv, World.changeRecvState, hp, List.mem_append, List.mem_singleton]
    rintro i (hi | rfl)
    · exact h.kind i hi
    · rfl
  · exact fun _ _ _ hm => absurd hm (not_mem_of_out h.out)
  · exact fun hn => absurd hw hn
  · exact forall_snoc h.clean trivial

/-- `ProcessPacket` goes on, into the session or to its return. -/
theorem runPacket (h : Owned w) (hst : w.stack = []) {again : Bool}
    {o : Parsing × RecvSide cfg.recvSize} (hb : o.2.state.busy = true)
    (hw : o.1 = .done false ∨ o.2.worked.data = []) :
    Accounts false false (w.runPacket again o) := by
  obtain ⟨parsing, r⟩ := o
  cases parsing with
  | onRecv pos u =>
    refine ⟨h.send, ?_, h.kind, ?_, nofun, ?_, forall_snoc h.clean trivial⟩
    · have hr : (w.runPacket again (.onRecv pos u, r)).recvItems = [] := h.recv
      rw [hr]
      simp [World.runPacket, World.inOnRecv, Frame.isOnRecv]
    · intro pos' u' again' hm
      simp only [World.runPacket, hst, List.mem_singleton] at hm ⊢
      rw [hm]
      exact ⟨rfl, hb⟩
    · exact fun hn => absurd (hw.resolve_left nofun) hn
  | done ok =>
    have hd : Owned { w with recv := r, trace := w.trace ++ [.packetsDone ok] } :=
      ⟨h.send, h.recv, h.kind, h.out, forall_snoc h.clean trivial⟩
    refine Accounts.releaseCheck ?_
    cases ok with
    | false => exact hd.settle rfl (.inr rfl)
    | true =>
      have hw' := hw.resolve_left nofun
      cases again with
      | false => exact hd.settle rfl (.inl hw')
      | true => exact hd.beginRecv rfl hw'

end Owned

theorem RecvSide.Parses.keeps {n : Nat} {p : PacketParser} {pos : Nat} {r : RecvSide n}
    {o : Parsing × RecvSide n} (h : r.Parses p pos o) :
    o.2.state = r.state ∧ o.2.worked = r.worked := by
  cases h <;> exact ⟨rfl, rfl⟩

theorem RecvSide.Processes.keeps {n : Nat} {p : PacketParser} {r : RecvSide n}
    {o : Parsing × RecvSide n} (h : r.Processes p o) :
    o.2.state = r.state ∧ (o.1 = .done false ∨ o.2.worked.data = []) := by
  cases h with
  | nothing hw => exact ⟨rfl, .inr hw⟩
  | full => exact ⟨rfl, .inl rfl⟩
  | @parse b hne hx hb =>
    obtain ⟨hs, hw⟩ := (RecvSide.parse_cases p 0 { r with used := b, worked := .empty }).keeps
    exact ⟨hs, .inr (by rw [hw]; rfl)⟩

namespace Accounts
variable {w w' : World cfg} {e : NetEventType}

/-- With a result in hand, the receive machine is waiting for it. -/
theorem owned (h : Accounts false true w) : Owned w ∧ w.stack = [] ∧ w.recv.state.busy = true := by
  obtain ⟨hb, hout⟩ := h.recv_busy (.inl rfl)
  have hi : w.recvItems = [] := h.recvItems_nil (by rw [hb, hout]; rfl)
  exact ⟨⟨h.send, hi, h.kind, hout, h.clean⟩, h.free rfl, hb⟩

/-- The receive machine handles the event, and its result with it. -/
theorem recvHandles (h : Accounts false e.isRecvResult w) (hh : w.RecvHandles e w') :
    Accounts false false w' := by
  cases hh with
  | stay ha =>
    refine releaseCheck ?_
    cases hr : e.isRecvResult with
    | false => rwa [hr] at h
    | true =>
      rw [hr] at h
      have hb := RecvState.busy_of_stay ha
      rw [h.owned.2.2, hr] at hb
      cases hb
  | @change t ha =>
    refine releaseCheck ?_
    have hb := RecvState.busy_of_change ha
    cases hr : e.isRecvResult with
    | true =>
      rw [hr] at h
      have ht := RecvState.change_of_result ha hr
      exact h.owned.1.settle (by rw [ht]; rfl) (.inr ht)
    | false =>
      rw [hr] at h hb
      rw [Bool.not_false, Bool.and_true] at hb
      refine ⟨h.send, ?_, h.kind, ?_, nofun, ?_, h.clean⟩
      · change w.recvItems.length + 0 = (t.busy && !w.inOnRecv).toNat
        rw [hb]
        exact h.recv
      · intro pos u again hm
        obtain ⟨hs, hbusy⟩ := h.alone pos u again hm
        exact ⟨hs, hb.trans hbusy⟩
      · intro hn
        rcases h.worked hn with hi | hc | hp
        · exact .inl hi
        · exact absurd hc (RecvState.not_close_of_change ha)
        · cases hp
  | beginRecv ha =>
    have hi := (h.free_of_beginRecv ha).1
    obtain ⟨ht, hb, hr⟩ := RecvState.busy_of_beginRecv ha
    rw [hr] at h
    have hw : w.recv.worked.data = [] :=
      h.worked_eq_nil (by rw [hi]; simp) (by rintro hc; rw [hc] at ha; cases ha)
    exact releaseCheck (Owned.beginRecv ⟨h.send, hi, h.kind, h.out_of_not_busy hb, h.clean⟩ ht hw)
  | @processPacket again o ha ho =>
    have he := (RecvState.processPacket_cases ha).1
    rw [he] at h
    obtain ⟨hown, hst, hb⟩ := h.owned
    obtain ⟨hs, hw⟩ := ho.keeps
    have hclean : (Obs.processPacket w.recvItems.length w.recv.taken).Clean := by
      rw [hown.recv]
      rfl
    have hlog : Owned (w.log (.processPacket w.recvItems.length w.recv.taken)) :=
      ⟨hown.send, hown.recv, hown.kind, hown.out, forall_snoc h.clean hclean⟩
    exact hlog.runPacket hst (by rw [hs]; exact hb) hw

end Accounts

/-! ## The steps -/

theorem recvEvent_isRecv {ret : WRet} {e : NetEventType} (h : recvEvent ret = some e) :
    e.isRecvResult = true ∧ e.isSendResult = false := by
  cases ret <;> cases h <;> exact ⟨rfl, rfl⟩

theorem sendEvent_isSend {ret : WRet} {e : NetEventType} (h : sendEvent ret = some e) :
    e.isSendResult = true ∧ e.isRecvResult = false := by
  cases ret <;> cases h <;> exact ⟨rfl, rfl⟩

/-- The request that the worker executes is the only item of its direction, and its
result takes its place. -/
theorem finish_items {wk : NetWorker m} {r : WorkRequest} {e : NetEventType} {p : Item → Bool}
    (hx : wk.executing = some (.request r)) (hr : p (.request r) = true)
    (he : p (.result e) = true) (hl : (wk.items.filter p).length ≤ 1) :
    wk.items.filter p = [.request r] ∧ (wk.finish e).items.filter p = [.result e] := by
  obtain ⟨older, newer, hi, hf⟩ := NetWorker.items_finish e hx
  rw [hi] at hl ⊢
  rw [hf]
  simp only [List.filter_append, List.filter_cons, hr, he, if_true, List.length_append,
    List.length_cons] at hl ⊢
  have ho : older.filter p = [] := List.length_eq_zero_iff.mp (by omega)
  have hn : newer.filter p = [] := List.length_eq_zero_iff.mp (by omega)
  simp [ho, hn]

/-- Items of the other direction stay. -/
theorem finish_other {wk : NetWorker m} {r : WorkRequest} {e : NetEventType} {p : Item → Bool}
    (hx : wk.executing = some (.request r)) (hr : p (.request r) = false)
    (he : p (.result e) = false) : (wk.finish e).items.filter p = wk.items.filter p := by
  obtain ⟨older, newer, hi, hf⟩ := NetWorker.items_finish e hx
  simp [hi, hf, hr, he]

theorem finish_kind {wk : NetWorker m} {r : WorkRequest} {e : NetEventType}
    (hx : wk.executing = some (.request r)) (h : ∀ i ∈ wk.items, i.isSend = !i.isRecv)
    (he : e.isSendResult = !e.isRecvResult) :
    ∀ i ∈ (wk.finish e).items, i.isSend = !i.isRecv := by
  obtain ⟨older, newer, hi, hf⟩ := NetWorker.items_finish e hx
  rw [hi] at h
  rw [hf]
  intro i hm
  rcases List.mem_append.mp hm with hm | hm
  · exact h i (List.mem_append_left _ hm)
  · rcases List.mem_cons.mp hm with rfl | hm
    · exact he
    · exact h i (List.mem_append_right _ (List.mem_cons_of_mem _ hm))

namespace Accounts
variable {w w' : World cfg}

/-- A callback other than `OnRecv` leaves the stack. -/
theorem pop (h : Accounts false false w) {f : Frame} {fs : List Frame} (hs : w.stack = f :: fs)
    (hf : f.isOnRecv = false) : Accounts false false { w with stack := fs } := by
  have hout : (World.mk w.send w.recv w.worker w.pipe w.released fs w.trace).inOnRecv =
      w.inOnRecv := by
    simp [World.inOnRecv, hs, hf]
  refine ⟨h.send, ?_, h.kind, ?_, nofun, h.worked, h.clean⟩
  · rw [hout]
    exact h.recv
  · intro pos u again hm
    obtain ⟨he, _⟩ := h.alone pos u again (by rw [hs]; exact List.mem_cons_of_mem _ hm)
    rw [hs] at he
    rw [(List.cons.inj he).1] at hf
    cases hf

/-- Another entry in the trace. -/
theorem log (h : Accounts ps pr w) {o : Obs} (ho : o.Clean) : Accounts ps pr (w.log o) where
  send := h.send
  recv := h.recv
  kind := h.kind
  alone := h.alone
  free := h.free
  worked := h.worked
  clean := forall_snoc h.clean ho

/-- What an event starts from. -/
theorem raises (h : Accounts false false w) {l : Label} {e : NetEventType}
    (hr : w.Raises l e w') : Accounts e.isSendResult e.isRecvResult w' := by
  cases hr with
  | @send context b =>
    have hl := h.log (o := .send context true) trivial
    exact ⟨hl.send, hl.recv, hl.kind, hl.alone, nofun, hl.worked, hl.clean⟩
  | overflow => exact h.log trivial
  | close => exact h.log trivial
  | onIn => exact h
  | onOut => exact h
  | onError hs => exact h.pop hs rfl
  | @result e wk hs hr =>
    have hi := NetWorker.items_readResult hr
    have hk : e.isSendResult = !e.isRecvResult := h.kind (.result e) (by simp [hi])
    have hsend := h.send
    have hrecv := h.recv
    have hworked := h.worked
    simp only [World.sendItems, World.recvItems, hi, List.filter_cons, Item.isSend,
      Item.isRecv] at hsend hrecv hworked
    refine ⟨?_, ?_, fun i hm => h.kind i (by rw [hi]; exact List.mem_cons_of_mem _ hm), h.alone,
      fun _ => hs, ?_, h.clean⟩
    · cases he : e.isSendResult <;> simpa [he, World.sendItems] using hsend
    · cases he : e.isRecvResult <;> simp [he] at hrecv <;>
        simpa [World.recvItems, World.inOnRecv] using hrecv
    · intro hn
      cases he : e.isRecvResult with
      | true => exact .inr (.inr rfl)
      | false => simpa [he, World.recvItems] using hworked hn

theorem onEvent (h : Accounts e.isSendResult e.isRecvResult w) (he : w.onEvent e = some w') :
    Accounts false false w' := by
  obtain ⟨posted, s, hs, hr⟩ := World.onEvent_cases he
  exact (h.afterSend hs).recvHandles hr

theorem sendItems_le (h : Accounts false false w) : w.sendItems.length ≤ 1 := by
  have := h.send
  have := Bool.toNat_le w.send.state.busy
  simp only [Bool.toNat_false] at *
  omega

theorem recvItems_le (h : Accounts false false w) : w.recvItems.length ≤ 1 := by
  have := h.recv
  have := Bool.toNat_le (w.recv.state.busy && !w.inOnRecv)
  simp only [Bool.toNat_false] at *
  omega

theorem items_le (h : Accounts false false w) :
    w.worker.items.length ≤ cfg.maxConnection * 2 := by
  have := h.length_le
  have := Bool.toNat_le w.send.state.busy
  have := Bool.toNat_le (w.recv.state.busy && !w.inOnRecv)
  have := cfg.worker_pos
  simp only [Bool.toNat_false] at *
  omega

/-- In `session->OnRecv` the main thread has the receive buffers, and has taken all that was
in the working one. -/
theorem in_onRecv (h : Accounts false false w) {pos u : Nat} {again : Bool} {fs : List Frame}
    (hst : w.stack = .onRecv pos u again :: fs) :
    fs = [] ∧ w.recvItems = [] ∧ w.worker.items.length ≤ 1 ∧ w.recv.worked.data = [] ∧
      w.recv.state.busy = true := by
  obtain ⟨he, hb⟩ := h.alone pos u again (by rw [hst]; exact List.mem_cons_self)
  rw [hst] at he
  have hout : (w.recv.state.busy && !w.inOnRecv) = false := by
    simp [World.inOnRecv, hst, Frame.isOnRecv]
  have hi := h.recvItems_nil hout
  refine ⟨(List.cons.inj he).2, hi, ?_, ?_, hb⟩
  · have hl := h.length_le
    have hs := Bool.toNat_le w.send.state.busy
    rw [hout] at hl
    simp only [Bool.toNat_false] at hl
    omega
  · exact h.worked_eq_nil (by rw [hi]; simp) (by rintro hc; rw [hc] at hb; cases hb)

/-- The worker runs `OnRecv` on an empty buffer. -/
theorem worked_nil (h : Accounts false false w) (hx : w.worker.executing = some (.request .recv)) :
    w.recvItems = [.request .recv] ∧ w.recv.worked.data = [] := by
  have hi : w.recvItems = [.request .recv] :=
    (finish_items (e := .recvDone) hx rfl rfl h.recvItems_le).1
  have hb := (h.recv_busy (.inr (by rw [hi]; simp))).1
  exact ⟨hi, h.worked_eq_nil (by rw [hi]; simp) (by rintro hc; rw [hc] at hb; cases hb)⟩

/-- The invariant is kept by every step. -/
theorem step (h : Accounts false false w) {l : Label} (hs : w.step l = some w') :
    Accounts false false w' := by
  have queue : ∀ wk : NetWorker cfg.maxConnection, wk.items = w.worker.items →
      Accounts false false { w with worker := wk } := by
    intro wk hi
    refine ⟨?_, ?_, by rw [hi]; exact h.kind, h.alone, nofun, ?_, h.clean⟩
    · simpa [World.sendItems, hi] using h.send
    · simpa [World.recvItems, World.inOnRecv, hi] using h.recv
    · simpa [World.recvItems, hi] using h.worked
  cases World.step_cases hs with
  | event hr he => exact (h.raises hr).onEvent he
  | detached => exact h
  | onConnected hst => exact h.pop hst rfl
  | @onRecv pos u again fs hst =>
    obtain ⟨hfs, hi, _, hw, hb⟩ := h.in_onRecv hst
    obtain ⟨hstate, hworked⟩ := (RecvSide.parse_cases cfg.parser (pos + u) w.recv).keeps
    have hout : (World.mk w.send w.recv w.worker w.pipe w.released fs w.trace).inOnRecv =
        false := by
      simp [World.inOnRecv, hfs]
    have hown : Owned (World.mk w.send w.recv w.worker w.pipe w.released fs w.trace) :=
      ⟨h.send, hi, h.kind, hout, h.clean⟩
    exact hown.runPacket hfs (by rw [hstate]; exact hb)
      (.inr (by rw [hworked]; exact hw))
  | onDisconnected hst =>
    have hl := (h.pop hst rfl).log (o := .release) trivial
    exact ⟨hl.send, hl.recv, hl.kind, hl.alone, nofun, hl.worked, hl.clean⟩
  | @onError errno hi =>
    have hst := (World.idle_iff.mp hi).1
    have hl := h.log (o := .onError errno) trivial
    refine ⟨hl.send, ?_, hl.kind, ?_, nofun, hl.worked, hl.clean⟩
    · simpa [World.recvItems, World.inOnRecv, hst, Frame.isOnRecv] using h.recv
    · intro pos u again hm
      simp [hst] at hm
  | take hq => exact queue _ (NetWorker.items_take hq)
  | @runRecv rs ret b bytes e hx ho he =>
    obtain ⟨hrecv, hsend⟩ := recvEvent_isRecv he
    obtain ⟨hi, hi'⟩ := finish_items (e := e) hx rfl hrecv h.recvItems_le
    obtain ⟨_, hw⟩ := h.worked_nil hx
    obtain ⟨_, _, hkeep⟩ := onRecv_spec ho
    have hlog := h.log (o := .workerRecv w.recv.worked.offset bytes ret)
      (Buffer.offset_eq_zero.mpr hw)
    refine ⟨?_, ?_, finish_kind hx h.kind (by rw [hsend, hrecv]; rfl), h.alone, nofun, ?_,
      hlog.clean⟩
    · have := finish_other (p := Item.isSend) (e := e) hx rfl hsend
      simpa [World.sendItems, this] using h.send
    · have hr := h.recv
      have hcount : w.recvItems.length = 1 := congrArg List.length hi
      rw [hcount] at hr
      simpa [World.recvItems, World.inOnRecv, hi'] using hr
    · intro hn
      by_cases hd : ret = .done
      · subst hd
        cases he
        exact .inl hi'
      · rw [hkeep hd] at hn
        exact absurd hw hn
  | @runSend rs ret b bytes e hx ho he =>
    obtain ⟨hsend, hrecv⟩ := sendEvent_isSend he
    obtain ⟨hi, hi'⟩ := finish_items (e := e) hx rfl hsend h.sendItems_le
    have hother := finish_other (p := Item.isRecv) (e := e) hx rfl hrecv
    have hlog := h.log (o := .workerSend w.send.worked.offset bytes ret) trivial
    refine ⟨?_, ?_, finish_kind hx h.kind (by rw [hsend, hrecv]; rfl), h.alone, nofun, ?_,
      hlog.clean⟩
    · have hs := h.send
      have hcount : w.sendItems.length = 1 := congrArg List.length hi
      rw [hcount] at hs
      simpa [World.sendItems, hi'] using hs
    · simpa [World.recvItems, World.inOnRecv, hother] using h.recv
    · simpa [World.recvItems, hother] using h.worked
  | push hq => exact queue _ (NetWorker.items_pushResult hq h.items_le)

end Accounts

theorem accounts_init (cfg : Config) : Accounts false false (World.init cfg) where
  send := by simp [World.init, World.sendItems, SendState.busy]
  recv := by simp [World.init, World.recvItems, RecvState.busy]
  kind := by simp [World.init]
  alone := by simp [World.init]
  free := nofun
  worked := by simp [World.init]
  clean := by simp [World.init, Obs.Clean]

/-- The items follow the machines in every reachable state. -/
theorem Reachable.accounts {w : World cfg} (h : Reachable w) : Accounts false false w :=
  h.invariant (accounts_init cfg) fun _ _ _ _ ih hs => ih.step hs

/-- The discipline of the two working buffers. Between events there is one item for each
machine that waits for one and no other; and throughout, `BeginSend`, `ProcessPacket`,
`OnRecv` and `OnClose` find of the items what the worker's thread needs them to. -/
theorem one_item_per_direction {w : World cfg} (h : Reachable w) :
    (w.stack = [] →
      w.sendItems.length ≤ 1 ∧ w.recvItems.length ≤ 1 ∧
      (∀ i ∈ w.worker.items, i.isSend = !i.isRecv) ∧
      (w.sendItems ≠ [] ↔ w.send.state ∈ [SendState.sending, .sendingWait, .sendingReady,
        .sendingReadyWait, .sendingWaitClose, .sendWaitClose]) ∧
      (w.recvItems ≠ [] ↔ w.recv.state ∈ [RecvState.recving, .recvingWait, .recvWaitClose])) ∧
    ∀ o ∈ w.trace, o.Clean := by
  have hacc := h.accounts
  refine ⟨fun hst => ⟨hacc.sendItems_le, hacc.recvItems_le, hacc.kind, ?_, ?_⟩, hacc.clean⟩
  · rw [← List.length_pos_iff, ← SendState.busy_iff]
    have hs := hacc.send
    cases hb : w.send.state.busy <;> simp_all
  · rw [← List.length_pos_iff, ← RecvState.busy_iff]
    have hr := hacc.recv
    have hout : w.inOnRecv = false := by simp [World.inOnRecv, hst]
    cases hb : w.recv.state.busy <;> simp_all

theorem one_item_per_direction_small : ∃ w : World .small,
    w.stack = [] ∧ w.sendItems.length = 1 ∧ w.recvItems.length = 1 ∧
      ∀ o ∈ w.trace, o.Clean := by
  obtain ⟨w, h, hw⟩ := (system .small).run_of_exec (P := fun _ _ => True)
    [.ret, .send [1], .onIn]
    (p := fun w => w.stack.isEmpty && w.sendItems.length == 1 && w.recvItems.length == 1)
    (by decide)
  simp only [Bool.and_eq_true, List.isEmpty_iff, beq_iff_eq] at hw
  exact ⟨w, hw.1.1, hw.1.2, hw.2, (one_item_per_direction h).2⟩

end HyperNet.Net
