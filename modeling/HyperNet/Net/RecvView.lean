import HyperNet.Net.Items

/-! # The receive side of a connection on its own

The counterpart of SendView: one machine, its two buffers, the RECV items, the
`OnRecv` that the main thread may be in, and the entries of the trace about
them. Here a step can end inside `ProcessPacket` and another one resume it. -/
namespace HyperNet.Net
open HyperNet.Api HyperNet.Public HyperNet.Core.Transition

/-- The entries of the trace about the receive direction. -/
def Obs.ofRecv : Obs → Bool
  | .dispatch _ | .beginRecv | .processPacket _ _ | .packetsDone _ | .onRecv _
  | .workerRecv _ _ _ => true
  | _ => false

structure RecvView (n : Nat) where
  side : RecvSide n
  items : List Item
  frames : List Frame
  trace : List Obs

def World.recvView {cfg : Config} (w : World cfg) : RecvView cfg.recvSize where
  side := w.recv
  items := w.recvItems
  frames := w.stack.filter Frame.isOnRecv
  trace := w.trace.filter Obs.ofRecv

namespace RecvView
variable {n : Nat}

def log (o : Obs) (v : RecvView n) : RecvView n := { v with trace := v.trace ++ [o] }

def changeRecvState (s : RecvState) (v : RecvView n) : RecvView n := { v with side.state := s }

def beginRecv (v : RecvView n) : RecvView n :=
  { v with items := [.request .recv], trace := v.trace ++ [.beginRecv] }

/-- `endPacket`, without the release. -/
def endPacket (again ok : Bool) (v : RecvView n) : RecvView n :=
  if ok then
    if again then v.beginRecv.changeRecvState .recving else v.changeRecvState .recvNone
  else v.changeRecvState .recvClose

def runPacket (again : Bool) (o : Parsing × RecvSide n) (v : RecvView n) : RecvView n :=
  match o.1 with
  | .onRecv pos u => { v with
      side := o.2
      frames := [.onRecv pos u again]
      trace := v.trace ++ [.onRecv ((o.2.used.data.drop pos).take u)] }
  | .done ok => endPacket again ok { v with
      side := o.2, trace := v.trace ++ [.packetsDone ok] }

/-- What reaches the machine with an event. -/
inductive Raises (next : Option NetEventType) (v : RecvView n) :
    Label → NetEventType → RecvView n → Prop
  | result {e : NetEventType} (he : e.isRecvResult = true) (hn : next = some e)
      (hi : v.items = [.result e]) (hf : v.frames = []) :
      Raises next v .process e { v with items := [] }
  | other {l : Label} {e : NetEventType} (he : e.isRecvResult = false)
      (hl : l = .onIn ↔ e = .recv) : Raises next v l e v

/-- The machine handles an event. -/
inductive Handles (p : PacketParser) (v : RecvView n) (e : NetEventType) : RecvView n → Prop
  | stay (h : v.side.state.onEvent e = .stay) : Handles p v e (v.log (.dispatch e))
  | change {t : RecvState} (h : v.side.state.onEvent e = .change t) :
      Handles p v e ((v.log (.dispatch e)).changeRecvState t)
  | beginRecv {t : RecvState} (h : v.side.state.onEvent e = .beginRecv t) (hi : v.items = []) :
      Handles p v e ((v.log (.dispatch e)).beginRecv.changeRecvState t)
  | processPacket {again : Bool} {o : Parsing × RecvSide n}
      (h : v.side.state.onEvent e = .processPacket again) (ho : v.side.Processes p o)
      (hi : v.items = []) (hf : v.frames = []) :
      Handles p v e
        (((v.log (.dispatch e)).log (.processPacket 0 v.side.taken)).runPacket again o)

/-- One step, by the label of the step of the whole. -/
inductive Step (p : PacketParser) (next : Option NetEventType) (v : RecvView n) :
    Label → RecvView n → Prop
  | quiet {l : Label} (hl : l ≠ .onIn ∧ ∀ rs, l ≠ .runRecv rs) : Step p next v l v
  | event {l : Label} {e : NetEventType} {v₀ v' : RecvView n} (hr : v.Raises next l e v₀)
      (hh : v₀.Handles p e v') : Step p next v l v'
  | resume {pos u : Nat} {again : Bool} (hf : v.frames = [.onRecv pos u again])
      (hi : v.items = []) :
      Step p next v .ret (runPacket again (v.side.parse p (pos + u)) { v with frames := [] })
  | run {rs : List RecvRes} {ret : WRet} {b : Buffer n} {bytes : List UInt8} {e : NetEventType}
      (hi : v.items = [.request .recv]) (hf : v.frames = []) (hw : v.side.worked.data = [])
      (ho : onRecv v.side.worked rs = (ret, b, bytes)) (he : recvEvent ret = some e) :
      Step p next v (.runRecv rs) { v with
        side.worked := b, items := [.result e], trace := v.trace ++ [.workerRecv 0 bytes ret] }

end RecvView

/-! ## The steps of the whole are steps of the part -/

namespace World
variable {cfg : Config} {w w' : World cfg} {e : NetEventType}

@[simp] theorem recvView_releaseCheck (w : World cfg) : w.releaseCheck.recvView = w.recvView := by
  unfold releaseCheck
  split
  · simp [onClose, recvView, recvItems, Obs.ofRecv, Frame.isOnRecv]
  · rfl

theorem recvView_beginRecv (hl : w.worker.items.length ≤ 1) (hr : w.recvItems = [])
    (t : RecvState) :
    (w.beginRecv.changeRecvState t).recvView = w.recvView.beginRecv.changeRecvState t := by
  have hf : w.worker.items.filter Item.isRecv = [] := hr
  simp [recvView, beginRecv, changeRecvState, RecvView.beginRecv, RecvView.changeRecvState,
    recvItems, post_items hl, hf, Item.isRecv, Obs.ofRecv]

theorem recvView_runPacket (hl : w.worker.items.length ≤ 1) (hr : w.recvItems = [])
    (hst : w.stack = []) (again : Bool) (o : Parsing × RecvSide cfg.recvSize) :
    (w.runPacket again o).recvView = w.recvView.runPacket again o := by
  obtain ⟨parsing, r⟩ := o
  cases parsing with
  | onRecv pos u =>
    simp [runPacket, recvView, RecvView.runPacket, recvItems, hst, Frame.isOnRecv, Obs.ofRecv]
  | done ok =>
    have hv : recvView { w with recv := r, trace := w.trace ++ [.packetsDone ok] } =
        { w.recvView with side := r, trace := w.recvView.trace ++ [.packetsDone ok] } := by
      simp [recvView, recvItems, Obs.ofRecv]
    refine (recvView_releaseCheck _).trans ?_
    simp only [RecvView.runPacket, ← hv]
    cases ok with
    | false => rfl
    | true =>
      cases again with
      | false => rfl
      | true =>
        exact recvView_beginRecv
          (w := { w with recv := r, trace := w.trace ++ [.packetsDone true] }) hl hr _

end World

namespace Accounts
variable {cfg : Config} {w w' : World cfg} {e : NetEventType}

/-- The send machine adds to the trace what it was given and nothing else here. -/
theorem recvView_afterSend {pr posted : Bool} {s : SendSide cfg.sendSize}
    (h : Accounts e.isSendResult pr w) (hh : w.send.Handles e posted s) :
    (w.afterSend e posted s).recvView = w.recvView.log (.dispatch e) := by
  cases hh with
  | stay | change | full =>
    simp [World.afterSend, World.recvView, RecvView.log, World.recvItems, Obs.ofRecv]
  | beginSend ha _ =>
    simp [World.afterSend, World.recvView, RecvView.log, World.recvItems, List.filter_cons,
      post_items (h.free_of_beginSend ha).2, Item.isRecv, Obs.ofRecv]

theorem frames_nil {ps pr : Bool} (h : Accounts ps pr w) (hb : w.recv.state.busy = false) :
    w.stack.filter Frame.isOnRecv = [] := by
  rw [List.filter_eq_nil_iff]
  exact List.any_eq_false.mp (h.out_of_not_busy hb)

/-- With a RECV item at the worker the main thread is not in `OnRecv`. -/
theorem frames_of_item (h : Accounts false false w) (hi : w.recvItems ≠ []) :
    w.stack.filter Frame.isOnRecv = [] := by
  rw [List.filter_eq_nil_iff]
  exact List.any_eq_false.mp (h.recv_busy (.inr hi)).2

/-- The receive machine's part of an event. -/
theorem recvView_recvHandles {w₀ : World cfg} (h : Accounts false e.isRecvResult w)
    (hv : w.recvView = w₀.recvView.log (.dispatch e)) (hh : w.RecvHandles e w') :
    w₀.recvView.Handles cfg.parser e w'.recvView := by
  have hside : w₀.recvView.side = w.recv := (congrArg RecvView.side hv).symm
  have hitems : w₀.recvView.items = w.recvItems := (congrArg RecvView.items hv).symm
  have hframes : w₀.recvView.frames = w.recvView.frames := (congrArg RecvView.frames hv).symm
  cases hh with
  | stay ha =>
    rw [World.recvView_releaseCheck, hv]
    exact .stay (by rw [hside]; exact ha)
  | @change t ha =>
    rw [World.recvView_releaseCheck]
    change RecvView.Handles _ _ _ (w.recvView.changeRecvState t)
    rw [hv]
    exact .change (by rw [hside]; exact ha)
  | @beginRecv t ha =>
    obtain ⟨hi, hl⟩ := h.free_of_beginRecv ha
    rw [World.recvView_releaseCheck, World.recvView_beginRecv hl hi, hv]
    exact .beginRecv (by rw [hside]; exact ha) (hitems.trans hi)
  | @processPacket again o ha ho =>
    rw [(RecvState.processPacket_cases ha).1] at h
    obtain ⟨hown, hst, _⟩ := h.owned
    have hlog : (w.log (.processPacket w.recvItems.length w.recv.taken)).recvView =
        (w₀.recvView.log (.dispatch e)).log (.processPacket 0 w₀.recvView.side.taken) := by
      rw [hside, ← hv]
      simp [World.log, World.recvView, RecvView.log, World.recvItems, List.filter_cons,
        show w.worker.items.filter Item.isRecv = [] from hown.recv, Obs.ofRecv]
    have hrun := World.recvView_runPacket (w := w.log (.processPacket w.recvItems.length
      w.recv.taken)) hown.length_le hown.recv hst again o
    rw [hrun, hlog]
    refine .processPacket (by rw [hside]; exact ha) (by rw [hside]; exact ho)
      (hitems.trans hown.recv) ?_
    rw [hframes]
    simp [World.recvView, hst]

/-- What an event starts from, seen from the receive side. -/
theorem recvView_raises (h : Accounts false false w) {l : Label} {w₀ : World cfg}
    (hr : w.Raises l e w₀) : w.recvView.Raises w.nextResult l e w₀.recvView := by
  have other : ∀ u : World cfg, u.recvView = w.recvView → e.isRecvResult = false →
      (l = .onIn ↔ e = .recv) → w.recvView.Raises w.nextResult l e u.recvView := by
    intro u hu he hl
    rw [hu]
    exact .other he hl
  cases hr with
  | send => exact other _ (by simp [World.recvView, World.recvItems, Obs.ofRecv]) rfl (by simp)
  | overflow =>
    exact other _ (by simp [World.recvView, World.recvItems, World.log, Obs.ofRecv]) rfl (by simp)
  | close =>
    exact other _ (by simp [World.recvView, World.recvItems, World.log, Obs.ofRecv]) rfl (by simp)
  | onIn => exact other _ rfl rfl (by simp)
  | onOut => exact other _ rfl rfl (by simp)
  | onError hst =>
    exact other _ (by simp [World.recvView, World.recvItems, hst, Frame.isOnRecv]) rfl (by simp)
  | @result e wk hst hq =>
    have hi := NetWorker.items_readResult hq
    cases hb : e.isRecvResult with
    | true =>
      have hl := h.recvItems_le
      simp only [World.recvItems, hi, List.filter_cons, Item.isRecv, hb, if_true,
        List.length_cons] at hl
      have hn : wk.items.filter Item.isRecv = [] := List.length_eq_zero_iff.mp (by omega)
      have hv : w.recvItems = [.result e] := by
        simp [World.recvItems, hi, Item.isRecv, hb, hn]
      have hnext : w.nextResult = some e := by rw [World.nextResult, hq]; rfl
      have : w.recvView.Raises w.nextResult .process e _ :=
        .result hb hnext hv (by simp [World.recvView, hst])
      simpa [World.recvView, World.recvItems, hn] using this
    | false =>
      refine other _ (by simp [World.recvView, World.recvItems, hi, Item.isRecv, hb]) hb ?_
      refine ⟨by simp, ?_⟩
      rintro rfl
      have := h.kind (.result .recv) (by simp [hi])
      cases this

/-- A step of the connection is a step of its receive side. -/
theorem recvView_step (h : Accounts false false w) {l : Label} (hs : w.step l = some w') :
    w.recvView.Step cfg.parser w.nextResult l w'.recvView := by
  have quiet : ∀ u : World cfg, u.recvView = w.recvView →
      (l ≠ .onIn ∧ ∀ rs, l ≠ .runRecv rs) →
        w.recvView.Step cfg.parser w.nextResult l u.recvView := by
    intro u hu hl
    rw [hu]
    exact .quiet hl
  cases World.step_cases hs with
  | event hr he =>
    obtain ⟨posted, s, hh, hrecv⟩ := World.onEvent_cases he
    have hraised := h.raises hr
    exact .event (h.recvView_raises hr) (recvView_recvHandles (hraised.afterSend hh)
      (hraised.recvView_afterSend hh) hrecv)
  | detached _ hl =>
    refine .quiet ?_
    rcases hl with rfl | ⟨context, rfl⟩ <;> simp
  | onConnected hst =>
    exact quiet _ (by simp [World.recvView, World.recvItems, hst, Frame.isOnRecv]) (by simp)
  | @onRecv pos u again fs hst =>
    obtain ⟨rfl, hi, hlen, _⟩ := h.in_onRecv hst
    have hrun := World.recvView_runPacket (w := { w with stack := [] }) hlen hi rfl again
      (w.recv.parse cfg.parser (pos + u))
    have hv : World.recvView { w with stack := [] } = { w.recvView with frames := [] } := by
      simp [World.recvView, World.recvItems]
    rw [hrun, hv]
    exact .resume (v := w.recvView) (by simp [World.recvView, hst, Frame.isOnRecv]) hi
  | onDisconnected hst =>
    exact quiet _ (by simp [World.recvView, World.recvItems, hst, Frame.isOnRecv, Obs.ofRecv])
      (by simp)
  | onError =>
    exact quiet _ (by simp [World.recvView, World.recvItems, Frame.isOnRecv, Obs.ofRecv])
      (by simp)
  | take hq =>
    exact quiet _ (by simp [World.recvView, World.recvItems, NetWorker.items_take hq])
      (by simp)
  | @runRecv rs ret b bytes e hx ho he =>
    obtain ⟨hi, hi'⟩ := finish_items (e := e) hx rfl (recvEvent_isRecv he).1 h.recvItems_le
    obtain ⟨_, hw⟩ := h.worked_nil hx
    have hf := h.frames_of_item (by rw [World.recvItems, hi]; simp)
    have : w.recvView.Step cfg.parser w.nextResult (.runRecv rs) _ := .run hi hf hw ho he
    simpa [World.recvView, World.recvItems, hi', List.filter_cons, Obs.ofRecv, Buffer.offset, hw]
      using this
  | runSend hx _ he =>
    have := finish_other (p := Item.isRecv) hx rfl (sendEvent_isSend he).2
    exact quiet _ (by simp [World.recvView, World.recvItems, this, Obs.ofRecv]) (by simp)
  | push hq =>
    have := NetWorker.items_pushResult hq h.items_le
    exact quiet _ (by simp [World.recvView, World.recvItems, this]) (by simp)

end Accounts
end HyperNet.Net
