import HyperNet.Net.Items

/-! # The send side of a connection on its own

What a property of the send direction depends on is one machine, its two
buffers, the SEND items and the entries of the trace about them. Every step of
the connection is a step of this part (`Accounts.sendView_step`), so an invariant of
the part needs no case for what the receive side and the session do. -/
namespace HyperNet.Net
open HyperNet.Public HyperNet.Core.Transition

/-- The entries of the trace about the send direction. -/
def Obs.ofSend : Obs → Bool
  | .send _ _ | .dispatch _ | .beginSend _ _ | .workerSend _ _ _ => true
  | _ => false

structure SendView (n : Nat) where
  side : SendSide n
  items : List Item
  trace : List Obs

def World.sendView {cfg : Config} (w : World cfg) : SendView cfg.sendSize where
  side := w.send
  items := w.sendItems
  trace := w.trace.filter Obs.ofSend

namespace SendView
variable {n : Nat}

/-- The machine has handled an event. -/
def handled (e : NetEventType) (posted : Bool) (s : SendSide n) (v : SendView n) : SendView n where
  side := s
  items := if posted then [.request .send] else v.items
  trace := v.trace ++ [.dispatch e] ++ if posted then [.beginSend 0 s.worked.offset] else []

/-- What reaches the machine with an event, by the label of the step of the whole: a
context, a refusal, or a result. `next` is the result that `Process` would handle. -/
inductive Raises (next : Option NetEventType) (v : SendView n) :
    Label → NetEventType → SendView n → Prop
  | accept {context : List UInt8} {b : Buffer n}
      (hb : b.data = v.side.used.data ++ context) :
      Raises next v (.send context) .send
        { v with side.used := b, trace := v.trace ++ [.send context true] }
  | reject {context : List UInt8} (hx : v.side.used.exceeds context.length = true) :
      Raises next v (.send context) .error { v with trace := v.trace ++ [.send context false] }
  | result {e : NetEventType} (he : e.isSendResult = true) (hn : next = some e)
      (hi : v.items = [.result e]) : Raises next v .process e { v with items := [] }
  | other {l : Label} {e : NetEventType} (he : e.isSendResult = false) (hs : e ≠ .send) :
      Raises next v l e v

/-- One step. -/
inductive Step (next : Option NetEventType) (v : SendView n) : Label → SendView n → Prop
  | quiet {l : Label} : Step next v l v
  | event {l : Label} {e : NetEventType} {v₀ : SendView n} {posted : Bool} {s : SendSide n}
      (hr : v.Raises next l e v₀) (hh : v₀.side.Handles e posted s)
      (hi : posted = true → v₀.items = []) : Step next v l (v₀.handled e posted s)
  | run {rs : List SendRes} {ret : WRet} {b : Buffer n} {out : List UInt8} {e : NetEventType}
      (hi : v.items = [.request .send]) (ho : onSend v.side.worked rs = some (ret, b, out))
      (he : sendEvent ret = some e) :
      Step next v (.runSend rs) ⟨{ v.side with worked := b }, [.result e],
        v.trace ++ [.workerSend v.side.worked.offset out ret]⟩

variable {v v₀ : SendView n} {e : NetEventType} {next : Option NetEventType} {l : Label}

theorem Raises.state (hr : v.Raises next l e v₀) : v₀.side.state = v.side.state := by
  cases hr <;> rfl

theorem Raises.items_eq (hr : v.Raises next l e v₀) (he : e.isSendResult = false) :
    v₀.items = v.items := by
  cases hr with
  | result hres => rw [he] at hres; cases hres
  | accept | reject | other => rfl

/-- A result meets a machine that waits for it. -/
theorem Raises.busy (hr : v.Raises next l e v₀) (hc : v.items.length = v.side.state.busy.toNat)
    (he : e.isSendResult = true) : v.items = [.result e] ∧ v₀.side.state.busy = true := by
  have hi : v.items = [.result e] := by
    cases hr with
    | accept | reject => cases he
    | result _ _ hi => exact hi
    | other hn => rw [he] at hn; cases hn
  refine ⟨hi, ?_⟩
  rw [hr.state]
  exact Bool.toNat_eq_one.mp (by rw [← hc, hi]; rfl)

end SendView

/-! ## The steps of the whole are steps of the part -/

namespace World
variable {cfg : Config} {w w' : World cfg} {e : NetEventType}

@[simp] theorem sendView_releaseCheck (w : World cfg) : w.releaseCheck.sendView = w.sendView := by
  unfold releaseCheck
  split
  · simp [onClose, sendView, sendItems, Obs.ofSend]
  · rfl

theorem sendView_beginRecv (hl : w.worker.items.length ≤ 1) (t : RecvState) :
    (w.beginRecv.changeRecvState t).sendView = w.sendView := by
  simp [sendView, beginRecv, changeRecvState, sendItems, post_items hl, Item.isSend, Obs.ofSend]

theorem sendView_runPacket (hl : w.worker.items.length ≤ 1) (again : Bool)
    (o : Parsing × RecvSide cfg.recvSize) : (w.runPacket again o).sendView = w.sendView := by
  obtain ⟨parsing, r⟩ := o
  cases parsing with
  | onRecv pos u => simp [runPacket, sendView, sendItems, Obs.ofSend]
  | done ok =>
    have hv : sendView { w with recv := r, trace := w.trace ++ [.packetsDone ok] } =
        w.sendView := by
      simp [sendView, sendItems, Obs.ofSend]
    rw [← hv]
    refine (sendView_releaseCheck _).trans ?_
    cases ok with
    | false => rfl
    | true =>
      cases again with
      | false => rfl
      | true =>
        exact sendView_beginRecv
          (w := { w with recv := r, trace := w.trace ++ [.packetsDone true] }) hl _

end World

namespace Accounts
variable {cfg : Config} {w w' : World cfg} {e : NetEventType}

/-- The receive machine leaves the send side alone. -/
theorem sendView_recvHandles (h : Accounts false e.isRecvResult w) (hh : w.RecvHandles e w') :
    w'.sendView = w.sendView := by
  cases hh with
  | stay ha => exact World.sendView_releaseCheck w
  | change ha => exact World.sendView_releaseCheck _
  | beginRecv ha =>
    exact (World.sendView_releaseCheck _).trans
      (World.sendView_beginRecv (h.free_of_beginRecv ha).2 _)
  | processPacket ha ho =>
    rw [(RecvState.processPacket_cases ha).1] at h
    refine (World.sendView_runPacket (w := w.log _) h.owned.1.length_le _ _).trans ?_
    simp [World.log, World.sendView, World.sendItems, Obs.ofSend]

theorem sendView_onEvent (h : Accounts e.isSendResult e.isRecvResult w)
    (he : w.onEvent e = some w') :
    ∃ posted s, w.send.Handles e posted s ∧ (posted = true → w.sendItems = []) ∧
      w'.sendView = w.sendView.handled e posted s := by
  obtain ⟨posted, s, hs, hr⟩ := World.onEvent_cases he
  have hv := (h.afterSend hs).sendView_recvHandles hr
  cases hs with
  | stay ha =>
    refine ⟨false, _, .stay ha, nofun, hv.trans ?_⟩
    simp [World.afterSend, World.sendView, SendView.handled, World.sendItems, Obs.ofSend]
  | change ha =>
    refine ⟨false, _, .change ha, nofun, hv.trans ?_⟩
    simp [World.afterSend, World.sendView, SendView.handled, World.sendItems, Obs.ofSend]
  | full ha hu hx =>
    refine ⟨false, _, .full ha hu hx, nofun, hv.trans ?_⟩
    simp [World.afterSend, World.sendView, SendView.handled, World.sendItems, Obs.ofSend]
  | beginSend ha hb =>
    obtain ⟨hn, hlen⟩ := h.free_of_beginSend ha
    refine ⟨true, _, .beginSend ha hb, fun _ => hn, hv.trans ?_⟩
    have hf : w.worker.items.filter Item.isSend = [] := hn
    simp [World.afterSend, World.sendView, SendView.handled, World.sendItems, post_items hlen,
      hf, Item.isSend, Obs.ofSend]

/-- What an event starts from, seen from the send side. -/
theorem sendView_raises (h : Accounts false false w) {l : Label} {w₀ : World cfg}
    (hr : w.Raises l e w₀) : w.sendView.Raises w.nextResult l e w₀.sendView := by
  cases hr with
  | @send context b hp hx hb =>
    have : w.sendView.Raises w.nextResult (.send context) _ _ := .accept hb
    simpa [World.sendView, World.sendItems, List.filter_cons, Obs.ofSend] using this
  | @overflow context hp hx =>
    have : w.sendView.Raises w.nextResult (.send context) _ _ := .reject hx
    simpa [World.sendView, World.sendItems, World.log, List.filter_cons, Obs.ofSend] using this
  | close hp =>
    have : (w.log .close).sendView = w.sendView := by
      simp [World.sendView, World.sendItems, World.log, Obs.ofSend]
    rw [this]
    exact .other rfl (by simp)
  | onIn hi => exact .other rfl (by simp)
  | onOut hi => exact .other rfl (by simp)
  | onError hst => exact .other rfl (by simp)
  | @result e wk hst hq =>
    have hnext : w.nextResult = some e := by rw [World.nextResult, hq]; rfl
    have hi := NetWorker.items_readResult hq
    cases hb : e.isSendResult with
    | true =>
      have hl := h.sendItems_le
      simp only [World.sendItems, hi, List.filter_cons, Item.isSend, hb, if_true,
        List.length_cons] at hl
      have hn : wk.items.filter Item.isSend = [] := List.length_eq_zero_iff.mp (by omega)
      have hv : w.sendItems = [.result e] := by
        simp [World.sendItems, hi, Item.isSend, hb, hn]
      have : w.sendView.Raises w.nextResult .process e _ := .result hb hnext hv
      simpa [World.sendView, World.sendItems, hn] using this
    | false =>
      have hv : World.sendView { w with worker := wk } = w.sendView := by
        simp [World.sendView, World.sendItems, hi, Item.isSend, hb]
      rw [hv]
      refine .other hb ?_
      rintro rfl
      have := h.kind (.result .send) (by simp [hi])
      cases this

/-- A step of the connection is a step of its send side. -/
theorem sendView_step (h : Accounts false false w) {l : Label} (hs : w.step l = some w') :
    w.sendView.Step w.nextResult l w'.sendView := by
  have quiet : ∀ u : World cfg, u.sendView = w.sendView →
      w.sendView.Step w.nextResult l u.sendView := by
    intro u hu
    rw [hu]
    exact .quiet
  cases World.step_cases hs with
  | @event _ e w₀ _ hr he =>
    obtain ⟨posted, s, hh, hn, hv⟩ := (h.raises hr).sendView_onEvent he
    rw [hv]
    exact .event (h.sendView_raises hr) hh hn
  | detached => exact .quiet
  | onConnected => exact quiet _ rfl
  | @onRecv pos u again fs hst =>
    obtain ⟨_, _, hlen, _⟩ := h.in_onRecv hst
    exact quiet _ (World.sendView_runPacket (w := { w with stack := fs }) hlen _ _)
  | onDisconnected => exact quiet _ (by simp [World.sendView, World.sendItems, Obs.ofSend])
  | onError => exact quiet _ (by simp [World.sendView, World.sendItems, Obs.ofSend])
  | take hq =>
    exact quiet _ (by simp [World.sendView, World.sendItems, NetWorker.items_take hq])
  | @runRecv rs ret b bytes e hx ho he =>
    have := finish_other (p := Item.isSend) (e := e) hx rfl (recvEvent_isRecv he).2
    exact quiet _ (by simp [World.sendView, World.sendItems, this, Obs.ofSend])
  | @runSend rs ret b bytes e hx ho he =>
    obtain ⟨hi, hi'⟩ := finish_items (e := e) hx rfl (sendEvent_isSend he).1 h.sendItems_le
    have : w.sendView.Step w.nextResult (.runSend rs) _ := .run hi ho he
    simpa [World.sendView, World.sendItems, hi', List.filter_cons, Obs.ofSend] using this
  | push hq =>
    have := NetWorker.items_pushResult hq h.items_le
    exact quiet _ (by simp [World.sendView, World.sendItems, this])

end Accounts
end HyperNet.Net
