import HyperNet.Net.Connection

/-! # What one step can do

Each function of Connection that branches gets one inductive relation with a case for
each way through it, guards included; later modules take steps apart with these
and do not unfold the functions. -/
namespace HyperNet.Net
open HyperNet.Api HyperNet.Public

/-! ## The send machine -/

/-- `SendSide.onEvent`, way by way. -/
inductive SendSide.Handles {n : Nat} (s : SendSide n) (e : NetEventType) :
    Bool → SendSide n → Prop
  | stay (h : s.state.onEvent e = .stay) : Handles s e false s
  | change {t : SendState} (h : s.state.onEvent e = .change t) :
      Handles s e false { s with state := t }
  | full {t : SendState} (h : s.state.onEvent e = .beginSend t) (hu : s.used.data ≠ [])
      (hx : s.worked.exceeds s.used.offset = true) :
      Handles s e false { s with state := .sendClose }
  | beginSend {t : SendState} {b : Buffer n} (h : s.state.onEvent e = .beginSend t)
      (hb : b.data = s.worked.data ++ s.used.data) : Handles s e true ⟨t, b, .empty⟩

theorem SendSide.onEvent_cases {n : Nat} {s s' : SendSide n} {e : NetEventType} {posted : Bool}
    (h : s.onEvent e = some (posted, s')) : s.Handles e posted s' := by
  unfold SendSide.onEvent at h
  split at h
  · next ha =>
    cases h
    exact .stay ha
  · next t ha =>
    cases h
    exact .change ha
  · next t ha =>
    obtain ⟨⟨ok, s₁⟩, hb, h⟩ := Option.map_eq_some_iff.mp h
    unfold SendSide.beginSend at hb
    split at hb
    · next hu =>
      split at hb
      · next hx =>
        cases hb
        cases h
        exact .full ha (Buffer.offset_pos.mp hu) hx
      · obtain ⟨b, happ, he⟩ := Option.map_eq_some_iff.mp hb
        cases he
        cases h
        exact .beginSend ha (Buffer.append?_eq_some.mp happ)
    · next hu =>
      cases hb
      cases h
      have he : s.used = .empty := Buffer.ext (Buffer.offset_eq_zero.mp (by omega))
      have hs := SendSide.Handles.beginSend (b := s.worked) ha (by simp [he])
      simpa [he] using hs

/-- The machine closes on a failure, and stays closed. -/
theorem SendSide.Handles.closing {n : Nat} {s s' : SendSide n} {e : NetEventType} {posted : Bool}
    (h : s.Handles e posted s') (hb : e.isSendResult = true → s.state.busy = true)
    (hc : (s.state.closing || e.fails) = true) : s'.state.closing = true := by
  cases h with
  | stay ha =>
    rcases Bool.or_eq_true_iff.mp hc with hc | hf
    · exact hc
    · exact SendState.closing_of_stay ha hf hb
  | change ha => exact (SendState.closing_of_change ha).trans hc
  | full => rfl
  | beginSend ha _ =>
    obtain ⟨ht, hf⟩ := SendState.closing_of_beginSend ha
    rw [hf, Bool.or_false] at hc
    exact ht.trans hc

/-! ## ProcessPacket -/

/-- `RecvSide.parse`, way by way. -/
inductive RecvSide.Parses {n : Nat} (p : PacketParser) (pos : Nat) (r : RecvSide n) :
    Parsing × RecvSide n → Prop
  | rest (h : p.incomplete (r.used.data.drop pos) = true) :
      Parses p pos r (.done true, { r with used := r.used.drop pos })
  | packet {u : Nat} (hu : 0 < u) (hp : p.parsePacket (r.used.data.drop pos) = u)
      (hl : pos + u ≤ r.used.data.length) : Parses p pos r (.onRecv pos u, r)
  | bad (h : p.rejects (r.used.data.drop pos) = true) : Parses p pos r (.done false, r)

theorem RecvSide.parse_cases {n : Nat} (p : PacketParser) (pos : Nat) (r : RecvSide n) :
    r.Parses p pos (r.parse p pos) := by
  unfold RecvSide.parse Buffer.offset
  split
  · next hlt =>
    have hne : r.used.data.drop pos ≠ [] := by simpa using hlt
    have hle := p.le_length (r.used.data.drop pos)
    rw [List.length_drop] at hle
    dsimp only
    split
    · next h0 => exact .rest (by simp [PacketParser.incomplete, h0])
    · split
      · next h0 hu => exact .packet (by omega) (by omega) (by omega)
      · next h0 hu =>
        refine .bad ?_
        simp only [PacketParser.rejects, Bool.and_eq_true, bne_iff_ne, decide_eq_true_eq]
        exact ⟨hne, by omega⟩
  · next hlt =>
    refine .rest ?_
    simp [PacketParser.incomplete, List.drop_eq_nil_of_le (Nat.le_of_not_lt hlt)]

/-- `RecvSide.processPacket`, way by way. -/
inductive RecvSide.Processes {n : Nat} (p : PacketParser) (r : RecvSide n) :
    Parsing × RecvSide n → Prop
  | nothing (hw : r.worked.data = []) : Processes p r (.done true, r)
  | full (hw : r.worked.data ≠ []) (hx : r.used.exceeds r.worked.offset = true) :
      Processes p r (.done false, r)
  | parse {b : Buffer n} (hw : r.worked.data ≠ [])
      (hx : r.used.exceeds r.worked.offset = false)
      (hb : b.data = r.used.data ++ r.worked.data) :
      Processes p r (RecvSide.parse p 0 { r with used := b, worked := .empty })

theorem RecvSide.processPacket_cases {n : Nat} {p : PacketParser} {r : RecvSide n}
    {o : Parsing × RecvSide n} (h : r.processPacket p = some o) : r.Processes p o := by
  unfold RecvSide.processPacket at h
  split at h
  · next hw =>
    split at h
    · next hx =>
      cases h
      exact .full (Buffer.offset_pos.mp hw) hx
    · next hx =>
      obtain ⟨b, hb, rfl⟩ := Option.map_eq_some_iff.mp h
      exact .parse (Buffer.offset_pos.mp hw) (by simpa using hx) (Buffer.append?_eq_some.mp hb)
  · next hw =>
    cases h
    exact .nothing (Buffer.offset_eq_zero.mp (by omega))

namespace World
variable {cfg : Config}

/-! ## OnEvent -/

/-- The world after `_sendMachine.OnEvent`. -/
def afterSend (e : NetEventType) (posted : Bool) (s : SendSide cfg.sendSize) (w : World cfg) :
    World cfg :=
  { w with
    send := s
    worker := if posted then w.worker.post .send else w.worker
    trace := w.trace ++ [.dispatch e] ++
      if posted then [.beginSend w.sendItems.length s.worked.offset] else [] }

/-- `recvMachine`, way by way. -/
inductive RecvHandles (w : World cfg) (e : NetEventType) : World cfg → Prop
  | stay (h : w.recv.state.onEvent e = .stay) : RecvHandles w e w.releaseCheck
  | change {t : RecvState} (h : w.recv.state.onEvent e = .change t) :
      RecvHandles w e (w.changeRecvState t).releaseCheck
  | beginRecv {t : RecvState} (h : w.recv.state.onEvent e = .beginRecv t) :
      RecvHandles w e (w.beginRecv.changeRecvState t).releaseCheck
  | processPacket {again : Bool} {o : Parsing × RecvSide cfg.recvSize}
      (h : w.recv.state.onEvent e = .processPacket again) (ho : w.recv.Processes cfg.parser o) :
      RecvHandles w e
        ((w.log (.processPacket w.recvItems.length w.recv.taken)).runPacket again o)

theorem recvMachine_cases {w w' : World cfg} {e : NetEventType} (h : w.recvMachine e = some w') :
    w.RecvHandles e w' := by
  unfold recvMachine at h
  split at h
  · next ha =>
    cases h
    exact .stay ha
  · next t ha =>
    cases h
    exact .change ha
  · next t ha =>
    cases h
    exact .beginRecv ha
  · next again ha =>
    obtain ⟨o, ho, rfl⟩ := Option.map_eq_some_iff.mp h
    exact .processPacket ha (RecvSide.processPacket_cases ho)

theorem onEvent_cases {w w' : World cfg} {e : NetEventType} (h : w.onEvent e = some w') :
    ∃ posted s, w.send.Handles e posted s ∧ (w.afterSend e posted s).RecvHandles e w' := by
  obtain ⟨w₁, h₁, h⟩ := Option.bind_eq_some_iff.mp h
  obtain ⟨⟨posted, s⟩, hs, rfl⟩ := Option.map_eq_some_iff.mp h₁
  refine ⟨posted, s, SendSide.onEvent_cases hs, recvMachine_cases ?_⟩
  cases posted <;> simpa [afterSend, log, sendItems] using h

/-! ## A step -/

/-- The events: `w.Raises l e w₀` says that label `l` runs `OnEvent(e)` from `w₀`. -/
inductive Raises (w : World cfg) : Label → NetEventType → World cfg → Prop
  | send {context : List UInt8} {b : Buffer cfg.sendSize} (hp : w.pipe = true)
      (hx : w.send.used.exceeds context.length = false)
      (hb : b.data = w.send.used.data ++ context) :
      Raises w (.send context) .send
        { w with send.used := b, trace := w.trace ++ [.send context true] }
  | overflow {context : List UInt8} (hp : w.pipe = true)
      (hx : w.send.used.exceeds context.length = true) :
      Raises w (.send context) .error (w.log (.send context false))
  | close (hp : w.pipe = true) : Raises w .close .close (w.log .close)
  | onIn (hi : w.idle = true) : Raises w .onIn .recv w
  | onOut (hi : w.idle = true) : Raises w .onOut .sendReady w
  | onError {fs : List Frame} (hs : w.stack = .onError :: fs) :
      Raises w .ret .error { w with stack := fs }
  | result {e : NetEventType} {wk : NetWorker cfg.maxConnection} (hs : w.stack = [])
      (hr : w.worker.readResult = some (e, wk)) : Raises w .process e { w with worker := wk }

/-- `step`, way by way. -/
inductive Does (w : World cfg) : Label → World cfg → Prop
  | event {l : Label} {e : NetEventType} {w₀ w' : World cfg} (hr : w.Raises l e w₀)
      (he : w₀.onEvent e = some w') : Does w l w'
  | detached {l : Label} (hp : w.pipe = false) (hl : l = .close ∨ ∃ context, l = .send context) :
      Does w l w
  | onConnected {fs : List Frame} (hs : w.stack = .onConnected :: fs) :
      Does w .ret { w with stack := fs }
  | onRecv {pos u : Nat} {again : Bool} {fs : List Frame}
      (hs : w.stack = .onRecv pos u again :: fs) :
      Does w .ret ((World.mk w.send w.recv w.worker w.pipe w.released fs w.trace).runPacket again
        (w.recv.parse cfg.parser (pos + u)))
  | onDisconnected {fs : List Frame} (hs : w.stack = .onDisconnected :: fs) :
      Does w .ret { w with
        stack := fs, pipe := false, released := true, trace := w.trace ++ [.release] }
  | onError {errno : Int} (hi : w.idle = true) :
      Does w (.onError errno) { w with
        stack := .onError :: w.stack, trace := w.trace ++ [.onError errno] }
  | take {wk : NetWorker cfg.maxConnection} (h : w.worker.take = some wk) :
      Does w .take { w with worker := wk }
  | runRecv {rs : List RecvRes} {ret : WRet} {b : Buffer cfg.recvSize} {bytes : List UInt8}
      {e : NetEventType} (hx : w.worker.executing = some (.request .recv))
      (ho : Net.onRecv w.recv.worked rs = (ret, b, bytes)) (he : recvEvent ret = some e) :
      Does w (.runRecv rs) { w with
        recv.worked := b
        worker := w.worker.finish e
        trace := w.trace ++ [.workerRecv w.recv.worked.offset bytes ret] }
  | runSend {rs : List SendRes} {ret : WRet} {b : Buffer cfg.sendSize} {bytes : List UInt8}
      {e : NetEventType} (hx : w.worker.executing = some (.request .send))
      (ho : Net.onSend w.send.worked rs = some (ret, b, bytes)) (he : sendEvent ret = some e) :
      Does w (.runSend rs) { w with
        send.worked := b
        worker := w.worker.finish e
        trace := w.trace ++ [.workerSend w.send.worked.offset bytes ret] }
  | push {wk : NetWorker cfg.maxConnection} (h : w.worker.pushResult = some wk) :
      Does w .push { w with worker := wk }

theorem step_cases {w w' : World cfg} {l : Label} (h : w.step l = some w') : w.Does l w' := by
  cases l with
  | send context =>
    simp only [step] at h
    split at h
    · next hp =>
      split at h
      · unfold sendCall at h
        split at h
        · next hx => exact .event (.overflow hp hx) h
        · next hx =>
          obtain ⟨b, hb, h⟩ := Option.bind_eq_some_iff.mp h
          exact .event (.send hp (by simpa using hx) (Buffer.append?_eq_some.mp hb)) h
      · cases h
    · next hp =>
      cases h
      exact .detached (by simpa using hp) (.inr ⟨context, rfl⟩)
  | close =>
    simp only [step] at h
    split at h
    · next hp => exact .event (.close hp) h
    · next hp =>
      cases h
      exact .detached (by simpa using hp) (.inl rfl)
  | ret =>
    simp only [step] at h
    split at h
    · cases h
    · next f fs hs =>
      cases f with
      | onConnected =>
        cases h
        exact .onConnected hs
      | onRecv pos u again =>
        cases h
        exact .onRecv hs
      | onError => exact .event (.onError hs) h
      | onDisconnected =>
        cases h
        exact .onDisconnected hs
  | onIn =>
    simp only [step] at h
    split at h
    · next hi => exact .event (.onIn hi) h
    · cases h
  | onOut =>
    simp only [step] at h
    split at h
    · next hi => exact .event (.onOut hi) h
    · cases h
  | onError errno =>
    simp only [step] at h
    split at h
    · next hi =>
      cases h
      exact .onError hi
    · cases h
  | process =>
    simp only [step] at h
    split at h
    · next hs =>
      obtain ⟨⟨e, wk⟩, hr, h⟩ := Option.bind_eq_some_iff.mp h
      exact .event (.result (List.isEmpty_iff.mp hs) hr) h
    · cases h
  | take =>
    obtain ⟨wk, hw, rfl⟩ := Option.map_eq_some_iff.mp h
    exact .take hw
  | runRecv rs =>
    simp only [step] at h
    split at h
    · next hx =>
      obtain ⟨e, he, rfl⟩ := Option.map_eq_some_iff.mp h
      exact .runRecv hx rfl he
    · cases h
  | runSend rs =>
    simp only [step] at h
    split at h
    · next hx =>
      obtain ⟨⟨ret, b, bytes⟩, ho, h⟩ := Option.bind_eq_some_iff.mp h
      obtain ⟨e, he, rfl⟩ := Option.map_eq_some_iff.mp h
      exact .runSend hx ho he
    · cases h
  | push =>
    obtain ⟨wk, hw, rfl⟩ := Option.map_eq_some_iff.mp h
    exact .push hw

end World
end HyperNet.Net
