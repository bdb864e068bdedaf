import HyperNet.Net.Items

/-! # Closing

A failure reaches the two machines as an event that both handle, and each has
states of its own to close through. Two things go past this: a state that
`Recving` or `RecvingWait` enters after `ProcessPacket` replaces whatever state a
call of the session has set in the meantime, and what `ProcessPacket` or
`BeginSend` finds wrong stays with the machine that called it. -/
namespace HyperNet.Net
open HyperNet.Api HyperNet.Public HyperNet.Core.History HyperNet.Core.Transition

/-! ## What a step adds to the trace -/

/-- The entries that `OnEvent` makes. -/
def Obs.ofEvent : Obs → Bool
  | .dispatch _ | .beginSend _ _ | .beginRecv | .processPacket _ _ | .packetsDone _ | .onRecv _
  | .onClose _ | .onDisconnected => true
  | _ => false

/-- The entries that `OnEvent` makes for a closed connection: no packet, no request for more. -/
def Obs.ofClosed : Obs → Bool
  | .beginRecv | .processPacket _ _ | .onRecv _ => false
  | o => o.ofEvent

namespace World
variable {cfg : Config} {w w' : World cfg} {e : NetEventType}

theorem releaseCheck_extends (w : World cfg) :
    Extends Obs.ofClosed w.trace w.releaseCheck.trace := by
  unfold releaseCheck
  split
  · exact .append _ (by simp [Obs.ofClosed, Obs.ofEvent])
  · exact .refl

theorem afterSend_extends {p : Obs → Bool} (hd : p (.dispatch e) = true)
    (hb : ∀ k i, p (.beginSend k i) = true) (posted : Bool) (s : SendSide cfg.sendSize)
    (w : World cfg) : Extends p w.trace (w.afterSend e posted s).trace := by
  refine .trans (.append [Obs.dispatch e] (by simpa using hd)) (.append _ ?_)
  cases posted with
  | false => nofun
  | true => simpa using hb _ _

theorem runPacket_extends (again : Bool) (o : Parsing × RecvSide cfg.recvSize) (w : World cfg) :
    Extends Obs.ofEvent w.trace (w.runPacket again o).trace := by
  obtain ⟨parsing, r⟩ := o
  cases parsing with
  | onRecv pos u => exact .append _ (by simp [Obs.ofEvent])
  | done ok =>
    refine .trans (.append [Obs.packetsDone ok] (by simp [Obs.ofEvent])) ?_
    refine .trans ?_ ((releaseCheck_extends _).mono fun o ho => ?_)
    · cases ok with
      | false => exact .refl
      | true =>
        cases again with
        | false => exact .refl
        | true => exact .append [Obs.beginRecv] (by simp [Obs.ofEvent])
    · cases o <;> first | rfl | cases ho

theorem RecvHandles.extends (h : w.RecvHandles e w') : Extends Obs.ofEvent w.trace w'.trace := by
  have release : ∀ u : World cfg, Extends Obs.ofEvent u.trace u.releaseCheck.trace :=
    fun u => (releaseCheck_extends u).mono fun o ho => by cases o <;> first | rfl | cases ho
  cases h with
  | stay => exact release w
  | change => exact release _
  | beginRecv =>
    exact .trans (.append [Obs.beginRecv] (by simp [Obs.ofEvent])) (release _)
  | @processPacket again o _ _ =>
    refine .trans (.append [Obs.processPacket w.recvItems.length w.recv.taken] ?_)
      (runPacket_extends again o _)
    simp [Obs.ofEvent]

theorem onEvent_extends (h : w.onEvent e = some w') : Extends Obs.ofEvent w.trace w'.trace := by
  obtain ⟨posted, s, _, hr⟩ := onEvent_cases h
  exact .trans (afterSend_extends rfl (fun _ _ => rfl) posted s w) hr.extends

/-! ## An event that closes -/

/-- A failure, and every event after one, finds the receive machine with nothing to begin
and nothing to process. -/
theorem RecvHandles.closing (h : w.RecvHandles e w')
    (hc : (w.recv.state.closing || e.fails) = true) :
    ∃ t : RecvState, t.closing = true ∧ w' = (w.changeRecvState t).releaseCheck := by
  cases h with
  | stay ha =>
    refine ⟨w.recv.state, ?_, rfl⟩
    rcases Bool.or_eq_true_iff.mp hc with hc | hf
    · exact hc
    · exact RecvState.closing_of_stay ha hf
  | @change t ha => exact ⟨t, (RecvState.closing_of_change ha).trans hc, rfl⟩
  | beginRecv ha =>
    obtain ⟨_, hs, hf⟩ := RecvState.closing_of_beginRecv ha
    rw [hs, hf] at hc
    cases hc
  | processPacket ha _ =>
    obtain ⟨rfl, hs⟩ := RecvState.processPacket_cases ha
    rw [hs] at hc
    split at hc <;> cases hc

/-- Where the main thread is in `session->OnRecv`, the parser rejects what follows the
packet. -/
def restRejected (w : World cfg) : Bool :=
  w.stack.all fun
    | .onRecv pos u _ => cfg.parser.rejects (w.recv.used.data.drop (pos + u))
    | _ => true

/-- Both machines are closing, and `ProcessPacket` will find nothing more if the main thread
is in it. -/
structure Closed (w : World cfg) : Prop where
  send : w.send.state.closing = true
  recv : w.recv.state.closing = true
  rest : w.restRejected = true

theorem Closed.releaseCheck (h : w.Closed) : w.releaseCheck.Closed := by
  unfold World.releaseCheck
  split
  · exact ⟨h.send, h.recv, h.rest⟩
  · exact h

/-- An event that closes, or meets a closing connection, leaves it closed. -/
theorem closed_onEvent (he : w.onEvent e = some w')
    (hb : e.isSendResult = true → w.send.state.busy = true)
    (hs : (w.send.state.closing || e.fails) = true) (hr : (w.recv.state.closing || e.fails) = true)
    (hf : w.restRejected = true) : w'.Closed ∧ Extends Obs.ofClosed w.trace w'.trace := by
  obtain ⟨posted, s, hh, hrecv⟩ := onEvent_cases he
  obtain ⟨t, ht, rfl⟩ := hrecv.closing hr
  refine ⟨Closed.releaseCheck ⟨hh.closing hb hs, ht, hf⟩, ?_⟩
  exact .trans (afterSend_extends rfl (fun _ _ => rfl) posted s w) (releaseCheck_extends _)

end World

/-! ## The parser's verdict -/

theorem RecvSide.Parses.of_rejects {n : Nat} {p : PacketParser} {pos : Nat} {r : RecvSide n}
    {o : Parsing × RecvSide n} (h : r.Parses p pos o)
    (hr : p.rejects (r.used.data.drop pos) = true) : o = (.done false, r) := by
  simp only [PacketParser.rejects, Bool.and_eq_true, bne_iff_ne, decide_eq_true_eq] at hr
  cases h with
  | rest hi =>
    simp only [PacketParser.incomplete, Bool.or_eq_true, beq_iff_eq] at hi
    rcases hi with hi | hi
    · exact absurd hi hr.1
    · omega
  | packet hu hp => omega
  | bad => rfl

theorem RecvSide.Parses.of_not_rejects {n : Nat} {p : PacketParser} {pos : Nat} {r : RecvSide n}
    {o : Parsing × RecvSide n} (h : r.Parses p pos o)
    (hr : p.rejects (r.used.data.drop pos) = false) : o.1 ≠ .done false := by
  cases h with
  | rest | packet => nofun
  | bad hb => rw [hr] at hb; cases hb

/-! ## Close is final -/

/-- `Close` is called, or `Send` refuses its context. -/
def Obs.closes : Obs → Bool
  | .close => true
  | .send _ ok => !ok
  | _ => false

/-- A packet for the session, or a request for more bytes. -/
def Obs.delivers : Obs → Bool
  | .onRecv _ | .beginRecv => true
  | _ => false

/-- The trace from the first closing call on. -/
def afterClosing (tr : List Obs) : List Obs := tr.dropWhile fun o => !o.closes

/-- No packet and no request for more since the first closing call. -/
def Silent (tr : List Obs) : Prop := ∀ o ∈ afterClosing tr, o.delivers = false

theorem silent_of_open {tr : List Obs} (h : tr.any Obs.closes = false) : Silent tr := by
  rw [Silent, afterClosing, since_nil h]
  nofun

theorem Silent.extends {tr ts : List Obs} (h : Silent tr) (hc : tr.any Obs.closes = true)
    {p : Obs → Bool} (he : Extends p tr ts) (hp : ∀ o, p o = true → o.delivers = false) :
    Silent ts := by
  obtain ⟨added, rfl, ha⟩ := he
  rw [Silent, afterClosing, since_append hc]
  intro o ho
  rcases List.mem_append.mp ho with ho | ho
  · exact h o ho
  · exact hp o (ha o ho)

/-- The closing call itself is the first entry of what comes after it. -/
theorem silent_snoc {tr : List Obs} (h : tr.any Obs.closes = false) {o : Obs}
    (ho : o.closes = true) : Silent (tr ++ [o]) := by
  rw [Silent, afterClosing, since_fresh h]
  intro x hx
  rw [List.mem_singleton.mp ((List.dropWhile_suffix _).subset hx)]
  cases o <;> first | rfl | cases ho

theorem delivers_of_ofClosed (o : Obs) (h : o.ofClosed = true) : o.delivers = false := by
  cases o <;> first | rfl | cases h

theorem closes_of_ofEvent (o : Obs) (h : o.ofEvent = true) : o.closes = false := by
  cases o <;> first | rfl | cases h

namespace World
variable {cfg : Config} {w w' : World cfg} {e : NetEventType} {l : Label}

/-- The label calls `Close`, or a `Send` that is refused. -/
def closingCall (w : World cfg) : Label → Bool
  | .close => w.pipe
  | .send context => w.pipe && w.send.used.exceeds context.length
  | _ => false

/-- The session closes from inside `OnRecv` only where the parser rejects what follows the
packet. -/
def NoCloseInside (w : World cfg) (l : Label) : Prop :=
  w.closingCall l = true → w.restRejected = true

instance (w : World cfg) (l : Label) : Decidable (w.NoCloseInside l) :=
  inferInstanceAs (Decidable (_ → _))

structure Final (w : World cfg) : Prop where
  closed : w.trace.any Obs.closes = true → w.Closed
  silent : Silent w.trace

/-- The entries of a step that neither closes nor delivers. -/
def Obs.inert (o : Obs) : Bool := !o.closes && !o.delivers

/-- A step that leaves the machines alone. -/
theorem Final.transfer (h : w.Final) (hs : w'.send.state = w.send.state)
    (hr : w'.recv.state = w.recv.state) (hrest : w.restRejected = true → w'.restRejected = true)
    (ht : Extends Obs.inert w.trace w'.trace) : w'.Final := by
  have hany := ht.any_eq (q := Obs.closes) fun o ho => by
    simp only [Obs.inert, Bool.and_eq_true, Bool.not_eq_true'] at ho
    exact ho.1
  cases hw : w.trace.any Obs.closes with
  | false =>
    rw [hw] at hany
    exact ⟨fun hc => (Bool.false_ne_true (hany.symm.trans hc)).elim, silent_of_open hany⟩
  | true =>
    have hc := h.closed hw
    refine ⟨fun _ => ⟨by rw [hs]; exact hc.send, by rw [hr]; exact hc.recv, hrest hc.rest⟩, ?_⟩
    refine h.silent.extends hw ht fun o ho => ?_
    simp only [Obs.inert, Bool.and_eq_true, Bool.not_eq_true'] at ho
    exact ho.2

/-- The call that closes. -/
theorem Final.call (h : w.Final) {o : Obs} (ho : o.closes = true) : Silent (w.log o).trace := by
  cases hw : w.trace.any Obs.closes with
  | false => exact silent_snoc hw ho
  | true =>
    refine h.silent.extends hw (p := Obs.closes) (.append _ (by simp [ho])) fun x hx => ?_
    cases x <;> first | rfl | cases hx

/-- What the event of a step starts from. -/
theorem Final.raises (h : w.Final) (hg : w.NoCloseInside l) {w₀ : World cfg}
    (hr : w.Raises l e w₀) :
    Silent w₀.trace ∧ (w₀.trace.any Obs.closes = true → w₀.restRejected = true ∧
      (w₀.send.state.closing || e.fails) = true ∧ (w₀.recv.state.closing || e.fails) = true) := by
  have keep : w₀.Final → Silent w₀.trace ∧ (w₀.trace.any Obs.closes = true →
      w₀.restRejected = true ∧ (w₀.send.state.closing || e.fails) = true ∧
        (w₀.recv.state.closing || e.fails) = true) := by
    intro h₀
    refine ⟨h₀.silent, fun hc => ?_⟩
    have := h₀.closed hc
    exact ⟨this.rest, by rw [this.send, Bool.true_or], by rw [this.recv, Bool.true_or]⟩
  cases hr with
  | @send context b _ _ _ =>
    exact keep (h.transfer rfl rfl id (.append _ (by simp [Obs.inert, Obs.closes, Obs.delivers])))
  | @overflow context hp hx =>
    refine ⟨h.call rfl, fun _ => ⟨hg ?_, ?_, ?_⟩⟩
    · simp [closingCall, hp, hx]
    · exact Bool.or_true _
    · exact Bool.or_true _
  | close hp =>
    refine ⟨h.call rfl, fun _ => ⟨hg hp, ?_, ?_⟩⟩
    · exact Bool.or_true _
    · exact Bool.or_true _
  | onIn => exact keep h
  | onOut => exact keep h
  | @onError fs hst =>
    refine keep (h.transfer rfl rfl (fun hrest => ?_) .refl)
    simpa [restRejected, hst] using hrest
  | result => exact keep (h.transfer rfl rfl id .refl)

theorem Final.step (h : w.Final) (hacc : Accounts false false w) (hg : w.NoCloseInside l)
    (hs : w.step l = some w') : w'.Final := by
  cases step_cases hs with
  | @event _ e w₀ _ hr he =>
    obtain ⟨hsilent, hclosed⟩ := h.raises hg hr
    cases hw : w₀.trace.any Obs.closes with
    | true =>
      obtain ⟨hrest, hsend, hrecv⟩ := hclosed hw
      have hb : e.isSendResult = true → w₀.send.state.busy = true := by
        intro hres
        exact (hacc.raises hr).send_busy (.inl hres)
      obtain ⟨hc, hext⟩ := closed_onEvent he hb hsend hrecv hrest
      exact ⟨fun _ => hc, hsilent.extends hw hext delivers_of_ofClosed⟩
    | false =>
      have hany := ((onEvent_extends he).any_eq closes_of_ofEvent).trans hw
      exact ⟨fun hc => (Bool.false_ne_true (hany.symm.trans hc)).elim, silent_of_open hany⟩
  | detached => exact h
  | onConnected hst => exact h.transfer rfl rfl (by simp [restRejected, hst]) .refl
  | @onRecv pos u again fs hst =>
    cases hw : w.trace.any Obs.closes with
    | true =>
      have hc := h.closed hw
      have hrest := hc.rest
      simp only [restRejected, hst, List.all_cons, Bool.and_eq_true] at hrest
      rw [(RecvSide.parse_cases cfg.parser (pos + u) w.recv).of_rejects hrest.1]
      refine ⟨fun _ => Closed.releaseCheck ⟨hc.send, rfl, hrest.2⟩, ?_⟩
      refine h.silent.extends hw (.trans (.append _ ?_) (releaseCheck_extends _))
        delivers_of_ofClosed
      simp [Obs.ofClosed, Obs.ofEvent]
    | false =>
      have hany := ((runPacket_extends again (w.recv.parse cfg.parser (pos + u)) { w with
        stack := fs }).any_eq closes_of_ofEvent).trans hw
      exact ⟨fun hc => (Bool.false_ne_true (hany.symm.trans hc)).elim, silent_of_open hany⟩
  | onDisconnected hst =>
    refine h.transfer rfl rfl (by simp [restRejected, hst]) (.append _ ?_)
    simp [Obs.inert, Obs.closes, Obs.delivers]
  | onError =>
    refine h.transfer rfl rfl id (.append _ ?_)
    simp [Obs.inert, Obs.closes, Obs.delivers]
  | take => exact h.transfer rfl rfl id .refl
  | runRecv =>
    refine h.transfer rfl rfl id (.append _ ?_)
    simp [Obs.inert, Obs.closes, Obs.delivers]
  | runSend =>
    refine h.transfer rfl rfl id (.append _ ?_)
    simp [Obs.inert, Obs.closes, Obs.delivers]
  | push => exact h.transfer rfl rfl id .refl

end World

/-- After the first closing call both machines are in closing states for good, and neither a
packet nor a request for more follows, as long as the session closes from inside
`OnRecv` only where nothing more would come. -/
theorem close_is_final {cfg : Config} {w : World cfg}
    (h : (system cfg).Run World.NoCloseInside w) :
    (w.trace.any Obs.closes = true → w.recv.state ∈ [RecvState.recvWaitClose, .recvClose] ∧
      w.send.state ∈ [SendState.sendingWaitClose, .sendWaitClose, .sendClose]) ∧
    ∀ o ∈ afterClosing w.trace, o.delivers = false := by
  have hinv : w.Final := h.invariant_with (I := World.Final) (J := Accounts false false)
    (fun _ hr => Reachable.accounts hr.reachable)
    ⟨nofun, nofun⟩ (fun _ _ _ hg hacc ih hs => ih.step hacc hg hs)
  refine ⟨fun hc => ?_, hinv.silent⟩
  have hclosed := hinv.closed hc
  exact ⟨RecvState.closing_iff.mp hclosed.recv, SendState.closing_iff.mp hclosed.send⟩

theorem close_is_final_small : ∃ w : World .small, w.trace.any Obs.closes = true ∧
    w.recv.state ∈ [RecvState.recvWaitClose, .recvClose] ∧
      w.send.state ∈ [SendState.sendingWaitClose, .sendWaitClose, .sendClose] := by
  obtain ⟨w, h, hw⟩ := (system .small).run_of_exec (P := World.NoCloseInside)
    [.ret, .onIn, .take, .runRecv [.data 1 [0, 0, 0, 9, 0, 0, 0, 7],
      .data 1 [0, 0, 0, 255, 255, 255, 255, 7]], .push, .process, .close, .ret]
    (p := fun w => w.trace.any Obs.closes) (by decide)
  exact ⟨w, hw, (close_is_final h).1 hw⟩

/-- The session closes while it handles the first of two packets. The second one comes all
the same, and the receive machine is back in `RecvNone`. -/
theorem packet_after_close : ∃ w : World .small, Reachable w ∧
    w.trace.any Obs.closes = true ∧ w.recv.state = .recvNone ∧ w.send.state = .sendClose ∧
      Obs.onRecv [1, 0, 0, 0, 9, 0, 0, 0, 7] ∈ afterClosing w.trace := by
  obtain ⟨w, h, hw⟩ := (system .small).run_of_exec (P := fun _ _ => True)
    [.ret, .onIn, .take, .runRecv [.data 1 [0, 0, 0, 9, 0, 0, 0, 7],
      .data 1 [0, 0, 0, 9, 0, 0, 0, 7]], .push, .process, .close, .ret, .ret]
    (p := fun w => w.trace.any Obs.closes && w.recv.state == .recvNone &&
      w.send.state == .sendClose &&
        (afterClosing w.trace).any (· == .onRecv [1, 0, 0, 0, 9, 0, 0, 0, 7])) (by decide)
  simp only [Bool.and_eq_true, beq_iff_eq] at hw
  obtain ⟨⟨⟨hc, hr⟩, hs⟩, hm⟩ := hw
  obtain ⟨o, ho, he⟩ := List.any_eq_true.mp hm
  exact ⟨w, h, hc, hr, hs, beq_iff_eq.mp he ▸ ho⟩

end HyperNet.Net
