import HyperNet.Logic.RoundTrip
import HyperNet.Net.Delivery

/-! # Harbor over a connection

A node reports itself and sends messages through `PrepareSend` and `Send`; its worker, the
network and the worker of the other node cut the bytes as they like, buffers run full, sockets
fail and sessions close at any time. What the receiving session makes of its packets is a
beginning of what was sent. -/
namespace HyperNet.Logic
open HyperNet.Public HyperNet.Api HyperNet.Net HyperNet.Core.Framing HyperNet.Core.Transition

/-! ## A beginning of the frames is received as a beginning of the messages -/

theorem receiveAll_prefix {η : Type} (handlers : Handlers η) (self : NodeReport)
    {messages : List Message} (hm : ∀ m ∈ messages, m.payload.length + 12 < s32Bound)
    {packets : List (List UInt8)}
    (hp : packets <+: NodeSession.onConnected self :: messages.map Message.frame) :
    ∃ session events, NodeSession.receiveAll handlers .create packets = .ok (session, events) ∧
      events <+: arrivals handlers self messages ∧ events.length = packets.length := by
  cases packets with
  | nil => exact ⟨_, _, rfl, List.nil_prefix, rfl⟩
  | cons packet packets =>
    obtain ⟨rfl, hrest⟩ := List.cons_prefix_cons.mp hp
    obtain ⟨later, hlater⟩ := hrest
    obtain ⟨now, rest, rfl, rfl, rfl⟩ := List.map_eq_append_iff.mp hlater.symm
    have hopen := NodeSession.receive_onConnected handlers self (s := .create) rfl
    have hframes := NodeSession.receiveAll_frames handlers
      (fun m hmem => hm m (List.mem_append_left _ hmem))
      (s := ⟨true, self.nodeType, self.nodeId⟩) rfl
    refine ⟨⟨true, self.nodeType, self.nodeId⟩, arrivals handlers self now, ?_, ?_, ?_⟩
    · simp [NodeSession.receiveAll, hopen, hframes, arrivals, bind, Except.bind, pure, Except.pure]
    · simp [arrivals]
    · simp [arrivals]

/-! ## The sending end -/

/-- The sending end flushes no bytes that `Send` took after it had refused some. -/
def NoLateFlush {a b : Config} (s : Link a b) : LinkLabel → Prop
  | .left l => s.left.NoLateFlush l
  | .right _ | .reset => True

instance {a b : Config} (s : Link a b) (l : LinkLabel) : Decidable (NoLateFlush s l) :=
  match l with
  | .left l => inferInstanceAs (Decidable (s.left.NoLateFlush l))
  | .right _ | .reset => isTrue trivial

/-- The wire carries a beginning of the contexts, up to the first refused one at most. -/
theorem wire_contexts {cfg : Config} {w : World cfg} (h : (system cfg).Run World.NoLateFlush w) :
    wire w.trace <+: contexts w.trace := by
  have hinv : w.sendView.Refused := h.invariant_with
    (I := fun w => w.sendView.Refused) (J := Reachable) (fun _ hr => hr.reachable)
    ⟨by simp [World.sendView, World.init, system, Obs.ofSend], List.nil_suffix, List.nil_prefix,
      by simp [World.sendView, World.init, system, Obs.ofSend]⟩
    (fun w _ _ hg hr ih hs => ih.step hr.exact hr.accounts.send
      (fun hl hnext hstate => (acceptedAfter_filter _).trans (hg hl hnext hstate))
      (hr.accounts.sendView_step hs))
  have hsound := hinv.sound
  rw [World.sendView, wire_filter, contextsBefore_filter] at hsound
  exact hsound.trans (contextsBefore_isPrefix _)

/-! ## From node to node -/

variable {a b : Config} {s : Link a b}

/-- The report of a node and its messages, as frames. -/
def framesOf (self : NodeReport) (messages : List Message) : List (List UInt8) :=
  NodeSession.onConnected self :: messages.map Message.frame

theorem framesOf_isFrame (self : NodeReport) {messages : List Message}
    (hm : ∀ m ∈ messages, m.payload.length + 12 < s32Bound) :
    ∀ f ∈ framesOf self messages, IsFrame f := by
  intro f hf
  rcases List.mem_cons.mp hf with rfl | hf
  · exact NodeSession.onConnected_isFrame self
  · obtain ⟨m, hmem, rfl⟩ := List.mem_map.mp hf
    exact Message.frame_isFrame (hm m hmem)

/-- What has come of the frames is received as such. -/
theorem received_over_link {η : Type} (self : NodeReport) {messages : List Message}
    (hm : ∀ m ∈ messages, m.payload.length + 12 < s32Bound) (handlers : Handlers η)
    (hparser : b.parser = Harbor.packetParser) (h : (link a b).Run NoLateFlush s)
    (hgiven : contexts s.left.trace <+: (framesOf self messages).flatten) :
    ∃ receiver events,
      NodeSession.receiveAll handlers .create (packets s.right.trace) = .ok (receiver, events) ∧
      events <+: arrivals handlers self messages ∧
      ((∀ f ∈ s.right.stack, f.isOnRecv = false) → s.right.trace.any Obs.rejected = false →
        processed s.right.trace = (framesOf self messages).flatten →
          events = arrivals handlers self messages) := by
  have hleft : (system a).Run World.NoLateFlush s.left := Link.run_left h fun _ _ hg => hg
  have hright := Link.reachable_right h.reachable
  have hcarries : Carries b.parser (framesOf self messages) :=
    hparser ▸ Harbor.carries (framesOf_isFrame self hm)
  have hcome : Net.received s.right.trace <+: (framesOf self messages).flatten :=
    (Link.conserved h.reachable ▸ List.prefix_append _ _ : _ <+: wire s.left.trace).trans
      ((wire_contexts hleft).trans hgiven)
  have hpackets := hright.segmented.isPrefix hcarries hcome
  obtain ⟨receiver, events, hreceive, hevents, hlength⟩ := receiveAll_prefix handlers self hm hpackets
  refine ⟨receiver, events, hreceive, hevents, fun hf hn hall => ?_⟩
  obtain ⟨hsplit, hi⟩ := hright.rest hf hn
  have hwhole := whole_of_incomplete hcarries hpackets hsplit
    (hall ▸ List.prefix_rfl) hi
  rw [hall, whole_all] at hwhole
  refine hevents.eq_of_length ?_
  rw [hlength, hwhole]
  simp [framesOf, arrivals]

/-- **Harbor over a connection.** The session of the left node is given its report and then
messages, each by `PrepareSend` and its `Send`s, of which any part may have been given so far.
Then, in every state of the two ends, the right node has opened the left one as it has reported
itself, or nothing yet, and has dispatched the first of the messages, in order, each once, with
its payload and without a fault. At rest, with all bytes processed, these are all messages. -/
theorem harbor_over_link {σ η : Type} [DecidableEq σ] {nodes : Nodes σ} {nodeType nodeId : Int32}
    {session : σ} (hs : nodes nodeType nodeId = some session) (self : NodeReport)
    {messages : List Message} (hm : ∀ m ∈ messages, m.payload.length + 12 < s32Bound)
    (handlers : Handlers η) (hparser : b.parser = Harbor.packetParser)
    (h : (link a b).Run NoLateFlush s)
    (hgiven : contexts s.left.trace <+: NodeSession.onConnected self ++
      written session (messages.flatMap (Message.writes nodes nodeType nodeId))) :
    ∃ receiver events,
      NodeSession.receiveAll handlers .create (packets s.right.trace) = .ok (receiver, events) ∧
      events <+: arrivals handlers self messages ∧
      ((∀ f ∈ s.right.stack, f.isOnRecv = false) → s.right.trace.any Obs.rejected = false →
        processed s.right.trace = (framesOf self messages).flatten →
          events = arrivals handlers self messages) := by
  rw [written_messages hs hm] at hgiven
  exact received_over_link self hm handlers hparser h hgiven

/-- A harbor connection with room for a few frames. -/
def Config.roomy : Config :=
  { Config.small with
    sendSize := 48
    recvSize := 48
    send_pos := by decide
    recv_pos := by decide
    send_lt := by decide
    recv_lt := by decide }

/-- A report and a message in two pieces, cut within the frame of the message. -/
theorem harbor_over_link_two : ∃ (s : Link Config.roomy Config.roomy) (receiver : NodeSession),
    packets s.right.trace = framesOf ⟨2, 7, 0, true⟩ [⟨3, [[5], [6, 7]]⟩] ∧
    NodeSession.receiveAll (fun _ _ => some ()) .create (packets s.right.trace) =
      .ok (receiver, arrivals (fun _ _ => some ()) ⟨2, 7, 0, true⟩ [⟨3, [[5], [6, 7]]⟩]) := by
  obtain ⟨s, h, hs⟩ := (link Config.roomy Config.roomy).run_of_exec (P := NoLateFlush)
    [.left (.send (NodeSession.onConnected ⟨2, 7, 0, true⟩)), .left .ret, .right .ret,
      .left (.send (NodeSession.prepareSendNodeMessage 7)), .left (.send (s32Bytes 3)),
      .left .take, .left (.runSend [.sent 21]), .left .push, .left .process, .left .take,
      .left (.send [5]), .left (.send [6, 7]), .left (.runSend [.sent 12]), .left .push,
      .left .process, .right .onIn, .right .take,
      .right (.runRecv [.data 0 [0, 0, 0, 21, 0, 0, 0, 2, 0, 0, 0, 7, 0, 0, 0, 0, 0, 0, 0, 1,
        1, 0, 0, 0, 15, 0, 0]]),
      .right .push, .right .process, .right .ret, .left .take, .left (.runSend [.sent 3]),
      .right .onIn, .right .take, .right (.runRecv [.data 0 [3, 0, 0, 0, 5, 6, 7]]), .right .push,
      .right .process, .right .ret]
    (p := fun s => contexts s.left.trace == (framesOf ⟨2, 7, 0, true⟩ [⟨3, [[5], [6, 7]]⟩]).flatten &&
      processed s.right.trace == (framesOf ⟨2, 7, 0, true⟩ [⟨3, [[5], [6, 7]]⟩]).flatten &&
      packets s.right.trace == framesOf ⟨2, 7, 0, true⟩ [⟨3, [[5], [6, 7]]⟩] &&
      s.right.stack.isEmpty && !s.right.trace.any Obs.rejected) (by decide)
  simp only [Bool.and_eq_true, beq_iff_eq, List.isEmpty_iff, Bool.not_eq_true'] at hs
  obtain ⟨⟨⟨⟨hgiven, hall⟩, hpackets⟩, hstack⟩, hok⟩ := hs
  have hm : ∀ m ∈ [(⟨3, [[5], [6, 7]]⟩ : Message)], m.payload.length + 12 < s32Bound := by decide
  obtain ⟨receiver, events, hreceive, _, hdone⟩ := harbor_over_link
    (show oneNode 3 1 = some () by decide) ⟨2, 7, 0, true⟩ hm (fun _ _ => some ()) rfl h
    (by rw [hgiven]; exact List.prefix_rfl)
  rw [hdone (by rw [hstack]; exact fun _ hf => absurd hf List.not_mem_nil) hok hall] at hreceive
  exact ⟨s, receiver, hpackets, hreceive⟩

end HyperNet.Logic
