import HyperNet.Logic.Chunking
import HyperNet.Logic.Harbor

/-! # From PrepareSend to OnNodeMessage

The sender computes two lengths and writes a frame in pieces; TCP joins and cuts the
pieces as it likes; the receiver cuts the stream into frames again. -/
namespace HyperNet.Logic
open HyperNet.Public HyperNet.Api HyperNet.Net HyperNet.Core.Framing

/-! ## What is written is a frame -/

theorem NodeSession.onConnected_isFrame (self : NodeReport) : IsFrame (onConnected self) := by
  refine ⟨by simp [onConnected, HarborHeader.bytes, NodeReport.bytes, HarborHeader.size], ?_⟩
  have hlen : (onConnected self).length = 21 := by
    simp [onConnected, HarborHeader.bytes, NodeReport.bytes]
  rw [hlen]
  exact readS32_of_drop (x := 21) rfl

theorem Message.frame_isFrame {m : Message} (hm : m.payload.length + 12 < s32Bound) :
    IsFrame m.frame := by
  rw [← length_frame] at hm
  refine ⟨by simp [length_frame, HarborHeader.size], ?_⟩
  rw [length_frame] at hm ⊢
  exact (readS32_of_drop (x := ((m.payload.length + 12 : Nat) : Int)) rfl).trans (s32_of_lt hm)

/-! ## What is read is what was framed -/

namespace NodeSession
variable {η : Type}

theorem NodeReport.read_onConnected (self : NodeReport) :
    NodeReport.read (onConnected self) = .ok self := by
  have ht : field (onConnected self) HarborHeader.size = .ok self.nodeType := field_of_drop rfl
  have hi : field (onConnected self) (HarborHeader.size + 4) = .ok self.nodeId := field_of_drop rfl
  have hp : field (onConnected self) (HarborHeader.size + 8) = .ok self.port := field_of_drop rfl
  have hh : fieldBool (onConnected self) (HarborHeader.size + 12) = .ok self.hide := by
    cases hhide : self.hide <;>
      simp [fieldBool, onConnected, HarborHeader.bytes, NodeReport.bytes, HarborHeader.size,
        s32Bytes, hhide]
  simp only [NodeReport.read, ht, hi, hp, hh]
  rfl

/-- The report opens a session that is not ready. -/
theorem receive_onConnected (handlers : Handlers η) (self : NodeReport) {s : NodeSession}
    (hs : s.ready = false) : s.receive handlers (onConnected self) =
      .ok (⟨true, self.nodeType, self.nodeId⟩, .onNodeOpen self) := by
  have hmessage : field (onConnected self) 0 = .ok REPORT := field_of_drop rfl
  simp only [receive, onRecv, hmessage, hs, NodeReport.read_onConnected self]
  rfl

/-- A message that was framed goes to the handler for it. -/
theorem receive_frame (handlers : Handlers η) {m : Message}
    (hm : m.payload.length + 12 < s32Bound) {s : NodeSession} (hs : s.ready = true) :
    s.receive handlers m.frame = .ok (s, .dispatch (Harbor.findHandler handlers s.nodeType m.id)
      s.nodeType s.nodeId m.id m.payload) :=
  receive_message handlers hs (field_of_drop rfl) (field_of_drop rfl)
    (by rwa [Message.length_frame])

/-- Messages on a ready session, one after the other. -/
theorem receiveAll_frames (handlers : Handlers η) {messages : List Message}
    (hm : ∀ m ∈ messages, m.payload.length + 12 < s32Bound) {s : NodeSession}
    (hs : s.ready = true) : receiveAll handlers s (messages.map Message.frame) =
      .ok (s, messages.map fun m => .dispatch (Harbor.findHandler handlers s.nodeType m.id)
        s.nodeType s.nodeId m.id m.payload) := by
  induction messages with
  | nil => rfl
  | cons m ms ih =>
    have hrest := ih fun m' h => hm m' (List.mem_cons_of_mem m h)
    simp [receiveAll, receive_frame handlers (hm m List.mem_cons_self) hs, hrest, bind,
      Except.bind, pure, Except.pure]

end NodeSession
/-! ## The whole way -/

/-- What the receiver has of a sender: its report, then its messages. -/
def arrivals {η : Type} (handlers : Handlers η) (self : NodeReport) (messages : List Message) :
    List (Event η) :=
  .onNodeOpen self :: messages.map fun m =>
    .dispatch (Harbor.findHandler handlers self.nodeType m.id) self.nodeType self.nodeId m.id
      m.payload

/-- The session of a receiver is handed the packets of its connection. -/
def received {η : Type} (handlers : Handlers η) (recvSize : Nat) (reads : List (List UInt8))
    (events : List (Event η)) : Prop :=
  ∃ packets s, Outcome.Accepts (Harbor.feed recvSize reads) packets ∧
    NodeSession.receiveAll handlers .create packets = .ok (s, events)

/-- The frames of a report and of messages, however they are cut, are received as such. -/
theorem received_frames {η : Type} (self : NodeReport) {messages : List Message}
    (hm : ∀ m ∈ messages, m.payload.length + 12 < s32Bound) (handlers : Handlers η)
    {recvSize : Nat} (hn : recvSize < s32Bound) {reads : List (List UInt8)}
    (hcut : IsCut recvSize
      (NodeSession.onConnected self :: messages.map Message.frame).flatten reads)
    (hroom : RecvSide.HasRoom Harbor.packetParser (.start recvSize) reads) :
    received handlers recvSize reads (arrivals handlers self messages) := by
  let frames := NodeSession.onConnected self :: messages.map Message.frame
  have hframes : ∀ f ∈ frames, IsFrame f := by
    intro f hf
    rcases List.mem_cons.mp hf with rfl | hf
    · exact NodeSession.onConnected_isFrame self
    · obtain ⟨m, hmem, rfl⟩ := List.mem_map.mp hf
      exact Message.frame_isFrame (hm m hmem)
  have hfits : Fits recvSize frames 0 reads :=
    (Harbor.hasRoom_iff_fits hn hframes hcut).mp hroom
  refine ⟨frames, ⟨true, self.nodeType, self.nodeId⟩,
    (Harbor.feed_accepts hn hframes hcut frames).mpr ⟨hfits, rfl⟩, ?_⟩
  have hopen := NodeSession.receive_onConnected handlers self (s := .create) rfl
  have hrest := NodeSession.receiveAll_frames handlers hm
    (s := ⟨true, self.nodeType, self.nodeId⟩) rfl
  simp [frames, NodeSession.receiveAll, hopen, hrest, arrivals, bind, Except.bind, pure,
    Except.pure]

/-- **Framing round trip.** A node reports itself on a session and then sends messages through
the registry of Harbor, each with `PrepareSend` for the size that its `Send`s come to. However
the bytes are cut into reads for which `ProcessPacket` has room, the receiver opens the node
once, as it has reported itself, and then dispatches the messages in order, each once and with
its payload. -/
theorem framing_round_trip {σ η : Type} [DecidableEq σ] {nodes : Nodes σ}
    {nodeType nodeId : Int32} {s : σ} (hs : nodes nodeType nodeId = some s) (self : NodeReport)
    {messages : List Message} (hm : ∀ m ∈ messages, m.payload.length + 12 < s32Bound)
    (handlers : Handlers η) {recvSize : Nat} (hn : recvSize < s32Bound)
    {reads : List (List UInt8)}
    (hcut : IsCut recvSize (NodeSession.onConnected self ++
      written s (messages.flatMap (Message.writes nodes nodeType nodeId))) reads)
    (hroom : RecvSide.HasRoom Harbor.packetParser (.start recvSize) reads) :
    received handlers recvSize reads (arrivals handlers self messages) := by
  rw [written_messages hs hm] at hcut
  exact received_frames self hm handlers hn hcut hroom

/-- A registry with the one node (3, 1). -/
def oneNode : Nodes Unit := fun nodeType nodeId =>
  if nodeType = 3 ∧ nodeId = 1 then some () else none

/-- Two messages to it, the second without payload: read as the report with half a message,
and the rest. -/
theorem framing_round_trip_two : received (fun _ _ => some ()) 64
    [[0, 0, 0, 0, 21, 0, 0, 0, 2, 0, 0, 0, 7, 0, 0, 0, 0, 0, 0, 0, 1, 1, 0, 0, 0, 15, 0, 0],
      [0, 3, 0, 0, 0, 5, 6, 7, 1, 0, 0, 0, 12, 0, 0, 0, 4, 0, 0, 0]]
    (arrivals (fun _ _ => some ()) ⟨2, 7, 0, true⟩ [⟨3, [[5], [6, 7]]⟩, ⟨4, []⟩]) :=
  framing_round_trip (show oneNode 3 1 = some () by decide) ⟨2, 7, 0, true⟩ (by decide) _
    (by decide) (isCut_of_all (by decide)) (by decide)

end HyperNet.Logic
