import HyperNet.Logic.Frame

/-! # Node sessions and the messages of Harbor (NodeSession.cpp, Harbor.cpp)

The sending side frames what it is given by its lengths alone; the receiving side casts
what `ParsePacket` has delimited to the structs it expects. What can go wrong there is a
`Fault`; the process is not defined beyond it. -/
namespace HyperNet.Logic
open HyperNet.Public

/-- What must not happen to a packet. -/
inductive Fault
  /-- An `OASSERT` fails. -/
  | assertion
  /-- A field is read outside the packet. -/
  | outside
  /-- A handler is called with a negative size, or with bytes outside the packet. -/
  | badCall
  /-- `snprintf` is given a format of which it takes arguments that are not there. -/
  | badFormat
  /-- `memcpy` runs past the receive buffer. -/
  | overrun
  /-- A value is pushed on a slot of the Lua stack that nothing has ensured. -/
  | slots
  /-- A function of the scripts does not come back. -/
  | script
  deriving DecidableEq, Repr

/-- The `s32` at byte `i` of a packet. -/
def field (packet : List UInt8) (i : Nat) : Except Fault Int32 :=
  if i + 4 ≤ packet.length then .ok (.ofInt (readS32 packet i)) else .error .outside

/-- A field that was written is read back. -/
theorem field_of_drop {packet rest : List UInt8} {i : Nat} {x : Int32}
    (h : packet.drop i = s32Bytes x.toInt ++ rest) : field packet i = .ok x := by
  have hlen := congrArg List.length h
  simp only [List.length_drop, List.length_append, length_s32Bytes] at hlen
  have hx : s32 x.toInt = x.toInt := Int32.toInt_bmod x
  rw [field, if_pos (by omega), readS32_of_drop h, hx, Int32.ofInt_toInt]

/-- The `bool` at byte `i` of a packet. -/
def fieldBool (packet : List UInt8) (i : Nat) : Except Fault Bool :=
  if i + 1 ≤ packet.length then .ok (packet.getD i 0 != 0) else .error .outside

/-- `harbor::MessageID`. -/
def REPORT : Int32 := 0

def MESSAGE : Int32 := 1

def HarborHeader.bytes (message : Int32) (len : Int) : List UInt8 :=
  s32Bytes message.toInt ++ s32Bytes len

structure NodeReport where
  nodeType : Int32
  nodeId : Int32
  port : Int32
  hide : Bool
  deriving DecidableEq

namespace NodeReport

/-- `sizeof(NodeReport)`, packed. -/
def size : Nat := 13

def bytes (r : NodeReport) : List UInt8 :=
  s32Bytes r.nodeType.toInt ++ s32Bytes r.nodeId.toInt ++ s32Bytes r.port.toInt ++
    [if r.hide then 1 else 0]

/-- What the bytes behind the header of a packet say as a report. -/
def of (packet : List UInt8) : NodeReport :=
  ⟨.ofInt (readS32 packet 8), .ofInt (readS32 packet 12), .ofInt (readS32 packet 16),
    packet.getD 20 0 != 0⟩

/-- The report behind the header of a packet. -/
def read (packet : List UInt8) : Except Fault NodeReport := do
  let nodeType ← field packet HarborHeader.size
  let nodeId ← field packet (HarborHeader.size + 4)
  let port ← field packet (HarborHeader.size + 8)
  let hide ← fieldBool packet (HarborHeader.size + 12)
  return ⟨nodeType, nodeId, port, hide⟩

end NodeReport

/-- What `OnRecv` keeps of a session. -/
structure NodeSession where
  ready : Bool
  nodeType : Int32
  nodeId : Int32
  deriving DecidableEq

/-- What a session asks of Harbor: `OnNodeOpen`, or `OnNodeMessage` on the bytes from `pos`
on with a `size` that may be anything. -/
inductive NodeCall
  | onNodeOpen (report : NodeReport)
  | onNodeMessage (nodeType nodeId : Int32) (pos : Nat) (size : Int)
  deriving DecidableEq

namespace NodeSession

def create : NodeSession := ⟨false, 0, 0⟩

/-- `NodeSession::OnConnected`: what it sends, for what `Harbor::Self()` says of itself. -/
def onConnected (self : NodeReport) : List UInt8 :=
  HarborHeader.bytes REPORT ((HarborHeader.size + NodeReport.size : Nat) : Int) ++ self.bytes

/-- `NodeSession::OnRecv`. -/
def onRecv (s : NodeSession) (packet : List UInt8) : Except Fault (NodeSession × NodeCall) := do
  let message ← field packet 0
  if s.ready = false then
    if message ≠ REPORT then .error .assertion
    else do
      let report ← NodeReport.read packet
      return (⟨true, report.nodeType, report.nodeId⟩, .onNodeOpen report)
  else if message ≠ MESSAGE then .error .assertion
  else return (s, .onNodeMessage s.nodeType s.nodeId HarborHeader.size
    (packet.length - HarborHeader.size : Int))

/-- `NodeSession::PrepareSendNodeMessage`: what it sends. -/
def prepareSendNodeMessage (size : Int) : List UInt8 :=
  HarborHeader.bytes MESSAGE (s32 (size + HarborHeader.size))

end NodeSession

/-! ## Harbor::OnNodeMessage -/

/-- `ANY_NODE`. -/
def ANY_NODE : Int32 := -1

/-- `_handlers`, by node type and message. -/
abbrev Handlers (η : Type) := Int32 → Int32 → Option η

/-- A call of a protocol handler, or none for want of one: identity of the sender, message,
and the bytes of the packet it is given. -/
structure Dispatch (η : Type) where
  handler : Option η
  nodeType : Int32
  nodeId : Int32
  messageId : Int32
  pos : Nat
  size : Int
  deriving DecidableEq

namespace Harbor
variable {η : Type}

/-- The handler for a message: of the sender's type, or else of any. -/
def findHandler (handlers : Handlers η) (nodeType messageId : Int32) : Option η :=
  match handlers nodeType messageId with
  | none => handlers ANY_NODE messageId
  | some handler => some handler

/-- `size >= sizeof(s32)`: the `s32` becomes a `size_t`. -/
def atLeastS32 (size : Int) : Bool := decide (4 ≤ size % 2 ^ 64)

/-- `Harbor::OnNodeMessage`, up to its call of the handler. -/
def onNodeMessage (handlers : Handlers η) (nodeType nodeId : Int32) (packet : List UInt8)
    (pos : Nat) (size : Int) : Except Fault (Dispatch η) := do
  if atLeastS32 size then
    let messageId ← field packet pos
    return ⟨findHandler handlers nodeType messageId, nodeType, nodeId, messageId, pos + 4,
      s32 (size - 4)⟩
  else .error .assertion

/-- With room for an id, the handler for it gets what follows. -/
theorem onNodeMessage_ok {handlers : Handlers η} {nodeType nodeId messageId : Int32}
    {packet : List UInt8} {pos : Nat} {size : Int} (hs : atLeastS32 size = true)
    (hid : field packet pos = .ok messageId) :
    onNodeMessage handlers nodeType nodeId packet pos size =
      .ok ⟨findHandler handlers nodeType messageId, nodeType, nodeId, messageId, pos + 4,
        s32 (size - 4)⟩ := by
  simp only [onNodeMessage, hs, hid]
  rfl

end Harbor

namespace Dispatch
variable {η : Type}

/-- The handler is given bytes of the packet. -/
def inside (d : Dispatch η) (packet : List UInt8) : Bool :=
  d.handler.isNone || decide (0 ≤ d.size ∧ (d.pos + d.size : Int) ≤ packet.length)

/-- The bytes that the handler is given. -/
def payload (d : Dispatch η) (packet : List UInt8) : List UInt8 :=
  (packet.drop d.pos).take d.size.toNat

end Dispatch

/-- What Harbor does for a packet. -/
inductive Event (η : Type)
  | onNodeOpen (report : NodeReport)
  | dispatch (handler : Option η) (nodeType nodeId messageId : Int32) (payload : List UInt8)
  deriving DecidableEq

namespace NodeSession
variable {η : Type}

/-- A packet on its way to a handler. -/
def receive (handlers : Handlers η) (s : NodeSession) (packet : List UInt8) :
    Except Fault (NodeSession × Event η) := do
  let (s, call) ← s.onRecv packet
  match call with
  | .onNodeOpen report => return (s, .onNodeOpen report)
  | .onNodeMessage nodeType nodeId pos size =>
    let d ← Harbor.onNodeMessage handlers nodeType nodeId packet pos size
    if d.inside packet then
      return (s, .dispatch d.handler d.nodeType d.nodeId d.messageId (d.payload packet))
    else .error .badCall

/-- `OnRecv` hands a message on a ready session on, whatever its size. -/
theorem onRecv_message {packet : List UInt8} {s : NodeSession} (hs : s.ready = true)
    (hm : field packet 0 = .ok MESSAGE) : s.onRecv packet =
      .ok (s, .onNodeMessage s.nodeType s.nodeId HarborHeader.size
        (packet.length - HarborHeader.size)) := by
  simp only [onRecv, hm, hs]
  rfl

theorem receive_of_dispatch {handlers : Handlers η} {packet : List UInt8} {s : NodeSession}
    {nodeType nodeId : Int32} {pos : Nat} {size : Int} {d : Dispatch η}
    (hr : s.onRecv packet = .ok (s, .onNodeMessage nodeType nodeId pos size))
    (hd : Harbor.onNodeMessage handlers nodeType nodeId packet pos size = .ok d) :
    s.receive handlers packet = if d.inside packet then
      .ok (s, .dispatch d.handler d.nodeType d.nodeId d.messageId (d.payload packet))
      else .error .badCall := by
  simp only [receive, hr, bind, Except.bind, hd]
  rfl

/-- A message with room for its id goes to the handler for it. -/
theorem receive_message (handlers : Handlers η) {packet : List UInt8} {messageId : Int32}
    {s : NodeSession} (hs : s.ready = true) (hm : field packet 0 = .ok MESSAGE)
    (hid : field packet HarborHeader.size = .ok messageId) (hlen : packet.length < s32Bound) :
    s.receive handlers packet = .ok (s, .dispatch
      (Harbor.findHandler handlers s.nodeType messageId) s.nodeType s.nodeId messageId
      (packet.drop (HarborHeader.size + 4))) := by
  have hle : HarborHeader.size + 4 ≤ packet.length := by
    by_cases hle : HarborHeader.size + 4 ≤ packet.length
    · exact hle
    · rw [field, if_neg hle] at hid
      cases hid
  simp only [HarborHeader.size] at hle
  have hfour : Harbor.atLeastS32 (packet.length - HarborHeader.size) = true := by
    unfold s32Bound at hlen
    refine decide_eq_true ?_
    show (4 : Int) ≤ (packet.length - (8 : Nat)) % 2 ^ 64
    omega
  have hsize : s32 ((packet.length : Int) - 8 - 4) = (packet.length - 12 : Nat) := by
    rw [← s32_of_lt (k := packet.length - 12) (by omega)]
    congr 1
    omega
  rw [receive_of_dispatch (onRecv_message hs hm) (Harbor.onNodeMessage_ok hfour hid), if_pos ?_]
  · simp [Dispatch.payload, hsize, HarborHeader.size, List.take_of_length_le]
  · simp [Dispatch.inside, hsize, HarborHeader.size]
    omega

/-- The packets of a connection, one after the other. -/
def receiveAll (handlers : Handlers η) : NodeSession → List (List UInt8) →
    Except Fault (NodeSession × List (Event η))
  | s, [] => .ok (s, [])
  | s, packet :: packets => do
    let (s, e) ← s.receive handlers packet
    let (s, es) ← receiveAll handlers s packets
    return (s, e :: es)

end NodeSession
end HyperNet.Logic
