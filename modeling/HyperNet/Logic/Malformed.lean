import HyperNet.Logic.Cluster
import HyperNet.Net.ProcessPacket
import HyperNet.ScriptEngine.Outside

/-! # What a peer can send

No layer checks what the layer below has not: `ParsePacket` answers with the length field
as it is, `OnRecv` and `OnNodeMessage` assert what kind and size a packet has, or read it
without, and a handler asserts the contents, or leaves them to `l_unserialize`. So a connection
is safe exactly from the streams whose packets are all of the kind, the size and the contents
that the state of the session calls for. -/
namespace HyperNet.Logic
open HyperNet.Public HyperNet.Api HyperNet.Net HyperNet.ScriptEngine

/-- The kind that the header of a packet names. -/
def HarborHeader.kind (packet : List UInt8) : Int32 := .ofInt (message packet)

/-- The operating system would let this address be dialled. -/
structure Dialable (os : Os) (ip : List UInt8) (port : Int32) : Prop where
  format : takesArguments ip = false
  accepts : os.socket = true →
    os.setNonBlock = true ∧ os.inetPton ip = true ∧ os.connect ip port = true ∧ os.epollAdd = true

/-- What `NewNodeComming` is there to get. -/
structure NewNodeOk (os : Nat → Os) (p : Process) (context : List UInt8) : Prop where
  size : context.length = NewNode.size
  port : 0 < (NewNode.of context).port
  dial : p.passesOver (NewNode.of context) = false → 0 ∈ context.drop NewNode.ip ∧
    Dialable (os p.dials) ((context.drop NewNode.ip).takeWhile (· != 0)) (NewNode.of context).port

/-- What a handler of Rpc is there to get: no STRING in it leaves the payload, no value in it
stands higher than slots are ensured, and the scripts stand the values. -/
structure PayloadOk (scripts : Scripts) (h : Handler) (context : List UInt8) : Prop where
  inside : ¬StringMeets Outside context
  slots : ¬Exceeding 0 context
  returns : Unserializes context → scripts.returns h context = true

/-- What a handler is there to get. -/
def Handler.Takes (os : Nat → Os) (scripts : Nat → Scripts) (p : Process) (context : List UInt8) :
    Handler → Prop
  | .newNodeComming => NewNodeOk os p context
  | h => PayloadOk (scripts p.calls) h context

/-- What is known after a handler. -/
def Handler.after (p : Process) (context : List UInt8) : Handler → Process
  | .newNodeComming => if p.passesOver (NewNode.of context) then p else p.dial (NewNode.of context)
  | _ => { p with calls := p.calls + 1 }

/-- Master, where there is one, knows no other address of a node that does not hide. -/
def Process.Agrees (p : Process) (ip : List UInt8) (report : NodeReport) : Prop :=
  ∀ nodes ∈ p.master, report.hide = false →
    ∀ address ∈ nodes.lookup (nodeKey report.nodeType report.nodeId), address = (ip, report.port)

namespace Node
variable (os : Nat → Os) (scripts : Nat → Scripts) (handlers : Handlers Handler)

/-- What a session that is not ready is there to get. -/
structure ReportOk (node : Node) (packet : List UInt8) : Prop where
  kind : HarborHeader.kind packet = REPORT
  size : HarborHeader.size + NodeReport.size ≤ packet.length
  known : node.process.Agrees node.remoteIp (NodeReport.of packet)

/-- The handler that a message on a ready session is for. -/
def handlerOf (node : Node) (packet : List UInt8) : Option Handler :=
  Harbor.findHandler handlers node.session.nodeType (.ofInt (readS32 packet HarborHeader.size))

/-- What a ready session is there to get. -/
structure MessageOk (node : Node) (packet : List UInt8) : Prop where
  kind : HarborHeader.kind packet = MESSAGE
  size : HarborHeader.size + 4 ≤ packet.length
  handler : ∀ h, node.handlerOf handlers packet = some h →
    h.Takes os scripts node.process (packet.drop (HarborHeader.size + 4))

/-- The packet is one that the state of the session calls for. -/
def Expected (node : Node) (packet : List UInt8) : Prop :=
  if node.session.ready then node.MessageOk os scripts handlers packet else node.ReportOk packet

/-- What Master keeps of a report. -/
def opened (ip : List UInt8) (report : NodeReport) (p : Process) : Process :=
  { p with master := p.master.map fun nodes =>
      if report.hide then nodes
      else (nodeKey report.nodeType report.nodeId, ip, report.port) :: nodes }

/-- What is known after a packet that was called for. -/
def after (node : Node) (packet : List UInt8) : Node :=
  if node.session.ready then
    match node.handlerOf handlers packet with
    | none => node
    | some h => { node with process := h.after node.process (packet.drop (HarborHeader.size + 4)) }
  else
    let report := NodeReport.of packet
    { node with
      session := ⟨true, report.nodeType, report.nodeId⟩
      process := opened node.remoteIp report node.process }

/-! ## One packet -/

/-- A connection fed these reads, up to the first `ProcessPacket` that returns false: `ok`
unless something has gone wrong beyond closing the connection. -/
def run {n : Nat} : Node → RecvSide n → List (List UInt8) → Except Fault Unit
  | _, _, [] => .ok ()
  | node, r, bytes :: reads =>
    match (r.read bytes).processPackets Harbor.packetParser with
    | none => .error .overrun
    | some o => do
      let node ← node.handleAll os scripts handlers o.packets
      if o.ok then run node o.side reads else return ()

/-- The packets are called for one after the other. -/
def AllExpected : Node → List (List UInt8) → Prop
  | _, [] => True
  | node, packet :: packets => node.Expected os scripts handlers packet ∧
      AllExpected (node.after handlers packet) packets

def afterAll : Node → List (List UInt8) → Node
  | node, [] => node
  | node, packet :: packets => afterAll (node.after handlers packet) packets

/-- The packets that `ParsePacket` delimits in the reads are called for, as far as the reads fit
behind the bytes `left` over; and where one does not fit, the check can tell. -/
def Orderly (n : Nat) : Node → List UInt8 → List (List UInt8) → Prop
  | _, _, [] => True
  | node, left, bytes :: reads =>
    if left.length + bytes.length ≤ n then
      AllExpected os scripts handlers node (found Harbor.packetParser (left ++ bytes)).packets ∧
        ((found Harbor.packetParser (left ++ bytes)).more = true →
          Orderly n (afterAll handlers node (found Harbor.packetParser (left ++ bytes)).packets)
            (found Harbor.packetParser (left ++ bytes)).rest reads)
    else left.length + bytes.length < s32Bound

end Node

/-- The handlers that Cluster and Rpc register. -/
def registered : Handlers Handler := fun nodeType messageId =>
  if nodeType = 1 ∧ messageId = 1 then some .newNodeComming
  else if nodeType = ANY_NODE ∧ messageId = 2 then some .onCallNoRet
  else if nodeType = ANY_NODE ∧ messageId = 3 then some .onCall
  else if nodeType = ANY_NODE ∧ messageId = 4 then some .onRespone
  else none

/-- The node (2, 1), with a session that has just been connected. -/
def Node.fresh : Node := ⟨.create, ⟨⟨2, 1, 7001, false⟩, [], none, 0, 0⟩, []⟩

end HyperNet.Logic
