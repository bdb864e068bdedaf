import HyperNet.Logic.NodeSession
import HyperNet.ScriptEngine.Serialize

/-! # What a packet reaches behind its session (Cluster.cpp, Master.cpp, NetEngine.cpp, Rpc.cpp)

A report makes Harbor call its listeners, of which the one of Master asserts something of
what it is told. A message reaches the protocol handler for it: `Cluster::NewNodeComming`
dials the node it is told of, and the handlers of Rpc hand the bytes to the scripts, which
unserialize them. -/
namespace HyperNet.Logic
open HyperNet.Public HyperNet.ScriptEngine

/-- `((s64)nodeType << 32) | ((s64)nodeId)`. -/
def nodeKey (nodeType nodeId : Int32) : BitVec 64 :=
  nodeType.toBitVec.signExtend 64 <<< 32 ||| nodeId.toBitVec.signExtend 64

/-- How the operating system and the C library answer one `NetEngine::Connect`. -/
structure Os where
  socket : Bool
  setNonBlock : Bool
  inetPton : List UInt8 → Bool
  /-- `connect` returns 0, or -1 with `EINPROGRESS`. -/
  connect : List UInt8 → Int32 → Bool
  epollAdd : Bool

/-- What the process of a node keeps of other nodes. -/
structure Process where
  /-- The node itself, as it reports itself. -/
  self : NodeReport
  /-- `Cluster::s_openNode`. -/
  openNode : List (BitVec 64)
  /-- `Master::s_nodes`, where the process runs a Master. -/
  master : Option (List (BitVec 64 × List UInt8 × Int32))
  /-- How many nodes it has dialled. -/
  dials : Nat
  /-- How many payloads it has handed to its scripts. -/
  calls : Nat
  deriving DecidableEq

/-- The C string at byte `i`. -/
def cString (bytes : List UInt8) (i : Nat) : Except Fault (List UInt8) :=
  if 0 ∈ bytes.drop i then .ok ((bytes.drop i).takeWhile (· != 0)) else .error .outside

/-- A `printf` format asks for an argument: a percent sign that no other follows. -/
def takesArguments : List UInt8 → Bool
  | [] => false
  | [c] => c == 37
  | c :: d :: format =>
    if c == 37 then (if d == 37 then takesArguments format else true)
    else takesArguments (d :: format)

/-- `NetEngine::Connect`. It gives up on a socket, and asserts everything else. -/
def NetEngine.connect (os : Os) (ip : List UInt8) (port : Int32) : Except Fault Unit :=
  if os.socket then
    if os.setNonBlock && os.inetPton ip && os.connect ip port && os.epollAdd then .ok ()
    else .error .assertion
  else .ok ()

/-- `Harbor::Connect`; `SetConnect` copies the address with the address as the format. -/
def Harbor.connect (os : Os) (ip : List UInt8) (port : Int32) : Except Fault Unit :=
  if takesArguments ip then .error .badFormat else NetEngine.connect os ip port

/-- `node_proto::NewNode`, from its bytes. -/
structure NewNode where
  nodeType : Int32
  nodeId : Int32
  port : Int32
  deriving DecidableEq

namespace NewNode

/-- `sizeof(node_proto::NewNode)`. -/
def size : Nat := 76

/-- Where `ip` begins. -/
def ip : Nat := 8

def of (context : List UInt8) : NewNode :=
  ⟨.ofInt (readS32 context 0), .ofInt (readS32 context 4), .ofInt (readS32 context 72)⟩

end NewNode

namespace Process

/-- The node is known, or it is one of the same type that dials this one by itself. -/
def passesOver (p : Process) (info : NewNode) : Bool :=
  p.openNode.contains (nodeKey info.nodeType info.nodeId) ||
    (info.nodeType == p.self.nodeType && decide (info.nodeId ≤ p.self.nodeId))

/-- The node is dialled. -/
def dial (p : Process) (info : NewNode) : Process :=
  { p with openNode := nodeKey info.nodeType info.nodeId :: p.openNode, dials := p.dials + 1 }

/-- `Cluster::NewNodeComming` on the bytes that it is handed. -/
def newNodeComming (os : Nat → Os) (p : Process) (context : List UInt8) : Except Fault Process :=
  if context.length = NewNode.size then
    let info := NewNode.of context
    if 0 < info.port then
      if p.passesOver info then .ok p
      else do
        let ip ← cString context NewNode.ip
        Harbor.connect (os p.dials) ip info.port
        return p.dial info
    else .error .assertion
  else .error .assertion

/-- `Master::OnOpen` of a node at an address. -/
def onOpen (ip : List UInt8) (report : NodeReport) (p : Process) : Except Fault Process :=
  match p.master with
  | none => .ok p
  | some nodes =>
    if report.hide then .ok p
    else
      let key := nodeKey report.nodeType report.nodeId
      if (nodes.lookup key).all (· == (ip, report.port)) then
        .ok { p with master := some ((key, ip, report.port) :: nodes) }
      else .error .assertion

end Process

/-- The protocol handlers. -/
inductive Handler
  | newNodeComming | onCall | onCallNoRet | onRespone
  deriving DecidableEq, Repr

/-- The scripts when a payload is handed to them. -/
structure Scripts where
  /-- The tables there are. -/
  heap : List Table
  /-- What harbor.lua calls with the values of a payload comes back, with an error or without. -/
  returns : Handler → List UInt8 → Bool

/-- `Rpc::OnCall`, `Rpc::OnCallNoRet` or `Rpc::OnRespone`: in harbor.lua, the function of this name
begins with `string.unserialize`. `lua_pcall` catches an error. -/
def Scripts.call (scripts : Scripts) (h : Handler) (context : List UInt8) : Except Fault Unit :=
  let r := results (lUnserialize context) ⟨.call [.string context] scripts.heap, .ofString []⟩
  if (final r).L.exceeded then .error .slots
  else
    match r with
    | .ok _ _ => if scripts.returns h context then .ok () else .error .script
    | .error (.error _) _ => .ok ()
    | .error _ _ => .error .outside

/-- A protocol handler on the bytes that it is handed. -/
def Handler.call (os : Nat → Os) (scripts : Nat → Scripts) (p : Process) (context : List UInt8)
    (h : Handler) : Except Fault Process :=
  match h with
  | .newNodeComming => p.newNodeComming os context
  | .onCall | .onCallNoRet | .onRespone =>
    ((scripts p.calls).call h context).map fun _ => { p with calls := p.calls + 1 }

/-- A session in its process, with the address of its peer. -/
structure Node where
  session : NodeSession
  process : Process
  remoteIp : List UInt8
  deriving DecidableEq

namespace Node

/-- What is left to do for a packet once Harbor knows what it is. -/
def effect (os : Nat → Os) (scripts : Nat → Scripts) (ip : List UInt8) (p : Process) :
    Event Handler → Except Fault Process
  | .onNodeOpen report => p.onOpen ip report
  | .dispatch handler _ _ _ payload =>
    match handler with
    | none => .ok p
    | some h => h.call os scripts p payload

/-- A packet, from `NodeSession::OnRecv` to the return of what it reaches. -/
def handle (os : Nat → Os) (scripts : Nat → Scripts) (handlers : Handlers Handler) (node : Node)
    (packet : List UInt8) : Except Fault Node := do
  let (s, e) ← node.session.receive handlers packet
  let p ← effect os scripts node.remoteIp node.process e
  return { node with session := s, process := p }

/-- The packets that one `ProcessPacket` hands on. -/
def handleAll (os : Nat → Os) (scripts : Nat → Scripts) (handlers : Handlers Handler) :
    Node → List (List UInt8) → Except Fault Node
  | node, [] => .ok node
  | node, packet :: packets => do
    let node ← node.handle os scripts handlers packet
    handleAll os scripts handlers node packets

end Node
end HyperNet.Logic
