import HyperNet.Script.Transparency
import HyperNet.ScriptEngine.Call

/-! # Calls between scripts (Rpc.cpp)

A script gives the module `harbor` a node and a string that it has serialized; the C function
reads them and sends them through Harbor. On the other node, the handlers that Rpc has registered
call the functions of the module with the node that has sent the string. -/
namespace HyperNet.Script
open HyperNet.Public HyperNet.Logic HyperNet.ScriptEngine

/-! ## The C functions of the module -/

/-- `node_proto::RPCNR` -/
def RPCNR : Int32 := 2

namespace Rpc
variable {σ : Type}

/-- The functions that send to a node: what they write to which session. -/
def sendTo (messageId : Int32) (c : Conversions) (nodes : Harbor.Table σ) (args : List LuaValue) :
    Except Failure (List (σ × List UInt8)) := do
  match ← LuaReader.read c "iiS" args with
  | [.i nodeType, .i nodeId, .S buffer size] =>
    return (Harbor.prepareSend nodes.nodes nodeType nodeId messageId size.toInt).2 ++
      (Harbor.send nodes.nodes nodeType nodeId (buffer.getD [])).2
  | _ => return []

def call (c : Conversions) (nodes : Harbor.Table σ) (args : List LuaValue) :
    Except Failure (List (σ × List UInt8)) :=
  sendTo RPC c nodes args

def callNoRet (c : Conversions) (nodes : Harbor.Table σ) (args : List LuaValue) :
    Except Failure (List (σ × List UInt8)) :=
  sendTo RPCNR c nodes args

def respone (c : Conversions) (nodes : Harbor.Table σ) (args : List LuaValue) :
    Except Failure (List (σ × List UInt8)) :=
  sendTo RESPONE c nodes args

def typeCall (c : Conversions) (nodes : Harbor.Table σ) (args : List LuaValue) :
    Except Failure (List (σ × List UInt8)) := do
  match ← LuaReader.read c "iS" args with
  | [.i nodeType, .S buffer size] =>
    return Harbor.prepareBrocast nodes nodeType RPCNR size.toInt ++
      Harbor.brocast nodes nodeType (buffer.getD [])
  | _ => return []

end Rpc

/-! ## The calls into the scripts -/

/-- `ScriptEngine::Call` of a function of the module. -/
structure ScriptCall where
  func : String
  arguments : List Argument
  deriving DecidableEq

namespace Rpc

/-- A node type or id, pushed for the letter `i`. -/
def pushed (n : Int32) : Argument := .integer (n.toBitVec.signExtend 64)

def onOpen (nodeType nodeId : Int32) : ScriptCall := ⟨"onOpen", [pushed nodeType, pushed nodeId]⟩

/-- The handlers of Rpc. -/
def onMessage (func : String) (nodeType nodeId : Int32) (context : List UInt8) : ScriptCall :=
  ⟨func, [pushed nodeType, pushed nodeId, .buffer context]⟩

def onCall (nodeType nodeId : Int32) (context : List UInt8) : ScriptCall :=
  onMessage "onCall" nodeType nodeId context

def onCallNoRet (nodeType nodeId : Int32) (context : List UInt8) : ScriptCall :=
  onMessage "onCallNoRet" nodeType nodeId context

def onRespone (nodeType nodeId : Int32) (context : List UInt8) : ScriptCall :=
  onMessage "onRespone" nodeType nodeId context

/-- What Harbor's calls of its listener and of its handlers make of the scripts. -/
def handle : Event Handler → List ScriptCall
  | .onNodeOpen report => [onOpen report.nodeType report.nodeId]
  | .dispatch (some .onCall) nodeType nodeId _ payload => [onCall nodeType nodeId payload]
  | .dispatch (some .onCallNoRet) nodeType nodeId _ payload =>
    [onCallNoRet nodeType nodeId payload]
  | .dispatch (some .onRespone) nodeType nodeId _ payload => [onRespone nodeType nodeId payload]
  | .dispatch (some .newNodeComming) _ _ _ _ | .dispatch none _ _ _ _ => []

end Rpc

/-! ## What scripts ask for -/

/-- The C functions of the module. -/
inductive RpcFunction
  | call | callNoRet | respone | typeCall
  deriving DecidableEq

namespace RpcFunction
variable {σ : Type}

def run : RpcFunction → Conversions → Harbor.Table σ → List LuaValue →
    Except Failure (List (σ × List UInt8))
  | .call => Rpc.call
  | .callNoRet => Rpc.callNoRet
  | .respone => Rpc.respone
  | .typeCall => Rpc.typeCall

def messageId : RpcFunction → Int32
  | .call => RPC
  | .callNoRet | .typeCall => RPCNR
  | .respone => RESPONE

/-- What comes of a message on the other node. -/
def heard : RpcFunction → Int32 → Int32 → List UInt8 → ScriptCall
  | .call => Rpc.onCall
  | .callNoRet | .typeCall => Rpc.onCallNoRet
  | .respone => Rpc.onRespone

end RpcFunction

/-- A call of one of the functions by core/harbor.lua: the values in front of the string, and the
values that `string.serialize` makes the string of. They have encodings that fit, and the slots of
the stack are enough to serialize and to unserialize them. -/
structure Request (σ : Type) where
  func : RpcFunction
  nodes : Harbor.Table σ
  nodeType : LuaValue
  nodeId : LuaValue
  caller : Machine
  memory : List UInt8
  values : List LuaValue
  items : List Item
  memory_length : memory.length = buffSize
  encodes : List.Forall₂ (fun v (item : Item) => item.Encodes (lookup caller.L.heap) v) values items
  fits : (items.flatMap Item.bytes).length ≤ buffSize
  shallow : Shallow items
  fit : Fit items

namespace Request
variable {σ : Type}

/-- The arguments of the C function. -/
def args (r : Request σ) (message : List LuaValue) : List LuaValue :=
  match r.func with
  | .typeCall => r.nodeType :: message
  | .call | .callNoRet | .respone => r.nodeType :: r.nodeId :: message

/-- What core/harbor.lua has written to sessions. -/
def writes (c : Conversions) (r : Request σ) : List (σ × List UInt8) :=
  match serialize r.memory r.values r.caller with
  | .ok message _ =>
    match r.func.run c r.nodes (r.args message) with
    | .ok writes => writes
    | .error _ => []
  | .error _ _ => []

/-- A node type or id as the C function reads it. -/
def read (c : Conversions) (v : LuaValue) : Int32 := ⟨⟨(c.tointeger v).setWidth 32⟩⟩

/-- The session is one that the request is for. -/
def reaches [DecidableEq σ] (c : Conversions) (session : σ) (r : Request σ) : Bool :=
  match r.func with
  | .typeCall => ((r.nodes.entries (read c r.nodeType)).map Prod.snd).contains session
  | .call | .callNoRet | .respone =>
    r.nodes.nodes (read c r.nodeType) (read c r.nodeId) == some session

def bytes (r : Request σ) : List UInt8 := r.items.flatMap Item.bytes

def message (r : Request σ) : Logic.Message := ⟨r.func.messageId, [r.bytes]⟩

/-- `string.unserialize` gives the values in any state, and keeps what is there. -/
def Intact (r : Request σ) (bytes : List UInt8) : Prop :=
  ∀ there : Machine, ∃ m vs, Returns (unserialize bytes there) vs m ∧ Keeps there.L.heap m.L.heap ∧
    List.Forall₂ (Same (lookup r.caller.L.heap) (lookup m.L.heap)) r.values vs

theorem intact (r : Request σ) : r.Intact r.bytes := by
  intro there
  obtain ⟨m, vs, hm, hslots, hkeeps, hsame⟩ := unserialize_items r.encodes r.fits there
  refine ⟨m, vs, ⟨hm, ?_⟩, hkeeps, hsame⟩
  rw [bytes, hm]
  exact hslots.mpr r.fit

/-- The string is made, on slots that are ensured. -/
theorem serialize_eq (r : Request σ) :
    ∃ m, Returns (serialize r.memory r.values r.caller) [.string r.bytes] m := by
  obtain ⟨m, hm, hslots⟩ := serialize_items r.encodes r.fits r.memory_length
  refine ⟨m, hm, ?_⟩
  rw [hm]
  exact hslots.mpr r.shallow

theorem message_lt (r : Request σ) : r.message.payload.length + 12 < s32Bound := by
  have hfits := r.fits
  have hbound : buffSize + 12 < s32Bound := by decide
  rw [message, Logic.Message.payload, List.flatten_singleton, bytes]
  omega

/-- A size that `LuaReader` has read is one that Harbor is given. -/
theorem size_eq (r : Request σ) : (Int32.ofInt r.bytes.length).toInt = r.bytes.length := by
  have hfits := r.fits
  have hbound : buffSize < 2 ^ 31 := by decide
  have hlength : r.bytes.length ≤ buffSize := hfits
  rw [Int32.toInt_ofInt_of_le (by omega) (by omega)]

/-- The C functions read what core/harbor.lua gives them. -/
theorem sendTo_eq (messageId : Int32) (c : Conversions) (r : Request σ) :
    Rpc.sendTo messageId c r.nodes [r.nodeType, r.nodeId, .string r.bytes] =
      .ok ((Logic.Harbor.prepareSend r.nodes.nodes (read c r.nodeType) (read c r.nodeId) messageId
        r.bytes.length).2 ++ (Logic.Harbor.send r.nodes.nodes (read c r.nodeType) (read c r.nodeId)
          r.bytes).2) := by
  have hread : LuaReader.read c "iiS" [r.nodeType, r.nodeId, .string r.bytes] =
      .ok [.i (read c r.nodeType), .i (read c r.nodeId),
        .S (some r.bytes) (.ofInt r.bytes.length)] := rfl
  simp only [Rpc.sendTo, hread, bind, Except.bind, r.size_eq]
  rfl

theorem typeCall_eq (c : Conversions) (r : Request σ) :
    Rpc.typeCall c r.nodes [r.nodeType, .string r.bytes] =
      .ok (Logic.Harbor.prepareBrocast r.nodes (read c r.nodeType) RPCNR r.bytes.length ++
        Logic.Harbor.brocast r.nodes (read c r.nodeType) r.bytes) := by
  have hread : LuaReader.read c "iS" [r.nodeType, .string r.bytes] =
      .ok [.i (read c r.nodeType), .S (some r.bytes) (.ofInt r.bytes.length)] := rfl
  simp only [Rpc.typeCall, hread, bind, Except.bind, r.size_eq]
  rfl

end Request

/-! ## What a session is written -/

section Written
variable {σ : Type} [DecidableEq σ]

theorem written_one (s s' : σ) (contexts : List (List UInt8)) :
    written s (contexts.map fun context => (s', context)) =
      if s' = s then contexts.flatten else [] := by
  induction contexts with
  | nil => simp [written]
  | cons context contexts ih =>
    rw [List.map_cons, ← List.singleton_append, written_append, ih]
    by_cases hs : s' = s <;> simp [written, hs]

/-- A loop over sessions, none of them twice, writes the contexts to one of these once. -/
theorem written_each (s : σ) {entries : List (Int32 × σ)} (h : (entries.map Prod.snd).Nodup)
    (contexts : List (List UInt8)) :
    written s (entries.flatMap fun entry => contexts.map fun context => (entry.2, context)) =
      if s ∈ entries.map Prod.snd then contexts.flatten else [] := by
  induction entries with
  | nil => rfl
  | cons entry entries ih =>
    rw [List.map_cons, List.nodup_cons] at h
    rw [List.flatMap_cons, written_append, written_one, ih h.2]
    have hmem : s ∈ (entry :: entries).map Prod.snd ↔
        entry.2 = s ∨ s ∈ entries.map Prod.snd := by
      rw [List.map_cons, List.mem_cons, eq_comm]
    by_cases hs : entry.2 = s
    · rw [hs] at h
      rw [if_pos hs, if_neg h.1, if_pos (hmem.mpr (Or.inl hs)), List.append_nil]
    · rw [if_neg hs, List.nil_append]
      simp only [hmem, hs, false_or]

/-- What is sent to another node does not come here. -/
theorem written_other {nodes : Nodes σ} {nodeType nodeId : Int32} {s : σ}
    (hs : nodes nodeType nodeId ≠ some s) (m : Logic.Message) :
    written s (m.writes nodes nodeType nodeId) = [] := by
  unfold Logic.Message.writes Logic.Harbor.prepareSend Logic.Harbor.send
  cases hnode : nodes nodeType nodeId with
  | none => simp [written]
  | some s' =>
    have hne : s' ≠ s := by
      intro heq
      rw [hnode, heq] at hs
      exact hs rfl
    simp [written, hne, List.filter_flatMap]

/-- `PrepareBrocast` and `Brocast` write the frame of a message to the sessions of a type. -/
theorem written_brocast {nodes : Logic.Harbor.Table σ} {nodeType messageId : Int32} {s : σ}
    {bytes : List UInt8} (hbytes : bytes.length + 12 < s32Bound) :
    written s (Logic.Harbor.prepareBrocast nodes nodeType messageId bytes.length ++
      Logic.Harbor.brocast nodes nodeType bytes) =
        if s ∈ (nodes.entries nodeType).map Prod.snd then Logic.Message.frame ⟨messageId, [bytes]⟩
        else [] := by
  have hhead := written_each s (nodes.nodup nodeType)
    [NodeSession.prepareSendNodeMessage (s32 ((bytes.length : Int) + 4)),
      s32Bytes messageId.toInt]
  have hbody := written_each s (nodes.nodup nodeType) [bytes]
  -- To each of them it is what `PrepareSend` and `Send` write.
  have hframe : written s (Logic.Message.writes (fun _ _ => some s) 0 0 ⟨messageId, [bytes]⟩) =
      Logic.Message.frame ⟨messageId, [bytes]⟩ :=
    Logic.Message.written rfl (by simpa [Logic.Message.payload] using hbytes)
  have hcontexts : [NodeSession.prepareSendNodeMessage (s32 ((bytes.length : Int) + 4)),
      s32Bytes messageId.toInt].flatten ++ [bytes].flatten =
      Logic.Message.frame ⟨messageId, [bytes]⟩ := by
    rw [← hframe]
    simp [Logic.Message.writes, Logic.Harbor.prepareSend, Logic.Harbor.send, written,
      Logic.Message.payload]
  rw [written_append, Logic.Harbor.prepareBrocast, Logic.Harbor.brocast, ← hcontexts]
  simp only [List.map_cons, List.map_nil] at hhead hbody
  rw [← List.map_eq_flatMap] at hbody
  rw [hhead, hbody]
  split
  · rfl
  · rfl

namespace Request

/-- A session is written the frame of the message of each request that reaches it. -/
theorem written_writes (c : Conversions) (session : σ) (r : Request σ) :
    written session (r.writes c) = if r.reaches c session then r.message.frame else [] := by
  obtain ⟨m, hm, _⟩ := r.serialize_eq
  have hlt := r.message_lt
  have hsend : ∀ (nodeType nodeId : Int32),
      written session ((Logic.Harbor.prepareSend r.nodes.nodes nodeType nodeId r.func.messageId
          r.bytes.length).2 ++ (Logic.Harbor.send r.nodes.nodes nodeType nodeId r.bytes).2) =
        if r.nodes.nodes nodeType nodeId == some session then r.message.frame else [] := by
    intro nodeType nodeId
    have hwrites : (Logic.Harbor.prepareSend r.nodes.nodes nodeType nodeId r.func.messageId
        r.bytes.length).2 ++ (Logic.Harbor.send r.nodes.nodes nodeType nodeId r.bytes).2 =
          r.message.writes r.nodes.nodes nodeType nodeId := by
      simp [Logic.Message.writes, message, Logic.Message.payload]
    rw [hwrites]
    split
    · next h => exact Logic.Message.written (beq_iff_eq.mp h) hlt
    · next h => exact written_other (fun heq => h (beq_iff_eq.mpr heq)) _
  rw [writes, hm]
  cases hfunc : r.func with
  | call =>
    have hcall := sendTo_eq RPC c r
    rw [hfunc] at hsend
    simp only [args, hfunc, RpcFunction.run, Rpc.call, hcall, reaches]
    exact hsend _ _
  | callNoRet =>
    have hcall := sendTo_eq RPCNR c r
    rw [hfunc] at hsend
    simp only [args, hfunc, RpcFunction.run, Rpc.callNoRet, hcall, reaches]
    exact hsend _ _
  | respone =>
    have hcall := sendTo_eq RESPONE c r
    rw [hfunc] at hsend
    simp only [args, hfunc, RpcFunction.run, Rpc.respone, hcall, reaches]
    exact hsend _ _
  | typeCall =>
    have hbytes : r.bytes.length + 12 < s32Bound := by
      rwa [message, Logic.Message.payload, List.flatten_singleton] at hlt
    simp only [args, hfunc, RpcFunction.run, typeCall_eq c r, reaches, List.contains_eq_mem,
      decide_eq_true_eq]
    rw [written_brocast hbytes, message, hfunc]
    rfl

end Request

end Written

end HyperNet.Script
