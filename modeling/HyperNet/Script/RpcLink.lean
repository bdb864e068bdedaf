import HyperNet.Logic.HarborLink
import HyperNet.Script.Rpc

/-! # Calls between scripts over a connection

Scripts of the left node call functions of the module `harbor`, for this session and for others.
The scripts of the right node are called with what has come of it, in order, and find in each
message the values that were given. -/
namespace HyperNet.Script
open HyperNet.Public HyperNet.Logic HyperNet.ScriptEngine HyperNet.Core.Transition
open HyperNet.Net (Config Link link Obs contexts packets processed)

/-- The handlers that Rpc registers are found for the nodes of any type. -/
theorem findHandler_registered (nodeType : Int32) :
    Harbor.findHandler registered nodeType RPC = some .onCall ∧
      Harbor.findHandler registered nodeType RPCNR = some .onCallNoRet ∧
      Harbor.findHandler registered nodeType RESPONE = some .onRespone := by
  by_cases h : nodeType = ANY_NODE
  · rw [h]
    decide
  · have hne : ¬ nodeType = -1 := h
    simp [Harbor.findHandler, registered, hne, RPC, RPCNR, RESPONE, ANY_NODE]

section
variable {σ : Type}

/-- What the scripts of the other node hear of a request. -/
def Request.heard (self : NodeReport) (r : Request σ) : ScriptCall :=
  r.func.heard self.nodeType self.nodeId r.bytes

theorem handle_dispatch (self : NodeReport) (r : Request σ) :
    Rpc.handle (.dispatch (Harbor.findHandler registered self.nodeType r.message.id) self.nodeType
      self.nodeId r.message.id r.message.payload) = [r.heard self] := by
  obtain ⟨hcall, hcallNoRet, hrespone⟩ := findHandler_registered self.nodeType
  have hpayload : r.message.payload = r.bytes := List.flatten_singleton
  rw [hpayload]
  unfold Request.message Request.heard
  cases r.func with
  | call => simp only [RpcFunction.messageId, hcall, Rpc.handle]; rfl
  | callNoRet => simp only [RpcFunction.messageId, hcallNoRet, Rpc.handle]; rfl
  | respone => simp only [RpcFunction.messageId, hrespone, Rpc.handle]; rfl
  | typeCall => simp only [RpcFunction.messageId, hcallNoRet, Rpc.handle]; rfl

/-- What the scripts hear of a node and its requests. -/
def heardOf (self : NodeReport) (requests : List (Request σ)) : List ScriptCall :=
  Rpc.onOpen self.nodeType self.nodeId :: requests.map (Request.heard self)

theorem handle_arrivals (self : NodeReport) (requests : List (Request σ)) :
    (arrivals registered self (requests.map Request.message)).flatMap Rpc.handle =
      heardOf self requests := by
  rw [arrivals, List.flatMap_cons, List.map_map, List.flatMap_map]
  have hrest : requests.flatMap (fun r => Rpc.handle (.dispatch
      (Harbor.findHandler registered self.nodeType r.message.id) self.nodeType self.nodeId
        r.message.id r.message.payload)) = requests.map (Request.heard self) := by
    simp only [handle_dispatch, List.map_eq_flatMap]
  exact congrArg (Rpc.onOpen self.nodeType self.nodeId :: ·) hrest

variable [DecidableEq σ]

/-- The requests for a session, among others. -/
def requestsFor (c : Conversions) (session : σ) (requests : List (Request σ)) :
    List (Request σ) :=
  requests.filter (Request.reaches c session)

theorem written_requests (c : Conversions) (session : σ) (requests : List (Request σ)) :
    written session (requests.flatMap (Request.writes c)) =
      ((requestsFor c session requests).map fun r => r.message.frame).flatten := by
  induction requests with
  | nil => rfl
  | cons r requests ih =>
    rw [List.flatMap_cons, written_append, r.written_writes, ih, requestsFor, requestsFor,
      List.filter_cons]
    split <;> simp

/-- What has come of requests is heard as such. -/
theorem heard_over_link {a b : Config} {s : Link a b} (c : Conversions) (session : σ)
    (self : NodeReport) (requests : List (Request σ)) (hparser : b.parser = Harbor.packetParser)
    (h : (link a b).Run NoLateFlush s)
    (hgiven : contexts s.left.trace <+: NodeSession.onConnected self ++
      written session (requests.flatMap (Request.writes c))) :
    ∃ receiver events,
      NodeSession.receiveAll registered .create (packets s.right.trace) = .ok (receiver, events) ∧
      events.flatMap Rpc.handle <+: heardOf self (requestsFor c session requests) ∧
      ((∀ f ∈ s.right.stack, f.isOnRecv = false) → s.right.trace.any Obs.rejected = false →
        processed s.right.trace = NodeSession.onConnected self ++
          written session (requests.flatMap (Request.writes c)) →
        events.flatMap Rpc.handle = heardOf self (requestsFor c session requests)) := by
  have hm : ∀ m ∈ (requestsFor c session requests).map Request.message,
      m.payload.length + 12 < s32Bound := by
    intro m hmem
    obtain ⟨r, _, rfl⟩ := List.mem_map.mp hmem
    exact r.message_lt
  have hframes : NodeSession.onConnected self ++ written session (requests.flatMap
      (Request.writes c)) =
        (framesOf self ((requestsFor c session requests).map Request.message)).flatten := by
    rw [written_requests, framesOf, List.flatten_cons, List.map_map]
    rfl
  rw [hframes] at hgiven ⊢
  obtain ⟨receiver, events, hreceive, hevents, hdone⟩ :=
    received_over_link self hm registered hparser h hgiven
  obtain ⟨later, hlater⟩ := hevents
  refine ⟨receiver, events, hreceive, ⟨later.flatMap Rpc.handle, ?_⟩, fun hf hn hall => ?_⟩
  · rw [← List.flatMap_append, hlater, handle_arrivals]
  · rw [hdone hf hn hall, handle_arrivals]

/-- **Calls over a connection.** The session of the left node is given its report, and then what
requests of its scripts write, of which any part may have been given so far; requests for other
sessions come in between. Then, in every state of the two ends, the scripts of the right node have
been called with the first of the requests for this session, in order, each once, as coming from
the node that has reported itself; and in each string they find, in whatever state, the values that
were given. At rest, with all bytes processed, these are all requests. -/
theorem calls_over_link {a b : Config} {s : Link a b} (c : Conversions) (session : σ)
    (self : NodeReport) (requests : List (Request σ)) (hparser : b.parser = Harbor.packetParser)
    (h : (link a b).Run NoLateFlush s)
    (hgiven : contexts s.left.trace <+: NodeSession.onConnected self ++
      written session (requests.flatMap (Request.writes c))) :
    ∃ receiver events,
      NodeSession.receiveAll registered .create (packets s.right.trace) = .ok (receiver, events) ∧
      events.flatMap Rpc.handle <+: heardOf self (requestsFor c session requests) ∧
      (∀ r ∈ requests, r.Intact r.bytes) ∧
      ((∀ f ∈ s.right.stack, f.isOnRecv = false) → s.right.trace.any Obs.rejected = false →
        processed s.right.trace = NodeSession.onConnected self ++
          written session (requests.flatMap (Request.writes c)) →
        events.flatMap Rpc.handle = heardOf self (requestsFor c session requests)) := by
  obtain ⟨receiver, events, hreceive, hheard, hdone⟩ :=
    heard_over_link c session self requests hparser h hgiven
  exact ⟨receiver, events, hreceive, hheard, fun r _ => r.intact, hdone⟩

end

/-- Nodes (3, 1) and (3, 2) behind two sessions. -/
def twoNodes : Harbor.Table Bool where
  entries nodeType := if nodeType = 3 then [(1, true), (2, false)] else []
  nodup nodeType := by
    split
    · decide
    · exact List.nodup_nil

/-- A function of the module is called for node (3, 2), or for type 3, with `true`. -/
def callTrue (func : RpcFunction) : Request Bool where
  func := func
  nodes := twoNodes
  nodeType := .integer 3
  nodeId := .integer 2
  caller := freshMachine
  memory := List.replicate buffSize 0
  values := [.boolean true]
  items := [.boolean 1]
  memory_length := List.length_replicate
  encodes := .cons ⟨true, rfl, rfl⟩ .nil
  fits := by decide
  shallow := by decide
  fit := by decide

/-- Strings are no numbers. -/
def noNumbers : Conversions := ⟨fun _ => none, fun _ => [], fun _ => 0⟩

/-- A call for this session, which has come, and one for both sessions, which is still to be
given. -/
theorem calls_over_link_two :
    ∃ (s : Link Config.roomy Config.roomy) (receiver : NodeSession) (events : List (Event Handler)),
      NodeSession.receiveAll registered .create (packets s.right.trace) = .ok (receiver, events) ∧
      events.flatMap Rpc.handle <+: heardOf ⟨2, 7, 0, true⟩ (requestsFor noNumbers false
        [callTrue .call, callTrue .typeCall]) ∧
      packets s.right.trace = framesOf ⟨2, 7, 0, true⟩ [⟨3, [[1, 1]]⟩] := by
  obtain ⟨s, h, hs⟩ := (link Config.roomy Config.roomy).run_of_exec (P := NoLateFlush)
    [.left (.send (NodeSession.onConnected ⟨2, 7, 0, true⟩)), .left .ret, .right .ret,
      .left (.send (NodeSession.prepareSendNodeMessage 6)), .left (.send (s32Bytes 3)),
      .left .take, .left (.runSend [.sent 21]), .left .push, .left .process, .left .take,
      .left (.send [1, 1]), .left (.runSend [.sent 12]), .left .push,
      .left .process, .right .onIn, .right .take,
      .right (.runRecv [.data 0 [0, 0, 0, 21, 0, 0, 0, 2, 0, 0, 0, 7, 0, 0, 0, 0, 0, 0, 0, 1,
        1, 0, 0, 0, 14, 0, 0]]),
      .right .push, .right .process, .right .ret, .left .take, .left (.runSend [.sent 2]),
      .right .onIn, .right .take, .right (.runRecv [.data 0 [3, 0, 0, 0, 1, 1]]), .right .push,
      .right .process, .right .ret]
    (p := fun s => contexts s.left.trace == (framesOf ⟨2, 7, 0, true⟩ [⟨3, [[1, 1]]⟩]).flatten &&
      packets s.right.trace == framesOf ⟨2, 7, 0, true⟩ [⟨3, [[1, 1]]⟩]) (by decide)
  simp only [Bool.and_eq_true, beq_iff_eq] at hs
  obtain ⟨hgiven, hpackets⟩ := hs
  have hreach : requestsFor noNumbers false [callTrue .call, callTrue .typeCall] =
      [callTrue .call, callTrue .typeCall] := by
    have hcall : (callTrue .call).reaches noNumbers false = true := by decide
    have htypeCall : (callTrue .typeCall).reaches noNumbers false = true := by decide
    simp [requestsFor, hcall, htypeCall]
  obtain ⟨receiver, events, hreceive, hheard, _⟩ := calls_over_link noNumbers false
    ⟨2, 7, 0, true⟩ [callTrue .call, callTrue .typeCall] rfl h (by
      rw [hgiven, written_requests, hreach]
      exact ⟨(callTrue .typeCall).message.frame, rfl⟩)
  exact ⟨s, receiver, events, hreceive, hheard, hpackets⟩

end HyperNet.Script
