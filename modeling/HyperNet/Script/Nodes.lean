import HyperNet.Net.Peers
import HyperNet.Net.Quiet
import HyperNet.Script.RpcLink

/-! # Calls between nodes

Two nodes have engines with many connections, and one of these is between them. Whatever the others
do, and however the engines serve them all, the calls of the scripts of one node come to those of
the other. -/
namespace HyperNet.Script
open HyperNet.Public HyperNet.Logic HyperNet.ScriptEngine HyperNet.Core.Transition
open HyperNet.Core.Transition.System HyperNet.Core.History
open HyperNet.Net (Config Link link Obs Peers PeersLabel Setup Workers accepted acceptedAfter_eq_nil
  accepted_eq_before_after contexts contextsBefore netWorkers packets peers processed
  processed_of_settled simulates_link)

theorem accepted_eq_contexts {tr : List Obs} (h : tr.any Obs.refuses = false) :
    accepted tr = contexts tr := by
  rw [accepted_eq_before_after, acceptedAfter_eq_nil h, List.append_nil, contextsBefore,
    until_all h]

section
variable {σ : Type} [DecidableEq σ] {m n m' n' : Nat} {p p₀ : Workers m n} {q q₀ : Workers m' n'}
  {i j : Nat} {a b : Setup}

/-- **Calls between nodes.** From where both ends of a connection are made, as long as the left one
flushes no bytes that it took after a refusal, the scripts of the right node have been called with
the first of the requests of the left one for this session, in order, each once, with the values
that were given. When both engines are quiet, nothing is under way and neither end has closed, these
are all that have been given, if none was refused. -/
theorem calls_between_nodes (hp : (netWorkers m n).Reachable p)
    (hq : (netWorkers m' n').Reachable q) (ha : p.step (.arrive i a) = some p₀)
    (hb : q.step (.arrive j b) = some q₀) (hparser : b.config.parser = Harbor.packetParser)
    {ls : List PeersLabel} {s : Peers m n m' n'}
    (hs : (peers i j p₀ q₀).exec (fun _ _ => True) (peers i j p₀ q₀).init ls = some s)
    {t : Link a.config b.config}
    (ht : (link a.config b.config).exec NoLateFlush (.init a.config b.config)
      ((peers i j p₀ q₀).acts (Peers.act i j) (peers i j p₀ q₀).init ls) = some t)
    (c : Conversions) (session : σ) (self : NodeReport) (requests : List (Request σ))
    (hgiven : contexts t.left.trace <+: NodeSession.onConnected self ++
      written session (requests.flatMap (Request.writes c))) :
    s.left.Follows i a t.left ∧ s.right.Follows j b t.right ∧
    ∃ receiver events,
      NodeSession.receiveAll registered .create (packets t.right.trace) = .ok (receiver, events) ∧
      events.flatMap Rpc.handle <+: heardOf self (requestsFor c session requests) ∧
      (∀ r ∈ requests, r.Intact r.bytes) ∧
      (s.left.engine.Quiet → s.right.engine.Quiet → s.left.gone = false → s.right.gone = false →
        s.toRight = [] → t.left.send.state = .sendNone → t.right.recv.state = .recvNone →
        t.left.trace.any Obs.refuses = false →
        contexts t.left.trace = NodeSession.onConnected self ++
          written session (requests.flatMap (Request.writes c)) →
        events.flatMap Rpc.handle = heardOf self (requestsFor c session requests)) := by
  have hsim := simulates_link (Workers.consistent hp) (Workers.consistent hq) ha hb
  obtain ⟨t', ht', hjoined⟩ := hsim.exec hsim.init hs
  obtain rfl : t' = t := Option.some.inj (ht'.symm.trans (exec_mono (fun _ _ _ => trivial) ht))
  have hrun : (link a.config b.config).Run NoLateFlush t' := System.Run.exec .start ht
  obtain ⟨receiver, events, hreceive, hheard, hdone⟩ :=
    heard_over_link c session self requests hparser hrun hgiven
  refine ⟨hjoined.left, hjoined.right, receiver, events, hreceive, hheard, fun r _ => r.intact, ?_⟩
  intro hleft hright hgoneLeft hgoneRight hflight hsend hrecv hrefused hall
  have hsettledLeft := hjoined.left.settled (Link.reachable_left hjoined.reachable) hleft hgoneLeft
  have hsettledRight :=
    hjoined.right.settled (Link.reachable_right hjoined.reachable) hright hgoneRight
  obtain ⟨hprocessed, hrejected⟩ := processed_of_settled hjoined.reachable hsettledLeft.2
    (hjoined.toRight.symm.trans hflight) hsend hrecv
  refine hdone (by rw [hsettledRight.2.stack]; nofun) hrejected ?_
  rw [← hprocessed, accepted_eq_contexts hrefused, hall]

end

/-- A harbor connection with room for a few frames, between two engines. -/
def roomySetup : Setup :=
  ⟨Config.roomy.sendSize, Config.roomy.recvSize, Config.roomy.parser, Config.roomy.send_pos,
    Config.roomy.recv_pos, Config.roomy.send_lt, Config.roomy.recv_lt⟩

/-- A report and a call come over, while the left engine serves another connection too. -/
def callAmongOthers : List PeersLabel :=
  [.left (.send 1 (NodeSession.onConnected ⟨2, 7, 0, true⟩)), .left .ret, .right .ret,
    .left (.send 0 [9]), .left (.send 1 (NodeSession.prepareSendNodeMessage 6)),
    .left (.send 1 (s32Bytes 3)), .left (.send 1 [1, 1]), .left (.take 0),
    .left (.runSend 0 [.sent 21]), .left (.push 0), .left (.take 0), .left (.runSend 0 [.sent 1]),
    .left (.push 0), .left (.process 0), .left (.process 0), .left (.take 0),
    .left (.runSend 0 [.sent 14]), .left (.push 0), .left (.process 0), .right (.onIn 5),
    .right (.take 0), .right (.runRecv 0 [.data 0 [0, 0, 0, 21, 0, 0, 0, 2, 0, 0, 0, 7, 0, 0, 0,
      0, 0, 0, 0, 1, 1, 0, 0, 0, 14, 0, 0, 0, 3, 0, 0, 0, 1, 1]]), .right (.push 0),
    .right (.process 0), .right .ret, .right .ret]

theorem calls_between_nodes_one :
    ∃ (s : Peers 4 1 4 1) (events : List (Event Handler)),
      s.left.engine.Quiet ∧ s.right.engine.Quiet ∧
      events.flatMap Rpc.handle = heardOf ⟨2, 7, 0, true⟩ [callTrue .call] := by
  obtain ⟨p, hp, hs⟩ := (netWorkers 4 1).run_of_exec (P := fun _ _ => True)
    [.arrive 0 .small, .ret] (p := fun p => (p.step (.arrive 1 roomySetup)).any fun p₀ =>
      ((netWorkers 4 1).exec (fun _ _ => True) (.init 4 1) [.arrive 4 .small, .ret]).any fun q =>
        (q.step (.arrive 5 roomySetup)).any fun q₀ =>
          ((peers 1 5 p₀ q₀).exec (fun _ _ => True) (peers 1 5 p₀ q₀).init callAmongOthers).any
            (fun s => s.left.engine.stack.isEmpty && s.right.engine.stack.isEmpty &&
              s.left.engine.live.all (fun c =>
                (s.left.engine.workers (s.left.engine.conn c).worker).ids.isEmpty) &&
              s.right.engine.live.all (fun c =>
                (s.right.engine.workers (s.right.engine.conn c).worker).ids.isEmpty) &&
              !s.left.gone && !s.right.gone && s.toRight.isEmpty) &&
          ((link roomySetup.config roomySetup.config).exec NoLateFlush (.init _ _)
            ((peers 1 5 p₀ q₀).acts (Peers.act 1 5) (peers 1 5 p₀ q₀).init callAmongOthers)).any
              fun t => t.left.send.state == .sendNone && t.right.recv.state == .recvNone &&
                !t.left.trace.any Obs.refuses && contexts t.left.trace ==
                  NodeSession.onConnected ⟨2, 7, 0, true⟩ ++ (callTrue .call).message.frame)
    (by decide)
  obtain ⟨p₀, ha, hs⟩ := (Option.any_eq_true _ _).mp hs
  obtain ⟨q, hq, hs⟩ := (Option.any_eq_true _ _).mp hs
  obtain ⟨q₀, hb, hs⟩ := (Option.any_eq_true _ _).mp hs
  rw [Bool.and_eq_true] at hs
  obtain ⟨s, hrun, hquiet⟩ := (Option.any_eq_true _ _).mp hs.1
  obtain ⟨t, ht, hstates⟩ := (Option.any_eq_true _ _).mp hs.2
  simp only [Bool.and_eq_true, Bool.not_eq_true', List.isEmpty_iff, List.all_eq_true,
    beq_iff_eq] at hquiet hstates
  obtain ⟨⟨⟨⟨⟨⟨hleft, hright⟩, hidsLeft⟩, hidsRight⟩, hgoneLeft⟩, hgoneRight⟩, hflight⟩ := hquiet
  obtain ⟨⟨⟨hsend, hrecv⟩, hrefused⟩, hgiven⟩ := hstates
  have hreachRight := System.Run.exec .start hq
  have hsim := simulates_link (Workers.consistent hp) (Workers.consistent hreachRight) ha hb
  obtain ⟨_, _, hjoined⟩ := hsim.exec hsim.init hrun
  have hquietLeft := (Workers.quiet_iff hjoined.leftConsistent.accounted).mpr ⟨hleft, hidsLeft⟩
  have hquietRight :=
    (Workers.quiet_iff hjoined.rightConsistent.accounted).mpr ⟨hright, hidsRight⟩
  have hreach : requestsFor noNumbers false [callTrue .call] = [callTrue .call] := by
    have hcall : (callTrue .call).reaches noNumbers false = true := by decide
    simp [requestsFor, hcall]
  have hall : contexts t.left.trace = NodeSession.onConnected ⟨2, 7, 0, true⟩ ++
      written false ([callTrue .call].flatMap (Request.writes noNumbers)) := by
    rw [hgiven, written_requests, hreach]
    rfl
  obtain ⟨_, _, _, events, _, _, _, hdone⟩ := calls_between_nodes hp hreachRight ha hb rfl hrun ht
    noNumbers false ⟨2, 7, 0, true⟩ [callTrue .call] (hall ▸ List.prefix_rfl)
  rw [← hreach]
  exact ⟨s, events, hquietLeft, hquietRight, hdone hquietLeft hquietRight hgoneLeft hgoneRight
    hflight hsend hrecv hrefused hall⟩

end HyperNet.Script
