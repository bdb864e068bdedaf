import HyperNet.Logic.Master

/-! # Which node dials which (Cluster.cpp)

Each node decides by itself, on the NEW_NODEs of the Master. They are handled in any order, as
the Master walks its table in any order; those of a session that closes are lost. -/
namespace HyperNet.Logic
open HyperNet.Core Transition
open HyperNet.Public

/-- `node_proto::NewNode` without the address. -/
def NodeInfo.newNode (info : NodeInfo) : NewNode := ⟨info.nodeType, info.nodeId, info.port⟩

/-- What `Master::SendNewNode` sends. -/
def NodeInfo.bytes (info : NodeInfo) : List UInt8 :=
  s32Bytes info.nodeType.toInt ++ (s32Bytes info.nodeId.toInt ++
    ((info.ip ++ List.replicate (64 - info.ip.length) 0) ++ s32Bytes info.port.toInt))

/-- `Cluster::NewNodeComming` behind its assertions. -/
def Process.hear (p : Process) (info : NodeInfo) : Process :=
  if p.passesOver info.newNode then p else p.dial info.newNode

structure Mesh where
  master : Master
  processes : Int32 × Int32 → Process
  inFlight : Int32 × Int32 → List NodeInfo
  /-- The calls of `Harbor::Connect`: who dials whom. -/
  connects : List ((Int32 × Int32) × (Int32 × Int32))

inductive MeshLabel
  | opens (info : NodeInfo)
  | closes (node : Int32 × Int32)
  | newNodeComming (node : Int32 × Int32) (info : NodeInfo)
  deriving DecidableEq

namespace Mesh

def init : Mesh where
  master := .init
  processes := fun node => ⟨⟨node.1, node.2, 0, false⟩, [], none, 0, 0⟩
  inFlight := fun _ => []
  connects := []

/-- What is sent to a node. -/
def messages (node : Int32 × Int32) (notices : List Notice) : List NodeInfo :=
  notices.filterMap fun
    | .newNode node' info => if node' = node then some info else none
    | _ => none

def newNodeComming (node : Int32 × Int32) (info : NodeInfo) (s : Mesh) : Mesh :=
  { s with
    processes := Function.update s.processes node ((s.processes node).hear info)
    inFlight := Function.update s.inFlight node ((s.inFlight node).erase info)
    connects := if (s.processes node).passesOver info.newNode then s.connects
      else s.connects ++ [(node, info.node)] }

def step (debug : Bool) (s : Mesh) : MeshLabel → Option Mesh
  | .opens info => do
    let m ← s.master.onNodeOpen debug info false
    some { s with
      master := m
      inFlight := fun node =>
        s.inFlight node ++ messages node (m.trace.drop s.master.trace.length) }
  | .closes node => some { s with
      master := s.master.onNodeClose node
      inFlight := Function.update s.inFlight node [] }
  | .newNodeComming node info =>
    if info ∈ s.inFlight node then some (s.newNodeComming node info) else none

/-- The nodes that open listen, do not hide, and have ids that are not negative and no other
session. -/
def Regular (s : Mesh) : MeshLabel → Prop
  | .opens info => 0 < info.port ∧ s.master.Regular (.opens info false)
  | _ => True

/-- How often a node has dialled another. -/
def dials (s : Mesh) (node node' : Int32 × Int32) : Nat := s.connects.count (node, node')

end Mesh

/-- The Master and the nodes. -/
def mesh (debug : Bool) : System Mesh MeshLabel := ⟨.init, Mesh.step debug⟩

section Message

theorem NodeInfo.length_bytes {info : NodeInfo} (hip : info.ip.length < 64) :
    info.bytes.length = NewNode.size := by
  simp only [bytes, List.length_append, length_s32Bytes, List.length_replicate, NewNode.size]
  omega

theorem ofInt_s32 (x : Int32) : Int32.ofInt (s32 x.toInt) = x := by
  have hs32 : s32 x.toInt = x.toInt := Int32.toInt_bmod x
  rw [hs32, Int32.ofInt_toInt]

theorem NodeInfo.of_bytes {info : NodeInfo} (hip : info.ip.length < 64) :
    NewNode.of info.bytes = info.newNode := by
  have htype : readS32 info.bytes 0 = s32 info.nodeType.toInt := readS32_of_drop rfl
  have hid : readS32 info.bytes 4 = s32 info.nodeId.toInt := readS32_of_drop rfl
  have hport : readS32 info.bytes 72 = s32 info.port.toInt := by
    have hsplit : info.bytes = (s32Bytes info.nodeType.toInt ++ (s32Bytes info.nodeId.toInt ++
        (info.ip ++ List.replicate (64 - info.ip.length) 0))) ++ s32Bytes info.port.toInt := by
      simp only [bytes, List.append_assoc]
    have hdrop : info.bytes.drop 72 = s32Bytes info.port.toInt ++ [] := by
      rw [hsplit, List.append_nil]
      refine List.drop_left' ?_
      simp only [List.length_append, length_s32Bytes, List.length_replicate]
      omega
    exact readS32_of_drop hdrop
  rw [NewNode.of, htype, hid, hport, ofInt_s32, ofInt_s32, ofInt_s32]
  rfl

theorem NodeInfo.cString_bytes {info : NodeInfo} (hip : info.ip.length < 64) (hzero : 0 ∉ info.ip) :
    cString info.bytes NewNode.ip = .ok info.ip := by
  obtain ⟨zeros, hzeros⟩ : ∃ zeros, List.replicate (64 - info.ip.length) (0 : UInt8) = 0 :: zeros :=
    ⟨_, by rw [show 64 - info.ip.length = (63 - info.ip.length) + 1 by omega, List.replicate_succ]⟩
  have hdrop : info.bytes.drop NewNode.ip =
      info.ip ++ 0 :: (zeros ++ s32Bytes info.port.toInt) := by
    rw [bytes, hzeros, ← List.append_assoc, List.drop_left' (by rfl), List.append_assoc]
    rfl
  have hmem : 0 ∈ info.bytes.drop NewNode.ip := by
    rw [hdrop]
    exact List.mem_append_right _ List.mem_cons_self
  rw [cString, if_pos hmem, hdrop, List.takeWhile_append_of_pos]
  · rw [List.takeWhile_cons_of_neg (by simp), List.append_nil]
  · intro byte hbyte
    rw [bne_iff_ne]
    exact fun heq => hzero (heq ▸ hbyte)

/-- `Cluster::NewNodeComming` on what the Master sends of a node that listens at an address that
can be dialled. -/
theorem Process.newNodeComming_bytes {os : Nat → Os} {p : Process} {info : NodeInfo}
    (hip : info.ip.length < 64) (hzero : 0 ∉ info.ip) (hport : 0 < info.port)
    (hconnect : Harbor.connect (os p.dials) info.ip info.port = .ok ()) :
    p.newNodeComming os info.bytes = .ok (p.hear info) := by
  have hpos : 0 < info.newNode.port := hport
  rw [newNodeComming, if_pos (NodeInfo.length_bytes hip)]
  simp only [NodeInfo.of_bytes hip]
  rw [if_pos hpos, hear]
  split
  · rfl
  · rw [NodeInfo.cString_bytes hip hzero]
    show (Harbor.connect (os p.dials) info.ip info.port >>= fun _ => _) = _
    rw [hconnect]
    rfl

end Message

namespace Process
variable {p : Process} {info : NodeInfo}

theorem passesOver_iff : p.passesOver info.newNode = true ↔
    info.key ∈ p.openNode ∨ (info.nodeType = p.self.nodeType ∧ info.nodeId ≤ p.self.nodeId) := by
  rw [passesOver, Bool.or_eq_true, Bool.and_eq_true, List.contains_iff_mem, beq_iff_eq,
    decide_eq_true_iff]
  exact Iff.rfl

theorem hear_self : (p.hear info).self = p.self := by
  unfold hear
  split <;> rfl

/-- A node that is passed over stays so. -/
theorem passesOver_hear {other : NodeInfo} (h : p.passesOver other.newNode = true) :
    (p.hear info).passesOver other.newNode = true := by
  unfold hear
  split
  · exact h
  · rw [passesOver_iff] at h ⊢
    exact h.imp_left (List.mem_cons_of_mem _)

/-- What has been heard of is passed over from then on. -/
theorem passesOver_heard : (p.hear info).passesOver info.newNode = true := by
  unfold hear
  split
  · next h => exact h
  · exact passesOver_iff.mpr (Or.inl List.mem_cons_self)

end Process

namespace Mesh
variable {s s' : Mesh} {debug : Bool} {info : NodeInfo}

theorem mem_messages {node : Int32 × Int32} {notices : List Notice} :
    info ∈ messages node notices ↔ .newNode node info ∈ notices := by
  unfold messages
  rw [List.mem_filterMap]
  constructor
  · intro h
    obtain ⟨notice, hnotice, hinfo⟩ := h
    cases notice with
    | opened _ | closed _ => cases hinfo
    | newNode node' info' =>
      simp only at hinfo
      split at hinfo
      · next hnode =>
        cases hinfo
        exact hnode ▸ hnotice
      · cases hinfo
  · exact fun h => ⟨_, h, if_pos rfl⟩

/-- What holds of the nodes in a regular run. -/
structure Consistent (s : Mesh) : Prop where
  master : s.master.Consistent
  self (node : Int32 × Int32) :
    (s.processes node).self.nodeType = node.1 ∧ (s.processes node).self.nodeId = node.2
  sent (node : Int32 × Int32) (info : NodeInfo) (h : info ∈ s.inFlight node) :
    .newNode node info ∈ s.master.trace
  /-- A node that is known has been dialled once, others have not been. -/
  dialled (node : Int32 × Int32) (info : NodeInfo) (h : 0 ≤ info.nodeId) :
    s.dials node info.node = if info.key ∈ (s.processes node).openNode then 1 else 0
  known (node : Int32 × Int32) : ∀ key ∈ (s.processes node).openNode, ∃ info : NodeInfo,
    0 ≤ info.nodeId ∧ info.key = key ∧ ¬(info.nodeType = node.1 ∧ info.nodeId ≤ node.2)
  heard (a b : NodeInfo) (ha : s.master.Has a) (hb : s.master.Has b) (hne : a.node ≠ b.node) :
    b ∈ s.inFlight a.node ∨ (s.processes a.node).passesOver b.newNode = true

theorem Consistent.init : Consistent .init where
  master := .init
  self node := ⟨rfl, rfl⟩
  sent node info h := by cases h
  dialled node info h := rfl
  known node key h := by cases h
  heard a b ha hb hne := by cases ha

/-- The Master tells the nodes of one that opens. -/
theorem Consistent.opens (hs : Consistent s) (hid : 0 ≤ info.nodeId)
    (h : Mesh.step debug s (.opens info) = some s') : Consistent s' := by
  obtain ⟨m, hm, hs'⟩ := Option.bind_eq_some_iff.mp h
  cases hs'
  obtain ⟨_, _, htrace⟩ := Master.onNodeOpen_eq hm
  have hdrop : m.trace.drop s.master.trace.length =
      .opened info :: (s.master.enter info).flatMap (m.notices info) := by
    rw [htrace]
    exact List.drop_left' rfl
  refine ⟨hs.master.onNodeOpen hid hm, hs.self, ?_, hs.dialled, hs.known, ?_⟩
  · intro node info' hinfo
    show _ ∈ m.trace
    cases List.mem_append.mp hinfo with
    | inl hold =>
      rw [htrace]
      exact List.mem_append_left _ (hs.sent node info' hold)
    | inr hnew => exact List.mem_of_mem_drop (mem_messages.mp hnew)
  · intro a b ha hb hne
    have hin : ∀ {a b : NodeInfo}, .newNode a.node b ∈ (s.master.enter info).flatMap
        (m.notices info) → b ∈ s.inFlight a.node ++
          messages a.node (m.trace.drop s.master.trace.length) := by
      intro a b hsent
      rw [hdrop]
      exact List.mem_append_right _ (mem_messages.mpr (List.mem_cons_of_mem _ hsent))
    cases (Master.has_of_open hm).mp ha with
    | inl hanew =>
      rw [hanew] at hne ⊢
      exact Or.inl (hin (hs.master.sends hid hm hne.symm hb).2)
    | inr haold =>
      cases (Master.has_of_open hm).mp hb with
      | inl hbnew =>
        rw [hbnew]
        exact Or.inl (hin (hs.master.sends hid hm haold.1 ha).1)
      | inr hbold =>
        exact (hs.heard a b haold.2 hbold.2 hne).imp_left (List.mem_append_left _)

theorem Consistent.closes (hs : Consistent s) (node : Int32 × Int32) :
    Consistent { s with
      master := s.master.onNodeClose node
      inFlight := Function.update s.inFlight node [] } := by
  refine ⟨hs.master.onNodeClose node, hs.self, ?_, hs.dialled, hs.known, ?_⟩
  · intro node' info hinfo
    have hold : info ∈ s.inFlight node' := by
      by_cases hnode : node' = node
      · rw [hnode] at hinfo
        simp at hinfo
      · have hinfo : info ∈ Function.update s.inFlight node [] node' := hinfo
        rw [Function.update_of_ne hnode] at hinfo
        exact hinfo
    exact List.mem_append_left _ (hs.sent node' info hold)
  · intro a b ha hb hne
    obtain ⟨ha, hanode⟩ := Master.has_of_close ha
    show b ∈ Function.update s.inFlight node [] a.node ∨ _
    rw [Function.update_of_ne hanode]
    exact hs.heard a b ha (Master.has_of_close hb).1 hne

/-- A node that is passed over changes nothing; one that is not is dialled. -/
theorem newNodeComming_cases (s : Mesh) (node : Int32 × Int32) (info : NodeInfo) :
    ((s.newNodeComming node info).connects = s.connects ∧
        (s.processes node).hear info = s.processes node) ∨
      (s.processes node).passesOver info.newNode = false ∧
        (s.newNodeComming node info).connects = s.connects ++ [(node, info.node)] ∧
        (s.processes node).hear info = (s.processes node).dial info.newNode := by
  cases hpass : (s.processes node).passesOver info.newNode with
  | true =>
    refine Or.inl ⟨if_pos hpass, ?_⟩
    rw [Process.hear, if_pos hpass]
  | false =>
    have hne : ¬(s.processes node).passesOver info.newNode = true := by rw [hpass]; simp
    refine Or.inr ⟨rfl, if_neg hne, ?_⟩
    rw [Process.hear, if_neg hne]

/-- The keys of nodes with ids that are not negative differ as the nodes do. -/
theorem key_eq_iff {info' : NodeInfo} (hid : 0 ≤ info.nodeId) (hid' : 0 ≤ info'.nodeId) :
    info.key = info'.key ↔ info.node = info'.node := by
  constructor
  · exact NodeInfo.node_eq_of_key hid hid'
  · intro hnode
    rw [NodeInfo.key, NodeInfo.key, (Prod.mk.inj hnode).1, (Prod.mk.inj hnode).2]

/-- The dial is counted, for this node and this other one. -/
theorem Consistent.dialled_next (hs : Consistent s) (hid : 0 ≤ info.nodeId)
    (node node' : Int32 × Int32) {info' : NodeInfo} (hid' : 0 ≤ info'.nodeId) :
    (s.newNodeComming node info).dials node' info'.node =
      if info'.key ∈ (if node' = node then (s.processes node).hear info
        else s.processes node').openNode then 1 else 0 := by
  have hold := hs.dialled node' info' hid'
  unfold dials at hold ⊢
  cases newNodeComming_cases s node info with
  | inl hsame =>
    rw [hsame.1, hsame.2, hold]
    by_cases hnode : node' = node
    · rw [if_pos hnode, hnode]
    · rw [if_neg hnode]
  | inr hdial =>
    obtain ⟨hpass, hconnects, hhear⟩ := hdial
    rw [hconnects, hhear, List.count_append, hold, List.count_singleton]
    have hnew : info.key ∉ (s.processes node).openNode := by
      intro hmem
      rw [Process.passesOver_iff.mpr (Or.inl hmem)] at hpass
      cases hpass
    have hopen : ((s.processes node).dial info.newNode).openNode =
        info.key :: (s.processes node).openNode := rfl
    by_cases hnode : node' = node
    · rw [if_pos hnode, hopen, hnode]
      by_cases hother : info'.node = info.node
      · rw [(key_eq_iff hid' hid).mpr hother, if_neg hnew, hother, if_pos (beq_self_eq_true _),
          if_pos List.mem_cons_self]
      · have hkey : info'.key ≠ info.key := fun hkey => hother ((key_eq_iff hid' hid).mp hkey)
        have hne : ((node, info.node) == (node, info'.node)) = false := by
          rw [beq_eq_false_iff_ne]
          exact fun heq => hother (Prod.mk.inj heq).2.symm
        simp only [hne, Bool.false_eq_true, if_false, Nat.add_zero, List.mem_cons, hkey, false_or]
    · have hne : ((node, info.node) == (node', info'.node)) = false := by
        rw [beq_eq_false_iff_ne]
        exact fun heq => hnode (Prod.mk.inj heq).1.symm
      rw [if_neg hnode, hne, if_neg Bool.false_ne_true, Nat.add_zero]

/-- A node handles a NEW_NODE. -/
theorem Consistent.newNodeComming (hs : Consistent s) {node : Int32 × Int32}
    (hmem : info ∈ s.inFlight node) : Consistent (s.newNodeComming node info) := by
  have hid := (hs.master.sent node info (hs.sent node info hmem)).2
  have hprocess : ∀ node', (s.newNodeComming node info).processes node' =
      if node' = node then (s.processes node).hear info else s.processes node' :=
    fun node' => Function.update_apply s.processes node _ node'
  have hflight : ∀ node', (s.newNodeComming node info).inFlight node' =
      if node' = node then (s.inFlight node).erase info else s.inFlight node' :=
    fun node' => Function.update_apply s.inFlight node _ node'
  refine ⟨hs.master, ?_, ?_, ?_, ?_, ?_⟩
  · intro node'
    rw [hprocess]
    split
    · next hnode =>
      rw [Process.hear_self, hnode]
      exact hs.self node
    · exact hs.self node'
  · intro node' info' hinfo
    rw [hflight] at hinfo
    split at hinfo
    · next hnode =>
      rw [hnode]
      exact hs.sent node info' (List.mem_of_mem_erase hinfo)
    · exact hs.sent node' info' hinfo
  · intro node' info' hid'
    rw [hprocess]
    exact hs.dialled_next hid node node' hid'
  · intro node' key hkey
    rw [hprocess] at hkey
    split at hkey
    · next hnode =>
      rw [hnode]
      cases newNodeComming_cases s node info with
      | inl hsame =>
        rw [hsame.2] at hkey
        exact hs.known node key hkey
      | inr hdial =>
        rw [hdial.2.2] at hkey
        cases List.mem_cons.mp hkey with
        | inr hold => exact hs.known node key hold
        | inl hnew =>
          refine ⟨info, hid, hnew.symm, fun hover => ?_⟩
          rw [← (hs.self node).1, ← (hs.self node).2] at hover
          have hpass := hdial.1
          rw [Process.passesOver_iff.mpr (Or.inr hover)] at hpass
          cases hpass
    · exact hs.known node' key hkey
  · intro a b ha hb hne
    rw [hprocess, hflight]
    split
    · next hnode =>
      have hheard := hs.heard a b ha hb hne
      rw [hnode] at hheard
      by_cases hb : b = info
      · rw [hb]
        exact Or.inr Process.passesOver_heard
      · exact hheard.imp (List.mem_erase_of_ne hb).mpr Process.passesOver_hear
    · exact hs.heard a b ha hb hne

theorem Consistent.step (hs : Consistent s) {l : MeshLabel} (hl : Regular s l)
    (h : (mesh debug).step s l = some s') : Consistent s' := by
  cases l with
  | opens info => exact hs.opens hl.2.2.1 h
  | closes node => exact Option.some.inj h ▸ hs.closes node
  | newNodeComming node info =>
    have h : (if info ∈ s.inFlight node then some (s.newNodeComming node info) else none) =
        some s' := h
    split at h
    · next hmem => exact Option.some.inj h ▸ hs.newNodeComming hmem
    · cases h

theorem consistent_of_run (h : (mesh debug).Run Regular s) : Consistent s :=
  h.invariant .init fun _ _ _ hl hs hstep => hs.step hl hstep

/-- A node dials another exactly if the other is not one of its type with a smaller id. -/
theorem Consistent.dials_eq (hs : Consistent s) {a b : NodeInfo} (ha : s.master.Has a)
    (hb : s.master.Has b) (hne : a.node ≠ b.node) (hnone : s.inFlight a.node = []) :
    s.dials a.node b.node = if b.nodeType = a.nodeType ∧ b.nodeId ≤ a.nodeId then 0 else 1 := by
  have hid := (hs.master.keyed _ (hs.master.listed b hb)).2
  have hself : (s.processes a.node).self.nodeType = a.nodeType ∧
      (s.processes a.node).self.nodeId = a.nodeId := hs.self a.node
  rw [hs.dialled a.node b hid]
  by_cases hover : b.nodeType = a.nodeType ∧ b.nodeId ≤ a.nodeId
  · have hunknown : b.key ∉ (s.processes a.node).openNode := by
      intro hmem
      obtain ⟨info, hinfo, hkey, hnot⟩ := hs.known a.node b.key hmem
      have hnode : info.nodeType = b.nodeType ∧ info.nodeId = b.nodeId :=
        Prod.mk.inj ((key_eq_iff hinfo hid).mp hkey)
      rw [hnode.1, hnode.2] at hnot
      exact hnot hover
    rw [if_neg hunknown, if_pos hover]
  · cases hs.heard a b ha hb hne with
    | inl hflight =>
      rw [hnone] at hflight
      cases hflight
    | inr hpass =>
      rw [Process.passesOver_iff, hself.1, hself.2] at hpass
      rw [if_pos (hpass.resolve_right hover), if_neg hover]

/-- Between two nodes that are open, with all NEW_NODEs to them handled, there has been exactly
one dial if and only if they are of one type; otherwise each has dialled the other. -/
theorem mesh_formed (debug : Bool) {s : Mesh} (hrun : (mesh debug).Run Regular s) {a b : NodeInfo}
    (ha : s.master.Has a) (hb : s.master.Has b) (hne : a.node ≠ b.node)
    (hanone : s.inFlight a.node = []) (hbnone : s.inFlight b.node = []) :
    s.dials a.node b.node + s.dials b.node a.node = 1 ↔ a.nodeType = b.nodeType := by
  have hs := consistent_of_run hrun
  rw [hs.dials_eq ha hb hne hanone, hs.dials_eq hb ha hne.symm hbnone]
  by_cases htype : a.nodeType = b.nodeType
  · have hid : a.nodeId ≠ b.nodeId := fun hid => hne (Prod.ext htype hid)
    refine iff_of_true ?_ htype
    cases Int32.le_total a.nodeId b.nodeId with
    | inl hle =>
      have hnot : ¬b.nodeId ≤ a.nodeId := fun h => hid (Int32.le_antisymm hle h)
      rw [if_neg (fun h => hnot h.2), if_pos ⟨htype, hle⟩]
    | inr hle =>
      have hnot : ¬a.nodeId ≤ b.nodeId := fun h => hid (Int32.le_antisymm h hle)
      rw [if_pos ⟨htype.symm, hle⟩, if_neg (fun h => hnot h.2)]
  · refine iff_of_false ?_ htype
    rw [if_neg (fun h => htype h.1.symm), if_neg (fun h => htype h.1)]
    decide

instance (s : Mesh) : DecidablePred (Regular s)
  | .opens _ => inferInstanceAs (Decidable (_ ∧ _))
  | .closes _ | .newNodeComming _ _ => .isTrue trivial

/-- Two nodes of one type; the one with the smaller id dials. -/
theorem mesh_formed_pair : ∃ s : Mesh, (mesh true).Run Regular s ∧
    s.dials (3, 1) (3, 2) + s.dials (3, 2) (3, 1) = 1 := by
  obtain ⟨s, hrun, hs⟩ := System.run_of_exec (M := mesh true) (P := Regular)
    [.opens ⟨3, 1, [49], 10⟩, .opens ⟨3, 2, [50], 11⟩, .newNodeComming (3, 1) ⟨3, 2, [50], 11⟩,
      .newNodeComming (3, 2) ⟨3, 1, [49], 10⟩]
    (p := fun s => decide (s.master.Has ⟨3, 1, [49], 10⟩ ∧ s.master.Has ⟨3, 2, [50], 11⟩ ∧
      s.inFlight (3, 1) = [] ∧ s.inFlight (3, 2) = [])) (by decide)
  obtain ⟨ha, hb, hanone, hbnone⟩ := of_decide_eq_true hs
  exact ⟨s, hrun, (mesh_formed true hrun ha hb (by decide) hanone hbnone).mpr rfl⟩

/-- Two nodes of different types dial each other. -/
theorem both_dial : ¬∀ s : Mesh, (mesh true).Run Regular s → ∀ a b : NodeInfo, s.master.Has a →
    s.master.Has b → a.node ≠ b.node → s.inFlight a.node = [] → s.inFlight b.node = [] →
    s.dials a.node b.node + s.dials b.node a.node = 1 := by
  intro h
  obtain ⟨s, hrun, hs⟩ := System.run_of_exec (M := mesh true) (P := Regular)
    [.opens ⟨3, 1, [49], 10⟩, .opens ⟨4, 1, [50], 11⟩, .newNodeComming (3, 1) ⟨4, 1, [50], 11⟩,
      .newNodeComming (4, 1) ⟨3, 1, [49], 10⟩]
    (p := fun s => decide (s.master.Has ⟨3, 1, [49], 10⟩ ∧ s.master.Has ⟨4, 1, [50], 11⟩ ∧
      s.inFlight (3, 1) = [] ∧ s.inFlight (4, 1) = [] ∧
      s.dials (3, 1) (4, 1) + s.dials (4, 1) (3, 1) = 2)) (by decide)
  obtain ⟨ha, hb, hanone, hbnone, hdials⟩ := of_decide_eq_true hs
  have hone := h s hrun _ _ ha hb (by decide) hanone hbnone
  exact absurd (hdials.symm.trans hone) (by decide)

end Mesh
end HyperNet.Logic
