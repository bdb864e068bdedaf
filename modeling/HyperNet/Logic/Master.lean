import HyperNet.Core.Transition
import HyperNet.Logic.Cluster
import HyperNet.Logic.Registry

/-! # What the Master tells the nodes of each other (Master.cpp)

The Master keeps every node that ever opened and, when one opens, sends it to the others and
the others to it; what it sends to a node that is not open is dropped by `PrepareSend`. Sends to
open nodes succeed here. Addresses are the dotted ones of `GetRemoteIp`. -/
namespace HyperNet.Logic
open HyperNet.Core Transition

/-- `Master::NodeInfo`, which is also what `node_proto::NewNode` carries. -/
structure NodeInfo where
  nodeType : Int32
  nodeId : Int32
  ip : List UInt8
  port : Int32
  deriving DecidableEq

namespace NodeInfo

def node (info : NodeInfo) : Int32 × Int32 := (info.nodeType, info.nodeId)

def key (info : NodeInfo) : BitVec 64 := nodeKey info.nodeType info.nodeId

def address (info : NodeInfo) : List UInt8 × Int32 := (info.ip, info.port)

end NodeInfo

/-- What has happened at the Master: a session opened or closed, or a NEW_NODE was sent. -/
inductive Notice
  | opened (info : NodeInfo)
  | closed (node : Int32 × Int32)
  | newNode (node : Int32 × Int32) (info : NodeInfo)
  deriving DecidableEq

structure Master where
  /-- `s_nodes`. -/
  infos : List (BitVec 64 × NodeInfo)
  /-- `_nodes` of its Harbor; a session is what it has reported. -/
  sessions : Nodes NodeInfo
  trace : List Notice

namespace Master

def init : Master := ⟨[], fun _ _ => none, []⟩

/-- `Master::SendNewNode`. -/
def sendNewNode (node : Int32 × Int32) (info : NodeInfo) (m : Master) : Master :=
  match m.sessions node.1 node.2 with
  | some _ => { m with trace := m.trace ++ [.newNode node info] }
  | none => m

/-- One round of the loop in `Master::OnOpen`. -/
def tell (info : NodeInfo) (m : Master) (entry : BitVec 64 × NodeInfo) : Master :=
  if entry.1 ≠ info.key then
    (m.sendNewNode entry.2.node info).sendNewNode info.node entry.2
  else m

/-- `Master::OnOpen`. Compiled with `_DEBUG`, it asserts that a node comes back to the address
that it had. -/
def onOpen (debug : Bool) (info : NodeInfo) (hide : Bool) (m : Master) : Option Master :=
  if hide then some m
  else if debug && (m.infos.lookup info.key).any (·.address != info.address) then none
  else
    let infos := (info.key, info) :: m.infos.filter (·.1 != info.key)
    some (infos.foldl (tell info) { m with infos := infos })

/-- `Harbor::OnNodeOpen`, up to its call of the listeners. -/
def addSession (info : NodeInfo) (m : Master) : Master :=
  { m with
    sessions := m.sessions.set info.node (some info)
    trace := m.trace ++ [.opened info] }

/-- `Harbor::OnNodeOpen`. -/
def onNodeOpen (debug : Bool) (info : NodeInfo) (hide : Bool) (m : Master) : Option Master :=
  onOpen debug info hide (m.addSession info)

/-- `Harbor::OnNodeClose`; `Master::OnClose` does nothing. -/
def onNodeClose (node : Int32 × Int32) (m : Master) : Master :=
  { m with sessions := m.sessions.set node none, trace := m.trace ++ [.closed node] }

end Master

inductive MasterLabel
  | opens (info : NodeInfo) (hide : Bool)
  | closes (node : Int32 × Int32)
  deriving DecidableEq

/-- The process of the Master. -/
structure MasterProcess where
  master : Master
  /-- The assertion in `Master::OnOpen` has failed. -/
  failed : Bool

/-- The Master, as sessions open and close. -/
def master (debug : Bool) : System MasterProcess MasterLabel where
  init := ⟨.init, false⟩
  step
    | ⟨_, true⟩, _ => none
    | ⟨m, false⟩, .opens info hide =>
      match m.onNodeOpen debug info hide with
      | some m => some ⟨m, false⟩
      | none => some ⟨m.addSession info, true⟩
    | ⟨m, false⟩, .closes node => some ⟨m.onNodeClose node, false⟩

section Key

/-- The low half of a key is the id. -/
theorem getLsbD_nodeKey_low (nodeType nodeId : Int32) {i : Nat} (hi : i < 32) :
    (nodeKey nodeType nodeId).getLsbD i = nodeId.toBitVec.getLsbD i := by
  have h64 : i < 64 := by omega
  simp [nodeKey, BitVec.getElem_signExtend, hi, h64]

/-- The high half is the type, unless the id is negative. -/
theorem getLsbD_nodeKey_high {nodeType nodeId : Int32} (hid : 0 ≤ nodeId) {i : Nat} (hi : i < 32) :
    (nodeKey nodeType nodeId).getLsbD (i + 32) = nodeType.toBitVec.getLsbD i := by
  have hnonneg : 0 ≤ nodeId.toBitVec.toInt := Int32.le_iff_toInt_le.mp hid
  have hmsb : nodeId.toBitVec.msb = false := by
    rw [BitVec.msb_eq_toInt, decide_eq_false (by omega)]
  have h64 : i + 32 < 64 := by omega
  have hhigh : ¬i + 32 < 32 := by omega
  simp [nodeKey, BitVec.getElem_signExtend, hi, h64, hhigh, hmsb]

/-- Nodes with ids that are not negative have keys of their own. -/
theorem nodeKey_inj {nodeType nodeId nodeType' nodeId' : Int32} (hid : 0 ≤ nodeId)
    (hid' : 0 ≤ nodeId') (h : nodeKey nodeType nodeId = nodeKey nodeType' nodeId') :
    nodeType = nodeType' ∧ nodeId = nodeId' := by
  constructor
  · refine Int32.toBitVec_inj.mp (BitVec.eq_of_getLsbD_eq fun i hi => ?_)
    rw [← getLsbD_nodeKey_high hid hi, ← getLsbD_nodeKey_high hid' hi, h]
  · refine Int32.toBitVec_inj.mp (BitVec.eq_of_getLsbD_eq fun i hi => ?_)
    rw [← getLsbD_nodeKey_low nodeType nodeId hi, ← getLsbD_nodeKey_low nodeType' nodeId' hi, h]

theorem NodeInfo.node_eq_of_key {info info' : NodeInfo} (hid : 0 ≤ info.nodeId)
    (hid' : 0 ≤ info'.nodeId) (h : info.key = info'.key) : info.node = info'.node := by
  obtain ⟨htype, hid⟩ := nodeKey_inj hid hid' h
  rw [node, node, htype, hid]

end Key

namespace Master
variable {m m' : Master} {info : NodeInfo} {debug : Bool}

/-- The session of the node is open, and this is what it has reported. -/
def Has (m : Master) (info : NodeInfo) : Prop := m.sessions info.nodeType info.nodeId = some info

/-- The session of the node is open. -/
def isOpen (m : Master) (node : Int32 × Int32) : Bool := (m.sessions node.1 node.2).isSome

/-- What one round of the loop sends. -/
def notices (m : Master) (info : NodeInfo) (entry : BitVec 64 × NodeInfo) : List Notice :=
  if entry.1 ≠ info.key then
    (if m.isOpen entry.2.node then [.newNode entry.2.node info] else []) ++
      (if m.isOpen info.node then [.newNode info.node entry.2] else [])
  else []

theorem sendNewNode_eq (node : Int32 × Int32) (m : Master) (info : NodeInfo) :
    m.sendNewNode node info = { m with
      trace := m.trace ++ if m.isOpen node then [.newNode node info] else [] } := by
  unfold sendNewNode isOpen
  cases m.sessions node.1 node.2 with
  | none => rw [Option.isSome_none, if_neg Bool.false_ne_true, List.append_nil]
  | some _ => rw [Option.isSome_some, if_pos rfl]

theorem tell_eq (m : Master) (info : NodeInfo) (entry : BitVec 64 × NodeInfo) :
    m.tell info entry = { m with trace := m.trace ++ m.notices info entry } := by
  unfold tell notices
  split
  · rw [sendNewNode_eq, sendNewNode_eq, List.append_assoc]
    rfl
  · rw [List.append_nil]

/-- The loop sends what its rounds send. -/
theorem foldl_tell (entries : List (BitVec 64 × NodeInfo)) : ∀ m : Master,
    entries.foldl (tell info) m =
      { m with trace := m.trace ++ entries.flatMap (m.notices info) } := by
  induction entries with
  | nil => exact fun m => by rw [List.foldl_nil, List.flatMap_nil, List.append_nil]
  | cons entry entries ih =>
    intro m
    rw [List.foldl_cons, ih, tell_eq, List.flatMap_cons, ← List.append_assoc]
    rfl

/-- The table of the Master with this node. -/
def enter (m : Master) (info : NodeInfo) : List (BitVec 64 × NodeInfo) :=
  (info.key, info) :: m.infos.filter (·.1 != info.key)

/-- The Master when a session has opened. -/
theorem onNodeOpen_eq (h : m.onNodeOpen debug info false = some m') :
    m'.infos = m.enter info ∧ m'.sessions = m.sessions.set info.node (some info) ∧
      m'.trace = m.trace ++ .opened info :: (m.enter info).flatMap (m'.notices info) := by
  unfold onNodeOpen onOpen at h
  rw [if_neg Bool.false_ne_true] at h
  split at h
  · cases h
  · cases h
    rw [foldl_tell]
    refine ⟨rfl, rfl, ?_⟩
    show m.trace ++ [.opened info] ++ _ = _
    rw [List.append_assoc]
    rfl

/-- Both nodes have been told of each other since one of them opened, and neither has opened
since. -/
def Told (m : Master) (a b : NodeInfo) : Prop :=
  ∃ before after,
    (m.trace = before ++ .opened a :: after ∨ m.trace = before ++ .opened b :: after) ∧
    (∀ info, .opened info ∈ after → info.node ≠ a.node ∧ info.node ≠ b.node) ∧
    .newNode a.node b ∈ after ∧ .newNode b.node a ∈ after

/-- Opens are those of nodes that do not hide, whose ids are not negative, and that have no other
session. -/
def Regular (m : Master) : MasterLabel → Prop
  | .opens info hide => hide = false ∧ 0 ≤ info.nodeId ∧ m.sessions info.nodeType info.nodeId = none
  | .closes _ => True

/-- With `_DEBUG`, a node that comes back has the address that the Master knows. -/
def Keeps (debug : Bool) (m : Master) : MasterLabel → Prop
  | .opens info _ =>
    debug = true → ∀ known ∈ m.infos.lookup info.key, known.address = info.address
  | .closes _ => True

/-- What holds of the Master in such a run. -/
structure Consistent (m : Master) : Prop where
  listed : ∀ info, m.Has info → (info.key, info) ∈ m.infos
  keyed : ∀ entry ∈ m.infos, entry.1 = entry.2.key ∧ 0 ≤ entry.2.nodeId
  sent : ∀ node info, .newNode node info ∈ m.trace → info.node ≠ node ∧ 0 ≤ info.nodeId
  told : ∀ a b : NodeInfo, m.Has a → m.Has b → a.node ≠ b.node → m.Told a b

theorem Told.symm {a b : NodeInfo} (h : m.Told a b) : m.Told b a := by
  obtain ⟨before, after, htrace, hopened, ha, hb⟩ := h
  exact ⟨before, after, htrace.symm, fun info hinfo => (hopened info hinfo).symm, hb, ha⟩

/-- What comes later leaves it so, if neither of the two opens. -/
theorem Told.append {a b : NodeInfo} {notices : List Notice} (h : m.Told a b)
    (htrace : m'.trace = m.trace ++ notices)
    (hopened : ∀ info, .opened info ∈ notices → info.node ≠ a.node ∧ info.node ≠ b.node) :
    m'.Told a b := by
  obtain ⟨before, after, hbefore, hafter, ha, hb⟩ := h
  refine ⟨before, after ++ notices, ?_, ?_, List.mem_append_left _ ha, List.mem_append_left _ hb⟩
  · rw [htrace]
    refine hbefore.imp (fun h => ?_) (fun h => ?_)
    · rw [h, List.append_assoc]; rfl
    · rw [h, List.append_assoc]; rfl
  · intro info hinfo
    cases List.mem_append.mp hinfo with
    | inl hold => exact hafter info hold
    | inr hnew => exact hopened info hnew

theorem Consistent.init : Consistent .init where
  listed info h := by cases h
  keyed entry h := by cases h
  sent node info h := by cases h
  told a b h := by cases h

/-- The rounds of the loop send only NEW_NODEs, and none to the node that it tells of. -/
theorem mem_notices {entry : BitVec 64 × NodeInfo} {notice : Notice}
    (hkey : entry.1 = entry.2.key) (h : notice ∈ m.notices info entry) :
    ∃ node info', notice = .newNode node info' ∧ info'.node ≠ node ∧
      (info' = info ∨ info' = entry.2) := by
  unfold notices at h
  split at h
  · next hne =>
    have hnode : entry.2.node ≠ info.node := by
      intro heq
      apply hne
      rw [hkey, NodeInfo.key, NodeInfo.key, (Prod.mk.inj heq).1, (Prod.mk.inj heq).2]
    cases List.mem_append.mp h with
    | inl hother =>
      split at hother
      · exact ⟨_, _, List.mem_singleton.mp hother, Ne.symm hnode, Or.inl rfl⟩
      · cases hother
    | inr hthis =>
      split at hthis
      · exact ⟨_, _, List.mem_singleton.mp hthis, hnode, Or.inr rfl⟩
      · cases hthis
  · cases h

theorem mem_enter {entry : BitVec 64 × NodeInfo} (h : entry ∈ m.enter info) :
    entry = (info.key, info) ∨ entry ∈ m.infos :=
  (List.mem_cons.mp h).imp_right fun h => (List.mem_filter.mp h).1

/-- What the Master knows of another node stays. -/
theorem mem_enter_of_ne {other : NodeInfo} (hmem : (other.key, other) ∈ m.infos)
    (hid : 0 ≤ info.nodeId) (hid' : 0 ≤ other.nodeId) (hne : other.node ≠ info.node) :
    (other.key, other) ∈ m.enter info := by
  refine List.mem_cons_of_mem _ (List.mem_filter.mpr ⟨hmem, ?_⟩)
  rw [bne_iff_ne]
  exact fun hkey => hne (NodeInfo.node_eq_of_key hid' hid hkey)

/-- The sessions when one has opened: it, and those of other nodes. -/
theorem has_of_open (h : m.onNodeOpen debug info false = some m') {other : NodeInfo} :
    m'.Has other ↔ other = info ∨ (other.node ≠ info.node ∧ m.Has other) := by
  have hset : m'.sessions other.nodeType other.nodeId =
      if other.node = info.node then some info else m.sessions other.nodeType other.nodeId := by
    rw [(onNodeOpen_eq h).2.1]
    rfl
  unfold Has
  rw [hset]
  split
  · next hnode =>
    constructor
    · exact fun heq => Or.inl (Option.some.inj heq).symm
    · intro hor
      cases hor with
      | inl heq => rw [heq]
      | inr hne => exact absurd hnode hne.1
  · next hnode =>
    constructor
    · exact fun hold => Or.inr ⟨hnode, hold⟩
    · intro hor
      cases hor with
      | inl heq => exact absurd (congrArg NodeInfo.node heq) hnode
      | inr hold => exact hold.2

theorem has_of_close {node : Int32 × Int32} {other : NodeInfo}
    (h : (m.onNodeClose node).Has other) : m.Has other ∧ other.node ≠ node := by
  have hset : (m.onNodeClose node).sessions other.nodeType other.nodeId =
      if other.node = node then none else m.sessions other.nodeType other.nodeId := rfl
  unfold Has at h ⊢
  rw [hset] at h
  split at h
  · cases h
  · next hnode => exact ⟨h, hnode⟩

theorem Consistent.keyed_enter (hm : Consistent m) (hid : 0 ≤ info.nodeId) :
    ∀ entry ∈ m.enter info, entry.1 = entry.2.key ∧ 0 ≤ entry.2.nodeId := by
  intro entry hentry
  cases mem_enter hentry with
  | inl hnew => rw [hnew]; exact ⟨rfl, hid⟩
  | inr hold => exact hm.keyed entry hold

/-- What is sent when a node opens. -/
theorem Consistent.sent_opened (hm : Consistent m) (hid : 0 ≤ info.nodeId) {notice : Notice}
    (h : notice ∈ (m.enter info).flatMap (m'.notices info)) :
    ∃ node info', notice = .newNode node info' ∧ info'.node ≠ node ∧ 0 ≤ info'.nodeId := by
  obtain ⟨entry, hentry, hmem⟩ := List.mem_flatMap.mp h
  obtain ⟨hkey, hentryId⟩ := hm.keyed_enter hid entry hentry
  obtain ⟨node, info', heq, hne, hinfo⟩ := mem_notices hkey hmem
  refine ⟨node, info', heq, hne, ?_⟩
  cases hinfo with
  | inl hthis => rw [hthis]; exact hid
  | inr hother => rw [hother]; exact hentryId

/-- A node that opens is sent every other one that is open, and they are sent it. -/
theorem Consistent.sends (hm : Consistent m) (hid : 0 ≤ info.nodeId)
    (h : m.onNodeOpen debug info false = some m') {other : NodeInfo}
    (hne : other.node ≠ info.node) (hother : m'.Has other) :
    .newNode other.node info ∈ (m.enter info).flatMap (m'.notices info) ∧
      .newNode info.node other ∈ (m.enter info).flatMap (m'.notices info) := by
  have hold : m.Has other := by
    cases (has_of_open h).mp hother with
    | inl heq => exact absurd (congrArg NodeInfo.node heq) hne
    | inr hold => exact hold.2
  have hmem := hm.listed other hold
  have hid' := (hm.keyed _ hmem).2
  have hopen : ∀ {a : NodeInfo}, m'.Has a → m'.isOpen a.node = true :=
    fun ha => Option.isSome_iff_exists.mpr ⟨_, ha⟩
  have hkey : other.key ≠ info.key := fun hkey => hne (NodeInfo.node_eq_of_key hid' hid hkey)
  have hnotices : m'.notices info (other.key, other) =
      [.newNode other.node info, .newNode info.node other] := by
    rw [notices, if_pos hkey, if_pos (hopen hother),
      if_pos (hopen ((has_of_open h).mpr (Or.inl rfl)))]
    rfl
  have hentry := mem_enter_of_ne hmem hid hid' hne
  constructor
  · exact List.mem_flatMap.mpr ⟨_, hentry, by rw [hnotices]; exact List.mem_cons_self⟩
  · exact List.mem_flatMap.mpr
      ⟨_, hentry, by rw [hnotices]; exact List.mem_cons_of_mem _ List.mem_cons_self⟩

theorem Consistent.told_opened (hm : Consistent m) (hid : 0 ≤ info.nodeId)
    (h : m.onNodeOpen debug info false = some m') {other : NodeInfo}
    (hne : other.node ≠ info.node) (hother : m'.Has other) : m'.Told info other := by
  obtain ⟨hto, hfrom⟩ := hm.sends hid h hne hother
  refine ⟨m.trace, _, Or.inl (onNodeOpen_eq h).2.2, fun info' hinfo => ?_, hfrom, hto⟩
  obtain ⟨_, _, heq, _⟩ := hm.sent_opened hid hinfo
  cases heq

theorem Consistent.onNodeOpen (hm : Consistent m) (hid : 0 ≤ info.nodeId)
    (h : m.onNodeOpen debug info false = some m') : Consistent m' := by
  obtain ⟨hinfos, _, htrace⟩ := onNodeOpen_eq h
  refine ⟨?_, hinfos ▸ hm.keyed_enter hid, ?_, ?_⟩
  · intro other hother
    rw [hinfos]
    cases (has_of_open h).mp hother with
    | inl heq => rw [heq]; exact List.mem_cons_self
    | inr hold =>
      have hmem := hm.listed other hold.2
      exact mem_enter_of_ne hmem hid (hm.keyed _ hmem).2 hold.1
  · intro node info' hnotice
    rw [htrace] at hnotice
    cases List.mem_append.mp hnotice with
    | inl hold => exact hm.sent node info' hold
    | inr hnew =>
      cases List.mem_cons.mp hnew with
      | inl hopened => cases hopened
      | inr hmem =>
        obtain ⟨_, _, heq, hsent⟩ := hm.sent_opened hid hmem
        cases heq
        exact hsent
  · intro a b ha hb hne
    cases (has_of_open h).mp ha with
    | inl hanew =>
      rw [hanew] at hne ⊢
      exact hm.told_opened hid h hne.symm hb
    | inr haold =>
      cases (has_of_open h).mp hb with
      | inl hbnew =>
        rw [hbnew] at hne ⊢
        exact (hm.told_opened hid h hne ha).symm
      | inr hbold =>
        refine (hm.told a b haold.2 hbold.2 hne).append htrace ?_
        intro info' hinfo
        cases List.mem_cons.mp hinfo with
        | inl hopened =>
          cases hopened
          exact ⟨Ne.symm haold.1, Ne.symm hbold.1⟩
        | inr hmem =>
          obtain ⟨_, _, heq, _⟩ := hm.sent_opened hid hmem
          cases heq

theorem Consistent.onNodeClose (hm : Consistent m) (node : Int32 × Int32) :
    Consistent (m.onNodeClose node) := by
  refine ⟨fun info hinfo => hm.listed info (has_of_close hinfo).1, hm.keyed, ?_, ?_⟩
  · intro node' info hnotice
    cases List.mem_append.mp hnotice with
    | inl h => exact hm.sent node' info h
    | inr h => cases List.mem_singleton.mp h
  · intro a b ha hb hne
    have htrace : (m.onNodeClose node).trace = m.trace ++ [.closed node] := rfl
    refine (hm.told a b (has_of_close ha).1 (has_of_close hb).1 hne).append htrace ?_
    intro info hinfo
    cases List.mem_singleton.mp hinfo

/-- The assertion in `Master::OnOpen` holds. -/
theorem onNodeOpen_of_keeps (hk : m.Keeps debug (.opens info false)) :
    ∃ m', m.onNodeOpen debug info false = some m' := by
  unfold onNodeOpen onOpen
  rw [if_neg Bool.false_ne_true]
  split
  · next hmoved =>
    obtain ⟨hdebug, hmoved⟩ := Bool.and_eq_true_iff.mp hmoved
    obtain ⟨known, hknown, hne⟩ := (Option.any_eq_true ..).mp hmoved
    exact absurd (hk hdebug known hknown) (by simpa using hne)
  · exact ⟨_, rfl⟩

theorem onNodeOpen_of_not_keeps (hk : ¬m.Keeps debug (.opens info false)) :
    m.onNodeOpen debug info false = none := by
  obtain ⟨hdebug, hmoved⟩ := Classical.not_imp.mp hk
  unfold onNodeOpen onOpen
  rw [if_neg Bool.false_ne_true, if_pos ?_]
  rw [hdebug, Bool.true_and, Option.any_eq_true]
  by_contra hnone
  refine hmoved fun known hknown => ?_
  by_contra hne
  exact hnone ⟨known, hknown, by simpa using hne⟩

theorem Consistent.step {p p' : MasterProcess} (hp : p.failed = false) (hm : Consistent p.master)
    {l : MasterLabel} (hl : p.master.Regular l) (hk : p.master.Keeps debug l)
    (h : (master debug).step p l = some p') : p'.failed = false ∧ Consistent p'.master := by
  obtain ⟨m, failed⟩ := p
  obtain rfl : failed = false := hp
  cases l with
  | closes node =>
    cases h
    exact ⟨rfl, hm.onNodeClose node⟩
  | opens info hide =>
    obtain ⟨rfl, hid, _⟩ := hl
    obtain ⟨m', hopen⟩ := onNodeOpen_of_keeps hk
    simp only [master, hopen] at h
    cases h
    exact ⟨rfl, hm.onNodeOpen hid hopen⟩

theorem consistent_of_run {p : MasterProcess}
    (h : (master debug).Run (fun p l => p.master.Regular l ∧ p.master.Keeps debug l) p) :
    p.failed = false ∧ Consistent p.master :=
  h.invariant (I := fun p => p.failed = false ∧ Consistent p.master) ⟨rfl, .init⟩
    fun _ _ _ hl hp hs => hp.2.step hp.1 hl.1 hl.2 hs

/-- Nobody has been told of a node since it opened, if nothing has happened since. -/
theorem not_told_of_opened {a b : NodeInfo} {before : List Notice}
    (htrace : m.trace = before ++ [.opened a]) : ¬m.Told a b := by
  rintro ⟨before', after, hsplit, hopened, hto, _⟩
  obtain ⟨first, hsplit⟩ : ∃ first, m.trace = before' ++ .opened first :: after :=
    hsplit.elim (fun h => ⟨a, h⟩) fun h => ⟨b, h⟩
  have hlast : m.trace.getLast? = some (.opened a) := by
    rw [htrace, List.getLast?_concat]
  cases hafter : after.getLast? with
  | none =>
    rw [List.getLast?_eq_none_iff.mp hafter] at hto
    cases hto
  | some last =>
    rw [hsplit, List.getLast?_append, List.getLast?_cons, hafter] at hlast
    obtain rfl : last = .opened a := Option.some.inj hlast
    exact (hopened a (List.mem_of_getLast? hafter)).1 rfl

/-- Two nodes that are open have been told of each other, as they are now, since the later of
their opens, and no node is told of itself, in every run in which nodes come back to the addresses
that they had. The Master does not get over a node that has moved: its session is open, and neither
it nor another node is told. -/
theorem discovery_complete (debug : Bool) :
    (∀ p : MasterProcess,
      (master debug).Run (fun p l => p.master.Regular l ∧ p.master.Keeps debug l) p →
        p.failed = false ∧
        (∀ a b : NodeInfo, p.master.Has a → p.master.Has b → a.node ≠ b.node →
          p.master.Told a b) ∧
        ∀ node info, .newNode node info ∈ p.master.trace → info.node ≠ node) ∧
    ∀ (p p' : MasterProcess) (info : NodeInfo),
      (master debug).Run (fun p l => p.master.Regular l) p →
        (master debug).step p (.opens info false) = some p' →
          ¬p.master.Keeps debug (.opens info false) →
            p'.failed = true ∧ p'.master.Has info ∧ ∀ b, ¬p'.master.Told info b := by
  constructor
  · intro p hrun
    obtain ⟨hfailed, hm⟩ := consistent_of_run hrun
    exact ⟨hfailed, hm.told, fun node info hsent => (hm.sent node info hsent).1⟩
  · intro p p' info _ hs hk
    obtain ⟨m, failed⟩ := p
    cases failed with
    | true => cases hs
    | false =>
      simp only [master, onNodeOpen_of_not_keeps hk] at hs
      cases hs
      refine ⟨rfl, ?_, fun b => not_told_of_opened rfl⟩
      show (if _ then _ else _) = _
      exact if_pos rfl

instance (m : Master) : DecidablePred (Regular m)
  | .opens _ _ => inferInstanceAs (Decidable (_ ∧ _ ∧ _))
  | .closes _ => .isTrue trivial

instance (debug : Bool) (m : Master) : DecidablePred (Keeps debug m)
  | .opens _ _ => inferInstanceAs (Decidable (_ → _))
  | .closes _ => .isTrue trivial

instance (m : Master) (info : NodeInfo) : Decidable (m.Has info) :=
  inferInstanceAs (Decidable (_ = _))

/-- A node comes back to the port that it had, or to another one. -/
theorem discovery_complete_back :
    (∃ p : MasterProcess, p.failed = false ∧
      p.master.Told ⟨3, 1, [49], 10⟩ ⟨3, 2, [50], 11⟩) ∧
    ∃ p : MasterProcess, p.failed = true ∧ p.master.Has ⟨3, 1, [49], 12⟩ ∧
      ¬p.master.Told ⟨3, 1, [49], 12⟩ ⟨3, 2, [50], 11⟩ := by
  constructor
  · obtain ⟨p, hrun, hp⟩ := System.run_of_exec (M := master true)
      (P := fun p l => p.master.Regular l ∧ p.master.Keeps true l)
      [.opens ⟨3, 1, [49], 10⟩ false, .opens ⟨3, 2, [50], 11⟩ false, .closes (3, 1),
        .opens ⟨3, 1, [49], 10⟩ false]
      (p := fun p => decide (p.master.Has ⟨3, 1, [49], 10⟩ ∧ p.master.Has ⟨3, 2, [50], 11⟩))
      (by decide)
    obtain ⟨ha, hb⟩ := of_decide_eq_true hp
    obtain ⟨hfailed, htold, _⟩ := (discovery_complete true).1 p hrun
    exact ⟨p, hfailed, htold _ _ ha hb (by decide)⟩
  · obtain ⟨p, hrun, hp⟩ := System.run_of_exec (M := master true)
      (P := fun p l => p.master.Regular l)
      [.opens ⟨3, 1, [49], 10⟩ false, .opens ⟨3, 2, [50], 11⟩ false, .closes (3, 1)]
      (p := fun p => ((master true).step p (.opens ⟨3, 1, [49], 12⟩ false)).isSome &&
        !decide (p.master.Keeps true (.opens ⟨3, 1, [49], 12⟩ false))) (by decide)
    simp only [Bool.and_eq_true, Bool.not_eq_true', decide_eq_false_iff_not,
      Option.isSome_iff_exists] at hp
    obtain ⟨⟨p', hs⟩, hk⟩ := hp
    obtain ⟨hfailed, hhas, hnot⟩ := (discovery_complete true).2 p p' _ hrun hs hk
    exact ⟨p', hfailed, hhas, hnot _⟩

/-- A node comes back to another port, and the Master ends before it has told anyone. -/
theorem moved_node_untold : ¬∀ p : MasterProcess,
    (master true).Run (fun p l => p.master.Regular l) p → ∀ a b : NodeInfo, p.master.Has a →
      p.master.Has b → a.node ≠ b.node → p.master.Told a b := by
  intro h
  obtain ⟨p, hrun, hp⟩ := System.run_of_exec (M := master true)
    (P := fun p l => p.master.Regular l)
    [.opens ⟨3, 1, [49], 10⟩ false, .opens ⟨3, 2, [50], 11⟩ false, .closes (3, 1),
      .opens ⟨3, 1, [49], 12⟩ false]
    (p := fun p => decide (p.master.Has ⟨3, 1, [49], 12⟩ ∧ p.master.Has ⟨3, 2, [50], 11⟩) &&
      p.master.trace.getLast? == some (.opened ⟨3, 1, [49], 12⟩)) (by decide)
  simp only [Bool.and_eq_true, decide_eq_true_eq, beq_iff_eq] at hp
  obtain ⟨⟨ha, hb⟩, hlast⟩ := hp
  obtain ⟨before, htrace⟩ := List.getLast?_eq_some_iff.mp hlast
  exact not_told_of_opened htrace (h p hrun _ _ ha hb (by decide))

end Master
end HyperNet.Logic
