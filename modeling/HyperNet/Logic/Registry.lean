import HyperNet.Core.History
import HyperNet.Core.Transition
import HyperNet.Logic.Harbor
import Mathlib.Logic.Function.Basic

/-! # The registry of nodes (Harbor::OnNodeOpen, Harbor::OnNodeClose)

Sessions come and go by events of the engine; a session reports an identity once while it is
connected. `OnNodeOpen` and `OnNodeClose` write the registry and then call the listeners one
after the other. A listener may send, and a send may overflow and close another connection at
once, so that its `OnDisconnected` runs inside the callback; not that of a session which is
itself inside `OnRecv` or `OnDisconnected`, as its receive machine is busy or its identity is
erased. The stack holds the callbacks the main thread is in. -/
namespace HyperNet.Logic
open HyperNet.Core.History HyperNet.Core.Transition

/-- A `NodeSession`, whether it has a connection, and its `_connect`. -/
structure Peer where
  session : NodeSession
  connected : Bool
  connect : Bool
  deriving DecidableEq

/-- A listener is told of a node. -/
structure Told where
  listener : Nat
  opened : Bool
  node : Int32 × Int32
  deriving DecidableEq

/-- The loop over the listeners in `OnNodeOpen` or `OnNodeClose`, for a session, with the
number of listeners told so far. -/
inductive Callback
  | onNodeOpen (s told : Nat)
  | onNodeClose (s told : Nat)
  deriving DecidableEq

def Callback.session : Callback → Nat
  | .onNodeOpen s _ | .onNodeClose s _ => s

/-- `_nodes[nodeType][nodeId] = v`, or `erase`. -/
def Nodes.set {σ : Type} (nodes : Nodes σ) (node : Int32 × Int32) (v : Option σ) : Nodes σ :=
  fun nodeType nodeId => if (nodeType, nodeId) = node then v else nodes nodeType nodeId

structure Registry where
  peers : Nat → Peer
  nodes : Nodes Nat
  stack : List Callback
  trace : List Told

inductive RegistryLabel
  /-- `Acceptor::OnIn`: a new session. -/
  | accept (s : Nat)
  /-- `Harbor::Connect`: a new session that dials. -/
  | dial (s : Nat)
  /-- `Connector::OnOut`: a session that dials is connected. -/
  | connected (s : Nat)
  /-- A REPORT on a session that is not ready. -/
  | report (s : Nat) (nodeType nodeId : Int32)
  | disconnect (s : Nat)
  /-- The listener returns. -/
  | ret
  deriving DecidableEq

namespace Registry

def init : Registry where
  peers := fun _ => ⟨.create, false, false⟩
  nodes := fun _ _ => none
  stack := []
  trace := []

def identity (w : Registry) (s : Nat) : Int32 × Int32 :=
  ((w.peers s).session.nodeType, (w.peers s).session.nodeId)

def setPeer (s : Nat) (p : Peer) (w : Registry) : Registry :=
  { w with peers := Function.update w.peers s p }

/-- The last lines of `NodeSession::OnDisconnected`, and the connection is gone. -/
def disconnected (s : Nat) (w : Registry) : Registry :=
  let p := w.peers s
  w.setPeer s { p with connected := false, session.ready := p.session.ready && !p.connect }

/-- On in the loop over the listeners: to the next, or out of it to the end of
`NodeSession::OnRecv` or `NodeSession::OnDisconnected`. -/
def next (listeners : Nat) (w : Registry) : Option Registry :=
  match w.stack with
  | [] => none
  | .onNodeOpen s k :: rest =>
    if k < listeners then
      some { w with
        stack := .onNodeOpen s (k + 1) :: rest
        trace := w.trace ++ [⟨k, true, w.identity s⟩] }
    else
      let p := w.peers s
      some (({ w with stack := rest }).setPeer s { p with session.ready := true })
  | .onNodeClose s k :: rest =>
    if k < listeners then
      some { w with
        stack := .onNodeClose s (k + 1) :: rest
        trace := w.trace ++ [⟨k, false, w.identity s⟩] }
    else some (({ w with stack := rest }).disconnected s)

/-- `NodeSession::OnRecv` on a report, up to the loop in `OnNodeOpen`. -/
def openNode (s : Nat) (nodeType nodeId : Int32) (w : Registry) : Registry :=
  let p := w.peers s
  let w := w.setPeer s { p with session.nodeType := nodeType, session.nodeId := nodeId }
  { w with
    nodes := w.nodes.set (nodeType, nodeId) (some s)
    stack := .onNodeOpen s 0 :: w.stack }

/-- `NodeSession::OnDisconnected` of a ready session, up to the loop in `OnNodeClose`. -/
def closeNode (s : Nat) (w : Registry) : Registry :=
  { w with
    nodes := w.nodes.set (w.identity s) none
    stack := .onNodeClose s 0 :: w.stack }

def step (listeners : Nat) (w : Registry) : RegistryLabel → Option Registry
  | .accept s =>
    let p := w.peers s
    if w.stack = [] ∧ p.connected = false ∧ p.connect = false then
      some (w.setPeer s ⟨.create, true, false⟩)
    else none
  | .dial s =>
    let p := w.peers s
    if p.connected = false ∧ p.connect = false then some (w.setPeer s ⟨.create, false, true⟩)
    else none
  | .connected s =>
    let p := w.peers s
    if w.stack = [] ∧ p.connected = false ∧ p.connect = true ∧ p.session.ready = false then
      some (w.setPeer s { p with connected := true })
    else none
  | .report s nodeType nodeId =>
    let p := w.peers s
    if w.stack = [] ∧ p.connected = true ∧ p.session.ready = false then
      (w.openNode s nodeType nodeId).next listeners
    else none
  | .disconnect s =>
    let p := w.peers s
    if p.connected = true ∧ s ∉ w.stack.map Callback.session then
      if p.session.ready then (w.closeNode s).next listeners else some (w.disconnected s)
    else none
  | .ret => w.next listeners

end Registry

/-- The registry of a Harbor with so many listeners. -/
def registry (listeners : Nat) : System Registry RegistryLabel :=
  ⟨.init, Registry.step listeners⟩

namespace Registry

/-- What a listener has been told of a node. -/
def history (w : Registry) (listener : Nat) (node : Int32 × Int32) : List Bool :=
  (w.trace.filter fun t => t.listener = listener ∧ t.node = node).map Told.opened

/-- Another connected session is ready under this identity. -/
def Taken (w : Registry) (s : Nat) (node : Int32 × Int32) : Prop :=
  ∃ s' ≠ s, (w.peers s').connected = true ∧ (w.peers s').session.ready = true ∧
    w.identity s' = node

/-- No session reports an identity that is taken. -/
def Distinct (w : Registry) : RegistryLabel → Prop
  | .report s nodeType nodeId => ¬ w.Taken s (nodeType, nodeId)
  | _ => True

/-! ## The invariant -/

/-- The session is one that the registry should hold: from `OnNodeOpen` until `OnNodeClose`. -/
structure Live (w : Registry) (s : Nat) : Prop where
  connected : (w.peers s).connected = true
  opened : (w.peers s).session.ready = true ∨ ∃ k, .onNodeOpen s k ∈ w.stack
  notClosed : ∀ k, .onNodeClose s k ∉ w.stack

/-- The listener was told last that the node is open. -/
def Knows (w : Registry) (listener : Nat) (node : Int32 × Int32) : Prop :=
  (∃ s, w.nodes node.1 node.2 = some s ∧ ∀ k, .onNodeOpen s k ∈ w.stack → listener < k) ∨
    ∃ s k, .onNodeClose s k ∈ w.stack ∧ w.identity s = node ∧ k ≤ listener

structure Consistent (listeners : Nat) (w : Registry) : Prop where
  registry : ∀ node s, w.nodes node.1 node.2 = some s ↔ w.Live s ∧ w.identity s = node
  opens : ∀ s k, .onNodeOpen s k ∈ w.stack → (w.peers s).connected = true ∧
    (w.peers s).session.ready = false
  closes : ∀ s k, .onNodeClose s k ∈ w.stack → (w.peers s).connected = true ∧
    (w.peers s).session.ready = true
  nodup : (w.stack.map Callback.session).Nodup
  apart : ∀ s k s' k', .onNodeClose s k ∈ w.stack → .onNodeClose s' k' ∈ w.stack →
    w.identity s = w.identity s' → s = s'
  absent : ∀ s k, .onNodeClose s k ∈ w.stack →
    w.nodes (w.identity s).1 (w.identity s).2 = none
  told : ∀ listener < listeners, ∀ node, ∃ b, switched (w.history listener node) = some b ∧
    (b = true ↔ w.Knows listener node)

variable {listeners : Nat} {w w' : Registry} {s : Nat} {p : Peer} {l : RegistryLabel}

@[simp] theorem setPeer_nodes : (w.setPeer s p).nodes = w.nodes := rfl

@[simp] theorem setPeer_stack : (w.setPeer s p).stack = w.stack := rfl

theorem setPeer_self : (w.setPeer s p).peers s = p := Function.update_self ..

theorem setPeer_of_ne {s' : Nat} (h : s' ≠ s) : (w.setPeer s p).peers s' = w.peers s' :=
  Function.update_of_ne h ..

theorem identity_of_ne {s' : Nat} (h : s' ≠ s) : (w.setPeer s p).identity s' = w.identity s' := by
  simp only [identity, setPeer_of_ne h]

theorem mem_sessions_open {k : Nat} (h : .onNodeOpen s k ∈ w.stack) :
    s ∈ w.stack.map Callback.session := List.mem_map.mpr ⟨_, h, rfl⟩

theorem mem_sessions_close {k : Nat} (h : .onNodeClose s k ∈ w.stack) :
    s ∈ w.stack.map Callback.session := List.mem_map.mpr ⟨_, h, rfl⟩

theorem Consistent.init : Consistent listeners .init where
  registry node s := by
    constructor
    · intro h
      cases h
    · rintro ⟨h, _⟩
      cases h.connected
  opens s k h := by cases h
  closes s k h := by cases h
  nodup := List.nodup_nil
  apart s k s' k' h := by cases h
  absent s k h := by cases h
  told listener _ node := by
    refine ⟨false, rfl, ?_⟩
    constructor
    · intro h
      cases h
    · rintro (⟨s, h, _⟩ | ⟨s, k, h, _⟩)
      · cases h
      · cases h

/-- Nothing is told, and no listener knows more or less. -/
theorem Consistent.told_of_knows (h : w.Consistent listeners) (htrace : w'.trace = w.trace)
    (hknows : ∀ listener < listeners, ∀ node, w.Knows listener node ↔ w'.Knows listener node) :
    ∀ listener < listeners, ∀ node, ∃ b, switched (w'.history listener node) = some b ∧
      (b = true ↔ w'.Knows listener node) := by
  intro listener hlt node
  obtain ⟨b, hb, hk⟩ := h.told listener hlt node
  refine ⟨b, ?_, hk.trans (hknows listener hlt node)⟩
  rw [history, htrace]
  exact hb

/-- A session outside the registry and the callbacks changes. -/
theorem Consistent.setPeer (h : w.Consistent listeners) (hs : s ∉ w.stack.map Callback.session)
    (hl : ¬ w.Live s) (hp : ¬ (p.connected = true ∧ p.session.ready = true)) :
    (w.setPeer s p).Consistent listeners := by
  have hopen : ∀ {s' k}, .onNodeOpen s' k ∈ w.stack → s' ≠ s := by
    rintro s' k hm rfl
    exact hs (mem_sessions_open hm)
  have hclose : ∀ {s' k}, .onNodeClose s' k ∈ w.stack → s' ≠ s := by
    rintro s' k hm rfl
    exact hs (mem_sessions_close hm)
  have hlive : ∀ s', (w.setPeer s p).Live s' ↔ w.Live s' := by
    intro s'
    by_cases he : s' = s
    · subst he
      refine iff_of_false (fun hl' => ?_) hl
      have hc := hl'.connected
      rw [setPeer_self] at hc
      rcases hl'.opened with hr | ⟨k, hk⟩
      · rw [setPeer_self] at hr
        exact hp ⟨hc, hr⟩
      · exact hopen hk rfl
    · constructor
      · rintro ⟨h1, h2, h3⟩
        rw [setPeer_of_ne he] at h1 h2
        exact ⟨h1, h2, h3⟩
      · rintro ⟨h1, h2, h3⟩
        refine ⟨?_, ?_, h3⟩ <;> rwa [setPeer_of_ne he]
  refine ⟨?_, ?_, ?_, h.nodup, ?_, ?_, h.told_of_knows rfl ?_⟩
  · intro node s'
    rw [hlive s', setPeer_nodes, h.registry]
    refine and_congr_right fun hl' => ?_
    have he : s' ≠ s := by
      rintro rfl
      exact hl hl'
    rw [identity_of_ne he]
  · intro s' k hm
    rw [setPeer_of_ne (hopen hm)]
    exact h.opens s' k hm
  · intro s' k hm
    rw [setPeer_of_ne (hclose hm)]
    exact h.closes s' k hm
  · intro s' k s'' k' hm hm' he
    rw [identity_of_ne (hclose hm), identity_of_ne (hclose hm')] at he
    exact h.apart s' k s'' k' hm hm' he
  · intro s' k hm
    rw [identity_of_ne (hclose hm)]
    exact h.absent s' k hm
  · intro listener hlt node
    refine or_congr_right ?_
    constructor
    · rintro ⟨s', k, hm, hi, hle⟩
      exact ⟨s', k, hm, (identity_of_ne (hclose hm)).trans hi, hle⟩
    · rintro ⟨s', k, hm, hi, hle⟩
      exact ⟨s', k, hm, (identity_of_ne (hclose hm)).symm.trans hi, hle⟩

/-- With no callback running, what is in the registry is ready. -/
theorem Consistent.none_of_not_taken (h : w.Consistent listeners) (hs : w.stack = [])
    (hr : (w.peers s).session.ready = false) {node : Int32 × Int32} (hd : ¬ w.Taken s node) :
    w.nodes node.1 node.2 = none := by
  cases hn : w.nodes node.1 node.2 with
  | none => rfl
  | some s' =>
    obtain ⟨hl, hi⟩ := (h.registry node s').mp hn
    have hready : (w.peers s').session.ready = true := by
      rcases hl.opened with hr' | ⟨k, hk⟩
      · exact hr'
      · rw [hs] at hk
        cases hk
    refine absurd ⟨s', ?_, hl.connected, hready, hi⟩ hd
    rintro rfl
    rw [hr] at hready
    cases hready

/-- The session under its identity, with the loop over the listeners ahead. -/
def opened (s : Nat) (w : Registry) : Registry :=
  { w with nodes := w.nodes.set (w.identity s) (some s), stack := [.onNodeOpen s 0] }

theorem opened_nodes (s : Nat) (w : Registry) (node : Int32 × Int32) :
    (w.opened s).nodes node.1 node.2 =
      if node = w.identity s then some s else w.nodes node.1 node.2 := rfl

theorem opened_live (hs : w.stack = []) (hc : (w.peers s).connected = true) (s' : Nat) :
    (w.opened s).Live s' ↔ s' = s ∨ w.Live s' := by
  constructor
  · rintro ⟨h1, h2, h3⟩
    rcases h2 with h2 | ⟨k, hk⟩
    · exact .inr ⟨h1, .inl h2, by simp [hs]⟩
    · simp only [opened, List.mem_singleton, Callback.onNodeOpen.injEq] at hk
      exact .inl hk.1
  · rintro (rfl | ⟨h1, h2, h3⟩)
    · exact ⟨hc, .inr ⟨0, by simp [opened]⟩, by simp [opened]⟩
    · refine ⟨h1, ?_, by simp [opened]⟩
      rcases h2 with h2 | ⟨k, hk⟩
      · exact .inl h2
      · rw [hs] at hk
        cases hk

/-- No listener knows the node that is being opened, nor did one know it. -/
theorem opened_knows (h : w.Consistent listeners) (hs : w.stack = [])
    (hnone : w.nodes (w.identity s).1 (w.identity s).2 = none) (listener : Nat)
    (node : Int32 × Int32) : w.Knows listener node ↔ (w.opened s).Knows listener node := by
  have hknows : w.Knows listener node ↔ ∃ s', w.nodes node.1 node.2 = some s' := by
    simp [Knows, hs]
  rw [hknows]
  by_cases hn : node = w.identity s
  · subst hn
    refine iff_of_false ?_ ?_
    · rintro ⟨s', hs'⟩
      rw [hnone] at hs'
      cases hs'
    · rintro (⟨s', hs', hlt'⟩ | ⟨s', k, hm, _⟩)
      · rw [opened_nodes, if_pos rfl] at hs'
        cases hs'
        exact Nat.not_lt_zero _ (hlt' 0 (by simp [opened]))
      · simp [opened] at hm
  · constructor
    · rintro ⟨s', hs'⟩
      have hne : s' ≠ s := by
        rintro rfl
        exact hn ((h.registry node s').mp hs').2.symm
      refine .inl ⟨s', by rw [opened_nodes, if_neg hn, hs'], fun k hm => ?_⟩
      simp only [opened, List.mem_singleton, Callback.onNodeOpen.injEq] at hm
      exact absurd hm.1 hne
    · rintro (⟨s', hs', _⟩ | ⟨s', k, hm, _⟩)
      · rw [opened_nodes, if_neg hn] at hs'
        exact ⟨s', hs'⟩
      · simp [opened] at hm

/-- A session whose identity is free gets into the registry. -/
theorem Consistent.opened (h : w.Consistent listeners) (hs : w.stack = [])
    (hc : (w.peers s).connected = true) (hr : (w.peers s).session.ready = false)
    (hnone : w.nodes (w.identity s).1 (w.identity s).2 = none) :
    (w.opened s).Consistent listeners := by
  refine ⟨?_, ?_, ?_, ?_, ?_, ?_,
    h.told_of_knows rfl fun listener _ node => opened_knows h hs hnone listener node⟩
  · intro node s'
    rw [opened_nodes, opened_live hs hc]
    show _ ↔ _ ∧ w.identity s' = node
    by_cases hn : node = w.identity s
    · subst hn
      rw [if_pos rfl]
      constructor
      · intro he
        cases he
        exact ⟨.inl rfl, rfl⟩
      · rintro ⟨rfl | hl, hi⟩
        · rfl
        · have hin := (h.registry _ s').mpr ⟨hl, hi⟩
          rw [hnone] at hin
          cases hin
    · rw [if_neg hn, h.registry]
      constructor
      · rintro ⟨hl, hi⟩
        exact ⟨.inr hl, hi⟩
      · rintro ⟨rfl | hl, hi⟩
        · exact absurd hi.symm hn
        · exact ⟨hl, hi⟩
  · intro s' k hm
    simp only [Registry.opened, List.mem_singleton, Callback.onNodeOpen.injEq] at hm
    obtain ⟨rfl, -⟩ := hm
    exact ⟨hc, hr⟩
  all_goals simp [Registry.opened]

/-- A report of an identity that is not taken puts the session into the registry. -/
theorem Consistent.openNode (h : w.Consistent listeners) (hs : w.stack = [])
    (hc : (w.peers s).connected = true) (hr : (w.peers s).session.ready = false)
    {nodeType nodeId : Int32} (hd : ¬ w.Taken s (nodeType, nodeId)) :
    (w.openNode s nodeType nodeId).Consistent listeners := by
  let w₁ := w.setPeer s { w.peers s with
    session.nodeType := nodeType, session.nodeId := nodeId }
  have hw₁ : w₁.Consistent listeners := by
    refine h.setPeer (by simp [hs]) (fun hl => ?_) (by simp [hr])
    rcases hl.opened with hr' | ⟨k, hk⟩
    · rw [hr] at hr'
      cases hr'
    · rw [hs] at hk
      cases hk
  have hid : w₁.identity s = (nodeType, nodeId) := by
    simp only [identity, w₁, setPeer_self]
  have hpeer : (w₁.peers s).connected = true ∧ (w₁.peers s).session.ready = false := by
    simp only [w₁, setPeer_self]
    exact ⟨hc, hr⟩
  have hopened : w.openNode s nodeType nodeId = w₁.opened s := by
    rw [Registry.opened, hid, ← hs]
    rfl
  rw [hopened]
  refine hw₁.opened hs hpeer.1 hpeer.2 ?_
  rw [hid]
  exact h.none_of_not_taken hs hr hd

theorem closeNode_nodes (s : Nat) (w : Registry) (node : Int32 × Int32) :
    (w.closeNode s).nodes node.1 node.2 =
      if node = w.identity s then none else w.nodes node.1 node.2 := rfl

theorem closeNode_live (s s' : Nat) : (w.closeNode s).Live s' ↔ w.Live s' ∧ s' ≠ s := by
  have hstack : (w.closeNode s).stack = .onNodeClose s 0 :: w.stack := rfl
  constructor
  · rintro ⟨h1, h2, h3⟩
    refine ⟨⟨h1, ?_, ?_⟩, ?_⟩
    · rcases h2 with h2 | ⟨k, hk⟩
      · exact .inl h2
      · exact .inr ⟨k, by simpa [hstack] using hk⟩
    · exact fun k hm => h3 k (List.mem_cons_of_mem _ hm)
    · rintro rfl
      exact h3 0 (by simp [hstack])
  · rintro ⟨⟨h1, h2, h3⟩, hne⟩
    refine ⟨h1, ?_, ?_⟩
    · rcases h2 with h2 | ⟨k, hk⟩
      · exact .inl h2
      · exact .inr ⟨k, List.mem_cons_of_mem _ hk⟩
    · intro k hm
      rcases List.mem_cons.mp hm with hm | hm
      · cases hm
        exact hne rfl
      · exact h3 k hm

/-- Every listener still knows the node that is being closed. -/
theorem closeNode_knows (hs : s ∉ w.stack.map Callback.session)
    (hin : w.nodes (w.identity s).1 (w.identity s).2 = some s) (listener : Nat)
    (node : Int32 × Int32) : w.Knows listener node ↔ (w.closeNode s).Knows listener node := by
  have hstack : (w.closeNode s).stack = .onNodeClose s 0 :: w.stack := rfl
  by_cases hn : node = w.identity s
  · subst hn
    refine iff_of_true (.inl ⟨s, hin, fun k hm => ?_⟩)
      (.inr ⟨s, 0, List.mem_cons_self, rfl, Nat.zero_le _⟩)
    exact absurd (mem_sessions_open hm) hs
  · constructor
    · rintro (⟨s', hs', hopen⟩ | ⟨s', k, hm, hi, hle⟩)
      · exact .inl ⟨s', by rw [closeNode_nodes, if_neg hn, hs'],
          fun k hm => hopen k (by simpa [hstack] using hm)⟩
      · exact .inr ⟨s', k, List.mem_cons_of_mem _ hm, hi, hle⟩
    · rintro (⟨s', hs', hopen⟩ | ⟨s', k, hm, hi, hle⟩)
      · rw [closeNode_nodes, if_neg hn] at hs'
        exact .inl ⟨s', hs', fun k hm => hopen k (List.mem_cons_of_mem _ hm)⟩
      · rcases List.mem_cons.mp hm with hm | hm
        · cases hm
          exact absurd hi.symm hn
        · exact .inr ⟨s', k, hm, hi, hle⟩

/-- A ready session leaves the registry. -/
theorem Consistent.closeNode (h : w.Consistent listeners) (hs : s ∉ w.stack.map Callback.session)
    (hc : (w.peers s).connected = true) (hr : (w.peers s).session.ready = true) :
    (w.closeNode s).Consistent listeners := by
  have hself : w.Live s := ⟨hc, .inl hr, fun k hm => hs (mem_sessions_close hm)⟩
  have hin : w.nodes (w.identity s).1 (w.identity s).2 = some s :=
    (h.registry _ s).mpr ⟨hself, rfl⟩
  have happart : ∀ {s' k}, .onNodeClose s' k ∈ w.stack → w.identity s' ≠ w.identity s := by
    intro s' k hm he
    have hnone := h.absent s' k hm
    rw [he, hin] at hnone
    cases hnone
  refine ⟨?_, ?_, ?_, List.nodup_cons.mpr ⟨hs, h.nodup⟩, ?_, ?_,
    h.told_of_knows rfl fun listener _ node => closeNode_knows hs hin listener node⟩
  · intro node s'
    rw [closeNode_nodes, closeNode_live]
    show _ ↔ _ ∧ w.identity s' = node
    by_cases hn : node = w.identity s
    · subst hn
      rw [if_pos rfl]
      refine iff_of_false (by simp) ?_
      rintro ⟨⟨hl, hne⟩, hi⟩
      have hin' := (h.registry _ s').mpr ⟨hl, hi⟩
      rw [hin] at hin'
      cases hin'
      exact hne rfl
    · rw [if_neg hn, h.registry]
      refine ⟨fun ⟨hl, hi⟩ => ⟨⟨hl, ?_⟩, hi⟩, fun ⟨hl, hi⟩ => ⟨hl.1, hi⟩⟩
      rintro rfl
      exact hn hi.symm
  · intro s' k hm
    rcases List.mem_cons.mp hm with hm | hm
    · cases hm
    · exact h.opens s' k hm
  · intro s' k hm
    rcases List.mem_cons.mp hm with hm | hm
    · cases hm
      exact ⟨hc, hr⟩
    · exact h.closes s' k hm
  · intro s' k s'' k' hm hm' he
    rcases List.mem_cons.mp hm with hm | hm
    · cases hm
      rcases List.mem_cons.mp hm' with hm' | hm'
      · cases hm'
        rfl
      · exact absurd he.symm (happart hm')
    · rcases List.mem_cons.mp hm' with hm' | hm'
      · cases hm'
        exact absurd he (happart hm)
      · exact h.apart s' k s'' k' hm hm' he
  · intro s' k hm
    show (w.closeNode s).nodes (w.identity s').1 (w.identity s').2 = none
    rw [closeNode_nodes]
    rcases List.mem_cons.mp hm with hm | hm
    · cases hm
      exact if_pos rfl
    · rw [if_neg (happart hm)]
      exact h.absent s' k hm

/-! ## The loop over the listeners -/

theorem history_snoc {t : Told} {trace : List Told} (ht : w'.trace = trace ++ [t])
    (hw : w.trace = trace) (listener : Nat) (node : Int32 × Int32) :
    w'.history listener node = if t.listener = listener ∧ t.node = node
      then w.history listener node ++ [t.opened] else w.history listener node := by
  simp only [history, ht, hw, List.filter_append, List.map_append]
  by_cases h : t.listener = listener ∧ t.node = node
  · simp [h]
  · rw [if_neg h]
    simp [h]

/-- A listener is told what it does not know yet. -/
theorem told_snoc {t : Told} {trace : List Told} (ht : w'.trace = trace ++ [t])
    (hw : w.trace = trace) {listener : Nat} {node : Int32 × Int32}
    (h : ∃ b, switched (w.history listener node) = some b ∧ (b = true ↔ w.Knows listener node))
    (hnow : t.listener = listener → t.node = node →
      (t.opened = false ↔ w.Knows listener node) ∧ (t.opened = true ↔ w'.Knows listener node))
    (hother : ¬ (t.listener = listener ∧ t.node = node) →
      (w'.Knows listener node ↔ w.Knows listener node)) :
    ∃ b, switched (w'.history listener node) = some b ∧ (b = true ↔ w'.Knows listener node) := by
  obtain ⟨b, hb, hk⟩ := h
  rw [history_snoc ht hw]
  by_cases hh : t.listener = listener ∧ t.node = node
  · obtain ⟨hbefore, hafter⟩ := hnow hh.1 hh.2
    rw [if_pos hh, switched_snoc, hb]
    refine ⟨t.opened, ?_, hafter⟩
    have hflag : b = !t.opened := by
      rw [Bool.eq_iff_iff, hk, ← hbefore]
      simp
    rw [switch, if_pos (congrArg some hflag)]
  · rw [if_neg hh]
    exact ⟨b, hb, hk.trans (hother hh).symm⟩

/-- A session being opened is in the registry. -/
theorem Consistent.opening (h : w.Consistent listeners) {k : Nat}
    (hm : .onNodeOpen s k ∈ w.stack) :
    w.nodes (w.identity s).1 (w.identity s).2 = some s := by
  have hc := h.opens s k hm
  refine (h.registry _ s).mpr ⟨⟨hc.1, .inr ⟨k, hm⟩, ?_⟩, rfl⟩
  intro k' hm'
  have := (h.closes s k' hm').2
  rw [hc.2] at this
  cases this

/-- No session is in two callbacks. -/
theorem Consistent.not_mem_rest (h : w.Consistent listeners) {c : Callback} {rest : List Callback}
    (hs : w.stack = c :: rest) : c.session ∉ rest.map Callback.session := by
  have hnodup := h.nodup
  rw [hs, List.map_cons] at hnodup
  exact (List.nodup_cons.mp hnodup).1

/-- Only how far a callback has got changes, and what the listeners have been told. -/
theorem Consistent.retell (h : w.Consistent listeners) {stack : List Callback}
    {trace : List Told}
    (hopen : ∀ s, (∃ k, .onNodeOpen s k ∈ stack) ↔ ∃ k, .onNodeOpen s k ∈ w.stack)
    (hclose : ∀ s, (∃ k, .onNodeClose s k ∈ stack) ↔ ∃ k, .onNodeClose s k ∈ w.stack)
    (hmap : stack.map Callback.session = w.stack.map Callback.session)
    (htold : ∀ listener < listeners, ∀ node, ∃ b,
      switched (({ w with stack := stack, trace := trace } : Registry).history listener node) =
        some b ∧
        (b = true ↔ ({ w with stack := stack, trace := trace } : Registry).Knows listener node)) :
    ({ w with stack := stack, trace := trace } : Registry).Consistent listeners := by
  have hlive : ∀ s, ({ w with stack := stack, trace := trace } : Registry).Live s ↔ w.Live s := by
    intro s
    have hclosed : (∀ k, .onNodeClose s k ∉ stack) ↔ ∀ k, .onNodeClose s k ∉ w.stack := by
      simpa using not_congr (hclose s)
    constructor
    · rintro ⟨h1, h2, h3⟩
      exact ⟨h1, h2.imp_right (hopen s).mp, hclosed.mp h3⟩
    · rintro ⟨h1, h2, h3⟩
      exact ⟨h1, h2.imp_right (hopen s).mpr, hclosed.mpr h3⟩
  refine ⟨?_, ?_, ?_, ?_, ?_, ?_, htold⟩
  · intro node s
    rw [hlive]
    exact h.registry node s
  · intro s k hm
    obtain ⟨k', hm'⟩ := (hopen s).mp ⟨k, hm⟩
    exact h.opens s k' hm'
  · intro s k hm
    obtain ⟨k', hm'⟩ := (hclose s).mp ⟨k, hm⟩
    exact h.closes s k' hm'
  · show (stack.map Callback.session).Nodup
    rw [hmap]
    exact h.nodup
  · intro s k s' k' hm hm' he
    obtain ⟨i, hi⟩ := (hclose s).mp ⟨k, hm⟩
    obtain ⟨i', hi'⟩ := (hclose s').mp ⟨k', hm'⟩
    exact h.apart s i s' i' hi hi' he
  · intro s k hm
    obtain ⟨k', hm'⟩ := (hclose s).mp ⟨k, hm⟩
    exact h.absent s k' hm'

/-- The next listener is told that the node is open. -/
theorem Consistent.tellOpen (h : w.Consistent listeners) {k : Nat} {rest : List Callback}
    (hs : w.stack = .onNodeOpen s k :: rest) : ({ w with
      stack := .onNodeOpen s (k + 1) :: rest
      trace := w.trace ++ [⟨k, true, w.identity s⟩] } : Registry).Consistent listeners := by
  have hrest : ∀ {k'}, .onNodeOpen s k' ∉ rest := fun hm =>
    h.not_mem_rest hs (List.mem_map.mpr ⟨_, hm, rfl⟩)
  have hin := h.opening (s := s) (k := k) (by simp [hs])
  refine h.retell ?_ ?_ (by simp [hs, Callback.session]) ?_
  · intro s'
    by_cases he : s' = s
    · subst he
      exact iff_of_true ⟨k + 1, List.mem_cons_self⟩ ⟨k, by simp [hs]⟩
    · simp [hs, he]
  · intro s'
    simp [hs]
  · intro listener hlt node
    refine told_snoc rfl rfl (h.told listener hlt node) ?_ ?_
    · rintro rfl rfl
      refine ⟨iff_of_false (by simp) ?_, iff_of_true rfl (.inl ⟨s, hin, ?_⟩)⟩
      · rintro (⟨s', hs', hlt'⟩ | ⟨s', k', hm, hi, _⟩)
        · rw [hin] at hs'
          cases hs'
          exact Nat.lt_irrefl _ (hlt' _ (by simp [hs]))
        · have := h.absent s' k' hm
          rw [hi, hin] at this
          cases this
      · intro k' hm
        simp only [List.mem_cons, Callback.onNodeOpen.injEq, true_and, hrest, or_false] at hm
        exact hm ▸ Nat.lt_succ_self k
    · intro hne
      refine or_congr (exists_congr fun s' => and_congr_right fun hs' => ?_)
        (by simp [hs]; exact Iff.rfl)
      by_cases he : s' = s
      · subst he
        have hnode := ((h.registry node s').mp hs').2
        have : listener ≠ k := fun hk => hne ⟨hk.symm, hnode⟩
        simp only [hs, List.mem_cons, Callback.onNodeOpen.injEq, true_and, hrest, or_false,
          forall_eq]
        omega
      · simp [hs, he]

/-- The next listener is told that the node is closed. -/
theorem Consistent.tellClose (h : w.Consistent listeners) {k : Nat} {rest : List Callback}
    (hs : w.stack = .onNodeClose s k :: rest) : ({ w with
      stack := .onNodeClose s (k + 1) :: rest
      trace := w.trace ++ [⟨k, false, w.identity s⟩] } : Registry).Consistent listeners := by
  have hrest : ∀ {k'}, .onNodeClose s k' ∉ rest := fun hm =>
    h.not_mem_rest hs (List.mem_map.mpr ⟨_, hm, rfl⟩)
  have hnone := h.absent s k (by simp [hs])
  refine h.retell ?_ ?_ (by simp [hs, Callback.session]) ?_
  · intro s'
    simp [hs]
  · intro s'
    by_cases he : s' = s
    · subst he
      exact iff_of_true ⟨k + 1, List.mem_cons_self⟩ ⟨k, by simp [hs]⟩
    · simp [hs, he]
  · intro listener hlt node
    refine told_snoc rfl rfl (h.told listener hlt node) ?_ ?_
    · rintro rfl rfl
      refine ⟨iff_of_true rfl (.inr ⟨s, k, by simp [hs], rfl, Nat.le_refl _⟩),
        iff_of_false (by simp) ?_⟩
      rintro (⟨s', hs', _⟩ | ⟨s', k', hm, hi, hle⟩)
      · rw [show w.nodes _ _ = none from hnone] at hs'
        cases hs'
      · rcases List.mem_cons.mp hm with hm' | hm'
        · cases hm'
          exact Nat.not_succ_le_self _ hle
        · have := h.apart s' k' s k (by simp [hs, hm']) (by simp [hs]) hi
          subst this
          exact hrest hm'
    · intro hne
      refine or_congr (by simp [hs]) (exists_congr fun s' => ?_)
      by_cases he : s' = s
      · subst he
        simp only [hs, List.mem_cons, Callback.onNodeClose.injEq, true_and, hrest, or_false,
          exists_eq_left]
        refine and_congr_right fun hnode => ?_
        have : listener ≠ k := fun hk => hne ⟨hk.symm, hnode⟩
        omega
      · simp [hs, he]
        exact Iff.rfl

/-- No session gets in or out of the registry at the end of a callback. -/
theorem Consistent.leave_live (h : w.Consistent listeners) {c : Callback} {rest : List Callback}
    (hs : w.stack = c :: rest)
    (hlive : w.Live c.session ↔ p.connected = true ∧ p.session.ready = true) (s : Nat) :
    (({ w with stack := rest } : Registry).setPeer c.session p).Live s ↔ w.Live s := by
  have hne : ∀ {c'}, c' ∈ rest → c'.session ≠ c.session := fun hm he =>
    h.not_mem_rest hs (he ▸ List.mem_map.mpr ⟨_, hm, rfl⟩)
  have hmem : ∀ {c'}, c' ∈ w.stack ↔ c' = c ∨ c' ∈ rest := by
    intro c'
    rw [hs, List.mem_cons]
  by_cases he : s = c.session
  · subst he
    rw [hlive]
    constructor
    · rintro ⟨h1, h2, -⟩
      rw [setPeer_self] at h1 h2
      exact ⟨h1, h2.resolve_right fun ⟨k, hk⟩ => hne hk rfl⟩
    · rintro ⟨h1, h2⟩
      exact ⟨by rwa [setPeer_self], .inl (by rwa [setPeer_self]), fun k hm => hne hm rfl⟩
  · have hother : ∀ {c'}, c'.session = s → (c' ∈ w.stack ↔ c' ∈ rest) := by
      intro c' hc'
      rw [hmem, or_iff_right]
      rintro rfl
      exact he hc'.symm
    constructor
    · rintro ⟨h1, h2, h3⟩
      rw [setPeer_of_ne he] at h1 h2
      exact ⟨h1, h2.imp_right fun ⟨k, hk⟩ => ⟨k, (hother rfl).mpr hk⟩,
        fun k hm => h3 k ((hother rfl).mp hm)⟩
    · rintro ⟨h1, h2, h3⟩
      refine ⟨by rwa [setPeer_of_ne he], ?_, fun k hm => h3 k ((hother rfl).mpr hm)⟩
      rw [setPeer_of_ne he]
      exact h2.imp_right fun ⟨k, hk⟩ => ⟨k, (hother rfl).mp hk⟩

/-- The innermost callback ends, and its session is changed but not in its identity. -/
theorem Consistent.leave (h : w.Consistent listeners) {c : Callback} {rest : List Callback}
    (hs : w.stack = c :: rest)
    (hid : (p.session.nodeType, p.session.nodeId) = w.identity c.session)
    (hlive : w.Live c.session ↔ p.connected = true ∧ p.session.ready = true)
    (hknows : ∀ listener < listeners, ∀ node,
      w.Knows listener node ↔ ({ w with stack := rest } : Registry).Knows listener node) :
    (({ w with stack := rest } : Registry).setPeer c.session p).Consistent listeners := by
  have hsub : ∀ {c'}, c' ∈ rest → c' ∈ w.stack := fun hm => hs ▸ List.mem_cons_of_mem c hm
  have hne : ∀ {c'}, c' ∈ rest → c'.session ≠ c.session := fun hm he =>
    h.not_mem_rest hs (he ▸ List.mem_map.mpr ⟨_, hm, rfl⟩)
  have hidentity : ∀ s, (({ w with stack := rest } : Registry).setPeer c.session p).identity s =
      w.identity s := by
    intro s
    by_cases he : s = c.session
    · subst he
      simp only [identity, setPeer_self]
      exact hid
    · exact identity_of_ne he
  refine ⟨?_, ?_, ?_, ?_, ?_, ?_, h.told_of_knows rfl ?_⟩
  · intro node s
    rw [h.leave_live hs hlive, hidentity]
    exact h.registry node s
  · intro s k hm
    have he : s ≠ c.session := hne hm
    rw [setPeer_of_ne he]
    exact h.opens s k (hsub hm)
  · intro s k hm
    have he : s ≠ c.session := hne hm
    rw [setPeer_of_ne he]
    exact h.closes s k (hsub hm)
  · have hnodup := h.nodup
    rw [hs, List.map_cons] at hnodup
    exact (List.nodup_cons.mp hnodup).2
  · intro s k s' k' hm hm' he
    rw [hidentity, hidentity] at he
    exact h.apart s k s' k' (hsub hm) (hsub hm') he
  · intro s k hm
    rw [hidentity]
    exact h.absent s k (hsub hm)
  · intro listener hlt node
    refine (hknows listener hlt node).trans ?_
    simp only [Knows, hidentity]
    exact Iff.rfl

/-- The loop over the listeners keeps the registry consistent. -/
theorem Consistent.next (h : w.Consistent listeners) (hn : w.next listeners = some w') :
    w'.Consistent listeners := by
  unfold Registry.next at hn
  split at hn
  · cases hn
  · next s k rest hs =>
    split at hn
    · cases hn
      exact h.tellOpen hs
    · next hk =>
      cases hn
      have hrest : ∀ {k'}, .onNodeOpen s k' ∉ rest := fun hm =>
        h.not_mem_rest hs (List.mem_map.mpr ⟨_, hm, rfl⟩)
      have hin := (h.registry _ s).mp (h.opening (s := s) (k := k) (by simp [hs]))
      refine h.leave hs rfl (iff_of_true hin.1 ⟨hin.1.connected, rfl⟩) ?_
      intro listener hlt node
      refine or_congr (exists_congr fun s' => and_congr_right fun hs' => ?_) ?_
      · by_cases he : s' = s
        · subst he
          simp only [hs, List.mem_cons, Callback.onNodeOpen.injEq, true_and, hrest, or_false,
            forall_eq]
          exact iff_of_true (by omega) fun k' hk' => absurd hk' id
        · simp [hs, he]
      · simp only [hs, List.mem_cons, reduceCtorEq, false_or]
        exact Iff.rfl
  · next s k rest hs =>
    split at hn
    · cases hn
      exact h.tellClose hs
    · next hk =>
      cases hn
      have hrest : ∀ {k'}, .onNodeClose s k' ∉ rest := fun hm =>
        h.not_mem_rest hs (List.mem_map.mpr ⟨_, hm, rfl⟩)
      have hclosed : ¬ w.Live s := fun hl => hl.notClosed k (by simp [hs])
      refine h.leave hs rfl (iff_of_false hclosed (by simp)) ?_
      intro listener hlt node
      refine or_congr (by simp [hs]) ?_
      constructor
      · rintro ⟨s', k', hm, hi, hle⟩
        rw [hs] at hm
        rcases List.mem_cons.mp hm with hm | hm
        · cases hm
          omega
        · exact ⟨s', k', hm, hi, hle⟩
      · rintro ⟨s', k', hm, hi, hle⟩
        exact ⟨s', k', by rw [hs]; exact List.mem_cons_of_mem _ hm, hi, hle⟩

/-! ## Runs -/

theorem Consistent.not_mem_of_idle (h : w.Consistent listeners)
    (hp : (w.peers s).connected = false) : s ∉ w.stack.map Callback.session := by
  intro hm
  obtain ⟨c, hc, rfl⟩ := List.mem_map.mp hm
  have hconnected : (w.peers c.session).connected = true := by
    cases c with
    | onNodeOpen s k => exact (h.opens s k hc).1
    | onNodeClose s k => exact (h.closes s k hc).1
  rw [hp] at hconnected
  cases hconnected

theorem Consistent.step (h : w.Consistent listeners) (hd : w.Distinct l)
    (hs : w.step listeners l = some w') : w'.Consistent listeners := by
  have idle : ∀ s, (w.peers s).connected = false → ¬ w.Live s := by
    intro s hc hl
    rw [hl.connected] at hc
    cases hc
  cases l with
  | accept s | dial s =>
    simp only [Registry.step] at hs
    split at hs
    · next hg =>
      cases hs
      have hc : (w.peers s).connected = false := by simp_all
      exact h.setPeer (h.not_mem_of_idle hc) (idle s hc) (by simp [NodeSession.create])
    · cases hs
  | connected s =>
    simp only [Registry.step] at hs
    split at hs
    · next hg =>
      cases hs
      exact h.setPeer (h.not_mem_of_idle hg.2.1) (idle s hg.2.1) (by simp [hg.2.2.2])
    · cases hs
  | report s nodeType nodeId =>
    simp only [Registry.step] at hs
    split at hs
    · next hg => exact (h.openNode hg.1 hg.2.1 hg.2.2 hd).next hs
    · cases hs
  | disconnect s =>
    simp only [Registry.step] at hs
    split at hs
    · next hg =>
      split at hs
      · next hr => exact (h.closeNode hg.2 hg.1 hr).next hs
      · next hr =>
        cases hs
        refine h.setPeer hg.2 (fun hl => ?_) (by simp)
        rcases hl.opened with hr' | ⟨k, hk⟩
        · exact hr hr'
        · exact hg.2 (mem_sessions_open hk)
    · cases hs
  | ret => exact h.next hs

/-- What the registry is there for. Inside a callback the session that is being opened or closed
is neither ready nor gone; the first two parts speak of the main thread between events. -/
structure Sound (listeners : Nat) (w : Registry) : Prop where
  registry : w.stack = [] → ∀ nodeType nodeId s, w.nodes nodeType nodeId = some s ↔
    (w.peers s).connected = true ∧ (w.peers s).session.ready = true ∧
      w.identity s = (nodeType, nodeId)
  reachable : w.stack = [] → ∀ s, (w.peers s).connected = true →
    (w.peers s).session.ready = true → ∀ messageId size,
      (Harbor.prepareSend w.nodes (w.identity s).1 (w.identity s).2 messageId size).1 = true ∧
        ∀ write ∈ (Harbor.prepareSend w.nodes (w.identity s).1 (w.identity s).2
          messageId size).2, write.1 = s
  alternate : ∀ listener < listeners, ∀ node, Alternates (w.history listener node)

theorem Consistent.sound (h : w.Consistent listeners) : w.Sound listeners := by
  have hregistry : w.stack = [] → ∀ nodeType nodeId s, w.nodes nodeType nodeId = some s ↔
      (w.peers s).connected = true ∧ (w.peers s).session.ready = true ∧
        w.identity s = (nodeType, nodeId) := by
    intro hs nodeType nodeId s
    rw [h.registry (nodeType, nodeId) s]
    constructor
    · rintro ⟨hl, hi⟩
      refine ⟨hl.connected, hl.opened.resolve_right ?_, hi⟩
      simp [hs]
    · rintro ⟨hc, hr, hi⟩
      exact ⟨⟨hc, .inl hr, by simp [hs]⟩, hi⟩
  refine ⟨hregistry, ?_, ?_⟩
  · intro hs s hc hr messageId size
    have hin : w.nodes (w.identity s).1 (w.identity s).2 = some s :=
      (hregistry hs _ _ s).mpr ⟨hc, hr, rfl⟩
    rw [Harbor.prepareSend, hin]
    exact ⟨rfl, by simp⟩
  · intro listener hlt node
    obtain ⟨b, hb, _⟩ := h.told listener hlt node
    rw [Alternates, hb]
    rfl

end Registry

/-- **Registry consistency.** As long as no session reports the identity of another one that is
connected and ready, the registry holds exactly the connected and ready sessions under their
identities, `PrepareSend` reaches each of them, and every listener sees each identity open and
close strictly in turn. -/
theorem registry_consistent {listeners : Nat} {w : Registry}
    (h : (registry listeners).Run Registry.Distinct w) : w.Sound listeners := by
  have hinv : w.Consistent listeners :=
    h.invariant .init fun _ _ _ hd hi hs => Registry.Consistent.step hi hd hs
  exact hinv.sound

/-- Two sessions report themselves, the first one leaves, and a third reports its identity. -/
theorem registry_consistent_back :
    ∃ w, (registry 1).Run Registry.Distinct w ∧ w.nodes 3 1 = some 2 ∧ w.nodes 3 2 = some 1 ∧
      w.history 0 (3, 1) = [true, false, true] ∧ w.Sound 1 := by
  have h₁ : (registry 1).Run Registry.Distinct _ := .next .start (l := .accept 0) trivial rfl
  have h₂ : (registry 1).Run Registry.Distinct _ := .next h₁ (l := .report 0 3 1) (by
    rintro ⟨_ | s, hne, hc, -⟩
    · exact hne rfl
    · cases hc) rfl
  have h₃ : (registry 1).Run Registry.Distinct _ := .next h₂ (l := .ret) trivial rfl
  have h₄ : (registry 1).Run Registry.Distinct _ := .next h₃ (l := .accept 1) trivial rfl
  have h₅ : (registry 1).Run Registry.Distinct _ := .next h₄ (l := .report 1 3 2) (by
    rintro ⟨_ | _ | s, hne, hc, _, hi⟩
    · exact absurd hi (by decide)
    · exact hne rfl
    · cases hc) rfl
  have h₆ : (registry 1).Run Registry.Distinct _ := .next h₅ (l := .ret) trivial rfl
  have h₇ : (registry 1).Run Registry.Distinct _ := .next h₆ (l := .disconnect 0) trivial rfl
  have h₈ : (registry 1).Run Registry.Distinct _ := .next h₇ (l := .ret) trivial rfl
  have h₉ : (registry 1).Run Registry.Distinct _ := .next h₈ (l := .accept 2) trivial rfl
  have h₁₀ : (registry 1).Run Registry.Distinct _ := .next h₉ (l := .report 2 3 1) (by
    rintro ⟨_ | _ | _ | s, hne, hc, _, hi⟩
    · cases hc
    · exact absurd hi (by decide)
    · exact hne rfl
    · cases hc) rfl
  have h₁₁ : (registry 1).Run Registry.Distinct _ := .next h₁₀ (l := .ret) trivial rfl
  exact ⟨_, h₁₁, rfl, rfl, by decide, registry_consistent h₁₁⟩

/-- The first of two sessions with one identity takes the second, which is alive, out of the
registry with it. -/
theorem live_session_unregistered : ¬ ∀ (listeners : Nat) (w : Registry),
    (registry listeners).Reachable w → w.Sound listeners := by
  intro h
  obtain ⟨w, hw, hp⟩ := System.run_of_exec (M := registry 1) (P := fun _ _ => True)
    [.accept 0, .report 0 3 1, .ret, .accept 1, .report 1 3 1, .ret, .disconnect 0, .ret]
    (p := fun w => decide (w.stack = [] ∧ (w.peers 1).connected = true ∧
      (w.peers 1).session.ready = true ∧ w.identity 1 = (3, 1) ∧ w.nodes 3 1 = none)) (by decide)
  simp only [decide_eq_true_eq] at hp
  obtain ⟨hs, hc, hr, hi, hn⟩ := hp
  have := ((h 1 w hw).registry hs 3 1 1).mpr ⟨hc, hr, hi⟩
  rw [hn] at this
  cases this

end HyperNet.Logic
