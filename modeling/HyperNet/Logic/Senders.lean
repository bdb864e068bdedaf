import HyperNet.Core.History
import HyperNet.Core.Transition
import HyperNet.Logic.Harbor
import HyperNet.Net.Closing
import Mathlib.Data.List.Nodup
import Mathlib.Logic.Function.Basic

/-! # Sending while sessions close (Harbor::PrepareSend, Send, PrepareBrocast, Brocast)

A message goes out in two calls: `PrepareSend` and `Send` for one node, `PrepareBrocast` and
`Brocast` for all of a type. Each holds an iterator into `_nodes` while it writes to the session
there. A session whose buffer has no room is closed by the write, at once if its connection
has no request at the worker and is not inside `OnRecv`, and then `OnNodeClose` erases its entry and
calls the listeners, which may send messages of their own. The stack holds the calls the main thread
is in. -/
namespace HyperNet.Logic
open HyperNet.Core.History HyperNet.Core.Transition HyperNet.Public

/-- An entry of `_nodes`. -/
structure NodeEntry where
  nodeType : Int32
  nodeId : Int32
  session : Nat
  deriving DecidableEq

def NodeEntry.key (e : NodeEntry) : Int32 × Int32 := (e.nodeType, e.nodeId)

/-- What a pair of calls sends: to a node, or to all of a type. -/
structure Outgoing where
  nodeType : Int32
  nodeId : Option Int32
  messageId : Int32
  body : List UInt8
  deriving DecidableEq

namespace Outgoing

/-- What `PrepareSend` and `PrepareBrocast` write to a session. -/
def head (m : Outgoing) : List (List UInt8) :=
  [NodeSession.prepareSendNodeMessage (s32 ((m.body.length : Int) + 4)),
    s32Bytes m.messageId.toInt]

/-- What a call of the pair writes to a session. -/
def contexts (m : Outgoing) : Nat → List (List UInt8)
  | 0 => m.head
  | 1 => [m.body]
  | _ => []

/-- What a call writes to each session, if it is a loop. -/
def each (m : Outgoing) (k : Nat) : Option (List (List UInt8)) :=
  if m.nodeId.isSome then none else some (m.contexts k)

/-- What the first `k` calls write to a session. -/
def sent (m : Outgoing) (k : Nat) : List (List UInt8) := (List.range k).flatMap m.contexts

def addresses (m : Outgoing) (e : NodeEntry) : Bool :=
  e.nodeType == m.nodeType && m.nodeId.all (e.nodeId == ·)

/-- `Harbor::PrepareSend` writes the head. -/
theorem head_prepareSend (m : Outgoing) {nodes : Nodes Nat} {nodeId : Int32} {s : Nat}
    (hs : nodes m.nodeType nodeId = some s) :
    Harbor.prepareSend nodes m.nodeType nodeId m.messageId m.body.length =
      (true, m.head.map fun context => (s, context)) := by
  rw [Harbor.prepareSend, hs]
  rfl

theorem sent_succ (m : Outgoing) (k : Nat) : m.sent (k + 1) = m.sent k ++ m.contexts k := by
  simp [sent, List.range_succ]

/-- The two calls write the frame of the message. -/
theorem sent_frame (m : Outgoing) (hm : m.body.length + 12 < s32Bound) :
    (m.sent 2).flatten = Message.frame ⟨m.messageId, [m.body]⟩ := by
  have hsize : s32 (s32 ((m.body.length : Int) + 4) + HarborHeader.size) =
      ((m.body.length + 12 : Nat) : Int) := by
    have h4 : s32 ((m.body.length : Int) + 4) = ((m.body.length + 4 : Nat) : Int) :=
      s32_of_lt (k := m.body.length + 4) (by omega)
    rw [h4]
    exact s32_of_lt (k := m.body.length + 4 + 8) (by omega)
  simp [sent, List.range_succ, contexts, head, NodeSession.prepareSendNodeMessage, hsize,
    Message.frame, Message.payload]

end Outgoing

/-- What `Connection::Send` does with a context: it takes it, or refuses it and closes, in time
or at once. -/
inductive Answer
  | accepted | refused | closed
  deriving DecidableEq

/-- A call that the main thread is in. -/
inductive SendFrame
  /-- `OnNodeOpen` or `OnNodeClose` for a session, in a listener. -/
  | listeners (session : Nat)
  /-- The caller of a pair, with the calls made so far and, for each session it addresses, what its
  connection had taken before. -/
  | pair (m : Outgoing) (calls : Nat) (start : List (NodeEntry × List (List UInt8)))
  /-- A function of Harbor with its iterator, what it has still to write to the session there,
  and what it writes to each if it is a loop. -/
  | sending (itr : NodeEntry) (contexts : List (List UInt8)) (each : Option (List (List UInt8)))
  /-- An iterator has been used whose entry is erased. -/
  | undefined
  deriving DecidableEq

/-- An iterator is dereferenced or moved on, and whether its entry is in `_nodes`. -/
structure Deref where
  itr : NodeEntry
  registered : Bool
  deriving DecidableEq

structure Sessions where
  /-- `_nodes`, in the order of its iteration. -/
  nodes : List NodeEntry
  /-- What the connection of each session has taken of the calls' contexts. -/
  streams : Nat → List (List UInt8)
  /-- The sessions whose connection has refused a context, and closes. -/
  closing : List Nat

structure Senders extends Sessions where
  stack : List SendFrame
  trace : List Deref

inductive SendersLabel
  /-- `OnNodeOpen`, with the table's new order. -/
  | opened (e : NodeEntry) (order : List NodeEntry)
  /-- `OnNodeClose` of a session whose connection ends by itself. -/
  | disconnected (e : NodeEntry)
  /-- Some code of a module sends a message. -/
  | start (m : Outgoing)
  /-- The top function writes to its session. -/
  | send (a : Answer)
  /-- It goes on otherwise, or returns. -/
  | next
  deriving DecidableEq

namespace Sessions

/-- Where a call of the pair begins: at the node's entry, or at the first of its type. -/
def first (m : Outgoing) (w : Sessions) : Option NodeEntry := w.nodes.find? m.addresses

/-- `++itr`. -/
def following (e : NodeEntry) (w : Sessions) : Option NodeEntry :=
  match (w.nodes.filter (·.nodeType == e.nodeType)).dropWhile (· != e) with
  | _ :: next :: _ => some next
  | _ => none

end Sessions

namespace Senders

def init : Senders where
  nodes := []
  streams := fun _ => []
  closing := []
  stack := []
  trace := []

/-- `_nodes[nodeType].erase(nodeId)`. -/
def erase (e : NodeEntry) (w : Senders) : Senders :=
  { w with nodes := w.nodes.filter (·.key != e.key) }

/-- An iterator is used. -/
def deref (e : NodeEntry) (w : Senders) : Senders := { w with trace := w.trace ++ [⟨e, true⟩] }

/-- An iterator whose entry is erased is used. -/
def misuse (e : NodeEntry) (w : Senders) : Senders :=
  { w with stack := .undefined :: w.stack, trace := w.trace ++ [⟨e, false⟩] }

/-- Some code other than Harbor's runs: outside all calls, or in a listener. -/
def free (w : Senders) : Bool :=
  match w.stack with
  | [] | .listeners _ :: _ => true
  | _ => false

def step (w : Senders) : SendersLabel → Option Senders
  | .opened e order =>
    if w.stack = [] ∧ (∀ x ∈ w.nodes, x.session ≠ e.session) ∧
        order.isPerm (e :: w.nodes.filter (·.key != e.key)) = true then
      some { w with
        nodes := order
        closing := w.closing.filter (· != e.session)
        stack := [.listeners e.session] }
    else none
  | .disconnected e =>
    if w.stack = [] then some { w.erase e with stack := [.listeners e.session] } else none
  | .start m =>
    if w.free then
      let start := (w.nodes.filter m.addresses).map fun e => (e, w.streams e.session)
      some { w with stack := .pair m 0 start :: w.stack }
    else none
  | .send a =>
    match w.stack with
    | .sending e (context :: contexts) each :: fs =>
      if e ∈ w.nodes then
        match a with
        | .accepted => some { w.deref e with
            streams := Function.update w.streams e.session (w.streams e.session ++ [context])
            stack := .sending e contexts each :: fs }
        | .refused => some { w.deref e with
            closing := e.session :: w.closing
            stack := .sending e contexts each :: fs }
        | .closed =>
          if .listeners e.session ∈ w.stack then none
          else some { (w.deref e).erase e with
            stack := .listeners e.session :: .sending e contexts each :: fs }
      else some (w.misuse e)
    | _ => none
  | .next =>
    match w.stack with
    | .listeners _ :: fs => some { w with stack := fs }
    | .pair m calls start :: fs =>
      if calls < 2 then
        let frame := .pair m (calls + 1) start
        match w.first m with
        | some e => some { w with
            stack := .sending e (m.contexts calls) (m.each calls) :: frame :: fs }
        | none => some { w with stack := frame :: fs }
      else some { w with stack := fs }
    | .sending _ [] none :: fs => some { w with stack := fs }
    | .sending e [] (some each) :: fs =>
      if e ∈ w.nodes then
        match w.following e with
        | some next => some { w.deref e with stack := .sending next each (some each) :: fs }
        | none => some { w.deref e with stack := fs }
      else some (w.misuse e)
    | _ => none

end Senders

/-- Harbor's senders, from its start on. -/
def senders : System Senders SendersLabel := ⟨.init, Senders.step⟩

namespace Senders

/-- A write that closes its session at once is the last of a function that sends to one node. -/
def ClosesLast (w : Senders) : SendersLabel → Prop
  | .send .closed =>
    match w.stack with
    | .sending _ (_ :: contexts) each :: _ => contexts = [] ∧ each = none
    | _ => True
  | _ => True

instance (w : Senders) (l : SendersLabel) : Decidable (w.ClosesLast l) := by
  unfold ClosesLast
  split
  · split
    · infer_instance
    · infer_instance
  · infer_instance

/-- `step`, way by way. -/
inductive Does (w : Senders) : SendersLabel → Senders → Prop
  | opened {e : NodeEntry} {order : List NodeEntry} (hst : w.stack = [])
      (hs : ∀ x ∈ w.nodes, x.session ≠ e.session)
      (ho : order.Perm (e :: w.nodes.filter (·.key != e.key))) :
      Does w (.opened e order) { w with
        nodes := order
        closing := w.closing.filter (· != e.session)
        stack := [.listeners e.session] }
  | disconnected {e : NodeEntry} (hst : w.stack = []) :
      Does w (.disconnected e) { w.erase e with stack := [.listeners e.session] }
  | start {m : Outgoing} (hf : w.free = true) :
      Does w (.start m) { w with
        stack := .pair m 0 ((w.nodes.filter m.addresses).map fun e => (e, w.streams e.session)) ::
          w.stack }
  | accepted {e : NodeEntry} {context : List UInt8} {contexts : List (List UInt8)}
      {each : Option (List (List UInt8))} {fs : List SendFrame}
      (hst : w.stack = .sending e (context :: contexts) each :: fs) (he : e ∈ w.nodes) :
      Does w (.send .accepted) { w.deref e with
        streams := Function.update w.streams e.session (w.streams e.session ++ [context])
        stack := .sending e contexts each :: fs }
  | refused {e : NodeEntry} {context : List UInt8} {contexts : List (List UInt8)}
      {each : Option (List (List UInt8))} {fs : List SendFrame}
      (hst : w.stack = .sending e (context :: contexts) each :: fs) (he : e ∈ w.nodes) :
      Does w (.send .refused) { w.deref e with
        closing := e.session :: w.closing
        stack := .sending e contexts each :: fs }
  | closed {e : NodeEntry} {context : List UInt8} {contexts : List (List UInt8)}
      {each : Option (List (List UInt8))} {fs : List SendFrame}
      (hst : w.stack = .sending e (context :: contexts) each :: fs) (he : e ∈ w.nodes) :
      Does w (.send .closed) { (w.deref e).erase e with
        stack := .listeners e.session :: .sending e contexts each :: fs }
  | erased {a : Answer} {e : NodeEntry} {context : List UInt8} {contexts : List (List UInt8)}
      {each : Option (List (List UInt8))} {fs : List SendFrame}
      (hst : w.stack = .sending e (context :: contexts) each :: fs) (he : e ∉ w.nodes) :
      Does w (.send a) (w.misuse e)
  | heard {s : Nat} {fs : List SendFrame} (hst : w.stack = .listeners s :: fs) :
      Does w .next { w with stack := fs }
  | call {m : Outgoing} {calls : Nat} {start : List (NodeEntry × List (List UInt8))}
      {fs : List SendFrame} {e : NodeEntry} (hst : w.stack = .pair m calls start :: fs)
      (hlt : calls < 2) (hf : w.first m = some e) :
      Does w .next { w with
        stack := .sending e (m.contexts calls) (m.each calls) :: .pair m (calls + 1) start :: fs }
  | nobody {m : Outgoing} {calls : Nat} {start : List (NodeEntry × List (List UInt8))}
      {fs : List SendFrame} (hst : w.stack = .pair m calls start :: fs) (hlt : calls < 2)
      (hf : w.first m = none) :
      Does w .next { w with stack := .pair m (calls + 1) start :: fs }
  | done {m : Outgoing} {calls : Nat} {start : List (NodeEntry × List (List UInt8))}
      {fs : List SendFrame} (hst : w.stack = .pair m calls start :: fs) :
      Does w .next { w with stack := fs }
  | written {e : NodeEntry} {fs : List SendFrame} (hst : w.stack = .sending e [] none :: fs) :
      Does w .next { w with stack := fs }
  | advance {e next : NodeEntry} {each : List (List UInt8)} {fs : List SendFrame}
      (hst : w.stack = .sending e [] (some each) :: fs) (he : e ∈ w.nodes)
      (hn : w.following e = some next) :
      Does w .next { w.deref e with stack := .sending next each (some each) :: fs }
  | last {e : NodeEntry} {each : List (List UInt8)} {fs : List SendFrame}
      (hst : w.stack = .sending e [] (some each) :: fs) (he : e ∈ w.nodes)
      (hn : w.following e = none) : Does w .next { w.deref e with stack := fs }
  | lost {e : NodeEntry} {each : List (List UInt8)} {fs : List SendFrame}
      (hst : w.stack = .sending e [] (some each) :: fs) (he : e ∉ w.nodes) :
      Does w .next (w.misuse e)

theorem step_cases {w w' : Senders} {l : SendersLabel} (h : w.step l = some w') :
    w.Does l w' := by
  cases l with
  | opened e order =>
    simp only [step] at h
    split at h
    · next hw =>
      cases h
      exact .opened hw.1 hw.2.1 (List.isPerm_iff.mp hw.2.2)
    · cases h
  | disconnected e =>
    simp only [step] at h
    split at h
    · next hst =>
      cases h
      exact .disconnected hst
    · cases h
  | start m =>
    simp only [step] at h
    split at h
    · next hf =>
      cases h
      exact .start hf
    · cases h
  | send a =>
    simp only [step] at h
    split at h
    · next e context contexts each fs hst =>
      split at h
      · next he =>
        cases a with
        | accepted =>
          cases h
          exact .accepted hst he
        | refused =>
          cases h
          exact .refused hst he
        | closed =>
          dsimp only at h
          split at h
          · cases h
          · cases h
            exact .closed hst he
      · next he =>
        cases h
        exact .erased hst he
    · cases h
  | next =>
    simp only [step] at h
    split at h
    · next s fs hst =>
      cases h
      exact .heard hst
    · next m calls start fs hst =>
      split at h
      · next hlt =>
        split at h
        · next e hf =>
          cases h
          exact .call hst hlt hf
        · next hf =>
          cases h
          exact .nobody hst hlt hf
      · cases h
        exact .done hst
    · next e fs hst =>
      cases h
      exact .written hst
    · next e each fs hst =>
      split at h
      · next he =>
        split at h
        · next next hn =>
          cases h
          exact .advance hst he hn
        · next hn =>
          cases h
          exact .last hst he hn
      · next he =>
        cases h
        exact .lost hst he
    · cases h

end Senders

/-! ## The invariant -/

namespace Sessions

/-- What a session that a pair addresses has taken after some of its calls. -/
structure Begun (w : Sessions) (m : Outgoing) (k : Nat)
    (start : List (NodeEntry × List (List UInt8))) : Prop where
  cover : ∀ e ∈ w.nodes, m.addresses e = true → ∃ str, (e, str) ∈ start
  addressed : ∀ p ∈ start, m.addresses p.1 = true
  exact : ∀ p ∈ start, p.1 ∈ w.nodes → p.1.session ∉ w.closing →
    w.streams p.1.session = p.2 ++ m.sent k

/-- The pair's sessions are all gone. -/
structure Gone (nodes : List NodeEntry) (m : Outgoing)
    (start : List (NodeEntry × List (List UInt8))) : Prop where
  none : ∀ e ∈ nodes, m.addresses e = false
  addressed : ∀ p ∈ start, m.addresses p.1 = true

/-- A call of the pair, somewhere on its way: it has written to the entries before its iterator,
and of its contexts for the session there the first ones. -/
structure Running (w : Sessions) (m : Outgoing) (k : Nat)
    (start : List (NodeEntry × List (List UInt8))) (e : NodeEntry) (contexts : List (List UInt8))
    (pre post : List NodeEntry) (did : List (List UInt8)) : Prop where
  cover : ∀ e ∈ w.nodes, m.addresses e = true → ∃ str, (e, str) ∈ start
  addressed : ∀ p ∈ start, m.addresses p.1 = true
  split : w.nodes.filter m.addresses = pre ++ e :: post
  parts : m.contexts k = did ++ contexts
  before : ∀ p ∈ start, p.1 ∈ pre → p.1.session ∉ w.closing →
    w.streams p.1.session = p.2 ++ m.sent (k + 1)
  now : ∀ p ∈ start, p.1 = e → p.1.session ∉ w.closing →
    w.streams p.1.session = p.2 ++ m.sent k ++ did
  after : ∀ p ∈ start, p.1 ∈ post → p.1.session ∉ w.closing →
    w.streams p.1.session = p.2 ++ m.sent k

/-- What is on the stack beneath a pair: a listener called because the last write of a function
for one node has closed its session. -/
inductive Beneath (nodes : List NodeEntry) : List SendFrame → Prop
  | nil : Beneath nodes []
  | event {s : Nat} : Beneath nodes [.listeners s]
  | closed {m : Outgoing} {s k : Nat} {e : NodeEntry}
      {start : List (NodeEntry × List (List UInt8))} {fs : List SendFrame}
      (hg : Gone nodes m start) (h : Beneath nodes fs) :
      Beneath nodes (.listeners s :: .sending e [] none :: .pair m k start :: fs)

inductive Sound (w : Sessions) : List SendFrame → Prop
  | free {fs : List SendFrame} (h : Beneath w.nodes fs) : Sound w fs
  | pair {m : Outgoing} {k : Nat} {start : List (NodeEntry × List (List UInt8))}
      {fs : List SendFrame} (hp : w.Begun m k start) (h : Beneath w.nodes fs) :
      Sound w (.pair m k start :: fs)
  | sending {m : Outgoing} {k : Nat} {start : List (NodeEntry × List (List UInt8))}
      {e : NodeEntry} {contexts : List (List UInt8)} {pre post : List NodeEntry}
      {did : List (List UInt8)} {fs : List SendFrame}
      (hr : w.Running m k start e contexts pre post did) (h : Beneath w.nodes fs) :
      Sound w (.sending e contexts (m.each k) :: .pair m (k + 1) start :: fs)
  | gone {m : Outgoing} {k : Nat} {start : List (NodeEntry × List (List UInt8))}
      {e : NodeEntry} {fs : List SendFrame} (hg : Gone w.nodes m start)
      (h : Beneath w.nodes fs) : Sound w (.sending e [] none :: .pair m k start :: fs)

variable {w w' : Sessions} {m : Outgoing} {k : Nat} {e : NodeEntry}
  {start : List (NodeEntry × List (List UInt8))} {contexts : List (List UInt8)}
  {fs : List SendFrame} {nodes nodes' : List NodeEntry}

theorem Gone.mono (h : Gone nodes m start) (hs : ∀ e ∈ nodes', e ∈ nodes) :
    Gone nodes' m start := ⟨fun e he => h.none e (hs e he), h.addressed⟩

theorem Beneath.mono (h : Beneath nodes fs) (hs : ∀ e ∈ nodes', e ∈ nodes) :
    Beneath nodes' fs := by
  induction h with
  | nil => exact .nil
  | event => exact .event
  | closed hg _ ih => exact .closed (hg.mono hs) ih

theorem Gone.begun (h : Gone w.nodes m start) : w.Begun m k start where
  cover e he ha := by rw [h.none e he] at ha; cases ha
  addressed := h.addressed
  exact p hp he _ := by
    have := h.addressed p hp
    rw [h.none p.1 he] at this
    cases this

theorem begun_start : w.Begun m 0 ((w.nodes.filter m.addresses).map fun e =>
    (e, w.streams e.session)) where
  cover e he ha := ⟨_, List.mem_map.mpr ⟨e, List.mem_filter.mpr ⟨he, ha⟩, rfl⟩⟩
  addressed p hp := by
    obtain ⟨e, he, rfl⟩ := List.mem_map.mp hp
    exact (List.mem_filter.mp he).2
  exact p hp _ _ := by
    obtain ⟨e, he, rfl⟩ := List.mem_map.mp hp
    exact (List.append_nil _).symm

/-- Entries addressed for one node are one entry. -/
theorem eq_of_addresses (hk : (w.nodes.map NodeEntry.key).Nodup) (hm : m.nodeId.isSome = true)
    {x y : NodeEntry} (hx : x ∈ w.nodes) (hy : y ∈ w.nodes) (hax : m.addresses x = true)
    (hay : m.addresses y = true) : x = y := by
  refine List.inj_on_of_nodup_map hk hx hy ?_
  obtain ⟨i, hi⟩ := Option.isSome_iff_exists.mp hm
  simp only [Outgoing.addresses, hi, Option.all_some, Bool.and_eq_true, beq_iff_eq] at hax hay
  rw [NodeEntry.key, NodeEntry.key, hax.1, hax.2, hay.1, hay.2]

/-- The call writes to the next session that it addresses. -/
theorem Begun.running (h : w.Begun m k start) {post : List NodeEntry}
    (hs : w.nodes.filter m.addresses = e :: post) :
    w.Running m k start e (m.contexts k) [] post [] := by
  have hmem : ∀ x ∈ e :: post, x ∈ w.nodes := fun x hx => (List.mem_filter.mp (hs ▸ hx)).1
  refine ⟨h.cover, h.addressed, hs, rfl, nofun, ?_, ?_⟩
  · intro p hp heq hopen
    rw [List.append_nil]
    exact h.exact p hp (hmem _ (heq ▸ List.mem_cons_self)) hopen
  · intro p hp hpost
    exact h.exact p hp (hmem _ (List.mem_cons_of_mem _ hpost))

/-- A call that addresses no session, or has written to all of them. -/
theorem Begun.nobody (h : w.Begun m k start) (hs : w.nodes.filter m.addresses = []) :
    w.Begun m (k + 1) start := by
  refine Gone.begun ⟨fun e he => ?_, h.addressed⟩
  simpa using List.filter_eq_nil_iff.mp hs e he

namespace Running
variable {pre post : List NodeEntry} {did : List (List UInt8)} {context : List UInt8}

theorem mem (h : w.Running m k start e contexts pre post did) :
    e ∈ w.nodes ∧ m.addresses e = true :=
  List.mem_filter.mp (h.split ▸ List.mem_append_right _ List.mem_cons_self)

/-- One more context is taken. -/
theorem accepted (h : w.Running m k start e (context :: contexts) pre post did)
    (hs : (w.nodes.map NodeEntry.session).Nodup) :
    Running { w with
      streams := Function.update w.streams e.session (w.streams e.session ++ [context]) }
      m k start e contexts pre post (did ++ [context]) := by
  have hmem : ∀ x ∈ pre ++ e :: post, x ∈ w.nodes :=
    fun x hx => (List.mem_filter.mp (h.split ▸ hx)).1
  have hnodup : (pre ++ e :: post).Nodup :=
    h.split ▸ (List.Nodup.of_map _ hs).filter _
  have hother : ∀ x ∈ pre ++ e :: post, x ≠ e →
      Function.update w.streams e.session (w.streams e.session ++ [context]) x.session =
        w.streams x.session := by
    intro x hx hne
    rw [Function.update_of_ne]
    intro he
    exact hne (List.inj_on_of_nodup_map hs (hmem x hx) h.mem.1 he)
  obtain ⟨_, hpost, hdisj⟩ := List.nodup_append.mp hnodup
  refine ⟨h.cover, h.addressed, h.split, ?_, ?_, ?_, ?_⟩
  · rw [h.parts, List.append_assoc, List.singleton_append]
  · intro p hp hpre hopen
    exact (hother p.1 (List.mem_append_left _ hpre)
      (hdisj _ hpre _ List.mem_cons_self)).trans (h.before p hp hpre hopen)
  · intro p hp heq hopen
    have hnow := h.now p hp heq hopen
    rw [heq] at hnow ⊢
    exact (Function.update_self ..).trans (by rw [hnow, List.append_assoc])
  · intro p hp hpo hopen
    have hne : p.1 ≠ e := fun he => (List.nodup_cons.mp hpost).1 (he ▸ hpo)
    exact (hother p.1 (List.mem_append_right _ (List.mem_cons_of_mem _ hpo)) hne).trans
      (h.after p hp hpo hopen)

/-- A context is refused: the session is closing from here on. -/
theorem refused (h : w.Running m k start e (context :: contexts) pre post did) :
    Running { w with closing := e.session :: w.closing } m k start e contexts pre post
      (did ++ [context]) := by
  have hopen : ∀ {s : Nat}, s ∉ e.session :: w.closing → s ∉ w.closing :=
    fun hs hm => hs (List.mem_cons_of_mem _ hm)
  refine ⟨h.cover, h.addressed, h.split, ?_, fun p hp hm ho => h.before p hp hm (hopen ho), ?_,
    fun p hp hm ho => h.after p hp hm (hopen ho)⟩
  · rw [h.parts, List.append_assoc, List.singleton_append]
  · intro p hp heq ho
    exact absurd (heq ▸ List.mem_cons_self) ho

/-- The session is closed: the pair has no other. -/
theorem closed (h : w.Running m k start e contexts pre post did) (hm : m.nodeId.isSome = true) :
    Gone (w.nodes.filter (·.key != e.key)) m start := by
  refine ⟨fun x hx => ?_, h.addressed⟩
  obtain ⟨hx, hne⟩ := List.mem_filter.mp hx
  cases ha : m.addresses x with
  | false => rfl
  | true =>
    obtain ⟨i, hi⟩ := Option.isSome_iff_exists.mp hm
    have hae := h.mem.2
    simp only [Outgoing.addresses, hi, Option.all_some, Bool.and_eq_true, beq_iff_eq] at ha hae
    simp [NodeEntry.key, ha.1, ha.2, hae.1, hae.2] at hne

/-- All contexts are written to the session; it was the last. -/
theorem finished (h : w.Running m k start e [] pre [] did) : w.Begun m (k + 1) start := by
  have hdid : did = m.contexts k := (h.parts.trans (List.append_nil _)).symm
  refine ⟨h.cover, h.addressed, fun p hp hmem hopen => ?_⟩
  have hm : p.1 ∈ pre ++ [e] := h.split ▸ List.mem_filter.mpr ⟨hmem, h.addressed p hp⟩
  rcases List.mem_append.mp hm with hm | hm
  · exact h.before p hp hm hopen
  · rw [h.now p hp (List.mem_singleton.mp hm) hopen, hdid, Outgoing.sent_succ, List.append_assoc]

/-- On to the next session of the loop. -/
theorem advance {next : NodeEntry} (h : w.Running m k start e [] pre (next :: post) did) :
    w.Running m k start next (m.contexts k) (pre ++ [e]) post [] := by
  have hdid : did = m.contexts k := (h.parts.trans (List.append_nil _)).symm
  refine ⟨h.cover, h.addressed, ?_, rfl, ?_, ?_, ?_⟩
  · rw [h.split, List.append_assoc, List.singleton_append]
  · intro p hp hm hopen
    rcases List.mem_append.mp hm with hm | hm
    · exact h.before p hp hm hopen
    · rw [h.now p hp (List.mem_singleton.mp hm) hopen, hdid, Outgoing.sent_succ, List.append_assoc]
  · intro p hp heq hopen
    rw [List.append_nil]
    exact h.after p hp (heq ▸ List.mem_cons_self) hopen
  · exact fun p hp hm => h.after p hp (List.mem_cons_of_mem _ hm)

/-- A call for one node addresses no other entry. -/
theorem single (h : w.Running m k start e contexts pre post did)
    (hk : (w.nodes.map NodeEntry.key).Nodup) (hm : m.nodeId.isSome = true) : post = [] := by
  have hnodup : (pre ++ e :: post).Nodup := h.split ▸ (List.Nodup.of_map _ hk).filter _
  refine List.eq_nil_iff_forall_not_mem.mpr fun x hx => ?_
  have hx' : x ∈ w.nodes ∧ m.addresses x = true :=
    List.mem_filter.mp (h.split ▸ List.mem_append_right _ (List.mem_cons_of_mem _ hx))
  have heq : x = e := eq_of_addresses hk hm hx'.1 h.mem.1 hx'.2 h.mem.2
  exact (List.nodup_cons.mp (List.nodup_append.mp hnodup).2.1).1 (heq ▸ hx)

/-- `++itr` finds what the split has. -/
theorem following (h : w.Running m k start e contexts pre post did)
    (hs : (w.nodes.map NodeEntry.session).Nodup) (hm : m.nodeId = none) :
    w.following e = post.head? := by
  have hnodup : (pre ++ e :: post).Nodup :=
    h.split ▸ (List.Nodup.of_map _ hs).filter _
  have htype : e.nodeType = m.nodeType := by
    have := h.mem.2
    simpa [Outgoing.addresses, hm] using this
  have hsplit : w.nodes.filter (·.nodeType == e.nodeType) = pre ++ e :: post := by
    rw [← h.split, htype]
    congr 1
    funext x
    simp [Outgoing.addresses, hm]
  have hpre : ∀ x ∈ pre, (x != e) = true := by
    intro x hx
    simpa using (List.nodup_append.mp hnodup).2.2 x hx e List.mem_cons_self
  rw [Sessions.following, hsplit, List.dropWhile_append_of_pos hpre,
    List.dropWhile_cons_of_neg (by simp)]
  cases post <;> rfl

end Running

end Sessions

namespace Senders
open Sessions
variable {w w' : Senders} {m : Outgoing} {k : Nat} {e : NodeEntry} {l : SendersLabel}
  {start : List (NodeEntry × List (List UInt8))} {contexts : List (List UInt8)}
  {each : Option (List (List UInt8))} {fs : List SendFrame}

structure Consistent (w : Senders) : Prop where
  keys : (w.nodes.map NodeEntry.key).Nodup
  sessions : (w.nodes.map NodeEntry.session).Nodup
  sound : w.toSessions.Sound w.stack
  derefs : ∀ d ∈ w.trace, d.registered = true

/-- Code other than Harbor's runs on no pair in the middle. -/
theorem beneath_of_free (h : w.toSessions.Sound w.stack) (hf : w.free = true) :
    Beneath w.nodes w.stack := by
  unfold Senders.free at hf
  generalize w.stack = st at h hf
  cases h with
  | free h => exact h
  | pair | sending | gone => simp at hf

theorem each_none (h : none = m.each k) : m.nodeId.isSome = true := by
  cases hi : m.nodeId.isSome with
  | true => rfl
  | false => simp [Outgoing.each, hi] at h

theorem each_some {cs : List (List UInt8)} (h : some cs = m.each k) :
    m.nodeId = none ∧ cs = m.contexts k := by
  cases hi : m.nodeId with
  | some i => simp [Outgoing.each, hi] at h
  | none => simpa [Outgoing.each, hi] using h

namespace Consistent

/-- The top function is a call of a pair. -/
theorem sending (hc : w.Consistent) (hst : w.stack = .sending e contexts each :: fs) :
    (∃ m k start pre post did rest, fs = .pair m (k + 1) start :: rest ∧ each = m.each k ∧
      w.toSessions.Running m k start e contexts pre post did ∧ Beneath w.nodes rest) ∨
    ∃ m k start rest, fs = .pair m k start :: rest ∧ each = none ∧ contexts = [] ∧
      Gone w.nodes m start ∧ Beneath w.nodes rest := by
  have h := hc.sound
  rw [hst] at h
  cases h with
  | free h => cases h
  | sending hr h => exact .inl ⟨_, _, _, _, _, _, _, rfl, rfl, hr, h⟩
  | gone hg h => exact .inr ⟨_, _, _, _, rfl, rfl, rfl, hg, h⟩

theorem pair (hc : w.Consistent) (hst : w.stack = .pair m k start :: fs) :
    w.toSessions.Begun m k start ∧ Beneath w.nodes fs := by
  have h := hc.sound
  rw [hst] at h
  cases h with
  | free h => cases h
  | pair hp h => exact ⟨hp, h⟩

/-- A call that is still to write, or to go on, is that of a pair with a session. -/
theorem running (hc : w.Consistent) (hst : w.stack = .sending e contexts each :: fs)
    (h : contexts ≠ [] ∨ each ≠ none) :
    ∃ m k start pre post did rest, fs = .pair m (k + 1) start :: rest ∧ each = m.each k ∧
      w.toSessions.Running m k start e contexts pre post did ∧ Beneath w.nodes rest := by
  rcases hc.sending hst with hrunning | ⟨_, _, _, _, _, heach, hnil, _⟩
  · exact hrunning
  · exact h.elim (absurd hnil) (absurd heach)

theorem step (hc : w.Consistent) (hg : w.ClosesLast l) (hs : w.step l = some w') :
    w'.Consistent := by
  cases step_cases hs with
  | @opened e order hst hses ho =>
    have hkeys : ((e :: w.nodes.filter (·.key != e.key)).map NodeEntry.key).Nodup := by
      refine List.nodup_cons.mpr ⟨?_, hc.keys.sublist (List.filter_sublist.map _)⟩
      intro hm
      obtain ⟨x, hx, he⟩ := List.mem_map.mp hm
      simp [he] at hx
    have hsess : ((e :: w.nodes.filter (·.key != e.key)).map NodeEntry.session).Nodup := by
      refine List.nodup_cons.mpr ⟨?_, hc.sessions.sublist (List.filter_sublist.map _)⟩
      intro hm
      obtain ⟨x, hx, he⟩ := List.mem_map.mp hm
      exact hses x (List.mem_of_mem_filter hx) he
    exact ⟨(ho.map _).nodup_iff.mpr hkeys, (ho.map _).nodup_iff.mpr hsess, .free .event, hc.derefs⟩
  | disconnected hst =>
    exact ⟨hc.keys.sublist (List.filter_sublist.map _),
      hc.sessions.sublist (List.filter_sublist.map _), .free .event, hc.derefs⟩
  | start hf =>
    exact ⟨hc.keys, hc.sessions, .pair begun_start (beneath_of_free hc.sound hf), hc.derefs⟩
  | @accepted e context contexts each fs hst he =>
    obtain ⟨m, k, start, pre, post, did, rest, rfl, rfl, hr, hb⟩ :=
      hc.running hst (.inl (List.cons_ne_nil _ _))
    exact ⟨hc.keys, hc.sessions, .sending (hr.accepted hc.sessions) hb, forall_snoc hc.derefs rfl⟩
  | @refused e context contexts each fs hst he =>
    obtain ⟨m, k, start, pre, post, did, rest, rfl, rfl, hr, hb⟩ :=
      hc.running hst (.inl (List.cons_ne_nil _ _))
    exact ⟨hc.keys, hc.sessions, .sending hr.refused hb, forall_snoc hc.derefs rfl⟩
  | @closed e context contexts each fs hst he =>
    simp only [ClosesLast, hst] at hg
    obtain ⟨rfl, rfl⟩ := hg
    obtain ⟨m, k, start, pre, post, did, rest, rfl, heach, hr, hb⟩ :=
      hc.running hst (.inl (List.cons_ne_nil _ _))
    have hsub : ∀ x ∈ (w.erase e).nodes, x ∈ w.nodes := fun x hx => List.mem_of_mem_filter hx
    exact ⟨hc.keys.sublist (List.filter_sublist.map _),
      hc.sessions.sublist (List.filter_sublist.map _),
      .free (.closed (hr.closed (each_none heach)) (hb.mono hsub)), forall_snoc hc.derefs rfl⟩
  | erased hst he =>
    obtain ⟨m, k, start, pre, post, did, rest, rfl, rfl, hr, hb⟩ :=
      hc.running hst (.inl (List.cons_ne_nil _ _))
    exact absurd hr.mem.1 he
  | heard hst =>
    have h := hc.sound
    rw [hst] at h
    cases h with
    | free h =>
      cases h with
      | event => exact ⟨hc.keys, hc.sessions, .free .nil, hc.derefs⟩
      | closed hgone h => exact ⟨hc.keys, hc.sessions, .gone hgone h, hc.derefs⟩
  | @call m k start fs e hst hlt hf =>
    obtain ⟨hp, hb⟩ := hc.pair hst
    obtain ⟨hme, pre, post, hsplit, hnone⟩ := List.find?_eq_some_iff_append.mp hf
    have hfilter : w.nodes.filter m.addresses = e :: post.filter m.addresses := by
      rw [hsplit, List.filter_append, List.filter_cons_of_pos hme,
        List.filter_eq_nil_iff.mpr fun x hx => by simpa using hnone x hx, List.nil_append]
    exact ⟨hc.keys, hc.sessions, .sending (hp.running hfilter) hb, hc.derefs⟩
  | nobody hst hlt hf =>
    obtain ⟨hp, hb⟩ := hc.pair hst
    have hfilter := List.filter_eq_nil_iff.mpr (List.find?_eq_none.mp hf)
    exact ⟨hc.keys, hc.sessions, .pair (hp.nobody hfilter) hb, hc.derefs⟩
  | done hst => exact ⟨hc.keys, hc.sessions, .free (hc.pair hst).2, hc.derefs⟩
  | @written e fs hst =>
    rcases hc.sending hst with ⟨m, k, start, pre, post, did, rest, rfl, heach, hr, hb⟩ |
      ⟨m, k, start, rest, rfl, _, _, hgone, hb⟩
    · obtain rfl := hr.single hc.keys (each_none heach)
      exact ⟨hc.keys, hc.sessions, .pair hr.finished hb, hc.derefs⟩
    · exact ⟨hc.keys, hc.sessions, .pair hgone.begun hb, hc.derefs⟩
  | @advance e next each fs hst he hn =>
    obtain ⟨m, k, start, pre, post, did, rest, rfl, heach, hr, hb⟩ :=
      hc.running hst (.inr (Option.some_ne_none _))
    obtain ⟨hm, rfl⟩ := each_some heach
    rw [hr.following hc.sessions hm] at hn
    obtain ⟨post', rfl⟩ := List.head?_eq_some_iff.mp hn
    rw [heach]
    exact ⟨hc.keys, hc.sessions, .sending hr.advance hb, forall_snoc hc.derefs rfl⟩
  | last hst he hn =>
    obtain ⟨m, k, start, pre, post, did, rest, rfl, heach, hr, hb⟩ :=
      hc.running hst (.inr (Option.some_ne_none _))
    rw [hr.following hc.sessions (each_some heach).1] at hn
    obtain rfl := List.head?_eq_none_iff.mp hn
    exact ⟨hc.keys, hc.sessions, .pair hr.finished hb, forall_snoc hc.derefs rfl⟩
  | lost hst he =>
    obtain ⟨m, k, start, pre, post, did, rest, rfl, _, hr, hb⟩ :=
      hc.running hst (.inr (Option.some_ne_none _))
    exact absurd hr.mem.1 he

theorem init : Senders.init.Consistent := ⟨.nil, .nil, .free .nil, nofun⟩

end Consistent

/-- What the calls of a pair are to keep: an entry is in `_nodes` whenever an iterator to it is
used, and at the end each session that the pair addresses and that is still open has taken the
header, the id and the body since its start, and nothing else. -/
structure Safe (w : Senders) : Prop where
  derefs : ∀ d ∈ w.trace, d.registered = true
  whole : ∀ (m : Outgoing) (start : List (NodeEntry × List (List UInt8))) (rest : List SendFrame),
    w.stack = .pair m 2 start :: rest → ∀ e ∈ w.nodes, m.addresses e = true →
      e.session ∉ w.closing → (∃ str, (e, str) ∈ start) ∧ ∀ str, (e, str) ∈ start →
        w.streams e.session = str ++
          [NodeSession.prepareSendNodeMessage (s32 ((m.body.length : Int) + 4)),
            s32Bytes m.messageId.toInt, m.body]

theorem Consistent.safe (hc : w.Consistent) : w.Safe := by
  refine ⟨hc.derefs, ?_⟩
  intro m start rest hst e he ha hopen
  have hb := (hc.pair hst).1
  exact ⟨hb.cover e he ha, fun str hs => hb.exact (e, str) hs he hopen⟩

/-- The listeners return, and the function goes on with an iterator to the entry they erased. -/
theorem Consistent.misused (hc : w.Consistent) (hs : w.step l = some w')
    (hg : ¬ w.ClosesLast l) : ∃ w₁ l' w₂, w'.step .next = some w₁ ∧
      w₁.step l' = some w₂ ∧ ∃ d ∈ w₂.trace, d.registered = false := by
  cases step_cases hs with
  | @closed e context contexts each fs hst he =>
    have herased : e ∉ w.nodes.filter (·.key != e.key) := by simp
    cases contexts with
    | cons c cs =>
      refine ⟨_, .send .accepted, _, rfl, if_neg herased, ⟨e, false⟩, ?_, rfl⟩
      exact List.mem_append_right _ List.mem_cons_self
    | nil =>
      cases each with
      | some each =>
        refine ⟨_, .next, _, rfl, if_neg herased, ⟨e, false⟩, ?_, rfl⟩
        exact List.mem_append_right _ List.mem_cons_self
      | none => exact absurd (by simp [ClosesLast, hst]) hg
  | erased hst he =>
    obtain ⟨m, k, start, pre, post, did, rest, _, _, hr, _⟩ :=
      hc.running hst (.inl (List.cons_ne_nil _ _))
    exact absurd hr.mem.1 he
  | _ => exact absurd trivial hg

theorem consistent (h : senders.Run ClosesLast w) : w.Consistent :=
  h.invariant .init fun _ _ _ hg hi hs => Consistent.step hi hg hs

/-- **Sending is safe against closes** as long as a write closes its session at once only where its
function uses no iterator after it: as the last write of `PrepareSend` or of `Send`. Where one
does so earlier, an iterator to an erased entry is used as soon as the listeners have returned. -/
theorem pairs_safe {w : Senders} (h : senders.Run ClosesLast w) :
    w.Safe ∧ ∀ (w' : Senders) (l : SendersLabel), w.step l = some w' → ¬ w.ClosesLast l →
      ∃ w₁ l' w₂, w'.step .next = some w₁ ∧ w₁.step l' = some w₂ ∧ ¬ w₂.Safe := by
  have hc := consistent h
  refine ⟨hc.safe, ?_⟩
  intro w' l hs hg
  obtain ⟨w₁, l', w₂, h₁, h₂, d, hd, hno⟩ := hc.misused hs hg
  refine ⟨w₁, l', w₂, h₁, h₂, fun hsafe => ?_⟩
  rw [hsafe.derefs d hd] at hno
  cases hno

/-- A message to all nodes of type 3. -/
def toAll : Outgoing := ⟨3, none, 7, [1, 2]⟩

/-- Two nodes are open and a broadcast has begun. -/
def beginning : List SendersLabel :=
  [.opened ⟨3, 1, 0⟩ [⟨3, 1, 0⟩], .next, .opened ⟨3, 2, 1⟩ [⟨3, 1, 0⟩, ⟨3, 2, 1⟩], .next,
    .start toAll, .next]

/-- The second node has no room for the body; or the first closes on its header. -/
theorem pairs_safe_overfull :
    (∃ w : Senders, 1 ∈ w.closing ∧ w.streams 0 = toAll.head ++ [toAll.body]) ∧
    ∃ w : Senders, ¬ w.Safe := by
  constructor
  · obtain ⟨w, hw, hp⟩ := System.run_of_exec (M := senders) (P := ClosesLast)
      (beginning ++ [.send .accepted, .send .accepted, .next, .send .accepted, .send .accepted,
        .next, .next, .send .accepted, .next, .send .refused, .next])
      (p := fun w => w.stack == [.pair toAll 2 [(⟨3, 1, 0⟩, []), (⟨3, 2, 1⟩, [])]] &&
        w.closing == [1] && w.nodes == [⟨3, 1, 0⟩, ⟨3, 2, 1⟩]) (by decide)
    simp only [Bool.and_eq_true, beq_iff_eq] at hp
    obtain ⟨⟨hst, hclosing⟩, hnodes⟩ := hp
    have hsafe := (pairs_safe hw).1.whole toAll _ [] hst ⟨3, 1, 0⟩ (by simp [hnodes]) rfl
      (by simp [hclosing])
    exact ⟨w, by simp [hclosing], hsafe.2 [] (by simp)⟩
  · obtain ⟨w, hw, hp⟩ := System.run_of_exec (M := senders) (P := ClosesLast) beginning
      (p := fun w => (w.step (.send .closed)).isSome && !decide (w.ClosesLast (.send .closed)))
      (by decide)
    simp only [Bool.and_eq_true, Bool.not_eq_true', decide_eq_false_iff_not] at hp
    obtain ⟨w', hs⟩ := Option.isSome_iff_exists.mp hp.1
    obtain ⟨_, _, w₂, _, _, hunsafe⟩ := (pairs_safe hw).2 w' (.send .closed) hs hp.2
    exact ⟨w₂, hunsafe⟩

/-- The header that `PrepareSend` writes closes the session at once: the entry is erased, and the id
is written through it. -/
theorem erased_entry_used : ¬ ∀ w, senders.Reachable w → w.Safe := by
  intro h
  obtain ⟨w, hw, hp⟩ := System.run_of_exec (M := senders) (P := fun _ _ => True)
    [.opened ⟨3, 1, 0⟩ [⟨3, 1, 0⟩], .next, .start ⟨3, some 1, 7, [1, 2]⟩, .next,
      .send .closed, .next, .send .accepted]
    (p := fun w => w.trace.contains ⟨⟨3, 1, 0⟩, false⟩) (by decide)
  have := (h w hw).derefs _ (List.contains_iff_mem.mp hp)
  cases this

end Senders

/-! ## What a connection answers -/

section
open HyperNet.Net
variable {cfg : Config} {context : List UInt8} {w w' : World cfg}

/-- What `Connection::Send` has done, by its buffer, its machines and the call of `OnClose`. -/
inductive Answers (context : List UInt8) (w w' : World cfg) : Answer → Prop
  | accepted (hroom : w.send.used.exceeds context.length = false) (hst : w'.stack = w.stack) :
      Answers context w w' .accepted
  | refused (hroom : w.send.used.exceeds context.length = true) (hst : w'.stack = w.stack)
      (hs : w'.send.state.closing = true) (hr : w'.recv.state.closing = true) :
      Answers context w w' .refused
  | closed (hst : w'.stack = .onDisconnected :: w.stack) : Answers context w w' .closed

/-- An event that a call raises ends with `OnClose` or without. -/
theorem stack_onEvent {e : NetEventType} (he : w.onEvent e = some w') (hne : e ≠ .recvDone) :
    w'.stack = w.stack ∨ w'.stack = .onDisconnected :: w.stack := by
  have release : ∀ u : World cfg, u.stack = w.stack →
      u.releaseCheck.stack = w.stack ∨ u.releaseCheck.stack = .onDisconnected :: w.stack := by
    intro u hu
    unfold World.releaseCheck
    split
    · exact .inr (congrArg _ hu)
    · exact .inl hu
  obtain ⟨posted, s, _, hr⟩ := World.onEvent_cases he
  cases hr with
  | stay | change | beginRecv => exact release _ rfl
  | processPacket ha => exact absurd (RecvState.processPacket_cases ha).1 hne

/-- Each of the three answers is one of the connection's. -/
theorem answers_of_send (h : w.step (.send context) = some w') (hp : w.pipe = true) :
    ∃ a, Answers context w w' a := by
  cases World.step_cases h with
  | detached hd => rw [hp] at hd; cases hd
  | event hr he =>
    cases hr with
    | send _ hx _ =>
      rcases stack_onEvent he nofun with hst | hst
      · exact ⟨_, .accepted hx hst⟩
      · exact ⟨_, .closed hst⟩
    | overflow _ hx =>
      rcases stack_onEvent he nofun with hst | hst
      · obtain ⟨posted, s, hh, hrecv⟩ := World.onEvent_cases he
        obtain ⟨t, ht, rfl⟩ := hrecv.closing (Bool.or_true _)
        refine ⟨_, .refused hx hst ?_ ?_⟩
        · rw [World.releaseCheck_send]
          exact hh.closing nofun (Bool.or_true _)
        · rw [World.releaseCheck_recv]
          exact ht
      · exact ⟨_, .closed hst⟩

end

end HyperNet.Logic
