import HyperNet.Logic.NodeSession

/-! # What Harbor sends to a node (Harbor.cpp)

`PrepareSend` and `Send` look the node up each time and write to its session. -/
namespace HyperNet.Logic
open HyperNet.Public

/-- `_nodes`, by type and id. -/
abbrev Nodes (σ : Type) := Int32 → Int32 → Option σ

namespace Harbor
variable {σ : Type}

/-- `Harbor::PrepareSend`: its result, and what is written to which session. -/
def prepareSend (nodes : Nodes σ) (nodeType nodeId messageId : Int32) (size : Int) :
    Bool × List (σ × List UInt8) :=
  match nodes nodeType nodeId with
  | some s => (true, [(s, NodeSession.prepareSendNodeMessage (s32 (size + 4))),
      (s, s32Bytes messageId.toInt)])
  | none => (false, [])

/-- `Harbor::Send`. -/
def send (nodes : Nodes σ) (nodeType nodeId : Int32) (context : List UInt8) :
    Bool × List (σ × List UInt8) :=
  match nodes nodeType nodeId with
  | some s => (true, [(s, context)])
  | none => (false, [])

/-- `_nodes` as the loops over a type go through it: sessions by id, none of them twice. -/
structure Table (σ : Type) where
  entries : Int32 → List (Int32 × σ)
  nodup : ∀ nodeType, ((entries nodeType).map Prod.snd).Nodup

/-- The session of a node. -/
def Table.nodes (t : Table σ) : Nodes σ := fun nodeType nodeId =>
  (t.entries nodeType).lookup nodeId

/-- `Harbor::PrepareBrocast`. -/
def prepareBrocast (t : Table σ) (nodeType messageId : Int32) (size : Int) :
    List (σ × List UInt8) :=
  (t.entries nodeType).flatMap fun entry =>
    [(entry.2, NodeSession.prepareSendNodeMessage (s32 (size + 4))),
      (entry.2, s32Bytes messageId.toInt)]

/-- `Harbor::Brocast`. -/
def brocast (t : Table σ) (nodeType : Int32) (context : List UInt8) : List (σ × List UInt8) :=
  (t.entries nodeType).map fun entry => (entry.2, context)

end Harbor

/-- A message and the pieces its payload is sent in. -/
structure Message where
  id : Int32
  pieces : List (List UInt8)
  deriving DecidableEq

namespace Message
variable {σ : Type}

def payload (m : Message) : List UInt8 := m.pieces.flatten

/-- `PrepareSend` and the `Send`s of a message. -/
def writes (nodes : Nodes σ) (nodeType nodeId : Int32) (m : Message) : List (σ × List UInt8) :=
  (Harbor.prepareSend nodes nodeType nodeId m.id m.payload.length).2 ++
    m.pieces.flatMap fun context => (Harbor.send nodes nodeType nodeId context).2

/-- The bytes of a message on the wire. -/
def frame (m : Message) : List UInt8 :=
  HarborHeader.bytes MESSAGE ((m.payload.length + 12 : Nat) : Int) ++ s32Bytes m.id.toInt ++
    m.payload

theorem length_frame (m : Message) : m.frame.length = m.payload.length + 12 := by
  simp [frame, HarborHeader.bytes]
  omega

end Message

/-- What has been written to a session, in order. -/
def written {σ : Type} [DecidableEq σ] (s : σ) (writes : List (σ × List UInt8)) : List UInt8 :=
  (writes.filter fun w => w.1 = s).flatMap Prod.snd

section
variable {σ : Type} [DecidableEq σ]

theorem written_append (s : σ) (ws ws' : List (σ × List UInt8)) :
    written s (ws ++ ws') = written s ws ++ written s ws' := by
  simp [written]

/-- The session of the node is written the frame of the message. -/
theorem Message.written {nodes : Nodes σ} {nodeType nodeId : Int32} {s : σ}
    (hs : nodes nodeType nodeId = some s) {m : Message}
    (hm : m.payload.length + 12 < s32Bound) : Logic.written s (m.writes nodes nodeType nodeId) =
      m.frame := by
  have hpieces : Logic.written s (m.pieces.flatMap fun context =>
      (Harbor.send nodes nodeType nodeId context).2) = m.payload := by
    simp only [Harbor.send, hs, payload]
    induction m.pieces with
    | nil => rfl
    | cons c cs ih =>
      rw [List.flatMap_cons, written_append, ih]
      simp [Logic.written]
  have hsize : s32 (s32 ((m.payload.length : Int) + 4) + HarborHeader.size) =
      ((m.payload.length + 12 : Nat) : Int) := by
    have h4 : s32 ((m.payload.length : Int) + 4) = ((m.payload.length + 4 : Nat) : Int) :=
      s32_of_lt (k := m.payload.length + 4) (by omega)
    rw [h4]
    exact s32_of_lt (k := m.payload.length + 4 + 8) (by omega)
  rw [writes, written_append, hpieces]
  simp [Harbor.prepareSend, hs, Logic.written, NodeSession.prepareSendNodeMessage, hsize, frame]

/-- A run of messages writes their frames. -/
theorem written_messages {nodes : Nodes σ} {nodeType nodeId : Int32} {s : σ}
    (hs : nodes nodeType nodeId = some s) {messages : List Message}
    (hm : ∀ m ∈ messages, m.payload.length + 12 < s32Bound) :
    written s (messages.flatMap (Message.writes nodes nodeType nodeId)) =
      (messages.map Message.frame).flatten := by
  induction messages with
  | nil => rfl
  | cons m ms ih =>
    rw [List.flatMap_cons, written_append, Message.written hs (hm m List.mem_cons_self),
      ih fun m' h => hm m' (List.mem_cons_of_mem m h)]
    rfl

end
end HyperNet.Logic
