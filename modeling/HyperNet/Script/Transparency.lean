import HyperNet.Logic.Malformed
import HyperNet.Logic.RoundTrip
import HyperNet.ScriptEngine.Depths
import HyperNet.ScriptEngine.RoundTrip
import Mathlib.Data.List.GetD
import Mathlib.Data.List.TakeWhile

/-! # The arguments and the results of a call (core/harbor.lua, core/co.lua)

`call` and `fork` keep the arguments in a table, and unpack as many of them as `#` says the
table has: any border of it. What `ret` is given comes to the caller without such a table. The
two messages are serialized, and carried in frames. -/
namespace HyperNet.Script
open HyperNet.Public HyperNet.Logic HyperNet.Core.Framing HyperNet.ScriptEngine
open HyperNet.Net (RecvSide)

/-! ## The length of a table -/

/-- `n` is a border of a table that has these values from 1 on, and nothing else. -/
def IsBorder (xs : List LuaValue) (n : Nat) : Prop :=
  (n = 0 ∨ xs.getD (n - 1) .nil ≠ .nil) ∧ xs.getD n .nil = .nil

/-- The operator `#` on such tables. -/
structure Length where
  border : List LuaValue → Nat
  isBorder : ∀ xs, IsBorder xs (border xs)

namespace Length

/-- `unpack({...})` -/
def repack (len : Length) (xs : List LuaValue) : List LuaValue := xs.take (len.border xs)

/-- Without a nil there is one border only. -/
theorem repack_of_not_mem (len : Length) {xs : List LuaValue} (h : .nil ∉ xs) :
    len.repack xs = xs := by
  refine List.take_of_length_le (Nat.le_of_not_lt fun hlt => h ?_)
  have hnil := (len.isBorder xs).2
  rw [List.getD_eq_getElem _ _ hlt] at hnil
  exact hnil ▸ List.getElem_mem hlt

/-- The first border, which a binary search may find as well. -/
def first : Length where
  border xs := (xs.takeWhile (· ≠ .nil)).length
  isBorder xs := by
    induction xs with
    | nil => exact ⟨Or.inl rfl, rfl⟩
    | cons x xs ih =>
      by_cases hx : x = .nil
      · rw [List.takeWhile_cons_of_neg (by simpa using hx)]
        exact ⟨Or.inl rfl, hx⟩
      · rw [List.takeWhile_cons_of_pos (by simpa using hx), List.length_cons]
        refine ⟨Or.inr ?_, ih.2⟩
        cases ih.1 with
        | inl hzero => rw [hzero]; exact hx
        | inr hprev =>
          cases hlen : (xs.takeWhile (· ≠ .nil)).length with
          | zero => exact hx
          | succ n => rw [hlen] at hprev; exact hprev

/-- There a nil ends what is unpacked. -/
theorem not_mem_of_length_le {xs : List LuaValue} (h : xs.length ≤ (first.repack xs).length) :
    .nil ∉ xs := by
  intro hmem
  have hlen : xs.length ≤ (xs.takeWhile (· ≠ .nil)).length :=
    Nat.le_trans h (List.length_take_le _ _)
  have hall : xs.takeWhile (· ≠ .nil) = xs :=
    (List.takeWhile_prefix _).eq_of_length_le hlen
  exact absurd rfl (of_decide_eq_true (List.takeWhile_eq_self_iff.mp hall .nil hmem))

theorem length_repack_le (len : Length) (xs : List LuaValue) :
    (len.repack xs).length ≤ xs.length := by
  rw [repack, List.length_take]
  exact Nat.min_le_right _ _

end Length

/-! ## The four ends of a call -/

section
variable {F : Type}

/-- `string.serialize` in a Lua state, on fresh memory. -/
def serialize (memory : List UInt8) (vs : List LuaValue) (m : Machine) :
    EStateM.Result Failure Machine (List LuaValue) :=
  results (lSerialize memory) ⟨.call vs m.L.heap, m.s⟩

/-- `string.unserialize` -/
def unserialize (bytes : List UInt8) (m : Machine) :
    EStateM.Result Failure Machine (List LuaValue) :=
  results (lUnserialize bytes) ⟨.call [.string bytes] m.L.heap, m.s⟩

/-- Values that fit are serialized, and no slot is missing exactly if no table is too deep. -/
theorem serialize_items {memory : List UInt8} {vs : List LuaValue} {items : List Item} {m : Machine}
    (hitems : List.Forall₂ (fun v (item : Item) => item.Encodes (lookup m.L.heap) v) vs items)
    (hsize : (items.flatMap Item.bytes).length ≤ buffSize) (hmemory : memory.length = buffSize) :
    ∃ m', serialize memory vs m = .ok [.string (items.flatMap Item.bytes)] m' ∧
      (m'.L.exceeded = false ↔ Shallow items) := by
  obtain ⟨m', hm', _⟩ := lSerialize_items hitems hsize hmemory m.s
  have hslots := lSerialize_shallow hitems hsize hmemory m.s
  rw [hm'] at hslots
  exact ⟨m', hm', hslots⟩

/-- They are unserialized, and no slot is missing exactly if these are enough. -/
theorem unserialize_items {g : Heap} {vs : List LuaValue} {items : List Item}
    (hitems : List.Forall₂ (fun v (item : Item) => item.Encodes g v) vs items)
    (hsize : (items.flatMap Item.bytes).length ≤ buffSize) (there : Machine) :
    ∃ m vs', unserialize (items.flatMap Item.bytes) there = .ok vs' m ∧
      (m.L.exceeded = false ↔ Fit items) ∧ Keeps there.L.heap m.L.heap ∧
      List.Forall₂ (Same g (lookup m.L.heap)) vs vs' := by
  have hbound : buffSize + 8 < s32Bound := by decide
  obtain ⟨m, vs', hm, hkeeps, hsame⟩ := lUnserialize_encodes hitems hsize
    ⟨.call [.string (items.flatMap Item.bytes)] there.L.heap, there.s⟩
  have hslots := lUnserialize_fit (wellFormed_of_encodes hitems (by omega)) (by omega)
    there.L.heap there.s
  rw [hm] at hslots
  exact ⟨m, vs', hm, hslots, hkeeps, hsame⟩

/-- `call` with `wait`: what `harbor.call` is given to send. -/
def call (len : Length) (memory : List UInt8) (seq : BitVec 64) (func : LuaValue)
    (args : List LuaValue) (m : Machine) : EStateM.Result Failure Machine (List LuaValue) :=
  serialize memory (.integer seq :: func :: len.repack args) m

/-- `rpc` and its `fork`: the number of the call, and a function with what it is run with. -/
def rpc (len : Length) (proto : LuaValue → Option F) :
    List LuaValue → Option (LuaValue × F × List LuaValue)
  | seq :: func :: args =>
    if seq = .nil ∨ func = .nil then none
    else (proto func).map fun f => (seq, f, len.repack args)
  | _ => none

/-- `onCall` -/
def onCall (len : Length) (proto : LuaValue → Option F) (message : List UInt8) (m : Machine) :
    Option ((LuaValue × F × List LuaValue) × Machine) :=
  match unserialize message m with
  | .ok vs m => (rpc len proto vs).map fun run => (run, m)
  | .error _ _ => none

/-- `ret`, in a call with this number: what `harbor.respone` is given to send. -/
def ret (memory : List UInt8) (seq : LuaValue) (rets : List LuaValue) (m : Machine) :
    EStateM.Result Failure Machine (List LuaValue) :=
  serialize memory (seq :: .boolean true :: rets) m

/-- `callback` on what `wait` returns. -/
def callback : List LuaValue → Option (List LuaValue)
  | [] => none
  | succ :: rets => if succ = .nil ∨ succ = .boolean false then none else some rets

/-- `onRespone`: the number of the call that goes on, and what `call` returns there. -/
def onRespone (message : List UInt8) (m : Machine) :
    Option ((LuaValue × List LuaValue) × Machine) :=
  match unserialize message m with
  | .ok (seq :: payload) m => (callback payload).map fun rets => ((seq, rets), m)
  | _ => none

/-! ## The way there and the way back -/

/-- `node_proto::RPC` and `node_proto::RESPONE` -/
def RPC : Int32 := 3
def RESPONE : Int32 := 4

/-- These bytes, sent as a message between others, reach the handler for the message. -/
def Carried (messageId : Int32) (bytes : List UInt8) : Prop :=
  ∀ {σ : Type} [DecidableEq σ] {nodes : Nodes σ} {nodeType nodeId : Int32} {s : σ}
    (self : NodeReport) (before after : List Logic.Message) {recvSize : Nat}
    {reads : List (List UInt8)},
    nodes nodeType nodeId = some s →
    (∀ m ∈ before ++ after, m.payload.length + 12 < s32Bound) → recvSize < s32Bound →
    IsCut recvSize (NodeSession.onConnected self ++ written s ((before ++
      ⟨messageId, [bytes]⟩ :: after).flatMap (Logic.Message.writes nodes nodeType nodeId))) reads →
    RecvSide.HasRoom Harbor.packetParser (.start recvSize) reads →
    received registered recvSize reads
      (arrivals registered self (before ++ ⟨messageId, [bytes]⟩ :: after))

theorem carried {messageId : Int32} {bytes : List UInt8} (h : bytes.length ≤ buffSize) :
    Carried messageId bytes := by
  intro σ _ nodes nodeType nodeId s self before after recvSize reads hs hothers hn hcut hroom
  have hbound : buffSize + 12 < s32Bound := by decide
  have hm : ∀ m ∈ before ++ ⟨messageId, [bytes]⟩ :: after, m.payload.length + 12 < s32Bound := by
    intro m hmem
    cases List.mem_append.mp hmem with
    | inl hbefore => exact hothers m (List.mem_append_left _ hbefore)
    | inr hrest =>
      cases List.mem_cons.mp hrest with
      | inl heq =>
        rw [heq, Logic.Message.payload, List.flatten_singleton]
        omega
      | inr hafter => exact hothers m (List.mem_append_right _ hafter)
  rw [written_messages hs hm] at hcut
  exact received_frames self hm registered hn hcut hroom

/-- The function that is registered runs with the arguments, whatever the borders are, and neither
side pushes a value on a slot of its stack that was not ensured. -/
def ArgumentsKept (proto : LuaValue → Option F) (memory : List UInt8) (seq : BitVec 64)
    (name : List UInt8) (f : F) (args : List LuaValue) (caller callee : Machine) : Prop :=
  ∀ here there : Length, ∃ bytes m args' m',
    Returns (call here memory seq (.string name) args caller) [.string bytes] m ∧
    Carried RPC bytes ∧
    onCall there proto bytes callee = some ((.integer seq, f, args'), m') ∧
    m'.L.exceeded = false ∧
    List.Forall₂ (Same (lookup caller.L.heap) (lookup m'.L.heap)) args args'

/-- `call` returns what `ret` is given, in the same way. -/
def ResultsKept (memory : List UInt8) (seq : BitVec 64) (rets : List LuaValue)
    (callee caller : Machine) : Prop :=
  ∃ bytes m rets' m', Returns (ret memory (.integer seq) rets callee) [.string bytes] m ∧
    Carried RESPONE bytes ∧ onRespone bytes caller = some ((.integer seq, rets'), m') ∧
    m'.L.exceeded = false ∧
    List.Forall₂ (Same (lookup callee.L.heap) (lookup m'.L.heap)) rets rets'

variable {proto : LuaValue → Option F} {memory : List UInt8} {seq : BitVec 64}
  {name : List UInt8} {f : F} {args rets : List LuaValue} {caller callee : Machine}

theorem not_mem_of_same {g g' : Heap} {vs vs' : List LuaValue}
    (h : List.Forall₂ (Same g g') vs vs') (hnil : .nil ∉ vs) : .nil ∉ vs' := by
  induction h with
  | nil => exact hnil
  | cons hv _ ih =>
    rw [List.mem_cons, not_or] at hnil ⊢
    exact ⟨Ne.symm (hv.ne_nil (Ne.symm hnil.1)), ih hnil.2⟩

/-- Whether there is a nil or not, the results come back as they are, if the slots are enough. -/
theorem results_kept_iff {items : List Item}
    (hitems : List.Forall₂ (fun v (item : Item) => item.Encodes (lookup callee.L.heap) v)
      (.integer seq :: .boolean true :: rets) items)
    (hsize : (items.flatMap Item.bytes).length ≤ buffSize) (hmemory : memory.length = buffSize) :
    ResultsKept memory seq rets callee caller ↔ Shallow items ∧ Fit items := by
  obtain ⟨m, hm, hshallow⟩ := serialize_items hitems hsize hmemory
  obtain ⟨m', vs', hm', hfit, _, hsame⟩ := unserialize_items hitems hsize caller
  cases hsame with
  | cons hseq hrest =>
    cases hrest with
    | @cons _ _ _ rets' hsucc hrets =>
      have hs := hseq.eq_of_scalar (by simp)
      have ht := hsucc.eq_of_scalar (by simp)
      rw [hs, ht] at hm'
      have hrespone : onRespone (items.flatMap Item.bytes) caller =
          some ((.integer seq, rets'), m') := by
        rw [onRespone, hm']
        rfl
      rw [← hshallow, ← hfit]
      constructor
      · intro h
        obtain ⟨bytes, m₁, _, m₂, hret, _, hrespone', hslots, _⟩ := h
        obtain ⟨hret, hslots₁⟩ := hret
        rw [ret, hm] at hret hslots₁
        cases hret
        rw [hrespone] at hrespone'
        cases hrespone'
        exact ⟨hslots₁, hslots⟩
      · intro h
        refine ⟨_, m, _, m', ⟨hm, ?_⟩, carried hsize, hrespone, h.2, hrets⟩
        rw [ret, hm]
        exact h.1

theorem arguments_kept_iff (hproto : proto (.string name) = some f) {items : List Item}
    (hitems : List.Forall₂ (fun v (item : Item) => item.Encodes (lookup caller.L.heap) v)
      (.integer seq :: .string name :: args) items)
    (hsize : (items.flatMap Item.bytes).length ≤ buffSize) (hmemory : memory.length = buffSize)
    (hnil : .nil ∉ args) :
    ArgumentsKept proto memory seq name f args caller callee ↔ Shallow items ∧ Fit items := by
  obtain ⟨m, hm, hshallow⟩ := serialize_items hitems hsize hmemory
  obtain ⟨m', vs', hm', hfit, _, hsame⟩ := unserialize_items hitems hsize callee
  have hcall : ∀ here : Length, call here memory seq (.string name) args caller =
      .ok [.string (items.flatMap Item.bytes)] m := by
    intro here
    rw [call, here.repack_of_not_mem hnil]
    exact hm
  cases hsame with
  | cons hseq hrest =>
    cases hrest with
    | @cons _ _ _ args' hname hargs =>
      have hs := hseq.eq_of_scalar (by simp)
      have hn := hname.eq_of_scalar (by simp)
      rw [hs, hn] at hm'
      -- What the callee is given has a nil only where the arguments have one.
      have hnil' : .nil ∉ args' := not_mem_of_same hargs hnil
      have honCall : ∀ there : Length, onCall there proto (items.flatMap Item.bytes) callee =
          some ((.integer seq, f, args'), m') := by
        intro there
        rw [onCall, hm']
        simp [rpc, hproto, there.repack_of_not_mem hnil']
      rw [← hshallow, ← hfit]
      constructor
      · intro h
        obtain ⟨bytes, m₁, _, m₂, ⟨hbytes, hslots₁⟩, _, hrun, hslots, _⟩ := h .first .first
        rw [hcall] at hbytes hslots₁
        cases hbytes
        rw [honCall] at hrun
        cases hrun
        exact ⟨hslots₁, hslots⟩
      · intro h here there
        refine ⟨_, m, args', m', ⟨hcall here, ?_⟩, carried hsize, honCall there, h.2, hargs⟩
        rw [hcall]
        exact h.1

/-- What has been taken from a table at its first border never gets longer again. -/
theorem ArgumentsKept.not_mem (h : ArgumentsKept proto memory seq name f args caller callee)
    {items : List Item}
    (hitems : List.Forall₂ (fun v (item : Item) => item.Encodes (lookup caller.L.heap) v)
      (.integer seq :: .string name :: args) items)
    (hsize : (items.flatMap Item.bytes).length ≤ buffSize) (hmemory : memory.length = buffSize) :
    .nil ∉ args := by
  obtain ⟨bytes, m, args', m', ⟨hcall, _⟩, _, honCall, _, hargs⟩ := h .first .first
  -- The encoding of what `call` has unpacked is the beginning of the one of all the arguments.
  have hprefix := List.forall₂_take (2 + Length.first.border args) hitems
  rw [Nat.add_comm 2, List.take_succ_cons, List.take_succ_cons] at hprefix
  have hfits : ((items.take (Length.first.border args + 2)).flatMap Item.bytes).length ≤
      buffSize := by
    have hsplit := congrArg (fun l : List Item => (l.flatMap Item.bytes).length)
      (List.take_append_drop (Length.first.border args + 2) items)
    simp only [List.flatMap_append, List.length_append] at hsplit
    omega
  obtain ⟨m₁, hm₁, _⟩ := serialize_items hprefix hfits hmemory
  obtain ⟨m₂, vs', hm₂, _, _, hsame⟩ := unserialize_items hprefix hfits callee
  have hbytes := hcall.symm.trans hm₁
  cases hbytes
  cases hsame with
  | cons hseq hrest =>
    cases hrest with
    | @cons _ _ _ rest hname hrest =>
      have hn := hname.eq_of_scalar (by simp)
      have hs := hseq.eq_of_scalar (by simp)
      rw [onCall, hm₂, hn, hs] at honCall
      obtain ⟨run, hrun, heq⟩ := Option.map_eq_some_iff.mp honCall
      simp only [rpc, reduceCtorEq, or_self, if_false] at hrun
      obtain ⟨_, _, rfl⟩ := Option.map_eq_some_iff.mp hrun
      have hargs' : Length.first.repack rest = args' := congrArg (·.1.2.2) heq
      refine Length.not_mem_of_length_le ?_
      calc args.length = (Length.first.repack rest).length := by rw [hargs', hargs.length_eq]
        _ ≤ rest.length := Length.length_repack_le _ _
        _ = (Length.first.repack args).length := hrest.length_eq.symm

/-- **Transparency of calls.** A call and its answer, whose encodings fit into the buffer: the
function registered under the name is run with the arguments, and the call returns what `ret`
is given, for all that `#` may return, and each value is pushed on a slot that is ensured, exactly
if no argument is nil, no table in an argument or a result stands in ten others, and the slots are
enough to unserialize the arguments and the results. -/
theorem call_transparent (hproto : proto (.string name) = some f) {memory' : List UInt8}
    {callee' caller' : Machine} {items items' : List Item}
    (hargs : List.Forall₂ (fun v (item : Item) => item.Encodes (lookup caller.L.heap) v)
      (.integer seq :: .string name :: args) items)
    (hsize : (items.flatMap Item.bytes).length ≤ buffSize) (hmemory : memory.length = buffSize)
    (hrets : List.Forall₂ (fun v (item : Item) => item.Encodes (lookup callee'.L.heap) v)
      (.integer seq :: .boolean true :: rets) items')
    (hsize' : (items'.flatMap Item.bytes).length ≤ buffSize)
    (hmemory' : memory'.length = buffSize) :
    ArgumentsKept proto memory seq name f args caller callee ∧
      ResultsKept memory' seq rets callee' caller' ↔
        .nil ∉ args ∧ (Shallow items ∧ Fit items) ∧ (Shallow items' ∧ Fit items') := by
  rw [results_kept_iff hrets hsize' hmemory']
  constructor
  · intro h
    have hnil := h.1.not_mem hargs hsize hmemory
    exact ⟨hnil, (arguments_kept_iff hproto hargs hsize hmemory hnil).mp h.1, h.2⟩
  · intro h
    exact ⟨(arguments_kept_iff hproto hargs hsize hmemory h.1).mpr h.2.1, h.2.2⟩

end

/-- A Lua state without tables. -/
def freshMachine : Machine := ⟨.call [] [], .alloc []⟩

/-- `call(..., true, true, {"h"})`, answered by `ret(nil)`. -/
theorem call_transparent_nil :
    ArgumentsKept (fun _ => some ()) (List.replicate buffSize 0) 2 [102] ()
        [.boolean true, .table 0]
        ⟨.call [] [Table.empty.set ⟨.integer 1, trivial⟩ (.string [104])], .alloc []⟩
        freshMachine ∧
      ResultsKept (List.replicate buffSize 0) 2 [.nil] freshMachine freshMachine := by
  have hargs : List.Forall₂ (fun v (item : Item) => item.Encodes
      (lookup [Table.empty.set ⟨.integer 1, trivial⟩ (.string [104])]) v)
      [.integer 2, .string [102], .boolean true, .table 0]
      [.integer 2, .string [102], .boolean 1, .table (.cons (.integer 1) (.string [104]) .nil)] :=
    .cons rfl (.cons rfl (.cons ⟨true, rfl, rfl⟩
      (.cons ⟨0, _, rfl, rfl, _, _, _, rfl, rfl, rfl, rfl⟩ .nil)))
  have hrets : List.Forall₂ (fun v (item : Item) => item.Encodes (lookup []) v)
      [.integer 2, .boolean true, .nil] [.integer 2, .boolean 1, .nil] :=
    .cons rfl (.cons ⟨true, rfl, rfl⟩ (.cons rfl .nil))
  exact (call_transparent (f := ()) rfl hargs (by decide) List.length_replicate hrets (by decide)
    List.length_replicate).mpr ⟨by decide, by decide, by decide⟩

/-- `call(..., true, 1, nil)`: the function is not run with the nil. -/
theorem trailing_nil_lost :
    ¬(ArgumentsKept (fun _ => some ()) (List.replicate buffSize 0) 2 [102] () [.integer 1, .nil]
        freshMachine freshMachine ∧
      ResultsKept (List.replicate buffSize 0) 2 [] freshMachine freshMachine) := by
  have hargs : List.Forall₂ (fun v (item : Item) => item.Encodes (lookup []) v)
      [.integer 2, .string [102], .integer 1, .nil] [.integer 2, .string [102], .integer 1, .nil] :=
    .cons rfl (.cons rfl (.cons rfl (.cons rfl .nil)))
  intro h
  refine h.1.not_mem hargs (by decide) List.length_replicate ?_
  exact List.mem_cons_of_mem _ List.mem_cons_self

end HyperNet.Script
