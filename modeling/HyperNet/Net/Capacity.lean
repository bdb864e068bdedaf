import HyperNet.Net.Custody
import HyperNet.Net.Workers
import Mathlib.Algebra.BigOperators.Group.Finset.Piecewise
import Mathlib.Algebra.Order.BigOperators.Group.Finset

/-! # How many handlers and connections the engine has room for

`_events` is allocated for `support` entries, and each of the workers takes
`support / thread` connections. The engine itself counts neither before it accepts, listens or
dials: the room is there as long as its users leave it. -/
namespace HyperNet.Net
open HyperNet.Core.Transition

variable {σ : Type}

def INetHandler.isConnection (h : INetHandler σ) : Bool :=
  match h.kind with
  | .connection _ => true
  | .acceptor | .connector _ => false

namespace NetEngine

/-- The step adds a handler that replaces none. -/
def registers : EngineLabel σ → Bool
  | .accept _ _ | .listen (.made _) | .connect _ (.made _) => true
  | _ => false

/-- The number of the connection that the step makes, in `Acceptor::OnIn` or
`Connector::OnOut`. -/
def makes (w : NetEngine σ) : EngineLabel σ → Option Nat
  | .accept fd _ => some fd
  | .next =>
    w.lookups.head?.bind fun q => (w.getHandler q.fd).bind fun h =>
      match h.kind, q.flag with
      | .connector _, .epollout => some h.fd
      | _, _ => none
  | _ => none

/-- The number of the connection whose `OnClose` the step ends. -/
def closes (w : NetEngine σ) : EngineLabel σ → Option Nat
  | .ret =>
    match w.stack.head? with
    | some (.onDisconnected _ fd _) => some fd
    | _ => none
  | _ => none

def connections (w : NetEngine σ) : Nat := w.handlers.countP INetHandler.isConnection

end NetEngine

/-! ## The engine with its workers -/

/-- The engine, `_nowConnection` of its workers, and `_worker` of the connections, by the
numbers of their sockets. -/
structure Engine (σ : Type) where
  net : NetEngine σ
  nowConnection : Nat → Int
  worker : Nat → Nat
  /-- The assertion in `GetWorker` has failed. -/
  failed : Bool

namespace Engine

def init : Engine σ := ⟨.init, fun _ => 0, fun _ => 0, false⟩

/-- `GetFreeSlot` of the `k`-th worker. -/
def getFreeSlot (support thread : Nat) (e : Engine σ) (k : Nat) : Int :=
  (support / thread : Nat) - e.nowConnection k

def step [DecidableEq σ] (support thread : Nat) (e : Engine σ) (l : EngineLabel σ) :
    Option (Engine σ) :=
  if e.failed then none
  else (e.net.step l).map fun net =>
    match e.net.makes l with
    | some fd =>
      match getWorker thread (e.getFreeSlot support thread) with
      | some k => { e with
          net := net
          nowConnection := Function.update e.nowConnection k (e.nowConnection k + 1)
          worker := Function.update e.worker fd k }
      | none => { e with net := net, failed := true }
    | none =>
      match e.net.closes l with
      | some fd => { e with
          net := net
          nowConnection := Function.update e.nowConnection (e.worker fd)
            (e.nowConnection (e.worker fd) - 1) }
      | none => { e with net := net }

end Engine

/-- The engine with `thread` workers and `support` from its configuration. -/
def engine (σ : Type) [DecidableEq σ] (support thread : Nat) :
    System (Engine σ) (EngineLabel σ) :=
  ⟨.init, Engine.step support thread⟩

/-! ## What a step does to the handlers -/

namespace NetEngine
variable {w w' : NetEngine σ} {h : INetHandler σ} {fd : Nat} {l : EngineLabel σ}

/-- The table of handlers after a step, with what the workers are told. -/
inductive Changes (w : NetEngine σ) (l : EngineLabel σ) : List (INetHandler σ) → Prop
  | same (hr : registers l = false) (hm : w.makes l = none) (hc : w.closes l = none) :
      Changes w l w.handlers
  | enter {h : INetHandler σ} (hv : ∀ k ∈ w.handlers, k.fd ≠ h.fd) (hr : registers l = true)
      (hm : w.makes l = if h.isConnection then some h.fd else none) (hc : w.closes l = none) :
      Changes w l (h :: w.handlers)
  | replace {h h' : INetHandler σ} (hh : h ∈ w.handlers) (hn : h.isConnection = false)
      (hs : h'.isConnection = true) (hf : h'.fd = h.fd) (hr : registers l = false)
      (hm : w.makes l = some h.fd) : Changes w l (h' :: w.handlers.filter (·.fd != h.fd))
  | refuse {h : INetHandler σ} (hh : h ∈ w.handlers) (hn : h.isConnection = false)
      (hr : registers l = false) (hm : w.makes l = none) (hc : w.closes l = none) :
      Changes w l (w.handlers.filter (·.fd != h.fd))
  | leave {h : INetHandler σ} (hh : h ∈ w.handlers) (hs : h.isConnection = true)
      (hr : registers l = false) (hm : w.makes l = none) (hc : w.closes l = some h.fd) :
      Changes w l (w.handlers.filter (·.fd != h.fd))

theorem handlers_add (hv : ∀ k ∈ w.handlers, k.fd ≠ h.fd) :
    (w.add h).handlers = h :: w.handlers := by
  have hall : w.handlers.filter (·.fd != h.fd) = w.handlers := by
    rw [List.filter_eq_self]
    intro k hk
    simpa using hv k hk
  rw [NetEngine.add, hall]

/-- A new socket gets its handler. -/
theorem Consistent.handlers_enter (hc : w.Consistent) (hs : w.socket h.fd = some w')
    (epollin epollout : Bool) :
    (∀ k ∈ w.handlers, k.fd ≠ h.fd) ∧
      ((w'.add h).addEvents h epollin epollout).handlers = h :: w.handlers := by
  obtain ⟨_, hfree, _, hh⟩ := hc.socket hs
  have hv := hc.vacant hfree
  rw [(addEvents_keeps h epollin epollout _).2, handlers_add (hh ▸ hv), hh]
  exact ⟨hv, rfl⟩

/-- `Connect` and `Listen` differ in the handler they make. -/
theorem Consistent.changes_opening (hc : w.Consistent) {r : Opening} (kind : HandlerKind σ)
    (epollin epollout : Bool) (hl : ∀ fd, r = .made fd → registers l = true)
    (hn : (∀ fd, r ≠ .made fd) → registers l = false) (hm : w.makes l = none)
    (hcl : w.closes l = none) (hk : ∀ fd n, INetHandler.isConnection ⟨kind, fd, n⟩ = false)
    (hs : match r with
      | .noSocket => w' = w
      | .closed fd => (w.socket fd).map (NetEngine.close fd) = some w'
      | .made fd => (w.socket fd).map (fun v => (v.add ⟨kind, fd, w.opened⟩).addEvents
          ⟨kind, fd, w.opened⟩ epollin epollout) = some w') :
    w.Changes l w'.handlers := by
  cases r with
  | noSocket =>
    rw [show w' = w from hs]
    exact .same (hn nofun) hm hcl
  | closed fd =>
    obtain ⟨v, hv, rfl⟩ := Option.map_eq_some_iff.mp hs
    have hh : (v.close fd).handlers = w.handlers := (hc.socket hv).2.2.2
    rw [hh]
    exact .same (hn nofun) hm hcl
  | made fd =>
    obtain ⟨v, hv, rfl⟩ := Option.map_eq_some_iff.mp hs
    obtain ⟨hvac, hh⟩ := hc.handlers_enter (h := ⟨kind, fd, w.opened⟩) hv epollin epollout
    rw [hh]
    exact .enter hvac (hl fd rfl) (by rw [hm, hk]; rfl) hcl

/-- An event is handed to a handler. -/
theorem changes_handle {q : Lookup} {rest : List Lookup} (hl : w.lookups = q :: rest)
    (hg : w.getHandler q.fd = some h)
    (hh : handle h q.flag { w with lookups := rest, trace := w.trace ++ [⟨q, h⟩] } = some w') :
    w.Changes .next w'.handlers := by
  have hmem := List.mem_of_find?_eq_some hg
  have hmakes : w.makes .next = match h.kind, q.flag with
      | .connector _, .epollout => some h.fd
      | _, _ => none := by
    simp only [makes, hl, List.head?_cons, Option.bind_some, hg]
  obtain ⟨kind, fd, s⟩ := h
  cases kind with
  | acceptor =>
    cases hflag : q.flag <;> rw [hflag] at hmakes hh <;> cases hh <;> exact .same rfl hmakes rfl
  | connector session =>
    cases hflag : q.flag with
    | epollerr =>
      rw [hflag] at hmakes hh
      cases hh
      exact .refuse hmem rfl rfl hmakes rfl
    | epollout =>
      rw [hflag] at hmakes hh
      cases hh
      have hadd := handlers_add (w := (del ⟨.connector session, fd, s⟩ { w with
          lookups := rest, trace := w.trace ++ [⟨q, ⟨.connector session, fd, s⟩⟩] }).remove
            ⟨.connector session, fd, s⟩)
        (h := ⟨.connection session, fd, s⟩) vacant_remove
      rw [onOut, push, (addEvents_keeps _ true true _).2, hadd]
      exact .replace hmem rfl rfl rfl rfl hmakes
    | epollin =>
      rw [hflag] at hmakes hh
      cases hh
      exact .same rfl hmakes rfl
  | connection session =>
    cases hflag : q.flag <;> rw [hflag] at hmakes hh <;> cases hh <;> exact .same rfl hmakes rfl

theorem Consistent.changes (hc : w.Consistent) (hd : w.Does l w') : w.Changes l w'.handlers := by
  cases hd with
  | wait | outside | onClose => exact .same rfl rfl rfl
  | @miss q rest hst hl hg =>
    refine .same rfl ?_ rfl
    simp [makes, hl, hg]
  | hit hst hl hg hh => exact changes_handle hl hg hh
  | @accept fd session fs w' hst h =>
    obtain ⟨v, hv, rfl⟩ := Option.map_eq_some_iff.mp h
    obtain ⟨hvac, hh⟩ := hc.handlers_enter (h := ⟨.connection session, fd, w.opened⟩) hv
      true true
    refine (show _ = _ from hh) ▸ ?_
    exact .enter hvac rfl rfl rfl
  | eagain => exact .same rfl rfl rfl
  | @listen r w' h =>
    refine hc.changes_opening .acceptor true false (r := r) (by rintro _ rfl; rfl) ?_ rfl rfl
      (fun _ _ => rfl) ?_
    · intro hr
      cases r <;> first | rfl | exact absurd rfl (hr _)
    · cases r with
      | noSocket => cases h
      | closed | made => exact h
  | @connect session r w' h =>
    refine hc.changes_opening (.connector session) false true (r := r) (by rintro _ rfl; rfl) ?_
      rfl rfl (fun _ _ => rfl) ?_
    · intro hr
      cases r <;> first | rfl | exact absurd rfl (hr _)
    · cases r with
      | noSocket => cases h; rfl
      | closed | made => exact h
  | closed hst hg =>
    exact .leave (List.mem_of_find?_eq_some hg) rfl rfl rfl (by simp [closes, hst])
  | @ret f fs hst hf =>
    refine .same rfl rfl ?_
    simp only [closes, hst, List.head?_cons]
    split
    · next session fd s he => exact absurd (Option.some.inj he) (hf session fd s)
    · rfl

theorem length_without {hs : List (INetHandler σ)} (hd : (hs.map INetHandler.fd).Nodup)
    (hm : h ∈ hs) : (hs.filter (·.fd != h.fd)).length + 1 = hs.length := by
  have := countP_without (fun _ => true) hd hm
  simp only [List.countP_true] at this
  exact this.symm

/-- A handler more or less. -/
theorem Changes.length (hc : w.Consistent) {hs : List (INetHandler σ)} (h : w.Changes l hs) :
    (registers l = true → hs.length = w.handlers.length + 1) ∧
      (registers l = false → hs.length ≤ w.handlers.length) := by
  cases h with
  | same hr => exact ⟨by simp [hr], fun _ => Nat.le_refl _⟩
  | enter _ hr => exact ⟨fun _ => rfl, by simp [hr]⟩
  | replace hh _ _ _ hr =>
    have := length_without hc.distinct hh
    exact ⟨by simp [hr], fun _ => by simp only [List.length_cons]; omega⟩
  | refuse hh _ hr | leave hh _ hr =>
    have := length_without hc.distinct hh
    exact ⟨by simp [hr], fun _ => by omega⟩

end NetEngine

/-! ## The connections of a worker -/

/-- Each connection has one of the `n` workers, so the workers have all of them. -/
theorem sum_countP {α : Type} (p : α → Bool) (f : α → Nat) {n : Nat} {l : List α}
    (h : ∀ x ∈ l, p x = true → f x < n) :
    ∑ k ∈ Finset.range n, l.countP (fun x => p x && f x == k) = l.countP p := by
  induction l with
  | nil => simp
  | cons x l ih =>
    have hone : ∑ k ∈ Finset.range n, (if (p x && f x == k) = true then 1 else 0) =
        if p x = true then 1 else 0 := by
      cases hp : p x with
      | false => simp
      | true => simp [h x List.mem_cons_self hp]
    simp only [List.countP_cons, Finset.sum_add_distrib, hone,
      ih fun y hy => h y (List.mem_cons_of_mem x hy)]

namespace Engine
variable {e e' : Engine σ} {l : EngineLabel σ} {support thread : Nat}

/-- How many of the connections among the handlers have the `k`-th worker. -/
def servedBy (worker : Nat → Nat) (k : Nat) (hs : List (INetHandler σ)) : Nat :=
  hs.countP fun h => h.isConnection && worker h.fd == k

def served (e : Engine σ) (k : Nat) : Nat := servedBy e.worker k e.net.handlers

/-- A connection is added to a worker. -/
theorem servedBy_make {worker : Nat → Nat} {h : INetHandler σ} {hs : List (INetHandler σ)}
    (hv : ∀ x ∈ hs, x.fd ≠ h.fd) (hc : h.isConnection = true) (k j : Nat) :
    servedBy (Function.update worker h.fd k) j (h :: hs) =
      servedBy worker j hs + if k = j then 1 else 0 := by
  have hothers : hs.countP (fun x => x.isConnection &&
      Function.update worker h.fd k x.fd == j) = servedBy worker j hs := by
    refine List.countP_congr fun x hx => ?_
    rw [Function.update_of_ne (hv x hx)]
  rw [servedBy, List.countP_cons, hothers, hc, Function.update_self]
  simp

theorem servedBy_cons {worker : Nat → Nat} {h : INetHandler σ} {hs : List (INetHandler σ)}
    (hn : h.isConnection = false) (j : Nat) :
    servedBy worker j (h :: hs) = servedBy worker j hs := by
  simp [servedBy, hn]

/-- A handler goes. -/
theorem servedBy_without {worker : Nat → Nat} {h : INetHandler σ} {hs : List (INetHandler σ)}
    (hd : (hs.map INetHandler.fd).Nodup) (hm : h ∈ hs) (j : Nat) :
    servedBy worker j hs = servedBy worker j (hs.filter (·.fd != h.fd)) +
      (h.isConnection && worker h.fd == j).toNat :=
  NetEngine.countP_without _ hd hm

/-- What the workers count are the connections in the table, none has more than it was made
for. -/
structure Counted (support thread : Nat) (e : Engine σ) : Prop where
  net : e.net.Consistent
  now : ∀ k, e.nowConnection k = e.served k
  placed : ∀ h ∈ e.net.handlers, h.isConnection = true → e.worker h.fd < thread
  le : ∀ k, e.served k ≤ support / thread

namespace Counted

/-- A worker has a free slot exactly while there are fewer connections than slots. -/
theorem getWorker_isSome (h : e.Counted support thread) :
    (getWorker thread (e.getFreeSlot support thread)).isSome = true ↔
      e.net.connections < thread * (support / thread) := by
  have hsum : ∑ k ∈ Finset.range thread, e.served k = e.net.connections :=
    sum_countP _ _ h.placed
  have hcap : ∑ _k ∈ Finset.range thread, support / thread = thread * (support / thread) := by
    rw [Finset.sum_const_nat fun _ _ => rfl, Finset.card_range]
  have hle : ∀ k ∈ Finset.range thread, e.served k ≤ support / thread := fun k _ => h.le k
  have hfull : getWorker thread (e.getFreeSlot support thread) = none ↔
      ∀ k ∈ Finset.range thread, e.served k = support / thread := by
    rw [getWorker_eq_none]
    refine forall_congr' fun k => ?_
    have := h.le k
    rw [Finset.mem_range, getFreeSlot, h.now]
    exact imp_congr_right fun _ => by omega
  rw [← Finset.sum_eq_sum_iff_of_le hle, hsum, hcap] at hfull
  have htotal := Finset.sum_le_sum hle
  rw [hsum, hcap] at htotal
  rw [Option.isSome_iff_ne_none, ne_eq, hfull]
  omega

/-- A connection is made, of a new socket or of a connector's. -/
theorem make (h : e.Counted support thread) {net : NetEngine σ} (hnet : net.Consistent)
    {c : INetHandler σ} {hs : List (INetHandler σ)} (hh : net.handlers = c :: hs)
    (hc : c.isConnection = true) (hv : ∀ x ∈ hs, x ∈ e.net.handlers ∧ x.fd ≠ c.fd)
    (hserved : ∀ j, servedBy e.worker j hs = e.served j) {k : Nat}
    (hk : getWorker thread (e.getFreeSlot support thread) = some k) :
    Counted support thread { e with
      net := net
      nowConnection := Function.update e.nowConnection k (e.nowConnection k + 1)
      worker := Function.update e.worker c.fd k } := by
  obtain ⟨hlt, hfree⟩ := getWorker_mem hk
  rw [getFreeSlot, h.now] at hfree
  have hnew : ∀ j, servedBy (Function.update e.worker c.fd k) j net.handlers =
      e.served j + if k = j then 1 else 0 := by
    intro j
    rw [hh, servedBy_make (fun x hx => (hv x hx).2) hc, hserved]
  refine ⟨hnet, ?_, ?_, ?_⟩
  · intro j
    change Function.update e.nowConnection k (e.nowConnection k + 1) j = (servedBy _ j _ : Nat)
    rw [hnew, Function.update_apply, h.now]
    by_cases hj : j = k
    · simp [hj]
    · simp [hj, Ne.symm hj, h.now]
  · intro x hx hxc
    change Function.update e.worker c.fd k x.fd < thread
    rcases List.mem_cons.mp (hh ▸ hx) with rfl | hx
    · rwa [Function.update_self]
    · obtain ⟨hold, hne⟩ := hv x hx
      rw [Function.update_of_ne hne]
      exact h.placed x hold hxc
  · intro j
    change servedBy _ j _ ≤ _
    rw [hnew]
    have := h.le j
    split
    · next hj => subst hj; omega
    · exact this

/-- The table changes in other handlers than connections. -/
theorem keep (h : e.Counted support thread) {net : NetEngine σ} (hnet : net.Consistent)
    (hv : ∀ x ∈ net.handlers, x.isConnection = true → x ∈ e.net.handlers)
    (hserved : ∀ j, servedBy e.worker j net.handlers = e.served j) :
    Counted support thread { e with net := net } := by
  refine ⟨hnet, ?_, fun x hx hxc => h.placed x (hv x hx hxc) hxc, ?_⟩
  · exact fun j => (h.now j).trans (congrArg Nat.cast (hserved j).symm)
  · exact fun j => (hserved j).trans_le (h.le j)

/-- A connection has been closed. -/
theorem leave (h : e.Counted support thread) {net : NetEngine σ} (hnet : net.Consistent)
    {c : INetHandler σ} (hm : c ∈ e.net.handlers) (hc : c.isConnection = true)
    (hh : net.handlers = e.net.handlers.filter (·.fd != c.fd)) :
    Counted support thread { e with
      net := net
      nowConnection := Function.update e.nowConnection (e.worker c.fd)
        (e.nowConnection (e.worker c.fd) - 1) } := by
  have hold : ∀ j, e.served j =
      servedBy e.worker j net.handlers + if e.worker c.fd = j then 1 else 0 := by
    intro j
    rw [served, hh, servedBy_without h.net.distinct hm, hc, Bool.true_and]
    by_cases hj : e.worker c.fd = j <;> simp [hj]
  refine ⟨hnet, ?_, ?_, ?_⟩
  · intro j
    change Function.update e.nowConnection (e.worker c.fd) _ j = (servedBy _ j _ : Nat)
    rw [Function.update_apply]
    have hj := hold j
    split
    · next he =>
      rw [h.now, ← he, hj, if_pos he.symm]
      exact Int.add_sub_cancel (servedBy e.worker j net.handlers : Int) 1
    · next he =>
      rw [h.now, hj, if_neg (Ne.symm he)]
      rfl
  · intro x hx hxc
    exact h.placed x (List.mem_of_mem_filter (hh ▸ hx)) hxc
  · intro j
    have hle := h.le j
    rw [hold] at hle
    exact Nat.le_trans (Nat.le_add_right _ _) hle

end Counted

theorem counted_init : (init : Engine σ).Counted support thread where
  net := NetEngine.consistent_init
  now _ := rfl
  placed := nofun
  le _ := Nat.zero_le _

/-! ## A step -/

/-- What a step comes to: `GetWorker` is asked or not. -/
inductive Moves [DecidableEq σ] (support thread : Nat) (e : Engine σ) (l : EngineLabel σ) :
    Engine σ → Prop
  | makes {net : NetEngine σ} {fd k : Nat} (hs : e.net.step l = some net)
      (hm : e.net.makes l = some fd)
      (hk : getWorker thread (e.getFreeSlot support thread) = some k) :
      Moves support thread e l { e with
        net := net
        nowConnection := Function.update e.nowConnection k (e.nowConnection k + 1)
        worker := Function.update e.worker fd k }
  | fails {net : NetEngine σ} {fd : Nat} (hs : e.net.step l = some net)
      (hm : e.net.makes l = some fd)
      (hk : getWorker thread (e.getFreeSlot support thread) = none) :
      Moves support thread e l { e with net := net, failed := true }
  | closes {net : NetEngine σ} {fd : Nat} (hs : e.net.step l = some net)
      (hm : e.net.makes l = none) (hc : e.net.closes l = some fd) :
      Moves support thread e l { e with
        net := net
        nowConnection := Function.update e.nowConnection (e.worker fd)
          (e.nowConnection (e.worker fd) - 1) }
  | keeps {net : NetEngine σ} (hs : e.net.step l = some net) (hm : e.net.makes l = none)
      (hc : e.net.closes l = none) : Moves support thread e l { e with net := net }

variable [DecidableEq σ]

theorem step_cases (h : e.step support thread l = some e') :
    e.failed = false ∧ Moves support thread e l e' := by
  unfold step at h
  split at h
  · cases h
  · next hf =>
    refine ⟨Bool.eq_false_iff.mpr hf, ?_⟩
    obtain ⟨net, hs, rfl⟩ := Option.map_eq_some_iff.mp h
    split
    · next fd hm =>
      split
      · next k hk => exact .makes hs hm hk
      · next hk => exact .fails hs hm hk
    · next hm =>
      split
      · next fd hc => exact .closes hs hm hc
      · next hc => exact .keeps hs hm hc

theorem Moves.net_step (h : Moves support thread e l e') : e.net.step l = some e'.net := by
  cases h with
  | makes hs | fails hs | closes hs | keeps hs => exact hs

theorem Counted.step (h : e.Counted support thread) (hs : Moves support thread e l e')
    (hf : e'.failed = false) : e'.Counted support thread := by
  have hnet := h.net.step hs.net_step
  have hchanges := h.net.changes (NetEngine.step_cases hs.net_step)
  generalize hhs : e'.net.handlers = handlers at hchanges
  cases hs with
  | @makes net fd k hs hm hk =>
    cases hchanges with
    | same _ hno | refuse _ _ _ hno | leave _ _ _ hno => rw [hm] at hno; cases hno
    | @enter c hv _ hmc =>
      rw [hm] at hmc
      split at hmc
      · next hc =>
        cases hmc
        exact h.make hnet hhs hc (fun x hx => ⟨hx, hv x hx⟩) (fun _ => rfl) hk
      · cases hmc
    | @replace c c' hc hn hc' hfd _ hmc =>
      rw [hm] at hmc
      cases hmc
      rw [← hfd]
      refine h.make hnet hhs hc' (fun x hx => ?_) (fun j => ?_) hk
      · rw [hfd]
        exact ⟨List.mem_of_mem_filter hx, by simpa using (List.mem_filter.mp hx).2⟩
      · rw [served, servedBy_without h.net.distinct hc, hn]
        rfl
  | fails => cases hf
  | @closes net fd hs hm hc =>
    cases hchanges with
    | same _ _ hno | enter _ _ _ hno | refuse _ _ _ _ hno => rw [hc] at hno; cases hno
    | replace _ _ _ _ _ hno => rw [hm] at hno; cases hno
    | leave hmem hconn _ _ hfd =>
      rw [hc] at hfd
      cases hfd
      exact h.leave hnet hmem hconn hhs
  | @keeps net hs hm hc =>
    cases hchanges with
    | same =>
      exact h.keep hnet (fun x hx _ => hhs ▸ hx) (fun j => by rw [hhs]; rfl)
    | @enter c hv _ hmc =>
      have hn : c.isConnection = false := by
        rw [hm] at hmc
        split at hmc
        · cases hmc
        · next hn => exact Bool.eq_false_iff.mpr hn
      refine h.keep hnet (fun x hx hxc => ?_) (fun j => by rw [hhs, servedBy_cons hn]; rfl)
      rcases List.mem_cons.mp (hhs ▸ hx) with rfl | hx
      · rw [hn] at hxc
        cases hxc
      · exact hx
    | replace _ _ _ _ _ hno => rw [hm] at hno; cases hno
    | refuse hmem hn =>
      refine h.keep hnet (fun x hx _ => List.mem_of_mem_filter (hhs ▸ hx)) fun j => ?_
      rw [hhs, served, servedBy_without h.net.distinct hmem, hn]
      rfl
    | leave _ _ _ _ hno => rw [hc] at hno; cases hno

/-- As long as no assertion has failed, the workers' counts are right. -/
theorem counted (h : (engine σ support thread).Reachable e) (hf : e.failed = false) :
    e.Counted support thread := by
  refine h.invariant (I := fun e => e.failed = false → e.Counted support thread)
    (fun _ => counted_init) (fun e l e' _ ih hs hf' => ?_) hf
  obtain ⟨hf, hm⟩ := step_cases hs
  exact (ih hf).step hm hf'

/-! ## Capacity -/

/-- The handlers fit into `_events`, and `GetWorker` has found a worker so far. -/
def Safe (support : Nat) (e : Engine σ) : Prop :=
  e.net.handlers.length ≤ support ∧ e.failed = false

/-- A handler is registered while there are fewer than `support`, and a connection is made while
there are fewer than the workers have slots. -/
def HasRoom (support thread : Nat) (e : Engine σ) (l : EngineLabel σ) : Prop :=
  (NetEngine.registers l = true → e.net.handlers.length < support) ∧
    (e.net.makes l ≠ none → e.net.connections < thread * (support / thread))

instance (e : Engine σ) (l : EngineLabel σ) : Decidable (e.HasRoom support thread l) :=
  inferInstanceAs (Decidable ((_ → _) ∧ (_ → _)))

theorem length_step (h : e.net.Consistent) (hs : Moves support thread e l e') :
    (NetEngine.registers l = true → e'.net.handlers.length = e.net.handlers.length + 1) ∧
      (NetEngine.registers l = false → e'.net.handlers.length ≤ e.net.handlers.length) :=
  (h.changes (NetEngine.step_cases hs.net_step)).length h

/-- **Capacity.** While each step leaves the room, the handlers fit into `_events`, a batch of
`epoll_wait` does, and `GetWorker` finds a worker for every connection. A step that does not is
the end of one or the other. -/
theorem capacity_respected :
    (∀ e : Engine σ, (engine σ support thread).Run (HasRoom support thread) e →
      e.Safe support ∧ ∀ events net, e.net.step (.wait events) = some net →
        events.length ≤ support) ∧
    ∀ e e' : Engine σ, (engine σ support thread).Reachable e →
      e.step support thread l = some e' → ¬ e.HasRoom support thread l → ¬ e'.Safe support := by
  constructor
  · intro e h
    have hsafe : e.Safe support := by
      refine h.invariant_with (I := fun e => e.Safe support)
        (J := fun e => e.failed = false → e.Counted support thread)
        (fun _ hr hf => counted hr.reachable hf) ⟨Nat.zero_le _, rfl⟩ ?_
      intro e l e' hroom hcounted ih hs
      obtain ⟨hf, hm⟩ := step_cases hs
      obtain ⟨hadd, hkeep⟩ := length_step (hcounted hf).net hm
      constructor
      · cases hr : NetEngine.registers l with
        | true =>
          have := hroom.1 hr
          have := hadd hr
          omega
        | false => exact (hkeep hr).trans ih.1
      · cases hm with
        | makes | closes | keeps => exact hf
        | fails _ hm hk =>
          have hsome := (hcounted hf).getWorker_isSome.mpr (hroom.2 (by rw [hm]; nofun))
          rw [hk] at hsome
          cases hsome
    refine ⟨hsafe, fun events net hs => ?_⟩
    simp only [NetEngine.step] at hs
    split at hs
    · next hw => exact hw.2.2.1.trans hsafe.1
    · cases hs
  · intro e e' h hs hno hsafe
    obtain ⟨hf, hm⟩ := step_cases hs
    have hcounted := counted h hf
    refine hno ⟨fun hr => ?_, fun hmakes => ?_⟩
    · have := (length_step hcounted.net hm).1 hr
      have := hsafe.1
      omega
    · refine hcounted.getWorker_isSome.mp ?_
      cases hm with
      | makes _ _ hk => rw [hk]; rfl
      | fails => cases hsafe.2
      | closes _ hn | keeps _ hn => exact absurd hn hmakes

/-- One acceptor, and a peer that connects. -/
def accepting : List (EngineLabel Nat) :=
  [.outside, .listen (.made 3), .ret, .wait [⟨0, 3, false, false, true⟩], .next, .accept 4 7]

/-- Three connectors; two get through. -/
def dialling : List (EngineLabel Nat) :=
  [.outside, .connect 7 (.made 3), .connect 8 (.made 4), .connect 9 (.made 5), .ret,
    .wait [⟨0, 3, false, true, false⟩, ⟨1, 4, false, true, false⟩, ⟨2, 5, false, true, false⟩],
    .next, .ret, .next, .ret]

/-- Room for three: an acceptor and its connection fit; of three connectors the last finds the
two workers with a slot each taken. -/
theorem capacity_respected_three :
    (∃ e : Engine Nat, e.net.handlers.length = 2 ∧ e.Safe 3) ∧
    ∃ e' : Engine Nat, e'.net.handlers.length = 3 ∧ ¬ e'.Safe 3 := by
  constructor
  · obtain ⟨e, h, he⟩ := (engine Nat 3 2).run_of_exec (P := HasRoom 3 2) accepting
      (p := fun e => e.net.handlers.length == 2) (by decide)
    exact ⟨e, beq_iff_eq.mp he, ((capacity_respected (l := .outside)).1 e h).1⟩
  · obtain ⟨e, h, he⟩ := (engine Nat 3 2).run_of_exec (P := fun _ _ => True) dialling
      (p := fun e => (e.step 3 2 .next).any (fun e' => e'.net.handlers.length == 3) &&
        !decide (e.HasRoom 3 2 .next)) (by decide)
    simp only [Bool.and_eq_true, Bool.not_eq_true', decide_eq_false_iff_not] at he
    cases hs : e.step 3 2 .next with
    | none => simp [hs] at he
    | some e' =>
      have hlen : e'.net.handlers.length = 3 := by simpa [hs] using he.1
      exact ⟨e', hlen, capacity_respected.2 e e' h hs he.2⟩

/-- With room for one, an accept after `Listen` makes two handlers for one entry of `_events`.
With room for three and two workers, the third connection finds no worker. -/
theorem capacity_exceeded :
    (∃ e : Engine Nat, (engine Nat 1 1).Reachable e ∧ 1 < e.net.handlers.length) ∧
    ∃ e : Engine Nat, (engine Nat 3 2).Reachable e ∧ e.net.handlers.length = 3 ∧
      e.failed = true := by
  constructor
  · obtain ⟨e, h, he⟩ := (engine Nat 1 1).run_of_exec (P := fun _ _ => True) accepting
      (p := fun e => decide (1 < e.net.handlers.length)) (by decide)
    exact ⟨e, h, of_decide_eq_true he⟩
  · obtain ⟨e, h, he⟩ := (engine Nat 3 2).run_of_exec (P := fun _ _ => True)
      (dialling ++ [.next])
      (p := fun e => e.net.handlers.length == 3 && e.failed) (by decide)
    simp only [Bool.and_eq_true, beq_iff_eq] at he
    exact ⟨e, h, he.1, he.2⟩

end Engine
end HyperNet.Net
