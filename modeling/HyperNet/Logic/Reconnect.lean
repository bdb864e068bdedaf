import HyperNet.Net.Custody
import Mathlib.Algebra.Ring.Int.Defs

/-! # The sessions that dial (Harbor::Connect, Harbor::Loop, NodeSession.cpp)

`Connect` makes a session for a node and hands it to the kernel with its address; when its
connection fails or ends, the session goes to `_reconnects`, and `Loop` hands it to the kernel
again once its time has come. The engine runs it in between; the sessions it accepts, and
those of other modules, are none of these.

`OnConnectFailed` and `OnDisconnected` end with `AddReconnect`, which is done here where they return. -/
namespace HyperNet.Logic
open HyperNet.Core.History HyperNet.Core.Transition HyperNet.Net

/-- A session of the engine: one made by `Harbor::Connect`, in order, or another. -/
inductive DialSession
  | dialled (n : Nat)
  | other
  deriving DecidableEq

theorem beq_dialled (m n : Nat) : (DialSession.dialled m == .dialled n) = (m == n) := by
  rw [Bool.eq_iff_iff, beq_iff_eq, beq_iff_eq, DialSession.dialled.injEq]

/-- `Harbor::Reconnect`. -/
structure Reconnect where
  session : Nat
  ip : String
  port : Int
  tick : Int
  deriving DecidableEq

/-- A call of `_kernel->Connect`, and what it returns. -/
structure Dial where
  session : Nat
  ip : String
  port : Int
  ok : Bool
  deriving DecidableEq

structure Dialler where
  engine : NetEngine DialSession
  /-- `_ip` and `_port` of the sessions that `Connect` has made. -/
  sessions : List (String × Int)
  reconnects : List Reconnect
  /-- The clock, `GetTimeMillisecond`. -/
  now : Int
  trace : List Dial

inductive DiallerLabel
  /-- A step of the engine, and of the sessions that are not dialled. -/
  | engine (l : EngineLabel DialSession)
  /-- `Harbor::Connect`. -/
  | connect (ip : String) (port : Int) (r : Opening)
  | clock (t : Int)
  /-- `Harbor::Loop`, with how each of its calls of `_kernel->Connect` ends. -/
  | loop (rs : List Opening)
  deriving DecidableEq

namespace Dialler

def init : Dialler where
  engine := .init
  sessions := []
  reconnects := []
  now := 0
  trace := []

/-- `Harbor::AddReconnect`. -/
def addReconnect (n : Nat) (w : Dialler) : Dialler :=
  match w.sessions[n]? with
  | some (ip, port) => { w with reconnects := w.reconnects ++ [⟨n, ip, port, w.now⟩] }
  | none => w

/-- The end of `NodeSession::OnConnectFailed` or `NodeSession::OnDisconnected`. -/
def callback (w : Dialler) : Dialler :=
  match w.engine.stack.head? with
  | some (.onConnectFailed (.dialled n)) => w.addReconnect n
  | some (.onDisconnected (.dialled n) _ _) => w.addReconnect n
  | _ => w

/-- `Harbor::Connect`. -/
def connect (ip : String) (port : Int) (r : Opening) (w : Dialler) : Option Dialler :=
  let n := w.sessions.length
  (w.engine.connect (.dialled n) r).map fun e => { w with
    engine := e
    sessions := w.sessions ++ [(ip, port)]
    trace := w.trace ++ [⟨n, ip, port, r.ok⟩] }

/-- `Harbor::Loop`. -/
def loop (reconnectTick now : Int) :
    List Reconnect → List Opening → NetEngine DialSession →
      Option (NetEngine DialSession × List Reconnect × List Dial)
  | [], _, e => some (e, [], [])
  | unit :: units, rs, e =>
    if unit.tick + reconnectTick > now then some (e, unit :: units, [])
    else match rs with
      | [] => none
      | r :: rs =>
        (e.connect (.dialled unit.session) r).bind fun e =>
          (loop reconnectTick now units rs e).map fun (e, left, dials) =>
            (e, left, ⟨unit.session, unit.ip, unit.port, r.ok⟩ :: dials)

/-- The labels that give the engine a session: none of those that dial. -/
def ofOthers : EngineLabel DialSession → Bool
  | .connect session _ | .accept _ session => session == .other
  | _ => true

def step (reconnectTick : Int) (w : Dialler) : DiallerLabel → Option Dialler
  | .engine l =>
    if ofOthers l then
      (w.engine.step l).map fun e => { (if l = .ret then w.callback else w) with engine := e }
    else none
  | .connect ip port r => if w.engine.free then w.connect ip port r else none
  | .clock t => if w.now ≤ t then some { w with now := t } else none
  | .loop rs =>
    if w.engine.stack = [] ∧ w.engine.lookups = [] then
      (loop reconnectTick w.now w.reconnects rs w.engine).map fun (e, left, dials) =>
        { w with engine := e, reconnects := left, trace := w.trace ++ dials }
    else none

end Dialler

/-- A Harbor with so many milliseconds before it dials again. -/
def dialler (reconnectTick : Int) : System Dialler DiallerLabel :=
  ⟨.init, Dialler.step reconnectTick⟩

namespace Dialler
variable {w w' : Dialler} {n : Nat} {reconnectTick : Int}

/-! ## Where a session is -/

/-- The connectors and connections of a session, and its entries in `_reconnects`. -/
def held (n : Nat) (w : Dialler) : Nat :=
  w.engine.handlers.countP (·.holds (.dialled n)) + w.reconnects.countP (·.session == n)

/-- The times that `_kernel->Connect` has failed for a session. -/
def failed (n : Nat) (w : Dialler) : Nat := w.trace.countP fun d => d.session == n && !d.ok

/-- Each session is in one place, or `Connect` has lost it; the entries of `_reconnects` are in
the order of their times. -/
structure Consistent (w : Dialler) : Prop where
  engine : w.engine.Consistent
  once : ∀ n, w.engine.held (.dialled n) + w.reconnects.countP (·.session == n) + w.failed n =
    (decide (n < w.sessions.length)).toNat
  address : ∀ u ∈ w.reconnects, w.sessions[u.session]? = some (u.ip, u.port)
  dialled : ∀ d ∈ w.trace, d.session < w.sessions.length
  past : ∀ u ∈ w.reconnects, u.tick ≤ w.now
  sorted : w.reconnects.Pairwise (·.tick ≤ ·.tick)

/-! ## The loop -/

/-- The entry's time has come. -/
def due (reconnectTick now : Int) (u : Reconnect) : Bool := u.tick + reconnectTick ≤ now

/-- `Loop` dials the entries that are due, each once, in their order, and leaves the others. -/
theorem loop_spec {now : Int} {units left : List Reconnect} {rs : List Opening}
    {e e' : NetEngine DialSession} {dials : List Dial}
    (hs : units.Pairwise (·.tick ≤ ·.tick))
    (h : loop reconnectTick now units rs e = some (e', left, dials)) :
    left = units.filter (fun u => !due reconnectTick now u) ∧
      dials.map (fun d => (d.session, d.ip, d.port)) =
        (units.filter (due reconnectTick now)).map fun u => (u.session, u.ip, u.port) := by
  induction units generalizing rs e e' left dials with
  | nil =>
    cases h
    exact ⟨rfl, rfl⟩
  | cons u units ih =>
    obtain ⟨hle, hs⟩ := List.pairwise_cons.mp hs
    unfold loop at h
    split at h
    · next hlate =>
      cases h
      have hnot : ∀ v ∈ u :: units, due reconnectTick now v = false := by
        intro v hv
        rw [due, decide_eq_false_iff_not]
        rcases List.mem_cons.mp hv with rfl | hv
        · omega
        · have := hle v hv
          omega
      constructor
      · exact (List.filter_eq_self.mpr fun v hv => by rw [hnot v hv]; rfl).symm
      · rw [List.filter_eq_nil_iff.mpr fun v hv => by rw [hnot v hv]; nofun]
        rfl
    · next hdue =>
      have hdue : due reconnectTick now u = true := decide_eq_true (by omega)
      cases rs with
      | nil => cases h
      | cons r rs =>
        obtain ⟨e₁, _, h⟩ := Option.bind_eq_some_iff.mp h
        obtain ⟨⟨e₂, left₂, dials₂⟩, hl, he⟩ := Option.map_eq_some_iff.mp h
        cases he
        obtain ⟨hleft, hdials⟩ := ih hs hl
        constructor
        · rw [hleft, List.filter_cons_of_neg (by simp [hdue])]
        · rw [List.filter_cons_of_pos hdue, List.map_cons, List.map_cons, hdials]

/-- An entry that is dialled becomes a connector, or is lost. -/
theorem loop_held {now : Int} {units left : List Reconnect} {rs : List Opening}
    {e e' : NetEngine DialSession} {dials : List Dial} (hc : e.Consistent)
    (h : loop reconnectTick now units rs e = some (e', left, dials)) :
    e'.Consistent ∧ ∀ n, e'.held (.dialled n) + left.countP (·.session == n) +
        dials.countP (fun d => d.session == n && !d.ok) =
      e.held (.dialled n) + units.countP (·.session == n) := by
  induction units generalizing rs e e' left dials with
  | nil =>
    cases h
    exact ⟨hc, fun n => rfl⟩
  | cons u units ih =>
    unfold loop at h
    split at h
    · cases h
      exact ⟨hc, fun n => rfl⟩
    · cases rs with
      | nil => cases h
      | cons r rs =>
        obtain ⟨e₁, he₁, h⟩ := Option.bind_eq_some_iff.mp h
        obtain ⟨⟨e₂, left₂, dials₂⟩, hl, he⟩ := Option.map_eq_some_iff.mp h
        cases he
        obtain ⟨hc', hheld⟩ := ih (hc.connect he₁) hl
        refine ⟨hc', fun n => ?_⟩
        have hconnect := hc.held_connect (s := .dialled n) he₁
        have hn := hheld n
        rw [beq_dialled] at hconnect
        simp only [List.countP_cons]
        cases hu : u.session == n <;> cases hr : r.ok <;> simp [hu, hr] at hconnect ⊢ <;> omega

/-! ## A step -/

theorem addReconnect_eq {ip : String} {port : Int} (h : w.sessions[n]? = some (ip, port)) :
    w.addReconnect n = { w with reconnects := w.reconnects ++ [⟨n, ip, port, w.now⟩] } := by
  rw [addReconnect, h]

namespace Consistent

/-- A session that is somewhere has been made. -/
theorem known (hc : w.Consistent) (h : 0 < w.engine.held (.dialled n)) :
    ∃ a, w.sessions[n]? = some a := by
  have hn := hc.once n
  by_cases hlt : n < w.sessions.length
  · exact ⟨_, List.getElem?_eq_getElem hlt⟩
  · rw [decide_eq_false hlt] at hn
    simp at hn
    omega

/-- A call that ends leaves the session to `_reconnects`, if it is one that dials. -/
theorem callback (hc : w.Consistent) {e : NetEngine DialSession} (hd : w.engine.Does .ret e) :
    w.callback = w ∧ (∀ n, w.engine.leaving (.dialled n) .ret = 0) ∨
      ∃ m ip port, w.callback = { w with reconnects := w.reconnects ++ [⟨m, ip, port, w.now⟩] } ∧
        w.sessions[m]? = some (ip, port) ∧
          ∀ n, w.engine.leaving (.dialled n) .ret = (m == n).toNat := by
  have add : ∀ m, (∀ n, w.engine.leaving (.dialled n) .ret = (m == n).toNat) →
      w.callback = w.addReconnect m → ∃ m ip port,
        w.callback = { w with reconnects := w.reconnects ++ [⟨m, ip, port, w.now⟩] } ∧
          w.sessions[m]? = some (ip, port) ∧
            ∀ n, w.engine.leaving (.dialled n) .ret = (m == n).toNat := by
    intro m hleave hback
    have hstep := hc.engine.held_step (s := .dialled m) hd
    have hm := hleave m
    rw [beq_self_eq_true, Bool.toNat_true] at hm
    rw [hm] at hstep
    obtain ⟨⟨ip, port⟩, ha⟩ := hc.known (n := m) (by simp [NetEngine.entering] at hstep; omega)
    exact ⟨m, ip, port, hback.trans (addReconnect_eq ha), ha, hleave⟩
  cases hst : w.engine.stack.head? with
  | none => exact .inl ⟨by simp [Dialler.callback, hst], by simp [NetEngine.leaving, hst]⟩
  | some f =>
    cases f with
    | onConnectFailed session =>
      cases session with
      | dialled m =>
        refine .inr (add m (fun n => ?_) (by simp [Dialler.callback, hst]))
        simp only [NetEngine.leaving, hst, EngineFrame.holds, beq_dialled]
      | other =>
        exact .inl ⟨by simp [Dialler.callback, hst],
          by simp [NetEngine.leaving, hst, EngineFrame.holds]⟩
    | onDisconnected session fd s =>
      cases session with
      | dialled m =>
        refine .inr (add m (fun n => ?_) (by simp [Dialler.callback, hst]))
        simp only [NetEngine.leaving, hst, beq_dialled]
      | other =>
        exact .inl ⟨by simp [Dialler.callback, hst], by simp [NetEngine.leaving, hst]⟩
    | onIn | onConnected | connection | outside =>
      exact .inl ⟨by simp [Dialler.callback, hst],
        by simp [NetEngine.leaving, hst, EngineFrame.holds]⟩

/-- The engine steps, and what the step gives up has gone to `_reconnects`. -/
theorem engineStep (hc : w.Consistent) {e : NetEngine DialSession}
    {l : EngineLabel DialSession} (ho : ofOthers l = true) (hs : w.engine.step l = some e) :
    Consistent { (if l = .ret then w.callback else w) with engine := e } := by
  have hd := NetEngine.step_cases hs
  have he := hc.engine.step hs
  have hheld : ∀ n, e.held (.dialled n) + w.engine.leaving (.dialled n) l =
      w.engine.held (.dialled n) := by
    intro n
    rw [hc.engine.held_step hd]
    cases l with
    | connect session r | accept fd session =>
      obtain rfl : session = .other := beq_iff_eq.mp ho
      simp [NetEngine.entering]
    | _ => rfl
  have keep : (∀ n, w.engine.leaving (.dialled n) l = 0) →
      Consistent { w with engine := e } := by
    intro hleave
    refine ⟨he, fun n => ?_, hc.address, hc.dialled, hc.past, hc.sorted⟩
    have := hheld n
    rw [hleave n] at this
    rw [← hc.once n, ← this]
    rfl
  by_cases hl : l = .ret
  · subst hl
    rw [if_pos rfl]
    rcases hc.callback hd with ⟨hback, hleave⟩ | ⟨m, ip, port, hback, ha, hleave⟩
    · rw [hback]
      exact keep hleave
    · rw [hback]
      refine ⟨he, fun n => ?_, forall_snoc hc.address ha, hc.dialled,
        forall_snoc hc.past (Int.le_refl _), ?_⟩
      · have hn := hheld n
        rw [hleave n] at hn
        rw [← hc.once n, ← hn]
        simp only [List.countP_append, List.countP_singleton, failed]
        cases m == n with
        | false => rfl
        | true =>
          simp only [if_true, Bool.toNat_true]
          omega
      · refine List.pairwise_append.mpr ⟨hc.sorted, List.pairwise_singleton _ _, ?_⟩
        intro u hu v hv
        rw [List.mem_singleton.mp hv]
        exact hc.past u hu
  · rw [if_neg hl]
    refine keep fun n => ?_
    cases l <;> first | rfl | exact absurd rfl hl

theorem connect (hc : w.Consistent) {ip : String} {port : Int} {r : Opening}
    (hs : w.connect ip port r = some w') : w'.Consistent := by
  obtain ⟨e, he, rfl⟩ := Option.map_eq_some_iff.mp hs
  refine ⟨hc.engine.connect he, fun n => ?_, fun u hu => ?_, ?_, hc.past, hc.sorted⟩
  · have hn := hc.once n
    have hconnect := hc.engine.held_connect (s := .dialled n) he
    rw [beq_dialled] at hconnect
    have hmade : (decide (n < w.sessions.length + 1)).toNat =
        (decide (n < w.sessions.length)).toNat + (w.sessions.length == n).toNat := by
      by_cases heq : w.sessions.length = n
      · simp [heq]
      · have hlt : n < w.sessions.length + 1 ↔ n < w.sessions.length := by omega
        simp [heq, hlt]
    have hone : (w.sessions.length == n && r.ok).toNat +
        (w.sessions.length == n && !r.ok).toNat = (w.sessions.length == n).toNat := by
      cases w.sessions.length == n <;> cases r.ok <;> rfl
    simp only [failed, List.countP_append, List.countP_singleton, List.length_append,
      List.length_singleton] at hn ⊢
    rw [hmade, ← hone, ← hn, hconnect]
    cases w.sessions.length == n && !r.ok <;> simp <;> omega
  · have := hc.address u hu
    have hlt := (List.getElem?_eq_some_iff.mp this).1
    rw [List.getElem?_append_left hlt, this]
  · simp only [List.length_append, List.length_singleton]
    refine forall_snoc (fun d hd => ?_) (Nat.lt_succ_self _)
    exact Nat.lt_succ_of_lt (hc.dialled d hd)

theorem loop (hc : w.Consistent) {rs : List Opening} {e : NetEngine DialSession}
    {left : List Reconnect} {dials : List Dial}
    (h : Dialler.loop reconnectTick w.now w.reconnects rs w.engine = some (e, left, dials)) :
    Consistent { w with engine := e, reconnects := left, trace := w.trace ++ dials } := by
  obtain ⟨hleft, hdials⟩ := loop_spec hc.sorted h
  obtain ⟨he, hheld⟩ := loop_held hc.engine h
  have hsub : left.Sublist w.reconnects := hleft ▸ List.filter_sublist
  refine ⟨he, fun n => ?_, fun u hu => hc.address u (hsub.subset hu), fun d hd => ?_,
    fun u hu => hc.past u (hsub.subset hu), hc.sorted.sublist hsub⟩
  · have hn := hheld n
    have := hc.once n
    simp only [failed, List.countP_append] at this ⊢
    omega
  · rcases List.mem_append.mp hd with hd | hd
    · exact hc.dialled d hd
    · have hm := List.mem_map_of_mem (f := fun d : Dial => (d.session, d.ip, d.port)) hd
      rw [hdials] at hm
      obtain ⟨u, hu, he⟩ := List.mem_map.mp hm
      rw [← (Prod.mk.inj he).1]
      exact (List.getElem?_eq_some_iff.mp (hc.address u (List.mem_of_mem_filter hu))).1

theorem step (hc : w.Consistent) {l : DiallerLabel} (hs : w.step reconnectTick l = some w') :
    w'.Consistent := by
  cases l with
  | engine l =>
    simp only [Dialler.step] at hs
    split at hs
    · next ho =>
      obtain ⟨e, he, rfl⟩ := Option.map_eq_some_iff.mp hs
      exact hc.engineStep ho he
    · cases hs
  | connect ip port r =>
    simp only [Dialler.step] at hs
    split at hs
    · exact hc.connect hs
    · cases hs
  | clock t =>
    simp only [Dialler.step] at hs
    split at hs
    · next hle =>
      cases hs
      exact ⟨hc.engine, hc.once, hc.address, hc.dialled,
        fun u hu => Int.le_trans (hc.past u hu) hle, hc.sorted⟩
    · cases hs
  | loop rs =>
    simp only [Dialler.step] at hs
    split at hs
    · obtain ⟨⟨e, left, dials⟩, hl, rfl⟩ := Option.map_eq_some_iff.mp hs
      exact hc.loop hl
    · cases hs

end Consistent

theorem consistent_init : init.Consistent where
  engine := NetEngine.consistent_init
  once _ := rfl
  address := nofun
  dialled := nofun
  past := nofun
  sorted := .nil

theorem consistent (h : (dialler reconnectTick).Reachable w) : w.Consistent :=
  h.invariant consistent_init fun _ _ _ _ ih hs => ih.step hs

/-- Between events, every session that dials is in one place if and only if no call of
`_kernel->Connect` has failed. A `Loop` leaves no entry whose time has come, and dials those that
were due once each, in their order. -/
theorem reconnect_custody (h : (dialler reconnectTick).Reachable w) (hst : w.engine.stack = []) :
    ((∀ n < w.sessions.length, w.held n = 1) ↔ ∀ d ∈ w.trace, d.ok = true) ∧
    ∀ rs w', w.step reconnectTick (.loop rs) = some w' →
      (∀ u ∈ w'.reconnects, w'.now < u.tick + reconnectTick) ∧
      ∃ dials, w'.trace = w.trace ++ dials ∧ dials.map (fun d => (d.session, d.ip, d.port)) =
        (w.reconnects.filter fun u => u.tick + reconnectTick ≤ w.now).map fun u =>
          (u.session, u.ip, u.port) := by
  have hc := consistent h
  have hplaces : ∀ n, w.engine.held (.dialled n) + w.reconnects.countP (·.session == n) =
      w.held n := by
    intro n
    simp [NetEngine.held, held, hst]
  constructor
  · constructor
    · intro hone d hd
      have hd' := hc.dialled d hd
      have hn := hc.once d.session
      rw [hplaces, hone _ hd', decide_eq_true hd', Bool.toNat_true] at hn
      have hfail : w.failed d.session = 0 := by omega
      have := List.countP_eq_zero.mp hfail d hd
      simpa using this
    · intro hok n hlt
      have hfail : w.failed n = 0 := by
        refine List.countP_eq_zero.mpr fun d hd => ?_
        simp [hok d hd]
      have hn := hc.once n
      rwa [hplaces, hfail, decide_eq_true hlt] at hn
  · intro rs w' hs
    simp only [step] at hs
    split at hs
    · obtain ⟨⟨e, left, dials⟩, hl, rfl⟩ := Option.map_eq_some_iff.mp hs
      obtain ⟨hleft, hdials⟩ := loop_spec hc.sorted hl
      refine ⟨fun u hu => ?_, dials, rfl, hdials⟩
      have hu : u ∈ left := hu
      rw [hleft, List.mem_filter] at hu
      simpa [due] using hu.2
    · cases hs

/-- A node that is dialled, refused, and dialled again after 500 milliseconds. -/
theorem reconnect_custody_refused : ∃ w : Dialler, w.engine.stack = [] ∧
    (∀ n < w.sessions.length, w.held n = 1) ∧ w.sessions.length = 1 ∧
      ∃ w', w.step 500 (.loop [.made 4]) = some w' ∧ ∀ u ∈ w'.reconnects, w'.now < u.tick + 500 := by
  obtain ⟨w, h, hw⟩ := (dialler 500).run_of_exec (P := fun _ _ => True)
    [.engine .outside, .connect "10.0.0.1" 5000 (.made 4), .engine .ret,
      .engine (.wait [⟨0, 4, true, true, false⟩]), .engine .next, .engine .ret, .engine .next,
      .clock 600]
    (p := fun w => w.engine.stack == [] && w.sessions.length == 1 && w.trace.all Dial.ok &&
      (w.step 500 (.loop [.made 4])).isSome) (by decide)
  simp only [Bool.and_eq_true, beq_iff_eq, List.all_eq_true] at hw
  obtain ⟨⟨⟨hst, hone⟩, hok⟩, hloop⟩ := hw
  obtain ⟨w', hs⟩ := Option.isSome_iff_exists.mp hloop
  have hcustody := reconnect_custody h hst
  exact ⟨w, hst, hcustody.1.mpr hok, hone, w', hs, (hcustody.2 _ _ hs).1⟩

/-- The process has no number left for a socket when `Loop` dials again: nothing holds the
session any more. -/
theorem session_lost : ∃ w : Dialler, (dialler 500).Reachable w ∧ w.engine.stack = [] ∧
    w.sessions.length = 1 ∧ w.held 0 = 0 := by
  obtain ⟨w, h, hw⟩ := (dialler 500).run_of_exec (P := fun _ _ => True)
    [.engine .outside, .connect "10.0.0.1" 5000 (.made 4), .engine .ret,
      .engine (.wait [⟨0, 4, true, true, false⟩]), .engine .next, .engine .ret, .engine .next,
      .clock 600, .loop [.noSocket]]
    (p := fun w => w.engine.stack == [] && w.sessions.length == 1 && w.held 0 == 0) (by decide)
  simp only [Bool.and_eq_true, beq_iff_eq] at hw
  exact ⟨w, h, hw.1.1, hw.1.2, hw.2⟩

end Dialler
end HyperNet.Logic
