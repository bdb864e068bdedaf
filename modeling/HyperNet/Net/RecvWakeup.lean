import HyperNet.Net.RecvStream

/-! # Edges and requests of the receive direction

Here the answers of the socket are not an input any more: the connection runs
with the kernel's receive queue and the `EPOLLIN` notifications for it. A
notification is raised when bytes arrive and at no other time (`EPOLLET`).
`OnRecv` stops when the socket has nothing more or when its buffer is full and
returns `WRET_DONE` for both. -/
namespace HyperNet.Net
open HyperNet.Api HyperNet.Public HyperNet.Core.Transition

/-! ## The socket -/

/-- What happens at the socket while `OnRecv` runs: bytes arrive, or one call of `::recv`
returns. -/
inductive SocketAct
  | arrive (b : UInt8) (bs : List UInt8)
  | read (k : Nat)
  | eof
  | error
  deriving DecidableEq

def SocketAct.isRead : SocketAct → Bool
  | .read _ => true
  | _ => false

/-- The answers to the calls of `OnRecv` with `room` bytes left in its buffer, what is then
in the queue, and the notifications raised. `OnRecv` goes on until its buffer is
full or a call returns no bytes; one that finds none says `EAGAIN`. -/
def serve : Nat → List UInt8 → List SocketAct → Option (List RecvRes × List UInt8 × Nat)
  | room, q, [] =>
    if room = 0 then some ([], q, 0) else if q = [] then some ([.eagain], q, 0) else none
  | room, q, .arrive b bs :: acts =>
    (serve room (q ++ b :: bs) acts).map fun (rs, q, raised) => (rs, q, raised + 1)
  | room, q, .read k :: acts =>
    match q.take (min k room) with
    | [] => none
    | x :: xs => (serve (room - (xs.length + 1)) (q.drop (xs.length + 1)) acts).map
        fun (rs, q, raised) => (.data x xs :: rs, q, raised)
  | room, q, .eof :: _ => if 0 < room ∧ q = [] then some ([.eof], q, 0) else none
  | room, q, .error :: _ => if 0 < room then some ([.error], q, 0) else none

/-- A connection with the kernel's end of its socket. -/
structure Endpoint (cfg : Config) where
  world : World cfg
  /-- The receive queue of the socket. -/
  queue : List UInt8
  /-- The `EPOLLIN` notifications that are raised and not delivered. -/
  edges : Nat

/-- A step of the kernel, or one of the connection. `epoll_wait` may deliver several
notifications as one: `onIn k` takes `k + 1` of them. -/
inductive EndpointLabel
  | arrive (b : UInt8) (bs : List UInt8)
  | onIn (k : Nat)
  | onRecv (acts : List SocketAct)
  | other (l : Label)
  deriving DecidableEq

namespace Endpoint
variable {cfg : Config}

def init (cfg : Config) : Endpoint cfg := ⟨.init cfg, [], 0⟩

def step (s : Endpoint cfg) : EndpointLabel → Option (Endpoint cfg)
  | .arrive b bs => some { s with queue := s.queue ++ b :: bs, edges := s.edges + 1 }
  | .onIn k =>
    if k < s.edges then
      (s.world.step .onIn).map fun w => { s with world := w, edges := s.edges - (k + 1) }
    else none
  | .onRecv acts =>
    (serve (cfg.recvSize - s.world.recv.worked.offset) s.queue acts).bind fun (rs, q, raised) =>
      (s.world.step (.runRecv rs)).map fun w => ⟨w, q, s.edges + raised⟩
  | .other .onIn | .other (.runRecv _) => none
  | .other l => (s.world.step l).map fun w => { s with world := w }

end Endpoint

/-- The connection, its worker and its socket. -/
def endpoint (cfg : Config) : System (Endpoint cfg) EndpointLabel := ⟨.init cfg, Endpoint.step⟩

/-- What one step does to the connection. -/
inductive Endpoint.Does {cfg : Config} (s : Endpoint cfg) : EndpointLabel → Endpoint cfg → Prop
  | arrive {b : UInt8} {bs : List UInt8} :
      Does s (.arrive b bs) { s with queue := s.queue ++ b :: bs, edges := s.edges + 1 }
  | onIn {k : Nat} {w : World cfg} (hk : k < s.edges) (h : s.world.step .onIn = some w) :
      Does s (.onIn k) { s with world := w, edges := s.edges - (k + 1) }
  | onRecv {acts : List SocketAct} {rs : List RecvRes} {q : List UInt8} {raised : Nat}
      {w : World cfg}
      (hs : serve (cfg.recvSize - s.world.recv.worked.offset) s.queue acts = some (rs, q, raised))
      (h : s.world.step (.runRecv rs) = some w) :
      Does s (.onRecv acts) ⟨w, q, s.edges + raised⟩
  | other {l : Label} {w : World cfg} (hl : l ≠ .onIn ∧ ∀ rs, l ≠ .runRecv rs)
      (h : s.world.step l = some w) : Does s (.other l) { s with world := w }

theorem Endpoint.step_cases {cfg : Config} {s s' : Endpoint cfg} {l : EndpointLabel}
    (h : s.step l = some s') : s.Does l s' := by
  cases l with
  | arrive b bs =>
    cases h
    exact .arrive
  | onIn k =>
    simp only [step] at h
    split at h
    · next hk =>
      obtain ⟨w, hw, rfl⟩ := Option.map_eq_some_iff.mp h
      exact .onIn hk hw
    · cases h
  | onRecv acts =>
    obtain ⟨⟨rs, q, raised⟩, hs, h⟩ := Option.bind_eq_some_iff.mp h
    obtain ⟨w, hw, rfl⟩ := Option.map_eq_some_iff.mp h
    exact .onRecv hs hw
  | other l =>
    have hl : (l ≠ .onIn ∧ ∀ rs, l ≠ .runRecv rs) ∧
        (s.world.step l).map (fun w => { s with world := w }) = some s' := by
      cases l <;> first | cases h | exact ⟨⟨nofun, nofun⟩, h⟩
    obtain ⟨w, hw, rfl⟩ := Option.map_eq_some_iff.mp hl.2
    exact .other hl.1 hw

/-- The connection of an endpoint is one of the system without a kernel. -/
theorem Endpoint.reachable {cfg : Config} {P : Endpoint cfg → EndpointLabel → Prop}
    {s : Endpoint cfg} (h : (endpoint cfg).Run P s) : Reachable s.world := by
  refine h.invariant (I := fun s => Reachable s.world) .start ?_
  intro s l s' _ ih hs
  cases Endpoint.step_cases hs with
  | arrive => exact ih
  | onIn _ hw => exact System.Run.next (l := .onIn) ih trivial hw
  | @onRecv _ rs _ _ _ _ hw => exact System.Run.next (l := .runRecv rs) ih trivial hw
  | @other l _ _ hw => exact System.Run.next (l := l) ih trivial hw

/-! ## Where OnRecv stops -/

/-- With nothing arriving and no more in the queue than fits, `OnRecv` leaves the queue empty
or fails. -/
theorem serve_empties {n room : Nat} {b : Buffer n} {q q' : List UInt8} {acts : List SocketAct}
    {rs : List RecvRes} (h : serve room q acts = some (rs, q', 0)) (hb : b.offset + room = n)
    (hg : acts.all SocketAct.isRead = true → q.length ≤ room) :
    q' = [] ∨ (recvLoop b rs).1 = .error := by
  induction acts generalizing room b q rs with
  | nil =>
    simp only [serve] at h
    split at h
    · next hr =>
      cases h
      have := hg rfl
      exact .inl (List.length_eq_zero_iff.mp (by omega))
    · split at h
      · next hq =>
        cases h
        exact .inl hq
      · cases h
  | cons act acts ih =>
    cases act with
    | arrive x xs =>
      obtain ⟨⟨_, _, _⟩, _, he⟩ := Option.map_eq_some_iff.mp h
      cases he
    | read k =>
      simp only [serve] at h
      split at h
      · cases h
      · next x xs htake =>
        obtain ⟨⟨rs₁, q₁, raised⟩, hs, he⟩ := Option.map_eq_some_iff.mp h
        cases he
        have hlen : xs.length + 1 ≤ room ∧ xs.length + 1 ≤ q.length := by
          have := congrArg List.length htake
          simp only [List.length_take, List.length_cons] at this
          omega
        have hlt : b.offset < n := by omega
        have hoff : (b.recv (x :: xs)).offset = b.offset + (xs.length + 1) := by
          have : (b.recv (x :: xs)).offset = b.offset + min (n - b.offset) (xs.length + 1) := by
            simp [Buffer.recv, Buffer.offset]
          omega
        have hgo := ih hs (b := b.recv (x :: xs)) (by omega) (fun hall => by
          have := hg (by simpa [SocketAct.isRead] using hall)
          simp only [List.length_drop]
          omega)
        simpa [recvLoop, hlt] using hgo
    | eof =>
      simp only [serve] at h
      split at h
      · next hq =>
        cases h
        exact .inl hq.2
      · cases h
    | error =>
      simp only [serve] at h
      split at h
      · next hr =>
        cases h
        have hlt : b.offset < n := by omega
        exact .inr (by simp [recvLoop, hlt])
      · cases h

/-! ## The machine at rest -/

namespace RecvView
variable {n : Nat} {p : PacketParser} {v v' v₀ : RecvView n} {e : NetEventType}
  {next : Option NetEventType} {l : Label}

/-- The machine is in `RecvNone`, or comes to it without another `NEVT_RECV`. -/
def Rest (v : RecvView n) : Prop :=
  v.side.state = .recvNone ∨ (∃ pos u, v.frames = [.onRecv pos u false]) ∨
    v.side.state = .recving ∧ v.items = [.result .recvDone]

theorem Raises.rest (hr : v.Raises next l e v₀) (h : v₀.Rest) : v.Rest := by
  cases hr with
  | other => exact h
  | result =>
    rcases h with hs | hf | ⟨_, hd⟩
    · exact .inl hs
    · exact .inr (.inl hf)
    · cases hd

theorem not_rest (hf : v.frames = []) (hn : v.side.state ≠ .recvNone)
    (hi : v.side.state = .recving → v.items ≠ [.result .recvDone]) : ¬v.Rest := by
  rintro (hs | ⟨pos, u, hframe⟩ | ⟨hs, hd⟩)
  · exact hn hs
  · rw [hf] at hframe
    cases hframe
  · exact hi hs hd

/-- `ProcessPacket` comes to rest only where no edge was seen during the read. -/
theorem rest_runPacket {again : Bool} {o : Parsing × RecvSide n} (hi : v.items = [])
    (hf : v.frames = []) (hb : o.2.state.busy = true) (h : (v.runPacket again o).Rest) :
    again = false := by
  obtain ⟨parsing, r⟩ := o
  cases parsing with
  | onRecv pos u =>
    rcases h with hs | ⟨_, _, hframe⟩ | ⟨_, hd⟩
    · rw [show r.state = .recvNone from hs] at hb
      cases hb
    · cases hframe
      rfl
    · rw [show v.items = _ from hd] at hi
      cases hi
  | done ok =>
    cases again with
    | false => rfl
    | true =>
      refine absurd h (not_rest ?_ ?_ ?_)
      · cases ok <;> exact hf
      · cases ok <;> simp [runPacket, endPacket, changeRecvState]
      · cases ok <;> simp [runPacket, endPacket, changeRecvState, beginRecv]

/-- Only an edge takes the machine away from rest, and no other event or step of the connection
brings it there. -/
theorem Step.rest (hs : v.Step p next l v') (hw : v.Waits)
    (hl : l ≠ .onIn ∧ ∀ rs, l ≠ .runRecv rs) (h : v'.Rest) : v.Rest := by
  cases hs with
  | quiet => exact h
  | run => exact absurd rfl (hl.2 _)
  | @resume pos u again hf hi =>
    have hb : (v.side.parse p (pos + u)).2.state.busy = true := by
      rw [(RecvSide.parse_cases p (pos + u) v.side).keeps.1]
      exact hw (.inr (by rw [hf]; nofun))
    obtain rfl := rest_runPacket (v := { v with frames := [] }) hi rfl hb h
    exact .inr (.inl ⟨pos, u, hf⟩)
  | @event _ e v₀ _ hr hh =>
    have hne : e ≠ .recv := by
      rintro rfl
      cases hr with
      | result he => cases he
      | other _ hiff => exact hl.1 (hiff.mpr rfl)
    cases hh with
    | stay => exact hr.rest h
    | change ha =>
      obtain ⟨hnone, hrecving⟩ := RecvState.rest_of_change ha
      rcases h with hs | hf | ⟨hs, _⟩
      · exact absurd hs hnone
      · exact hr.rest (.inr (.inl hf))
      · exact absurd hs hrecving
    | beginRecv ha => exact absurd (RecvState.beginRecv_cases ha).1 hne
    | @processPacket again o ha ho hi hf =>
      obtain ⟨rfl, hstate⟩ := RecvState.processPacket_cases ha
      have hb : o.2.state.busy = true := by
        rw [ho.keeps.1, hstate]
        cases again <;> rfl
      obtain rfl := rest_runPacket (v := (v₀.log (.dispatch .recvDone)).log
        (.processPacket 0 v₀.side.taken)) hi hf hb h
      cases hr with
      | result _ _ hitems => exact .inr (.inr ⟨hstate, hitems⟩)
      | other he => cases he

/-- An edge takes the machine away from rest. -/
theorem Step.not_rest (hs : v.Step p next .onIn v') (hf : v.frames = []) : ¬v'.Rest := by
  cases hs with
  | quiet hl => exact absurd rfl hl.1
  | event hr hh =>
    cases hr with
    | other _ hiff =>
      obtain rfl := hiff.mp rfl
      cases hh with
      | stay ha =>
        obtain ⟨hnone, hrecving⟩ := RecvState.stay_of_recv ha
        exact not_rest hf hnone fun hs => absurd hs hrecving
      | change ha =>
        obtain ⟨hnone, hrecving⟩ := RecvState.rest_of_change ha
        exact not_rest hf hnone fun hs => absurd hs hrecving
      | beginRecv ha =>
        obtain ⟨_, rfl⟩ := RecvState.beginRecv_cases ha
        exact not_rest hf (by simp [changeRecvState]) fun _ => by simp [changeRecvState, beginRecv]
      | processPacket ha => cases (RecvState.processPacket_cases ha).1

end RecvView

namespace Endpoint
variable {cfg : Config} {s s' : Endpoint cfg} {l : EndpointLabel}

/-- The worker does not run `OnRecv` for a burst that its buffer cannot hold: neither an edge
waits nor a byte arrives during the call, and the socket reports no failure. -/
def NoFullBurst (s : Endpoint cfg) (l : EndpointLabel) : Prop :=
  match l with
  | .onRecv acts => s.world.recv.state = .recving → s.edges = 0 →
      acts.all SocketAct.isRead = true → s.queue.length ≤ cfg.recvSize
  | _ => True

instance (s : Endpoint cfg) (l : EndpointLabel) : Decidable (s.NoFullBurst l) :=
  match l with
  | .onRecv _ => inferInstanceAs (Decidable (_ → _ → _ → _))
  | .arrive _ _ | .onIn _ | .other _ => isTrue trivial

/-- At rest with no edge to come, nothing is in the queue. -/
def Alert (s : Endpoint cfg) : Prop := s.world.recvView.Rest → s.edges = 0 → s.queue = []

theorem frames_onIn {w w' : World cfg} (hs : w.step .onIn = some w') :
    w.recvView.frames = [] := by
  cases World.step_cases hs with
  | detached _ hl => rcases hl with hl | ⟨_, hl⟩ <;> cases hl
  | event hr =>
    cases hr with
    | onIn hidle => simp [World.recvView, (World.idle_iff.mp hidle).1]

/-- `OnRecv` comes to rest only where it is done and no edge was seen before. -/
theorem rest_runRecv {w w' : World cfg} {rs : List RecvRes} (h : Accounts false false w)
    (hs : w.step (.runRecv rs) = some w') (hrest : w'.recvView.Rest) :
    w.recv.worked.data = [] ∧ w.recv.state = .recving ∧
      (recvLoop w.recv.worked rs).1 = .done := by
  cases World.step_cases hs with
  | event hr => cases hr
  | detached _ hl => rcases hl with hl | ⟨_, hl⟩ <;> cases hl
  | @runRecv _ ret b bytes e hx ho he =>
    obtain ⟨hi, hi'⟩ := finish_items (e := e) hx rfl (recvEvent_isRecv he).1 h.recvItems_le
    have hne : w.recvItems ≠ [] := by
      rw [World.recvItems, hi]
      simp
    rcases hrest with hs | ⟨pos, u, hframe⟩ | ⟨hs, hd⟩
    · have hbusy := h.waits (.inl hne)
      rw [show w.recvView.side.state = .recvNone from hs] at hbusy
      cases hbusy
    · have hnil := h.frames_of_item hne
      rw [show w.stack.filter Frame.isOnRecv = _ from hframe] at hnil
      cases hnil
    · refine ⟨(h.worked_nil hx).2, hs, ?_⟩
      obtain rfl : e = .recvDone := by simpa using hi'.symm.trans hd
      rw [show (recvLoop w.recv.worked rs).1 = ret from congrArg Prod.fst ho]
      cases ret <;> cases he
      rfl

theorem Alert.step (h : s.Alert) (hacc : Accounts false false s.world) (hg : s.NoFullBurst l)
    (hs : s.step l = some s') : s'.Alert := by
  cases step_cases hs with
  | arrive => exact fun _ he => absurd he (Nat.succ_ne_zero _)
  | onIn _ hw =>
    have hidle : s.world.recvView.frames = [] := frames_onIn hw
    exact fun hrest => absurd hrest ((hacc.recvView_step hw).not_rest hidle)
  | @onRecv acts rs q raised w hserve hw =>
    intro hrest he
    obtain ⟨hedges, rfl⟩ := Nat.add_eq_zero_iff.mp he
    obtain ⟨hempty, hstate, hdone⟩ := rest_runRecv hacc hw hrest
    rcases serve_empties hserve (b := s.world.recv.worked) (by simp [Buffer.offset, hempty])
      (fun hall => by simpa [Buffer.offset, hempty] using hg hstate hedges hall) with hq | herror
    · exact hq
    · rw [hdone] at herror
      cases herror
  | other hl hw =>
    exact fun hrest => h ((hacc.recvView_step hw).rest hacc.waits hl hrest)

end Endpoint

/-- As long as no burst fills the buffer of an `OnRecv` that no edge follows, a machine in
`RecvNone` with no notification on the way has nothing in the queue of its socket. -/
theorem no_lost_recv_wakeup {cfg : Config} {s : Endpoint cfg}
    (h : (endpoint cfg).Run Endpoint.NoFullBurst s) (hstate : s.world.recv.state = .recvNone)
    (hedges : s.edges = 0) : s.queue = [] := by
  have hinv : s.Alert := h.invariant_with (I := Endpoint.Alert)
    (J := fun s => Accounts false false s.world)
    (fun _ hr => Reachable.accounts (Endpoint.reachable hr)) (fun _ _ => rfl)
    (fun _ _ _ hg hacc ih hs => ih.step hacc hg hs)
  exact hinv (.inl hstate) hedges

/-- A frame comes in two bursts, the second while the first is read. -/
theorem no_lost_recv_wakeup_small : ∃ s : Endpoint .small,
    delivered s.world.trace = [1, 0, 0, 0, 9, 0, 0, 0, 7] ∧ s.queue = [] := by
  obtain ⟨s, h, hs⟩ := (endpoint .small).run_of_exec (P := Endpoint.NoFullBurst)
    [.other .ret, .arrive 1 [0, 0], .onIn 0, .other .take,
      .onRecv [.read 2, .arrive 0 [9, 0, 0, 0, 7], .read 9], .other .push, .onIn 0,
      .other .process, .other .ret, .other .take, .onRecv [], .other .push, .other .process]
    (p := fun s => s.world.recv.state == .recvNone && s.edges == 0 &&
      delivered s.world.trace == [1, 0, 0, 0, 9, 0, 0, 0, 7]) (by decide)
  simp only [Bool.and_eq_true, beq_iff_eq] at hs
  exact ⟨s, hs.2, no_lost_recv_wakeup h hs.1.1 hs.1.2⟩

/-- 19 bytes arrive at once for a buffer of 18: the last one stays behind. -/
theorem byte_left_in_queue : ∃ s : Endpoint .small, (endpoint .small).Reachable s ∧
    s.world.stack = [] ∧ s.world.worker.items = [] ∧ s.world.recv.state = .recvNone ∧
      s.edges = 0 ∧ s.queue = [0] := by
  obtain ⟨s, h, hs⟩ := (endpoint .small).run_of_exec (P := fun _ _ => True)
    [.other .ret, .arrive 1 [0, 0, 0, 12, 0, 0, 0, 0, 0, 0, 0, 1, 0, 0, 0, 12, 0, 0], .onIn 0,
      .other .take, .onRecv [.read 18], .other .push, .other .process, .other .ret]
    (p := fun s => s.world.stack.isEmpty && s.world.worker.items.isEmpty &&
      s.world.recv.state == .recvNone && s.edges == 0 && s.queue == [0]) (by decide)
  simp only [Bool.and_eq_true, beq_iff_eq, List.isEmpty_iff] at hs
  obtain ⟨⟨⟨⟨hstack, hitems⟩, hstate⟩, hedges⟩, hqueue⟩ := hs
  exact ⟨s, h, hstack, hitems, hstate, hedges, hqueue⟩

end HyperNet.Net
