import HyperNet.Core.Simulation
import HyperNet.Net.Closing
import HyperNet.Net.Flush
import HyperNet.Net.RecvStream

/-! # Two connections and the stream between them

The two ends of a TCP connection, each with its own worker, session and interleaving. What one
worker hands to the kernel comes to the other end in order and in any pieces. Errors of a socket may
come at any time.

Every socket is set to a hard close (`SetHardClose`: it lingers for no time), so `::close` resets
the connection. What is under way is dropped; what has come before the reset can be read at the
other end, and behind it `::recv` fails, or returns 0 where the error has been taken from the
socket before. -/
namespace HyperNet.Net
open HyperNet.Public HyperNet.Core.History HyperNet.Core.Transition

/-! ## What a step exchanges with the kernel -/

/-- The entry is no call of `::send` or `::recv`. -/
def Obs.ofMain : Obs → Bool
  | .workerRecv _ _ _ | .workerSend _ _ _ => false
  | _ => true

theorem Obs.ofMain_of_ofEvent (o : Obs) (h : o.ofEvent = true) : o.ofMain = true := by
  cases o <;> first | rfl | cases h

theorem Obs.ofMain_silent {o : Obs} (h : o.ofMain = true) :
    o.wire = [] ∧ o.received = [] := by
  cases o <;> first | exact ⟨rfl, rfl⟩ | cases h

namespace World
variable {cfg : Config} {w w' : World cfg} {l : Label}

/-- The bytes that a step hands to the kernel. -/
def puts (w : World cfg) : Label → List UInt8
  | .runSend rs => (onSend w.send.worked rs).elim [] fun (_, _, bytes) => bytes
  | _ => []

/-- The bytes that a step gets from the kernel. -/
def gets (w : World cfg) : Label → List UInt8
  | .runRecv rs => (onRecv w.recv.worked rs).2.2
  | _ => []

/-- A call of `::recv` in the step returns 0. -/
def meetsEof (w : World cfg) : Label → Bool
  | .runRecv rs => (onRecv w.recv.worked rs).1 == .close
  | _ => false

/-- A step adds to the stream what it exchanges with the kernel. -/
structure Exchanges (w : World cfg) (l : Label) (w' : World cfg) : Prop where
  wire : wire w'.trace = wire w.trace ++ w.puts l
  received : received w'.trace = received w.trace ++ w.gets l

/-- Where the main thread makes a step, nothing is exchanged. -/
theorem exchanges_of_extends (hl : (∀ rs, l ≠ .runSend rs) ∧ ∀ rs, l ≠ .runRecv rs)
    (h : Extends Obs.ofMain w.trace w'.trace) : w.Exchanges l w' := by
  have hnone : w.puts l = [] ∧ w.gets l = [] := by
    cases l with
    | runSend rs => exact absurd rfl (hl.1 rs)
    | runRecv rs => exact absurd rfl (hl.2 rs)
    | _ => exact ⟨rfl, rfl⟩
  obtain ⟨hputs, hgets⟩ := hnone
  obtain ⟨added, htrace, hadded⟩ := h
  constructor
  · rw [htrace, hputs, List.append_nil, Net.wire, List.flatMap_append,
      List.flatMap_eq_nil_iff.mpr fun o ho => (Obs.ofMain_silent (hadded o ho)).1, List.append_nil]
    rfl
  · rw [htrace, hgets, List.append_nil, Net.received, List.flatMap_append,
      List.flatMap_eq_nil_iff.mpr fun o ho => (Obs.ofMain_silent (hadded o ho)).2, List.append_nil]
    rfl

theorem step_exchanges (hs : w.step l = some w') : w.Exchanges l w' := by
  cases step_cases hs with
  | @event _ e w₀ _ hr he =>
    have hext := (onEvent_extends he).mono Obs.ofMain_of_ofEvent
    cases hr with
    | send | overflow | close =>
      exact exchanges_of_extends (by simp) (.trans (.append _ (by simp [Obs.ofMain])) hext)
    | onIn | onOut | onError | result => exact exchanges_of_extends (by simp) hext
  | detached _ hl =>
    rcases hl with rfl | ⟨context, rfl⟩ <;> exact exchanges_of_extends (by simp) .refl
  | onConnected => exact exchanges_of_extends (by simp) .refl
  | @onRecv pos u again fs =>
    exact exchanges_of_extends (by simp)
      ((runPacket_extends (w := { w with stack := fs }) again _).mono Obs.ofMain_of_ofEvent)
  | onDisconnected =>
    exact exchanges_of_extends (by simp)
      (.append _ (by simp [Obs.ofMain]))
  | onError =>
    exact exchanges_of_extends (by simp)
      (.append _ (by simp [Obs.ofMain]))
  | take | push => exact exchanges_of_extends (by simp) .refl
  | @runRecv rs ret b bytes e _ ho =>
    constructor <;> simp [Net.wire, Net.received, Obs.wire, Obs.received, puts, gets, ho]
  | @runSend rs ret b bytes e _ ho =>
    constructor <;> simp [Net.wire, Net.received, Obs.wire, Obs.received, puts, gets, ho]

/-! ## A released connection -/

theorem Ends.released (h : w.Ends w') : w'.released = w.released := by
  cases h with
  | stay hf => exact hf.released
  | close hf => exact hf.released
  | onRecv hf => exact hf.released

/-- What is released is closed. -/
theorem released_closed (h : Reachable w) : w.released = true → w.bothClosed := by
  refine h.invariant_with (J := Reachable) (I := fun w => w.released = true → w.bothClosed)
    (fun _ hr => hr) nofun ?_
  intro w l w' _ hreach ih hs
  cases step_cases hs with
  | @event _ e w₀ _ hr he =>
    intro hrel
    rw [(onEvent_ends he).released] at hrel
    refine closed_of_closed ?_ he
    cases hr <;> exact ih hrel
  | detached | take | runRecv | runSend | push | onConnected | onError => exact ih
  | @onRecv pos u again fs hst =>
    obtain ⟨_, _, _, _, hbusy⟩ := hreach.accounts.in_onRecv hst
    have hkeep := (RecvSide.parse_cases cfg.parser (pos + u) w.recv).keeps.1
    have hends := ends_runPacket (w := { w with stack := fs }) ⟨rfl, rfl, rfl, .refl⟩ again
      (o := w.recv.parse cfg.parser (pos + u)) (by rw [hkeep]; exact hbusy)
    intro hrel
    rw [hends.released] at hrel
    rw [(ih hrel).2] at hbusy
    cases hbusy
  | onDisconnected hst =>
    have hb : w.bothClosed := disconnecting_closed hreach (by rw [hst]; exact List.mem_cons_self)
    exact fun _ => hb

end World

/-- The two connections, and what has not come to each. -/
structure Link (a b : Config) where
  left : World a
  right : World b
  /-- Under way, or dropped by the reset. -/
  toRight : List UInt8
  toLeft : List UInt8
  /-- An end has closed, and the other has read all that came before the reset. -/
  reset : Bool

inductive LinkLabel
  | left (l : Label)
  | right (l : Label)
  | reset
  deriving DecidableEq

/-- The same link with the ends the other way round. -/
def LinkLabel.swap : LinkLabel → LinkLabel
  | .left l => .right l
  | .right l => .left l
  | .reset => .reset

namespace Link
variable {a b : Config}

def init (a b : Config) : Link a b := ⟨.init a, .init b, [], [], false⟩

def swap (s : Link a b) : Link b a := ⟨s.right, s.left, s.toLeft, s.toRight, s.reset⟩

/-- The kernel can answer the left end so: what is under way to it comes before the reset, and an
end of the stream only behind it. -/
def Answers (s : Link a b) (l : Label) : Prop :=
  s.left.gets l <+: s.toLeft ∧ (s.reset = true → s.left.gets l = []) ∧
    (s.left.meetsEof l = true → s.reset = true)

instance (s : Link a b) (l : Label) : Decidable (s.Answers l) :=
  inferInstanceAs (Decidable (_ ∧ (_ → _) ∧ (_ → _)))

/-- A step of the left end. -/
def stepLeft (s : Link a b) (l : Label) : Option (Link a b) :=
  if s.Answers l then
    (s.left.step l).map fun w => { s with
      left := w
      toRight := s.toRight ++ s.left.puts l
      toLeft := s.toLeft.drop (s.left.gets l).length }
  else none

def step (s : Link a b) : LinkLabel → Option (Link a b)
  | .left l => s.stepLeft l
  | .right l => (s.swap.stepLeft l).map swap
  | .reset => if s.left.released || s.right.released then some { s with reset := true } else none

end Link

/-- Both connections, from `OnConnected` on. -/
def link (a b : Config) : System (Link a b) LinkLabel := ⟨.init a b, Link.step⟩

namespace Link
variable {a b : Config} {s s' : Link a b} {l : Label} {P : Link a b → LinkLabel → Prop}

theorem stepLeft_cases (h : s.stepLeft l = some s') : s.Answers l ∧ ∃ w, s.left.step l = some w ∧
    s' = ⟨w, s.right, s.toRight ++ s.left.puts l, s.toLeft.drop (s.left.gets l).length,
      s.reset⟩ := by
  unfold stepLeft at h
  split at h
  · next ha =>
    obtain ⟨w, hw, rfl⟩ := Option.map_eq_some_iff.mp h
    exact ⟨ha, w, hw, rfl⟩
  · cases h

theorem reset_cases (h : s.step .reset = some s') : s' = { s with reset := true } := by
  simp only [step] at h
  split at h
  · cases h
    rfl
  · cases h

theorem step_swap (s : Link a b) (l : LinkLabel) : s.swap.step l.swap = (s.step l).map swap := by
  cases l with
  | left l => rfl
  | right l =>
    show s.swap.stepLeft l = ((s.swap.stepLeft l).map swap).map swap
    rw [Option.map_map]
    exact Option.map_id'.symm
  | reset =>
    simp only [step, LinkLabel.swap, swap, Bool.or_comm]
    split <;> rfl

/-- What is reached can be reached with the ends the other way round. -/
theorem run_swap (h : (link a b).Run P s) :
    (link b a).Run (fun t l => P t.swap l.swap) s.swap := by
  induction h with
  | start => exact .start
  | @next s s' l _ hp hs ih =>
    refine ih.next (l := l.swap) ?_ ((step_swap s l).trans (by rw [show s.step l = _ from hs]; rfl))
    cases l <;> exact hp

/-- The step of the left end that a step makes. -/
def actLeft (_ : Link a b) : LinkLabel → Option Label
  | .left l => some l
  | .right _ | .reset => none

/-- The left end by itself is a connection as before. -/
theorem simulates_left {Q : World a → Label → Prop}
    (hq : ∀ (s : Link a b) l, P s (.left l) → Q s.left l) :
    Simulates (link a b) P (system a) Q actLeft fun s w => s.left = w where
  init := rfl
  silent := by
    rintro s _ l s' rfl _ hs ha
    cases l with
    | left l => cases ha
    | right l =>
      obtain ⟨t, ht, rfl⟩ := Option.map_eq_some_iff.mp hs
      obtain ⟨_, w, _, rfl⟩ := stepLeft_cases ht
      rfl
    | reset =>
      obtain rfl := reset_cases hs
      rfl
  step := by
    rintro s _ l s' k rfl hp hs ha
    cases l with
    | left l =>
      cases ha
      obtain ⟨_, w, hw, rfl⟩ := stepLeft_cases hs
      exact ⟨hq s k hp, w, hw, rfl⟩
    | right l | reset => cases ha

theorem run_left (h : (link a b).Run P s) {Q : World a → Label → Prop}
    (hq : ∀ (s : Link a b) l, P s (.left l) → Q s.left l) : (system a).Run Q s.left := by
  obtain ⟨_, hw, rfl⟩ := (simulates_left hq).run h
  exact hw

theorem run_right (h : (link a b).Run P s) {Q : World b → Label → Prop}
    (hq : ∀ (s : Link a b) l, P s (.right l) → Q s.right l) : (system b).Run Q s.right :=
  run_left (run_swap h) fun t l hp => hq t.swap l hp

theorem reachable_left (h : (link a b).Reachable s) : Reachable s.left :=
  run_left h fun _ _ _ => trivial

theorem reachable_right (h : (link a b).Reachable s) : Reachable s.right :=
  run_right h fun _ _ _ => trivial

/-! ## Nothing is lost or made up on the way -/

/-- What one end has handed to the kernel is what the other has received, and what has not come. -/
theorem conserved (h : (link a b).Reachable s) :
    wire s.left.trace = received s.right.trace ++ s.toRight := by
  refine h.invariant (I := fun s => wire s.left.trace = received s.right.trace ++ s.toRight) rfl ?_
  intro s l s' _ ih hs
  cases l with
  | left l =>
    obtain ⟨_, w, hw, rfl⟩ := stepLeft_cases hs
    rw [(World.step_exchanges hw).wire, ih, List.append_assoc]
  | right l =>
    obtain ⟨t, ht, rfl⟩ := Option.map_eq_some_iff.mp hs
    obtain ⟨⟨⟨rest, hrest⟩, _⟩, u, hu, rfl⟩ := stepLeft_cases ht
    have hrest : s.right.gets l ++ rest = s.toRight := hrest
    have hu : s.right.step l = some u := hu
    change wire s.left.trace =
      received u.trace ++ s.toRight.drop (s.right.gets l).length
    rw [(World.step_exchanges hu).received, ih, ← hrest, List.drop_left, List.append_assoc]
  | reset =>
    obtain rfl := reset_cases hs
    exact ih

end Link
end HyperNet.Net
