import HyperNet.Net.Alone

/-! # Two engines and a connection between them

A connection of one engine and a connection of another are the two ends of a TCP connection. Both
engines have other connections, with sockets that may do anything, and serve them from the same
workers and in the same main threads. Between the two ends there is a link as of two connections
alone, so that each direction is a FIFO of packets, up to a reset by the end that closes first. -/
namespace HyperNet.Net
open HyperNet.Core.Transition

namespace Site
variable {m n : Nat} {s s' : Site m n} {c : Nat} {setup : Setup}

/-- The bytes that a step hands to the kernel for the connection. -/
def puts (c : Nat) (s : Site m n) (l : WorkersLabel) : List UInt8 :=
  (s.act c l).elim [] (s.engine.conn c).world.puts

/-- The bytes that a step gets from the kernel for the connection. -/
def gets (c : Nat) (s : Site m n) (l : WorkersLabel) : List UInt8 :=
  (s.act c l).elim [] (s.engine.conn c).world.gets

/-- A call of `::recv` for the connection returns 0. -/
def meetsEof (c : Nat) (s : Site m n) (l : WorkersLabel) : Bool :=
  (s.act c l).elim false (s.engine.conn c).world.meetsEof

/-- A step of the connection exchanges with the kernel what it does alone. -/
theorem Follows.exchanges {w : World setup.config} (h : s.Follows c setup w) {l : WorkersLabel}
    {a : Label} (hl : s.act c l = some a) :
    s.puts c l = w.puts a ∧ s.gets c l = w.gets a ∧ s.meetsEof c l = w.meetsEof a := by
  unfold Follows at h
  split at h
  · next hgone => simp [act, hgone] at hl
  · obtain ⟨_, k, hconn, _⟩ := h
    simp only [puts, gets, meetsEof, hl, Option.elim_some]
    rw [hconn]
    refine ⟨?_, ?_, ?_⟩ <;> cases a <;> rfl

end Site

/-- Two engines, and what has not come to each between a connection of the first and one of the
second. -/
structure Peers (m n m' n' : Nat) where
  left : Site m n
  right : Site m' n'
  /-- Under way, or dropped by the reset. -/
  toRight : List UInt8
  toLeft : List UInt8
  /-- An end has closed, and the other has read all that came before the reset. -/
  reset : Bool

inductive PeersLabel
  | left (l : WorkersLabel)
  | right (l : WorkersLabel)
  | reset

namespace Peers
variable {m n m' n' : Nat}

/-- The same engines the other way round. -/
def swap (s : Peers m n m' n') : Peers m' n' m n :=
  ⟨s.right, s.left, s.toLeft, s.toRight, s.reset⟩

/-- The kernel can answer connection `c` of the left engine so. -/
def Answers (c : Nat) (s : Peers m n m' n') (l : WorkersLabel) : Prop :=
  s.left.gets c l <+: s.toLeft ∧ (s.reset = true → s.left.gets c l = []) ∧
    (s.left.meetsEof c l = true → s.reset = true)

instance (c : Nat) (s : Peers m n m' n') (l : WorkersLabel) : Decidable (s.Answers c l) :=
  inferInstanceAs (Decidable (_ ∧ (_ → _) ∧ (_ → _)))

/-- A step of the left engine. -/
def stepLeft (c : Nat) (s : Peers m n m' n') (l : WorkersLabel) : Option (Peers m n m' n') :=
  if s.Answers c l then
    (s.left.step c l).map fun t => { s with
      left := t
      toRight := s.toRight ++ s.left.puts c l
      toLeft := s.toLeft.drop (s.left.gets c l).length }
  else none

def step (c d : Nat) (s : Peers m n m' n') : PeersLabel → Option (Peers m n m' n')
  | .left l => s.stepLeft c l
  | .right l => (s.swap.stepLeft d l).map swap
  | .reset => if s.left.gone || s.right.gone then some { s with reset := true } else none

/-- The step that a step of an engine is for the two ends. -/
def act (c d : Nat) (s : Peers m n m' n') : PeersLabel → Option LinkLabel
  | .left l => (s.left.act c l).map .left
  | .right l => (s.right.act d l).map .right
  | .reset => some .reset

end Peers

/-- Both engines, from where they have made the connections `c` and `d`. -/
def peers {m n m' n' : Nat} (c d : Nat) (p : Workers m n) (q : Workers m' n') :
    System (Peers m n m' n') PeersLabel :=
  ⟨⟨⟨p, false⟩, ⟨q, false⟩, [], [], false⟩, Peers.step c d⟩

/-- The two ends are in the states of the two connections of a link. -/
structure Joined {m n m' n' : Nat} (c d : Nat) (a b : Setup) (s : Peers m n m' n')
    (t : Link a.config b.config) : Prop where
  reachable : (link a.config b.config).Reachable t
  leftConsistent : s.left.engine.Consistent
  rightConsistent : s.right.engine.Consistent
  left : s.left.Follows c a t.left
  right : s.right.Follows d b t.right
  toRight : s.toRight = t.toRight
  toLeft : s.toLeft = t.toLeft
  reset : s.reset = t.reset

namespace Joined
variable {m n m' n' : Nat} {c d : Nat} {a b : Setup} {s s' : Peers m n m' n'}
  {t : Link a.config b.config} {l : WorkersLabel}

theorem swap (h : Joined c d a b s t) : Joined d c b a s.swap t.swap :=
  ⟨Link.run_swap h.reachable, h.rightConsistent, h.leftConsistent, h.right, h.left, h.toLeft,
    h.toRight, h.reset⟩

/-- A step of the left engine that is none of its end. -/
theorem silent (h : Joined c d a b s t) (hs : s.stepLeft c l = some s')
    (hl : s.left.act c l = none) : Joined c d a b s' t := by
  unfold Peers.stepLeft at hs
  split at hs
  · obtain ⟨u, hu, rfl⟩ := Option.map_eq_some_iff.mp hs
    have hnone : s.left.puts c l = [] ∧ s.left.gets c l = [] := by
      simp [Site.puts, Site.gets, hl]
    obtain ⟨p, hp, rfl⟩ := Option.map_eq_some_iff.mp hu
    refine ⟨h.reachable, h.leftConsistent.step hp, h.rightConsistent,
      h.left.silent h.leftConsistent hu hl, h.right, ?_, ?_, h.reset⟩
    · rw [hnone.1, List.append_nil]
      exact h.toRight
    · rw [hnone.2]
      exact h.toLeft
  · cases hs

/-- A step of the left end. -/
theorem step (h : Joined c d a b s t) (hs : s.stepLeft c l = some s') {k : Label}
    (hl : s.left.act c l = some k) : ∃ t', t.stepLeft k = some t' ∧ Joined c d a b s' t' := by
  unfold Peers.stepLeft at hs
  split at hs
  · next ha =>
    obtain ⟨u, hu, rfl⟩ := Option.map_eq_some_iff.mp hs
    obtain ⟨hputs, hgets, heof⟩ := h.left.exchanges hl
    obtain ⟨w, hw, hfollows⟩ :=
      h.left.step h.leftConsistent (Link.reachable_left h.reachable) hu hl
    have hanswers : t.Answers k := by
      rwa [Peers.Answers, hgets, heof, h.toLeft, h.reset] at ha
    have hstep : t.stepLeft k = some
        ⟨w, t.right, t.toRight ++ t.left.puts k, t.toLeft.drop (t.left.gets k).length,
          t.reset⟩ := by
      rw [Link.stepLeft, if_pos hanswers, hw]
      rfl
    obtain ⟨p, hp, rfl⟩ := Option.map_eq_some_iff.mp hu
    refine ⟨_, hstep, h.reachable.next (l := .left k) trivial hstep, h.leftConsistent.step hp,
      h.rightConsistent, hfollows, h.right, ?_, ?_, h.reset⟩
    · rw [hputs, h.toRight]
    · rw [hgets, h.toLeft]
  · cases hs

/-- An end that has closed resets the connection. -/
theorem reset_step (h : Joined c d a b s t) (hs : s.step c d .reset = some s') :
    ∃ t', t.step .reset = some t' ∧ Joined c d a b s' t' := by
  simp only [Peers.step] at hs
  split at hs
  · next hgone =>
    cases hs
    rw [← h.left.released, ← h.right.released] at hgone
    have hstep : t.step .reset = some { t with reset := true } := if_pos hgone
    exact ⟨_, hstep, h.reachable.next (l := .reset) trivial hstep, h.leftConsistent,
      h.rightConsistent, h.left, h.right, h.toRight, h.toLeft, rfl⟩
  · cases hs

end Joined

section
variable {m n m' n' : Nat} {p p₀ : Workers m n} {q q₀ : Workers m' n'} {c d : Nat} {a b : Setup}

/-- Whatever else the engines do, the two ends are a link. -/
theorem simulates_link (hp : p.Consistent) (hq : q.Consistent)
    (hc : p.step (.arrive c a) = some p₀) (hd : q.step (.arrive d b) = some q₀) :
    Simulates (peers c d p₀ q₀) (fun _ _ => True) (link a.config b.config) (fun _ _ => True)
      (Peers.act c d) (Joined c d a b) where
  init := ⟨.start, hp.step hc, hq.step hd, Workers.follows_arrive hp hc,
    Workers.follows_arrive hq hd, rfl, rfl, rfl⟩
  silent := by
    intro s t l s' h _ hs hl
    cases l with
    | left l => exact h.silent hs (Option.map_eq_none_iff.mp hl)
    | right l =>
      obtain ⟨u, hu, rfl⟩ := Option.map_eq_some_iff.mp hs
      exact (h.swap.silent hu (Option.map_eq_none_iff.mp hl)).swap
    | reset => cases hl
  step := by
    intro s t l s' k h _ hs hl
    refine ⟨trivial, ?_⟩
    cases l with
    | left l =>
      obtain ⟨k, hk, rfl⟩ := Option.map_eq_some_iff.mp hl
      exact h.step hs hk
    | right l =>
      obtain ⟨k, hk, rfl⟩ := Option.map_eq_some_iff.mp hl
      obtain ⟨u, hu, rfl⟩ := Option.map_eq_some_iff.mp hs
      obtain ⟨t', ht, h'⟩ := h.swap.step hu hk
      exact ⟨t'.swap, Option.map_eq_some_iff.mpr ⟨t', ht, rfl⟩, h'.swap⟩
    | reset =>
      cases hl
      exact h.reset_step hs

/-- **Every connection between two engines is a link.** From where both ends are made, the steps of
the two engines that concern them are a run of the two connections alone, whatever the other
connections of both engines do. So the session of each end is handed the beginning of what `Send` of
the other has accepted, cut where its parser cuts it, and the rest of it is on its way. -/
theorem peers_in_order (hp : (netWorkers m n).Reachable p) (hq : (netWorkers m' n').Reachable q)
    (hc : p.step (.arrive c a) = some p₀) (hd : q.step (.arrive d b) = some q₀)
    {ls : List PeersLabel} {s : Peers m n m' n'}
    (hs : (peers c d p₀ q₀).exec (fun _ _ => True) (peers c d p₀ q₀).init ls = some s) :
    ∃ t : Link a.config b.config,
      (link a.config b.config).exec (fun _ _ => True) (.init a.config b.config)
        ((peers c d p₀ q₀).acts (Peers.act c d) (peers c d p₀ q₀).init ls) = some t ∧
      s.left.Follows c a t.left ∧ s.right.Follows d b t.right ∧
      Carried t.left t.right s.toRight ∧ Carried t.right t.left s.toLeft := by
  have hsim := simulates_link (Workers.consistent hp) (Workers.consistent hq) hc hd
  obtain ⟨t, ht, h⟩ := hsim.exec hsim.init hs
  refine ⟨t, ht, h.left, h.right, ?_, ?_⟩
  · rw [h.toRight]
    exact Link.carried h.reachable
  · rw [h.toLeft]
    exact Link.carried (Link.run_swap h.reachable)

end

/-- A frame of twelve bytes comes over, while both engines serve another connection too. -/
def frameAmongOthers : List PeersLabel :=
  [.left .ret, .right .ret, .left (.send 0 [9]), .left (.send 1 [1, 0, 0, 0]), .left (.take 0),
    .left (.runSend 0 [.sent 1]), .left (.push 0), .left (.take 0), .left (.runSend 0 [.sent 4]),
    .right (.onIn 4), .left (.push 0), .right (.onIn 5), .left (.process 0), .left (.process 0),
    .left (.send 1 [12, 0, 0, 0]), .left (.take 0), .left (.runSend 0 [.sent 4]), .left (.push 0),
    .left (.process 0), .left (.send 1 [3, 0, 0, 0]), .left (.take 0), .left (.runSend 0 [.sent 4]),
    .right (.take 0), .right (.runRecv 0 [.eagain]), .right (.push 0), .right (.take 0),
    .right (.runRecv 0 [.data 1 [0, 0, 0, 12, 0, 0, 0, 3, 0, 0, 0]]), .right (.push 0),
    .right (.process 0), .right (.process 0)]

theorem peers_in_order_twelve :
    ∃ (s : Peers 4 1 4 1) (t : Link Setup.small.config Setup.small.config),
      accepted t.left.trace = Logic.twelve ∧ packets t.right.trace = [Logic.twelve] ∧
        s.left.Follows 1 .small t.left ∧ s.right.Follows 5 .small t.right ∧
        Carried t.left t.right s.toRight := by
  obtain ⟨p, hp, hs⟩ := (netWorkers 4 1).run_of_exec (P := fun _ _ => True)
    [.arrive 0 .small, .ret] (p := fun p => (p.step (.arrive 1 .small)).any fun p₀ =>
      ((netWorkers 4 1).exec (fun _ _ => True) (.init 4 1) [.arrive 4 .small, .ret]).any fun q =>
        (q.step (.arrive 5 .small)).any fun q₀ =>
          ((peers 1 5 p₀ q₀).exec (fun _ _ => True) (peers 1 5 p₀ q₀).init
            frameAmongOthers).isSome &&
          ((link Setup.small.config Setup.small.config).exec (fun _ _ => True) (.init _ _)
            ((peers 1 5 p₀ q₀).acts (Peers.act 1 5) (peers 1 5 p₀ q₀).init frameAmongOthers)).any
              fun t => accepted t.left.trace == Logic.twelve &&
                packets t.right.trace == [Logic.twelve]) (by decide)
  obtain ⟨p₀, hc, hs⟩ := (Option.any_eq_true _ _).mp hs
  obtain ⟨q, hq, hs⟩ := (Option.any_eq_true _ _).mp hs
  obtain ⟨q₀, hd, hs⟩ := (Option.any_eq_true _ _).mp hs
  rw [Bool.and_eq_true] at hs
  obtain ⟨s, hrun⟩ := Option.isSome_iff_exists.mp hs.1
  obtain ⟨t, ht, hleft, hright, hcarried, _⟩ :=
    peers_in_order hp (System.Run.exec .start hq) hc hd hrun
  rw [ht] at hs
  simp only [Option.any_some, Bool.and_eq_true, beq_iff_eq] at hs
  exact ⟨s, t, hs.2.1, hs.2.2, hleft, hright, hcarried⟩

end HyperNet.Net
