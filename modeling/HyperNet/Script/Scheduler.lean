import HyperNet.Core.History
import HyperNet.Script.Co

/-! # The pool, the waits and the forks of co.lua

Every coroutine is at one point of its body at a time. The pool, the waits and the stack are
read off these points, a forked function has at most one coroutine, and each function of
co.lua that is still to resume or suspend a coroutine is the only one to do so. -/
namespace HyperNet.Script
open HyperNet.Core.History HyperNet.Core.Transition

/-- A coroutine that has its function, which has not begun yet. -/
def Point.Staged (p : Point) (f : Nat) : Prop := p = .initial f ∨ p = .staged (some f)

/-- A coroutine whose function has begun. -/
def Point.Busy (p : Point) (f : Nat) : Prop := p = .running f ∨ ∃ seq, p = .waiting f seq

theorem Point.Staged.func {p : Point} {f : Nat} (h : p.Staged f) : p.func = some f := by
  cases h with
  | inl h => rw [h]; rfl
  | inr h => rw [h]; rfl

theorem Point.Busy.func {p : Point} {f : Nat} (h : p.Busy f) : p.func = some f := by
  cases h with
  | inl h => rw [h]; rfl
  | inr h => obtain ⟨seq, h⟩ := h; rw [h]; rfl

theorem Point.Staged.not_busy {p : Point} {f : Nat} (h : p.Staged f) (g : Nat) : ¬ p.Busy g := by
  cases h with
  | inl h => rw [h]; simp [Point.Busy]
  | inr h => rw [h]; simp [Point.Busy]

/-! ## What a history says -/

section Events
variable {α : Type}

def CoEvent.suspends (seq : Int) : CoEvent α → Bool
  | .suspended seq' _ => seq' == seq
  | _ => false

def CoEvent.answers (seq : Int) : CoEvent α → Option α
  | .respone seq' a => if seq' = seq then some a else none
  | _ => none

def CoEvent.returns (seq : Int) : CoEvent α → Option (Payload α)
  | .returned seq' payload => if seq' = seq then some payload else none
  | _ => none

def CoEvent.starts (f : Nat) : CoEvent α → Option Nat
  | .start f' co => if f' = f then some co else none
  | _ => none

def CoEvent.ends (f : Nat) : CoEvent α → Bool
  | .ended f' => f' == f
  | _ => false

/-- The arguments of the first `respone` for an id after its wait has suspended. -/
def answer (seq : Int) (trace : List (CoEvent α)) : Option α :=
  ((trace.dropWhile fun e => !e.suspends seq).filterMap (CoEvent.answers seq)).head?

/-- What the waits for an id have returned. -/
def returnsOf (seq : Int) (trace : List (CoEvent α)) : List (Payload α) :=
  trace.filterMap (CoEvent.returns seq)

/-- The coroutines that a forked function has begun on. -/
def startsOf (f : Nat) (trace : List (CoEvent α)) : List Nat :=
  trace.filterMap (CoEvent.starts f)

end Events

/-! ## Points and what is read off them -/

/-- The pool holds coroutines that have finished their function. -/
structure PoolOk (pool : List Nat) (points : Nat → Point) : Prop where
  nodup : pool.Nodup
  idle : ∀ co ∈ pool, points co = .idle

namespace PoolOk
variable {pool : List Nat} {points : Nat → Point} {co : Nat}

theorem update (h : PoolOk pool points) (hco : points co ≠ .idle) (p : Point) :
    PoolOk pool (Function.update points co p) where
  nodup := h.nodup
  idle other hmem := by
    have hne : other ≠ co := fun heq => hco (heq ▸ h.idle other hmem)
    rw [Function.update_of_ne hne, h.idle other hmem]

theorem pop (h : PoolOk (co :: pool) points) (p : Point) :
    PoolOk pool (Function.update points co p) where
  nodup := h.nodup.of_cons
  idle other hmem := by
    have hne : other ≠ co := fun heq => (List.nodup_cons.mp h.nodup).1 (heq ▸ hmem)
    rw [Function.update_of_ne hne, h.idle other (List.mem_cons_of_mem _ hmem)]

theorem push (h : PoolOk pool points) (hco : points co ≠ .idle) :
    PoolOk (co :: pool) (Function.update points co .idle) where
  nodup := List.nodup_cons.mpr ⟨fun hmem => hco (h.idle co hmem), h.nodup⟩
  idle other hmem := by
    by_cases heq : other = co
    · rw [heq, Function.update_self]
    · rw [Function.update_of_ne heq]
      exact h.idle other ((List.mem_cons.mp hmem).resolve_left heq)

end PoolOk

/-- The waits are of coroutines suspended in `wait`. -/
def WaitsOk (waits : Int → Option Nat) (points : Nat → Point) : Prop :=
  ∀ seq co, waits seq = some co → ∃ f, points co = .waiting f seq

def Point.IsWaiting (p : Point) : Prop := ∃ f seq, p = .waiting f seq

namespace WaitsOk
variable {waits : Int → Option Nat} {points : Nat → Point} {co : Nat} {seq : Int}

theorem update (h : WaitsOk waits points) (hold : ¬ (points co).IsWaiting) (p : Point) :
    WaitsOk waits (Function.update points co p) := by
  intro seq other hwait
  obtain ⟨f, hf⟩ := h seq other hwait
  have hne : other ≠ co := fun heq => hold ⟨f, seq, heq ▸ hf⟩
  rw [Function.update_of_ne hne]
  exact ⟨f, hf⟩

theorem suspend (h : WaitsOk waits points) (hold : ¬ (points co).IsWaiting) (f : Nat) :
    WaitsOk (Function.update waits seq (some co))
      (Function.update points co (.waiting f seq)) := by
  intro seq' other hwait
  by_cases hseq : seq' = seq
  · rw [hseq, Function.update_self] at hwait
    cases hwait
    rw [Function.update_self, hseq]
    exact ⟨f, rfl⟩
  · rw [Function.update_of_ne hseq] at hwait
    exact h.update hold _ seq' other hwait

theorem answer (h : WaitsOk waits points) (hwait : waits seq = some co) (p : Point) :
    WaitsOk (Function.update waits seq none) (Function.update points co p) := by
  obtain ⟨f, hf⟩ := h seq co hwait
  intro seq' other hother
  by_cases hseq : seq' = seq
  · rw [hseq, Function.update_self] at hother
    cases hother
  · rw [Function.update_of_ne hseq] at hother
    obtain ⟨g, hg⟩ := h seq' other hother
    have hne : other ≠ co := by
      intro heq
      rw [heq, hf] at hg
      exact hseq (Point.waiting.inj hg).2.symm
    rw [Function.update_of_ne hne]
    exact ⟨g, hg⟩

end WaitsOk

def Point.IsRunning (p : Point) : Prop := ∃ f, p = .running f

/-- The coroutines on the stack are those that run. -/
structure StackOk (stack : List Thread) (points : Nat → Point) (calls : Nat) : Prop where
  nodup : stack.Nodup
  running : ∀ co, .co co ∈ stack ↔ (points co).IsRunning
  calls : ∀ k, .call k ∈ stack → k < calls
  bottom : ∀ co, stack.getLast? ≠ some (.co co)

theorem bottom_of_cons {t : Thread} {stack : List Thread}
    (h : ∀ co, (t :: stack).getLast? ≠ some (.co co)) : ∀ co, stack.getLast? ≠ some (.co co) := by
  intro co hlast
  refine h co ?_
  rw [List.getLast?_cons, hlast]
  rfl

namespace StackOk
variable {stack : List Thread} {points : Nat → Point} {calls co : Nat} {p : Point}

theorem update (h : StackOk stack points calls) (hold : ¬ (points co).IsRunning)
    (hnew : ¬ p.IsRunning) : StackOk stack (Function.update points co p) calls where
  nodup := h.nodup
  running other := by
    by_cases heq : other = co
    · rw [heq, Function.update_self, h.running co]
      exact ⟨fun hr => absurd hr hold, fun hr => absurd hr hnew⟩
    · rw [Function.update_of_ne heq]
      exact h.running other
  calls := h.calls
  bottom := h.bottom

theorem resume (h : StackOk stack points calls) (hne : stack ≠ [])
    (hold : ¬ (points co).IsRunning) (f : Nat) :
    StackOk (.co co :: stack) (Function.update points co (.running f)) calls where
  nodup := List.nodup_cons.mpr ⟨fun hmem => hold ((h.running co).mp hmem), h.nodup⟩
  running other := by
    by_cases heq : other = co
    · rw [heq, Function.update_self]
      exact ⟨fun _ => ⟨f, rfl⟩, fun _ => List.mem_cons_self⟩
    · rw [Function.update_of_ne heq, ← h.running other, List.mem_cons]
      exact ⟨fun hmem => hmem.resolve_left (fun hco => heq (Thread.co.inj hco)), Or.inr⟩
  calls k hmem := by
    cases List.mem_cons.mp hmem with
    | inl heq => cases heq
    | inr hmem => exact h.calls k hmem
  bottom other := by
    rw [List.getLast?_cons_of_ne_nil hne]
    exact h.bottom other

theorem pop (h : StackOk (.co co :: stack) points calls) (hnew : ¬ p.IsRunning) :
    StackOk stack (Function.update points co p) calls where
  nodup := h.nodup.of_cons
  running other := by
    have hnot := (List.nodup_cons.mp h.nodup).1
    by_cases heq : other = co
    · rw [heq, Function.update_self]
      exact ⟨fun hmem => absurd hmem hnot, fun hr => absurd hr hnew⟩
    · rw [Function.update_of_ne heq, ← h.running other, List.mem_cons]
      exact ⟨Or.inr, fun hmem => hmem.resolve_left (fun hco => heq (Thread.co.inj hco))⟩
  calls k hmem := h.calls k (List.mem_cons_of_mem _ hmem)
  bottom := bottom_of_cons h.bottom

theorem enter (h : StackOk stack points calls) :
    StackOk (.call calls :: stack) points (calls + 1) where
  nodup := List.nodup_cons.mpr ⟨fun hmem => Nat.lt_irrefl _ (h.calls calls hmem), h.nodup⟩
  running other := by
    rw [← h.running other, List.mem_cons]
    exact ⟨fun hmem => hmem.resolve_left (by simp), Or.inr⟩
  calls k hmem := by
    cases List.mem_cons.mp hmem with
    | inl heq => cases heq; exact Nat.lt_succ_self _
    | inr hmem => exact Nat.lt_succ_of_lt (h.calls k hmem)
  bottom other := by
    rw [List.getLast?_cons]
    cases hlast : stack.getLast? with
    | none => simp
    | some t =>
      have hbottom := h.bottom other
      rw [hlast] at hbottom
      exact hbottom

theorem leave {k : Nat} (h : StackOk (.call k :: stack) points calls) :
    StackOk stack points calls where
  nodup := h.nodup.of_cons
  running other := by
    rw [← h.running other, List.mem_cons]
    exact ⟨Or.inr, fun hmem => hmem.resolve_left (by simp)⟩
  calls k hmem := h.calls k (List.mem_cons_of_mem _ hmem)
  bottom := bottom_of_cons h.bottom

end StackOk

/-- A forked function has at most one coroutine. -/
structure FuncOk (points : Nat → Point) (created forks : Nat) : Prop where
  unborn : ∀ co, created ≤ co → points co = .dead
  lt : ∀ co f, (points co).func = some f → f < forks
  inj : ∀ co co' f, (points co).func = some f → (points co').func = some f → co = co'

namespace FuncOk
variable {points : Nat → Point} {created forks co : Nat} {p : Point}

/-- A coroutine that is there keeps its function, or loses it. -/
theorem update (h : FuncOk points created forks) (hco : points co ≠ .dead)
    (hp : ∀ f, p.func = some f → (points co).func = some f) :
    FuncOk (Function.update points co p) created forks where
  unborn other hle := by
    have hne : other ≠ co := fun heq => hco (heq ▸ h.unborn other hle)
    rw [Function.update_of_ne hne, h.unborn other hle]
  lt other f hf := by
    by_cases heq : other = co
    · rw [heq, Function.update_self] at hf
      exact h.lt co f (hp f hf)
    · rw [Function.update_of_ne heq] at hf
      exact h.lt other f hf
  inj a b f ha hb := by
    have hold : ∀ c, (Function.update points co p c).func = some f → (points c).func = some f := by
      intro c hc
      by_cases heq : c = co
      · rw [heq, Function.update_self] at hc
        rw [heq]
        exact hp f hc
      · rwa [Function.update_of_ne heq] at hc
    exact h.inj a b f (hold a ha) (hold b hb)

/-- A coroutine gets the next function. -/
theorem fork {created' : Nat} (h : FuncOk points created forks) (hle : created ≤ created')
    (hco : co < created') (hp : p.func = some forks) :
    FuncOk (Function.update points co p) created' (forks + 1) where
  unborn other hother := by
    rw [Function.update_of_ne (by omega), h.unborn other (by omega)]
  lt other f hf := by
    by_cases heq : other = co
    · rw [heq, Function.update_self, hp] at hf
      cases hf
      exact Nat.lt_succ_self _
    · rw [Function.update_of_ne heq] at hf
      exact Nat.lt_succ_of_lt (h.lt other f hf)
  inj a b f ha hb := by
    by_cases hf : f = forks
    · have hone : ∀ c, (Function.update points co p c).func = some f → c = co := by
        intro c hc
        by_cases heq : c = co
        · exact heq
        · rw [Function.update_of_ne heq] at hc
          exact absurd (h.lt c f hc) (by omega)
      rw [hone a ha, hone b hb]
    · have hold : ∀ c, (Function.update points co p c).func = some f → (points c).func = some f := by
        intro c hc
        by_cases heq : c = co
        · rw [heq, Function.update_self, hp] at hc
          exact absurd (Option.some.inj hc).symm hf
        · rwa [Function.update_of_ne heq] at hc
      exact h.inj a b f (hold a ha) (hold b hb)

end FuncOk

/-! ## The functions of co.lua that threads are in -/

def Frame.isForking : Frame → Bool
  | .forking _ => true
  | .waiting _ | .exiting _ _ | .raising => false

def Frame.isWaiting : Frame → Bool
  | .waiting _ => true
  | .forking _ | .exiting _ _ | .raising => false

/-- A thread's functions of one kind are among those it was in before. -/
theorem mem_of_replace {p : Frame → Bool} {frames : Thread → List Frame} {t t' : Thread}
    {frame : Frame} {rest : List Frame} (hsub : (rest.filter p).Sublist ((frames t).filter p))
    (hp : p frame = true) (hmem : frame ∈ Function.update frames t rest t') :
    frame ∈ frames t' := by
  by_cases heq : t' = t
  · rw [heq, Function.update_self] at hmem
    rw [heq]
    exact (List.mem_filter.mp (hsub.subset (List.mem_filter.mpr ⟨hmem, hp⟩))).1
  · rwa [Function.update_of_ne heq] at hmem

theorem mem_of_sub {frames : Thread → List Frame} {t t' : Thread} {frame : Frame}
    {rest : List Frame} (hsub : rest.Sublist (frames t))
    (hmem : frame ∈ Function.update frames t rest t') : frame ∈ frames t' :=
  mem_of_replace (hsub.filter fun _ => true) rfl hmem

theorem mem_push {frames : Thread → List Frame} {t t' : Thread} {frame new : Frame}
    (hmem : frame ∈ frames t') : frame ∈ Function.update frames t (new :: frames t) t' := by
  by_cases heq : t' = t
  · rw [heq, Function.update_self]
    exact List.mem_cons_of_mem _ (heq ▸ hmem)
  · rwa [Function.update_of_ne heq]

theorem mem_of_push {frames : Thread → List Frame} {t t' : Thread} {frame new : Frame}
    (hne : frame ≠ new) (hmem : frame ∈ Function.update frames t (new :: frames t) t') :
    frame ∈ frames t' := by
  by_cases heq : t' = t
  · rw [heq, Function.update_self] at hmem
    rw [heq]
    exact (List.mem_cons.mp hmem).resolve_left hne
  · rwa [Function.update_of_ne heq] at hmem

/-- Each of one kind is there once. -/
structure Once (p : Frame → Bool) (frames : Thread → List Frame) : Prop where
  nodup : ∀ t, ((frames t).filter p).Nodup
  apart : ∀ t t' frame, p frame = true → frame ∈ frames t → frame ∈ frames t' → t = t'

namespace Once
variable {p : Frame → Bool} {frames : Thread → List Frame} {t : Thread} {frame : Frame}
  {rest : List Frame}

theorem replace (h : Once p frames)
    (hsub : (rest.filter p).Sublist ((frames t).filter p)) :
    Once p (Function.update frames t rest) where
  nodup t' := by
    by_cases heq : t' = t
    · rw [heq, Function.update_self]
      exact (h.nodup t).sublist hsub
    · rw [Function.update_of_ne heq]
      exact h.nodup t'
  apart a b frame hp ha hb :=
    h.apart a b frame hp (mem_of_replace hsub hp ha) (mem_of_replace hsub hp hb)

theorem sub (h : Once p frames) (hsub : rest.Sublist (frames t)) :
    Once p (Function.update frames t rest) := h.replace (hsub.filter _)

theorem push (h : Once p frames) (hnew : ∀ t', frame ∉ frames t') :
    Once p (Function.update frames t (frame :: frames t)) where
  nodup t' := by
    by_cases heq : t' = t
    · rw [heq, Function.update_self]
      cases hp : p frame with
      | true =>
        rw [List.filter_cons_of_pos hp]
        exact List.nodup_cons.mpr ⟨fun hmem => hnew t (List.mem_filter.mp hmem).1, h.nodup t⟩
      | false =>
        rw [List.filter_cons_of_neg (by rw [hp]; simp)]
        exact h.nodup t
    · rw [Function.update_of_ne heq]
      exact h.nodup t'
  apart a b other hp ha hb := by
    have hold : ∀ c, other ∈ Function.update frames t (frame :: frames t) c →
        other ∈ frames c ∨ other = frame ∧ c = t := by
      intro c hc
      by_cases heq : c = t
      · rw [heq, Function.update_self] at hc
        cases List.mem_cons.mp hc with
        | inl hframe => exact Or.inr ⟨hframe, heq⟩
        | inr hmem => exact Or.inl (heq ▸ hmem)
      · rw [Function.update_of_ne heq] at hc
        exact Or.inl hc
    by_cases heq : other = frame
    · have hone : ∀ c, other ∈ Function.update frames t (frame :: frames t) c → c = t := by
        intro c hc
        cases hold c hc with
        | inl hmem => exact absurd (heq ▸ hmem) (hnew c)
        | inr hboth => exact hboth.2
      rw [hone a ha, hone b hb]
    · exact h.apart a b other hp ((hold a ha).resolve_right fun hboth => heq hboth.1)
        ((hold b hb).resolve_right fun hboth => heq hboth.1)

theorem pass (h : Once p frames) (hp : p frame = false) :
    Once p (Function.update frames t (frame :: frames t)) := by
  refine h.replace ?_
  rw [List.filter_cons_of_neg (by rw [hp]; simp)]

/-- Once it is left it is nowhere. -/
theorem gone (h : Once p frames) (hframes : frames t = frame :: rest) (hp : p frame = true)
    (t' : Thread) : frame ∉ Function.update frames t rest t' := by
  have hnodup := h.nodup t
  rw [hframes, List.filter_cons_of_pos hp, List.nodup_cons] at hnodup
  have hhere : frame ∈ frames t := by rw [hframes]; exact List.mem_cons_self
  intro hmem
  by_cases heq : t' = t
  · rw [heq, Function.update_self] at hmem
    exact hnodup.1 (List.mem_filter.mpr ⟨hmem, hp⟩)
  · rw [Function.update_of_ne heq] at hmem
    exact heq (h.apart t' t frame hp hmem hhere)

end Once

/-- A thread that is in `fork` has a coroutine to resume. -/
def StagedOk (frames : Thread → List Frame) (points : Nat → Point) : Prop :=
  ∀ t co, .forking co ∈ frames t → ∃ f, (points co).Staged f

namespace StagedOk
variable {frames : Thread → List Frame} {points : Nat → Point} {co : Nat} {p : Point}

theorem replace {t : Thread} {rest : List Frame} (h : StagedOk frames points)
    (hsub : (rest.filter Frame.isForking).Sublist ((frames t).filter Frame.isForking)) :
    StagedOk (Function.update frames t rest) points :=
  fun t' co hmem => h t' co (mem_of_replace hsub rfl hmem)

theorem sub {t : Thread} {rest : List Frame} (h : StagedOk frames points)
    (hsub : rest.Sublist (frames t)) : StagedOk (Function.update frames t rest) points :=
  h.replace (hsub.filter _)

theorem update (h : StagedOk frames points) (hnot : ∀ t, .forking co ∉ frames t) (p : Point) :
    StagedOk frames (Function.update points co p) := by
  intro t other hmem
  have hne : other ≠ co := fun heq => hnot t (heq ▸ hmem)
  rw [Function.update_of_ne hne]
  exact h t other hmem

theorem push {frame : Frame} (h : StagedOk frames points) (t : Thread)
    (hframe : ∀ co, frame ≠ .forking co) :
    StagedOk (Function.update frames t (frame :: frames t)) points :=
  fun t' co hmem => h t' co (mem_of_push (hframe co).symm hmem)

/-- A thread comes to be in `fork` with a coroutine that is staged. -/
theorem fork {f : Nat} (h : StagedOk frames points) (hp : p.Staged f) (t : Thread) :
    StagedOk (Function.update frames t (.forking co :: frames t))
      (Function.update points co p) := by
  intro t' co' hmem
  by_cases hco : co' = co
  · rw [hco, Function.update_self]
    exact ⟨f, hp⟩
  · rw [Function.update_of_ne hco]
    exact h t' co' (mem_of_push (fun hframe => hco (Frame.forking.inj hframe)) hmem)

/-- A coroutine that is not staged is not to be resumed by a fork. -/
theorem not_forking (h : StagedOk frames points) (hco : ∀ f, ¬ (points co).Staged f) (t : Thread) :
    .forking co ∉ frames t := by
  intro hmem
  obtain ⟨f, hf⟩ := h t co hmem
  exact hco f hf

end StagedOk

/-! ## The moves -/

section Moves
variable {α : Type}

/-- What holds of the state of co.lua apart from its history. -/
structure Sound (s : Scheduler α) : Prop where
  pool : PoolOk s.coroutinePool s.points
  waits : WaitsOk s.waitSequence s.points
  stack : StackOk s.stack s.points s.calls
  func : FuncOk s.points s.created s.forks
  once : Once Frame.isForking s.frames
  staged : StagedOk s.frames s.points

/-- What a label does in a sound state. -/
inductive Moves (s : Scheduler α) : CoLabel α → Scheduler α → Prop
  | enter : Moves s .enter { s with stack := .call s.calls :: s.stack, calls := s.calls + 1 }
  | leave {k : Nat} {rest : List Thread} (hstack : s.stack = .call k :: rest) :
      Moves s .leave { s with stack := rest }
  | forkNew {t : Thread} (hactive : s.active = some t) (hpool : s.coroutinePool = []) :
      Moves s .fork (({ s.setPoint s.created (.initial s.forks) with
        created := s.created + 1
        forks := s.forks + 1 } : Scheduler α).push t (.forking s.created))
  | forkPooled {t : Thread} {co : Nat} {pool : List Nat} (hactive : s.active = some t)
      (hpool : s.coroutinePool = co :: pool) :
      Moves s .fork ((({ s with
        coroutinePool := pool
        forks := s.forks + 1 } : Scheduler α).setPoint co
          (.staged (some s.forks))).push t (.forking co))
  | start {t : Thread} {co f : Nat} {frames : List Frame} (hstack : s.stack ≠ [])
      (hframes : s.frames t = .forking co :: frames)
      (hpoint : (s.points co).Staged f) :
      Moves s .created { ((s.setFrames t frames).setPoint co (.running f)).log [.start f co] with
        stack := .co co :: s.stack }
  | ignore {seq : Int} {a : α} (hwait : s.waitSequence seq = none) :
      Moves s (.respone seq a) (s.log [.respone seq a])
  | answer {seq : Int} {a : α} {co f : Nat} (hstack : s.stack ≠ [])
      (hwait : s.waitSequence seq = some co) (hpoint : s.points co = .waiting f seq) :
      Moves s (.respone seq a) { (((s.log [.respone seq a]).setWait seq none).setPoint co
        (.running f)).log [.returned seq (.args a)] with stack := .co co :: s.stack }
  | createSequence : Moves s .createSequence s.createSequence.2
  | wait {t : Thread} : Moves s .wait (s.createSequence.2.push t (.waiting s.createSequence.1))
  | yield {n f : Nat} {below : List Thread} {seq : Int} {frames : List Frame}
      (hstack : s.stack = .co n :: below) (hframes : s.frames (.co n) = .waiting seq :: frames)
      (hpoint : s.points n = .running f) :
      Moves s .yield { (((s.setFrames (.co n) frames).setPoint n (.waiting f seq)).setWait seq
        (some n)).log [.suspended seq n] with stack := below }
  /-- A thread leaves a function of co.lua, or goes on to raise an error. -/
  | settle {l : CoLabel α} {t : Thread} {frames : List Frame} (hl : l = .yield ∨ l = .listened)
      (hfilter : ∀ p : Frame → Bool, p .raising = false →
        (frames.filter p).Sublist ((s.frames t).filter p))
      (hforking : ∀ co, .forking co ∈ s.frames t → .forking co ∈ frames) :
      Moves s l (s.setFrames t frames)
  | finish {n f : Nat} {t : Thread} {rest : List Thread} (hstack : s.stack = .co n :: t :: rest)
      (hpoint : s.points n = .running f) :
      Moves s .finish { ((s.setPoint n .idle).push t (.exiting n false)).log [.ended f] with
        coroutinePool := n :: s.coroutinePool
        stack := t :: rest }
  | throwCall {k : Nat} {rest : List Thread} (hstack : s.stack = .call k :: rest) :
      Moves s .throw { (s.setFrames (.call k) []).log (Scheduler.droppedBy (s.frames (.call k))) with
        stack := rest }
  | throwCo {n f : Nat} {t : Thread} {rest : List Thread} (hstack : s.stack = .co n :: t :: rest)
      (hpoint : s.points n = .running f) :
      Moves s .throw { (((s.setPoint n .dead).setFrames (.co n) []).push t (.exiting n true)).log
        (Scheduler.droppedBy (s.frames (.co n)) ++ [.ended f]) with stack := t :: rest }
  | caught {t : Thread} {n : Nat} : Moves s (.caught n) ((s.setFrames t ((s.frames t).drop n)).log
      (Scheduler.droppedBy ((s.frames t).take n)))

theorem createCo_cases {s : Scheduler α} (h : Sound s) {co : Nat} {s' : Scheduler α}
    (hs : s.createCo = some (co, s')) :
    (s.coroutinePool = [] ∧ co = s.created ∧ s' = { s.setPoint s.created (.initial s.forks) with
        created := s.created + 1
        forks := s.forks + 1 }) ∨
      ∃ pool, s.coroutinePool = co :: pool ∧ s' = ({ s with
        coroutinePool := pool
        forks := s.forks + 1 } : Scheduler α).setPoint co (.staged (some s.forks)) := by
  unfold Scheduler.createCo at hs
  cases hpool : s.coroutinePool with
  | nil =>
    rw [hpool] at hs
    cases hs
    exact Or.inl ⟨rfl, rfl, rfl⟩
  | cons n pool =>
    have hidle : s.points n = .idle := h.pool.idle n (by rw [hpool]; exact List.mem_cons_self)
    rw [hpool] at hs
    simp only [Scheduler.resume, hidle] at hs
    cases hs
    exact Or.inr ⟨pool, rfl, rfl⟩

theorem leave_moves {s t : Scheduler α} (hs : s.step .leave = some t) : Moves s .leave t := by
  simp only [Scheduler.step] at hs
  split at hs
  · next k rest hstack =>
    split at hs
    · cases hs
      exact .leave hstack
    · cases hs
  · cases hs

theorem created_moves {s t : Scheduler α} (h : Sound s) (hs : s.step .created = some t) :
    Moves s .created t := by
  simp only [Scheduler.step] at hs
  split at hs
  · cases hs
  · next t' rest hstack =>
    split at hs
    · next co frames hframes =>
      obtain ⟨f, hf⟩ := h.staged t' co (by rw [hframes]; exact List.mem_cons_self)
      have hresume : ((s.setFrames t' frames).resume co .none) =
          ({ ((s.setFrames t' frames).setPoint co (.running f)).log [.start f co] with
            stack := .co co :: s.stack }, none) := by
        cases hf with
        | inl hf => simp only [Scheduler.resume, Scheduler.setFrames, hf]
        | inr hf => simp only [Scheduler.resume, Scheduler.setFrames, hf]
      rw [hresume] at hs
      cases hs
      exact .start (by rw [hstack]; simp) hframes hf
    · cases hs

theorem respone_moves {s t : Scheduler α} (h : Sound s) {seq : Int} {a : α}
    (hs : s.step (.respone seq a) = some t) : Moves s (.respone seq a) t := by
  obtain ⟨t', hactive, hs⟩ := Option.bind_eq_some_iff.mp hs
  have hstack : s.stack ≠ [] := fun hnil => by simp [Scheduler.active, hnil] at hactive
  cases hwait : s.waitSequence seq with
  | none =>
    simp only [Scheduler.log, hwait] at hs
    cases hs
    exact .ignore hwait
  | some co =>
    obtain ⟨f, hf⟩ := h.waits seq co hwait
    simp only [Scheduler.log, hwait, Scheduler.setWait, Scheduler.resume, hf,
      Scheduler.coSuspend] at hs
    cases hs
    exact .answer hstack hwait hf

/-- A function of co.lua raises an error, in place of its frame. -/
theorem raising_moves {s : Scheduler α} {l : CoLabel α} {t : Thread} {frame : Frame}
    {frames : List Frame} (hl : l = .yield ∨ l = .listened) (hframes : s.frames t = frame :: frames)
    (hframe : ∀ co, frame ≠ .forking co) : Moves s l (s.setFrames t (.raising :: frames)) := by
  refine .settle hl ?_ ?_
  · intro p hp
    rw [hframes, List.filter_cons_of_neg (by rw [hp]; simp)]
    exact (List.sublist_cons_self _ _).filter p
  · intro co hmem
    rw [hframes] at hmem
    exact List.mem_cons_of_mem _ ((List.mem_cons.mp hmem).resolve_left (hframe co).symm)

theorem yield_moves {s t : Scheduler α} (hs : s.step .yield = some t) : Moves s .yield t := by
  simp only [Scheduler.step] at hs
  split at hs
  · cases hs
  · next t' rest hstack =>
    split at hs
    · next seq frames hframes =>
      split at hs
      · next k rest =>
        cases hs
        exact raising_moves (Or.inl rfl) hframes nofun
      · cases hs
      · next n below hbelow =>
        split at hs
        · next f hf =>
          cases hs
          exact .yield hstack hframes hf
        · cases hs
    · cases hs

theorem listened_moves {s t : Scheduler α} (hs : s.step .listened = some t) :
    Moves s .listened t := by
  simp only [Scheduler.step] at hs
  split at hs
  · cases hs
  · next t' rest hstack =>
    split at hs
    · next co frames hframes =>
      cases hs
      refine .settle (Or.inr rfl) ?_ ?_
      · intro p _
        rw [hframes]
        exact (List.sublist_cons_self _ _).filter p
      · intro co' hmem
        rw [hframes] at hmem
        exact (List.mem_cons.mp hmem).resolve_left (by simp)
    · next co frames hframes =>
      cases hs
      exact raising_moves (Or.inr rfl) hframes nofun
    · cases hs

theorem finish_moves {s t : Scheduler α} (hs : s.step .finish = some t) : Moves s .finish t := by
  simp only [Scheduler.step] at hs
  split at hs
  · next n t' rest hstack =>
    split at hs
    · split at hs
      · next f hf =>
        cases hs
        exact .finish hstack hf
      · cases hs
    · cases hs
  · cases hs

theorem throw_moves {s t : Scheduler α} (hs : s.step .throw = some t) : Moves s .throw t := by
  simp only [Scheduler.step] at hs
  split at hs
  · cases hs
  · next k rest hstack =>
    cases hs
    exact .throwCall hstack
  · cases hs
  · next n t' rest hstack =>
    split at hs
    · next f hf =>
      cases hs
      exact .throwCo hstack hf
    · cases hs

/-- Every step is one of these. -/
theorem step_cases {s t : Scheduler α} {l : CoLabel α} (h : Sound s) (hs : s.step l = some t) :
    Moves s l t := by
  cases l with
  | enter => cases hs; exact .enter
  | leave => exact leave_moves hs
  | fork =>
    obtain ⟨t', hactive, hs⟩ := Option.bind_eq_some_iff.mp hs
    obtain ⟨⟨co, s'⟩, hco, hs⟩ := Option.bind_eq_some_iff.mp hs
    cases hs
    rcases createCo_cases h hco with ⟨hpool, rfl, rfl⟩ | ⟨pool, hpool, rfl⟩
    · exact .forkNew hactive hpool
    · exact .forkPooled hactive hpool
  | created => exact created_moves h hs
  | respone seq a => exact respone_moves h hs
  | createSequence =>
    obtain ⟨t', _, hs⟩ := Option.bind_eq_some_iff.mp hs
    cases hs
    exact .createSequence
  | wait =>
    obtain ⟨t', _, hs⟩ := Option.bind_eq_some_iff.mp hs
    cases hs
    exact .wait
  | yield => exact yield_moves hs
  | listened => exact listened_moves hs
  | finish => exact finish_moves hs
  | throw => exact throw_moves hs
  | caught n =>
    simp only [Scheduler.step] at hs
    split at hs
    · cases hs
    · next t' rest hstack =>
      split at hs
      · cases hs
        exact .caught
      · cases hs

/-- The ids of waits are only used up. -/
theorem Moves.sequences_le {s t : Scheduler α} {l : CoLabel α} (hmove : Moves s l t) :
    s.sequences ≤ t.sequences := by
  cases hmove with
  | createSequence => exact Nat.le_succ _
  | wait => exact Nat.le_succ _
  | _ => exact Nat.le_refl _

/-- A function that has begun stays on its coroutine until it ends. -/
theorem Moves.busy {s t : Scheduler α} {l : CoLabel α} (h : Sound s) (hmove : Moves s l t) {co f : Nat}
    (hbusy : (s.points co).Busy f) :
    (t.points co).Busy f ∨ ∃ rest, s.stack = .co co :: rest ∧ (l = .finish ∨ l = .throw) := by
  have hother : ∀ {other : Nat}, co ≠ other → ∀ p : Point,
      (Function.update s.points other p co).Busy f := by
    intro other hne p
    rwa [Function.update_of_ne hne]
  have haway : ∀ {other : Nat}, (∀ g, ¬ (s.points other).Busy g) → ∀ p : Point,
      (Function.update s.points other p co).Busy f :=
    fun hnot => hother fun heq => hnot f (heq ▸ hbusy)
  cases hmove with
  | enter => exact Or.inl hbusy
  | leave hstack => exact Or.inl hbusy
  | forkNew hactive hpool =>
    refine Or.inl (haway (fun g hg => ?_) _)
    have hfunc := hg.func
    rw [h.func.unborn _ (Nat.le_refl _)] at hfunc
    cases hfunc
  | @forkPooled _ other pool hactive hpool =>
    refine Or.inl (haway (fun g hg => ?_) _)
    have hfunc := hg.func
    rw [h.pool.idle other (by rw [hpool]; exact List.mem_cons_self)] at hfunc
    cases hfunc
  | start hstack hframes hpoint => exact Or.inl (haway (fun g => hpoint.not_busy g) _)
  | ignore hwait => exact Or.inl hbusy
  | @answer seq a other g hstack hwait hpoint =>
    refine Or.inl ?_
    by_cases heq : co = other
    · have hfunc := hbusy.func
      rw [heq, hpoint] at hfunc
      cases hfunc
      rw [heq]
      exact Or.inl (Function.update_self _ _ _)
    · exact hother heq _
  | createSequence => exact Or.inl hbusy
  | wait => exact Or.inl hbusy
  | @yield n g below seq frames hstack hframes hpoint =>
    refine Or.inl ?_
    by_cases heq : co = n
    · have hfunc := hbusy.func
      rw [heq, hpoint] at hfunc
      cases hfunc
      rw [heq]
      exact Or.inr ⟨seq, Function.update_self _ _ _⟩
    · exact hother heq _
  | settle hl hfilter hforking => exact Or.inl hbusy
  | @finish n g t' rest hstack hpoint =>
    by_cases heq : co = n
    · exact Or.inr ⟨t' :: rest, by rw [hstack, heq], Or.inl rfl⟩
    · exact Or.inl (hother heq _)
  | throwCall hstack => exact Or.inl hbusy
  | @throwCo n g t' rest hstack hpoint =>
    by_cases heq : co = n
    · exact Or.inr ⟨t' :: rest, by rw [hstack, heq], Or.inr rfl⟩
    · exact Or.inl (hother heq _)
  | caught => exact Or.inl hbusy

theorem Moves.forks {s t : Scheduler α} {l : CoLabel α} (hmove : Moves s l t) :
    s.forks ≤ t.forks := by
  cases hmove with
  | forkNew hactive hpool => exact Nat.le_succ _
  | forkPooled hactive hpool => exact Nat.le_succ _
  | enter => exact Nat.le_refl _
  | leave hstack => exact Nat.le_refl _
  | start hstack hframes hpoint => exact Nat.le_refl _
  | ignore hwait => exact Nat.le_refl _
  | answer hstack hwait hpoint => exact Nat.le_refl _
  | createSequence => exact Nat.le_refl _
  | wait => exact Nat.le_refl _
  | yield hstack hframes hpoint => exact Nat.le_refl _
  | settle hl hfilter hforking => exact Nat.le_refl _
  | finish hstack hpoint => exact Nat.le_refl _
  | throwCall hstack => exact Nat.le_refl _
  | throwCo hstack hpoint => exact Nat.le_refl _
  | caught => exact Nat.le_refl _

theorem Point.Staged.away {p : Point} {f : Nat} (h : p.Staged f) :
    p ≠ .idle ∧ p ≠ .dead ∧ ¬ p.IsWaiting ∧ ¬ p.IsRunning := by
  cases h with
  | inl h => rw [h]; simp [Point.IsWaiting, Point.IsRunning]
  | inr h => rw [h]; simp [Point.IsWaiting, Point.IsRunning]

theorem not_waiting_running (f : Nat) : ¬ (Point.running f).IsWaiting := by
  simp [Point.IsWaiting]

theorem not_running_waiting (f : Nat) (seq : Int) : ¬ (Point.waiting f seq).IsRunning := by
  simp [Point.IsRunning]

namespace Sound
variable {s t : Scheduler α} {l : CoLabel α}

theorem lt_created (h : Sound s) {co : Nat} (hco : s.points co ≠ .dead) : co < s.created := by
  by_cases hlt : co < s.created
  · exact hlt
  · exact absurd (h.func.unborn co (Nat.le_of_not_lt hlt)) hco

theorem init : Sound (Scheduler.init : Scheduler α) where
  pool := ⟨List.nodup_nil, fun co hmem => absurd hmem List.not_mem_nil⟩
  waits seq co hwait := absurd hwait (by simp [Scheduler.init])
  stack := ⟨List.nodup_nil, fun co => by simp [Scheduler.init, Point.IsRunning],
    fun k hmem => absurd hmem List.not_mem_nil, fun co => by simp [Scheduler.init]⟩
  func := ⟨fun co _ => rfl, fun co f h => absurd h (by simp [Scheduler.init, Point.func]),
    fun co co' f h => absurd h (by simp [Scheduler.init, Point.func])⟩
  once := ⟨fun t => List.nodup_nil, fun t t' frame _ hmem => absurd hmem List.not_mem_nil⟩
  staged t co hmem := absurd hmem List.not_mem_nil

theorem enter (h : Sound s) :
    Sound { s with stack := .call s.calls :: s.stack, calls := s.calls + 1 } :=
  ⟨h.pool, h.waits, h.stack.enter, h.func, h.once, h.staged⟩

theorem leave (h : Sound s) {k : Nat} {rest : List Thread} (hstack : s.stack = .call k :: rest) :
    Sound { s with stack := rest } := by
  have hok := h.stack
  rw [hstack] at hok
  exact ⟨h.pool, h.waits, hok.leave, h.func, h.once, h.staged⟩

theorem log (h : Sound s) (events : List (CoEvent α)) : Sound (s.log events) :=
  ⟨h.pool, h.waits, h.stack, h.func, h.once, h.staged⟩

/-- A new coroutine gets the next function. -/
theorem forkNew (h : Sound s) (t : Thread) :
    Sound (({ s.setPoint s.created (.initial s.forks) with
      created := s.created + 1
      forks := s.forks + 1 } : Scheduler α).push t (.forking s.created)) := by
  have hdead : s.points s.created = .dead := h.func.unborn _ (Nat.le_refl _)
  have hnot : ∀ t', Frame.forking s.created ∉ s.frames t' :=
    h.staged.not_forking (fun f hf => hf.away.2.1 hdead)
  refine ⟨?_, ?_, ?_, ?_, h.once.push hnot, ?_⟩
  · exact h.pool.update (by rw [hdead]; simp) _
  · exact h.waits.update (by rw [hdead]; simp [Point.IsWaiting]) _
  · exact h.stack.update (by rw [hdead]; simp [Point.IsRunning]) (by simp [Point.IsRunning])
  · exact h.func.fork (Nat.le_succ _) (Nat.lt_succ_self _) rfl
  · exact h.staged.fork (Or.inl rfl) t

/-- A coroutine of the pool gets it. -/
theorem forkPooled (h : Sound s) {co : Nat} {pool : List Nat} (hpool : s.coroutinePool = co :: pool)
    (t : Thread) :
    Sound ((({ s with
      coroutinePool := pool
      forks := s.forks + 1 } : Scheduler α).setPoint co
        (.staged (some s.forks))).push t (.forking co)) := by
  have hok := h.pool
  rw [hpool] at hok
  have hidle : s.points co = .idle := hok.idle co List.mem_cons_self
  have hnot : ∀ t', Frame.forking co ∉ s.frames t' :=
    h.staged.not_forking (fun f hf => hf.away.1 hidle)
  refine ⟨hok.pop _, ?_, ?_, ?_, h.once.push hnot, ?_⟩
  · exact h.waits.update (by rw [hidle]; simp [Point.IsWaiting]) _
  · exact h.stack.update (by rw [hidle]; simp [Point.IsRunning]) (by simp [Point.IsRunning])
  · exact h.func.fork (Nat.le_refl _) (h.lt_created (by rw [hidle]; simp)) rfl
  · exact h.staged.fork (Or.inr rfl) t

theorem start (h : Sound s) {t : Thread} {co f : Nat} {frames : List Frame} (hstack : s.stack ≠ [])
    (hframes : s.frames t = .forking co :: frames) (hpoint : (s.points co).Staged f) :
    Sound { ((s.setFrames t frames).setPoint co (.running f)).log [.start f co] with
      stack := .co co :: s.stack } := by
  obtain ⟨hidle, hdead, hwaiting, hrunning⟩ := hpoint.away
  have hsub : frames.Sublist (s.frames t) := by
    rw [hframes]
    exact List.sublist_cons_self _ _
  refine ⟨h.pool.update hidle _, ?_, h.stack.resume hstack hrunning f, ?_, h.once.sub hsub, ?_⟩
  · exact h.waits.update hwaiting _
  · exact h.func.update hdead (fun g hg => by rw [hpoint.func, ← hg]; rfl)
  · exact (h.staged.sub hsub).update (h.once.gone hframes rfl) _

theorem answer (h : Sound s) {seq : Int} {a : α} {co f : Nat} (hstack : s.stack ≠ [])
    (hwait : s.waitSequence seq = some co) (hpoint : s.points co = .waiting f seq) :
    Sound { (((s.log [.respone seq a]).setWait seq none).setPoint co
      (.running f)).log [.returned seq (.args a)] with stack := .co co :: s.stack } := by
  refine ⟨h.pool.update (by rw [hpoint]; simp) _, ?_, ?_, ?_, h.once, ?_⟩
  · exact h.waits.answer hwait _
  · exact h.stack.resume hstack (by rw [hpoint]; exact not_running_waiting f seq) f
  · exact h.func.update (by rw [hpoint]; simp) (fun g hg => by rw [hpoint, ← hg]; rfl)
  · exact h.staged.update (h.staged.not_forking fun g hg =>
      hg.away.2.2.1 ⟨f, seq, hpoint⟩) _

theorem createSequence (h : Sound s) : Sound s.createSequence.2 :=
  ⟨h.pool, h.waits, h.stack, h.func, h.once, h.staged⟩

theorem wait (h : Sound s) (t : Thread) (seq : Int) :
    Sound (s.createSequence.2.push t (.waiting seq)) :=
  ⟨h.pool, h.waits, h.stack, h.func, h.once.pass rfl, h.staged.push t (by simp)⟩

theorem yield (h : Sound s) {n f : Nat} {below : List Thread} {seq : Int} {frames : List Frame}
    (hstack : s.stack = .co n :: below) (hframes : s.frames (.co n) = .waiting seq :: frames)
    (hpoint : s.points n = .running f) :
    Sound { (((s.setFrames (.co n) frames).setPoint n (.waiting f seq)).setWait seq
      (some n)).log [.suspended seq n] with stack := below } := by
  have hsub : frames.Sublist (s.frames (.co n)) := by
    rw [hframes]
    exact List.sublist_cons_self _ _
  have hok := h.stack
  rw [hstack] at hok
  refine ⟨h.pool.update (by rw [hpoint]; simp) _, ?_, ?_, ?_, h.once.sub hsub, ?_⟩
  · exact h.waits.suspend (by rw [hpoint]; exact not_waiting_running f) f
  · exact hok.pop (not_running_waiting f seq)
  · exact h.func.update (by rw [hpoint]; simp) (fun g hg => by rw [hpoint, ← hg]; rfl)
  · refine (h.staged.sub hsub).update ?_ _
    exact (h.staged.sub hsub).not_forking fun g hg => hg.away.2.2.2 ⟨f, hpoint⟩

theorem settle (h : Sound s) {t : Thread} {frames : List Frame}
    (hfilter : (frames.filter Frame.isForking).Sublist ((s.frames t).filter Frame.isForking)) :
    Sound (s.setFrames t frames) :=
  ⟨h.pool, h.waits, h.stack, h.func, h.once.replace hfilter, h.staged.replace hfilter⟩

theorem finish (h : Sound s) {n f : Nat} {t : Thread} {rest : List Thread}
    (hstack : s.stack = .co n :: t :: rest) (hpoint : s.points n = .running f) :
    Sound { ((s.setPoint n .idle).push t (.exiting n false)).log [.ended f] with
      coroutinePool := n :: s.coroutinePool
      stack := t :: rest } := by
  have hok := h.stack
  rw [hstack] at hok
  refine ⟨h.pool.push (by rw [hpoint]; simp), ?_, ?_, ?_, ?_, ?_⟩
  · exact h.waits.update (by rw [hpoint]; exact not_waiting_running f) _
  · exact hok.pop (by simp [Point.IsRunning])
  · exact h.func.update (by rw [hpoint]; simp) (fun g hg => by cases hg)
  · exact h.once.pass rfl
  · refine (h.staged.update ?_ _).push t (by simp)
    exact h.staged.not_forking fun g hg => hg.away.2.2.2 ⟨f, hpoint⟩

theorem throwCall (h : Sound s) {k : Nat} {rest : List Thread} (hstack : s.stack = .call k :: rest)
    (events : List (CoEvent α)) :
    Sound { (s.setFrames (.call k) []).log events with stack := rest } := by
  have hok := h.stack
  rw [hstack] at hok
  exact ⟨h.pool, h.waits, hok.leave, h.func, h.once.sub (List.nil_sublist _),
    h.staged.sub (List.nil_sublist _)⟩

theorem throwCo (h : Sound s) {n f : Nat} {t : Thread} {rest : List Thread}
    (hstack : s.stack = .co n :: t :: rest) (hpoint : s.points n = .running f)
    (events : List (CoEvent α)) :
    Sound { (((s.setPoint n .dead).setFrames (.co n) []).push t (.exiting n true)).log events with
      stack := t :: rest } := by
  have hok := h.stack
  rw [hstack] at hok
  have hstaged : StagedOk (Function.update s.frames (.co n) []) s.points :=
    h.staged.sub (List.nil_sublist _)
  refine ⟨h.pool.update (by rw [hpoint]; simp) _, ?_, ?_, ?_, ?_, ?_⟩
  · exact h.waits.update (by rw [hpoint]; exact not_waiting_running f) _
  · exact hok.pop (by simp [Point.IsRunning])
  · exact h.func.update (by rw [hpoint]; simp) (fun g hg => by cases hg)
  · exact (h.once.sub (List.nil_sublist _)).pass rfl
  · refine (hstaged.update ?_ _).push t (by simp)
    exact hstaged.not_forking fun g hg => hg.away.2.2.2 ⟨f, hpoint⟩

theorem caught (h : Sound s) (t : Thread) (n : Nat) (events : List (CoEvent α)) :
    Sound ((s.setFrames t ((s.frames t).drop n)).log events) :=
  ⟨h.pool, h.waits, h.stack, h.func, h.once.sub (List.drop_sublist _ _),
    h.staged.sub (List.drop_sublist _ _)⟩

/-- When `onCoCreated` returns the coroutine is resumed. -/
theorem created (h : Sound s) {t : Thread} {rest : List Thread} {co : Nat} {frames : List Frame}
    (hstack : s.stack = t :: rest) (hframes : s.frames t = .forking co :: frames) :
    ∃ f, (s.points co).Staged f ∧ s.step .created = some
      { ((s.setFrames t frames).setPoint co (.running f)).log [.start f co] with
        stack := .co co :: s.stack } := by
  obtain ⟨f, hf⟩ := h.staged t co (by rw [hframes]; exact List.mem_cons_self)
  refine ⟨f, hf, ?_⟩
  cases hf with
  | inl hf =>
    simp [Scheduler.step, hstack, hframes, Scheduler.setFrames, Scheduler.resume, hf,
      Scheduler.coSuspend, Scheduler.setPoint, Scheduler.log]
  | inr hf =>
    simp [Scheduler.step, hstack, hframes, Scheduler.setFrames, Scheduler.resume, hf,
      Scheduler.coSuspend, Scheduler.setPoint, Scheduler.log]

end Sound

end Moves

end HyperNet.Script
