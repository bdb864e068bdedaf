import HyperNet.Script.Told

/-! # Forks that run once and waits that return once

The invariants of the state and of the history are kept by every step, as long as the ids of
waits have not come round to the first one. -/
namespace HyperNet.Script
open HyperNet.Core.History HyperNet.Core.Transition

variable {α : Type}

/-! ## Runs -/

/-- What every step keeps. -/
structure Kept (s : Scheduler α) : Prop where
  sound : Sound s
  forks : ForksTold s.frames s.points s.forks s.trace

namespace Kept
variable {s t : Scheduler α} {l : CoLabel α}

theorem init : Kept (Scheduler.init : Scheduler α) where
  sound := .init
  forks := ⟨fun _ _ => ⟨rfl, rfl⟩, fun f hlt => absurd hlt (Nat.not_lt_zero f)⟩

theorem one (h : Kept s) {co f : Nat} (hco : (s.points co).func = some f) :
    f < s.forks ∧ ∀ co', (s.points co').func = some f → co' = co :=
  ⟨h.sound.func.lt co f hco, fun co' hco' => h.sound.func.inj co' co f hco' hco⟩

theorem start (h : Kept s) {t : Thread} {co f : Nat} {frames : List Frame} (hstack : s.stack ≠ [])
    (hframes : s.frames t = .forking co :: frames) (hpoint : (s.points co).Staged f) :
    Kept { ((s.setFrames t frames).setPoint co (.running f)).log [.start f co] with
      stack := .co co :: s.stack } := by
  obtain ⟨hlt, hinj⟩ := h.one hpoint.func
  refine ⟨h.sound.start hstack hframes hpoint, ?_⟩
  refine h.forks.change hpoint.func hlt (fun g hg => (Option.some.inj hg).symm) ?_ ?_
    ((h.forks.life f hlt).start hpoint hinj)
  · intro g hne e hmem
    rw [List.mem_singleton.mp hmem]
    exact ⟨if_neg hne.symm, rfl⟩
  · intro co' t' hne hmem
    refine Or.inl ⟨t', ?_⟩
    show _ ∈ Function.update s.frames t frames t'
    by_cases heq : t' = t
    · rw [heq, hframes] at hmem
      rw [heq, Function.update_self]
      exact (List.mem_cons.mp hmem).resolve_left fun hf => hne (Frame.forking.inj hf)
    · rwa [Function.update_of_ne heq]

theorem answer (h : Kept s) {seq : Int} {a : α} {co f : Nat} (hstack : s.stack ≠ [])
    (hwait : s.waitSequence seq = some co) (hpoint : s.points co = .waiting f seq) :
    Kept { (((s.log [.respone seq a]).setWait seq none).setPoint co
      (.running f)).log [.returned seq (.args a)] with stack := .co co :: s.stack } := by
  have hbusy : (s.points co).Busy f := Or.inr ⟨seq, hpoint⟩
  have hidle : ∀ g, ∀ e ∈ [CoEvent.respone seq a, CoEvent.returned seq (.args a)], e.Idle g := by
    intro g e hmem
    cases List.mem_cons.mp hmem with
    | inl heq => rw [heq]; exact ⟨rfl, rfl⟩
    | inr hmem => rw [List.mem_singleton.mp hmem]; exact ⟨rfl, rfl⟩
  obtain ⟨hlt, hinj⟩ := h.one hbusy.func
  refine ⟨h.sound.answer hstack hwait hpoint, ?_⟩
  show ForksTold s.frames (Function.update s.points co (.running f)) s.forks
    (s.trace ++ [.respone seq a] ++ [.returned seq (.args a)])
  rw [List.append_assoc, List.singleton_append]
  exact h.forks.change hbusy.func hlt (fun g hg => (Option.some.inj hg).symm)
    (fun g _ => hidle g) (fun co' t' _ hmem => Or.inl ⟨t', hmem⟩)
    ((h.forks.life f hlt).goOn (hidle f) hbusy (Or.inl rfl) hinj)

theorem ignore (h : Kept s) (seq : Int) (a : α) : Kept (s.log [.respone seq a]) := by
  refine ⟨h.sound.log _, h.forks.quiet ?_ ?_⟩
  · intro g e hmem
    rw [List.mem_singleton.mp hmem]
    exact ⟨rfl, rfl⟩
  · exact fun co' t' hmem => Or.inl ⟨t', hmem⟩

theorem yield (h : Kept s) {n f : Nat} {below : List Thread} {seq : Int} {frames : List Frame}
    (hstack : s.stack = .co n :: below) (hframes : s.frames (.co n) = .waiting seq :: frames)
    (hpoint : s.points n = .running f) :
    Kept { (((s.setFrames (.co n) frames).setPoint n (.waiting f seq)).setWait seq
      (some n)).log [.suspended seq n] with stack := below } := by
  have hbusy : (s.points n).Busy f := Or.inl hpoint
  have hidle : ∀ g, ∀ e ∈ [(CoEvent.suspended seq n : CoEvent α)], e.Idle g := by
    intro g e hmem
    rw [List.mem_singleton.mp hmem]
    exact ⟨rfl, rfl⟩
  obtain ⟨hlt, hinj⟩ := h.one hbusy.func
  refine ⟨h.sound.yield hstack hframes hpoint, ?_⟩
  refine h.forks.change hbusy.func hlt (fun g hg => (Option.some.inj hg).symm)
    (fun g _ => hidle g) ?_
    ((h.forks.life f hlt).goOn (hidle f) hbusy (Or.inr ⟨seq, rfl⟩) hinj)
  intro co' t' _ hmem
  refine Or.inl ⟨t', ?_⟩
  show _ ∈ Function.update s.frames (.co n) frames t'
  by_cases heq : t' = .co n
  · rw [heq, hframes] at hmem
    rw [heq, Function.update_self]
    exact (List.mem_cons.mp hmem).resolve_left (by simp)
  · rwa [Function.update_of_ne heq]

theorem settle (h : Kept s) {t : Thread} {frames : List Frame}
    (hfilter : (frames.filter Frame.isForking).Sublist ((s.frames t).filter Frame.isForking))
    (hforking : ∀ co, .forking co ∈ s.frames t → .forking co ∈ frames) :
    Kept (s.setFrames t frames) := by
  refine ⟨h.sound.settle hfilter, h.forks.still fun co t' hmem => ⟨t', ?_⟩⟩
  show _ ∈ Function.update s.frames t frames t'
  by_cases heq : t' = t
  · rw [heq, Function.update_self]
    exact hforking co (heq ▸ hmem)
  · rwa [Function.update_of_ne heq]

theorem finish (h : Kept s) {n f : Nat} {t : Thread} {rest : List Thread}
    (hstack : s.stack = .co n :: t :: rest) (hpoint : s.points n = .running f) :
    Kept { ((s.setPoint n .idle).push t (.exiting n false)).log [.ended f] with
      coroutinePool := n :: s.coroutinePool
      stack := t :: rest } := by
  have hbusy : (s.points n).Busy f := Or.inl hpoint
  obtain ⟨hlt, hinj⟩ := h.one hbusy.func
  refine ⟨h.sound.finish hstack hpoint, ?_⟩
  refine h.forks.change hbusy.func hlt (fun g hg => by cases hg) ?_
    (fun co' t' _ hmem => Or.inl ⟨t', mem_push hmem⟩)
    ((h.forks.life f hlt).finish (fun e hmem => absurd hmem List.not_mem_nil) hbusy rfl hinj)
  intro g hne e hmem
  rw [List.mem_singleton.mp hmem]
  exact ⟨rfl, beq_false_of_ne hne.symm⟩

/-- The functions that an error leaves, and the rest of them. -/
theorem left {t : Thread} {dropped rest : List Frame} (hframes : s.frames t = dropped ++ rest)
    {co : Nat} {t' : Thread} (hmem : .forking co ∈ s.frames t') :
    (∃ t', .forking co ∈ Function.update s.frames t rest t') ∨
      .dropped co ∈ Scheduler.droppedBy (α := α) dropped := by
  by_cases heq : t' = t
  · rw [heq, hframes] at hmem
    cases List.mem_append.mp hmem with
    | inl hmem => exact Or.inr (dropped_mem hmem)
    | inr hmem => exact Or.inl ⟨t, by rwa [Function.update_self]⟩
  · exact Or.inl ⟨t', by rwa [Function.update_of_ne heq]⟩

theorem throwCall (h : Kept s) {k : Nat} {rest : List Thread} (hstack : s.stack = .call k :: rest) :
    Kept { (s.setFrames (.call k) []).log (Scheduler.droppedBy (s.frames (.call k))) with
      stack := rest } := by
  refine ⟨h.sound.throwCall hstack _, h.forks.quiet (droppedBy_idle _) ?_⟩
  exact fun co t' => left (List.append_nil _).symm

theorem throwCo (h : Kept s) {n f : Nat} {t : Thread} {rest : List Thread}
    (hstack : s.stack = .co n :: t :: rest) (hpoint : s.points n = .running f) :
    Kept { (((s.setPoint n .dead).setFrames (.co n) []).push t (.exiting n true)).log
      (Scheduler.droppedBy (s.frames (.co n)) ++ [.ended f]) with stack := t :: rest } := by
  have hbusy : (s.points n).Busy f := Or.inl hpoint
  obtain ⟨hlt, hinj⟩ := h.one hbusy.func
  refine ⟨h.sound.throwCo hstack hpoint _, ?_⟩
  refine h.forks.change hbusy.func hlt (fun g hg => by cases hg) ?_ ?_
    ((h.forks.life f hlt).finish (droppedBy_idle _ f) hbusy rfl hinj)
  · intro g hne
    exact forall_snoc (droppedBy_idle _ g) ⟨rfl, beq_false_of_ne hne.symm⟩
  · intro _ t' _ hmem
    cases left (List.append_nil _).symm hmem with
    | inl hthere =>
      obtain ⟨t'', hmem⟩ := hthere
      exact Or.inl ⟨t'', mem_push hmem⟩
    | inr hdropped => exact Or.inr (List.mem_append_left _ hdropped)

theorem caught (h : Kept s) (t : Thread) (n : Nat) :
    Kept ((s.setFrames t ((s.frames t).drop n)).log
      (Scheduler.droppedBy ((s.frames t).take n))) := by
  refine ⟨h.sound.caught t n _, h.forks.quiet (droppedBy_idle _) ?_⟩
  exact fun co t' => left (List.take_append_drop n _).symm

theorem move (h : Kept s) (hmove : Moves s l t) : Kept t := by
  cases hmove with
  | enter => exact ⟨h.sound.enter, h.forks⟩
  | leave hstack => exact ⟨h.sound.leave hstack, h.forks⟩
  | @forkNew t' hactive hpool =>
    have hdead : s.points s.created = .dead := h.sound.func.unborn _ (Nat.le_refl _)
    exact ⟨h.sound.forkNew t', h.forks.fork (by rw [hdead]; rfl) (Or.inl rfl) t'⟩
  | @forkPooled t' co pool hactive hpool =>
    have hidle : s.points co = .idle := h.sound.pool.idle co (by rw [hpool]; exact List.mem_cons_self)
    exact ⟨h.sound.forkPooled hpool t', h.forks.fork (by rw [hidle]; rfl) (Or.inr rfl) t'⟩
  | start hstack hframes hpoint => exact h.start hstack hframes hpoint
  | ignore hwait => exact h.ignore _ _
  | answer hstack hwait hpoint => exact h.answer hstack hwait hpoint
  | createSequence => exact ⟨h.sound.createSequence, h.forks⟩
  | @wait t' => exact ⟨h.sound.wait t' _, h.forks.still fun co t'' hmem => ⟨t'', mem_push hmem⟩⟩
  | yield hstack hframes hpoint => exact h.yield hstack hframes hpoint
  | settle hl hfilter hforking => exact h.settle (hfilter _ rfl) hforking
  | finish hstack hpoint => exact h.finish hstack hpoint
  | throwCall hstack => exact h.throwCall hstack
  | throwCo hstack hpoint => exact h.throwCo hstack hpoint
  | caught => exact h.caught _ _

theorem step (h : Kept s) (hs : s.step l = some t) : Kept t := h.move (step_cases h.sound hs)

end Kept

theorem kept_of_reachable {s : Scheduler α} (h : (coSystem α).Reachable s) : Kept s :=
  h.invariant .init fun _ _ _ _ hk hs => hk.step hs

/-- What every step keeps of the waits until their ids come round. -/
structure Waits (s : Scheduler α) : Prop where
  next : s.nextSequenceId = sequenceId s.sequences
  once : Once Frame.isWaiting s.frames
  told : WaitsTold s.frames s.waitSequence s.sequences s.trace

namespace Waits
variable {s t : Scheduler α} {l : CoLabel α}

theorem init : Waits (Scheduler.init : Scheduler α) where
  next := rfl
  once := ⟨fun t => List.nodup_nil, fun t t' frame _ hmem => absurd hmem List.not_mem_nil⟩
  told := ⟨fun t seq hmem => absurd hmem List.not_mem_nil,
    fun seq hany => absurd hany (by simp [Scheduler.init]), fun seq => by simp [Scheduler.init],
    fun seq => rfl⟩

/-- A thread leaves functions of co.lua, and the history says nothing of waits. -/
theorem sub (h : Waits s) {t : Thread} {frames : List Frame}
    (hfilter : (frames.filter Frame.isWaiting).Sublist ((s.frames t).filter Frame.isWaiting))
    {added : List (CoEvent α)} (hadded : ∀ e ∈ added, e.ofFork = true) :
    Waits ((s.setFrames t frames).log added) :=
  ⟨h.next, h.once.replace hfilter, h.told.quiet (fun _ _ => mem_of_replace hfilter rfl) hadded⟩

/-- A thread comes to be in a function other than `wait`. -/
theorem pass (h : Waits s) {t : Thread} {frame : Frame} (hframe : frame.isWaiting = false) :
    Waits (s.push t frame) := by
  have hne : ∀ seq, Frame.waiting seq ≠ frame := fun seq heq => by
    rw [← heq] at hframe
    cases hframe
  exact ⟨h.next, h.once.pass hframe, h.told.still fun t' seq => mem_of_push (hne seq)⟩

theorem log (h : Waits s) {added : List (CoEvent α)} (hadded : ∀ e ∈ added, e.ofFork = true) :
    Waits (s.log added) :=
  ⟨h.next, h.once, h.told.quiet (fun _ _ hmem => hmem) hadded⟩

theorem yield (h : Waits s) {n f : Nat} {below : List Thread} {seq : Int} {frames : List Frame}
    (hframes : s.frames (.co n) = .waiting seq :: frames) :
    Waits { (((s.setFrames (.co n) frames).setPoint n (.waiting f seq)).setWait seq
      (some n)).log [.suspended seq n] with stack := below } := by
  have hframe : .waiting seq ∈ s.frames (.co n) := by
    rw [hframes]
    exact List.mem_cons_self
  have hsub : frames.Sublist (s.frames (.co n)) := by
    rw [hframes]
    exact List.sublist_cons_self _ _
  refine ⟨h.next, h.once.sub hsub, ?_⟩
  refine h.told.suspend hframe (fun t' seq' hmem => ⟨mem_of_sub hsub hmem, ?_⟩) n
  intro heq
  rw [heq] at hmem
  exact h.once.gone hframes rfl t' hmem

theorem move (h : Waits s) (hbound : t.sequences < 2 ^ 63) (hmove : Moves s l t) : Waits t := by
  cases hmove with
  | enter => exact ⟨h.next, h.once, h.told⟩
  | leave hstack => exact ⟨h.next, h.once, h.told⟩
  | @forkNew t' hactive hpool =>
    have hpass : Waits (s.push t' (.forking s.created)) := h.pass rfl
    exact ⟨hpass.next, hpass.once, hpass.told⟩
  | @forkPooled t' co pool hactive hpool =>
    have hpass : Waits (s.push t' (.forking co)) := h.pass rfl
    exact ⟨hpass.next, hpass.once, hpass.told⟩
  | @start t' co f frames hstack hframes hpoint =>
    have hsub : frames.Sublist (s.frames t') := by
      rw [hframes]
      exact List.sublist_cons_self _ _
    have hleft : Waits ((s.setFrames t' frames).log [.start f co]) :=
      h.sub (hsub.filter _) fun e hmem => by rw [List.mem_singleton.mp hmem]; rfl
    exact ⟨hleft.next, hleft.once, hleft.told⟩
  | @ignore seq a hwait => exact ⟨h.next, h.once, h.told.ignore hwait a⟩
  | @answer seq a co f hstack hwait hpoint =>
    exact ⟨h.next, h.once, h.told.answer (by rw [hwait]; rfl) a⟩
  | createSequence =>
    rw [createSequence_spec h.next hbound]
    exact ⟨rfl, h.once, h.told.succ⟩
  | @wait t' =>
    rw [createSequence_spec h.next hbound]
    exact ⟨rfl, h.once.push (h.told.fresh hbound).2, h.told.wait hbound t'⟩
  | yield hstack hframes hpoint => exact h.yield hframes
  | @settle _ t' frames hl hfilter hforking =>
    exact ⟨h.next, h.once.replace (hfilter _ rfl),
      h.told.still fun t'' seq => mem_of_replace (hfilter Frame.isWaiting rfl) rfl⟩
  | @finish n f t' rest hstack hpoint =>
    have hpass : Waits ((s.push t' (.exiting n false)).log [.ended f]) :=
      Waits.log (h.pass rfl) fun e hmem => by rw [List.mem_singleton.mp hmem]; rfl
    exact ⟨hpass.next, hpass.once, hpass.told⟩
  | @throwCall k rest hstack =>
    have hleft : Waits ((s.setFrames (.call k) []).log (Scheduler.droppedBy (s.frames (.call k)))) :=
      h.sub ((List.nil_sublist _).filter _) (droppedBy_ofFork _)
    exact ⟨hleft.next, hleft.once, hleft.told⟩
  | @throwCo n f t' rest hstack hpoint =>
    have hleft : Waits ((s.setFrames (.co n) []).log
        (Scheduler.droppedBy (s.frames (.co n)) ++ [.ended f])) :=
      h.sub ((List.nil_sublist _).filter _) (forall_snoc (droppedBy_ofFork _) rfl)
    have hpass : Waits (((s.setFrames (.co n) []).log
        (Scheduler.droppedBy (s.frames (.co n)) ++ [.ended f])).push t' (.exiting n true)) :=
      hleft.pass rfl
    exact ⟨hpass.next, hpass.once, hpass.told⟩
  | caught => exact h.sub ((List.drop_sublist _ _).filter _) (droppedBy_ofFork _)

end Waits

theorem waits_of_reachable {s : Scheduler α} (h : (coSystem α).Reachable s)
    (hbound : s.sequences < 2 ^ 63) : Waits s := by
  have hwaits : s.sequences < 2 ^ 63 → Waits s := by
    refine h.invariant_with (I := fun s => s.sequences < 2 ^ 63 → Waits s)
      (fun _ => kept_of_reachable) (fun _ => .init) ?_
    intro s l t _ hk ih hs hlt
    have hmove := step_cases hk.sound hs
    exact (ih (Nat.lt_of_le_of_lt hmove.sequences_le hlt)).move hlt hmove
  exact hwaits hbound

/-- Where the source goes on, the steps have an outcome. -/
structure Defined (s : Scheduler α) : Prop where
  fork : s.active ≠ none → (s.step .fork).isSome = true
  yield : ∀ t rest seq frames, s.stack = t :: rest → s.frames t = .waiting seq :: frames →
    (s.step .yield).isSome = true
  finish : ∀ n rest, s.stack = .co n :: rest → s.frames (.co n) = [] →
    (s.step .finish).isSome = true
  throw : s.stack ≠ [] → (s.step .throw).isSome = true

theorem StackOk.above {stack : List Thread} {points : Nat → Point} {calls n : Nat}
    {below : List Thread} (h : StackOk stack points calls) (hstack : stack = .co n :: below) :
    (∃ f, points n = .running f) ∧ ∃ t rest, below = t :: rest := by
  refine ⟨(h.running n).mp (by rw [hstack]; exact List.mem_cons_self), ?_⟩
  cases hbelow : below with
  | nil =>
    rw [hbelow] at hstack
    exact absurd (by rw [hstack]; rfl) (h.bottom n)
  | cons t rest => exact ⟨t, rest, rfl⟩

theorem Kept.defined {s : Scheduler α} (h : Kept s) : Defined s where
  fork hactive := by
    obtain ⟨t, ht⟩ := Option.ne_none_iff_exists'.mp hactive
    have hcreate : s.createCo.isSome = true := by
      unfold Scheduler.createCo
      cases hpool : s.coroutinePool with
      | nil => rfl
      | cons co pool =>
        have hidle : s.points co = .idle :=
          h.sound.pool.idle co (by rw [hpool]; exact List.mem_cons_self)
        simp [Scheduler.resume, hidle]
    obtain ⟨r, hr⟩ := Option.isSome_iff_exists.mp hcreate
    simp [Scheduler.step, ht, hr]
  yield t rest seq frames hstack hframes := by
    cases t with
    | call k => simp [Scheduler.step, hstack, hframes]
    | co n =>
      obtain ⟨⟨f, hf⟩, t', rest', hrest⟩ := h.sound.stack.above hstack
      simp [Scheduler.step, hstack, hframes, hf, hrest]
  finish n rest hstack hframes := by
    obtain ⟨⟨f, hf⟩, t', rest', hrest⟩ := h.sound.stack.above hstack
    simp [Scheduler.step, hstack, hframes, hf, hrest]
  throw hne := by
    cases hstack : s.stack with
    | nil => exact absurd hstack hne
    | cons t rest =>
      cases t with
      | call k => simp [Scheduler.step, hstack]
      | co n =>
        obtain ⟨⟨f, hf⟩, t', rest', hrest⟩ := h.sound.stack.above hstack
        simp [Scheduler.step, hstack, hf, hrest]

/-! ## What co.lua promises -/

/-- The fork of a function has not come to its resume: `onCoCreated` runs, or its error has left
the fork. -/
def Unresumed (s : Scheduler α) (f : Nat) : Prop :=
  startsOf f s.trace = [] ∧ ∃ co, (s.points co).Staged f ∧
    ((∃ t, .forking co ∈ s.frames t) ∨ .dropped co ∈ s.trace)

structure Orderly (s : Scheduler α) : Prop where
  poolNodup : s.coroutinePool.Nodup
  poolIdle : ∀ co ∈ s.coroutinePool, s.points co = .idle
  waitsInside : ∀ seq co, s.waitSequence seq = some co → ∃ f, s.points co = .waiting f seq
  waitsApart : ∀ seq seq' co, s.waitSequence seq = some co → s.waitSequence seq' = some co →
    seq = seq'
  disjoint : ∀ seq co, s.waitSequence seq = some co → co ∉ s.coroutinePool
  /-- A function runs once, on a coroutine that is at a point of it until it ends. -/
  once : ∀ f < s.forks, Unresumed s f ∨ ∃ co, startsOf f s.trace = [co] ∧
    (s.trace.any (CoEvent.ends f) = false → (s.points co).Busy f)
  alone : ∀ f f' co, startsOf f s.trace = [co] → startsOf f' s.trace = [co] →
    s.trace.any (CoEvent.ends f) = false → s.trace.any (CoEvent.ends f') = false → f = f'
  /-- When `onCoCreated` returns the function begins. -/
  begins : ∀ t rest co frames, s.stack = t :: rest → s.frames t = .forking co :: frames →
    ∃ f s', (s.points co).Staged f ∧ s.step .created = some s' ∧ startsOf f s'.trace = [co]
  returned : ∀ seq, returnsOf seq s.trace = (answer seq s.trace).toList.map .args
  ignored : ∀ seq a s', (s.trace.any (CoEvent.suspends seq) = true → answer seq s.trace ≠ none) →
    s.step (.respone seq a) = some s' → s' = s.log [.respone seq a]

theorem Waits.ignored {s : Scheduler α} (h : Waits s) {seq : Int} {a : α} {s' : Scheduler α}
    (hnone : s.trace.any (CoEvent.suspends seq) = true → Script.answer seq s.trace ≠ none)
    (hs : s.step (.respone seq a) = some s') : s' = s.log [.respone seq a] := by
  have hwait : s.waitSequence seq = none := by
    cases hwait : s.waitSequence seq with
    | none => rfl
    | some co =>
      obtain ⟨hany, hanswer⟩ := (h.told.isOpen seq).mp (by rw [hwait]; rfl)
      exact absurd hanswer (hnone hany)
  obtain ⟨t, _, hs⟩ := Option.bind_eq_some_iff.mp hs
  simp only [Scheduler.log, hwait] at hs
  exact (Option.some.inj hs).symm

namespace Kept
variable {s : Scheduler α}

theorem alone (h : Kept s) {f f' co : Nat} (hf : startsOf f s.trace = [co])
    (hf' : startsOf f' s.trace = [co]) (hends : s.trace.any (CoEvent.ends f) = false)
    (hends' : s.trace.any (CoEvent.ends f') = false) : f = f' := by
  have hbusy : ∀ g, startsOf g s.trace = [co] → s.trace.any (CoEvent.ends g) = false →
      (s.points co).Busy g := by
    intro g hg hnot
    by_cases hlt : g < s.forks
    · cases h.forks.life g hlt with
      | staged _ hstarts _ _ =>
        rw [hstarts] at hg
        cases hg
      | busy hpoint hstarts _ =>
        rw [hstarts] at hg
        cases hg
        exact hpoint
      | ended _ _ hended =>
        rw [hended] at hnot
        cases hnot
    · rw [(h.forks.later g (Nat.le_of_not_lt hlt)).1] at hg
      cases hg
  have hfunc := (hbusy f hf hends).func
  rw [(hbusy f' hf' hends').func] at hfunc
  exact (Option.some.inj hfunc).symm

theorem begins (h : Kept s) {t : Thread} {rest : List Thread} {co : Nat} {frames : List Frame}
    (hstack : s.stack = t :: rest) (hframes : s.frames t = .forking co :: frames) :
    ∃ f s', (s.points co).Staged f ∧ s.step .created = some s' ∧ startsOf f s'.trace = [co] := by
  obtain ⟨f, hf, hstep⟩ := h.sound.created hstack hframes
  refine ⟨f, _, hf, hstep, ?_⟩
  obtain ⟨hlt, hinj⟩ := h.one hf.func
  have hlife : Life (Function.update s.frames t frames)
      (Function.update s.points co (.running f)) (s.trace ++ [.start f co]) f :=
    (h.forks.life f hlt).start hf hinj
  cases hlife with
  | @staged co' hpoint _ _ _ =>
    by_cases heq : co' = co
    · rw [heq, Function.update_self] at hpoint
      exact absurd (Or.inl rfl) (hpoint.not_busy f)
    · rw [Function.update_of_ne heq] at hpoint
      exact absurd (hinj co' hpoint.func) heq
  | @busy co' hpoint hstarts _ =>
    by_cases heq : co' = co
    · rwa [heq] at hstarts
    · rw [Function.update_of_ne heq] at hpoint
      exact absurd (hinj co' hpoint.func) heq
  | ended hpoint _ _ => exact absurd (by rw [Function.update_self]; rfl) (hpoint co)

theorem orderly (h : Kept s) (hw : Waits s) : Orderly s where
  poolNodup := h.sound.pool.nodup
  poolIdle := h.sound.pool.idle
  waitsInside seq co hwait := h.sound.waits seq co hwait
  waitsApart seq seq' co hwait hwait' := by
    obtain ⟨f, hf⟩ := h.sound.waits seq co hwait
    obtain ⟨f', hf'⟩ := h.sound.waits seq' co hwait'
    rw [hf] at hf'
    exact (Point.waiting.inj hf').2
  disjoint seq co hwait hmem := by
    obtain ⟨f, hf⟩ := h.sound.waits seq co hwait
    rw [h.sound.pool.idle co hmem] at hf
    cases hf
  once f hlt := by
    cases h.forks.life f hlt with
    | staged hpoint hstarts _ hleft => exact Or.inl ⟨hstarts, _, hpoint, hleft⟩
    | busy hpoint hstarts _ => exact Or.inr ⟨_, hstarts, fun _ => hpoint⟩
    | ended _ hstarts hends =>
      refine Or.inr ⟨_, hstarts, fun hnot => ?_⟩
      rw [hends] at hnot
      cases hnot
  alone f f' co hf hf' hends hends' := h.alone hf hf' hends hends'
  begins t rest co frames hstack hframes := h.begins hstack hframes
  returned := hw.told.returns
  ignored seq a s' hnone hs := hw.ignored hnone hs

end Kept

/-! ## A fork that is left -/

/-- A function that has not begun, on a coroutine that no fork goes on to resume. -/
structure Stranded (s : Scheduler α) (f co : Nat) : Prop where
  point : (s.points co).Staged f
  left : ∀ t, .forking co ∉ s.frames t
  starts : startsOf f s.trace = []

namespace Stranded
variable {s t : Scheduler α} {f co : Nat}

/-- A step that leaves the coroutine at its point, and no thread in `fork` with it. -/
theorem keep (h : Stranded s f co) (hpoint : t.points co = s.points co)
    (hframes : ∀ t', .forking co ∈ t.frames t' → .forking co ∈ s.frames t')
    {added : List (CoEvent α)} (htrace : t.trace = s.trace ++ added)
    (hidle : ∀ e ∈ added, e.starts f = none) : Stranded t f co where
  point := by
    rw [hpoint]
    exact h.point
  left t' hmem := h.left t' (hframes t' hmem)
  starts := by
    have hnil : added.filterMap (CoEvent.starts f) = [] := List.filterMap_eq_nil_iff.mpr hidle
    rw [htrace, startsOf, List.filterMap_append, hnil, List.append_nil]
    exact h.starts

/-- A step that says nothing of forks. -/
theorem still (h : Stranded s f co) (hpoint : t.points co = s.points co)
    (hframes : ∀ t', .forking co ∈ t.frames t' → .forking co ∈ s.frames t')
    (htrace : t.trace = s.trace) : Stranded t f co :=
  h.keep hpoint hframes (htrace.trans (List.append_nil _).symm)
    (fun _ hmem => absurd hmem List.not_mem_nil)

/-- Another coroutine comes to another point. -/
theorem away (h : Stranded s f co) {other : Nat} (hother : ∀ g, ¬ (s.points other).Staged g)
    (p : Point) : Function.update s.points other p co = s.points co := by
  have hne : co ≠ other := fun heq => hother f (heq ▸ h.point)
  rw [Function.update_of_ne hne]

theorem step {l : CoLabel α} (h : Stranded s f co) (hs : Sound s) (hmove : Moves s l t) :
    Stranded t f co := by
  cases hmove with
  | enter => exact h.still rfl (fun _ hmem => hmem) rfl
  | leave hstack => exact h.still rfl (fun _ hmem => hmem) rfl
  | createSequence => exact h.still rfl (fun _ hmem => hmem) rfl
  | wait => exact h.still rfl (fun _ => mem_of_push (by simp)) rfl
  | settle hl hfilter hforking =>
    exact h.still rfl (fun _ => mem_of_replace (hfilter Frame.isForking rfl) rfl) rfl
  | ignore hwait =>
    refine h.keep rfl (fun _ hmem => hmem) rfl fun e hmem => ?_
    rw [List.mem_singleton.mp hmem]
    rfl
  | caught =>
    exact h.keep rfl (fun _ => mem_of_sub (List.drop_sublist _ _)) rfl
      fun e hmem => (droppedBy_idle _ f e hmem).starts
  | throwCall hstack =>
    exact h.keep rfl (fun _ => mem_of_sub (List.nil_sublist _)) rfl
      fun e hmem => (droppedBy_idle _ f e hmem).starts
  | forkNew hactive hpool =>
    have hdead : s.points s.created = .dead := hs.func.unborn _ (Nat.le_refl _)
    have hother : ∀ g, ¬ (s.points s.created).Staged g := fun g hg => hg.away.2.1 hdead
    have hne : co ≠ s.created := fun heq => hother f (heq ▸ h.point)
    exact h.still (h.away hother _)
      (fun _ => mem_of_push fun hframe => hne (Frame.forking.inj hframe)) rfl
  | @forkPooled _ other pool hactive hpool =>
    have hidle : s.points other = .idle := hs.pool.idle other (by rw [hpool]; exact List.mem_cons_self)
    have hother : ∀ g, ¬ (s.points other).Staged g := fun g hg => hg.away.1 hidle
    have hne : co ≠ other := fun heq => hother f (heq ▸ h.point)
    exact h.still (h.away hother _)
      (fun _ => mem_of_push fun hframe => hne (Frame.forking.inj hframe)) rfl
  | @start t' other g frames hstack hframes hpoint =>
    have hne : co ≠ other := by
      intro heq
      refine h.left t' ?_
      rw [hframes, heq]
      exact List.mem_cons_self
    have hfunc : g ≠ f := by
      intro heq
      exact hne (hs.func.inj co other f h.point.func (heq ▸ hpoint.func))
    have hsub : frames.Sublist (s.frames t') := by
      rw [hframes]
      exact List.sublist_cons_self _ _
    refine h.keep (Function.update_of_ne hne _ _) (fun _ => mem_of_sub hsub) rfl
      fun e hmem => ?_
    rw [List.mem_singleton.mp hmem]
    exact if_neg hfunc
  | @answer seq a other g hstack hwait hpoint =>
    refine h.keep (h.away (fun g' hg => hg.away.2.2.1 ⟨g, seq, hpoint⟩) _) (fun _ hmem => hmem)
      (List.append_assoc _ _ _) fun e hmem => ?_
    cases List.mem_cons.mp hmem with
    | inl heq => rw [heq]; rfl
    | inr hmem => rw [List.mem_singleton.mp hmem]; rfl
  | @yield n g below seq frames hstack hframes hpoint =>
    have hsub : frames.Sublist (s.frames (.co n)) := by
      rw [hframes]
      exact List.sublist_cons_self _ _
    refine h.keep (h.away (fun g' hg => hg.away.2.2.2 ⟨g, hpoint⟩) _)
      (fun _ => mem_of_sub hsub) rfl fun e hmem => ?_
    rw [List.mem_singleton.mp hmem]
    rfl
  | @finish n g t' rest hstack hpoint =>
    refine h.keep (h.away (fun g' hg => hg.away.2.2.2 ⟨g, hpoint⟩) _)
      (fun _ => mem_of_push (by simp)) rfl fun e hmem => ?_
    rw [List.mem_singleton.mp hmem]
    rfl
  | @throwCo n g t' rest hstack hpoint =>
    refine h.keep (h.away (fun g' hg => hg.away.2.2.2 ⟨g, hpoint⟩) _) ?_ rfl
      (forall_snoc (fun e hmem => (droppedBy_idle _ f e hmem).starts) rfl)
    intro t'' hmem
    exact mem_of_sub (List.nil_sublist _) (mem_of_push (by simp) hmem)

/-- It never begins. -/
theorem exec {labels : List (CoLabel α)} (h : Stranded s f co) (hk : Kept s)
    (he : (coSystem α).exec (fun _ _ => True) s labels = some t) :
    startsOf f t.trace = [] := by
  induction labels generalizing s with
  | nil =>
    cases he
    exact h.starts
  | cons l labels ih =>
    obtain ⟨u, hu, he⟩ := Option.bind_eq_some_iff.mp he
    exact ih (h.step hk.sound (step_cases hk.sound hu)) (hk.step hu) he

end Stranded

/-- Two runs of one fork each: the forked function waits, is answered twice and returns; and the
error of other code leaves `fork`. -/
def waitingScript : List (CoLabel Int) :=
  [.enter, .fork, .created, .wait, .yield, .leave, .enter, .respone 2 7, .finish, .listened,
    .respone 2 8, .leave]

def raisingScript : List (CoLabel Int) := [.enter, .fork, .throw]

/-- Whatever the scripts do, until the ids of waits come round. -/
theorem scheduler_orderly {s : Scheduler α} (h : (coSystem α).Reachable s)
    (hbound : s.sequences < 2 ^ 63) : Orderly s :=
  (kept_of_reachable h).orderly (waits_of_reachable h hbound)

/-- A wait for id 2 that is answered with 7 and not with 8. -/
theorem scheduler_orderly_waiting : ∃ s : Scheduler Int, Orderly s ∧ s.coroutinePool = [0] ∧
    startsOf 0 s.trace = [0] ∧ returnsOf 2 s.trace = [.args 7] := by
  obtain ⟨s, hreach, hs⟩ := System.run_of_exec (M := coSystem Int) (P := fun _ _ => True)
    waitingScript (p := fun s => s.sequences == 1 && s.coroutinePool == [0] &&
      startsOf 0 s.trace == [0] && returnsOf 2 s.trace == [.args 7]) (by decide)
  simp only [Bool.and_eq_true, beq_iff_eq] at hs
  obtain ⟨⟨⟨hsequences, hpool⟩, hstarts⟩, hreturns⟩ := hs
  exact ⟨s, scheduler_orderly hreach (by omega), hpool, hstarts, hreturns⟩

/-- A function that has been forked and never runs, whatever happens later. -/
theorem forked_never_begins : ∃ s : Scheduler Int, (coSystem Int).Reachable s ∧ 0 < s.forks ∧
    s.stack = [] ∧ ∀ labels t, (coSystem Int).exec (fun _ _ => True) s labels = some t →
      startsOf 0 t.trace = [] := by
  obtain ⟨s, hs⟩ := Option.isSome_iff_exists.mp
    (show ((coSystem Int).exec (fun _ _ => True) .init raisingScript).isSome = true by decide)
  have hreach : (coSystem Int).Reachable s := System.Run.exec .start hs
  have hframes : ∀ t, s.frames t = [] := by
    cases hs
    intro t
    by_cases heq : t = .call 0
    · rw [heq]
      rfl
    · exact (Function.update_of_ne heq _ _).trans (Function.update_of_ne heq _ _)
  have hstranded : Stranded s 0 0 := by
    refine ⟨?_, fun t hmem => ?_, ?_⟩
    · cases hs
      exact Or.inl rfl
    · rw [hframes t] at hmem
      cases hmem
    · cases hs
      rfl
  refine ⟨s, hreach, ?_, ?_, fun labels t he => hstranded.exec (kept_of_reachable hreach) he⟩
  · cases hs
    decide
  · cases hs
    rfl

end HyperNet.Script
