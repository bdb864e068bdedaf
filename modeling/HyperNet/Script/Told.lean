import HyperNet.Script.Scheduler

/-! # Waits and forks in the history of co.lua

The history of a run says which waits are open, what each wait has returned, and how far each
forked function is. -/
namespace HyperNet.Script
open HyperNet.Core.History

variable {α : Type}

/-! ## The ids of waits -/

/-- The ids in the order in which `create_sequence` makes them, up to the last one. -/
def sequenceId (k : Nat) : Int := if k < 2 ^ 63 - 1 then k + 1 else 1

/-- One of the first `n` ids. -/
def Issued (n : Nat) (seq : Int) : Prop := ∃ k, 1 ≤ k ∧ k ≤ n ∧ seq = sequenceId k

theorem Issued.succ {n : Nat} {seq : Int} (h : Issued n seq) : Issued (n + 1) seq := by
  obtain ⟨k, hpos, hle, heq⟩ := h
  exact ⟨k, hpos, Nat.le_succ_of_le hle, heq⟩

theorem issued_last (n : Nat) : Issued (n + 1) (sequenceId (n + 1)) :=
  ⟨n + 1, Nat.succ_pos n, Nat.le_refl _, rfl⟩

/-- The next id is none of those before it. -/
theorem not_issued {n : Nat} (hn : n + 1 < 2 ^ 63) : ¬ Issued n (sequenceId (n + 1)) := by
  intro h
  obtain ⟨k, hpos, hle, heq⟩ := h
  unfold sequenceId at heq
  split at heq
  · split at heq
    · omega
    · omega
  · split at heq
    · omega
    · omega

theorem createSequence_spec {α : Type} {s : Scheduler α}
    (hnext : s.nextSequenceId = sequenceId s.sequences) (hn : s.sequences + 1 < 2 ^ 63) :
    s.createSequence = (sequenceId (s.sequences + 1),
      { s with
        nextSequenceId := sequenceId (s.sequences + 1)
        sequences := s.sequences + 1 }) := by
  have hval : s.nextSequenceId = s.sequences + 1 := by rw [hnext, sequenceId, if_pos (by omega)]
  have hid : (if (s.nextSequenceId + 1).bmod integers < 1 then 1
      else (s.nextSequenceId + 1).bmod integers) = sequenceId (s.sequences + 1) := by
    rw [hval, sequenceId, integers]
    by_cases hlast : s.sequences + 1 < 2 ^ 63 - 1
    · have hmod : ((s.sequences : Int) + 1 + 1).bmod (2 ^ 64) = s.sequences + 1 + 1 :=
        Int.bmod_eq_of_le (by omega) (by omega)
      rw [if_pos hlast, hmod, if_neg (by omega)]
      omega
    · have hmax : (s.sequences : Int) + 1 + 1 = 2 ^ 63 := by omega
      rw [if_neg hlast, hmax]
      decide
  simp only [Scheduler.createSequence, hid]

/-! ## Waits -/

/-- An event that says nothing of the waits for an id. -/
structure CoEvent.Apart (seq : Int) (e : CoEvent α) : Prop where
  suspends : e.suspends seq = false
  answers : e.answers seq = none
  returns : e.returns seq = none

/-- The events of forks. -/
def CoEvent.ofFork : CoEvent α → Bool
  | .start _ _ | .ended _ | .dropped _ => true
  | .suspended _ _ | .respone _ _ | .returned _ _ => false

theorem CoEvent.apart_of_fork {e : CoEvent α} (h : e.ofFork = true) (seq : Int) : e.Apart seq := by
  cases e with
  | start f co => exact ⟨rfl, rfl, rfl⟩
  | ended f => exact ⟨rfl, rfl, rfl⟩
  | dropped co => exact ⟨rfl, rfl, rfl⟩
  | suspended seq' co => cases h
  | respone seq' a => cases h
  | returned seq' payload => cases h

theorem droppedBy_ofFork (frames : List Frame) :
    ∀ e ∈ Scheduler.droppedBy (α := α) frames, e.ofFork = true := by
  intro e hmem
  obtain ⟨frame, _, hframe⟩ := List.mem_filterMap.mp hmem
  cases frame with
  | forking co => cases hframe; rfl
  | waiting seq => cases hframe
  | exiting co failed => cases hframe
  | raising => cases hframe

section Answers
variable {trace added : List (CoEvent α)} {seq : Int}

theorem answer_unsuspended (h : trace.any (CoEvent.suspends seq) = false) :
    answer seq trace = none := by
  rw [answer, since_nil h]
  rfl

theorem answer_append (h : trace.any (CoEvent.suspends seq) = true) :
    answer seq (trace ++ added) =
      (answer seq trace).or (added.filterMap (CoEvent.answers seq)).head? := by
  rw [answer, since_append h, List.filterMap_append, List.head?_append]
  rfl

/-- What the history says of the waits for an id stays as it is. -/
structure Silent (seq : Int) (trace added : List (CoEvent α)) : Prop where
  suspends : (trace ++ added).any (CoEvent.suspends seq) = trace.any (CoEvent.suspends seq)
  answer : answer seq (trace ++ added) = answer seq trace
  returns : returnsOf seq (trace ++ added) = returnsOf seq trace

theorem silent_of_apart (h : ∀ e ∈ added, e.Apart seq) : Silent seq trace added := by
  have hsuspends : added.any (CoEvent.suspends seq) = false :=
    List.any_eq_false.mpr fun e hmem => by rw [(h e hmem).suspends]; simp
  have hanswers : added.filterMap (CoEvent.answers seq) = [] :=
    List.filterMap_eq_nil_iff.mpr fun e hmem => (h e hmem).answers
  have hreturns : added.filterMap (CoEvent.returns seq) = [] :=
    List.filterMap_eq_nil_iff.mpr fun e hmem => (h e hmem).returns
  have hany : (trace ++ added).any (CoEvent.suspends seq) = trace.any (CoEvent.suspends seq) := by
    rw [List.any_append, hsuspends, Bool.or_false]
  refine ⟨hany, ?_, ?_⟩
  · cases hopen : trace.any (CoEvent.suspends seq) with
    | false => rw [answer_unsuspended hopen, answer_unsuspended (hany.trans hopen)]
    | true => rw [answer_append hopen, hanswers, List.head?_nil, Option.or_none]
  · rw [returnsOf, List.filterMap_append, hreturns, List.append_nil]
    rfl

/-- A respone for an id that has no open wait. -/
theorem silent_respone (h : trace.any (CoEvent.suspends seq) = true → answer seq trace ≠ none)
    (a : α) : Silent seq trace [.respone seq a] := by
  have hany : (trace ++ [CoEvent.respone seq a]).any (CoEvent.suspends seq) =
      trace.any (CoEvent.suspends seq) := by
    rw [List.any_append]
    exact Bool.or_false _
  refine ⟨hany, ?_, ?_⟩
  · cases hopen : trace.any (CoEvent.suspends seq) with
    | false => rw [answer_unsuspended hopen, answer_unsuspended (hany.trans hopen)]
    | true =>
      obtain ⟨b, hb⟩ := Option.ne_none_iff_exists'.mp (h hopen)
      rw [answer_append hopen, hb, Option.some_or]
  · rw [returnsOf, List.filterMap_append]
    exact List.append_nil _

end Answers

/-- What the history says of the waits. -/
structure WaitsTold (frames : Thread → List Frame) (waits : Int → Option Nat) (sequences : Nat)
    (trace : List (CoEvent α)) : Prop where
  /-- A wait that has not suspended yet has an id of its own. -/
  frame : ∀ t seq, .waiting seq ∈ frames t →
    Issued sequences seq ∧ trace.any (CoEvent.suspends seq) = false
  issued : ∀ seq, trace.any (CoEvent.suspends seq) = true → Issued sequences seq
  isOpen : ∀ seq, (waits seq).isSome = true ↔
    trace.any (CoEvent.suspends seq) = true ∧ answer seq trace = none
  returns : ∀ seq, returnsOf seq trace = (answer seq trace).toList.map .args


namespace WaitsTold
variable {frames frames' : Thread → List Frame} {waits : Int → Option Nat} {sequences : Nat}
  {trace added : List (CoEvent α)} {seq : Int}

theorem silent (h : WaitsTold frames waits sequences trace)
    (hframes : ∀ t seq, .waiting seq ∈ frames' t → .waiting seq ∈ frames t)
    (hsilent : ∀ seq, Silent seq trace added) : WaitsTold frames' waits sequences (trace ++ added) where
  frame t seq hmem := by
    rw [(hsilent seq).suspends]
    exact h.frame t seq (hframes t seq hmem)
  issued seq := by
    rw [(hsilent seq).suspends]
    exact h.issued seq
  isOpen seq := by
    rw [(hsilent seq).suspends, (hsilent seq).answer]
    exact h.isOpen seq
  returns seq := by
    rw [(hsilent seq).returns, (hsilent seq).answer]
    exact h.returns seq

/-- Events of forks. -/
theorem quiet (h : WaitsTold frames waits sequences trace)
    (hframes : ∀ t seq, .waiting seq ∈ frames' t → .waiting seq ∈ frames t)
    (hadded : ∀ e ∈ added, e.ofFork = true) : WaitsTold frames' waits sequences (trace ++ added) :=
  h.silent hframes fun seq => silent_of_apart fun e hmem => CoEvent.apart_of_fork (hadded e hmem) seq

/-- No events at all. -/
theorem still (h : WaitsTold frames waits sequences trace)
    (hframes : ∀ t seq, .waiting seq ∈ frames' t → .waiting seq ∈ frames t) :
    WaitsTold frames' waits sequences trace :=
  ⟨fun t seq hmem => h.frame t seq (hframes t seq hmem), h.issued, h.isOpen, h.returns⟩

theorem succ (h : WaitsTold frames waits sequences trace) :
    WaitsTold frames waits (sequences + 1) trace :=
  ⟨fun t seq hmem => ⟨(h.frame t seq hmem).1.succ, (h.frame t seq hmem).2⟩,
    fun seq hany => (h.issued seq hany).succ, h.isOpen, h.returns⟩

/-- The next id has no wait, and no wait is about to suspend with it. -/
theorem fresh (h : WaitsTold frames waits sequences trace) (hn : sequences + 1 < 2 ^ 63) :
    trace.any (CoEvent.suspends (sequenceId (sequences + 1))) = false ∧
      ∀ t, .waiting (sequenceId (sequences + 1)) ∉ frames t := by
  constructor
  · cases hany : trace.any (CoEvent.suspends (sequenceId (sequences + 1))) with
    | false => rfl
    | true => exact absurd (h.issued _ hany) (not_issued hn)
  · intro t hmem
    exact not_issued hn (h.frame t _ hmem).1

theorem wait (h : WaitsTold frames waits sequences trace) (hn : sequences + 1 < 2 ^ 63)
    (t : Thread) :
    WaitsTold (Function.update frames t (.waiting (sequenceId (sequences + 1)) :: frames t)) waits
      (sequences + 1) trace := by
  refine ⟨?_, h.succ.issued, h.isOpen, h.returns⟩
  intro t' seq hmem
  by_cases hseq : seq = sequenceId (sequences + 1)
  · rw [hseq]
    exact ⟨issued_last sequences, (h.fresh hn).1⟩
  · exact h.succ.frame t' seq (mem_of_push (fun hframe => hseq (Frame.waiting.inj hframe)) hmem)

theorem suspend (h : WaitsTold frames waits sequences trace) {t : Thread}
    (hframe : .waiting seq ∈ frames t)
    (hframes : ∀ t seq', .waiting seq' ∈ frames' t → .waiting seq' ∈ frames t ∧ seq' ≠ seq)
    (co : Nat) :
    WaitsTold frames' (Function.update waits seq (some co)) sequences
      (trace ++ [.suspended seq co]) := by
  have hother : ∀ seq', seq' ≠ seq → Silent seq' trace [CoEvent.suspended seq co] := by
    intro seq' hne
    refine silent_of_apart fun e hmem => ?_
    rw [List.mem_singleton.mp hmem]
    exact ⟨beq_false_of_ne hne.symm, rfl, rfl⟩
  have hbefore := (h.frame t seq hframe).2
  have hself : (trace ++ [CoEvent.suspended seq co]).any (CoEvent.suspends seq) = true := by
    rw [List.any_append, hbefore]
    simp [CoEvent.suspends]
  have hnone : answer seq (trace ++ [CoEvent.suspended seq co]) = none := by
    rw [answer, since_fresh hbefore]
    simp [CoEvent.suspends, CoEvent.answers]
  refine ⟨?_, ?_, ?_, ?_⟩
  · intro t' seq' hmem
    obtain ⟨hold, hne⟩ := hframes t' seq' hmem
    rw [(hother seq' hne).suspends]
    exact h.frame t' seq' hold
  · intro seq' hany
    by_cases heq : seq' = seq
    · rw [heq]
      exact (h.frame t seq hframe).1
    · rw [(hother seq' heq).suspends] at hany
      exact h.issued seq' hany
  · intro seq'
    by_cases heq : seq' = seq
    · rw [heq, Function.update_self]
      exact ⟨fun _ => ⟨hself, hnone⟩, fun _ => rfl⟩
    · rw [Function.update_of_ne heq, (hother seq' heq).suspends, (hother seq' heq).answer]
      exact h.isOpen seq'
  · intro seq'
    by_cases heq : seq' = seq
    · have hreturns : returnsOf seq (trace ++ [CoEvent.suspended seq co]) = returnsOf seq trace := by
        rw [returnsOf, List.filterMap_append]
        exact List.append_nil _
      rw [heq, hreturns, h.returns seq, answer_unsuspended hbefore, hnone]
    · rw [(hother seq' heq).returns, (hother seq' heq).answer]
      exact h.returns seq'

theorem answer (h : WaitsTold frames waits sequences trace) (hwait : (waits seq).isSome = true)
    (a : α) :
    WaitsTold frames (Function.update waits seq none) sequences
      (trace ++ [.respone seq a] ++ [.returned seq (.args a)]) := by
  have hother : ∀ seq', seq' ≠ seq →
      Silent seq' trace [CoEvent.respone seq a, CoEvent.returned seq (.args a)] := by
    intro seq' hne
    refine silent_of_apart fun e hmem => ?_
    cases List.mem_cons.mp hmem with
    | inl heq => rw [heq]; exact ⟨rfl, if_neg hne.symm, rfl⟩
    | inr hmem => rw [List.mem_singleton.mp hmem]; exact ⟨rfl, rfl, if_neg hne.symm⟩
  obtain ⟨hany, hnone⟩ := (h.isOpen seq).mp hwait
  have hself : (trace ++ [CoEvent.respone seq a, CoEvent.returned seq (.args a)]).any
      (CoEvent.suspends seq) = true := by
    rw [List.any_append, hany, Bool.true_or]
  have hanswer : Script.answer seq
      (trace ++ [CoEvent.respone seq a, CoEvent.returned seq (.args a)]) = some a := by
    rw [answer_append hany, hnone, Option.none_or]
    simp [CoEvent.answers]
  rw [List.append_assoc, List.singleton_append]
  refine ⟨?_, ?_, ?_, ?_⟩
  · intro t seq' hmem
    by_cases heq : seq' = seq
    · have hnot := (h.frame t seq' hmem).2
      rw [heq, hany] at hnot
      cases hnot
    · rw [(hother seq' heq).suspends]
      exact h.frame t seq' hmem
  · intro seq' hsuspended
    by_cases heq : seq' = seq
    · rw [heq]
      exact h.issued seq hany
    · rw [(hother seq' heq).suspends] at hsuspended
      exact h.issued seq' hsuspended
  · intro seq'
    by_cases heq : seq' = seq
    · rw [heq, Function.update_self, hanswer]
      simp
    · rw [Function.update_of_ne heq, (hother seq' heq).suspends, (hother seq' heq).answer]
      exact h.isOpen seq'
  · intro seq'
    by_cases heq : seq' = seq
    · have hreturns : returnsOf seq
          (trace ++ [CoEvent.respone seq a, CoEvent.returned seq (.args a)]) =
            returnsOf seq trace ++ [.args a] := by
        have hself : CoEvent.returns seq (.returned seq (.args a)) = some (.args a) := if_pos rfl
        rw [returnsOf, List.filterMap_append, List.filterMap_cons_none rfl,
          List.filterMap_cons_some hself]
        rfl
      rw [heq, hreturns, h.returns seq, hnone, hanswer]
      rfl
    · rw [(hother seq' heq).returns, (hother seq' heq).answer]
      exact h.returns seq'

theorem ignore (h : WaitsTold frames waits sequences trace) (hwait : waits seq = none) (a : α) :
    WaitsTold frames waits sequences (trace ++ [.respone seq a]) := by
  refine h.silent (fun t seq' hmem => hmem) fun seq' => ?_
  by_cases heq : seq' = seq
  · rw [heq]
    refine silent_respone (fun hany hnone => ?_) a
    have hsome := (h.isOpen seq).mpr ⟨hany, hnone⟩
    rw [hwait] at hsome
    cases hsome
  · refine silent_of_apart fun e hmem => ?_
    rw [List.mem_singleton.mp hmem]
    exact ⟨rfl, if_neg (Ne.symm heq), rfl⟩

end WaitsTold

/-! ## Forks -/

/-- How far a forked function is. -/
inductive Life (frames : Thread → List Frame) (points : Nat → Point) (trace : List (CoEvent α))
    (f : Nat) : Prop
  | staged {co : Nat} (hpoint : (points co).Staged f) (hstarts : startsOf f trace = [])
      (hends : trace.any (CoEvent.ends f) = false)
      (hleft : (∃ t, .forking co ∈ frames t) ∨ .dropped co ∈ trace)
  | busy {co : Nat} (hpoint : (points co).Busy f) (hstarts : startsOf f trace = [co])
      (hends : trace.any (CoEvent.ends f) = false)
  | ended {co : Nat} (hpoint : ∀ co', (points co').func ≠ some f) (hstarts : startsOf f trace = [co])
      (hends : trace.any (CoEvent.ends f) = true)

/-- What the history says of the forked functions. -/
structure ForksTold (frames : Thread → List Frame) (points : Nat → Point) (forks : Nat)
    (trace : List (CoEvent α)) : Prop where
  later : ∀ f, forks ≤ f → startsOf f trace = [] ∧ trace.any (CoEvent.ends f) = false
  life : ∀ f < forks, Life frames points trace f

/-- An event that is no beginning and no end of a function. -/
structure CoEvent.Idle (f : Nat) (e : CoEvent α) : Prop where
  starts : e.starts f = none
  ends : e.ends f = false

theorem droppedBy_idle (frames : List Frame) (f : Nat) :
    ∀ e ∈ Scheduler.droppedBy (α := α) frames, e.Idle f := by
  intro e hmem
  obtain ⟨frame, _, hframe⟩ := List.mem_filterMap.mp hmem
  cases frame with
  | forking co => cases hframe; exact ⟨rfl, rfl⟩
  | waiting seq => cases hframe
  | exiting co failed => cases hframe
  | raising => cases hframe

theorem dropped_mem {frames : List Frame} {co : Nat} (h : .forking co ∈ frames) :
    .dropped co ∈ Scheduler.droppedBy (α := α) frames :=
  List.mem_filterMap.mpr ⟨_, h, rfl⟩

section Forks
variable {frames frames' : Thread → List Frame} {points points' : Nat → Point} {forks f : Nat}
  {trace added : List (CoEvent α)}

theorem startsOf_append (h : ∀ e ∈ added, e.Idle f) :
    startsOf f (trace ++ added) = startsOf f trace := by
  have hnil : added.filterMap (CoEvent.starts f) = [] :=
    List.filterMap_eq_nil_iff.mpr fun e hmem => (h e hmem).starts
  rw [startsOf, List.filterMap_append, hnil, List.append_nil]
  rfl

theorem ends_append (h : ∀ e ∈ added, e.Idle f) :
    (trace ++ added).any (CoEvent.ends f) = trace.any (CoEvent.ends f) := by
  have hnone : added.any (CoEvent.ends f) = false :=
    List.any_eq_false.mpr fun e hmem => by rw [(h e hmem).ends]; simp
  rw [List.any_append, hnone, Bool.or_false]

/-- What a step changes for the coroutine of another function does not matter. -/
theorem Life.keep (h : Life frames points trace f) (hidle : ∀ e ∈ added, e.Idle f)
    (hpoints : ∀ co, (points co).func = some f →
      ((points co).Staged f → (points' co).Staged f) ∧ ((points co).Busy f → (points' co).Busy f))
    (hfunc : ∀ co, (points' co).func = some f → (points co).func = some f)
    (hframes : ∀ co t, (points co).Staged f → .forking co ∈ frames t →
      (∃ t', .forking co ∈ frames' t') ∨ .dropped co ∈ added) :
    Life frames' points' (trace ++ added) f := by
  cases h with
  | @staged co hpoint hstarts hends hleft =>
    refine .staged ((hpoints co hpoint.func).1 hpoint) ((startsOf_append hidle).trans hstarts)
      ((ends_append hidle).trans hends) ?_
    cases hleft with
    | inl hforking =>
      obtain ⟨t, ht⟩ := hforking
      cases hframes co t hpoint ht with
      | inl hthere => exact Or.inl hthere
      | inr hdropped => exact Or.inr (List.mem_append_right _ hdropped)
    | inr hdropped => exact Or.inr (List.mem_append_left _ hdropped)
  | @busy co hpoint hstarts hends =>
    exact .busy ((hpoints co hpoint.func).2 hpoint) ((startsOf_append hidle).trans hstarts)
      ((ends_append hidle).trans hends)
  | @ended co hpoint hstarts hends =>
    exact .ended (fun co' hco' => hpoint co' (hfunc co' hco'))
      ((startsOf_append hidle).trans hstarts) ((ends_append hidle).trans hends)

/-- Another function's coroutine comes to another point. -/
theorem Life.other {co : Nat} {p : Point} (h : Life frames points trace f)
    (hidle : ∀ e ∈ added, e.Idle f) (hco : (points co).func ≠ some f) (hp : p.func ≠ some f)
    (hframes : ∀ co' t, co' ≠ co → .forking co' ∈ frames t →
      (∃ t', .forking co' ∈ frames' t') ∨ .dropped co' ∈ added) :
    Life frames' (Function.update points co p) (trace ++ added) f := by
  refine h.keep hidle ?_ ?_ ?_
  · intro co' hfunc
    have hne : co' ≠ co := fun heq => hco (heq ▸ hfunc)
    rw [Function.update_of_ne hne]
    exact ⟨fun h => h, fun h => h⟩
  · intro co' hfunc
    by_cases heq : co' = co
    · rw [heq, Function.update_self] at hfunc
      exact absurd hfunc hp
    · rwa [Function.update_of_ne heq] at hfunc
  · intro co' t hstaged
    exact hframes co' t fun heq => hco (heq ▸ hstaged.func)

/-- The function of a coroutine that begins it had not begun before. -/
theorem Life.start {co : Nat} (h : Life frames points trace f) (hpoint : (points co).Staged f)
    (hinj : ∀ co', (points co').func = some f → co' = co) :
    Life frames' (Function.update points co (.running f)) (trace ++ [.start f co]) f := by
  cases h with
  | @staged co' hpoint' hstarts hends hleft =>
    refine .busy (by rw [Function.update_self]; exact Or.inl rfl) ?_ ?_
    · have hself : CoEvent.starts f (.start f co : CoEvent α) = some co := if_pos rfl
      rw [startsOf, List.filterMap_append, List.filterMap_cons_some hself]
      rw [startsOf] at hstarts
      rw [hstarts]
      rfl
    · rw [List.any_append, hends]
      rfl
  | @busy co' hpoint' hstarts hends =>
    rw [hinj co' hpoint'.func] at hpoint'
    exact absurd hpoint' (hpoint.not_busy f)
  | @ended co' hpoint' hstarts hends => exact absurd hpoint.func (hpoint' co)

/-- A function on its coroutine suspends or goes on. -/
theorem Life.goOn {co : Nat} {p : Point} (h : Life frames points trace f)
    (hidle : ∀ e ∈ added, e.Idle f) (hpoint : (points co).Busy f) (hp : p.Busy f)
    (hinj : ∀ co', (points co').func = some f → co' = co) :
    Life frames' (Function.update points co p) (trace ++ added) f := by
  refine h.keep hidle ?_ ?_ ?_
  · intro co' hfunc
    rw [hinj co' hfunc, Function.update_self]
    exact ⟨fun hstaged => absurd hpoint (hstaged.not_busy f), fun _ => hp⟩
  · intro co' hfunc
    by_cases heq : co' = co
    · rw [heq]
      exact hpoint.func
    · rwa [Function.update_of_ne heq] at hfunc
  · intro co' t hstaged
    rw [hinj co' hstaged.func] at hstaged
    exact absurd hpoint (hstaged.not_busy f)

/-- It ends. -/
theorem Life.finish {co : Nat} {p : Point} (h : Life frames points trace f)
    (hidle : ∀ e ∈ added, e.Idle f) (hpoint : (points co).Busy f) (hp : p.func = none)
    (hinj : ∀ co', (points co').func = some f → co' = co) :
    Life frames' (Function.update points co p) (trace ++ (added ++ [.ended f])) f := by
  cases h with
  | @staged co' hpoint' hstarts hends hleft =>
    rw [hinj co' hpoint'.func] at hpoint'
    exact absurd hpoint (hpoint'.not_busy f)
  | @busy co' hpoint' hstarts hends =>
    have hstarts' : startsOf f (trace ++ (added ++ [.ended f])) = [co'] := by
      rw [← List.append_assoc, startsOf, List.filterMap_append]
      rw [← startsOf_append hidle, startsOf] at hstarts
      rw [hstarts]
      rfl
    refine .ended ?_ hstarts' ?_
    · intro other hother
      by_cases heq : other = co
      · rw [heq, Function.update_self, hp] at hother
        cases hother
      · rw [Function.update_of_ne heq] at hother
        exact heq (hinj other hother)
    · rw [← List.append_assoc, List.any_append]
      simp [CoEvent.ends]
  | @ended co' hpoint' hstarts hends => exact absurd hpoint.func (hpoint' co)

namespace ForksTold

/-- No coroutine comes to another point. -/
theorem quiet (h : ForksTold frames points forks trace) (hidle : ∀ f, ∀ e ∈ added, e.Idle f)
    (hframes : ∀ co t, .forking co ∈ frames t →
      (∃ t', .forking co ∈ frames' t') ∨ .dropped co ∈ added) :
    ForksTold frames' points forks (trace ++ added) where
  later f hle := ⟨(startsOf_append (hidle f)).trans (h.later f hle).1,
    (ends_append (hidle f)).trans (h.later f hle).2⟩
  life f hlt := (h.life f hlt).keep (hidle f) (fun _ _ => ⟨fun h => h, fun h => h⟩)
    (fun _ h => h) (fun co t _ => hframes co t)

theorem still (h : ForksTold frames points forks trace)
    (hframes : ∀ co t, .forking co ∈ frames t → ∃ t', .forking co ∈ frames' t') :
    ForksTold frames' points forks trace := by
  have hquiet : ForksTold frames' points forks (trace ++ []) :=
    h.quiet (fun _ _ hmem => absurd hmem List.not_mem_nil)
      (fun co t hmem => Or.inl (hframes co t hmem))
  rwa [List.append_nil] at hquiet

theorem fork {co : Nat} {p : Point} (h : ForksTold frames points forks trace)
    (hco : (points co).func = none) (hp : p.Staged forks) (t : Thread) :
    ForksTold (Function.update frames t (.forking co :: frames t))
      (Function.update points co p) (forks + 1) trace where
  later f hle := h.later f (Nat.le_of_succ_le hle)
  life f hlt := by
    by_cases heq : f = forks
    · rw [heq]
      obtain ⟨hstarts, hends⟩ := h.later forks (Nat.le_refl _)
      have hpoint : (Function.update points co p co).Staged forks := by rwa [Function.update_self]
      refine .staged hpoint hstarts hends (Or.inl ⟨t, ?_⟩)
      rw [Function.update_self]
      exact List.mem_cons_self
    · have hother : Life (Function.update frames t (.forking co :: frames t))
          (Function.update points co p) (trace ++ []) f :=
        (h.life f (by omega)).other (fun _ hmem => absurd hmem List.not_mem_nil)
          (by rw [hco]; simp) (by rw [hp.func]; exact fun hf => heq (Option.some.inj hf).symm)
          (fun co' t' _ hmem => Or.inl ⟨t', mem_push hmem⟩)
      rwa [List.append_nil] at hother

/-- The coroutine of a function comes to another point. -/
theorem change {co : Nat} {p : Point} (h : ForksTold frames points forks trace)
    (hco : (points co).func = some f) (hlt : f < forks) (hp : ∀ g, p.func = some g → g = f)
    (hidle : ∀ g, g ≠ f → ∀ e ∈ added, e.Idle g)
    (hframes : ∀ co' t, co' ≠ co → .forking co' ∈ frames t →
      (∃ t', .forking co' ∈ frames' t') ∨ .dropped co' ∈ added)
    (hlife : Life frames' (Function.update points co p) (trace ++ added) f) :
    ForksTold frames' (Function.update points co p) forks (trace ++ added) where
  later g hle := by
    have hne : g ≠ f := by omega
    exact ⟨(startsOf_append (hidle g hne)).trans (h.later g hle).1,
      (ends_append (hidle g hne)).trans (h.later g hle).2⟩
  life g hg := by
    by_cases heq : g = f
    · rw [heq]
      exact hlife
    · refine (h.life g hg).other (hidle g heq) ?_ (fun hfunc => heq (hp g hfunc)) hframes
      rw [hco]
      exact fun hfunc => heq (Option.some.inj hfunc).symm

end ForksTold

end Forks

end HyperNet.Script
