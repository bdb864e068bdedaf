import HyperNet.Script.Harbor

/-! # One response for each call

What is in the tables of harbor.lua belongs to a call whose function has begun and not ended, and
a call that is not noted there any more has been answered once: as long as no function leaves a
call unanswered, and `string.serialize` takes what is given to `ret`. -/
namespace HyperNet.Script
open HyperNet.Core.History HyperNet.Core.Transition

variable {α : Type}

/-! ## What is promised -/

/-- The entries of a forked function. -/
def entriesOf {β : Type} (f : Nat) (entries : List (Nat × β)) : List β :=
  entries.filterMap fun entry => if entry.1 = f then some entry.2 else none

theorem entriesOf_self {β : Type} (f : Nat) (entries : List (Nat × β)) (b : β) :
    entriesOf f (entries ++ [(f, b)]) = entriesOf f entries ++ [b] := by
  simp [entriesOf]

theorem entriesOf_other {β : Type} {f g : Nat} (hne : f ≠ g) (entries : List (Nat × β)) (b : β) :
    entriesOf g (entries ++ [(f, b)]) = entriesOf g entries := by
  simp [entriesOf, hne]

/-- An entry of a table that has lost one is another, and was there before. -/
theorem of_erased {ι β : Type} [DecidableEq ι] {table : ι → Option β} {gone i : ι} {b : β}
    (h : Function.update table gone none i = some b) : i ≠ gone ∧ table i = some b := by
  have hne : i ≠ gone := by
    intro heq
    rw [heq, Function.update_self] at h
    exact absurd h (by simp)
  exact ⟨hne, (Function.update_of_ne hne _ _).symm.trans h⟩

/-- What has been sent for a forked function. -/
def Harbor.sentBy (s : Harbor α) (f : Nat) : List (Response α) := entriesOf f s.sent

/-- What it has given `ret`, if it has called it. -/
def Harbor.retOf (s : Harbor α) (f : Nat) : Option α := (entriesOf f s.rets).head?

/-- The function of a call has ended, and the coroutine has left it. -/
def Call.Exited (c : Call) (s : Harbor α) : Prop :=
  s.co.trace.any (CoEvent.ends c.handler) = true

/-- The function of a call has begun on a coroutine, and has not ended. -/
def Call.On (c : Call) (s : Harbor α) (co : Nat) : Prop := (s.co.points co).Busy c.handler

/-- No record of a call is left for a coroutine. -/
structure Harbor.Clear (s : Harbor α) (co : Nat) : Prop where
  coSequence : s.coSequence co = none
  coCallNode : s.coCallNode co = none
  sequence : ∀ seq, s.sequence seq ≠ some co

structure Responded (s : Harbor α) : Prop where
  /-- One response, to the node that called: `true` and the results if `ret` was called. -/
  once : ∀ c ∈ s.calls, c.Exited s → ∀ seq, c.seq = some seq →
    s.sentBy c.handler = [⟨c.node, seq, s.retOf c.handler⟩]
  /-- Nothing else is sent. -/
  only : ∀ entry ∈ s.sent, ∃ c ∈ s.calls, c.handler = entry.1 ∧ c.node = entry.2.node ∧
    c.seq = some entry.2.seq
  /-- The coroutine has no record, unless it runs another call by now. -/
  clear : ∀ c ∈ s.calls, c.Exited s → ∀ co, startsOf c.handler s.co.trace = [co] →
    (∀ c' ∈ s.calls, ¬ c'.On s co) → s.Clear co
  /-- The number has none, unless another call has the same number. -/
  free : ∀ c ∈ s.calls, c.Exited s → ∀ seq, c.seq = some seq →
    (∀ c' ∈ s.calls, c'.seq = some seq → c'.Exited s) →
      s.sequence seq = none ∧ ∀ co, s.coSequence co ≠ some seq
  pooled : ∀ co ∈ s.co.coroutinePool, s.Clear co

/-- The coroutine that runs is to answer a call. -/
def Harbor.owes (s : Harbor α) : Bool :=
  match s.co.stack with
  | .co running :: _ => (s.coSequence running).isSome
  | _ => false

/-- A function that is to answer a call does not end before it has called `ret`, and what it
gives `ret` serializes. -/
def answers (serializes : α → Bool) (s : Harbor α) (l : HarborLabel α) : Bool :=
  !s.owes ||
    match l with
    | .ret results => serializes results
    | .co .finish | .co .throw => false
    | _ => true

/-! ## A call starts -/

theorem stack_of_active {s : Scheduler α} {t : Thread} (h : s.active = some t) :
    ∃ rest, s.stack = t :: rest := by
  unfold Scheduler.active at h
  split at h
  · cases h
  · next t' rest hstack =>
    split at h
    · cases h
    · cases h
      exact ⟨rest, hstack⟩

/-- A fork whose function has begun on a coroutine. -/
structure Forked (s t : Scheduler α) (running : Nat) : Prop where
  kept : Kept t
  fresh : ∀ f, ¬ (s.points running).Busy f
  begun : (t.points running).Busy s.forks
  busy : ∀ co f, (s.points co).Busy f → (t.points co).Busy f
  forks : t.forks = s.forks + 1

theorem forked {s s' t : Scheduler α} (h : Kept s) {th : Thread} {running : Nat}
    {frames : List Frame} (hactive : s.active = some th) (hfork : s.step .fork = some s')
    (hframes : s'.frames th = .forking running :: frames) (hcreated : s'.step .created = some t) :
    Forked s t running := by
  have hk := h.step hfork
  have hmove := step_cases h.sound hfork
  have hnew : s'.stack = s.stack ∧ s'.forks = s.forks + 1 ∧ (s'.points running).Staged s.forks ∧
      ∀ f, ¬ (s.points running).Busy f := by
    cases hmove with
    | forkNew hactive' hpool =>
      rw [hactive] at hactive'
      cases hactive'
      have hself := hframes
      simp only [Scheduler.push, Scheduler.setFrames, Function.update_self] at hself
      cases hself
      refine ⟨rfl, rfl, Or.inl (Function.update_self _ _ _), fun f hf => ?_⟩
      have hfunc := hf.func
      rw [h.sound.func.unborn _ (Nat.le_refl _)] at hfunc
      cases hfunc
    | forkPooled hactive' hpool =>
      rw [hactive] at hactive'
      cases hactive'
      have hself := hframes
      simp only [Scheduler.push, Scheduler.setFrames, Function.update_self] at hself
      cases hself
      refine ⟨rfl, rfl, Or.inr (Function.update_self _ _ _), fun f hf => ?_⟩
      have hfunc := hf.func
      rw [h.sound.pool.idle running (by rw [hpool]; exact List.mem_cons_self)] at hfunc
      cases hfunc
    | settle hl => simp at hl
  obtain ⟨hstack, hforks, hstaged, hfresh⟩ := hnew
  have hbusy : ∀ co f, (s.points co).Busy f → (t.points co).Busy f := by
    intro co f hf
    have hf' := (hmove.busy h.sound hf).resolve_right (by simp)
    exact ((step_cases hk.sound hcreated).busy hk.sound hf').resolve_right (by simp)
  obtain ⟨rest, hrest⟩ := stack_of_active hactive
  obtain ⟨f, hf, hstep⟩ := hk.sound.created (hstack.trans hrest) hframes
  have hfeq : f = s.forks := by
    have hfunc := hf.func
    rw [hstaged.func] at hfunc
    exact (Option.some.inj hfunc).symm
  refine ⟨hk.step hcreated, hfresh, ?_, hbusy, ?_⟩
  · rw [hcreated] at hstep
    cases hstep
    rw [← hfeq]
    exact Or.inl (Function.update_self _ _ _)
  · rw [hcreated] at hstep
    cases hstep
    exact hforks

/-! ## The records -/

/-- Every record is of a call that waits for its answer or has been given it. -/
structure Noted (s : Harbor α) : Prop where
  kept : Kept s.co
  lt : ∀ c ∈ s.calls, c.handler < s.co.forks
  one : ∀ c ∈ s.calls, ∀ c' ∈ s.calls, c.handler = c'.handler → c = c'
  sequence : ∀ seq co, s.sequence seq = some co → s.coSequence co = some seq
  coSequence : ∀ co seq, s.coSequence co = some seq → ∃ c ∈ s.calls, c.seq = some seq ∧ c.On s co ∧
    s.coCallNode co = some c.node ∧ s.sentBy c.handler = [] ∧ s.retOf c.handler = none
  coCallNode : ∀ co node, s.coCallNode co = some node → ∃ c ∈ s.calls, c.node = node ∧ c.On s co
  later : ∀ f, s.co.forks ≤ f → s.sentBy f = [] ∧ s.retOf f = none
  only : ∀ entry ∈ s.sent, ∃ c ∈ s.calls, c.handler = entry.1 ∧ c.node = entry.2.node ∧
    c.seq = some entry.2.seq
  answered : ∀ c ∈ s.calls, ∀ seq, c.seq = some seq →
    (∃ co, c.On s co ∧ s.coSequence co = some seq) ∨
      ∃ a, s.retOf c.handler = some a ∧ s.sentBy c.handler = [⟨c.node, seq, some a⟩]

namespace Noted
variable {s : Harbor α}

theorem init : Noted (Harbor.init : Harbor α) where
  kept := .init
  lt c hmem := absurd hmem List.not_mem_nil
  one c hmem := absurd hmem List.not_mem_nil
  sequence seq co h := absurd h (by simp [Harbor.init])
  coSequence co seq h := absurd h (by simp [Harbor.init])
  coCallNode co node h := absurd h (by simp [Harbor.init])
  later f _ := ⟨rfl, rfl⟩
  only entry hmem := absurd hmem List.not_mem_nil
  answered c hmem := absurd hmem List.not_mem_nil

/-- The coroutines go on, and no function that has begun ends. -/
theorem goOn (h : Noted s) {co : Scheduler α} (hk : Kept co) (hforks : s.co.forks ≤ co.forks)
    (hbusy : ∀ n f, (s.co.points n).Busy f → (co.points n).Busy f) : Noted { s with co := co } where
  kept := hk
  lt c hmem := Nat.lt_of_lt_of_le (h.lt c hmem) hforks
  one := h.one
  sequence := h.sequence
  coSequence n seq hseq := by
    obtain ⟨c, hmem, hc, hon, hrest⟩ := h.coSequence n seq hseq
    exact ⟨c, hmem, hc, hbusy n _ hon, hrest⟩
  coCallNode n node hnode := by
    obtain ⟨c, hmem, hc, hon⟩ := h.coCallNode n node hnode
    exact ⟨c, hmem, hc, hbusy n _ hon⟩
  later f hle := h.later f (Nat.le_trans hforks hle)
  only := h.only
  answered c hmem seq hseq := by
    cases h.answered c hmem seq hseq with
    | inl hasked =>
      obtain ⟨n, hon, hn⟩ := hasked
      exact Or.inl ⟨n, hbusy n _ hon, hn⟩
    | inr hgiven => exact Or.inr hgiven

theorem raise (h : Noted s) (t : Thread) : Noted (s.raise t) := by
  refine h.goOn (h.kept.settle ?_ fun co hmem => List.mem_cons_of_mem _ hmem) (Nat.le_refl _)
    fun _ _ hbusy => hbusy
  exact List.Sublist.refl _

/-- A coroutine that is in no function that has begun has no record. -/
theorem clear (h : Noted s) {co : Nat} (hco : ∀ c ∈ s.calls, ¬ c.On s co) : s.Clear co where
  coSequence := by
    cases hseq : s.coSequence co with
    | none => rfl
    | some seq =>
      obtain ⟨c, hmem, _, hon, _⟩ := h.coSequence co seq hseq
      exact absurd hon (hco c hmem)
  coCallNode := by
    cases hnode : s.coCallNode co with
    | none => rfl
    | some node =>
      obtain ⟨c, hmem, _, hon⟩ := h.coCallNode co node hnode
      exact absurd hon (hco c hmem)
  sequence seq hseq := by
    obtain ⟨c, hmem, _, hon, _⟩ := h.coSequence co seq (h.sequence seq co hseq)
    exact hco c hmem hon

/-- A call that a new function is forked for has its function to itself. -/
theorem one_snoc (h : Noted s) {c : Call} (hc : c.handler = s.co.forks) :
    ∀ a ∈ s.calls ++ [c], ∀ b ∈ s.calls ++ [c], a.handler = b.handler → a = b := by
  have hnew : ∀ a ∈ s.calls, a.handler ≠ c.handler := by
    intro a ha heq
    have hlt := h.lt a ha
    rw [heq, hc] at hlt
    exact absurd hlt (Nat.lt_irrefl _)
  intro a ha b hb heq
  cases List.mem_append.mp ha with
  | inl ha =>
    cases List.mem_append.mp hb with
    | inl hb => exact h.one a ha b hb heq
    | inr hb => exact absurd (heq.trans (congrArg _ (List.mem_singleton.mp hb))) (hnew a ha)
  | inr ha =>
    cases List.mem_append.mp hb with
    | inl hb => exact absurd (heq.symm.trans (congrArg _ (List.mem_singleton.mp ha))) (hnew b hb)
    | inr hb => rw [List.mem_singleton.mp ha, List.mem_singleton.mp hb]

/-- The function of a delivery begins. -/
theorem start (h : Noted s) {t : Scheduler α} {running : Nat} (hf : Forked s.co t running) {c : Call}
    (hc : c.handler = s.co.forks) {sequence : Int → Option Nat} {coSequence : Nat → Option Int}
    (hsequence : ∀ seq co, sequence seq = some co → coSequence co = some seq)
    (hself : coSequence running = c.seq)
    (hother : ∀ co, co ≠ running → coSequence co = s.coSequence co) :
    Noted { s with
      co := t
      sequence := sequence
      coSequence := coSequence
      coCallNode := Function.update s.coCallNode running (some c.node)
      calls := s.calls ++ [c] } := by
  have hnew : c ∈ s.calls ++ [c] := List.mem_append_right _ List.mem_cons_self
  have hbegun : (t.points running).Busy c.handler := hc ▸ hf.begun
  refine ⟨hf.kept, ?_, h.one_snoc hc, hsequence, ?_, ?_, ?_, ?_, ?_⟩
  · intro c' hmem
    show c'.handler < t.forks
    rw [hf.forks]
    cases List.mem_append.mp hmem with
    | inl hmem => exact Nat.lt_succ_of_lt (h.lt c' hmem)
    | inr hmem => rw [List.mem_singleton.mp hmem, hc]; exact Nat.lt_succ_self _
  · intro co seq hseq
    by_cases heq : co = running
    · have hlater := h.later s.co.forks (Nat.le_refl _)
      rw [← hc] at hlater
      refine ⟨c, hnew, ?_, heq ▸ hbegun, ?_, hlater⟩
      · rw [← hself, ← heq]
        exact hseq
      · rw [heq]
        exact Function.update_self _ _ _
    · obtain ⟨c', hmem, hc', hon, hnode, hrest⟩ := h.coSequence co seq ((hother co heq).symm.trans hseq)
      exact ⟨c', List.mem_append_left _ hmem, hc', hf.busy co _ hon,
        (Function.update_of_ne heq _ _).trans hnode, hrest⟩
  · intro co node hnode
    by_cases heq : co = running
    · rw [heq] at hnode ⊢
      have hself' := (Function.update_self running (some c.node) s.coCallNode).symm.trans hnode
      exact ⟨c, hnew, Option.some.inj hself', hbegun⟩
    · obtain ⟨c', hmem, hc', hon⟩ :=
        h.coCallNode co node ((Function.update_of_ne heq _ _).symm.trans hnode)
      exact ⟨c', List.mem_append_left _ hmem, hc', hf.busy co _ hon⟩
  · intro f hle
    have hforks := hf.forks
    have hle' : t.forks ≤ f := hle
    exact h.later f (by omega)
  · intro entry hmem
    obtain ⟨c', hc', hentry⟩ := h.only entry hmem
    exact ⟨c', List.mem_append_left _ hc', hentry⟩
  · intro c' hmem seq hseq
    cases List.mem_append.mp hmem with
    | inl hmem =>
      cases h.answered c' hmem seq hseq with
      | inl hasked =>
        obtain ⟨co, hon, hco⟩ := hasked
        have hne : co ≠ running := fun heq => hf.fresh _ (heq ▸ hon)
        exact Or.inl ⟨co, hf.busy co _ hon, (hother co hne).trans hco⟩
      | inr hgiven => exact Or.inr hgiven
    | inr hmem =>
      rw [List.mem_singleton.mp hmem] at hseq ⊢
      exact Or.inl ⟨running, hbegun, hself.trans hseq⟩

/-- A function gives `ret` what serializes. -/
theorem give (h : Noted s) {running f : Nat} {seq : Int} {node : CallNode} (results : α)
    (hpoint : (s.co.points running).func = some f) (hseq : s.coSequence running = some seq)
    (hnode : s.coCallNode running = some node) :
    Noted { s with
      sequence := Function.update s.sequence seq none
      coSequence := Function.update s.coSequence running none
      rets := s.rets ++ [(f, results)]
      sent := s.sent ++ [(f, ⟨node, seq, some results⟩)] } := by
  obtain ⟨c, hc, hcseq, hon, hcnode, hsent, hret⟩ := h.coSequence running seq hseq
  have hf : c.handler = f := by
    rw [hon.func] at hpoint
    exact Option.some.inj hpoint
  have hlt : f < s.co.forks := hf ▸ h.lt c hc
  rw [hcnode] at hnode
  cases hnode
  rw [hf] at hsent hret
  -- The function of another call is on another coroutine, and has other entries.
  have hother : ∀ c' ∈ s.calls, ∀ co, c'.On s co → c' ≠ c → co ≠ running := by
    intro c' hmem co hon' hne heq
    rw [heq] at hon'
    have hfunc := hon'.func
    rw [hon.func] at hfunc
    exact hne (h.one c' hmem c hc (Option.some.inj hfunc).symm)
  have hentries : ∀ g, g ≠ f → entriesOf g (s.sent ++ [(f, ⟨c.node, seq, some results⟩)]) =
      s.sentBy g ∧ (entriesOf g (s.rets ++ [(f, results)])).head? = s.retOf g :=
    fun g hne => ⟨entriesOf_other hne.symm _ _, congrArg List.head? (entriesOf_other hne.symm _ _)⟩
  refine ⟨h.kept, h.lt, h.one, ?_, ?_, h.coCallNode, ?_, ?_, ?_⟩
  · intro seq' co hco
    obtain ⟨hne, hco⟩ := of_erased hco
    have hold := h.sequence seq' co hco
    have hco' : co ≠ running := by
      intro heq
      rw [heq, hseq] at hold
      exact hne (Option.some.inj hold).symm
    exact (Function.update_of_ne hco' _ _).trans hold
  · intro co seq' hco
    obtain ⟨hne, hco⟩ := of_erased hco
    obtain ⟨c', hmem, hc', hon', hnode', hsent', hret'⟩ := h.coSequence co seq' hco
    have hcne : c'.handler ≠ f := by
      intro heq
      have hfunc := hon'.func
      rw [heq] at hfunc
      exact hne (h.kept.sound.func.inj co running f hfunc hpoint)
    exact ⟨c', hmem, hc', hon', hnode', (hentries _ hcne).1.trans hsent',
      (hentries _ hcne).2.trans hret'⟩
  · intro g hle
    have hne : g ≠ f := by
      have hle' : s.co.forks ≤ g := hle
      omega
    exact ⟨(hentries g hne).1.trans (h.later g hle).1, (hentries g hne).2.trans (h.later g hle).2⟩
  · exact forall_snoc h.only ⟨c, hc, hf, rfl, hcseq⟩
  · intro c' hmem seq' hseq'
    by_cases heq : c' = c
    · rw [heq] at hseq' ⊢
      rw [hcseq] at hseq'
      cases hseq'
      refine Or.inr ⟨results, ?_, ?_⟩
      · show (entriesOf c.handler (s.rets ++ [(f, results)])).head? = some results
        rw [hf, entriesOf_self, List.head?_append]
        rw [Harbor.retOf] at hret
        rw [hret]
        rfl
      · show entriesOf c.handler (s.sent ++ [(f, _)]) = _
        rw [hf, entriesOf_self]
        rw [Harbor.sentBy] at hsent
        rw [hsent]
        rfl
    · cases h.answered c' hmem seq' hseq' with
      | inl hasked =>
        obtain ⟨co, hon', hco⟩ := hasked
        exact Or.inl ⟨co, hon',
          (Function.update_of_ne (hother c' hmem co hon' heq) _ _).trans hco⟩
      | inr hgiven =>
        have hne : c'.handler ≠ f := fun hhandler => heq (h.one c' hmem c hc (hhandler.trans hf.symm))
        obtain ⟨a, ha, hsent'⟩ := hgiven
        exact Or.inr ⟨a, (hentries _ hne).2.trans ha, (hentries _ hne).1.trans hsent'⟩

/-- A coroutine that owes no answer leaves its function. -/
theorem leave (h : Noted s) {t : Scheduler α} {running : Nat} (hseq : s.coSequence running = none)
    (hk : Kept t) (hforks : s.co.forks ≤ t.forks)
    (hbusy : ∀ n f, n ≠ running → (s.co.points n).Busy f → (t.points n).Busy f) :
    Noted { s with
      co := t
      coSequence := Function.update s.coSequence running none
      coCallNode := Function.update s.coCallNode running none } := by
  have hsame : Function.update s.coSequence running none = s.coSequence := by
    rw [← hseq]
    exact Function.update_eq_self _ _
  rw [hsame]
  have hasked : ∀ co seq, s.coSequence co = some seq → co ≠ running := by
    intro co seq hco heq
    rw [heq, hseq] at hco
    cases hco
  refine ⟨hk, fun c hmem => Nat.lt_of_lt_of_le (h.lt c hmem) hforks, h.one, h.sequence, ?_, ?_,
    fun f hle => h.later f (Nat.le_trans hforks hle), h.only, ?_⟩
  · intro co seq hco
    obtain ⟨c, hmem, hc, hon, hnode, hrest⟩ := h.coSequence co seq hco
    have hne := hasked co seq hco
    exact ⟨c, hmem, hc, hbusy co _ hne hon, (Function.update_of_ne hne _ _).trans hnode, hrest⟩
  · intro co node hnode
    obtain ⟨hne, hnode⟩ := of_erased hnode
    obtain ⟨c, hmem, hc, hon⟩ := h.coCallNode co node hnode
    exact ⟨c, hmem, hc, hbusy co _ hne hon⟩
  · intro c hmem seq hcseq
    cases h.answered c hmem seq hcseq with
    | inl hasked' =>
      obtain ⟨co, hon, hco⟩ := hasked'
      exact Or.inl ⟨co, hbusy co _ (hasked co seq hco) hon, hco⟩
    | inr hgiven => exact Or.inr hgiven

/-! ## Steps -/

variable {s' : Harbor α} {serializes : α → Bool}

theorem fork (h : Noted s) {t : Thread} (hactive : s.co.active = some t) {calls : List Call}
    {onCoCreated : Nat → Harbor α → Harbor α}
    (hco : ∀ running (u : Harbor α), (onCoCreated running u).co = u.co)
    (hs : ({ s with calls := calls } : Harbor α).fork t onCoCreated = some s') :
    ∃ running co co', Forked s.co co' running ∧
      s' = { onCoCreated running { s with co := co, calls := calls } with co := co' } := by
  obtain ⟨co, hfork, hs⟩ := Option.bind_eq_some_iff.mp hs
  dsimp only at hs
  split at hs
  · next running frames hframes =>
    obtain ⟨co', hcreated, hs⟩ := Option.bind_eq_some_iff.mp hs
    rw [hco] at hcreated
    exact ⟨running, co, co', forked h.kept hactive hfork hframes hcreated, (Option.some.inj hs).symm⟩
  · cases hs

theorem rpc (h : Noted s) {t : Thread} (hactive : s.co.active = some t) {node : CallNode}
    {seq : Option Int} {func : Option String} (hs : s.rpc t node seq func = some s') : Noted s' := by
  cases seq with
  | none =>
    cases hs
    exact h.raise t
  | some seq =>
    simp only [Harbor.rpc] at hs
    split at hs
    · have hco : ∀ running (u : Harbor α), (Harbor.rpcCreated node seq running u).co = u.co :=
        fun _ _ => rfl
      obtain ⟨running, co, co', hf, heq⟩ := h.fork hactive hco hs
      have hc : (⟨s.co.forks, node, some seq⟩ : Call).handler = s.co.forks := rfl
      rw [heq]
      refine h.start hf hc ?_ (Function.update_self _ _ _) (fun n hne => Function.update_of_ne hne _ _)
      intro seq' n hn
      by_cases hsame : seq' = seq
      · rw [hsame] at hn ⊢
        change Function.update s.sequence seq (some running) seq = some n at hn
        rw [Function.update_self] at hn
        cases hn
        exact Function.update_self running (some seq) s.coSequence
      · have hold := h.sequence seq' n ((Function.update_of_ne hsame _ _).symm.trans hn)
        have hne : n ≠ running := by
          intro heq'
          rw [heq', (h.clear fun c _ => hf.fresh c.handler).coSequence] at hold
          cases hold
        exact (Function.update_of_ne hne _ _).trans hold
    · cases hs
      exact h.raise t

theorem rpcnr (h : Noted s) {t : Thread} (hactive : s.co.active = some t) {node : CallNode}
    {func : Option String} (hs : s.rpcnr t node func = some s') : Noted s' := by
  simp only [Harbor.rpcnr] at hs
  split at hs
  · have hco : ∀ running (u : Harbor α), (Harbor.rpcnrCreated node running u).co = u.co :=
      fun _ _ => rfl
    obtain ⟨running, co, co', hf, heq⟩ := h.fork hactive hco hs
    have hc : (⟨s.co.forks, node, none⟩ : Call).handler = s.co.forks := rfl
    rw [heq]
    exact h.start hf hc h.sequence (h.clear fun c _ => hf.fresh c.handler).coSequence
      fun _ _ => rfl
  · cases hs
    exact h.raise t

theorem ret (h : Noted s) {t : Thread} (hactive : s.co.active = some t) {results : α}
    (hans : answers serializes s (.ret results) = true)
    (hs : s.ret serializes t results = some s') : Noted s' := by
  cases t with
  | call k =>
    cases hs
    exact h.raise _
  | co running =>
    cases hseq : s.coSequence running with
    | none =>
      simp only [Harbor.ret, hseq] at hs
      cases hs
      exact h.raise _
    | some seq =>
      have howes : s.owes = true := by
        obtain ⟨rest, hstack⟩ := stack_of_active hactive
        simp [Harbor.owes, hstack, hseq]
      have hserializes : serializes results = true := by
        rw [answers, howes] at hans
        exact hans
      obtain ⟨c, _, _, hon, hnode, _⟩ := h.coSequence running seq hseq
      simp only [Harbor.ret, hseq, hon.func, Harbor.setCoSequence, Harbor.setSequence, hnode,
        hserializes, if_true] at hs
      cases hs
      exact h.give results hon.func hseq hnode

/-- A coroutine leaves its function, and the listener does not assert. -/
theorem exit (h : Noted s) {l : CoLabel α} (howes : s.owes = false)
    (hs : s.exit l = some s') : Noted s' := by
  unfold Harbor.exit at hs
  split at hs
  · next running t rest hstack =>
    have hseq : s.coSequence running = none := by
      simpa [Harbor.owes, hstack] using howes
    split at hs
    · next co f hstep hpoint =>
      split at hs
      · next frames hframes =>
        simp only [Harbor.exitListener, hseq, if_true] at hs
        obtain ⟨co', hlistened, hs⟩ := Option.bind_eq_some_iff.mp hs
        cases hs
        have hk := h.kept.step hstep
        have hmove := step_cases h.kept.sound hstep
        have hmove' := step_cases hk.sound hlistened
        refine h.leave hseq (hk.step hlistened) (Nat.le_trans hmove.forks hmove'.forks) ?_
        intro n f' hne hbusy
        have hbusy' : (co.points n).Busy f' := by
          refine (hmove.busy h.kept.sound hbusy).resolve_right fun htop => ?_
          obtain ⟨below, hbelow, _⟩ := htop
          rw [hstack] at hbelow
          cases hbelow
          exact hne rfl
        exact (hmove'.busy hk.sound hbusy').resolve_right (by simp)
      · cases hs
    · cases hs
  · next hnot =>
    obtain ⟨co, hstep, hs⟩ := Option.bind_eq_some_iff.mp hs
    cases hs
    have hmove := step_cases h.kept.sound hstep
    refine h.goOn (h.kept.step hstep) hmove.forks fun n f hbusy => ?_
    refine (hmove.busy h.kept.sound hbusy).resolve_right fun htop => ?_
    obtain ⟨below, hstack, _⟩ := htop
    obtain ⟨_, t, rest, hbelow⟩ := h.kept.sound.stack.above hstack
    exact hnot n t rest (by rw [hstack, hbelow])

theorem step (h : Noted s) {l : HarborLabel α} (hans : answers serializes s l = true)
    (hs : s.step serializes l = some s') : Noted s' := by
  have hother : ∀ l : CoLabel α, l ≠ .finish → l ≠ .throw →
      (s.co.step l).bind (fun co => some { s with co := co }) = some s' → Noted s' := by
    intro l hfinish hthrow hs
    obtain ⟨co, hstep, hs⟩ := Option.bind_eq_some_iff.mp hs
    cases hs
    have hmove := step_cases h.kept.sound hstep
    refine h.goOn (h.kept.step hstep) hmove.forks fun n f hbusy => ?_
    refine (hmove.busy h.kept.sound hbusy).resolve_right fun htop => ?_
    obtain ⟨_, _, hl⟩ := htop
    cases hl with
    | inl hl => exact hfinish hl
    | inr hl => exact hthrow hl
  cases l with
  | register name =>
    cases hs
    exact ⟨h.kept, h.lt, h.one, h.sequence, h.coSequence, h.coCallNode, h.later, h.only, h.answered⟩
  | onCall node seq func =>
    obtain ⟨t, hactive, hs⟩ := Option.bind_eq_some_iff.mp hs
    exact h.rpc hactive hs
  | onCallNoRet node func =>
    obtain ⟨t, hactive, hs⟩ := Option.bind_eq_some_iff.mp hs
    exact h.rpcnr hactive hs
  | ret results =>
    obtain ⟨t, hactive, hs⟩ := Option.bind_eq_some_iff.mp hs
    exact h.ret hactive hans hs
  | co l =>
    cases l with
    | listened => cases hs
    | finish => exact h.exit (by simpa [answers] using hans) hs
    | throw => exact h.exit (by simpa [answers] using hans) hs
    | enter => exact hother .enter (by simp) (by simp) hs
    | leave => exact hother .leave (by simp) (by simp) hs
    | fork => exact hother .fork (by simp) (by simp) hs
    | created => exact hother .created (by simp) (by simp) hs
    | respone seq a => exact hother (.respone seq a) (by simp) (by simp) hs
    | createSequence => exact hother .createSequence (by simp) (by simp) hs
    | wait => exact hother .wait (by simp) (by simp) hs
    | yield => exact hother .yield (by simp) (by simp) hs
    | caught n => exact hother (.caught n) (by simp) (by simp) hs

/-! ## What follows -/

theorem not_on_exited (h : Noted s) {c : Call} (hmem : c ∈ s.calls) (hexited : c.Exited s) (co : Nat) :
    ¬ c.On s co := by
  intro hon
  cases h.kept.forks.life c.handler (h.lt c hmem) with
  | staged _ _ hends _ =>
    rw [hexited] at hends
    cases hends
  | busy _ _ hends =>
    rw [hexited] at hends
    cases hends
  | ended hpoint _ _ => exact hpoint co hon.func

theorem responded (h : Noted s) : Responded s where
  once c hmem hexited seq hseq := by
    cases h.answered c hmem seq hseq with
    | inl hasked =>
      obtain ⟨co, hon, _⟩ := hasked
      exact absurd hon (h.not_on_exited hmem hexited co)
    | inr hgiven =>
      obtain ⟨a, ha, hsent⟩ := hgiven
      rw [ha, hsent]
  only := h.only
  clear c _ _ co _ hco := h.clear hco
  free c _ _ seq _ hall := by
    have hnone : ∀ co, s.coSequence co ≠ some seq := by
      intro co hco
      obtain ⟨c', hmem, hseq', hon, _⟩ := h.coSequence co seq hco
      exact h.not_on_exited hmem (hall c' hmem hseq') co hon
    refine ⟨?_, hnone⟩
    cases hco : s.sequence seq with
    | none => rfl
    | some co => exact absurd (h.sequence seq co hco) (hnone co)
  pooled co hmem := by
    refine h.clear fun c _ hon => ?_
    have hfunc := hon.func
    rw [h.kept.sound.pool.idle co hmem] at hfunc
    cases hfunc

end Noted

/-- As long as every call is answered before its function ends. -/
theorem call_responded {serializes : α → Bool} {s : Harbor α}
    (h : (harborSystem serializes).Run (fun s l => answers serializes s l = true) s) :
    Responded s :=
  (h.invariant .init fun _ _ _ hans hn hs => hn.step hans hs : Noted s).responded

/-- A call that is answered, whose function waits before and after, and another that is not to be
answered. -/
def answeringScript : List (HarborLabel Nat) :=
  [.register "add", .co .enter, .onCall ⟨3, 1⟩ (some 2) (some "add"), .co .wait, .co .yield,
    .co (.respone 2 0), .ret 3, .co .wait, .co .yield, .co (.respone 3 0), .co .finish,
    .onCallNoRet ⟨3, 1⟩ (some "add"), .co .throw, .co (.caught 1), .co .leave]

theorem call_responded_once : ∃ s : Harbor Nat, Responded s ∧
    s.calls = [⟨0, ⟨3, 1⟩, some 2⟩, ⟨1, ⟨3, 1⟩, none⟩] ∧ s.sentBy 0 = [⟨⟨3, 1⟩, 2, some 3⟩] := by
  obtain ⟨s, hrun, hs⟩ := System.run_of_exec (M := harborSystem fun _ : Nat => true)
    (P := fun s l => answers (fun _ => true) s l = true) answeringScript
    (p := fun s => s.calls == [⟨0, ⟨3, 1⟩, some 2⟩, ⟨1, ⟨3, 1⟩, none⟩] &&
      s.sentBy 0 == [⟨⟨3, 1⟩, 2, some 3⟩]) (by decide)
  simp only [Bool.and_eq_true, beq_iff_eq] at hs
  exact ⟨s, call_responded hrun, hs⟩

/-- A function that returns without `ret`: the listener asserts before it answers, and what is in
the tables stays there when the coroutine is back in the pool. -/
def unansweredScript : List (HarborLabel Nat) :=
  [.register "add", .co .enter, .onCall ⟨3, 1⟩ (some 2) (some "add"), .co .finish, .co .throw]

theorem call_unanswered : ∃ s : Harbor Nat, (harborSystem fun _ : Nat => true).Reachable s ∧
    s.co.stack = [] ∧ (∀ c ∈ s.calls, c.Exited s) ∧ s.calls = [⟨0, ⟨3, 1⟩, some 2⟩] ∧ s.sent = [] ∧
      s.co.coroutinePool = [0] ∧ s.coSequence 0 = some 2 ∧ ¬ Responded s := by
  obtain ⟨s, hreach, hs⟩ := System.run_of_exec (M := harborSystem fun _ : Nat => true)
    (P := fun _ _ => True) unansweredScript
    (p := fun s => s.co.stack == [] && s.calls == [⟨0, ⟨3, 1⟩, some 2⟩] && s.sent == [] &&
      s.co.coroutinePool == [0] && s.coSequence 0 == some 2 &&
      s.calls.all (fun c => s.co.trace.any (CoEvent.ends c.handler))) (by decide)
  simp only [Bool.and_eq_true, beq_iff_eq, List.all_eq_true] at hs
  obtain ⟨⟨⟨⟨⟨hstack, hcalls⟩, hsent⟩, hpool⟩, hseq⟩, hexited⟩ := hs
  refine ⟨s, hreach, hstack, hexited, hcalls, hsent, hpool, hseq, fun h => ?_⟩
  have hclear := h.pooled 0 (by rw [hpool]; exact List.mem_cons_self)
  rw [hclear.coSequence] at hseq
  cases hseq

end HyperNet.Script
