import HyperNet.Script.Network
import HyperNet.Script.Response

/-! # The response to a call

A response finds the wait of the call that it answers when the caller has not been restarted
since, its numbers have not come round, and `ret` is only called by functions that answer the
call they have been started for. -/
namespace HyperNet.Script
open HyperNet.Core.History HyperNet.Core.Transition

variable {α : Type}

/-! ## What a step of the scripts does -/

/-- The coroutines go on, and those that wait stay where they are, but for some. -/
structure Goes (freed : Nat → Prop) (s t : Scheduler α) : Prop where
  kept : Kept t
  forks : s.forks ≤ t.forks
  waiting : ∀ co f seq, ¬ freed co → s.points co = .waiting f seq → t.points co = .waiting f seq

namespace Goes
variable {freed : Nat → Prop} {s t u : Scheduler α}

theorem refl (h : Kept s) : Goes freed s s := ⟨h, Nat.le_refl _, fun _ _ _ _ hpoint => hpoint⟩

theorem trans (h : Goes freed s t) (h' : Goes freed t u) : Goes freed s u :=
  ⟨h'.kept, Nat.le_trans h.forks h'.forks, fun co f seq hco hpoint =>
    h'.waiting co f seq hco (h.waiting co f seq hco hpoint)⟩

theorem mono {freed' : Nat → Prop} (h : Goes freed s t) (hfreed : ∀ co, freed co → freed' co) :
    Goes freed' s t :=
  ⟨h.kept, h.forks, fun co f seq hco => h.waiting co f seq fun hf => hco (hfreed co hf)⟩

end Goes

/-- The coroutine that a label of co.lua resumes from its wait. -/
def CoLabel.Frees (l : CoLabel α) (s : Scheduler α) (co : Nat) : Prop :=
  ∃ seq a, l = .respone seq a ∧ s.waitSequence seq = some co

theorem Moves.goes {s t : Scheduler α} {l : CoLabel α} (h : Kept s) (hmove : Moves s l t) :
    Goes (l.Frees s) s t := by
  refine ⟨h.move hmove, hmove.forks, fun co f seq hfreed hpoint => ?_⟩
  have haway : ∀ {other : Nat}, ¬ (s.points other).IsWaiting → ∀ p : Point,
      Function.update s.points other p co = .waiting f seq := by
    intro other hother p
    have hne : co ≠ other := fun heq => hother ⟨f, seq, heq ▸ hpoint⟩
    rw [Function.update_of_ne hne, hpoint]
  cases hmove with
  | enter => exact hpoint
  | leave hstack => exact hpoint
  | forkNew hactive hpool =>
    exact haway (by rw [h.sound.func.unborn _ (Nat.le_refl _)]; simp [Point.IsWaiting]) _
  | @forkPooled _ other pool hactive hpool =>
    have hidle := h.sound.pool.idle other (by rw [hpool]; exact List.mem_cons_self)
    exact haway (by rw [hidle]; simp [Point.IsWaiting]) _
  | start hstack hframes hstaged => exact haway hstaged.away.2.2.1 _
  | ignore hwait => exact hpoint
  | @answer seq' a other g hstack hwait hother =>
    have hne : co ≠ other := fun heq => hfreed ⟨seq', a, rfl, heq ▸ hwait⟩
    exact (Function.update_of_ne hne _ _).trans hpoint
  | createSequence => exact hpoint
  | wait => exact hpoint
  | yield hstack hframes hrunning => exact haway (by rw [hrunning]; exact not_waiting_running _) _
  | settle hl hfilter hforking => exact hpoint
  | finish hstack hrunning => exact haway (by rw [hrunning]; exact not_waiting_running _) _
  | throwCall hstack => exact hpoint
  | throwCo hstack hrunning => exact haway (by rw [hrunning]; exact not_waiting_running _) _
  | caught => exact hpoint

theorem goes_of_step {s t : Scheduler α} {l : CoLabel α} (h : Kept s) (hs : s.step l = some t) :
    Goes (l.Frees s) s t := (step_cases h.sound hs).goes h

/-- A label that answers no wait. -/
theorem goes_quiet {s t : Scheduler α} {l : CoLabel α} (h : Kept s) (hs : s.step l = some t)
    (hl : ∀ seq a, l ≠ .respone seq a) (freed : Nat → Prop) : Goes freed s t := by
  refine (goes_of_step h hs).mono fun co hfreed => ?_
  obtain ⟨seq, a, heq, _⟩ := hfreed
  exact absurd heq (hl seq a)

/-- The coroutine that a label of the scripts resumes from its wait. -/
def HarborLabel.Frees (l : HarborLabel α) (s : Harbor α) (co : Nat) : Prop :=
  ∃ seq a, l = .co (.respone seq a) ∧ s.co.waitSequence seq = some co

/-- A delivery to a registered function, with its number. -/
def HarborLabel.delivery : HarborLabel α → Option (CallNode × Option Int)
  | .onCall node seq _ => some (node, seq)
  | .onCallNoRet node _ => some (node, none)
  | .register _ | .ret _ | .co _ => none

/-- A function answers, as the tables have it. -/
structure Harbor.Gives (s : Harbor α) (running f : Nat) (response : Response α) : Prop where
  top : ∃ rest, s.co.stack = .co running :: rest
  func : (s.co.points running).func = some f
  seq : s.coSequence running = some response.seq
  node : s.coCallNode running = some response.node

/-- What a step of the scripts can do. -/
structure Stepped (s s' : Harbor α) (l : HarborLabel α) : Prop where
  goes : Goes (l.Frees s) s.co s'.co
  calls : s'.calls = s.calls ∨ ∃ node seq, l.delivery = some (node, seq) ∧
    s'.calls = s.calls ++ [⟨s.co.forks, node, seq⟩] ∧ s.co.forks < s'.co.forks
  sent : s'.sent = s.sent ∨ ∃ running f response results, l = .ret results ∧
    s.Gives running f response ∧ s'.sent = s.sent ++ [(f, response)]

namespace Stepped
variable {s s' : Harbor α} {l : HarborLabel α}

/-- Neither a call nor an answer. -/
theorem goOn {t : Scheduler α} (h : Goes (l.Frees s) s.co t) (hco : s'.co = t)
    (hcalls : s'.calls = s.calls) (hsent : s'.sent = s.sent) : Stepped s s' l :=
  ⟨hco ▸ h, Or.inl hcalls, Or.inl hsent⟩

theorem raise (h : Kept s.co) (t : Thread) : Stepped s (s.raise t) l := by
  have hk : Kept (s.co.push t .raising) :=
    h.settle (List.Sublist.refl _) fun co hmem => List.mem_cons_of_mem _ hmem
  exact goOn ⟨hk, Nat.le_refl _, fun _ _ _ _ hpoint => hpoint⟩ rfl rfl rfl

theorem fork (h : Kept s.co) {t : Thread} {node : CallNode} {seq : Option Int}
    (hl : l.delivery = some (node, seq)) (onCoCreated : Nat → Harbor α → Harbor α)
    (hco : ∀ running (u : Harbor α), (onCoCreated running u).co = u.co)
    (hcalls : ∀ running (u : Harbor α), (onCoCreated running u).calls = u.calls)
    (hsent : ∀ running (u : Harbor α), (onCoCreated running u).sent = u.sent)
    (hs : ({ s with calls := s.calls ++ [⟨s.co.forks, node, seq⟩] } : Harbor α).fork t onCoCreated =
      some s') : Stepped s s' l := by
  obtain ⟨co, hfork, hs⟩ := Option.bind_eq_some_iff.mp hs
  dsimp only at hs
  split at hs
  · obtain ⟨co', hcreated, hs⟩ := Option.bind_eq_some_iff.mp hs
    rw [hco] at hcreated
    cases hs
    have hgo := goes_quiet (h.step hfork) hcreated (by simp) (l.Frees s)
    have hlt : s.co.forks < co.forks := by
      obtain ⟨t', _, hfork⟩ := Option.bind_eq_some_iff.mp hfork
      obtain ⟨⟨n, s''⟩, hcreate, hfork⟩ := Option.bind_eq_some_iff.mp hfork
      cases hfork
      rcases createCo_cases h.sound hcreate with ⟨_, _, rfl⟩ | ⟨pool, _, rfl⟩
      · exact Nat.lt_succ_self _
      · exact Nat.lt_succ_self _
    refine ⟨(goes_quiet h hfork (by simp) _).trans hgo, Or.inr ⟨node, seq, hl, hcalls _ _, ?_⟩,
      Or.inl (hsent _ _)⟩
    exact Nat.lt_of_lt_of_le hlt hgo.forks
  · cases hs

theorem ret {serializes : α → Bool} (h : Kept s.co) {t : Thread} (hactive : s.co.active = some t)
    {results : α} (hs : s.ret serializes t results = some s') : Stepped s s' (.ret results) := by
  cases t with
  | call k =>
    cases hs
    exact raise h _
  | co running =>
    cases hseq : s.coSequence running with
    | none =>
      simp only [Harbor.ret, hseq] at hs
      cases hs
      exact raise h _
    | some seq =>
      cases hfunc : (s.co.points running).func with
      | none =>
        simp only [Harbor.ret, hseq, hfunc] at hs
        cases hs
      | some f =>
        have hk : Kept (s.co.push (.co running) .raising) :=
          h.settle (List.Sublist.refl _) fun co hmem => List.mem_cons_of_mem _ hmem
        have hraise : Goes (HarborLabel.Frees (.ret results) s) s.co
            (s.co.push (.co running) .raising) :=
          ⟨hk, Nat.le_refl _, fun _ _ _ _ hpoint => hpoint⟩
        cases hnode : s.coCallNode running with
        | none =>
          simp only [Harbor.ret, hseq, hfunc, Harbor.setCoSequence, Harbor.setSequence, hnode] at hs
          cases hs
          exact goOn hraise rfl rfl rfl
        | some node =>
          simp only [Harbor.ret, hseq, hfunc, Harbor.setCoSequence, Harbor.setSequence, hnode] at hs
          split at hs
          · cases hs
            exact ⟨.refl h, Or.inl rfl, Or.inr ⟨running, f, ⟨node, seq, some results⟩, results, rfl,
              ⟨stack_of_active hactive, hfunc, hseq, hnode⟩, rfl⟩⟩
          · cases hs
            exact goOn hraise rfl rfl rfl

theorem exit (h : Kept s.co) {cl : CoLabel α} (hcl : ∀ seq a, cl ≠ .respone seq a)
    (hs : s.exit cl = some s') : Stepped s s' l := by
  unfold Harbor.exit at hs
  split at hs
  · next running t rest hstack =>
    split at hs
    · next co f hstep hpoint =>
      have hgo : Goes (l.Frees s) s.co co := goes_quiet h hstep hcl _
      split at hs
      · next n failed frames hframes =>
        cases hseq : s.coSequence running with
        | none =>
          simp only [Harbor.exitListener, hseq, if_true] at hs
          obtain ⟨co', hlistened, hs⟩ := Option.bind_eq_some_iff.mp hs
          cases hs
          exact goOn (hgo.trans (goes_quiet hgo.kept hlistened (by simp) _)) rfl rfl rfl
        | some seq =>
          simp only [Harbor.exitListener, hseq] at hs
          cases hs
          have hk : Kept (co.setFrames t (.raising :: frames)) := by
            refine hgo.kept.settle ?_ ?_
            · rw [hframes]
              exact List.Sublist.refl _
            · intro other hmem
              rw [hframes] at hmem
              exact List.mem_cons_of_mem _ ((List.mem_cons.mp hmem).resolve_left (by simp))
          exact goOn ⟨hk, hgo.forks, hgo.waiting⟩ rfl rfl rfl
      · cases hs
    · cases hs
  · obtain ⟨co, hstep, hs⟩ := Option.bind_eq_some_iff.mp hs
    cases hs
    exact goOn (goes_quiet h hstep hcl _) rfl rfl rfl

theorem of_step {serializes : α → Bool} (h : Kept s.co) (hs : s.step serializes l = some s') :
    Stepped s s' l := by
  have hother : ∀ cl : CoLabel α, l = .co cl →
      (s.co.step cl).bind (fun co => some { s with co := co }) = some s' → Stepped s s' l := by
    intro cl hl hs
    obtain ⟨co, hstep, hs⟩ := Option.bind_eq_some_iff.mp hs
    cases hs
    refine goOn ((goes_of_step h hstep).mono fun n hfreed => ?_) rfl rfl rfl
    obtain ⟨seq, a, heq, hwait⟩ := hfreed
    exact ⟨seq, a, by rw [hl, heq], hwait⟩
  cases l with
  | register name =>
    cases hs
    exact goOn (.refl h) rfl rfl rfl
  | onCall node seq func =>
    obtain ⟨t, hactive, hs⟩ := Option.bind_eq_some_iff.mp hs
    cases seq with
    | none =>
      cases hs
      exact raise h t
    | some seq =>
      simp only [Harbor.rpc] at hs
      split at hs
      · exact fork h rfl (Harbor.rpcCreated node seq) (fun _ _ => rfl) (fun _ _ => rfl)
          (fun _ _ => rfl) hs
      · cases hs
        exact raise h t
  | onCallNoRet node func =>
    obtain ⟨t, hactive, hs⟩ := Option.bind_eq_some_iff.mp hs
    simp only [Harbor.rpcnr] at hs
    split at hs
    · exact fork h rfl (Harbor.rpcnrCreated node) (fun _ _ => rfl) (fun _ _ => rfl)
        (fun _ _ => rfl) hs
    · cases hs
      exact raise h t
  | ret results =>
    obtain ⟨t, hactive, hs⟩ := Option.bind_eq_some_iff.mp hs
    exact ret h hactive hs
  | co cl =>
    cases cl with
    | listened => cases hs
    | finish => exact exit h (by simp) hs
    | throw => exact exit h (by simp) hs
    | enter => exact hother .enter rfl hs
    | leave => exact hother .leave rfl hs
    | fork => exact hother .fork rfl hs
    | created => exact hother .created rfl hs
    | respone seq a => exact hother (.respone seq a) rfl hs
    | createSequence => exact hother .createSequence rfl hs
    | wait => exact hother .wait rfl hs
    | yield => exact hother .yield rfl hs
    | caught n => exact hother (.caught n) rfl hs

end Stepped

/-! ## The condition -/

/-- The function that runs and is to answer a call, as the tables have it, has been started for
that call. -/
def Harbor.ownCall (s : Harbor α) : Bool :=
  match s.co.stack with
  | .co running :: _ =>
    match (s.co.points running).func, s.coCallNode running, s.coSequence running with
    | some f, some node, some seq => s.calls.contains ⟨f, node, some seq⟩
    | _, _, _ => true
  | _ => true

/-- The number has not been that of an earlier call of the process. -/
def Network.newNumber (s : Network α) (node : CallNode) : Bool :=
  s.asked.all fun c => !(c.caller == node && c.incarnation == (s.processes node).incarnation &&
    c.seq == (s.processes node).harbor.co.createSequence.1)

/-- The response is for a call of the process that it reaches, or finds no wait there. -/
def Network.ownResponse (s : Network α) (packet : Packet α) : Bool :=
  match packet.message with
  | .respone (some c) seq _ =>
    c.incarnation == (s.processes packet.target).incarnation ||
      (s.processes packet.target).harbor.co.waitSequence seq == none
  | _ => true

def correlates (s : Network α) : NetworkLabel α → Bool
  | .script node (.ret _) => (s.processes node).harbor.ownCall
  | .call node _ _ => s.newNumber node
  | .deliver i => s.flight[i]?.all s.ownResponse
  | _ => true

/-! ## Where calls and responses come from -/

/-- What holds of a process of a node. -/
structure ProcessOk (asked : List Asked) (node : CallNode) (p : Process α) : Prop where
  kept : Kept p.harbor.co
  lt : ∀ k ∈ p.harbor.calls, k.handler < p.harbor.co.forks
  calling : ∀ co c, p.calling co = some c → c ∈ asked ∧ c.caller = node ∧
    c.incarnation = p.incarnation ∧ ∃ f, p.harbor.co.points co = .waiting f c.seq
  origins : ∀ k ∈ p.harbor.calls, ∀ seq, k.seq = some seq → ∃ c ∈ asked,
    p.origins k.handler = some c ∧ c.caller = k.node ∧ c.callee = node ∧ c.seq = seq

/-- What holds of a packet. -/
structure PacketOk (asked : List Asked) (packet : Packet α) : Prop where
  rpc : ∀ c func, packet.message = .rpc c func →
    c ∈ asked ∧ packet.source = c.caller ∧ packet.target = c.callee
  respone : ∀ answered seq results, packet.message = .respone answered seq results →
    ∃ c ∈ asked, answered = some c ∧ packet.source = c.callee ∧ packet.target = c.caller ∧
      c.seq = seq

structure Traced (s : Network α) : Prop where
  processes : ∀ node, ProcessOk s.asked node (s.processes node)
  flight : ∀ packet ∈ s.flight, PacketOk s.asked packet
  unique : ∀ c ∈ s.asked, ∀ c' ∈ s.asked, c.caller = c'.caller → c.incarnation = c'.incarnation →
    c.seq = c'.seq → c = c'

namespace ProcessOk
variable {asked asked' : List Asked} {node : CallNode} {p : Process α}

theorem start (incarnation : Nat) : ProcessOk asked node (.start incarnation : Process α) where
  kept := .init
  lt k hmem := absurd hmem List.not_mem_nil
  calling co c h := absurd h (by simp [Process.start])
  origins k hmem := absurd hmem List.not_mem_nil

theorem mono (h : ProcessOk asked node p) (hsub : ∀ c ∈ asked, c ∈ asked') :
    ProcessOk asked' node p where
  kept := h.kept
  lt := h.lt
  calling co c hc := ⟨hsub c (h.calling co c hc).1, (h.calling co c hc).2⟩
  origins k hmem seq hseq := by
    obtain ⟨c, hc, hrest⟩ := h.origins k hmem seq hseq
    exact ⟨c, hsub c hc, hrest⟩

/-- A step of the scripts that is no delivery and resumes no call. -/
theorem stepped (h : ProcessOk asked node p) {harbor : Harbor α} {l : HarborLabel α}
    (hs : Stepped p.harbor harbor l) (hl : l.delivery = none) {calling : Nat → Option Asked}
    (hcalling : ∀ co c, calling co = some c → p.calling co = some c ∧ ¬ l.Frees p.harbor co) :
    ProcessOk asked node { p with harbor := harbor, calling := calling } := by
  have hcalls : harbor.calls = p.harbor.calls := by
    refine hs.calls.resolve_right fun hnew => ?_
    obtain ⟨n, seq, hdelivery, _⟩ := hnew
    rw [hl] at hdelivery
    cases hdelivery
  refine ⟨hs.goes.kept, ?_, ?_, ?_⟩
  · intro k hmem
    exact Nat.lt_of_lt_of_le (h.lt k (hcalls ▸ hmem)) hs.goes.forks
  · intro co c hc
    obtain ⟨hold, hfrees⟩ := hcalling co c hc
    obtain ⟨hmem, hcaller, hincarnation, f, hf⟩ := h.calling co c hold
    exact ⟨hmem, hcaller, hincarnation, f, hs.goes.waiting co f c.seq hfrees hf⟩
  · intro k hmem
    exact h.origins k (hcalls ▸ hmem)

/-- A delivery. -/
theorem delivered (h : ProcessOk asked node p) {harbor : Harbor α} {l : HarborLabel α}
    (hs : Stepped p.harbor harbor l) (hfrees : ∀ co, ¬ l.Frees p.harbor co)
    {origins : Nat → Option Asked}
    (horigins : ∀ f, f ≠ p.harbor.co.forks → origins f = p.origins f)
    (hnew : ∀ n seq, l.delivery = some (n, some seq) → ∃ c ∈ asked,
      origins p.harbor.co.forks = some c ∧ c.caller = n ∧ c.callee = node ∧ c.seq = seq) :
    ProcessOk asked node { p with harbor := harbor, origins := origins } := by
  refine ⟨hs.goes.kept, ?_, ?_, ?_⟩
  · intro k hmem
    cases hs.calls with
    | inl hcalls => exact Nat.lt_of_lt_of_le (h.lt k (hcalls ▸ hmem)) hs.goes.forks
    | inr hcalls =>
      obtain ⟨n, seq, _, hcalls, hforks⟩ := hcalls
      rw [hcalls] at hmem
      cases List.mem_append.mp hmem with
      | inl hmem => exact Nat.lt_of_lt_of_le (h.lt k hmem) hs.goes.forks
      | inr hmem =>
        rw [List.mem_singleton.mp hmem]
        exact hforks
  · intro co c hc
    obtain ⟨hmem, hcaller, hincarnation, f, hf⟩ := h.calling co c hc
    exact ⟨hmem, hcaller, hincarnation, f, hs.goes.waiting co f c.seq (hfrees co) hf⟩
  · intro k hmem seq hseq
    have hold : k ∈ p.harbor.calls → ∃ c ∈ asked,
        origins k.handler = some c ∧ c.caller = k.node ∧ c.callee = node ∧ c.seq = seq := by
      intro hmem
      rw [horigins k.handler (Nat.ne_of_lt (h.lt k hmem))]
      exact h.origins k hmem seq hseq
    cases hs.calls with
    | inl hcalls => exact hold (hcalls ▸ hmem)
    | inr hcalls =>
      obtain ⟨n, seq', hdelivery, hcalls, _⟩ := hcalls
      rw [hcalls] at hmem
      cases List.mem_append.mp hmem with
      | inl hmem => exact hold hmem
      | inr hmem =>
        rw [List.mem_singleton.mp hmem] at hseq ⊢
        rw [show seq' = some seq from hseq] at hdelivery
        exact hnew n seq hdelivery

/-- What a call of the scripts leaves: its coroutine waits for the number, the others go on. -/
theorem suspended_of_call {s t u : Scheduler α} {running : Nat} (h : Kept s)
    (hactive : s.active = some (.co running)) (hwait : s.step .wait = some t)
    (hyield : t.step .yield = some u) : ∃ f, u.points running = .waiting f s.createSequence.1 := by
  obtain ⟨rest, hstack⟩ := stack_of_active hactive
  obtain ⟨⟨f, hf⟩, below, rest', hrest⟩ := h.sound.stack.above hstack
  obtain ⟨t', ht', hwait⟩ := Option.bind_eq_some_iff.mp hwait
  rw [hactive] at ht'
  cases ht'
  cases hwait
  refine ⟨f, ?_⟩
  simp only [Scheduler.step, Scheduler.push, Scheduler.setFrames, hstack, hrest,
    Function.update_self, hf] at hyield
  cases hyield
  exact Function.update_self _ _ _

theorem call (h : ProcessOk asked node p) {t : Thread} {co co' : Scheduler α}
    (hactive : p.harbor.co.active = some t) (hwait : p.harbor.co.step .wait = some co)
    (hyield : co.step .yield = some co') {c : Asked} (hmem : c ∈ asked) (hcaller : c.caller = node)
    (hincarnation : c.incarnation = p.incarnation)
    (hseq : c.seq = p.harbor.co.createSequence.1) :
    ProcessOk asked node { p with
      harbor := { p.harbor with co := co' }
      calling := p.suspend c t } := by
  have hgo : Goes (fun _ => False) p.harbor.co co' :=
    (goes_quiet h.kept hwait (by simp) _).trans
      (goes_quiet (h.kept.step hwait) hyield (by simp) _)
  have hold : ∀ n d, p.calling n = some d → d ∈ asked ∧ d.caller = node ∧
      d.incarnation = p.incarnation ∧ ∃ f, co'.points n = .waiting f d.seq := by
    intro n d hd
    obtain ⟨hdmem, hdcaller, hdinc, f, hf⟩ := h.calling n d hd
    exact ⟨hdmem, hdcaller, hdinc, f, hgo.waiting n f d.seq id hf⟩
  refine ⟨hgo.kept, fun k hk => Nat.lt_of_lt_of_le (h.lt k hk) hgo.forks, ?_, h.origins⟩
  intro n d hd
  cases t with
  | call k => exact hold n d hd
  | co running =>
    simp only [Process.suspend] at hd
    by_cases heq : n = running
    · rw [heq] at hd ⊢
      rw [Function.update_self] at hd
      cases hd
      refine ⟨hmem, hcaller, hincarnation, ?_⟩
      rw [hseq]
      exact suspended_of_call h.kept hactive hwait hyield
    · rw [Function.update_of_ne heq] at hd
      exact hold n d hd

end ProcessOk

namespace PacketOk
variable {asked asked' : List Asked}

theorem mono {packet : Packet α} (h : PacketOk asked packet) (hsub : ∀ c ∈ asked, c ∈ asked') :
    PacketOk asked' packet where
  rpc c func hmessage := ⟨hsub c (h.rpc c func hmessage).1, (h.rpc c func hmessage).2⟩
  respone answered seq results hmessage := by
    obtain ⟨c, hc, hrest⟩ := h.respone answered seq results hmessage
    exact ⟨c, hsub c hc, hrest⟩

theorem of_send {p : Process α} {source target : CallNode} {message : Message α}
    (h : ∀ incarnation, PacketOk asked ⟨source, target, incarnation, message⟩) :
    ∀ packet ∈ p.send source target message, PacketOk asked packet := by
  intro packet hmem
  obtain ⟨incarnation, _, heq⟩ := List.mem_map.mp hmem
  rw [← heq]
  exact h incarnation

end PacketOk

theorem mem_contains {k : Call} {calls : List Call} (h : calls.contains k = true) : k ∈ calls :=
  List.contains_iff_mem.mp h

theorem setProcess_self {s : Network α} {node : CallNode} (p : Process α) :
    (s.setProcess node p).processes node = p := Function.update_self _ _ _

theorem setProcess_other {s : Network α} {node other : CallNode} (hne : node ≠ other)
    (p : Process α) : (s.setProcess other p).processes node = s.processes node :=
  Function.update_of_ne hne _ _

namespace Traced
variable {s t : Network α}

theorem setProcess (h : Traced s) {node : CallNode} {p : Process α}
    (hp : ProcessOk s.asked node p) : Traced (s.setProcess node p) where
  processes other := by
    by_cases heq : other = node
    · rw [heq, setProcess_self]
      exact hp
    · rw [setProcess_other heq]
      exact h.processes other
  flight := h.flight
  unique := h.unique

theorem post (h : Traced s) {packets : List (Packet α)}
    (hpackets : ∀ packet ∈ packets, PacketOk s.asked packet) : Traced (s.post packets) where
  processes := h.processes
  flight packet hmem := by
    cases List.mem_append.mp hmem with
    | inl hmem => exact h.flight packet hmem
    | inr hmem => exact hpackets packet hmem
  unique := h.unique

theorem erase (h : Traced s) (i : Nat) : Traced { s with flight := s.flight.eraseIdx i } where
  processes := h.processes
  flight packet hmem := h.flight packet (List.mem_of_mem_eraseIdx hmem)
  unique := h.unique

/-- What `ret` sends answers the call that its function has been started for. -/
theorem responses (h : Traced s) {node : CallNode} {harbor : Harbor α} {l : HarborLabel α}
    (hs : Stepped (s.processes node).harbor harbor l)
    (hown : ∀ results, l = .ret results → (s.processes node).harbor.ownCall = true) :
    ∀ packet ∈ (s.processes node).responses node
      (harbor.sent.drop (s.processes node).harbor.sent.length), PacketOk s.asked packet := by
  cases hs.sent with
  | inl hsent =>
    intro packet hmem
    rw [hsent, List.drop_length] at hmem
    cases hmem
  | inr hsent =>
    obtain ⟨running, f, response, results, hl, hgives, hsent⟩ := hsent
    obtain ⟨rest, hstack⟩ := hgives.top
    have hcall := hown results hl
    simp only [Harbor.ownCall, hstack, hgives.func, hgives.node, hgives.seq] at hcall
    obtain ⟨c, hc, horigin, hcaller, hcallee, hseq⟩ :=
      (h.processes node).origins _ (mem_contains hcall) response.seq rfl
    intro packet hmem
    rw [hsent, List.drop_left, Process.responses, List.flatMap_singleton] at hmem
    refine PacketOk.of_send (fun incarnation => ⟨?_, ?_⟩) packet hmem
    · intro c' func hmessage
      cases hmessage
    · intro answered seq results' hmessage
      cases hmessage
      exact ⟨c, hc, horigin, hcallee.symm, hcaller.symm, hseq⟩

end Traced

/-! ## What a delivery does -/

section Receive
variable {serializes : α → Bool} {arguments : Option α → α} {asked : List Asked} {node source : CallNode}
  {p q : Process α}

/-- A call from C begins. -/
theorem ProcessOk.enter (h : ProcessOk asked node p) {harbor : Harbor α}
    (hs : p.harbor.step serializes (.co .enter) = some harbor) :
    ProcessOk asked node { p with harbor := harbor } ∧
      Goes (fun _ => False) p.harbor.co harbor.co := by
  have hstepped := Stepped.of_step h.kept hs
  have hnot : ∀ co, ¬ HarborLabel.Frees (.co .enter) p.harbor co := by
    intro co hfrees
    obtain ⟨seq, a, heq, _⟩ := hfrees
    cases heq
  exact ⟨h.stepped hstepped rfl fun co c hc => ⟨hc, hnot co⟩, hstepped.goes.mono hnot⟩

theorem ProcessOk.receive (h : ProcessOk asked node p) {packet : Packet α}
    (hpacket : PacketOk asked packet) (htarget : packet.target = node)
    (hs : Network.receive serializes arguments p packet.source packet.message = some q) :
    ProcessOk asked node q := by
  unfold Network.receive at hs
  obtain ⟨harbor, henter, hs⟩ := Option.bind_eq_some_iff.mp hs
  obtain ⟨hp, _⟩ := h.enter henter
  cases hmessage : packet.message with
  | rpc c func =>
    rw [hmessage] at hs
    obtain ⟨harbor', hcall, hs⟩ := Option.bind_eq_some_iff.mp hs
    cases hs
    obtain ⟨hmem, hsource, hcallee⟩ := hpacket.rpc c func hmessage
    refine hp.delivered (Stepped.of_step hp.kept hcall) ?_ ?_ ?_
    · intro co hfrees
      obtain ⟨seq, a, heq, _⟩ := hfrees
      cases heq
    · exact fun f hne => Function.update_of_ne hne _ _
    · intro n seq hdelivery
      cases hdelivery
      exact ⟨c, hmem, Function.update_self _ _ _, hsource.symm, hcallee.symm.trans htarget, rfl⟩
  | rpcnr func =>
    rw [hmessage] at hs
    obtain ⟨harbor', hcall, hs⟩ := Option.bind_eq_some_iff.mp hs
    cases hs
    refine hp.delivered (Stepped.of_step hp.kept hcall) ?_ (fun _ _ => rfl) ?_
    · intro co hfrees
      obtain ⟨seq, a, heq, _⟩ := hfrees
      cases heq
    · intro n seq hdelivery
      cases hdelivery
  | respone answered seq results =>
    rw [hmessage] at hs
    obtain ⟨harbor', hrespone, hs⟩ := Option.bind_eq_some_iff.mp hs
    cases hs
    refine hp.stepped (Stepped.of_step hp.kept hrespone) rfl fun co c hc => ?_
    have hother : ∀ running, harbor.co.waitSequence seq = some running → co ≠ running := by
      intro running hwait heq
      rw [hwait, heq] at hc
      exact (of_erased hc).1 rfl
    refine ⟨?_, ?_⟩
    · cases hwait : harbor.co.waitSequence seq with
      | none =>
        rw [hwait] at hc
        exact hc
      | some running =>
        rw [hwait] at hc
        exact (Function.update_of_ne (hother running hwait) none p.calling).symm.trans hc
    · intro hfrees
      obtain ⟨seq', a, heq, hwait⟩ := hfrees
      cases heq
      exact hother co hwait rfl

/-- A packet resumes a wait only if it is a response with its number. -/
theorem receive_waiting (h : ProcessOk asked node p) {packet : Packet α}
    (hs : Network.receive serializes arguments p packet.source packet.message = some q) {co : Nat}
    {c : Asked} (hcalling : p.calling co = some c) {f : Nat}
    (hpoint : p.harbor.co.points co = .waiting f c.seq) :
    (q.calling co = some c ∧ q.harbor.co.points co = .waiting f c.seq) ∨
      ∃ answered results, packet.message = .respone answered c.seq results ∧
        p.harbor.co.waitSequence c.seq = some co := by
  unfold Network.receive at hs
  obtain ⟨harbor, henter, hs⟩ := Option.bind_eq_some_iff.mp hs
  obtain ⟨hp, hgo⟩ := h.enter henter
  have hpoint' := hgo.waiting co f c.seq id hpoint
  cases hmessage : packet.message with
  | rpc c' func =>
    rw [hmessage] at hs
    obtain ⟨harbor', hcall, hs⟩ := Option.bind_eq_some_iff.mp hs
    cases hs
    refine Or.inl ⟨hcalling, (Stepped.of_step hp.kept hcall).goes.waiting co f c.seq ?_ hpoint'⟩
    intro hfrees
    obtain ⟨seq, a, heq, _⟩ := hfrees
    cases heq
  | rpcnr func =>
    rw [hmessage] at hs
    obtain ⟨harbor', hcall, hs⟩ := Option.bind_eq_some_iff.mp hs
    cases hs
    refine Or.inl ⟨hcalling, (Stepped.of_step hp.kept hcall).goes.waiting co f c.seq ?_ hpoint'⟩
    intro hfrees
    obtain ⟨seq, a, heq, _⟩ := hfrees
    cases heq
  | respone answered seq results =>
    rw [hmessage] at hs
    obtain ⟨harbor', hrespone, hs⟩ := Option.bind_eq_some_iff.mp hs
    cases hs
    have hwaits : harbor.co.waitSequence = p.harbor.co.waitSequence := by
      cases henter
      rfl
    by_cases hwait : harbor.co.waitSequence seq = some co
    · obtain ⟨g, hg⟩ := hp.kept.sound.waits seq co hwait
      have hsame := hpoint'.symm.trans hg
      cases hsame
      exact Or.inr ⟨answered, results, rfl, hwaits ▸ hwait⟩
    · refine Or.inl ⟨?_, (Stepped.of_step hp.kept hrespone).goes.waiting co f c.seq ?_ hpoint'⟩
      · cases hrunning : harbor.co.waitSequence seq with
        | none => exact hcalling
        | some running =>
          have hne : co ≠ running := fun heq => hwait (heq ▸ hrunning)
          exact (Function.update_of_ne hne none p.calling).trans hcalling
      · intro hfrees
        obtain ⟨seq', a, heq, hwait'⟩ := hfrees
        cases heq
        exact hwait hwait'

end Receive

/-! ## Runs -/

namespace Traced
variable {serializes : α → Bool} {arguments : Option α → α} {s t : Network α}

theorem init : Traced (Network.init : Network α) where
  processes _ := .start 0
  flight _ hmem := absurd hmem List.not_mem_nil
  unique _ hmem := absurd hmem List.not_mem_nil

theorem script (h : Traced s) {node : CallNode} {l : HarborLabel α}
    (hown : ∀ results, l = .ret results → (s.processes node).harbor.ownCall = true)
    (hs : s.script serializes node l = some t) : Traced t := by
  unfold Network.script at hs
  dsimp only at hs
  split at hs
  · next howns =>
    obtain ⟨harbor, hstep, hs⟩ := Option.bind_eq_some_iff.mp hs
    cases hs
    have hp := h.processes node
    have hstepped := Stepped.of_step hp.kept hstep
    refine (h.setProcess (hp.stepped hstepped ?_ ?_)).post (h.responses hstepped hown)
    · cases l with
      | register name => rfl
      | onCall n seq func => cases howns
      | onCallNoRet n func => cases howns
      | ret results => rfl
      | co cl => rfl
    · intro co c hc
      refine ⟨hc, fun hfrees => ?_⟩
      obtain ⟨seq, a, heq, hwait⟩ := hfrees
      rw [heq] at howns
      simp [Process.owns, Process.ownWait, hwait, hc] at howns
  · cases hs

/-- A process calls with a new number. -/
theorem ask (h : Traced s) {c : Asked}
    (hnew : ∀ c' ∈ s.asked, c'.caller = c.caller → c'.incarnation = c.incarnation →
      c'.seq ≠ c.seq) : Traced { s with asked := s.asked ++ [c] } where
  processes node := (h.processes node).mono fun _ hmem => List.mem_append_left _ hmem
  flight packet hmem := (h.flight packet hmem).mono fun _ hmem => List.mem_append_left _ hmem
  unique a ha b hb hcaller hincarnation hseq := by
    cases List.mem_append.mp ha with
    | inl ha =>
      cases List.mem_append.mp hb with
      | inl hb => exact h.unique a ha b hb hcaller hincarnation hseq
      | inr hb =>
        rw [List.mem_singleton.mp hb] at hcaller hincarnation hseq
        exact absurd hseq (hnew a ha hcaller hincarnation)
    | inr ha =>
      cases List.mem_append.mp hb with
      | inl hb =>
        rw [List.mem_singleton.mp ha] at hcaller hincarnation hseq
        exact absurd hseq.symm (hnew b hb hcaller.symm hincarnation.symm)
      | inr hb => rw [List.mem_singleton.mp ha, List.mem_singleton.mp hb]

theorem call (h : Traced s) {node callee : CallNode} {func : Option String}
    (hnew : s.newNumber node = true) (hs : s.call node callee func = some t) : Traced t := by
  unfold Network.call at hs
  obtain ⟨th, hactive, hs⟩ := Option.bind_eq_some_iff.mp hs
  obtain ⟨co, hwait, hs⟩ := Option.bind_eq_some_iff.mp hs
  obtain ⟨co', hyield, hs⟩ := Option.bind_eq_some_iff.mp hs
  cases hs
  have hasked : Traced { s with asked := s.asked ++ [⟨node, (s.processes node).incarnation, callee,
      (s.processes node).harbor.co.createSequence.1, s.asked.length⟩] } := by
    refine h.ask fun c hmem hcaller hincarnation hseq => ?_
    have hc := List.all_eq_true.mp hnew c hmem
    simp [hcaller, hincarnation, hseq] at hc
  have hp := (hasked.processes node).call hactive hwait hyield
    (List.mem_append_right _ List.mem_cons_self) rfl rfl rfl
  refine (hasked.setProcess hp).post (PacketOk.of_send fun incarnation => ⟨?_, ?_⟩)
  · intro c func' hmessage
    cases hmessage
    exact ⟨List.mem_append_right _ List.mem_cons_self, rfl, rfl⟩
  · intro answered seq results hmessage
    cases hmessage

theorem step (h : Traced s) {l : NetworkLabel α} (hcond : correlates s l = true)
    (hs : s.step serializes arguments l = some t) : Traced t := by
  have hnodes : ∀ node nodes, Traced (s.setProcess node { s.processes node with nodes := nodes }) := by
    intro node nodes
    have hp := h.processes node
    exact h.setProcess ⟨hp.kept, hp.lt, hp.calling, hp.origins⟩
  cases l with
  | script node l =>
    refine h.script (fun results hl => ?_) hs
    rw [hl] at hcond
    exact hcond
  | call node callee func => exact h.call hcond hs
  | callNoRet node callee func =>
    obtain ⟨th, hactive, hs⟩ := Option.bind_eq_some_iff.mp hs
    cases hs
    refine h.post (PacketOk.of_send fun incarnation => ⟨?_, ?_⟩)
    · intro c func' hmessage
      cases hmessage
    · intro answered seq results hmessage
      cases hmessage
  | deliver i =>
    obtain ⟨packet, hpacket, hs⟩ := Option.bind_eq_some_iff.mp hs
    dsimp only at hs
    split at hs
    · obtain ⟨q, hreceive, hs⟩ := Option.bind_eq_some_iff.mp hs
      cases hs
      have hp := (h.processes packet.target).receive
        (h.flight packet (List.mem_of_getElem? hpacket)) rfl hreceive
      exact (h.setProcess hp).erase i
    · cases hs
  | lose i =>
    cases hs
    exact h.erase i
  | opened node peer incarnation =>
    simp only [Network.step] at hs
    split at hs
    · cases hs
      exact hnodes node _
    · cases hs
  | closed node peer =>
    cases hs
    exact hnodes node _
  | restart node =>
    cases hs
    exact h.setProcess (.start _)

end Traced

/-- A coroutine is suspended in a call. -/
def Asked.Suspended (c : Asked) (s : Network α) (node : CallNode) (co : Nat) : Prop :=
  (s.processes node).calling co = some c ∧
    ∃ f, (s.processes node).harbor.co.points co = .waiting f c.seq

/-- The label delivers to a node the response that the callee has sent for a call. -/
def Asked.Answered (c : Asked) (s : Network α) (node : CallNode) (l : NetworkLabel α) : Prop :=
  ∃ i packet results, l = .deliver i ∧ s.flight[i]? = some packet ∧ packet.target = node ∧
    packet.source = c.callee ∧ packet.message = .respone (some c) c.seq results

section Runs
variable {serializes : α → Bool} {arguments : Option α → α} {s t : Network α}

theorem suspended_away {node other : CallNode} {co : Nat} {c : Asked} (h : c.Suspended s node co)
    (hne : node ≠ other) (p : Process α) : c.Suspended (s.setProcess other p) node co := by
  unfold Asked.Suspended
  rw [setProcess_other hne]
  exact h

theorem suspended_here {node : CallNode} {co : Nat} {c : Asked} {p : Process α} {f : Nat}
    (hcalling : p.calling co = some c) (hpoint : p.harbor.co.points co = .waiting f c.seq) :
    c.Suspended (s.setProcess node p) node co := by
  unfold Asked.Suspended
  rw [setProcess_self]
  exact ⟨hcalling, f, hpoint⟩

theorem suspended_script (h : Traced s) {node n : CallNode} {l : HarborLabel α} {co : Nat} {c : Asked}
    (hsuspended : c.Suspended s node co) (hs : s.script serializes n l = some t) :
    c.Suspended t node co := by
  unfold Network.script at hs
  dsimp only at hs
  split at hs
  · next howns =>
    obtain ⟨harbor, hstep, hs⟩ := Option.bind_eq_some_iff.mp hs
    cases hs
    by_cases hne : node = n
    · obtain ⟨hcalling, f, hf⟩ := hsuspended
      rw [hne] at hcalling hf ⊢
      have hstepped := Stepped.of_step (h.processes n).kept hstep
      refine suspended_here hcalling (hstepped.goes.waiting co f c.seq (fun hfrees => ?_) hf)
      obtain ⟨seq, a, heq, hwait⟩ := hfrees
      rw [heq] at howns
      simp [Process.owns, Process.ownWait, hwait, hcalling] at howns
    · exact suspended_away hsuspended hne _
  · cases hs

theorem suspended_call (h : Traced s) {node n callee : CallNode} {func : Option String} {co : Nat}
    {c : Asked} (hsuspended : c.Suspended s node co) (hs : s.call n callee func = some t) :
    c.Suspended t node co := by
  unfold Network.call at hs
  obtain ⟨th, hactive, hs⟩ := Option.bind_eq_some_iff.mp hs
  obtain ⟨co', hwait, hs⟩ := Option.bind_eq_some_iff.mp hs
  obtain ⟨co'', hyield, hs⟩ := Option.bind_eq_some_iff.mp hs
  cases hs
  by_cases hne : node = n
  · obtain ⟨hcalling, f, hf⟩ := hsuspended
    rw [hne] at hcalling hf ⊢
    have hk := (h.processes n).kept
    have hgo : Goes (fun _ => False) (s.processes n).harbor.co co'' :=
      (goes_quiet hk hwait (by simp) _).trans (goes_quiet (hk.step hwait) hyield (by simp) _)
    refine suspended_here ?_ (hgo.waiting co f c.seq id hf)
    cases th with
    | call k => exact hcalling
    | co running =>
      obtain ⟨rest, hstack⟩ := stack_of_active hactive
      obtain ⟨⟨g, hg⟩, _⟩ := hk.sound.stack.above hstack
      have hother : co ≠ running := by
        intro heq
        rw [heq, hg] at hf
        cases hf
      exact (Function.update_of_ne hother _ _).trans hcalling
  · exact suspended_away hsuspended hne _

theorem suspended_deliver (h : Traced s) {node : CallNode} {i : Nat} {co : Nat} {c : Asked}
    (hcond : correlates s (.deliver i) = true) (hsuspended : c.Suspended s node co)
    (hs : s.step serializes arguments (.deliver i) = some t) :
    c.Suspended t node co ∨ c.Answered s node (.deliver i) := by
  obtain ⟨packet, hpacket, hs⟩ := Option.bind_eq_some_iff.mp hs
  dsimp only at hs
  split at hs
  · obtain ⟨q, hreceive, hs⟩ := Option.bind_eq_some_iff.mp hs
    cases hs
    by_cases hne : node = packet.target
    · obtain ⟨hcalling, f, hf⟩ := hsuspended
      have hp := h.processes node
      rw [← hne] at hreceive ⊢
      cases receive_waiting hp hreceive hcalling hf with
      | inl hstays => exact Or.inl (suspended_here hstays.1 hstays.2)
      | inr hanswer =>
        obtain ⟨answered, results, hmessage, hwait⟩ := hanswer
        obtain ⟨c', hmem', hanswered, hsource, htarget, hseq⟩ :=
          (h.flight packet (List.mem_of_getElem? hpacket)).respone _ _ _ hmessage
        obtain ⟨hmem, hcaller, hincarnation, _⟩ := hp.calling co c hcalling
        rw [hanswered] at hmessage
        have hinc' : c'.incarnation = (s.processes node).incarnation := by
          simpa [correlates, hpacket, Network.ownResponse, hmessage, ← hne, hwait] using hcond
        have hsame : c' = c := h.unique c' hmem' c hmem
          (htarget.symm.trans (hne.symm.trans hcaller.symm)) (hinc'.trans hincarnation.symm) hseq
        rw [hsame] at hmessage hsource
        exact Or.inr ⟨i, packet, results, rfl, hpacket, hne.symm, hsource, hmessage⟩
    · exact Or.inl (suspended_away hsuspended hne _)
  · cases hs

/-- A call goes on only by the response that its callee has sent for it. -/
theorem call_correlated
    (h : (network serializes arguments).Run (fun s l => correlates s l = true) s)
    {l : NetworkLabel α} (hcond : correlates s l = true)
    (hs : (network serializes arguments).step s l = some t) {node : CallNode} {co : Nat} {c : Asked}
    (hsuspended : c.Suspended s node co) :
    c.Suspended t node co ∨ l = .restart node ∨ c.Answered s node l := by
  have htraced : Traced s := h.invariant .init fun _ _ _ hcond ht hs => ht.step hcond hs
  have hnodes : ∀ n nodes,
      c.Suspended (s.setProcess n { s.processes n with nodes := nodes }) node co := by
    intro n nodes
    by_cases hne : node = n
    · obtain ⟨hcalling, f, hf⟩ := hsuspended
      rw [hne] at hcalling hf ⊢
      exact suspended_here hcalling hf
    · exact suspended_away hsuspended hne _
  cases l with
  | script n l => exact Or.inl (suspended_script htraced hsuspended hs)
  | call n callee func => exact Or.inl (suspended_call htraced hsuspended hs)
  | callNoRet n callee func =>
    obtain ⟨th, hactive, hs⟩ := Option.bind_eq_some_iff.mp hs
    cases hs
    exact Or.inl hsuspended
  | deliver i =>
    cases suspended_deliver htraced hcond hsuspended hs with
    | inl hstays => exact Or.inl hstays
    | inr hanswered => exact Or.inr (Or.inr hanswered)
  | lose i =>
    cases hs
    exact Or.inl hsuspended
  | opened n peer incarnation =>
    simp only [network, Network.step] at hs
    split at hs
    · cases hs
      exact Or.inl (hnodes n _)
    · cases hs
  | closed n peer =>
    cases hs
    exact Or.inl (hnodes n _)
  | restart n =>
    cases hs
    by_cases hne : node = n
    · exact Or.inr (Or.inl (by rw [hne]))
    · exact Or.inl (suspended_away hsuspended hne _)

end Runs

/-! ## Two runs -/

/-- What a response holds, where it holds one number. -/
def oneResult (results : Option Nat) : Nat := results.getD 0

def numbers : System (Network Nat) (NetworkLabel Nat) := network (fun _ => true) oneResult

/-- A node calls another, which answers; the response is in flight. -/
def answeredScript : List (NetworkLabel Nat) :=
  [.opened ⟨3, 1⟩ ⟨5, 1⟩ 0, .opened ⟨5, 1⟩ ⟨3, 1⟩ 0, .script ⟨5, 1⟩ (.register "add"),
    .script ⟨3, 1⟩ (.co .enter), .script ⟨3, 1⟩ (.co .fork), .script ⟨3, 1⟩ (.co .created),
    .call ⟨3, 1⟩ ⟨5, 1⟩ (some "add"), .script ⟨3, 1⟩ (.co .leave), .deliver 0,
    .script ⟨5, 1⟩ (.ret 3), .script ⟨5, 1⟩ (.co .finish), .script ⟨5, 1⟩ (.co .leave)]

theorem call_correlated_answered : ∃ (s : Network Nat) (c : Asked),
    c.Suspended s ⟨3, 1⟩ 0 ∧ c.Answered s ⟨3, 1⟩ (.deliver 0) := by
  obtain ⟨s, hrun, hs⟩ := System.run_of_exec (M := numbers)
    (P := fun s l => correlates s l = true) answeredScript
    (p := fun s => (s.processes ⟨3, 1⟩).calling 0 == some ⟨⟨3, 1⟩, 0, ⟨5, 1⟩, 2, 0⟩ &&
      (s.processes ⟨3, 1⟩).harbor.co.points 0 == .waiting 0 2 && correlates s (.deliver 0) &&
      (numbers.step s (.deliver 0)).any fun t =>
        (t.processes ⟨3, 1⟩).harbor.co.points 0 == .running 0) (by decide)
  simp only [Bool.and_eq_true, beq_iff_eq] at hs
  obtain ⟨⟨⟨hcalling, hpoint⟩, hcond⟩, hstep⟩ := hs
  obtain ⟨t, hstep, ht⟩ := (Option.any_eq_true _ _).mp hstep
  have hsuspended : (⟨⟨3, 1⟩, 0, ⟨5, 1⟩, 2, 0⟩ : Asked).Suspended s ⟨3, 1⟩ 0 := ⟨hcalling, 0, hpoint⟩
  refine ⟨s, _, hsuspended, ?_⟩
  cases call_correlated hrun hcond hstep hsuspended with
  | inl hstays =>
    obtain ⟨_, f, hf⟩ := hstays
    rw [beq_iff_eq.mp ht] at hf
    cases hf
  | inr hrest => exact hrest.resolve_left (by simp)

/-- The caller is restarted before it is answered, and calls a third node with the same number. -/
def restartedScript : List (NetworkLabel Nat) :=
  [.opened ⟨3, 1⟩ ⟨5, 1⟩ 0, .opened ⟨5, 1⟩ ⟨3, 1⟩ 0, .script ⟨5, 1⟩ (.register "add"),
    .script ⟨3, 1⟩ (.co .enter), .script ⟨3, 1⟩ (.co .fork), .script ⟨3, 1⟩ (.co .created),
    .call ⟨3, 1⟩ ⟨5, 1⟩ (some "add"), .script ⟨3, 1⟩ (.co .leave), .deliver 0,
    .script ⟨5, 1⟩ (.co .wait), .script ⟨5, 1⟩ (.co .yield), .script ⟨5, 1⟩ (.co .leave),
    .restart ⟨3, 1⟩, .opened ⟨3, 1⟩ ⟨5, 2⟩ 0, .opened ⟨5, 1⟩ ⟨3, 1⟩ 1,
    .script ⟨3, 1⟩ (.co .enter), .script ⟨3, 1⟩ (.co .fork), .script ⟨3, 1⟩ (.co .created),
    .call ⟨3, 1⟩ ⟨5, 2⟩ (some "sub"), .script ⟨3, 1⟩ (.co .leave),
    .script ⟨5, 1⟩ (.co .enter), .script ⟨5, 1⟩ (.co (.respone 2 0)), .script ⟨5, 1⟩ (.ret 3),
    .script ⟨5, 1⟩ (.co .finish), .script ⟨5, 1⟩ (.co .leave)]

/-- The late response of one node goes for that of the other. -/
theorem call_confused : ∃ (s t : Network Nat) (c : Asked) (packet : Packet Nat),
    numbers.Reachable s ∧ c.Suspended s ⟨3, 1⟩ 0 ∧ s.flight[1]? = some packet ∧
      packet.source ≠ c.callee ∧ numbers.step s (.deliver 1) = some t ∧
        ¬ c.Suspended t ⟨3, 1⟩ 0 ∧ ¬ c.Answered s ⟨3, 1⟩ (.deliver 1) := by
  obtain ⟨s, hreach, hs⟩ := System.run_of_exec (M := numbers) (P := fun _ _ => True) restartedScript
    (p := fun s => (s.processes ⟨3, 1⟩).calling 0 == some ⟨⟨3, 1⟩, 1, ⟨5, 2⟩, 2, 1⟩ &&
      (s.processes ⟨3, 1⟩).harbor.co.points 0 == .waiting 0 2 &&
      s.flight[1]? == some ⟨⟨5, 1⟩, ⟨3, 1⟩, 1,
        .respone (some ⟨⟨3, 1⟩, 0, ⟨5, 1⟩, 2, 0⟩) 2 (some 3)⟩ &&
      (numbers.step s (.deliver 1)).any fun t =>
        (t.processes ⟨3, 1⟩).harbor.co.points 0 == .running 0) (by decide)
  simp only [Bool.and_eq_true, beq_iff_eq] at hs
  obtain ⟨⟨⟨hcalling, hpoint⟩, hpacket⟩, hstep⟩ := hs
  obtain ⟨t, hstep, ht⟩ := (Option.any_eq_true _ _).mp hstep
  refine ⟨s, t, ⟨⟨3, 1⟩, 1, ⟨5, 2⟩, 2, 1⟩, _, hreach, ⟨hcalling, 0, hpoint⟩, hpacket, by decide, hstep,
    fun hstays => ?_, fun hanswered => ?_⟩
  · obtain ⟨_, f, hf⟩ := hstays
    rw [beq_iff_eq.mp ht] at hf
    cases hf
  · obtain ⟨i, packet, results, hi, hpacket', _, hsource, _⟩ := hanswered
    cases hi
    rw [hpacket] at hpacket'
    cases hpacket'
    exact absurd hsource (by decide)

end HyperNet.Script
