import HyperNet.Net.Alone
import HyperNet.Net.Rest
import Mathlib.Algebra.Order.BigOperators.Group.List
import Mathlib.Algebra.Order.Group.Nat

/-! # An engine comes to rest

The own work of an engine is that of its connections: callbacks return, the main thread handles
results, and the workers serve their queues. The measures of the connections add up to one of the
engine, so that no connection keeps a shared worker from the others for good. -/
namespace HyperNet.Net
open HyperNet.Api HyperNet.Public HyperNet.Core.History HyperNet.Core.Tagged
open HyperNet.Core.Transition

/-- The steps that bring nothing to the engine. -/
def WorkersLabel.works : WorkersLabel → Bool
  | .ret | .process _ | .take _ | .runSend _ _ | .push _ => true
  | .runRecv _ rs => rs.all fun r => !r.isData
  | .arrive _ _ | .send _ _ | .close _ | .onIn _ | .onOut _ | .onError _ => false

theorem WorkersLabel.works_alone {l : WorkersLabel} (h : l.works = true) :
    l.alone.works = true := by
  cases l <;> first | exact h | cases h

/-! ## The measure -/

/-- The measure of a connection with its callbacks and its share of the worker. -/
def Connection.effort (conn : Connection) (fs : List Frame) (v : View) : Nat :=
  (5 * v.requests.length + (v.executing.map Item.effort).sum + 2 * v.results.length) +
    5 * (conn.send.state.again.toNat +
      (conn.recv.state.again && !fs.any Frame.isOnRecv).toNat) +
    (fs.map (Frame.effort conn.recv.used.offset)).sum + conn.recv.effort

theorem Plays.effort {conn : Connection} {fs : List Frame} {v : View}
    {w : World conn.setup.config} (h : Plays conn fs v w) : w.effort = conn.effort fs v := by
  simp only [World.effort, NetWorker.effort, World.further, World.frames, World.inOnRecv,
    Connection.effort, h.send, h.recv, h.stack, h.results, h.executing, h.requests]

/-- A callback takes at least the step in which it returns. -/
theorem Frame.effort_pos (used : Nat) (f : Frame) : 1 ≤ f.effort used := by
  cases f <;> simp only [Frame.effort] <;> omega

theorem Connection.frames_le_effort (conn : Connection) (fs : List Frame) (v : View) :
    fs.length ≤ conn.effort fs v := by
  have hframes : fs.length ≤ (fs.map (Frame.effort conn.recv.used.offset)).sum := by
    induction fs with
    | nil => exact Nat.le_refl 0
    | cons f fs ih =>
      have hf := f.effort_pos conn.recv.used.offset
      simp only [List.length_cons, List.map_cons, List.sum_cons]
      omega
  simp only [Connection.effort]
  omega

/-- Of the entries of one more owner there are as many more. -/
theorem length_filter_not_mem_erase (is live : List Nat) (c : Nat) :
    (is.filter (· ∉ live.erase c)).length ≤ (is.filter (· ∉ live)).length + is.count c := by
  simp only [← List.countP_eq_length_filter]
  induction is with
  | nil => exact Nat.le_refl 0
  | cons j is ih =>
    rw [List.countP_cons, List.countP_cons, List.count_cons]
    by_cases hj : j = c
    · rw [if_pos (beq_iff_eq.mpr hj)]
      split <;> split <;> omega
    · simp only [List.mem_erase_of_ne hj]
      omega

namespace SharedWorker
variable {m : Nat} {wk : SharedWorker m}

theorem take_of_workQueue {o : Nat × WorkRequest} {rest : List (Nat × WorkRequest)}
    (hx : wk.executing = none) (hq : wk.workQueue.toList = o :: rest) :
    wk.take.isSome = true := by
  obtain ⟨q, hr, _⟩ := CycleQueue.read_of_toList hq
  unfold take
  split
  · rfl
  · next hno => exact absurd hr (hno _ _ _ hx)

theorem readResult_of_resultQueue {o : Nat × NetEventType} {rest : List (Nat × NetEventType)}
    (hq : wk.resultQueue.toList = o :: rest) : ∃ wk', wk.readResult = some (o, wk') := by
  obtain ⟨q, hr, _⟩ := CycleQueue.read_of_toList hq
  unfold readResult
  split
  · next hr' =>
    rw [hr] at hr'
    cases hr'
    exact ⟨_, rfl⟩
  · next hno =>
    rw [hr] at hno
    cases hno

end SharedWorker

namespace Workers
variable {size workerCount : Nat} {p p' : Workers size workerCount} {c i k : Nat}

/-- The measure of one connection. -/
def share (p : Workers size workerCount) (c : Nat) : Nat :=
  (p.conn c).effort (own c p.stack) ((p.workers (p.conn c).worker).view c)

/-- The callbacks of connections that are deleted. -/
def orphans (p : Workers size workerCount) : Nat :=
  ((p.stack.map Prod.fst).filter (· ∉ p.live)).length

/-- A bound on the engine's own work. -/
def effort (p : Workers size workerCount) : Nat := (p.live.map p.share).sum + p.orphans

theorem Follows.share {setup : Setup} {w : World setup.config} (h : p.Follows c setup w) :
    p.share c = w.effort := by
  obtain ⟨k, hconn, hp⟩ := h
  rw [hp.effort, Workers.share, hconn]

theorem Spares.share (h : Spares i p p') {j : Nat} (hj : j ≠ i) : p'.share j = p.share j := by
  rw [Workers.share, Workers.share, h.conn j hj, h.stack j hj, h.view j hj]

theorem Spares.orphans (h : Spares i p p') (hlive : p'.live = p.live) (hi : i ∈ p.live) :
    p'.orphans = p.orphans := by
  rw [Workers.orphans, Workers.orphans, hlive]
  refine length_filter_of_own fun j hj => h.stack j ?_
  rintro rfl
  exact absurd hi (by simpa using hj)

/-! ## What a step costs -/

/-- Its own work leaves the connections as many as they are, but for `OnDisconnected`. -/
theorem live_works {l : WorkersLabel} (hl : l.works = true) (hs : p.step l = some p')
    (hsub : p.subject l = some i) (hk : p.Keeps i l) : p'.live = p.live := by
  cases l with
  | arrive | send | close | onIn | onOut | onError => cases hl
  | ret =>
    simp only [Workers.step] at hs
    split at hs
    · cases hs
    · next j f fs hst =>
      have hj : j = i := by simpa [subject, hst] using hsub
      subst hj
      have hf : f ≠ .onDisconnected := by
        rintro rfl
        exact hk (by rw [hst]; rfl)
      simp only [hf, if_false] at hs
      split at hs
      · exact (live_call hs).trans rfl
      · split at hs
        · cases hs
          rfl
        · cases hs
  | process k =>
    simp only [Workers.step] at hs
    split at hs
    · obtain ⟨o, _, hs⟩ := Option.bind_eq_some_iff.mp hs
      split at hs
      · exact (live_call hs).trans rfl
      · cases hs
    · cases hs
  | take k | push k =>
    obtain ⟨wk, _, rfl⟩ := Option.map_eq_some_iff.mp hs
    rfl
  | runRecv k rs =>
    obtain ⟨j, e, _, _, _, rfl⟩ := runRecv_cases hs
    rfl
  | runSend k rs =>
    obtain ⟨j, e, ret, b, bytes, _, _, _, _, rfl⟩ := runSend_cases hs
    rfl

/-- Every step of the engine's own work concerns a connection. -/
theorem subject_works {l : WorkersLabel} (hl : l.works = true) (hs : p.step l = some p') :
    ∃ i, p.subject l = some i := by
  cases l with
  | arrive | send | close | onIn | onOut | onError => cases hl
  | ret =>
    cases hst : p.stack with
    | nil => simp [Workers.step, hst] at hs
    | cons o fs => exact ⟨o.1, by simp [subject, hst]⟩
  | process k =>
    cases hr : (p.workers k).readResult with
    | none => simp [Workers.step, hr] at hs
    | some o => exact ⟨o.1.1, by simp [subject, hr]⟩
  | take k =>
    obtain ⟨wk, hk, _⟩ := Option.map_eq_some_iff.mp hs
    obtain ⟨c, r, _, hq, _⟩ := SharedWorker.take_spec hk
    obtain ⟨q, hread, _⟩ := CycleQueue.read_of_toList hq
    exact ⟨c, by simp [subject, hread]⟩
  | runRecv k rs | runSend k rs =>
    cases hx : (p.workers k).executing with
    | none => simp [Workers.step, hx] at hs
    | some o => exact ⟨o.1, by simp [subject, hx]⟩
  | push k =>
    cases hx : (p.workers k).executing with
    | none => simp [Workers.step, SharedWorker.pushResult, hx] at hs
    | some o => exact ⟨o.1, by simp [subject, hx]⟩

/-- The work of a connection that stays. -/
theorem effort_served (h : p.Consistent) {l : WorkersLabel} (hl : l.works = true)
    (hs : p.step l = some p') (hsub : p.subject l = some i) (hi : i ∈ p.live)
    (hk : p.Keeps i l) : p'.effort < p.effort := by
  obtain ⟨w, hr, hw⟩ := (h.served i hi).follows
  obtain ⟨hspares, w', hw', hfollows⟩ := subject_step h hs hsub hi hk hw hr
  have hlower := World.effort_step hr.accounts (WorkersLabel.works_alone hl) hw'
  rw [← hw.share, ← hfollows.share] at hlower
  have hlive := live_works hl hs hsub hk
  have horphans := hspares.orphans hlive hi
  have hsum : (p.live.map p'.share).sum < (p.live.map p.share).sum := by
    refine List.sum_lt_sum _ _ (fun j _ => ?_) ⟨i, hi, hlower⟩
    by_cases hj : j = i
    · rw [hj]
      exact Nat.le_of_lt hlower
    · exact Nat.le_of_eq (hspares.share hj)
  rw [effort, effort, hlive]
  omega

/-- `OnDisconnected` returns, and what is left are the callbacks behind it. -/
theorem effort_release (h : p.Consistent) {fs : List (Nat × Frame)}
    (hst : p.stack = (c, .onDisconnected) :: fs) (hc : c ∈ p.live) :
    (release c { p with stack := fs }).effort < p.effort := by
  have hshare : ∀ j ∈ p.live.erase c, (release c { p with stack := fs }).share j = p.share j := by
    intro j hj
    have hne : j ≠ c := ((List.Nodup.mem_erase_iff h.accounted.nodup).mp hj).1
    have hview : ∀ k, ((release c { p with stack := fs }).workers k).view j =
        (p.workers k).view j := update_keeps (SharedWorker.view j) rfl
    have hown : own j p.stack = own j fs := by rw [hst, own_cons_of_ne (Ne.symm hne)]
    rw [share, share, hview, hown]
    rfl
  have hframes : (own c fs).length < p.share c := by
    have hle := (p.conn c).frames_le_effort (own c p.stack) ((p.workers (p.conn c).worker).view c)
    rw [hst, own_cons_self, List.length_cons, ← own_cons_self (a := Frame.onDisconnected), ← hst]
      at hle
    exact hle
  have horphans : (release c { p with stack := fs }).orphans ≤ p.orphans + (own c fs).length := by
    have hsplit := length_filter_not_mem_erase (fs.map Prod.fst) p.live c
    rw [← length_own] at hsplit
    refine Nat.le_trans hsplit (Nat.add_le_add_right ?_ _)
    rw [orphans, hst, List.map_cons, List.filter_cons]
    split
    · exact Nat.le_succ _
    · exact Nat.le_refl _
  have hsum : (p.live.map p.share).sum = p.share c + ((p.live.erase c).map p.share).sum :=
    ((List.perm_cons_erase hc).map p.share).sum_eq.trans (List.sum_cons ..)
  have hsame : ((p.live.erase c).map (release c { p with stack := fs }).share).sum =
      ((p.live.erase c).map p.share).sum := by rw [List.map_congr_left hshare]
  have heffort : (release c { p with stack := fs }).effort =
      ((p.live.erase c).map (release c { p with stack := fs }).share).sum +
        (release c { p with stack := fs }).orphans := rfl
  rw [heffort, effort, hsame, hsum]
  omega

/-- The engine's own work lowers the measure. -/
theorem effort_step (h : p.Consistent) {l : WorkersLabel} (hl : l.works = true)
    (hs : p.step l = some p') : p'.effort < p.effort := by
  obtain ⟨i, hsub⟩ := subject_works hl hs
  by_cases hserved : i ∈ p.live ∧ p.Keeps i l
  · exact effort_served h hl hs hsub hserved.1 hserved.2
  · have hret : l = .ret := by
      by_contra hno
      refine hserved ⟨subject_live h hs hsub hno, ?_⟩
      cases l <;> trivial
    subst hret
    simp only [Workers.step] at hs
    split at hs
    · cases hs
    · next j f fs hst =>
      have hj : j = i := by simpa [subject, hst] using hsub
      subst hj
      split at hs
      · next hj =>
        have hf : f = .onDisconnected := by
          by_contra hno
          exact hserved ⟨hj, by simpa [Keeps, hst] using hno⟩
        simp only [hf, if_true] at hs
        cases hs
        exact effort_release h (hf ▸ hst) hj
      · next hj =>
        split at hs
        · cases hs
          have hshare : ∀ c ∈ p.live, share { p with stack := fs } c = p.share c := by
            intro c hc
            have hne : j ≠ c := fun he => hj (he ▸ hc)
            rw [share, share, hst, own_cons_of_ne hne]
          have hsum : (p.live.map (share { p with stack := fs })).sum =
              (p.live.map p.share).sum := by
            rw [List.map_congr_left hshare]
          have horphans : orphans { p with stack := fs } < p.orphans := by
            rw [orphans, orphans, hst, List.map_cons, List.filter_cons_of_pos (by simpa using hj)]
            exact Nat.lt_succ_self _
          simp only [effort, hsum]
          omega
        · cases hs

/-! ## What is left to do -/

/-- No callback is left, and nothing at any worker. -/
def Quiet (p : Workers size workerCount) : Prop := p.stack = [] ∧ ∀ k, (p.workers k).ids = []

/-- Only the workers of live connections may have something. -/
theorem quiet_iff (h : p.Accounted) :
    p.Quiet ↔ p.stack = [] ∧ ∀ c ∈ p.live, (p.workers (p.conn c).worker).ids = [] := by
  refine ⟨fun hq => ⟨hq.1, fun c _ => hq.2 _⟩, fun hq => ⟨hq.1, fun k => ?_⟩⟩
  refine List.eq_nil_iff_forall_not_mem.mpr fun c hm => ?_
  obtain ⟨hc, hk⟩ := h.owners k c hm
  rw [← hk, hq.2 c hc] at hm
  exact absurd hm List.not_mem_nil

/-- A worker comes to `OnSend` of a connection that has an empty buffer. -/
def Aborts (p : Workers size workerCount) : Prop :=
  ∃ k c, (p.workers k).executing = some (c, .request .send) ∧ (p.conn c).send.worked.data = []

/-- The sizes of two buffers of a live connection have a sum. -/
def Small (p : Workers size workerCount) : Prop :=
  ∀ c ∈ p.live, 2 * (p.conn c).setup.sendSize < s32Bound ∧
    2 * (p.conn c).setup.recvSize < s32Bound

theorem conn_post (c : Nat) (rs : List WorkRequest) (p : Workers size workerCount) :
    (rs.foldl (post c) p).conn = p.conn := by
  induction rs generalizing p with
  | nil => rfl
  | cons r rs ih => exact ih _

theorem setup_setConn {conn : Connection} (h : conn.setup = (p.conn c).setup) (j : Nat) :
    ((p.setConn c conn).conn j).setup = (p.conn j).setup :=
  update_keeps Connection.setup h j

theorem setup_call {f : ∀ {cfg : Config}, World cfg → Option (World cfg)}
    (hs : p.call c f = some p') (j : Nat) : (p'.conn j).setup = (p.conn j).setup := by
  obtain ⟨o, ho, rfl⟩ := Option.map_eq_some_iff.mp hs
  obtain ⟨w, _, rfl⟩ := Option.map_eq_some_iff.mp ho
  have hconn := conn_post c w.worker.workQueue.toList p
  refine (setup_setConn ?_ j).trans (by rw [hconn])
  rw [hconn]

/-- The engine's own work makes no connection. -/
theorem Small.step (h : p.Small) {l : WorkersLabel} (hl : l.works = true)
    (hs : p.step l = some p') : p'.Small := by
  have keep : ∀ {q : Workers size workerCount}, (∀ c ∈ q.live, c ∈ p.live) →
      (∀ c, (q.conn c).setup = (p.conn c).setup) → q.Small := by
    intro q hlive hsetup c hc
    rw [hsetup]
    exact h c (hlive c hc)
  cases l with
  | arrive | send | close | onIn | onOut | onError => cases hl
  | ret =>
    simp only [Workers.step] at hs
    split at hs
    · cases hs
    · split at hs
      · split at hs
        · cases hs
          exact keep (fun _ hc => List.mem_of_mem_erase hc) fun _ => rfl
        · refine keep (fun c hc => ?_) fun j => (setup_call hs j).trans rfl
          rwa [live_call hs] at hc
      · split at hs
        · cases hs
          exact keep (fun _ hc => hc) fun _ => rfl
        · cases hs
  | process k =>
    simp only [Workers.step] at hs
    split at hs
    · obtain ⟨o, _, hs⟩ := Option.bind_eq_some_iff.mp hs
      split at hs
      · refine keep (fun c hc => ?_) fun j => (setup_call hs j).trans rfl
        rwa [live_call hs] at hc
      · cases hs
    · cases hs
  | take k | push k =>
    obtain ⟨wk, _, rfl⟩ := Option.map_eq_some_iff.mp hs
    exact keep (fun _ hc => hc) fun _ => rfl
  | runRecv k rs =>
    obtain ⟨c, e, _, _, _, rfl⟩ := runRecv_cases hs
    exact keep (fun _ hc => hc) (setup_setConn rfl)
  | runSend k rs =>
    obtain ⟨c, e, ret, b, bytes, _, _, _, _, rfl⟩ := runSend_cases hs
    exact keep (fun _ hc => hc) (setup_setConn rfl)

end Workers

section
variable {size workerCount : Nat} {p p₀ : Workers size workerCount} {c : Nat} {setup : Setup}

theorem Site.Follows.settled {s : Site size workerCount} {w : World setup.config}
    (h : s.Follows c setup w) (hr : Reachable w) (hq : s.engine.Quiet) (hgone : s.gone = false) :
    s.engine.Follows c setup w ∧ w.Settled := by
  unfold Site.Follows at h
  rw [hgone] at h
  obtain ⟨_, hf⟩ := h
  obtain ⟨k, _, hp⟩ := id hf
  have hst : w.stack = [] := by rw [hp.stack, hq.1, own_nil]
  have hitems : w.worker.items = [] := by
    rw [hp.items, SharedWorker.view_of_not_mem (by rw [hq.2 k]; exact List.not_mem_nil)]
    rfl
  exact ⟨hf, World.settled_of_quiet hr hst hitems⟩

/-- **A quiet engine has no one waiting.** A connection of an engine that is quiet is settled, in
the run that the steps of the engine have been for it since its arrival. -/
theorem quiet_engine (h : (netWorkers size workerCount).Reachable p)
    (ha : p.step (.arrive c setup) = some p₀) {ls : List WorkersLabel}
    {s : Site size workerCount} (hs : (site c p₀).exec (fun _ _ => True) ⟨p₀, false⟩ ls = some s)
    (hq : s.engine.Quiet) (hgone : s.gone = false) :
    ∃ w, (system setup.config).exec (fun _ _ => True) (.init setup.config)
        ((site c p₀).acts (Site.act c) ⟨p₀, false⟩ ls) = some w ∧
      s.engine.Follows c setup w ∧ w.Settled := by
  have hsim := simulates_alone (Workers.consistent h) ha
  obtain ⟨w, hw, _, hr, hfollows⟩ := hsim.exec hsim.init hs
  exact ⟨w, hw, hfollows.settled hr hq hgone⟩

end

/-- Two connections of one worker that have sent a byte each. -/
def twoSend : List WorkersLabel :=
  [.ret, .send 0 [1], .send 1 [7], .take 0, .runSend 0 [.sent 1], .push 0, .take 0,
    .runSend 0 [.eagain], .process 0, .push 0, .process 0]

/-- The second one finds its socket full. -/
theorem quiet_engine_two : ∃ (s : Site 4 1) (w : World Setup.small.config),
    s.engine.Follows 1 .small w ∧ w.Settled ∧ (s.engine.conn 1).send.state = .sendPending := by
  obtain ⟨p, h, hp⟩ := (netWorkers 4 1).run_of_exec (P := fun _ _ => True)
    [.arrive 0 .small, .ret]
    (p := fun p => (p.step (.arrive 1 .small)).any fun p₀ =>
      ((site 1 p₀).exec (fun _ _ => True) ⟨p₀, false⟩ twoSend).any fun s =>
        !s.gone && s.engine.stack.isEmpty &&
          s.engine.live.all (fun c => (s.engine.workers (s.engine.conn c).worker).ids.isEmpty) &&
          (s.engine.conn 1).send.state == .sendPending) (by decide)
  obtain ⟨p₀, ha, hp⟩ := (Option.any_eq_true _ _).mp hp
  obtain ⟨s, hs, hp⟩ := (Option.any_eq_true _ _).mp hp
  simp only [Bool.and_eq_true, Bool.not_eq_true', List.isEmpty_iff, List.all_eq_true,
    beq_iff_eq] at hp
  obtain ⟨⟨⟨hgone, hst⟩, hids⟩, hstate⟩ := hp
  have hsim := simulates_alone (Workers.consistent h) ha
  obtain ⟨_, _, hq, _⟩ := hsim.exec hsim.init hs
  obtain ⟨w, _, hfollows, hsettled⟩ :=
    quiet_engine h ha hs ((Workers.quiet_iff hq.accounted).mpr ⟨hst, hids⟩) hgone
  exact ⟨s, w, hfollows, hsettled, hstate⟩

end HyperNet.Net
