import HyperNet.Core.Tagged
import HyperNet.Net.Release
import HyperNet.Net.Workers

/-! # What each connection has of a shared worker

A connection among others runs as one that has a worker to itself (`Plays`): what the shared
worker's queues hold for it, in order, is what its own worker's would hold. So it never has more
than two items there, one for each direction, and the queues have room for that many of every
connection that the worker may have. -/
namespace HyperNet.Net
open HyperNet.Api HyperNet.Public HyperNet.Core.History HyperNet.Core.Tagged
open HyperNet.Core.Transition

/-! ## The shared worker -/

/-- What of a worker is for one connection. -/
structure View where
  results : List NetEventType
  executing : List Item
  requests : List WorkRequest

/-- As one list, oldest first. -/
def View.items (v : View) : List Item :=
  v.results.map .result ++ v.executing ++ v.requests.map .request

def View.length (v : View) : Nat := v.results.length + v.executing.length + v.requests.length

namespace SharedWorker
variable {m c : Nat} {wk wk' : SharedWorker m}

def view (c : Nat) (wk : SharedWorker m) : View where
  results := own c wk.resultQueue.toList
  executing := own c wk.executing.toList
  requests := own c wk.workQueue.toList

/-- Whose the results and requests are. -/
def ids (wk : SharedWorker m) : List Nat :=
  wk.resultQueue.toList.map Prod.fst ++ wk.executing.toList.map Prod.fst ++
    wk.workQueue.toList.map Prod.fst

theorem length_view (wk : SharedWorker m) (c : Nat) : (wk.view c).length = wk.ids.count c := by
  simp only [View.length, view, ids, length_own, List.count_append]

theorem view_of_not_mem (h : c ∉ wk.ids) : wk.view c = ⟨[], [], []⟩ := by
  simp only [ids, List.mem_append, not_or] at h
  rw [view, own_eq_nil h.1.1, own_eq_nil h.1.2, own_eq_nil h.2]

/-- The calls of `NetWorker::Recv` and `NetWorker::Send` of a connection, in order. -/
def posts (wk : SharedWorker m) (c : Nat) (rs : List WorkRequest) : SharedWorker m :=
  rs.foldl (fun wk r => wk.post c r) wk

/-- A queue with room for the calls has them in the end, and none has found it full. -/
theorem workQueue_posts {rs : List WorkRequest}
    (h : wk.workQueue.toList.length + rs.length ≤ m * 2) :
    (wk.posts c rs).workQueue.toList = wk.workQueue.toList ++ rs.map (c, ·) ∧
      (wk.posts c rs).executing = wk.executing ∧
      (wk.posts c rs).resultQueue = wk.resultQueue ∧
      (wk.posts c rs).nowConnection = wk.nowConnection := by
  induction rs generalizing wk with
  | nil => exact ⟨(List.append_nil _).symm, rfl, rfl, rfl⟩
  | cons r rs ih =>
    rw [List.length_cons] at h
    have hpush : (wk.post c r).workQueue.toList = wk.workQueue.toList ++ [(c, r)] :=
      CycleQueue.toList_push _ (by rw [wk.work_capacity]; omega)
    have hroom : (wk.post c r).workQueue.toList.length + rs.length ≤ m * 2 := by
      rw [hpush, List.length_append, List.length_singleton]
      omega
    obtain ⟨hq, hrest⟩ := ih hroom
    refine ⟨?_, hrest⟩
    rw [hpush, List.append_assoc, List.singleton_append] at hq
    exact hq

theorem ids_posts {rs : List WorkRequest} (h : wk.workQueue.toList.length + rs.length ≤ m * 2) :
    ∀ i ∈ (wk.posts c rs).ids, i ∈ wk.ids ∨ i = c := by
  obtain ⟨hq, hx, hres, _⟩ := workQueue_posts (c := c) h
  intro i hi
  simp only [ids, hq, hx, hres, List.map_append, ← List.append_assoc] at hi
  rcases List.mem_append.mp hi with hi | hi
  · exact .inl hi
  · obtain ⟨x, hx, rfl⟩ := List.mem_map.mp hi
    obtain ⟨r, _, rfl⟩ := List.mem_map.mp hx
    exact .inr rfl

theorem view_posts {rs : List WorkRequest} (h : wk.workQueue.toList.length + rs.length ≤ m * 2) :
    (wk.posts c rs).view c = { wk.view c with requests := (wk.view c).requests ++ rs } := by
  obtain ⟨hq, hx, hres, _⟩ := workQueue_posts (c := c) h
  simp only [view, hq, hx, hres, own_append, own_map_self]

theorem view_posts_of_ne {rs : List WorkRequest}
    (h : wk.workQueue.toList.length + rs.length ≤ m * 2) {i : Nat} (hi : c ≠ i) :
    (wk.posts c rs).view i = wk.view i := by
  obtain ⟨hq, hx, hres, _⟩ := workQueue_posts (c := c) h
  simp only [view, hq, hx, hres, own_append, own_map_of_ne hi, List.append_nil]

theorem take_spec (h : wk.take = some wk') : ∃ c r, wk.executing = none ∧
    wk.workQueue.toList = (c, r) :: wk'.workQueue.toList ∧
    wk'.executing = some (c, .request r) ∧ wk'.resultQueue = wk.resultQueue ∧
    wk'.nowConnection = wk.nowConnection := by
  unfold take at h
  split at h
  · next c r q hx hr =>
    cases h
    exact ⟨c, r, hx, CycleQueue.toList_read hr, rfl, rfl, rfl⟩
  · cases h

theorem readResult_spec {o : Nat × NetEventType} (h : wk.readResult = some (o, wk')) :
    wk.resultQueue.toList = o :: wk'.resultQueue.toList ∧ wk'.executing = wk.executing ∧
      wk'.workQueue = wk.workQueue ∧ wk'.nowConnection = wk.nowConnection := by
  unfold readResult at h
  split at h
  · next r q hr =>
    cases h
    exact ⟨CycleQueue.toList_read hr, rfl, rfl, rfl⟩
  · cases h

theorem pushResult_spec (h : wk.pushResult = some wk')
    (hroom : wk.resultQueue.toList.length < m * 2) : ∃ c e, wk.executing = some (c, .result e) ∧
      wk'.resultQueue.toList = wk.resultQueue.toList ++ [(c, e)] ∧ wk'.executing = none ∧
      wk'.workQueue = wk.workQueue ∧ wk'.nowConnection = wk.nowConnection := by
  unfold pushResult at h
  split at h
  · next c e hx =>
    cases h
    exact ⟨c, e, hx, CycleQueue.toList_push _ (by rw [wk.result_capacity]; exact hroom), rfl, rfl,
      rfl⟩
  · cases h

end SharedWorker

/-! ## A connection among others -/

/-- The connection, with its callbacks `fs` and its share `v` of the worker, is in the state of
`w`, where it has a worker to itself. -/
structure Plays (conn : Connection) (fs : List Frame) (v : View) (w : World conn.setup.config) :
    Prop where
  send : w.send = conn.send
  recv : w.recv = conn.recv
  pipe : w.pipe = true
  released : w.released = false
  stack : w.stack = fs
  results : w.worker.resultQueue.toList = v.results
  executing : w.worker.executing.toList = v.executing
  requests : w.worker.workQueue.toList = v.requests

namespace Plays
variable {conn : Connection} {fs : List Frame} {v : View} {w : World conn.setup.config}

theorem items (h : Plays conn fs v w) : w.worker.items = v.items := by
  rw [NetWorker.items, View.items, h.results, h.executing, h.requests]

theorem length_items (h : Plays conn fs v w) : w.worker.items.length = v.length := by
  rw [h.items, View.items, View.length, List.length_append, List.length_append, List.length_map,
    List.length_map]

theorem length_le (h : Plays conn fs v w) (hr : Reachable w) : v.length ≤ 2 := by
  have hl := hr.accounts.length_le
  have := Bool.toNat_le w.send.state.busy
  have := Bool.toNat_le (w.recv.state.busy && !w.inOnRecv)
  rw [h.length_items] at hl
  simp only [Bool.toNat_false] at hl
  omega

theorem eq_elsewhere (h : Plays conn fs v w) : w = conn.world.elsewhere w.worker fs w.trace := by
  obtain ⟨send, recv, worker, pipe, released, stack, trace⟩ := w
  obtain ⟨rfl, rfl, rfl, rfl, rfl, _, _, _⟩ := h
  rfl

/-- A function of the connection does the same to the two. -/
theorem run (h : Plays conn fs v w) (hv : v.length ≤ 2)
    {f : World conn.setup.config → Option (World conn.setup.config)} {o : Connection.Outcome}
    (hf : ∀ w', f conn.world = some w' →
      ∃ rs, rs.length ≤ 2 ∧ World.Calls f conn.world w' rs)
    (ho : conn.run f = some o) :
    ∃ w', f w = some w' ∧ o.connection = { conn with send := w'.send, recv := w'.recv } ∧
      Plays { conn with send := w'.send, recv := w'.recv } (o.frames ++ fs)
        { v with requests := v.requests ++ o.requests } w' := by
  obtain ⟨u, hu, rfl⟩ := Option.map_eq_some_iff.mp ho
  obtain ⟨rs, hlen, hcalls⟩ := hf u hu
  obtain ⟨tr, hover⟩ := hcalls.elsewhere w.worker fs w.trace
  rw [← h.eq_elsewhere] at hover
  have hempty : conn.world.worker.workQueue.toList = [] := CycleQueue.toList_create _
  have hrs : u.worker.workQueue.toList = rs := by
    rw [hcalls.worker, (NetWorker.workQueue_posts _ rs (by rw [hempty]; simpa using by omega)).1,
      hempty, List.nil_append]
  have hq : w.worker.workQueue.toList.length + rs.length ≤ conn.setup.config.maxConnection * 2 := by
    simp only [View.length] at hv
    have : conn.setup.config.maxConnection = 2 := rfl
    rw [h.requests, this]
    omega
  obtain ⟨hwork, hexec, hres⟩ := w.worker.workQueue_posts rs hq
  refine ⟨_, hover, rfl, rfl, rfl, hcalls.pipe, hcalls.released, rfl, ?_, ?_, ?_⟩
  · exact (congrArg CycleQueue.toList hres).trans h.results
  · exact (congrArg Option.toList hexec).trans h.executing
  · refine hwork.trans ?_
    rw [h.requests, hrs]

end Plays

/-! ## The whole -/

namespace Workers
variable {size workerCount : Nat} {p p' : Workers size workerCount} {c k : Nat}

/-- What a change at one place leaves as it is there is as it was everywhere. -/
theorem update_keeps {α β : Type} {g : Nat → α} {a : α} (f : α → β) (h : f a = f (g k)) (j : Nat) :
    f (Function.update g k a j) = f (g j) := by
  by_cases hj : j = k
  · rw [hj, Function.update_self, h]
  · rw [Function.update_of_ne hj]

/-- A worker that has of other connections than before nothing new. -/
theorem mem_ids_update {m : Nat} {g : Nat → SharedWorker m} {wk : SharedWorker m}
    (h : ∀ i ∈ wk.ids, i ∈ (g k).ids) {i j : Nat} (hi : i ∈ (Function.update g k wk j).ids) :
    i ∈ (g j).ids := by
  by_cases hj : j = k
  · rw [hj, Function.update_self] at hi
    exact hj ▸ h i hi
  · rwa [Function.update_of_ne hj] at hi

/-- The live connections that are assigned to a worker. -/
def connections (k : Nat) (p : Workers size workerCount) : List Nat :=
  p.live.filter fun c => (p.conn c).worker = k

structure Accounted (p : Workers size workerCount) : Prop where
  nodup : p.live.Nodup
  assigned : ∀ c ∈ p.live, (p.conn c).worker < workerCount
  owners : ∀ k, ∀ c ∈ (p.workers k).ids, c ∈ p.live ∧ (p.conn c).worker = k
  now : ∀ k, (p.workers k).nowConnection = (p.connections k).length
  le : ∀ k, (p.workers k).nowConnection ≤ (size / workerCount : Nat)
  clean : ∀ o ∈ p.trace, o.full = false

/-- The connection is in a state that it reaches with a worker to itself. -/
def Served (c : Nat) (p : Workers size workerCount) : Prop :=
  ∃ conn, p.conn c = conn ∧ ∃ w : World conn.setup.config,
    Reachable w ∧ Plays conn (own c p.stack) ((p.workers conn.worker).view c) w

structure Consistent (p : Workers size workerCount) : Prop where
  accounted : p.Accounted
  served : ∀ c ∈ p.live, p.Served c

/-- A step that leaves the accounts alone. -/
theorem Accounted.keep (h : p.Accounted) (hlive : p'.live = p.live)
    (hworker : ∀ i, (p'.conn i).worker = (p.conn i).worker)
    (hnow : ∀ k, (p'.workers k).nowConnection = (p.workers k).nowConnection)
    (hids : ∀ k, ∀ i ∈ (p'.workers k).ids,
      i ∈ (p.workers k).ids ∨ i ∈ p.live ∧ (p.conn i).worker = k)
    (htrace : ∀ o ∈ p'.trace, o ∈ p.trace ∨ o.full = false) : p'.Accounted where
  nodup := hlive ▸ h.nodup
  assigned i hi := by
    rw [hworker]
    exact h.assigned i (hlive ▸ hi)
  owners k i hi := by
    rw [hlive, hworker]
    exact (hids k i hi).elim (h.owners k i) id
  now k := by
    rw [hnow, h.now, connections, connections, hlive]
    simp only [hworker]
  le k := hnow k ▸ h.le k
  clean o ho := (htrace o ho).elim (h.clean o) id

/-- A step that leaves the connection and its share alone. -/
theorem Served.keep (h : p.Served c) (hconn : p'.conn c = p.conn c)
    (hstack : own c p'.stack = own c p.stack)
    (hview : (p'.workers (p.conn c).worker).view c = (p.workers (p.conn c).worker).view c) :
    p'.Served c := by
  obtain ⟨conn, rfl, w, hr, hp⟩ := h
  refine ⟨_, hconn, w, hr, ?_⟩
  rw [hstack, hview]
  exact hp

theorem Served.length_view (h : p.Served c) :
    ((p.workers (p.conn c).worker).view c).length ≤ 2 := by
  obtain ⟨conn, rfl, w, hr, hp⟩ := h
  exact hp.length_le hr

/-- The entries of a worker's connections, each with two at most, have room in its queues. -/
theorem Accounted.room (h : p.Accounted) {is : List Nat}
    (hmem : ∀ i ∈ is, i ∈ p.live ∧ (p.conn i).worker = k)
    (hcount : ∀ i ∈ p.live, (p.conn i).worker = k → is.count i ≤ 2) :
    is.length ≤ size / workerCount * 2 := by
  have hle : is.length ≤ 2 * (p.connections k).length := by
    refine length_le_of_count (fun i hi => ?_) (fun i hi => ?_)
    · obtain ⟨hl, hk⟩ := hmem i hi
      exact List.mem_filter.mpr ⟨hl, decide_eq_true hk⟩
    · obtain ⟨hl, hk⟩ := List.mem_filter.mp hi
      exact hcount i hl (of_decide_eq_true hk)
  have hnow := h.now k
  have hmax := h.le k
  omega

/-! ## The calls of a connection -/

/-- The calls of the worker, where its queue has room for them. -/
theorem foldl_post (rs : List WorkRequest) (p : Workers size workerCount)
    (hroom : (p.workers (p.conn c).worker).workQueue.toList.length + rs.length ≤
      size / workerCount * 2) :
    (rs.foldl (post c) p).live = p.live ∧ (rs.foldl (post c) p).conn = p.conn ∧
      (rs.foldl (post c) p).stack = p.stack ∧
      (rs.foldl (post c) p).workers = Function.update p.workers (p.conn c).worker
        ((p.workers (p.conn c).worker).posts c rs) ∧
      ∀ o ∈ (rs.foldl (post c) p).trace, o ∈ p.trace ∨ o.full = false := by
  induction rs generalizing p with
  | nil => exact ⟨rfl, rfl, rfl, (Function.update_eq_self _ _).symm, fun o ho => .inl ho⟩
  | cons r rs ih =>
    rw [List.length_cons] at hroom
    have hself : (p.post c r).workers (p.conn c).worker = (p.workers (p.conn c).worker).post c r :=
      Function.update_self ..
    have hlt : (p.workers (p.conn c).worker).workQueue.toList.length <
        (p.workers (p.conn c).worker).workQueue.capacity := by
      rw [(p.workers (p.conn c).worker).work_capacity]
      omega
    have hpush : ((p.workers (p.conn c).worker).post c r).workQueue.toList =
        (p.workers (p.conn c).worker).workQueue.toList ++ [(c, r)] :=
      CycleQueue.toList_push _ hlt
    have hfull : (p.workers (p.conn c).worker).workQueue.isFull = false := by
      rw [Bool.eq_false_iff, Ne, CycleQueue.isFull_iff]
      omega
    obtain ⟨hl, hc, hs, hw, ht⟩ := ih (p.post c r) (by
      change ((p.post c r).workers (p.conn c).worker).workQueue.toList.length + rs.length ≤ _
      rw [hself, hpush, List.length_append, List.length_singleton]
      omega)
    refine ⟨hl, hc, hs, ?_, ?_⟩
    · refine hw.trans ?_
      change Function.update (Function.update p.workers (p.conn c).worker _) (p.conn c).worker
        (SharedWorker.posts ((p.post c r).workers (p.conn c).worker) c rs) = _
      rw [Function.update_idem, hself]
      rfl
    · intro o ho
      rcases ht o ho with ho | ho
      · rcases List.mem_append.mp ho with ho | ho
        · exact .inl ho
        · rw [List.mem_singleton.mp ho]
          exact .inr hfull
      · exact .inr ho

/-- There is room for the calls of a connection that has two items after them at most. -/
theorem Accounted.room_of_calls (h : p.Accounted) (hothers : ∀ i ∈ p.live, i ≠ c → p.Served i)
    (hc : c ∈ p.live) {rs : List WorkRequest}
    (hv : ((p.workers (p.conn c).worker).view c).length + rs.length ≤ 2) :
    (p.workers (p.conn c).worker).workQueue.toList.length + rs.length ≤
      size / workerCount * 2 := by
  have hmem : ∀ i ∈ (p.workers (p.conn c).worker).ids ++ List.replicate rs.length c,
      i ∈ p.live ∧ (p.conn i).worker = (p.conn c).worker := by
    intro i hi
    rcases List.mem_append.mp hi with hi | hi
    · exact h.owners _ i hi
    · rw [List.eq_of_mem_replicate hi]
      exact ⟨hc, rfl⟩
  have hlen := h.room hmem fun i hi hik => ?_
  · simp only [SharedWorker.ids, List.length_append, List.length_map,
      List.length_replicate] at hlen
    omega
  · rw [List.count_append, ← SharedWorker.length_view, List.count_replicate]
    by_cases hne : i = c
    · subst hne
      rwa [if_pos (beq_self_eq_true i)]
    · rw [if_neg (by simpa using fun he => hne he.symm), ← hik]
      exact (hothers i hi hne).length_view

/-- A function of a connection is called. Its own state may be that inside a step; the others are
between their steps. -/
theorem Accounted.call (h : p.Accounted) (hothers : ∀ i ∈ p.live, i ≠ c → p.Served i)
    (hc : c ∈ p.live) {f : ∀ {cfg : Config}, World cfg → Option (World cfg)}
    (hf : ∀ {cfg : Config} {w w' : World cfg}, f w = some w' →
      ∃ rs, rs.length ≤ 2 ∧ World.Calls f w w' rs)
    {w : World (p.conn c).setup.config}
    (hp : Plays (p.conn c) (own c p.stack) ((p.workers (p.conn c).worker).view c) w)
    (hv : ((p.workers (p.conn c).worker).view c).length ≤ 2)
    (hreach : ∀ w', f w = some w' → Reachable w') (hs : p.call c f = some p') : p'.Consistent := by
  obtain ⟨o, ho, rfl⟩ := Option.map_eq_some_iff.mp hs
  obtain ⟨w', hw', hoc, hplays⟩ := hp.run hv (fun _ h => hf h) ho
  have hworker : o.connection.worker = (p.conn c).worker := by rw [hoc]
  have htwo : ((p.workers (p.conn c).worker).view c).length + o.requests.length ≤ 2 := by
    have hle := hplays.length_le (hreach w' hw')
    simp only [View.length, List.length_append] at hle ⊢
    omega
  have hroom := h.room_of_calls hothers hc htwo
  obtain ⟨hlive, hconn, hstack, hworkers, htrace⟩ := foldl_post (c := c) o.requests p hroom
  generalize o.requests.foldl (post c) p = q at *
  have hkeep : ∀ i, (Function.update q.conn c o.connection i).worker = (p.conn i).worker := by
    rw [hconn]
    exact update_keeps Connection.worker hworker
  refine ⟨h.keep hlive hkeep (fun j => ?_) (fun j i hi => ?_) htrace, fun i hi => ?_⟩
  · change (q.workers j).nowConnection = _
    rw [hworkers]
    exact update_keeps SharedWorker.nowConnection (SharedWorker.workQueue_posts hroom).2.2.2 j
  · change i ∈ (q.workers j).ids at hi
    rw [hworkers] at hi
    by_cases hj : j = (p.conn c).worker
    · rw [hj, Function.update_self] at hi
      rcases SharedWorker.ids_posts hroom i hi with hi | rfl
      · exact .inl (hj ▸ hi)
      · exact .inr ⟨hc, hj.symm⟩
    · rw [Function.update_of_ne hj] at hi
      exact .inl hi
  · by_cases hne : i = c
    · subst hne
      refine ⟨o.connection, Function.update_self .., ?_⟩
      rw [hoc]
      refine ⟨w', hreach w' hw', ?_⟩
      have hview : (q.workers (p.conn i).worker).view i =
          { (p.workers (p.conn i).worker).view i with
            requests := ((p.workers (p.conn i).worker).view i).requests ++ o.requests } := by
        rw [hworkers, Function.update_self]
        exact SharedWorker.view_posts hroom
      change Plays { p.conn i with send := w'.send, recv := w'.recv }
        (own i (o.frames.map (i, ·) ++ p.stack)) ((q.workers (p.conn i).worker).view i) w'
      rw [hview, own_append, own_map_self]
      exact hplays
    · refine (hothers i (hlive ▸ hi) hne).keep ?_ ?_ ?_
      · change Function.update q.conn c o.connection i = _
        rw [Function.update_of_ne hne, hconn]
      · change own i (o.frames.map (c, ·) ++ p.stack) = _
        rw [own_append, own_map_of_ne (Ne.symm hne), List.nil_append]
      · change (q.workers (p.conn i).worker).view i = _
        rw [hworkers]
        exact update_keeps (SharedWorker.view i)
          (SharedWorker.view_posts_of_ne hroom (Ne.symm hne)) _

/-- `GetWorker` gives a worker with a free slot. -/
theorem getWorker_spec (h : p.getWorker = some k) :
    k < workerCount ∧ 0 < (p.workers k).getFreeSlot := by
  have h : Net.getWorker workerCount (fun i => (p.workers i).getFreeSlot) = some k := h
  exact getWorker_mem h

/-! ## The steps -/

namespace Consistent

/-- A connection that is called between its steps. -/
theorem call (h : p.Consistent) (hc : c ∈ p.live)
    {f : ∀ {cfg : Config}, World cfg → Option (World cfg)}
    (hf : ∀ {cfg : Config} {w w' : World cfg}, f w = some w' →
      ∃ rs, rs.length ≤ 2 ∧ World.Calls f w w' rs)
    (hstep : ∀ {cfg : Config} {w w' : World cfg}, w.pipe = true → w.released = false →
      w.stack = own c p.stack → f w = some w' → ∃ l, w.step l = some w')
    (hs : p.call c f = some p') : p'.Consistent := by
  obtain ⟨conn, rfl, w, hr, hp⟩ := h.served c hc
  refine h.accounted.call (fun i hi _ => h.served i hi) hc hf hp (hp.length_le hr) ?_ hs
  intro w' hw
  obtain ⟨l, hl⟩ := hstep hp.pipe hp.released hp.stack hw
  exact .next hr trivial hl

theorem arrive (h : p.Consistent) {setup : Setup} (hst : p.stack = []) (hc : c ∉ p.live)
    (hk : p.getWorker = some k) :
    Consistent { (p.setWorker k (p.workers k).add).setConn c (.create setup k) with
      live := c :: p.live
      stack := [(c, .onConnected)] } := by
  obtain ⟨hlt, hfree⟩ := getWorker_spec hk
  have hconn : ∀ i ∈ p.live, Function.update p.conn c (.create setup k) i = p.conn i := by
    intro i hi
    exact Function.update_of_ne (show i ≠ c from fun he => hc (he ▸ hi)) ..
  have hself : Function.update p.conn c (.create setup k) c = .create setup k :=
    Function.update_self ..
  have hids : ∀ j, (Function.update p.workers k (p.workers k).add j).ids = (p.workers j).ids :=
    update_keeps SharedWorker.ids rfl
  have hview : ∀ i j, (Function.update p.workers k (p.workers k).add j).view i =
      (p.workers j).view i :=
    fun i => update_keeps (SharedWorker.view i) rfl
  have hfilter : ∀ j, p.live.filter (fun i =>
      (Function.update p.conn c (.create setup k) i).worker = j) = p.connections j := by
    intro j
    refine List.filter_congr fun i hi => ?_
    rw [hconn i hi]
  refine ⟨⟨List.nodup_cons.mpr ⟨hc, h.accounted.nodup⟩, ?_, ?_, ?_, ?_, h.accounted.clean⟩, ?_⟩
  · intro i hi
    change (Function.update p.conn c _ i).worker < workerCount
    rcases List.mem_cons.mp hi with rfl | hi
    · rw [hself]
      exact hlt
    · rw [hconn i hi]
      exact h.accounted.assigned i hi
  · intro j i hi
    have hi : i ∈ (Function.update p.workers k (p.workers k).add j).ids := hi
    rw [hids] at hi
    obtain ⟨hl, hj⟩ := h.accounted.owners j i hi
    refine ⟨List.mem_cons_of_mem _ hl, ?_⟩
    change (Function.update p.conn c _ i).worker = j
    rw [hconn i hl]
    exact hj
  · intro j
    change (Function.update p.workers k _ j).nowConnection = ((c :: p.live).filter fun i =>
      (Function.update p.conn c (.create setup k) i).worker = j).length
    rw [List.filter_cons, hself, hfilter]
    have hnow := h.accounted.now j
    by_cases hj : j = k
    · subst hj
      rw [Function.update_self, if_pos (by simp [Connection.create]), List.length_cons]
      simp only [SharedWorker.add]
      omega
    · rw [Function.update_of_ne hj, if_neg (by simp [Connection.create, Ne.symm hj])]
      exact hnow
  · intro j
    change (Function.update p.workers k _ j).nowConnection ≤ _
    by_cases hj : j = k
    · subst hj
      rw [Function.update_self]
      simp only [SharedWorker.getFreeSlot, SharedWorker.add] at hfree ⊢
      omega
    · rw [Function.update_of_ne hj]
      exact h.accounted.le j
  · intro i hi
    rcases List.mem_cons.mp hi with rfl | hi
    · refine ⟨.create setup k, hself, World.init setup.config, .start, ?_⟩
      have hnone : (p.workers k).view i = ⟨[], [], []⟩ :=
        SharedWorker.view_of_not_mem fun hm => hc (h.accounted.owners k i hm).1
      change Plays (.create setup k) (own i [(i, Frame.onConnected)])
        ((Function.update p.workers k (p.workers k).add k).view i) _
      rw [hview, hnone, own_cons_self]
      exact ⟨rfl, rfl, rfl, rfl, rfl, CycleQueue.toList_create _, rfl, CycleQueue.toList_create _⟩
    · refine (h.served i hi).keep (hconn i hi) ?_ (hview i _)
      change own i [(c, Frame.onConnected)] = _
      rw [hst, own_cons_of_ne (show c ≠ i from fun he => hc (he ▸ hi))]

/-- A callback other than `OnDisconnected` returns. -/
theorem resume (h : p.Consistent) {f : Frame} {fs : List (Nat × Frame)}
    (hst : p.stack = (c, f) :: fs) (hc : c ∈ p.live) (hf : f ≠ .onDisconnected)
    (hs : Workers.call c (fun w => w.resume f) { p with stack := fs } = some p') :
    p'.Consistent := by
  obtain ⟨conn, rfl, w, hr, hp⟩ := h.served c hc
  have hstack : w.stack = f :: own c fs := by rw [hp.stack, hst, own_cons_self]
  have hacc : Accounted { p with stack := fs } :=
    h.accounted.keep rfl (fun _ => rfl) (fun _ => rfl) (fun _ _ hi => .inl hi) fun _ ho => .inl ho
  have hothers : ∀ i ∈ p.live, i ≠ c → Served i { p with stack := fs } := by
    intro i hi hne
    refine (h.served i hi).keep rfl ?_ rfl
    rw [hst, own_cons_of_ne (Ne.symm hne)]
  have hplays : Plays (p.conn c) (own c fs) ((p.workers (p.conn c).worker).view c)
      { w with stack := own c fs } :=
    ⟨hp.send, hp.recv, hp.pipe, hp.released, rfl, hp.results, hp.executing, hp.requests⟩
  refine hacc.call hothers hc (fun h => World.resume_calls h hf) hplays (hp.length_le hr) ?_ hs
  intro w' hw
  refine .next hr trivial (l := .ret) ?_
  change w.step .ret = some w'
  rw [World.step, hstack]
  exact hw

/-- A callback of the connection begins. -/
theorem onError (h : p.Consistent) (hst : p.stack = []) :
    Consistent { p with stack := [(c, .onError)] } := by
  refine ⟨h.accounted.keep rfl (fun _ => rfl) (fun _ => rfl) (fun _ _ hi => .inl hi)
    fun _ ho => .inl ho, fun i hi => ?_⟩
  obtain ⟨conn, rfl, w, hr, hp⟩ := h.served i hi
  have hstack : w.stack = [] := by rw [hp.stack, hst, own_nil]
  by_cases hne : i = c
  · subst hne
    have hidle : w.idle = true := World.idle_iff.mpr ⟨hstack, hp.released⟩
    refine ⟨p.conn i, rfl, { w with
      stack := .onError :: w.stack, trace := w.trace ++ [.onError 0] }, ?_, ?_⟩
    · exact .next hr trivial (l := .onError 0) (if_pos hidle)
    · rw [own_cons_self, own_nil, hstack]
      exact ⟨hp.send, hp.recv, hp.pipe, hp.released, rfl, hp.results, hp.executing, hp.requests⟩
  · refine (h.served i hi).keep rfl ?_ rfl
    rw [own_cons_of_ne (Ne.symm hne), hst]

/-- A callback of a connection that is deleted returns. -/
theorem pop (h : p.Consistent) {f : Frame} {fs : List (Nat × Frame)}
    (hst : p.stack = (c, f) :: fs) (hc : c ∉ p.live) : Consistent { p with stack := fs } := by
  refine ⟨h.accounted.keep rfl (fun _ => rfl) (fun _ => rfl) (fun _ _ hi => .inl hi)
    fun _ ho => .inl ho, fun i hi => (h.served i hi).keep rfl ?_ rfl⟩
  have hne : c ≠ i := fun he => hc (he ▸ hi)
  rw [hst, own_cons_of_ne hne]

/-- `OnClose` ends: nothing of the connection is left at its worker. -/
theorem release (h : p.Consistent) {fs : List (Nat × Frame)}
    (hst : p.stack = (c, .onDisconnected) :: fs) (hc : c ∈ p.live) :
    (Workers.release c { p with stack := fs }).Consistent := by
  obtain ⟨conn, rfl, w, hr, hp⟩ := h.served c hc
  have hnone : ((p.workers (p.conn c).worker).view c).length = 0 := by
    have hb := World.disconnecting_closed hr (by rw [hp.stack, hst, own_cons_self]; exact .head _)
    rw [← hp.length_items, hr.accounts.items_nil hb.1 hb.2, List.length_nil]
  have hremove : ∀ j, (Function.update p.workers (p.conn c).worker
      (p.workers (p.conn c).worker).remove j).ids = (p.workers j).ids :=
    update_keeps SharedWorker.ids rfl
  have hview : ∀ i j, (Function.update p.workers (p.conn c).worker
      (p.workers (p.conn c).worker).remove j).view i = (p.workers j).view i :=
    fun i => update_keeps (SharedWorker.view i) rfl
  have hsub : ∀ i ∈ p.live.erase c, i ∈ p.live ∧ i ≠ c :=
    fun i hi => (List.Nodup.mem_erase_iff h.accounted.nodup).mp hi |>.symm
  refine ⟨⟨h.accounted.nodup.erase c, fun i hi => h.accounted.assigned i (hsub i hi).1, ?_, ?_, ?_,
    h.accounted.clean⟩, ?_⟩
  · intro j i hi
    have hids : i ∈ (p.workers j).ids := hremove j ▸ hi
    obtain ⟨hl, hj⟩ := h.accounted.owners j i hids
    refine ⟨(List.Nodup.mem_erase_iff h.accounted.nodup).mpr ⟨fun he => ?_, hl⟩, hj⟩
    rw [← he, hj, SharedWorker.length_view] at hnone
    exact List.count_eq_zero.mp hnone hids
  · intro j
    have hnow := h.accounted.now j
    have herase : connections j (Workers.release c { p with stack := fs }) =
        (p.connections j).erase c := by
      change (p.live.erase c).filter _ = _
      rw [h.accounted.nodup.erase_eq_filter, connections,
        (h.accounted.nodup.filter _).erase_eq_filter, List.filter_filter, List.filter_filter]
      congr 1
      funext i
      exact Bool.and_comm _ _
    rw [herase]
    change (Function.update p.workers _ _ j).nowConnection = _
    by_cases hj : j = (p.conn c).worker
    · subst hj
      have hm : c ∈ p.connections (p.conn c).worker :=
        List.mem_filter.mpr ⟨hc, decide_eq_true rfl⟩
      have hpos := List.length_pos_of_mem hm
      rw [Function.update_self, List.length_erase_of_mem hm]
      simp only [SharedWorker.remove]
      omega
    · have hm : c ∉ p.connections j := fun hm =>
        hj (of_decide_eq_true (List.mem_filter.mp hm).2).symm
      rw [Function.update_of_ne hj, List.erase_of_not_mem hm]
      exact hnow
  · intro j
    have hle := h.accounted.le j
    change (Function.update p.workers _ _ j).nowConnection ≤ _
    by_cases hj : j = (p.conn c).worker
    · subst hj
      rw [Function.update_self]
      simp only [SharedWorker.remove]
      omega
    · rw [Function.update_of_ne hj]
      exact hle
  · intro i hi
    obtain ⟨hl, hne⟩ := hsub i hi
    refine (h.served i hl).keep rfl ?_ (hview i _)
    change own i fs = _
    rw [hst, own_cons_of_ne (Ne.symm hne)]

/-- The worker's thread goes on with a connection. -/
theorem serve (h : p.Consistent) {conn : Connection} {wk : SharedWorker (size / workerCount)}
    (hlive : p'.live = p.live) (hstack : p'.stack = p.stack)
    (hconn : p'.conn = Function.update p.conn c conn)
    (hworkers : p'.workers = Function.update p.workers (p.conn c).worker wk)
    (hworker : conn.worker = (p.conn c).worker)
    (hnow : wk.nowConnection = (p.workers (p.conn c).worker).nowConnection)
    (hids : ∀ i ∈ wk.ids, i ∈ (p.workers (p.conn c).worker).ids)
    (hview : ∀ i ≠ c, wk.view i = (p.workers (p.conn c).worker).view i)
    (htrace : ∀ o ∈ p'.trace, o ∈ p.trace ∨ o.full = false)
    (hserved : ∃ w : World conn.setup.config,
      Reachable w ∧ Plays conn (own c p.stack) (wk.view c) w) : p'.Consistent := by
  refine ⟨h.accounted.keep hlive (fun i => ?_) (fun j => ?_) (fun j i hi => ?_) htrace,
    fun i hi => ?_⟩
  · rw [hconn]
    exact update_keeps Connection.worker hworker i
  · rw [hworkers]
    exact update_keeps SharedWorker.nowConnection hnow j
  · rw [hworkers] at hi
    exact .inl (mem_ids_update hids hi)
  · by_cases hne : i = c
    · subst hne
      obtain ⟨w, hr, hp⟩ := hserved
      refine ⟨conn, by rw [hconn, Function.update_self], w, hr, ?_⟩
      rw [hstack, hworkers, hworker, Function.update_self]
      exact hp
    · refine (h.served i (hlive ▸ hi)).keep (by rw [hconn, Function.update_of_ne hne])
        (by rw [hstack]) ?_
      rw [hworkers]
      exact update_keeps (SharedWorker.view i) (hview i hne) _

theorem take (h : p.Consistent) {wk : SharedWorker (size / workerCount)}
    (hk : (p.workers k).take = some wk) : (p.setWorker k wk).Consistent := by
  obtain ⟨c, r, hx, hq, hx', hres, hnow⟩ := SharedWorker.take_spec hk
  obtain ⟨hc, rfl⟩ := h.accounted.owners k c (by simp [SharedWorker.ids, hq])
  obtain ⟨_, rfl, w, hr, hp⟩ := h.served c hc
  have hnone : w.worker.executing = none := by
    refine Option.toList_eq_nil_iff.mp ?_
    rw [hp.executing, SharedWorker.view, hx]
    rfl
  have hwork : w.worker.workQueue.toList = r :: own c wk.workQueue.toList := by
    rw [hp.requests, SharedWorker.view, hq, own_cons_self]
  obtain ⟨nw, htake, hnq, hnx, hnres⟩ := NetWorker.take_of_workQueue hnone hwork
  refine h.serve (c := c) rfl rfl (Function.update_eq_self _ _).symm rfl rfl hnow ?_ ?_
    (fun _ ho => .inl ho) ⟨{ w with worker := nw }, ?_, ?_⟩
  · intro i hi
    simpa [SharedWorker.ids, hq, hx, hx', hres, or_assoc, or_left_comm] using hi
  · intro i hi
    simp only [SharedWorker.view, hq, hx, hx', hres, own_cons_of_ne (Ne.symm hi),
      Option.toList_some, Option.toList_none, own_nil]
  · exact .next hr trivial (l := .take) (by simp [system, World.step, htake])
  · refine ⟨hp.send, hp.recv, hp.pipe, hp.released, hp.stack, ?_, ?_, hnq⟩
    · rw [hnres, SharedWorker.view, hres]
      exact hp.results
    · simp only [hnx, SharedWorker.view, hx', Option.toList_some, own_cons_self, own_nil]

/-- What the thread executes for a connection is that connection's, and its own worker's. -/
theorem executing (h : p.Consistent) {x : Item} (hx : (p.workers k).executing = some (c, x)) :
    c ∈ p.live ∧ (p.conn c).worker = k ∧ ∃ w : World (p.conn c).setup.config, Reachable w ∧
      Plays (p.conn c) (own c p.stack) ((p.workers k).view c) w ∧ w.worker.executing = some x := by
  obtain ⟨hc, rfl⟩ := h.accounted.owners k c (by simp [SharedWorker.ids, hx])
  obtain ⟨_, rfl, w, hr, hp⟩ := h.served c hc
  refine ⟨hc, rfl, w, hr, hp, ?_⟩
  have hlist : w.worker.executing.toList = [x] := by
    simp only [hp.executing, SharedWorker.view, hx, Option.toList_some, own_cons_self, own_nil]
  cases he : w.worker.executing with
  | none => simp [he] at hlist
  | some y => simpa [he] using hlist

/-- `DoRequest` has its event: the connection's buffer has changed. -/
theorem finish (h : p.Consistent) {r : WorkRequest} {e : NetEventType} {conn : Connection}
    (hx : (p.workers k).executing = some (c, .request r))
    (hworker : conn.worker = (p.conn c).worker)
    (hserved : ∃ w : World conn.setup.config, Reachable w ∧
      Plays conn (own c p.stack) { (p.workers k).view c with executing := [.result e] } w) :
    ((p.setConn c conn).setWorker k ((p.workers k).finish c e)).Consistent := by
  obtain ⟨hc, rfl, _⟩ := h.executing hx
  refine h.serve rfl rfl rfl rfl hworker rfl (fun i hi => ?_) (fun i hi => ?_)
    (fun _ ho => .inl ho) ?_
  · simpa [SharedWorker.ids, SharedWorker.finish, hx] using hi
  · simp only [SharedWorker.view, SharedWorker.finish, hx, Option.toList_some,
      own_cons_of_ne (Ne.symm hi), own_nil]
  · have hview : ((p.workers (p.conn c).worker).finish c e).view c =
        { (p.workers (p.conn c).worker).view c with executing := [.result e] } := by
      simp only [SharedWorker.view, SharedWorker.finish, Option.toList_some, own_cons_self, own_nil]
    rw [hview]
    exact hserved

theorem runRecv (h : p.Consistent) {rs : List RecvRes} {ret : WRet} {e : NetEventType}
    (hx : (p.workers k).executing = some (c, .request .recv))
    (ho : (onRecv (p.conn c).recv.worked rs).1 = ret) (he : recvEvent ret = some e) :
    ((p.setConn c { p.conn c with
      recv.worked := (onRecv (p.conn c).recv.worked rs).2.1 }).setWorker k
        ((p.workers k).finish c e)).Consistent := by
  obtain ⟨_, rfl, w, hr, hp, hwx⟩ := h.executing hx
  refine h.finish hx rfl ⟨{ w with
    recv.worked := (onRecv w.recv.worked rs).2.1
    worker := w.worker.finish e
    trace := w.trace ++ [.workerRecv w.recv.worked.offset (onRecv w.recv.worked rs).2.2 ret] },
    ?_, ?_⟩
  · refine .next hr trivial (l := .runRecv rs) ?_
    have hret : (onRecv w.recv.worked rs).1 = ret := by rw [hp.recv]; exact ho
    simp only [system, World.step, hwx, hret, he, Option.map_some]
  · refine ⟨hp.send, ?_, hp.pipe, hp.released, hp.stack, hp.results, rfl, hp.requests⟩
    rw [hp.recv]

theorem runSend (h : p.Consistent) {rs : List SendRes} {ret : WRet} {e : NetEventType}
    {b : Buffer (p.conn c).setup.sendSize} {bytes : List UInt8}
    (hx : (p.workers k).executing = some (c, .request .send))
    (ho : onSend (p.conn c).send.worked rs = some (ret, b, bytes)) (he : sendEvent ret = some e) :
    ((p.setConn c { p.conn c with send.worked := b }).setWorker k
      ((p.workers k).finish c e)).Consistent := by
  obtain ⟨_, rfl, w, hr, hp, hwx⟩ := h.executing hx
  refine h.finish hx rfl ⟨{ w with
    send.worked := b
    worker := w.worker.finish e
    trace := w.trace ++ [.workerSend w.send.worked.offset bytes ret] }, ?_, ?_⟩
  · refine .next hr trivial (l := .runSend rs) ?_
    have ho : onSend w.send.worked rs = some (ret, b, bytes) := by rw [hp.send]; exact ho
    simp only [system, World.step, hwx, ho, Option.bind_some, he, Option.map_some]
  · refine ⟨?_, hp.recv, hp.pipe, hp.released, hp.stack, hp.results, rfl, hp.requests⟩
    rw [hp.send]

/-- All that a worker has of its connections fits into either queue. -/
theorem length_ids (h : p.Consistent) (k : Nat) :
    (p.workers k).ids.length ≤ size / workerCount * 2 := by
  refine h.accounted.room (h.accounted.owners k) fun i hi hk => ?_
  rw [← SharedWorker.length_view, ← hk]
  exact (h.served i hi).length_view

theorem push (h : p.Consistent) {wk : SharedWorker (size / workerCount)}
    (hk : (p.workers k).pushResult = some wk) :
    Consistent { p.setWorker k wk with
      trace := p.trace ++ [⟨k, (p.workers k).resultQueue.isFull⟩] } := by
  have hlen := h.length_ids k
  have hsome : ∃ y, (p.workers k).executing = some y := by
    unfold SharedWorker.pushResult at hk
    split at hk
    · next hx => exact ⟨_, hx⟩
    · cases hk
  have hroom : (p.workers k).resultQueue.toList.length < size / workerCount * 2 := by
    obtain ⟨y, hy⟩ := hsome
    simp only [SharedWorker.ids, hy, List.length_append, List.length_map, Option.toList_some,
      List.length_singleton] at hlen
    omega
  have hfull : (p.workers k).resultQueue.isFull = false := by
    rw [Bool.eq_false_iff, Ne, CycleQueue.isFull_iff, (p.workers k).result_capacity]
    omega
  obtain ⟨c, e, hx, hres, hx', hq, hnow⟩ := SharedWorker.pushResult_spec hk hroom
  obtain ⟨_, rfl, w, hr, hp, hwx⟩ := h.executing hx
  have hv := hp.length_le hr
  refine h.serve (c := c) rfl rfl (Function.update_eq_self _ _).symm rfl rfl hnow ?_ ?_ ?_ ?_
  · intro i hi
    simpa [SharedWorker.ids, hq, hx, hx', hres, or_assoc, or_left_comm] using hi
  · intro i hi
    simp only [SharedWorker.view, hq, hx, hx', hres, own_append, own_cons_of_ne (Ne.symm hi),
      Option.toList_some, Option.toList_none, own_nil, List.append_nil]
  · intro o ho
    rcases List.mem_append.mp ho with ho | ho
    · exact .inl ho
    · rw [List.mem_singleton.mp ho]
      exact .inr hfull
  · have hnres : (w.worker.resultQueue.push e).toList = w.worker.resultQueue.toList ++ [e] := by
      refine CycleQueue.toList_push e ?_
      rw [w.worker.result_capacity, hp.results]
      simp only [View.length] at hv
      have : (p.conn c).setup.config.maxConnection = 2 := rfl
      omega
    obtain ⟨nw, hpush, hnx⟩ : ∃ nw, w.worker.pushResult = some nw ∧
        nw.resultQueue.toList = w.worker.resultQueue.toList ++ [e] ∧ nw.executing = none ∧
          nw.workQueue = w.worker.workQueue := by
      simp only [NetWorker.pushResult, hwx]
      exact ⟨_, rfl, hnres, rfl, rfl⟩
    refine ⟨{ w with worker := nw }, ?_, ?_⟩
    · exact .next hr trivial (l := .push) (by simp [system, World.step, hpush])
    · refine ⟨hp.send, hp.recv, hp.pipe, hp.released, hp.stack, ?_, ?_, ?_⟩
      · rw [hnx.1, hp.results]
        simp only [SharedWorker.view, hres, own_append, own_cons_self, own_nil]
      · rw [hnx.2.1]
        simp only [SharedWorker.view, hx', Option.toList_none, own_nil]
      · rw [hnx.2.2, SharedWorker.view, hq]
        exact hp.requests

/-- `Process` handles a result. -/
theorem process (h : p.Consistent) {e : NetEventType} {wk : SharedWorker (size / workerCount)}
    (hst : p.stack = []) (hk : (p.workers k).readResult = some ((c, e), wk)) (hc : c ∈ p.live)
    (hs : (p.setWorker k wk).call c (World.onEvent e) = some p') : p'.Consistent := by
  obtain ⟨hres, hx, hq, hnow⟩ := SharedWorker.readResult_spec hk
  obtain ⟨_, rfl⟩ := h.accounted.owners k c (by simp [SharedWorker.ids, hres])
  obtain ⟨_, rfl, w, hr, hp⟩ := h.served c hc
  have hview : ∀ i, i ≠ c → wk.view i = (p.workers (p.conn c).worker).view i := by
    intro i hi
    simp only [SharedWorker.view, hq, hx, hres, own_cons_of_ne (Ne.symm hi)]
  have hself : (p.setWorker (p.conn c).worker wk).workers (p.conn c).worker = wk :=
    Function.update_self ..
  have hresults : w.worker.resultQueue.toList = e :: own c wk.resultQueue.toList := by
    rw [hp.results, SharedWorker.view, hres, own_cons_self]
  obtain ⟨nw, hread, hnres, hnx, hnq⟩ := NetWorker.readResult_of_resultQueue hresults
  have hids : ∀ i ∈ wk.ids, i ∈ (p.workers (p.conn c).worker).ids := by
    intro i hi
    simp only [SharedWorker.ids, hq, hx, hres, List.map_cons, List.cons_append] at hi ⊢
    exact List.mem_cons_of_mem _ hi
  have hacc : Accounted (p.setWorker (p.conn c).worker wk) :=
    h.accounted.keep rfl (fun _ => rfl) (update_keeps SharedWorker.nowConnection hnow)
      (fun _ _ hi => .inl (mem_ids_update hids hi)) fun _ ho => .inl ho
  have hothers : ∀ i ∈ p.live, i ≠ c → Served i (p.setWorker (p.conn c).worker wk) :=
    fun i hi hne => (h.served i hi).keep rfl rfl
      (update_keeps (SharedWorker.view i) (hview i hne) _)
  have hplays : Plays (p.conn c) (own c p.stack)
      (((p.setWorker (p.conn c).worker wk).workers (p.conn c).worker).view c)
      { w with worker := nw } := by
    rw [hself]
    refine ⟨hp.send, hp.recv, hp.pipe, hp.released, hp.stack, hnres, ?_, ?_⟩
    · rw [hnx, SharedWorker.view, hx]
      exact hp.executing
    · rw [hnq, SharedWorker.view, hq]
      exact hp.requests
  have hle : (((p.setWorker (p.conn c).worker wk).workers (p.conn c).worker).view c).length ≤
      2 := by
    rw [hself]
    have hv := hp.length_le hr
    simp only [View.length, SharedWorker.view, hq, hx, hres, own_cons_self,
      List.length_cons] at hv ⊢
    omega
  refine hacc.call hothers hc World.onEvent_calls hplays hle (fun w' hw => ?_) hs
  refine .next hr trivial (l := .process) ?_
  have hstack : w.stack.isEmpty = true := by rw [hp.stack, hst]; rfl
  simp only [system, World.step, hstack, hread, if_true, Option.bind_some]
  exact hw

theorem step (h : p.Consistent) {l : WorkersLabel} (hs : p.step l = some p') : p'.Consistent := by
  cases l with
  | arrive c setup =>
    simp only [Workers.step] at hs
    split at hs
    · next hc =>
      obtain ⟨k, hk, rfl⟩ := Option.map_eq_some_iff.mp hs
      exact h.arrive hc.1 hc.2 hk
    · cases hs
  | send c context =>
    simp only [Workers.step] at hs
    split at hs
    · next hc =>
      refine h.call hc.1 World.sendCall_calls (fun hpipe _ _ hw => ⟨.send context, ?_⟩) hs
      simpa [World.step, hpipe, hc.2] using hw
    · cases hs
  | close c =>
    simp only [Workers.step] at hs
    split at hs
    · next hc =>
      refine h.call hc World.closeCall_calls (fun hpipe _ _ hw => ⟨.close, ?_⟩) hs
      simpa [World.step, hpipe] using hw
    · cases hs
  | ret =>
    simp only [Workers.step] at hs
    split at hs
    · cases hs
    · next c f fs hst =>
      split at hs
      · next hc =>
        split at hs
        · next hf =>
          cases hs
          exact h.release (hf ▸ hst) hc
        · next hf => exact h.resume hst hc hf hs
      · next hc =>
        split at hs
        · cases hs
          exact h.pop hst hc
        · cases hs
  | onIn c =>
    simp only [Workers.step] at hs
    split at hs
    · next hc =>
      refine h.call hc.2 World.onEvent_calls (fun _ hrel hstack hw => ⟨.onIn, ?_⟩) hs
      rw [hc.1, own_nil] at hstack
      rw [World.step, if_pos (World.idle_iff.mpr ⟨hstack, hrel⟩)]
      exact hw
    · cases hs
  | onOut c =>
    simp only [Workers.step] at hs
    split at hs
    · next hc =>
      refine h.call hc.2 World.onEvent_calls (fun _ hrel hstack hw => ⟨.onOut, ?_⟩) hs
      rw [hc.1, own_nil] at hstack
      rw [World.step, if_pos (World.idle_iff.mpr ⟨hstack, hrel⟩)]
      exact hw
    · cases hs
  | onError c =>
    simp only [Workers.step] at hs
    split at hs
    · next hc =>
      cases hs
      exact h.onError hc.1
    · cases hs
  | process k =>
    simp only [Workers.step] at hs
    split at hs
    · next hst =>
      obtain ⟨⟨⟨c, e⟩, wk⟩, hk, hs⟩ := Option.bind_eq_some_iff.mp hs
      split at hs
      · next hc => exact h.process hst hk hc hs
      · cases hs
    · cases hs
  | take k =>
    obtain ⟨wk, hk, rfl⟩ := Option.map_eq_some_iff.mp hs
    exact h.take hk
  | runRecv k rs =>
    obtain ⟨c, e, hx, _, he, rfl⟩ := runRecv_cases hs
    exact h.runRecv hx rfl he
  | runSend k rs =>
    obtain ⟨c, e, ret, b, bytes, hx, _, ho, he, rfl⟩ := runSend_cases hs
    exact h.runSend hx ho he
  | push k =>
    obtain ⟨wk, hk, rfl⟩ := Option.map_eq_some_iff.mp hs
    exact h.push hk

end Consistent

theorem consistent_init : (init size workerCount).Consistent := by
  refine ⟨⟨.nil, nofun, ?_, fun _ => rfl, ?_, nofun⟩, nofun⟩
  · intro k c hc
    simp [init, SharedWorker.ids, SharedWorker.create] at hc
  · intro k
    exact Int.natCast_nonneg _

theorem consistent (h : (netWorkers size workerCount).Reachable p) : p.Consistent :=
  h.invariant consistent_init fun _ _ _ _ ih hs => ih.step hs

/-- What the accounts of the workers are there for. -/
structure Sound (p : Workers size workerCount) : Prop where
  counted : ∀ k, (p.workers k).nowConnection = (p.connections k).length
  bounded : ∀ k, (p.workers k).nowConnection ≤ (size / workerCount : Nat)
  assigned : ∀ c ∈ p.live, (p.conn c).worker < workerCount
  roomy : ∀ o ∈ p.trace, o.full = false
  /-- A connection that waits for a result has its request, or the result, at its worker. -/
  kept : ∀ c ∈ p.live, own c p.stack = [] →
    (((p.workers (p.conn c).worker).view c).items.filter Item.isSend).length =
      (p.conn c).send.state.busy.toNat ∧
    (((p.workers (p.conn c).worker).view c).items.filter Item.isRecv).length =
      (p.conn c).recv.state.busy.toNat

theorem Consistent.sound (h : p.Consistent) : p.Sound := by
  refine ⟨h.accounted.now, h.accounted.le, h.accounted.assigned, h.accounted.clean, ?_⟩
  intro c hc hst
  obtain ⟨_, rfl, w, hr, hp⟩ := h.served c hc
  have hacc := hr.accounts
  have hout : w.inOnRecv = false := by rw [World.inOnRecv, hp.stack, hst]; rfl
  have hsend := hacc.send
  have hrecv := hacc.recv
  rw [World.sendItems, hp.items, hp.send] at hsend
  rw [World.recvItems, hp.items, hp.recv, hout, Bool.not_false, Bool.and_true] at hrecv
  exact ⟨hsend, hrecv⟩

/-- **The worker queues never overflow.** Each worker counts the live connections that it has, of
which there are never more than it is made for; and every push of a request or a result finds
room, so that none is lost. -/
theorem queues_never_overflow (h : (netWorkers size workerCount).Reachable p) : p.Sound :=
  (consistent h).sound

/-- Two connections, one for each of two workers; the first has sent a byte. -/
theorem queues_never_overflow_two :
    ∃ p : Workers 4 2, p.live = [1, 0] ∧ p.trace.length = 4 ∧ p.Sound := by
  obtain ⟨p, h, hp⟩ := (netWorkers 4 2).run_of_exec (P := fun _ _ => True)
    [.arrive 0 .small, .ret, .arrive 1 .small, .ret, .send 0 [1], .onIn 0, .onIn 1, .take 0,
      .runSend 0 [.sent 1], .push 0, .process 0]
    (p := fun p => p.live == [1, 0] && p.trace.length == 4) (by decide)
  simp only [Bool.and_eq_true, beq_iff_eq] at hp
  exact ⟨p, hp.1, hp.2, queues_never_overflow h⟩

end Workers

end HyperNet.Net
