import HyperNet.Core.Simulation
import HyperNet.Net.Delivery
import HyperNet.Net.Sharing

/-! # Each connection of an engine runs as one alone

The steps of the engine that concern a connection, in order, are a run of that connection with a
worker to itself. So whatever holds of every run of one connection holds of each connection of an
engine, with the calls of its own session, the answers of its own socket and its own results. -/
namespace HyperNet.Net
open HyperNet.Api HyperNet.Public HyperNet.Core.History HyperNet.Core.Tagged
open HyperNet.Core.Transition

/-- A connection has at most one item for each direction at its worker. -/
theorem Reachable.length_items_le {cfg : Config} {w : World cfg} (h : Reachable w) :
    w.worker.items.length ≤ 2 := by
  have hl := h.accounts.length_le
  have hsend := Bool.toNat_le w.send.state.busy
  have hrecv := Bool.toNat_le (w.recv.state.busy && !w.inOnRecv)
  simp only [Bool.toNat_false] at hl
  omega

/-- The step that it is for the connection that it concerns. -/
def WorkersLabel.alone : WorkersLabel → Label
  | .send _ context => .send context
  | .close _ => .close
  | .arrive _ _ | .ret => .ret
  | .onIn _ => .onIn
  | .onOut _ => .onOut
  | .onError _ => .onError 0
  | .process _ => .process
  | .take _ => .take
  | .runRecv _ rs => .runRecv rs
  | .runSend _ rs => .runSend rs
  | .push _ => .push

namespace Workers
variable {size workerCount : Nat} {p p' : Workers size workerCount} {c i k : Nat}
  {setup : Setup}

/-- The connection that a step concerns; none has been made before its arrival. -/
def subject (p : Workers size workerCount) : WorkersLabel → Option Nat
  | .arrive _ _ => none
  | .send i _ | .close i | .onIn i | .onOut i | .onError i => some i
  | .ret => p.stack.head?.map Prod.fst
  | .process k => (p.workers k).readResult.map fun o => o.1.1
  | .take k => (p.workers k).workQueue.read.map fun o => o.1.1
  | .runRecv k _ | .runSend k _ | .push k => (p.workers k).executing.map Prod.fst

/-- The step that a step of the whole is for connection `c`. -/
def act (c : Nat) (p : Workers size workerCount) (l : WorkersLabel) : Option Label :=
  if p.subject l = some c then some l.alone else none

/-- The step does not delete connection `c`. -/
def Keeps (c : Nat) (p : Workers size workerCount) : WorkersLabel → Prop
  | .ret => p.stack.head? ≠ some (c, .onDisconnected)
  | _ => True

instance (c : Nat) (p : Workers size workerCount) (l : WorkersLabel) : Decidable (p.Keeps c l) :=
  match l with
  | .ret => inferInstanceAs (Decidable (_ ≠ _))
  | .arrive _ _ | .send _ _ | .close _ | .onIn _ | .onOut _ | .onError _ | .process _ | .take _
  | .runRecv _ _ | .runSend _ _ | .push _ => isTrue trivial

/-- Connection `c`, made with `setup`, is in the state of `w`. -/
def Follows (c : Nat) (setup : Setup) (p : Workers size workerCount) (w : World setup.config) :
    Prop :=
  ∃ k, p.conn c = ⟨setup, k, w.send, w.recv⟩ ∧
    Plays ⟨setup, k, w.send, w.recv⟩ (own c p.stack) ((p.workers k).view c) w

/-- A step leaves the other connections alone. -/
structure Spares (i : Nat) (p p' : Workers size workerCount) : Prop where
  conn : ∀ j, j ≠ i → p'.conn j = p.conn j
  stack : ∀ j, j ≠ i → own j p'.stack = own j p.stack
  view : ∀ j, j ≠ i → ∀ k, (p'.workers k).view j = (p.workers k).view j

theorem Follows.spared {w : World setup.config} (h : p.Follows c setup w) (hs : Spares i p p')
    (hne : c ≠ i) : p'.Follows c setup w := by
  obtain ⟨k, hconn, hplays⟩ := h
  refine ⟨k, (hs.conn c hne).trans hconn, ?_⟩
  rw [hs.stack c hne, hs.view c hne k]
  exact hplays

/-! ## A function of a connection is called -/

/-- What a call of a function of connection `c` does to the whole. -/
theorem call_spec (h : p.Accounted) (hothers : ∀ j ∈ p.live, j ≠ c → p.Served j)
    (hc : c ∈ p.live) {f : ∀ {cfg : Config}, World cfg → Option (World cfg)}
    (hf : ∀ {cfg : Config} {w w' : World cfg}, f w = some w' →
      ∃ rs, rs.length ≤ 2 ∧ World.Calls f w w' rs) {w : World setup.config}
    (hw : p.Follows c setup w) (hv : w.worker.items.length ≤ 2)
    (hreach : ∀ w', f w = some w' → Reachable w') (hs : p.call c f = some p') :
    Spares c p p' ∧ ∃ w', f w = some w' ∧ p'.Follows c setup w' := by
  obtain ⟨k, hconn, hp⟩ := hw
  rw [hp.length_items] at hv
  obtain ⟨o, ho, rfl⟩ := Option.map_eq_some_iff.mp hs
  rw [hconn] at ho
  obtain ⟨w', hw', hoc, hplays⟩ := hp.run hv (fun _ h => hf h) ho
  have hworker : (p.conn c).worker = k := by rw [hconn]
  have htwo : ((p.workers (p.conn c).worker).view c).length + o.requests.length ≤ 2 := by
    have hle := hplays.length_le (hreach w' hw')
    rw [hworker]
    simp only [View.length, List.length_append] at hle ⊢
    omega
  have hroom := h.room_of_calls hothers hc htwo
  obtain ⟨_, hq, hstack, hworkers, _⟩ := foldl_post (c := c) o.requests p hroom
  rw [hworker] at hroom hworkers
  generalize o.requests.foldl (post c) p = q at *
  refine ⟨⟨fun j hj => ?_, fun j hj => ?_, fun j hj k' => ?_⟩, w', hw', k, ?_, ?_⟩
  · change Function.update q.conn c o.connection j = _
    rw [Function.update_of_ne hj, hq]
  · change own j (o.frames.map (c, ·) ++ p.stack) = _
    rw [own_append, own_map_of_ne (Ne.symm hj), List.nil_append]
  · change (q.workers k').view j = _
    rw [hworkers]
    exact update_keeps (SharedWorker.view j)
      (SharedWorker.view_posts_of_ne hroom (Ne.symm hj)) k'
  · change Function.update q.conn c o.connection c = _
    rw [Function.update_self, hoc]
  · have hview : (q.workers k).view c =
        { (p.workers k).view c with
          requests := ((p.workers k).view c).requests ++ o.requests } := by
      rw [hworkers, Function.update_self]
      exact SharedWorker.view_posts hroom
    change Plays ⟨setup, k, w'.send, w'.recv⟩ (own c (o.frames.map (c, ·) ++ p.stack))
      ((q.workers k).view c) w'
    rw [hview, own_append, own_map_self]
    exact hplays

/-- A connection that is called between its steps makes the step `a`. -/
theorem call_step (h : p.Consistent) (hc : c ∈ p.live)
    {f : ∀ {cfg : Config}, World cfg → Option (World cfg)}
    (hf : ∀ {cfg : Config} {w w' : World cfg}, f w = some w' →
      ∃ rs, rs.length ≤ 2 ∧ World.Calls f w w' rs) {w : World setup.config}
    (hw : p.Follows c setup w) (hr : Reachable w) {a : Label} (ha : w.step a = f w)
    (hs : p.call c f = some p') :
    Spares c p p' ∧ ∃ w', w.step a = some w' ∧ p'.Follows c setup w' := by
  rw [ha]
  refine call_spec h.accounted (fun j hj _ => h.served j hj) hc hf hw hr.length_items_le
    (fun w' hw' => ?_) hs
  exact hr.next (l := a) trivial (ha.trans hw')

/-- A callback other than `OnDisconnected` returns. -/
theorem resume_step (h : p.Consistent) {f : Frame} {fs : List (Nat × Frame)}
    (hst : p.stack = (c, f) :: fs) (hc : c ∈ p.live) (hf : f ≠ .onDisconnected)
    {w : World setup.config} (hw : p.Follows c setup w) (hr : Reachable w)
    (hs : Workers.call c (fun w => w.resume f) { p with stack := fs } = some p') :
    Spares c p p' ∧ ∃ w', w.step .ret = some w' ∧ p'.Follows c setup w' := by
  have hother : ∀ j, j ≠ c → own j fs = own j p.stack := by
    intro j hj
    rw [hst, own_cons_of_ne (Ne.symm hj)]
  have hacc : Accounted { p with stack := fs } :=
    h.accounted.keep rfl (fun _ => rfl) (fun _ => rfl) (fun _ _ hi => .inl hi) fun _ ho => .inl ho
  have hothers : ∀ j ∈ p.live, j ≠ c → Served j { p with stack := fs } :=
    fun j hj hne => (h.served j hj).keep rfl (hother j hne) rfl
  obtain ⟨k, hconn, hp⟩ := hw
  have hstack : w.stack = f :: own c fs := by rw [hp.stack, hst, own_cons_self]
  have hstep : w.step .ret = World.resume { w with stack := own c fs } f := by
    rw [World.step, hstack]
  have hfollows : Follows c setup { p with stack := fs } { w with stack := own c fs } :=
    ⟨k, hconn, hp.send, hp.recv, hp.pipe, hp.released, rfl, hp.results, hp.executing, hp.requests⟩
  obtain ⟨hspares, w', hw', hfollows'⟩ := call_spec hacc hothers hc
    (fun h => World.resume_calls h hf) hfollows
    hr.length_items_le (fun w' hw' => hr.next (l := .ret) trivial (hstep.trans hw')) hs
  refine ⟨⟨hspares.conn, fun j hj => ?_, hspares.view⟩, w', hstep.trans hw', hfollows'⟩
  rw [hspares.stack j hj, hother j hj]

/-- `Process` handles a result of the connection. -/
theorem process_step (h : p.Consistent) {e : NetEventType}
    {wk : SharedWorker (size / workerCount)} (hst : p.stack = [])
    (hk : (p.workers k).readResult = some ((c, e), wk)) (hc : c ∈ p.live)
    {w : World setup.config} (hw : p.Follows c setup w) (hr : Reachable w)
    (hs : (p.setWorker k wk).call c (World.onEvent e) = some p') :
    Spares c p p' ∧ ∃ w', w.step .process = some w' ∧ p'.Follows c setup w' := by
  obtain ⟨hres, hx, hq, hnow⟩ := SharedWorker.readResult_spec hk
  obtain ⟨_, hworker⟩ := h.accounted.owners k c (by simp [SharedWorker.ids, hres])
  obtain ⟨k', hconn, hp⟩ := hw
  obtain rfl : k' = k := by rw [← hworker, hconn]
  have hview : ∀ j, j ≠ c → wk.view j = (p.workers k').view j := by
    intro j hj
    simp only [SharedWorker.view, hq, hx, hres, own_cons_of_ne (Ne.symm hj)]
  have hids : ∀ j ∈ wk.ids, j ∈ (p.workers k').ids := by
    intro j hj
    simp only [SharedWorker.ids, hq, hx, hres, List.map_cons, List.cons_append] at hj ⊢
    exact List.mem_cons_of_mem _ hj
  have hothers : ∀ j ∈ p.live, j ≠ c → Served j (p.setWorker k' wk) :=
    fun j hj hne => (h.served j hj).keep rfl rfl
      (update_keeps (SharedWorker.view j) (hview j hne) _)
  have hacc : Accounted (p.setWorker k' wk) :=
    h.accounted.keep rfl (fun _ => rfl) (update_keeps SharedWorker.nowConnection hnow)
      (fun _ _ hi => .inl (mem_ids_update hids hi)) fun _ ho => .inl ho
  have hresults : w.worker.resultQueue.toList = e :: own c wk.resultQueue.toList := by
    rw [hp.results, SharedWorker.view, hres, own_cons_self]
  obtain ⟨nw, hread, hnres, hnx, hnq⟩ := NetWorker.readResult_of_resultQueue hresults
  have hstep : w.step .process = World.onEvent e { w with worker := nw } := by
    have hstack : w.stack.isEmpty = true := by rw [hp.stack, hst]; rfl
    simp only [World.step, hstack, hread, if_true, Option.bind_some]
  have hself : (p.setWorker k' wk).workers k' = wk := Function.update_self ..
  have hfollows : (p.setWorker k' wk).Follows c setup { w with worker := nw } := by
    refine ⟨k', hconn, hp.send, hp.recv, hp.pipe, hp.released, hp.stack, ?_, ?_, ?_⟩
    · rw [hself]
      exact hnres
    · rw [hself, hnx, SharedWorker.view, hx]
      exact hp.executing
    · rw [hself, hnq, SharedWorker.view, hq]
      exact hp.requests
  have hle : nw.items.length ≤ 2 := by
    have hitems := hr.length_items_le
    rw [NetWorker.items_readResult hread, List.length_cons] at hitems
    omega
  obtain ⟨hspares, w', hw', hfollows'⟩ := call_spec hacc hothers hc World.onEvent_calls hfollows
    hle (fun w' hw' => hr.next (l := .process) trivial (hstep.trans hw')) hs
  refine ⟨⟨hspares.conn, hspares.stack, fun j hj i => ?_⟩, w', hstep.trans hw', hfollows'⟩
  rw [hspares.view j hj i]
  exact update_keeps (SharedWorker.view j) (hview j hj) i

/-! ## The worker's thread -/

/-- The thread goes on with a connection. -/
theorem serve_spares {wk : SharedWorker (size / workerCount)} (hstack : p'.stack = p.stack)
    (hconn : ∀ j, j ≠ c → p'.conn j = p.conn j)
    (hworkers : p'.workers = Function.update p.workers k wk)
    (hview : ∀ j, j ≠ c → wk.view j = (p.workers k).view j) : Spares c p p' where
  conn := hconn
  stack j _ := by rw [hstack]
  view j hj i := by
    rw [hworkers]
    exact update_keeps (SharedWorker.view j) (hview j hj) i

theorem take_step (h : p.Consistent) {wk : SharedWorker (size / workerCount)}
    (hk : (p.workers k).take = some wk) {r : WorkRequest}
    (hread : (p.workers k).workQueue.toList = (c, r) :: wk.workQueue.toList)
    {w : World setup.config} (hw : p.Follows c setup w) :
    Spares c p (p.setWorker k wk) ∧
      ∃ w', w.step .take = some w' ∧ (p.setWorker k wk).Follows c setup w' := by
  obtain ⟨c', r', hx, hq, hx', hres, _⟩ := SharedWorker.take_spec hk
  cases (List.cons.inj (hread.symm.trans hq)).1
  obtain ⟨_, hworker⟩ := h.accounted.owners k c (by simp [SharedWorker.ids, hq])
  obtain ⟨k', hconn, hp⟩ := hw
  obtain rfl : k' = k := by rw [← hworker, hconn]
  have hnone : w.worker.executing = none := by
    refine Option.toList_eq_nil_iff.mp ?_
    rw [hp.executing, SharedWorker.view, hx]
    rfl
  have hwork : w.worker.workQueue.toList = r :: own c wk.workQueue.toList := by
    rw [hp.requests, SharedWorker.view, hq, own_cons_self]
  obtain ⟨nw, htake, hnq, hnx, hnres⟩ := NetWorker.take_of_workQueue hnone hwork
  have hself : (p.setWorker k' wk).workers k' = wk := Function.update_self ..
  refine ⟨serve_spares rfl (fun _ _ => rfl) rfl fun j hj => ?_, { w with worker := nw }, ?_, k',
    hconn, hp.send, hp.recv, hp.pipe, hp.released, hp.stack, ?_, ?_, ?_⟩
  · simp only [SharedWorker.view, hq, hx, hx', hres, own_cons_of_ne (Ne.symm hj),
      Option.toList_some, Option.toList_none, own_nil]
  · simp only [World.step, htake, Option.map_some]
  · rw [hself, hnres, SharedWorker.view, hres]
    exact hp.results
  · rw [hself]
    simp only [hnx, SharedWorker.view, hx', Option.toList_some, own_cons_self, own_nil]
  · rw [hself]
    exact hnq

/-- What the thread executes for a connection, the connection's own worker executes. -/
theorem Follows.executing (h : p.Consistent) {w : World setup.config} (hw : p.Follows c setup w)
    {x : Item} (hx : (p.workers k).executing = some (c, x)) :
    p.conn c = ⟨setup, k, w.send, w.recv⟩ ∧
      Plays ⟨setup, k, w.send, w.recv⟩ (own c p.stack) ((p.workers k).view c) w ∧
      w.worker.executing = some x := by
  obtain ⟨_, hworker⟩ := h.accounted.owners k c (by simp [SharedWorker.ids, hx])
  obtain ⟨k', hconn, hp⟩ := hw
  obtain rfl : k' = k := by rw [← hworker, hconn]
  refine ⟨hconn, hp, ?_⟩
  have hlist : w.worker.executing.toList = [x] := by
    simp only [hp.executing, SharedWorker.view, hx, Option.toList_some, own_cons_self, own_nil]
  cases he : w.worker.executing with
  | none => simp [he] at hlist
  | some y => simpa [he] using hlist

/-- `DoRequest` has its event, and a buffer of the connection has changed. -/
theorem finish_step {x : WorkRequest} {e : NetEventType} {w w' : World setup.config} {l : Label}
    (hx : (p.workers k).executing = some (c, .request x))
    (hp : Plays ⟨setup, k, w.send, w.recv⟩ (own c p.stack) ((p.workers k).view c) w)
    (hstep : w.step l = some w') (hworker : w'.worker = w.worker.finish e)
    (hpipe : w'.pipe = w.pipe) (hreleased : w'.released = w.released)
    (hstack : w'.stack = w.stack) :
    Spares c p ((p.setConn c ⟨setup, k, w'.send, w'.recv⟩).setWorker k
      ((p.workers k).finish c e)) ∧
    ∃ u, w.step l = some u ∧ ((p.setConn c ⟨setup, k, w'.send, w'.recv⟩).setWorker k
      ((p.workers k).finish c e)).Follows c setup u := by
  refine ⟨?_, w', hstep, k, Function.update_self .., ?_⟩
  · refine serve_spares rfl (fun j hj => Function.update_of_ne hj ..) rfl fun j hj => ?_
    simp only [SharedWorker.view, SharedWorker.finish, hx, Option.toList_some,
      own_cons_of_ne (Ne.symm hj), own_nil]
  · have hself : ((p.setConn c ⟨setup, k, w'.send, w'.recv⟩).setWorker k
        ((p.workers k).finish c e)).workers k = (p.workers k).finish c e := Function.update_self ..
    rw [hself]
    refine ⟨rfl, rfl, hpipe.trans hp.pipe, hreleased.trans hp.released, hstack.trans hp.stack,
      ?_, ?_, ?_⟩
    · rw [hworker]
      exact hp.results
    · rw [hworker]
      simp only [NetWorker.finish, SharedWorker.view, SharedWorker.finish, Option.toList_some,
        own_cons_self, own_nil]
    · rw [hworker]
      exact hp.requests

theorem runRecv_step (h : p.Consistent) {rs : List RecvRes} {e : NetEventType}
    (hx : (p.workers k).executing = some (c, .request .recv))
    (he : recvEvent (onRecv (p.conn c).recv.worked rs).1 = some e) {w : World setup.config}
    (hw : p.Follows c setup w) :
    Spares c p ((p.setConn c { p.conn c with
      recv.worked := (onRecv (p.conn c).recv.worked rs).2.1 }).setWorker k
        ((p.workers k).finish c e)) ∧
    ∃ u, w.step (.runRecv rs) = some u ∧ ((p.setConn c { p.conn c with
      recv.worked := (onRecv (p.conn c).recv.worked rs).2.1 }).setWorker k
        ((p.workers k).finish c e)).Follows c setup u := by
  obtain ⟨hconn, hp, hwx⟩ := hw.executing h hx
  rw [hconn] at he ⊢
  have hstep : w.step (.runRecv rs) = some { w with
      recv.worked := (onRecv w.recv.worked rs).2.1
      worker := w.worker.finish e
      trace := w.trace ++ [.workerRecv w.recv.worked.offset (onRecv w.recv.worked rs).2.2
        (onRecv w.recv.worked rs).1] } := by
    simp only [World.step, hwx]
    exact Option.map_eq_some_iff.mpr ⟨e, he, rfl⟩
  exact finish_step hx hp hstep rfl rfl rfl rfl

theorem runSend_step (h : p.Consistent) {rs : List SendRes} {ret : WRet} {e : NetEventType}
    {b : Buffer (p.conn c).setup.sendSize} {bytes : List UInt8}
    (hx : (p.workers k).executing = some (c, .request .send))
    (ho : onSend (p.conn c).send.worked rs = some (ret, b, bytes)) (he : sendEvent ret = some e)
    {w : World setup.config} (hw : p.Follows c setup w) :
    Spares c p ((p.setConn c { p.conn c with send.worked := b }).setWorker k
      ((p.workers k).finish c e)) ∧
    ∃ u, w.step (.runSend rs) = some u ∧ ((p.setConn c { p.conn c with
      send.worked := b }).setWorker k ((p.workers k).finish c e)).Follows c setup u := by
  obtain ⟨hconn, hp, hwx⟩ := hw.executing h hx
  revert b ho
  rw [hconn]
  intro b ho
  have hstep : w.step (.runSend rs) = some { w with
      send.worked := b
      worker := w.worker.finish e
      trace := w.trace ++ [.workerSend w.send.worked.offset bytes ret] } := by
    have ho : onSend w.send.worked rs = some (ret, b, bytes) := ho
    simp only [World.step, hwx, ho, Option.bind_some, he, Option.map_some]
  exact finish_step hx hp hstep rfl rfl rfl rfl

theorem push_step (h : p.Consistent) {wk : SharedWorker (size / workerCount)} {x : Item}
    (hk : (p.workers k).pushResult = some wk) (hx : (p.workers k).executing = some (c, x))
    {w : World setup.config} (hw : p.Follows c setup w) (hr : Reachable w) {tr : List Pushed} :
    Spares c p { p.setWorker k wk with trace := tr } ∧
      ∃ w', w.step .push = some w' ∧
        Follows c setup { p.setWorker k wk with trace := tr } w' := by
  have hlen := h.length_ids k
  have hroom : (p.workers k).resultQueue.toList.length < size / workerCount * 2 := by
    simp only [SharedWorker.ids, hx, List.length_append, List.length_map, Option.toList_some,
      List.length_singleton] at hlen
    omega
  obtain ⟨c', e, hx', hres, hnone, hq, _⟩ := SharedWorker.pushResult_spec hk hroom
  cases hx.symm.trans hx'
  obtain ⟨hconn, hp, hwx⟩ := hw.executing h hx
  have hnres : (w.worker.resultQueue.push e).toList = w.worker.resultQueue.toList ++ [e] := by
    refine CycleQueue.toList_push e ?_
    have hitems := hr.length_items_le
    have hcapacity : w.worker.resultQueue.capacity = 4 := w.worker.result_capacity
    rw [hcapacity]
    simp only [NetWorker.items, hwx, List.length_append, List.length_map, Option.toList_some,
      List.length_singleton] at hitems
    omega
  obtain ⟨nw, hpush, hnw⟩ : ∃ nw, w.worker.pushResult = some nw ∧
      nw.resultQueue.toList = w.worker.resultQueue.toList ++ [e] ∧ nw.executing = none ∧
        nw.workQueue = w.worker.workQueue := by
    simp only [NetWorker.pushResult, hwx]
    exact ⟨_, rfl, hnres, rfl, rfl⟩
  have hself : (p.setWorker k wk).workers k = wk := Function.update_self ..
  refine ⟨serve_spares rfl (fun _ _ => rfl) rfl fun j hj => ?_, { w with worker := nw }, ?_, k,
    hconn, hp.send, hp.recv, hp.pipe, hp.released, hp.stack, ?_, ?_, ?_⟩
  · simp only [SharedWorker.view, hq, hx, hnone, hres, own_append, own_cons_of_ne (Ne.symm hj),
      Option.toList_some, Option.toList_none, own_nil, List.append_nil]
  · simp only [World.step, hpush, Option.map_some]
  · rw [hself, hnw.1, hp.results]
    simp only [SharedWorker.view, hres, own_append, own_cons_self, own_nil]
  · rw [hself, hnw.2.1]
    simp only [SharedWorker.view, hnone, Option.toList_none, own_nil]
  · rw [hself, hnw.2.2, SharedWorker.view, hq]
    exact hp.requests

/-! ## A step of the whole -/

/-- The engine hands the connection an event. -/
theorem event_step (h : p.Consistent) {e : NetEventType} {a : Label}
    (ha : ∀ w : World setup.config, w.idle = true → w.step a = w.onEvent e) (hst : p.stack = [])
    (hc : c ∈ p.live) {w : World setup.config} (hw : p.Follows c setup w) (hr : Reachable w)
    (hs : p.call c (World.onEvent e) = some p') :
    Spares c p p' ∧ ∃ w', w.step a = some w' ∧ p'.Follows c setup w' := by
  obtain ⟨_, _, hp⟩ := id hw
  have hstack : w.stack = [] := by rw [hp.stack, hst, own_nil]
  have hidle : w.idle = true := World.idle_iff.mpr ⟨hstack, hp.released⟩
  exact call_step h hc World.onEvent_calls hw hr (ha w hidle) hs

/-- The engine tells the connection of an error. -/
theorem error_step (hst : p.stack = []) {errno : Int} {w : World setup.config}
    (hw : p.Follows c setup w) :
    Spares c p { p with stack := [(c, .onError)] } ∧
    ∃ w', w.step (.onError errno) = some w' ∧
      Follows c setup { p with stack := [(c, .onError)] } w' := by
  obtain ⟨k, hconn, hp⟩ := hw
  have hstack : w.stack = [] := by rw [hp.stack, hst, own_nil]
  refine ⟨⟨fun _ _ => rfl, fun j hj => ?_, fun _ _ _ => rfl⟩, _,
    if_pos (World.idle_iff.mpr ⟨hstack, hp.released⟩), k, hconn, hp.send, hp.recv, hp.pipe,
    hp.released, ?_, hp.results, hp.executing, hp.requests⟩
  · rw [own_cons_of_ne (Ne.symm hj), hst]
  · rw [own_cons_self, own_nil, hstack]

/-- A step that concerns a connection is a step of it, and of no other. -/
theorem subject_step (h : p.Consistent) {l : WorkersLabel} (hs : p.step l = some p')
    (hl : p.subject l = some c) (hc : c ∈ p.live) (hkeep : p.Keeps c l)
    {w : World setup.config} (hw : p.Follows c setup w) (hr : Reachable w) :
    Spares c p p' ∧ ∃ w', w.step l.alone = some w' ∧ p'.Follows c setup w' := by
  obtain ⟨k₀, hconn₀, hp₀⟩ := id hw
  cases l with
  | arrive => cases hl
  | send i context =>
    cases hl
    simp only [Workers.step] at hs
    split at hs
    · next hi =>
      refine call_step h hc World.sendCall_calls hw hr ?_ hs
      simp only [World.step, WorkersLabel.alone, hp₀.pipe, hi.2, if_true]
    · cases hs
  | close i =>
    cases hl
    simp only [Workers.step, hc, if_true] at hs
    refine call_step h hc World.closeCall_calls hw hr ?_ hs
    simp only [World.step, WorkersLabel.alone, hp₀.pipe, if_true]
  | ret =>
    simp only [Workers.step] at hs
    split at hs
    · cases hs
    · next i f fs hst =>
      have hi : i = c := by simpa [subject, hst] using hl
      subst hi
      have hf : f ≠ .onDisconnected := by
        rintro rfl
        exact hkeep (by rw [hst]; rfl)
      simp only [hc, if_true, hf, if_false] at hs
      exact resume_step h hst hc hf hw hr hs
  | onIn i | onOut i =>
    cases hl
    simp only [Workers.step] at hs
    split at hs
    · next hi =>
      refine event_step h (fun u hidle => ?_) hi.1 hc hw hr hs
      simp only [World.step, WorkersLabel.alone, hidle, if_true]
    · cases hs
  | onError i =>
    cases hl
    simp only [Workers.step] at hs
    split at hs
    · next hi =>
      cases hs
      exact error_step hi.1 hw
    · cases hs
  | process k =>
    simp only [Workers.step] at hs
    split at hs
    · next hst =>
      obtain ⟨⟨⟨i, e⟩, wk⟩, hk, hs⟩ := Option.bind_eq_some_iff.mp hs
      have hi : i = c := by simpa [subject, hk] using hl
      subst hi
      simp only [hc, if_true] at hs
      exact process_step h hst hk hc hw hr hs
    · cases hs
  | take k =>
    obtain ⟨wk, hk, rfl⟩ := Option.map_eq_some_iff.mp hs
    obtain ⟨i, r, _, hq, _⟩ := SharedWorker.take_spec hk
    obtain ⟨q, hread, _⟩ := CycleQueue.read_of_toList hq
    have hi : i = c := by simpa [subject, hread] using hl
    subst hi
    exact take_step h hk hq hw
  | runRecv k rs =>
    obtain ⟨i, e, hx, _, he, rfl⟩ := runRecv_cases hs
    have hi : i = c := by simpa [subject, hx] using hl
    subst hi
    exact runRecv_step h hx he hw
  | runSend k rs =>
    obtain ⟨i, e, ret, b, bytes, hx, _, ho, he, rfl⟩ := runSend_cases hs
    have hi : i = c := by simpa [subject, hx] using hl
    subst hi
    exact runSend_step h hx ho he hw
  | push k =>
    obtain ⟨wk, hk, rfl⟩ := Option.map_eq_some_iff.mp hs
    obtain ⟨⟨i, x⟩, hx, hi⟩ := Option.map_eq_some_iff.mp hl
    cases hi
    exact push_step h hk hx hw hr

/-- A live connection is in some state that it reaches alone. -/
theorem Served.follows (h : p.Served c) :
    ∃ w : World (p.conn c).setup.config, Reachable w ∧ p.Follows c (p.conn c).setup w := by
  obtain ⟨conn, hconn, w, hr, hp⟩ := h
  subst hconn
  have hsame : p.conn c = ⟨(p.conn c).setup, (p.conn c).worker, w.send, w.recv⟩ := by
    rw [hp.send, hp.recv]
  exact ⟨w, hr, _, hsame, rfl, rfl, hp.pipe, hp.released, hp.stack, hp.results, hp.executing,
    hp.requests⟩

/-- Where the step is no return from a callback, the connection that it concerns is live. -/
theorem subject_live (h : p.Consistent) {l : WorkersLabel} (hs : p.step l = some p')
    (hl : p.subject l = some i) (hne : l ≠ .ret) : i ∈ p.live := by
  cases l with
  | arrive => cases hl
  | ret => exact absurd rfl hne
  | send j | close j | onIn j | onOut j | onError j =>
    cases hl
    simp only [Workers.step] at hs
    split at hs
    · next hj => first | exact hj | exact hj.1 | exact hj.2
    · cases hs
  | process k =>
    obtain ⟨⟨⟨j, e⟩, wk⟩, hk, hj⟩ := Option.map_eq_some_iff.mp hl
    cases hj
    exact (h.accounted.owners k _
      (by simp [SharedWorker.ids, (SharedWorker.readResult_spec hk).1])).1
  | take k =>
    obtain ⟨⟨⟨j, r⟩, q⟩, hk, hj⟩ := Option.map_eq_some_iff.mp hl
    cases hj
    exact (h.accounted.owners k _ (by simp [SharedWorker.ids, CycleQueue.toList_read hk])).1
  | runRecv k | runSend k | push k =>
    obtain ⟨⟨j, x⟩, hx, hj⟩ := Option.map_eq_some_iff.mp hl
    cases hj
    exact (h.accounted.owners k _ (by simp [SharedWorker.ids, hx])).1

/-- A step leaves the connections alone that it does not concern. -/
theorem step_spares (h : p.Consistent) {l : WorkersLabel} (hs : p.step l = some p')
    (hc : c ∈ p.live) (hl : p.subject l ≠ some c) : ∃ i, i ≠ c ∧ Spares i p p' := by
  cases hsub : p.subject l with
  | some i =>
    have hne : i ≠ c := fun he => hl (he ▸ hsub)
    refine ⟨i, hne, ?_⟩
    by_cases hlive : i ∈ p.live ∧ p.Keeps i l
    · obtain ⟨w, hr, hw⟩ := (h.served i hlive.1).follows
      exact (subject_step h hs hsub hlive.1 hlive.2 hw hr).1
    · have hret : l = .ret := by
        by_contra hno
        refine hlive ⟨subject_live h hs hsub hno, ?_⟩
        cases l <;> trivial
      subst hret
      -- a callback of a deleted connection returns, or `OnDisconnected` does
      simp only [Workers.step] at hs
      split at hs
      · cases hs
      · next j f fs hst =>
        have hj : j = i := by simpa [subject, hst] using hsub
        subst hj
        have hown : ∀ j', j' ≠ j → own j' fs = own j' p.stack := by
          intro j' hj'
          rw [hst, own_cons_of_ne (Ne.symm hj')]
        split at hs
        · next hj =>
          have hf : f = .onDisconnected := by
            by_contra hno
            exact hlive ⟨hj, by simpa [Keeps, hst] using hno⟩
          simp only [hf, if_true] at hs
          cases hs
          exact ⟨fun _ _ => rfl, hown, fun j' _ => update_keeps (SharedWorker.view j') rfl⟩
        · split at hs
          · cases hs
            exact ⟨fun _ _ => rfl, hown, fun _ _ _ => rfl⟩
          · cases hs
  | none =>
    cases l with
    | arrive i setup =>
      simp only [Workers.step] at hs
      split at hs
      · next hi =>
        obtain ⟨k, _, rfl⟩ := Option.map_eq_some_iff.mp hs
        refine ⟨i, fun he => hi.2 (he ▸ hc), fun j hj => Function.update_of_ne hj ..,
          fun j hj => ?_, fun j _ => update_keeps (SharedWorker.view j) rfl⟩
        rw [own_cons_of_ne (Ne.symm hj), hi.1]
      · cases hs
    | send | close | onIn | onOut | onError => cases hsub
    | ret =>
      have hst : p.stack = [] := by simpa [subject] using hsub
      simp [Workers.step, hst] at hs
    | process k =>
      have hnone : (p.workers k).readResult = none := by simpa [subject] using hsub
      simp [Workers.step, hnone] at hs
    | take k =>
      obtain ⟨wk, hk, _⟩ := Option.map_eq_some_iff.mp hs
      obtain ⟨_, _, _, hq, _⟩ := SharedWorker.take_spec hk
      obtain ⟨q, hread, _⟩ := CycleQueue.read_of_toList hq
      simp [subject, hread] at hsub
    | runRecv k | runSend k =>
      have hnone : (p.workers k).executing = none := by simpa [subject] using hsub
      simp [Workers.step, hnone] at hs
    | push k =>
      have hnone : (p.workers k).executing = none := by simpa [subject] using hsub
      simp [Workers.step, SharedWorker.pushResult, hnone] at hs

/-! ## The connections that are live -/

theorem live_post (c : Nat) (rs : List WorkRequest) (p : Workers size workerCount) :
    (rs.foldl (post c) p).live = p.live := by
  induction rs generalizing p with
  | nil => rfl
  | cons r rs ih => exact ih _

theorem live_call {f : ∀ {cfg : Config}, World cfg → Option (World cfg)}
    (hs : p.call c f = some p') : p'.live = p.live := by
  obtain ⟨o, _, rfl⟩ := Option.map_eq_some_iff.mp hs
  exact live_post c o.requests p

/-- A connection stays until its `OnDisconnected` returns. -/
theorem live_step {l : WorkersLabel} (hs : p.step l = some p') (hc : c ∈ p.live)
    (hk : p.Keeps c l) : c ∈ p'.live := by
  cases l with
  | arrive i setup =>
    simp only [Workers.step] at hs
    split at hs
    · obtain ⟨k, _, rfl⟩ := Option.map_eq_some_iff.mp hs
      exact List.mem_cons_of_mem _ hc
    · cases hs
  | send i | close i | onIn i | onOut i =>
    simp only [Workers.step] at hs
    split at hs
    · rwa [live_call hs]
    · cases hs
  | ret =>
    simp only [Workers.step] at hs
    split at hs
    · cases hs
    · next i f fs hst =>
      split at hs
      · split at hs
        · next hf =>
          cases hs
          have hne : c ≠ i := by
            rintro rfl
            exact hk (by rw [hst, hf]; rfl)
          exact (List.mem_erase_of_ne hne).mpr hc
        · rwa [live_call hs]
      · split at hs
        · cases hs
          exact hc
        · cases hs
  | onError i =>
    simp only [Workers.step] at hs
    split at hs
    · cases hs
      exact hc
    · cases hs
  | process k =>
    simp only [Workers.step] at hs
    split at hs
    · obtain ⟨o, _, hs⟩ := Option.bind_eq_some_iff.mp hs
      split at hs
      · rwa [live_call hs]
      · cases hs
    · cases hs
  | take k | push k =>
    obtain ⟨wk, _, rfl⟩ := Option.map_eq_some_iff.mp hs
    exact hc
  | runRecv k rs =>
    obtain ⟨i, e, _, _, _, rfl⟩ := runRecv_cases hs
    exact hc
  | runSend k rs =>
    obtain ⟨i, e, ret, b, bytes, _, _, _, _, rfl⟩ := runSend_cases hs
    exact hc

/-! ## The life of a connection -/

/-- A connection that has just been made. -/
theorem follows_arrive (h : p.Consistent) {p₀ : Workers size workerCount}
    (ha : p.step (.arrive c setup) = some p₀) :
    c ∈ p₀.live ∧ p₀.Follows c setup (World.init setup.config) := by
  simp only [Workers.step] at ha
  split at ha
  · next hi =>
    obtain ⟨k, _, rfl⟩ := Option.map_eq_some_iff.mp ha
    have hnone : (p.workers k).view c = ⟨[], [], []⟩ :=
      SharedWorker.view_of_not_mem fun hm => hi.2 (h.accounted.owners k c hm).1
    have hview : ∀ j, (Function.update p.workers k (p.workers k).add j).view c =
        (p.workers j).view c := update_keeps (SharedWorker.view c) rfl
    refine ⟨List.mem_cons_self, k, Function.update_self .., ?_⟩
    change Plays _ (own c [(c, Frame.onConnected)])
      ((Function.update p.workers k (p.workers k).add k).view c) _
    rw [hview, hnone, own_cons_self]
    exact ⟨rfl, rfl, rfl, rfl, rfl, CycleQueue.toList_create _, rfl, CycleQueue.toList_create _⟩
  · cases ha

/-- `OnDisconnected` returns, and the connection is deleted. -/
theorem delete_step {l : WorkersLabel} (hkeep : ¬p.Keeps c l) {w : World setup.config}
    (hw : p.Follows c setup w) :
    p.act c l = some .ret ∧ ∃ w', w.step .ret = some w' ∧ w'.released = true := by
  cases l with
  | ret =>
    have hhead : p.stack.head? = some (c, .onDisconnected) := by
      by_contra hno
      exact hkeep hno
    obtain ⟨_, _, hp⟩ := hw
    cases hst : p.stack with
    | nil => rw [hst] at hhead; cases hhead
    | cons o fs =>
      rw [hst] at hhead
      cases hhead
      have hstack : w.stack = .onDisconnected :: own c fs := by rw [hp.stack, hst, own_cons_self]
      refine ⟨by simp [act, subject, hst, WorkersLabel.alone], ?_⟩
      simp only [World.step, hstack, World.resume]
      exact ⟨_, rfl, rfl⟩
  | _ => exact absurd trivial hkeep

end Workers

/-- An engine, and whether it has deleted a connection that it had. -/
structure Site (size workerCount : Nat) where
  engine : Workers size workerCount
  gone : Bool

namespace Site
variable {size workerCount : Nat} {s s' : Site size workerCount} {c : Nat} {setup : Setup}

/-- A step of the engine; its connection `c` is the one of interest. -/
def step (c : Nat) (s : Site size workerCount) (l : WorkersLabel) :
    Option (Site size workerCount) :=
  (s.engine.step l).map fun p => ⟨p, s.gone || !decide (s.engine.Keeps c l)⟩

/-- The step that a step of the engine is for the connection, until it is deleted. -/
def act (c : Nat) (s : Site size workerCount) (l : WorkersLabel) : Option Label :=
  if s.gone then none else s.engine.act c l

/-- The connection is in the state of `w`, or has gone in it. -/
def Follows (c : Nat) (setup : Setup) (s : Site size workerCount) (w : World setup.config) : Prop :=
  if s.gone then w.released = true else c ∈ s.engine.live ∧ s.engine.Follows c setup w

theorem Follows.released {w : World setup.config} (h : s.Follows c setup w) :
    w.released = s.gone := by
  unfold Follows at h
  split at h
  · next hgone => rw [h, hgone]
  · next hgone =>
    obtain ⟨_, _, _, hp⟩ := h
    rw [hp.released, Bool.not_eq_true _ |>.mp hgone]

/-- A step that is none of the connection leaves it in its state. -/
theorem Follows.silent {w : World setup.config} (h : s.Follows c setup w)
    (hq : s.engine.Consistent) {l : WorkersLabel} (hs : s.step c l = some s')
    (hl : s.act c l = none) : s'.Follows c setup w := by
  obtain ⟨p, hp, rfl⟩ := Option.map_eq_some_iff.mp hs
  unfold Follows at h
  split at h
  · next hgone => simpa [Follows, hgone] using h
  · next hgone =>
    obtain ⟨hc, hw⟩ := h
    have hact : s.engine.act c l = none := by simpa [act, hgone] using hl
    have hkeep : s.engine.Keeps c l := by
      by_contra hno
      rw [(Workers.delete_step hno hw).1] at hact
      cases hact
    have hsub : s.engine.subject l ≠ some c := by
      intro hsub
      rw [Workers.act, if_pos hsub] at hact
      cases hact
    obtain ⟨i, hne, hspares⟩ := Workers.step_spares hq hp hc hsub
    have hp' := Workers.live_step hp hc hkeep
    simpa [Follows, hgone, hkeep] using And.intro hp' (hw.spared hspares (Ne.symm hne))

/-- A step of the connection is one of `w`. -/
theorem Follows.step {w : World setup.config} (h : s.Follows c setup w)
    (hq : s.engine.Consistent) (hr : Reachable w) {l : WorkersLabel} (hs : s.step c l = some s')
    {a : Label} (hl : s.act c l = some a) : ∃ w', w.step a = some w' ∧ s'.Follows c setup w' := by
  obtain ⟨p, hp, rfl⟩ := Option.map_eq_some_iff.mp hs
  unfold Follows at h
  split at h
  · next hgone => simp [act, hgone] at hl
  · next hgone =>
    obtain ⟨hc, hw⟩ := h
    have hact : s.engine.act c l = some a := by simpa [act, hgone] using hl
    by_cases hkeep : s.engine.Keeps c l
    · unfold Workers.act at hact
      split at hact
      · next hsub =>
        cases hact
        obtain ⟨_, w', hw', hfollows⟩ := Workers.subject_step hq hp hsub hc hkeep hw hr
        have hp' := Workers.live_step hp hc hkeep
        exact ⟨w', hw', by simpa [Follows, hgone, hkeep] using And.intro hp' hfollows⟩
      · cases hact
    · obtain ⟨hret, w', hw', hrel⟩ := Workers.delete_step hkeep hw
      rw [hret] at hact
      cases hact
      exact ⟨w', hw', by simpa [Follows, hkeep] using hrel⟩

end Site

/-- The engine, from where it has made connection `c`. -/
def site {size workerCount : Nat} (c : Nat) (p₀ : Workers size workerCount) :
    System (Site size workerCount) WorkersLabel :=
  ⟨⟨p₀, false⟩, Site.step c⟩

section
variable {size workerCount : Nat} {p p₀ : Workers size workerCount} {c : Nat} {setup : Setup}

/-- The engine simulates the connection alone. -/
theorem simulates_alone (h : p.Consistent) (ha : p.step (.arrive c setup) = some p₀) :
    Simulates (site c p₀) (fun _ _ => True) (system setup.config) (fun _ _ => True) (Site.act c)
      fun s w => s.engine.Consistent ∧ Reachable w ∧ s.Follows c setup w where
  init := ⟨h.step ha, .start, Workers.follows_arrive h ha⟩
  silent := by
    rintro s w l s' ⟨hq, hr, hw⟩ _ hs hl
    obtain ⟨q, hq', rfl⟩ := Option.map_eq_some_iff.mp hs
    exact ⟨hq.step hq', hr, hw.silent hq hs hl⟩
  step := by
    rintro s w l s' a ⟨hq, hr, hw⟩ _ hs hl
    obtain ⟨w', hw', hfollows⟩ := hw.step hq hr hs hl
    obtain ⟨q, hq', rfl⟩ := Option.map_eq_some_iff.mp hs
    exact ⟨trivial, w', hw', hq.step hq', hr.next trivial hw', hfollows⟩

/-- **A connection among others.** From its arrival on, the steps of the engine that concern a
connection are, one by one, a run of that connection with a worker to itself, whatever the other
connections do and however one worker serves them all. At its end the connection has the state of
that run, its callbacks are those of that run, and its worker has for it what its own would have;
or both have been released. -/
theorem runs_as_alone (h : (netWorkers size workerCount).Reachable p)
    (ha : p.step (.arrive c setup) = some p₀) {ls : List WorkersLabel}
    {s : Site size workerCount} (hs : (site c p₀).exec (fun _ _ => True) ⟨p₀, false⟩ ls = some s) :
    ∃ w, (system setup.config).exec (fun _ _ => True) (.init setup.config)
        ((site c p₀).acts (Site.act c) ⟨p₀, false⟩ ls) = some w ∧ s.Follows c setup w := by
  have hsim := simulates_alone (Workers.consistent h) ha
  obtain ⟨w, hw, _, _, hfollows⟩ := hsim.exec hsim.init hs
  exact ⟨w, hw, hfollows⟩

end

/-- Both connections of the worker send, and the second is closed. -/
def twoOfOne : List WorkersLabel :=
  [.ret, .send 0 [1], .send 1 [7], .take 0, .runSend 0 [.sent 1], .push 0, .take 0,
    .runSend 0 [.sent 1], .process 0, .push 0, .process 0, .close 1, .ret]

/-- Two connections of one worker; the second is sent a byte, closed, released and deleted. -/
theorem runs_as_alone_two :
    ∃ (s : Site 4 1) (w : World Setup.small.config), s.gone = true ∧ s.engine.live = [0] ∧
      (system Setup.small.config).exec (fun _ _ => True) (.init _)
        [.ret, .send [7], .take, .runSend [.sent 1], .push, .process, .close, .ret] = some w ∧
      s.Follows 1 .small w := by
  obtain ⟨p, h, hp⟩ := (netWorkers 4 1).run_of_exec (P := fun _ _ => True)
    [.arrive 0 .small, .ret]
    (p := fun p => (p.step (.arrive 1 .small)).any fun p₀ =>
      ((site 1 p₀).exec (fun _ _ => True) ⟨p₀, false⟩ twoOfOne).any fun s =>
        s.gone && s.engine.live == [0] && (site 1 p₀).acts (Site.act 1) ⟨p₀, false⟩ twoOfOne ==
          [.ret, .send [7], .take, .runSend [.sent 1], .push, .process, .close, .ret])
    (by decide)
  obtain ⟨p₀, ha, hp⟩ := (Option.any_eq_true _ _).mp hp
  obtain ⟨s, hs, hp⟩ := (Option.any_eq_true _ _).mp hp
  simp only [Bool.and_eq_true, beq_iff_eq] at hp
  obtain ⟨⟨hgone, hlive⟩, hacts⟩ := hp
  obtain ⟨w, hw, hfollows⟩ := runs_as_alone h ha hs
  rw [hacts] at hw
  exact ⟨s, w, hgone, hlive, hw, hfollows⟩

end HyperNet.Net
