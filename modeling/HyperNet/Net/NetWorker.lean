import HyperNet.Public.CycleQueue
import HyperNet.Net.Buffer
import HyperNet.Net.States

/-! # The worker of a connection (NetWorker.cpp)

The worker serves one connection here, so a request is its event and a result is
the event it carries. `items` lists what the worker has of the connection,
oldest first: results, the one it is executing, requests. The operations act on
it as on one FIFO in which an item turns from a request into a result. -/
namespace HyperNet.Net
open HyperNet.Public

/-- `WorkRequest::Event`. -/
inductive WorkRequest
  | send | recv
  deriving DecidableEq, Repr, Inhabited

/-- One request at the worker, before or after `DoRequest` has turned it into its
result. -/
inductive Item
  | request (r : WorkRequest)
  | result (e : NetEventType)
  deriving DecidableEq, Repr

def Item.isSend : Item → Bool
  | .request r => r == .send
  | .result e => e.isSendResult

def Item.isRecv : Item → Bool
  | .request r => r == .recv
  | .result e => e.isRecvResult

instance : Inhabited NetEventType := ⟨.send⟩

/-- The two queues, made for `maxConnection` connections, and what `ThreadProc` holds
between them. -/
structure NetWorker (maxConnection : Nat) where
  workQueue : CycleQueue WorkRequest
  executing : Option Item
  resultQueue : CycleQueue NetEventType
  work_capacity : workQueue.capacity = maxConnection * 2
  result_capacity : resultQueue.capacity = maxConnection * 2

/-- The switch of `DoRequest` on what `OnRecv` returns; it has no case for
`WRET_PENDING` and would leave the type of the event unset. -/
def recvEvent : WRet → Option NetEventType
  | .done => some .recvDone
  | .error => some .recvError
  | .close => some .recvClose
  | .pending => none

/-- The switch of `DoRequest` on what `OnSend` returns, without `WRET_CLOSE`. -/
def sendEvent : WRet → Option NetEventType
  | .done => some .sendDone
  | .error => some .sendError
  | .pending => some .sendPending
  | .close => none

theorem recvEvent_isSome {n : Nat} (b : Buffer n) (rs : List RecvRes) :
    (recvEvent (onRecv b rs).1).isSome = true := by
  have hret := (onRecv_spec (show onRecv b rs = (_, _, _) from rfl)).1
  cases he : (onRecv b rs).1 <;> first | rfl | exact absurd he hret

theorem sendEvent_isSome {n : Nat} {b b' : Buffer n} {rs : List SendRes} {ret : WRet}
    {out : List UInt8} (h : onSend b rs = some (ret, b', out)) :
    (sendEvent ret).isSome = true := by
  have hret := (onSend_spec h).1
  cases ret <;> first | rfl | exact absurd rfl hret

namespace NetWorker
variable {m : Nat}

def create (m : Nat) : NetWorker m where
  workQueue := .create (m * 2)
  executing := none
  resultQueue := .create (m * 2)
  work_capacity := rfl
  result_capacity := rfl

/-- `NetWorker::Recv` and `NetWorker::Send`. -/
def post (wk : NetWorker m) (r : WorkRequest) : NetWorker m :=
  { wk with
    workQueue := wk.workQueue.push r
    work_capacity := (CycleQueue.capacity_push _ _).trans wk.work_capacity }

/-- `ThreadProc` reads a request. -/
def take (wk : NetWorker m) : Option (NetWorker m) :=
  match wk.executing, h : wk.workQueue.read with
  | none, some (r, q) => some { wk with
      workQueue := q
      executing := some (.request r)
      work_capacity := (CycleQueue.capacity_read h).trans wk.work_capacity }
  | _, _ => none

/-- `DoRequest` has its event. -/
def finish (wk : NetWorker m) (e : NetEventType) : NetWorker m :=
  { wk with executing := some (.result e) }

/-- `DoRequest` pushes its result. -/
def pushResult (wk : NetWorker m) : Option (NetWorker m) :=
  match wk.executing with
  | some (.result e) => some { wk with
      executing := none
      resultQueue := wk.resultQueue.push e
      result_capacity := (CycleQueue.capacity_push _ _).trans wk.result_capacity }
  | _ => none

/-- `Process` reads a result. -/
def readResult (wk : NetWorker m) : Option (NetEventType × NetWorker m) :=
  match h : wk.resultQueue.read with
  | some (e, q) => some (e, { wk with
      resultQueue := q
      result_capacity := (CycleQueue.capacity_read h).trans wk.result_capacity })
  | none => none

theorem take_of_workQueue {wk : NetWorker m} {r : WorkRequest} {rest : List WorkRequest}
    (hx : wk.executing = none) (hq : wk.workQueue.toList = r :: rest) :
    ∃ wk', wk.take = some wk' ∧ wk'.workQueue.toList = rest ∧ wk'.executing = some (.request r) ∧
      wk'.resultQueue = wk.resultQueue := by
  obtain ⟨q, hr, hl⟩ := CycleQueue.read_of_toList hq
  unfold take
  split
  · next r' q' _ hr' =>
    rw [hr] at hr'
    cases hr'
    exact ⟨_, rfl, hl, rfl, rfl⟩
  · next hno => exact absurd hr (hno _ _ hx)

theorem readResult_of_resultQueue {wk : NetWorker m} {e : NetEventType} {rest : List NetEventType}
    (hq : wk.resultQueue.toList = e :: rest) :
    ∃ wk', wk.readResult = some (e, wk') ∧ wk'.resultQueue.toList = rest ∧
      wk'.executing = wk.executing ∧ wk'.workQueue = wk.workQueue := by
  obtain ⟨q, hr, hl⟩ := CycleQueue.read_of_toList hq
  unfold readResult
  split
  · next e' q' hr' =>
    rw [hr] at hr'
    cases hr'
    exact ⟨_, rfl, hl, rfl, rfl⟩
  · next hno =>
    rw [hr] at hno
    cases hno

/-- What the worker has of the connection, oldest first. -/
def items (wk : NetWorker m) : List Item :=
  wk.resultQueue.toList.map .result ++ wk.executing.toList ++ wk.workQueue.toList.map .request

@[simp] theorem items_create : (create m).items = [] := by simp [items, create]

theorem items_post {wk : NetWorker m} {r : WorkRequest} (h : wk.items.length < m * 2) :
    (wk.post r).items = wk.items ++ [.request r] := by
  have hq : wk.workQueue.toList.length < wk.workQueue.capacity := by
    rw [wk.work_capacity]
    simp only [items, List.length_append, List.length_map] at h
    omega
  simp [items, post, CycleQueue.toList_push r hq]

theorem items_take {wk wk' : NetWorker m} (h : wk.take = some wk') : wk'.items = wk.items := by
  unfold take at h
  split at h
  · next r q he hr =>
    simp only [Option.some.injEq] at h
    subst h
    simp [items, he, CycleQueue.toList_read hr]
  · cases h

theorem items_finish {wk : NetWorker m} {r : WorkRequest} (e : NetEventType)
    (h : wk.executing = some (.request r)) :
    ∃ older newer, wk.items = older ++ .request r :: newer ∧
      (wk.finish e).items = older ++ .result e :: newer := by
  refine ⟨wk.resultQueue.toList.map .result, wk.workQueue.toList.map .request, ?_, ?_⟩
  · simp [items, h]
  · simp [items, finish]

theorem items_pushResult {wk wk' : NetWorker m} (h : wk.pushResult = some wk')
    (hl : wk.items.length ≤ m * 2) : wk'.items = wk.items := by
  unfold pushResult at h
  split at h
  · next e he =>
    have hq : wk.resultQueue.toList.length < wk.resultQueue.capacity := by
      rw [wk.result_capacity]
      simp only [items, he, Option.toList_some, List.length_append, List.length_map,
        List.length_singleton] at hl
      omega
    simp only [Option.some.injEq] at h
    subst h
    simp [items, he, CycleQueue.toList_push e hq]
  · cases h

theorem items_readResult {wk wk' : NetWorker m} {e : NetEventType}
    (h : wk.readResult = some (e, wk')) : wk.items = .result e :: wk'.items := by
  unfold readResult at h
  split at h
  · next hr =>
    simp only [Option.some.injEq, Prod.mk.injEq] at h
    obtain ⟨rfl, rfl⟩ := h
    simp [items, CycleQueue.toList_read hr]
  · cases h

end NetWorker
end HyperNet.Net
