import HyperNet.Public.Util
import Mathlib.Data.List.Basic

/-! # The buffers of a connection and the socket calls on them

A buffer is the bytes it holds, within the size it was allocated with. A copy
that would run past the allocation has no result (`append?`): what the process
does after it is not defined. The two loops at the end are the parts of
`Connection::OnRecv` and `Connection::OnSend` that call the socket; the answers
of the socket are an input. -/
namespace HyperNet.Net
open HyperNet.Public

/-- `Connection::Buffer`, with `offset` as the length of the data. -/
@[ext] structure Buffer (size : Nat) where
  data : List UInt8
  le_size : data.length ≤ size
  deriving DecidableEq

namespace Buffer
variable {n : Nat}

def empty : Buffer n := ⟨[], Nat.zero_le n⟩

def offset (b : Buffer n) : Nat := b.data.length

/-- The capacity check `buffer.offset + k > buffer.size`. -/
def exceeds (b : Buffer n) (k : Nat) : Bool := decide ((n : Int) < s32 (b.offset + k : Nat))

/-- `memcpy(buffer.data + buffer.offset, context, size); buffer.offset += size`. -/
def append? (b : Buffer n) (context : List UInt8) : Option (Buffer n) :=
  if h : b.offset + context.length ≤ n then
    some ⟨b.data ++ context, by simpa [offset] using h⟩
  else none

/-- `memmove` of what follows the first `k` bytes; `buffer.offset -= k`. -/
def drop (b : Buffer n) (k : Nat) : Buffer n :=
  ⟨b.data.drop k, by have := b.le_size; simp only [List.length_drop]; omega⟩

@[simp] theorem data_empty : (empty : Buffer n).data = [] := rfl

@[simp] theorem data_drop (b : Buffer n) (k : Nat) : (b.drop k).data = b.data.drop k := rfl

@[simp] theorem offset_empty : (empty : Buffer n).offset = 0 := rfl

theorem offset_pos {b : Buffer n} : 0 < b.offset ↔ b.data ≠ [] := List.length_pos_iff

theorem offset_eq_zero {b : Buffer n} : b.offset = 0 ↔ b.data = [] := List.length_eq_zero_iff

theorem append?_eq_some {b b' : Buffer n} {context : List UInt8} :
    b.append? context = some b' ↔ b'.data = b.data ++ context := by
  unfold append?
  constructor
  · intro h
    split at h
    · simp only [Option.some.injEq] at h
      rw [← h]
    · cases h
  · intro h
    have hle : b.offset + context.length ≤ n := by
      have := b'.le_size
      rwa [h, List.length_append] at this
    rw [dif_pos hle]
    simp [Buffer.ext_iff, h]

/-- Where the sum does not wrap, the check is the comparison it is written as. -/
theorem exceeds_iff {b : Buffer n} {k : Nat} (h : b.offset + k < s32Bound) :
    b.exceeds k = true ↔ n < b.offset + k := by
  simp only [exceeds, s32_of_lt h, decide_eq_true_eq]
  omega

/-- What the check rejects would not have fitted. -/
theorem exceeds_sound {b : Buffer n} {k : Nat} (hn : n < s32Bound)
    (h : b.exceeds k = true) : n < b.offset + k := by
  by_cases hw : b.offset + k < s32Bound
  · exact (exceeds_iff hw).mp h
  · omega

end Buffer

/-! ## OnRecv -/

/-- The results of `OnRecv` and `OnSend`, `WRET_*`. -/
inductive WRet
  | done | pending | error | close
  deriving DecidableEq, Repr

/-- What `::recv` returns: bytes (at least one), 0, or -1 with `EAGAIN` or with
another error. -/
inductive RecvRes
  | data (b : UInt8) (bs : List UInt8)
  | eof
  | eagain
  | error
  deriving DecidableEq, Repr

variable {n : Nat}

/-- `::recv` into the rest of the buffer: no more than fits. -/
def Buffer.recv (b : Buffer n) (bs : List UInt8) : Buffer n :=
  ⟨b.data ++ bs.take (n - b.offset), by
    have := b.le_size
    simp only [List.length_append, List.length_take, offset]
    omega⟩

/-- The loop of `OnRecv`: its result and the buffer filled up to the local
`offset`. A socket with no more answers says `EAGAIN`. -/
def recvLoop (b : Buffer n) : List RecvRes → WRet × Buffer n
  | [] => (.done, b)
  | r :: rs =>
    if b.offset < n then
      match r with
      | .data x xs => recvLoop (b.recv (x :: xs)) rs
      | .eof => (.close, b)
      | .eagain => (.done, b)
      | .error => (.error, b)
    else (.done, b)

/-- `Connection::OnRecv`: result, working buffer, and the bytes `::recv` gave. Only
the normal exit publishes the offset. The buffer is empty wherever the worker comes here, as
`OASSERT` has it (`Accounts.worked_nil`). -/
def onRecv (buffer : Buffer n) (rs : List RecvRes) : WRet × Buffer n × List UInt8 :=
  let (ret, b) := recvLoop buffer rs
  (ret, if ret = .done then b else buffer, b.data.drop buffer.offset)

theorem recvLoop_spec (b : Buffer n) (rs : List RecvRes) :
    (recvLoop b rs).1 ≠ .pending ∧ ∃ read, (recvLoop b rs).2.data = b.data ++ read := by
  induction rs generalizing b with
  | nil => exact ⟨by simp [recvLoop], [], by simp [recvLoop]⟩
  | cons r rs ih =>
    unfold recvLoop
    split
    · cases r with
      | data x xs =>
        obtain ⟨hp, read, hr⟩ := ih (b.recv (x :: xs))
        exact ⟨hp, _, hr.trans (List.append_assoc _ _ _)⟩
      | eof | eagain | error => exact ⟨by simp, [], by simp⟩
    · exact ⟨by simp, [], by simp⟩

/-- What one call of `OnRecv` does to the working buffer. -/
theorem onRecv_spec {b b' : Buffer n} {rs : List RecvRes} {ret : WRet} {read : List UInt8}
    (h : onRecv b rs = (ret, b', read)) :
    ret ≠ .pending ∧ (ret = .done → b'.data = b.data ++ read) ∧ (ret ≠ .done → b' = b) := by
  obtain ⟨hp, bytes, hb⟩ := recvLoop_spec b rs
  simp only [onRecv, Prod.mk.injEq] at h
  obtain ⟨rfl, rfl, rfl⟩ := h
  refine ⟨hp, ?_, ?_⟩
  · intro hd
    simp [hd, hb, Buffer.offset]
  · intro hd
    simp [hd]

/-! ## OnSend -/

/-- What `::send` returns: a count of bytes taken, or -1 with `EAGAIN` or with
another error. -/
inductive SendRes
  | sent (k : Nat)
  | eagain
  | error
  deriving DecidableEq, Repr

/-- The loop of `OnSend` over the bytes still to send: its result and the bytes
handed to the kernel. A socket with no more answers says `EAGAIN`. -/
def sendLoop (rest : List UInt8) : List SendRes → WRet × List UInt8
  | [] => (if rest = [] then .done else .pending, [])
  | r :: rs =>
    if rest = [] then (.done, [])
    else match r with
      | .sent k =>
        let (ret, out) := sendLoop (rest.drop k) rs
        (ret, rest.take k ++ out)
      | .eagain => (.pending, [])
      | .error => (.error, [])

/-- `Connection::OnSend`: result, working buffer, and the bytes handed to the
kernel. The error exit leaves the buffer as it was. On an empty buffer `OASSERT` ends
the process. -/
def onSend (buffer : Buffer n) (rs : List SendRes) : Option (WRet × Buffer n × List UInt8) :=
  if buffer.offset = 0 then none
  else
    let (ret, out) := sendLoop buffer.data rs
    some (ret, if ret = .error then buffer else buffer.drop out.length, out)

theorem sendLoop_spec (rest : List UInt8) (rs : List SendRes) :
    (sendLoop rest rs).1 ≠ .close ∧ ∃ left, rest = (sendLoop rest rs).2 ++ left ∧
      ((sendLoop rest rs).1 = .done → left = []) ∧
      ((sendLoop rest rs).1 = .pending → left ≠ []) := by
  induction rs generalizing rest with
  | nil =>
    refine ⟨by unfold sendLoop; split <;> simp, rest, rfl, ?_⟩
    simp [sendLoop]
  | cons r rs ih =>
    unfold sendLoop
    split
    · next he => exact ⟨by simp, [], by simp [he], by simp, by simp⟩
    · next he =>
      cases r with
      | sent k =>
        obtain ⟨hc, left, hl, hd, hp⟩ := ih (rest.drop k)
        refine ⟨hc, left, ?_, hd, hp⟩
        rw [List.append_assoc, ← hl, List.take_append_drop]
      | eagain => exact ⟨by simp, rest, rfl, by simp, fun _ => he⟩
      | error => exact ⟨by simp, rest, rfl, by simp, by simp⟩

theorem onSend_isSome {b : Buffer n} (rs : List SendRes) :
    (onSend b rs).isSome = true ↔ b.data ≠ [] := by
  unfold onSend
  split
  · next he => exact iff_of_false nofun (not_not_intro (Buffer.offset_eq_zero.mp he))
  · next he => exact iff_of_true rfl (mt Buffer.offset_eq_zero.mpr he)

/-- What one call of `OnSend` does to the working buffer. -/
theorem onSend_spec {b b' : Buffer n} {rs : List SendRes} {ret : WRet} {out : List UInt8}
    (h : onSend b rs = some (ret, b', out)) :
    ret ≠ .close ∧ (ret ≠ .error → b.data = out ++ b'.data) ∧ out <+: b.data ∧
      (ret = .done → b'.data = []) ∧ (ret = .pending → b'.data ≠ []) := by
  obtain ⟨hc, left, hl, hd, hp⟩ := sendLoop_spec b.data rs
  have hne : b.offset ≠ 0 := fun he => by
    rw [onSend, if_pos he] at h
    cases h
  simp only [onSend, if_neg hne, Option.some.injEq, Prod.mk.injEq] at h
  obtain ⟨rfl, rfl, rfl⟩ := h
  have hdrop : b.data.drop (sendLoop b.data rs).2.length = left :=
    (congrArg (List.drop _) hl).trans (List.drop_left ..)
  refine ⟨hc, ?_, ⟨left, hl.symm⟩, ?_, ?_⟩
  · intro he
    simpa [he, hdrop] using hl
  · intro he
    simpa [he, hdrop] using hd he
  · intro he
    simpa [he, hdrop] using hp he

end HyperNet.Net
