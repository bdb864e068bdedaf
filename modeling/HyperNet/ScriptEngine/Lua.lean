import Mathlib.Algebra.Ring.Int.Defs
import Mathlib.Algebra.Ring.Nat
import Mathlib.Data.List.Nodup

/-! # Lua as a C function sees it (lua.h, ltable.c, lstring.c of Lua 5.3)

Values, tables under their addresses, and the stack of the running C function. Doubles are
their 64 bits. The order of a table's entries is the order of `lua_next`. -/
namespace HyperNet.ScriptEngine

/-- How a C function ends without returning. -/
inductive Failure
  /-- `lua_error` with a message. -/
  | error (message : String)
  /-- Memory is accessed outside its bounds, or an `s32` overflows. -/
  | undefined
  /-- The bound on the number of calls is reached. -/
  | outOfFuel
  deriving DecidableEq, Repr

namespace Double

def exponent (bits : BitVec 64) : Nat := bits.toNat / 2 ^ 52 % 2 ^ 11

def mantissa (bits : BitVec 64) : Nat := bits.toNat % 2 ^ 52

def isNaN (bits : BitVec 64) : Bool := exponent bits == 2047 && mantissa bits != 0

/-- `luaV_tointeger` in mode 0: the integer that a double is. -/
def toInteger? (bits : BitVec 64) : Option (BitVec 64) :=
  let significand := if exponent bits = 0 then mantissa bits else 2 ^ 52 + mantissa bits
  -- The double is `significand * 2 ^ (scale - 1075)`.
  let scale := max (exponent bits) 1
  let magnitude := significand * 2 ^ (scale - 1075) / 2 ^ (1075 - scale)
  let x : Int := if bits.msb then -magnitude else magnitude
  if exponent bits < 2047 ∧ significand % 2 ^ (1075 - scale) = 0 ∧ -2 ^ 63 ≤ x ∧ x < 2 ^ 63 then
    some (.ofInt 64 x)
  else none

theorem toInteger?_of_isNaN {bits : BitVec 64} (h : isNaN bits = true) :
    toInteger? bits = none := by
  have hexponent : exponent bits = 2047 := by
    rw [isNaN, Bool.and_eq_true, beq_iff_eq] at h
    exact h.1
  exact if_neg (by omega)

example : toInteger? 0xC008000000000000#64 = some (-3) := by decide +kernel

end Double

inductive LuaValue
  | nil
  | boolean (b : Bool)
  | integer (n : BitVec 64)
  | number (bits : BitVec 64)
  | string (bytes : List UInt8)
  | table (address : Nat)
  /-- Functions, userdata and threads. -/
  | other (typename : String) (address : Nat)
  deriving DecidableEq, Repr

namespace LuaValue

/-- What a table can have as a key: a double that is an integer is stored as the integer. -/
def IsKey : LuaValue → Prop
  | .nil => False
  | .number bits => Double.isNaN bits = false ∧ Double.toInteger? bits = none
  | _ => True

/-- `luaH_set`: the key under which a value is stored. -/
def toKey : LuaValue → Except Failure { key : LuaValue // key.IsKey }
  | .nil => .error (.error "table index is nil")
  | .number bits =>
    if h : Double.toInteger? bits = none then
      if h' : Double.isNaN bits = false then .ok ⟨.number bits, h', h⟩
      else .error (.error "table index is NaN")
    else .ok ⟨.integer ((Double.toInteger? bits).getD 0), trivial⟩
  | .boolean b => .ok ⟨.boolean b, trivial⟩
  | .integer n => .ok ⟨.integer n, trivial⟩
  | .string bytes => .ok ⟨.string bytes, trivial⟩
  | .table address => .ok ⟨.table address, trivial⟩
  | .other typename address => .ok ⟨.other typename address, trivial⟩

theorem IsKey.ne_nil {v : LuaValue} (h : v.IsKey) : v ≠ .nil := by
  intro hv
  rw [hv] at h
  exact h

theorem toKey_of_isKey {v : LuaValue} (h : v.IsKey) : v.toKey = .ok ⟨v, h⟩ := by
  cases v with
  | nil => exact absurd rfl h.ne_nil
  | number bits =>
    rw [toKey, dif_pos h.2, dif_pos h.1]
  | boolean | integer | string | table | other => rfl

end LuaValue

/-- An assignment to the list of entries. The place that a new key gets there is not the one it
gets in Lua. -/
def setEntry : List (LuaValue × LuaValue) → LuaValue → LuaValue → List (LuaValue × LuaValue)
  | [], key, value => if value = .nil then [] else [(key, value)]
  | entry :: entries, key, value =>
    if entry.1 = key then if value = .nil then entries else (key, value) :: entries
    else entry :: setEntry entries key value

/-- An entry after the assignment was there before it or is the one assigned. -/
theorem mem_setEntry {entries : List (LuaValue × LuaValue)} {key value : LuaValue}
    {entry : LuaValue × LuaValue} (h : entry ∈ setEntry entries key value) :
    entry ∈ entries ∨ entry = (key, value) ∧ value ≠ .nil := by
  induction entries with
  | nil =>
    rw [setEntry] at h
    split at h
    · cases h
    · next hv => exact Or.inr ⟨List.mem_singleton.mp h, hv⟩
  | cons first entries ih =>
    rw [setEntry] at h
    split at h
    · split at h
      · exact Or.inl (List.mem_cons_of_mem _ h)
      · next hv =>
        cases List.mem_cons.mp h with
        | inl he => exact Or.inr ⟨he, hv⟩
        | inr he => exact Or.inl (List.mem_cons_of_mem _ he)
    · cases List.mem_cons.mp h with
      | inl he => exact Or.inl (he ▸ List.mem_cons_self)
      | inr he => exact (ih he).imp_left (List.mem_cons_of_mem _)

theorem setEntry_nodup {entries : List (LuaValue × LuaValue)} {key value : LuaValue}
    (h : (entries.map Prod.fst).Nodup) : ((setEntry entries key value).map Prod.fst).Nodup := by
  induction entries with
  | nil =>
    rw [setEntry]
    split
    · exact List.nodup_nil
    · exact List.nodup_singleton key
  | cons first entries ih =>
    rw [List.map_cons, List.nodup_cons] at h
    rw [setEntry]
    split
    · next hkey =>
      split
      · exact h.2
      · rw [List.map_cons, List.nodup_cons]
        exact ⟨hkey ▸ h.1, h.2⟩
    · next hkey =>
      rw [List.map_cons, List.nodup_cons]
      refine ⟨?_, ih h.2⟩
      intro hmem
      obtain ⟨entry, hentry, hfst⟩ := List.mem_map.mp hmem
      cases mem_setEntry hentry with
      | inl hold => exact h.1 (List.mem_map.mpr ⟨entry, hold, hfst⟩)
      | inr hnew => exact hkey (by rw [← hfst, hnew.1])

/-- A key that was not there comes last. -/
theorem setEntry_new {entries : List (LuaValue × LuaValue)} {key value : LuaValue}
    (hkey : key ∉ entries.map Prod.fst) (hvalue : value ≠ .nil) :
    setEntry entries key value = entries ++ [(key, value)] := by
  induction entries with
  | nil => exact if_neg hvalue
  | cons first entries ih =>
    rw [List.map_cons, List.mem_cons, not_or] at hkey
    rw [setEntry, if_neg (Ne.symm hkey.1), ih hkey.2, List.cons_append]

/-- A table, which has no key twice and no entry whose value is nil. -/
structure Table where
  entries : List (LuaValue × LuaValue)
  isKey : ∀ entry ∈ entries, entry.1.IsKey
  nodup : (entries.map Prod.fst).Nodup
  ne_nil : ∀ entry ∈ entries, entry.2 ≠ .nil
  deriving DecidableEq

namespace Table

def empty : Table where
  entries := []
  isKey := by simp
  nodup := List.nodup_nil
  ne_nil := by simp

def set (t : Table) (key : { key : LuaValue // key.IsKey }) (value : LuaValue) : Table where
  entries := setEntry t.entries key value
  isKey entry h := by
    cases mem_setEntry h with
    | inl hold => exact t.isKey entry hold
    | inr hnew => rw [hnew.1]; exact key.2
  nodup := setEntry_nodup t.nodup
  ne_nil entry h := by
    cases mem_setEntry h with
    | inl hold => exact t.ne_nil entry hold
    | inr hnew => rw [hnew.1]; exact hnew.2

/-- `luaH_next`: what comes behind a key, and first behind nil. -/
def next (t : Table) (key : LuaValue) : Except Failure (Option (LuaValue × LuaValue)) :=
  if key = .nil then .ok t.entries.head?
  else
    match t.entries.dropWhile (·.1 ≠ key) with
    | [] => .error (.error "invalid key to 'next'")
    | _ :: entries => .ok entries.head?

end Table

/-- The value at an index of a stack, which is given with the top first. -/
def stackValue? (stack : List LuaValue) (index : Int) : Option LuaValue :=
  if 0 < index then stack.reverse[(index - 1).toNat]?
  else if index < 0 then stack[(-index - 1).toNat]?
  else none

/-- What is pushed does not change the values below it. -/
theorem stackValue?_append {stack : List LuaValue} {index : Int} {v : LuaValue}
    (above : List LuaValue) (hindex : 0 < index) (h : stackValue? stack index = some v) :
    stackValue? (above ++ stack) index = some v := by
  rw [stackValue?, if_pos hindex] at h ⊢
  have hlt := (List.getElem?_eq_some_iff.mp h).1
  rw [List.reverse_append, List.getElem?_append_left hlt, h]

/-- An index from the top as one from the bottom. -/
theorem stackValue?_bottom {stack : List LuaValue} {index : Int} {v : LuaValue}
    (h : stackValue? stack index = some v) :
    0 < (if index < 0 then stack.length + index + 1 else index) ∧
      stackValue? stack (if index < 0 then stack.length + index + 1 else index) = some v := by
  by_cases hpos : 0 < index
  · rw [if_neg (by omega)]
    exact ⟨hpos, h⟩
  · rw [stackValue?, if_neg hpos] at h
    split at h
    · next hneg =>
      have hlt := (List.getElem?_eq_some_iff.mp h).1
      rw [if_pos hneg, stackValue?, if_pos (by omega), List.getElem?_reverse (by omega), ← h]
      refine ⟨by omega, ?_⟩
      congr 1
      omega
    · cases h

/-- The running C function's stack, the top first, and the tables of the state. -/
structure LuaState where
  stack : List LuaValue
  heap : List Table
  /-- The slots that `lua_checkstack` has ensured. -/
  slots : Nat
  /-- A value was pushed beyond them: what Lua does from there on is not defined. Here the value
  has its effect nevertheless. -/
  exceeded : Bool
  deriving DecidableEq

namespace LuaState

/-- `LUA_MINSTACK` -/
def minStack : Nat := 20

/-- A C function is called. -/
def call (args : List LuaValue) (heap : List Table) : LuaState :=
  ⟨args.reverse, heap, args.length + minStack, false⟩

def gettop (L : LuaState) : Int := L.stack.length

/-- The next slot is written to. -/
def claim (L : LuaState) : LuaState :=
  { L with exceeded := L.exceeded || decide (L.slots ≤ L.stack.length) }

def push (L : LuaState) (v : LuaValue) : LuaState := { L.claim with stack := v :: L.stack }

theorem claim_exceeded {L : LuaState} :
    L.claim.exceeded = true ↔ L.exceeded = true ∨ L.slots ≤ L.stack.length := by
  simp [claim]

/-- A value is pushed on this stack. -/
theorem push_exceeded {L : LuaState} {v : LuaValue} :
    (L.push v).exceeded = true ↔ L.exceeded = true ∨ L.slots ≤ L.stack.length :=
  claim_exceeded

def pop (L : LuaState) (n : Nat) : LuaState := { L with stack := L.stack.drop n }

/-- `lua_checkstack`, whose failure at a million slots is ignored by its caller. -/
def checkstack (L : LuaState) (n : Nat) : LuaState :=
  if L.stack.length + n ≤ 1000000 then { L with slots := max L.slots (L.stack.length + n) } else L

@[simp] theorem stack_checkstack (L : LuaState) (n : Nat) :
    (L.checkstack n).stack = L.stack := by
  unfold checkstack
  split <;> rfl

@[simp] theorem heap_checkstack (L : LuaState) (n : Nat) : (L.checkstack n).heap = L.heap := by
  unfold checkstack
  split <;> rfl

@[simp] theorem exceeded_checkstack (L : LuaState) (n : Nat) :
    (L.checkstack n).exceeded = L.exceeded := by
  unfold checkstack
  split <;> rfl

/-- `index2addr`: from the bottom of the stack, or from its top. -/
def value? (L : LuaState) (index : Int) : Option LuaValue := stackValue? L.stack index

def newtable (L : LuaState) : LuaState :=
  ({ L with heap := L.heap ++ [Table.empty] }).push (.table L.heap.length)

/-- `lua_next`, with false at the end of the traversal. -/
def next (L : LuaState) (index : Int) : Except Failure (Bool × LuaState) :=
  match L.value? index, L.stack with
  | some (.table address), key :: stack =>
    match L.heap[address]? with
    | none => .error .undefined
    | some t => do
      match ← t.next key with
      | none => .ok (false, { L with stack := stack })
      | some entry => .ok (true, ({ L with stack := entry.1 :: stack }).push entry.2)
  | _, _ => .error .undefined

/-- `lua_rawset`. -/
def rawset (L : LuaState) (index : Int) : Except Failure LuaState :=
  match L.value? index, L.stack with
  | some (.table address), value :: key :: stack =>
    match L.heap[address]? with
    | none => .error .undefined
    | some t => do
      let key ← key.toKey
      .ok { L with stack := stack, heap := L.heap.set address (t.set key value) }
  | _, _ => .error .undefined

/-- `lua_pushlstring` of what is at `position` in a buffer. The length is converted to
`size_t`: with `-1` the size that `luaS_newlstr` compares wraps to 0. -/
def pushlstring (L : LuaState) (buffer : List UInt8) (position len : Int) :
    Except Failure LuaState :=
  if len < -1 then .error (.error "memory allocation error: block too big")
  else if len = -1 then .error .undefined
  else if len = 0 then .ok (L.push (.string []))
  else if 0 ≤ position ∧ position + len ≤ buffer.length then
    .ok (L.push (.string ((buffer.drop position.toNat).take len.toNat)))
  else .error .undefined

end LuaState
end HyperNet.ScriptEngine
