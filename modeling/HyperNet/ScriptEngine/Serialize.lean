import HyperNet.Core.Bytes
import HyperNet.Logic.Frame
import HyperNet.ScriptEngine.Lua

/-! # The serializer of the scripts (serialize.cpp)

The two functions work on a Lua state and a stream. A failure keeps both as they are at that
point. The calls nest as deeply as the values do, so they take a bound; the bounds that the
entry points give are large enough. -/
namespace HyperNet.ScriptEngine
open HyperNet.Core HyperNet.Public
open HyperNet.Logic (readS32 s32Bytes)

/-- `BUFF_SIZE` -/
def buffSize : Nat := 2048

/-- A sum of two `s32`. -/
def addS32 (x y : Int) : Except Failure Int :=
  if -2 ^ 31 ≤ x + y ∧ x + y < 2 ^ 31 then .ok (x + y) else .error .undefined

structure SerializeStream where
  buffer : List UInt8
  len : Int
  offset : Int
  /-- What `offset` was before, the last first. -/
  offsets : List Int
  deriving DecidableEq

namespace SerializeStream

/-- The stream of `l_unserialize`, with the size as an `s32`. -/
def ofString (bytes : List UInt8) : SerializeStream := ⟨bytes, s32 bytes.length, 0, []⟩

/-- The stream of `l_serialize`, on fresh memory. -/
def alloc (memory : List UInt8) : SerializeStream := ⟨memory, buffSize, 0, []⟩

def moveTo (s : SerializeStream) (offset : Int) : SerializeStream :=
  { s with offset := offset, offsets := s.offset :: s.offsets }

def read (s : SerializeStream) (k : Nat) : Except Failure (Option (List UInt8) × SerializeStream) := do
  let stop ← addS32 s.offset k
  if s.len < stop then .ok (none, s)
  else if 0 ≤ s.offset ∧ stop ≤ s.buffer.length then
    .ok (some ((s.buffer.drop s.offset.toNat).take k), s.moveTo stop)
  else .error .undefined

/-- The position and the length of a string, which need not be in the buffer. A sum that is no
`s32` wraps: no buffer has a string of that length, which the caller comes to next. -/
def readString (s : SerializeStream) : Except Failure (Option (Int × Int) × SerializeStream) := do
  match ← s.read 4 with
  | (none, s) => .ok (none, s)
  | (some bytes, s) =>
    let len := readS32 bytes 0
    .ok (some (s.offset, len), s.moveTo (s32 (s.offset + len)))

/-- `memcpy` to the offset, which moves behind it. -/
def store (s : SerializeStream) (src : List UInt8) : Except Failure SerializeStream :=
  if 0 ≤ s.offset ∧ s.offset + src.length ≤ s.buffer.length then
    .ok { s.moveTo (s.offset + src.length) with
      buffer := s.buffer.take s.offset.toNat ++ src ++
        s.buffer.drop (s.offset.toNat + src.length) }
  else .error .undefined

def write (s : SerializeStream) (src : List UInt8) : Except Failure (Bool × SerializeStream) := do
  let stop ← addS32 s.offset src.length
  if s.len < stop then .ok (false, s)
  else do
    let s ← s.store src
    .ok (true, s)

/-- Only the length is checked against the end of the buffer. -/
def writeString (s : SerializeStream) (src : List UInt8) (sz : Int) :
    Except Failure (Bool × SerializeStream) := do
  match ← s.write (s32Bytes sz) with
  | (false, s) => .ok (false, s)
  | (true, s) =>
    if sz < 0 then .error .undefined
    else do
      let s ← s.store (src.take sz.toNat)
      .ok (true, s)

end SerializeStream

/-- What the two functions work on. -/
structure Machine where
  L : LuaState
  s : SerializeStream
  deriving DecidableEq

abbrev Seri := EStateM Failure Machine

section Bind
variable {α β : Type} {x : Seri α} {f : α → Seri β} {m m' : Machine}

theorem bind_ok {a : α} (h : x m = .ok a m') : (x >>= f) m = f a m' := by
  show EStateM.bind x f m = f a m'
  rw [EStateM.bind, h]

theorem bind_error {failure : Failure} (h : x m = .error failure m') :
    (x >>= f) m = .error failure m' := by
  show EStateM.bind x f m = .error failure m'
  rw [EStateM.bind, h]

end Bind

def onStream {α : Type} (f : SerializeStream → Except Failure (α × SerializeStream)) : Seri α :=
  fun m =>
    match f m.s with
    | .ok (a, s) => .ok a { m with s := s }
    | .error failure => .error failure m

def onStack (f : LuaState → LuaState) : Seri Unit := fun m => .ok () { m with L := f m.L }

def onLua (f : LuaState → Except Failure LuaState) : Seri Unit := fun m =>
  match f m.L with
  | .ok L => .ok () { m with L := L }
  | .error failure => .error failure m

theorem onLua_ok {f : LuaState → Except Failure LuaState} {m : Machine} {L : LuaState}
    (h : f m.L = .ok L) : onLua f m = .ok () { m with L := L } := by
  rw [onLua, h]

theorem onLua_error {f : LuaState → Except Failure LuaState} {m : Machine} {failure : Failure}
    (h : f m.L = .error failure) : onLua f m = .error failure m := by
  rw [onLua, h]

/-- `lua_pushlstring`. The slot is taken for a copy that leaves the buffer as well. -/
def pushlstring (buffer : List UInt8) (position len : Int) : Seri Unit := fun m =>
  match m.L.pushlstring buffer position len with
  | .ok L => .ok () { m with L := L }
  | .error failure => .error failure { m with L := if 0 ≤ len then m.L.claim else m.L }

theorem pushlstring_ok {buffer : List UInt8} {position len : Int} {m : Machine} {L : LuaState}
    (h : m.L.pushlstring buffer position len = .ok L) :
    pushlstring buffer position len m = .ok () { m with L := L } := by
  rw [pushlstring, h]

def luaError {α : Type} (message : String) : Seri α := fun m => .error (.error message) m

/-- `lua_next` -/
def next (index : Int) : Seri Bool := fun m =>
  match m.L.next index with
  | .ok (more, L) => .ok more { m with L := L }
  | .error failure => .error failure m

/-- The value at an index, which is inspected only. -/
def valueAt (index : Int) : Seri (Option LuaValue) := fun m => .ok (m.L.value? index) m

/-- `lseri::NIL` and so on. -/
def NIL : UInt8 := 0

def BOOLEAN : UInt8 := 1

def INT : UInt8 := 2

def DOUBLE : UInt8 := 3

def STRING : UInt8 := 4

def TABLE : UInt8 := 5

/-- A call of `s.write` in the functions below, with the error when it fails. -/
def put (src : List UInt8) : Seri Unit := do
  let done ← onStream (·.write src)
  if done then pure () else luaError "serialize buffer full"

def packNil : Seri Unit := put [NIL]

def packInteger (n : BitVec 64) : Seri Unit := do
  put [INT]
  put (toBytes 8 n.toNat)

def packDouble (bits : BitVec 64) : Seri Unit := do
  put [DOUBLE]
  put (toBytes 8 bits.toNat)

def packBoolean (b : Bool) : Seri Unit := do
  put [BOOLEAN]
  put [if b then 1 else 0]

def packString (bytes : List UInt8) : Seri Unit := do
  put [STRING]
  let done ← onStream (·.writeString bytes (s32 bytes.length))
  if done then pure () else luaError "serialize buffer full"

/-- `pack_table`, given its loop. -/
def packTable (entries : Seri Unit) : Seri Unit := do
  put [TABLE]
  onStack (·.push .nil)
  entries
  packNil

mutual

/-- `pack_one`, with `pack_number` as the two cases for numbers. -/
def packOne : Nat → Int → Seri Unit
  | 0, _ => throw .outOfFuel
  | fuel + 1, index => do
    match ← valueAt index with
    | some .nil => packNil
    | some (.integer n) => packInteger n
    | some (.number bits) => packDouble bits
    | some (.boolean b) => packBoolean b
    | some (.string bytes) => packString bytes
    | some (.table _) => do
      let m ← get
      packTable (packEntries fuel (if index < 0 then m.L.gettop + index + 1 else index))
    | some (.other typename _) => luaError ("Unsupport type " ++ typename ++ " to serialize")
    | none => luaError "Unsupport type no value to serialize"

/-- The loop of `pack_table`. -/
def packEntries : Nat → Int → Seri Unit
  | 0, _ => throw .outOfFuel
  | fuel + 1, index => do
    let more ← next index
    if more then do
      packOne fuel (-2)
      packOne fuel (-1)
      onStack (·.pop 1)
      packEntries fuel index
    else pure ()

end

/-- The loop of `l_serialize` from argument `i` on. -/
def packArgs (fuel : Nat) : Nat → Int → Seri Unit
  | 0, _ => pure ()
  | n + 1, i => do
    packOne fuel i
    packArgs fuel n (i + 1)

def lSerialize (memory : List UInt8) : Seri Nat := do
  modify fun m => { m with s := .alloc memory }
  let m ← get
  packArgs (2 * buffSize + 2) m.L.stack.length 1
  let m ← get
  pushlstring m.s.buffer 0 m.s.offset
  return 1

/-- A call of `s.read` in the functions below, with the error when it fails. -/
def fetch (k : Nat) : Seri (List UInt8) := do
  match ← onStream (·.read k) with
  | none => luaError "unserialize failed"
  | some bytes => pure bytes

/-- `push_table`, given its loop. -/
def pushTable (entries : Seri Unit) : Seri Unit := do
  onStack (·.newtable)
  entries

/-- `push_value`, given the loop of `push_table`. A `bool` is taken as true unless its byte
is 0; behind the bytes of a Lua string, which the buffer is, there is a zero. -/
def pushValue (entries : Seri Unit) (type : UInt8) : Seri Unit :=
  if type = NIL then onStack (·.push .nil)
  else if type = BOOLEAN then do
    let bytes ← fetch 1
    onStack (·.push (.boolean (bytes.getD 0 0 != 0)))
  else if type = INT then do
    let bytes ← fetch 8
    onStack (·.push (.integer (.ofNat 64 (ofBytes bytes))))
  else if type = DOUBLE then do
    let bytes ← fetch 8
    onStack (·.push (.number (.ofNat 64 (ofBytes bytes))))
  else if type = STRING then do
    match ← onStream (·.readString) with
    | none => luaError "unserialize failed"
    | some (position, len) => do
      let m ← get
      pushlstring (m.s.buffer ++ [0]) position len
  else if type = TABLE then pushTable entries
  else luaError ("Unsupport type " ++ toString type.toInt8.toInt ++ " to unserialize")

mutual

def pushOne : Nat → Seri Unit
  | 0 => throw .outOfFuel
  | fuel + 1 => do
    let type ← fetch 1
    pushValue (pushEntries fuel) (type.getD 0 0)

/-- The loop of `push_table`. -/
def pushEntries : Nat → Seri Unit
  | 0 => throw .outOfFuel
  | fuel + 1 => do
    pushOne fuel
    match ← valueAt (-1) with
    | some .nil => onStack (·.pop 1)
    | _ => do
      pushOne fuel
      onLua (·.rawset (-3))
      pushEntries fuel

end

/-- The loop of `l_unserialize` from value `i` on. -/
def pushValues (bound : Nat) : Nat → Nat → Seri Unit
  | 0, _ => throw .outOfFuel
  | fuel + 1, i => do
    onStack (fun L => if i % 16 = 15 then L.checkstack i else L)
    match ← onStream (·.read 1) with
    | none => pure ()
    | some type => do
      pushValue (pushEntries bound) (type.getD 0 0)
      pushValues bound fuel (i + 1)

/-- The call of `lua_checkstack` leaves what the round works on. -/
theorem checkstack_round (i : Nat) (m : Machine) :
    ∃ m', onStack (fun L => if i % 16 = 15 then L.checkstack i else L) m = .ok () m' ∧
      m'.s = m.s ∧ m'.L.stack = m.L.stack ∧ m'.L.heap = m.L.heap := by
  refine ⟨_, rfl, rfl, ?_, ?_⟩
  · show (if i % 16 = 15 then m.L.checkstack i else m.L).stack = m.L.stack
    split
    · exact LuaState.stack_checkstack m.L i
    · rfl
  · show (if i % 16 = 15 then m.L.checkstack i else m.L).heap = m.L.heap
    split
    · exact LuaState.heap_checkstack m.L i
    · rfl

/-- `l_unserialize` on a string, which its caller keeps alive. -/
def lUnserialize (bytes : List UInt8) : Seri Nat :=
  if bytes.length = 0 then pure 0
  else do
    modify fun m => { m with L := { m.L with stack := [] }, s := .ofString bytes }
    pushValues (2 * bytes.length + 2) (bytes.length + 1) 0
    let m ← get
    pure m.L.stack.length

/-- The state that a call ends in. -/
def final {α : Type} : EStateM.Result Failure Machine α → Machine
  | .ok _ m | .error _ m => m

/-- No value was pushed on a slot that was not ensured. -/
def Disciplined {α : Type} (r : EStateM.Result Failure Machine α) : Prop :=
  (final r).L.exceeded = false

/-- The outcome of a call is defined: no memory is accessed outside its bounds, and no slot is
used that was not ensured. -/
def Defined {α : Type} (r : EStateM.Result Failure Machine α) : Prop :=
  Disciplined r ∧ ∀ m, r ≠ .error .undefined m

/-- The values a C function returns. -/
def results (f : Seri Nat) (m : Machine) : EStateM.Result Failure Machine (List LuaValue) :=
  match f m with
  | .ok n m => .ok (m.L.stack.take n).reverse m
  | .error failure m => .error failure m

/-- It returns these, on slots that are ensured. -/
def Returns (r : EStateM.Result Failure Machine (List LuaValue)) (vs : List LuaValue)
    (m : Machine) : Prop :=
  r = .ok vs m ∧ Disciplined r

end HyperNet.ScriptEngine
