import HyperNet.ScriptEngine.Lua

/-! # Calls into scripts (ScriptEngine::Call)

`Call` works on the stack of the C function that is running on `s_state`. What it calls is known
here by what it does to the engine: a script goes back into C functions that use `Call` on stacks
of their own, and then returns or fails; a reader reads results and uses `Call` on the stack they
lie on. An `OASSERT` that fails is the end of the process. -/
namespace HyperNet.ScriptEngine

/-- `MAX_LUA_RESULT` -/
def maxLuaResult : Nat := 8

def LuaValue.isFunction : LuaValue → Bool
  | .other typename _ => typename == "function"
  | _ => false

def LuaValue.isTable : LuaValue → Bool
  | .table _ => true
  | _ => false

/-- `lua_tostring` has a string to give. -/
def LuaValue.isPrintable : LuaValue → Bool
  | .string _ | .integer _ | .number _ => true
  | _ => false

/-! ## The functions of Lua that Call uses -/

namespace LuaState

/-- `lua_rawget`: what is found takes the place of the key. -/
def rawget (L : LuaState) (v : LuaValue) : LuaState := { L with stack := v :: L.stack.drop 1 }

/-- `lua_insert`, at an index from the top. -/
def insert (L : LuaState) (index : Int) : LuaState :=
  match L.stack with
  | [] => L
  | top :: stack =>
    let above := (-index - 1).toNat
    { L with stack := stack.take above ++ top :: stack.drop above }

/-- `lua_pcall` has taken the function and its arguments away, and left `left` instead. -/
def pcall (L : LuaState) (argc : Nat) (left : List LuaValue) : LuaState :=
  { L with stack := left.reverse ++ L.stack.drop (argc + 1) }

def isFunction (L : LuaState) (index : Int) : Bool :=
  (L.value? index).any LuaValue.isFunction

end LuaState

/-- The results that a function returns, made `nresults`. -/
def adjust (nresults : Nat) (results : List LuaValue) : List LuaValue :=
  results.take nresults ++ List.replicate (nresults - results.length) .nil

/-! ## What is given to Call -/

/-- A letter of the format of `Call`, and the argument that is passed for it. -/
inductive Argument
  /-- `c`, `d`, `f` and `b`: `va_arg` of a type that no argument is passed as. -/
  | unpromoted
  /-- `i` and `l`. -/
  | integer (val : BitVec 64)
  /-- `s`: a null pointer is pushed as nil. -/
  | string (val : Option (List UInt8))
  /-- `S`. -/
  | buffer (val : List UInt8)
  /-- A letter that is no case of the switch. -/
  | none
  deriving DecidableEq

namespace Argument

/-- What is pushed for the letter. -/
def value? : Argument → Option LuaValue
  | .integer val => some (.integer val)
  | .string (some val) | .buffer val => some (.string val)
  | .string Option.none => some .nil
  | .unpromoted | .none => Option.none

end Argument

/-- What `PrepareCall` finds: `package`, `package.loaded` if `package` can be indexed, the module
and the function. The name of a module is cut off at 63 characters, and may find nothing. -/
structure Found where
  package : LuaValue
  loaded : Option LuaValue
  module : LuaValue
  func : LuaValue
  deriving DecidableEq

/-- How the function that is called ends: with results, or with what `lua_pcall` leaves of the
error. -/
inductive Outcome
  | results (vs : List LuaValue)
  | error (message : LuaValue)
  deriving DecidableEq

mutual

/-- A use of `Call` with all that happens in it; `trackback` is `__G__TRACKBACK__`. -/
inductive Invocation
  | mk (found : Found) (arguments : List Argument) (trackback : LuaValue) (script : Script)
    (reader : Reader)

/-- What the function does. -/
inductive Script
  | ends (outcome : Outcome)
  /-- It calls a C function that uses `Call` on its stack. -/
  | calls (L : LuaState) (call : Invocation) (next : Script)

/-- What the reader of the results does. -/
inductive Reader
  | done
  /-- `LuaResult::Read` -/
  | read (format : List Char) (next : Reader)
  | calls (call : Invocation) (next : Reader)

end

/-! ## The functions of ScriptEngine -/

/-- How a call ends: it returns, a Lua error goes through it, an `OASSERT` fails, or it does what
has no defined meaning. -/
inductive CallEnding
  | returned (ret : Bool)
  | thrown
  | aborted
  | undefined
  deriving DecidableEq

/-- There is something behind the call. -/
def CallEnding.goesOn : CallEnding → Bool
  | .returned _ | .thrown => true
  | .aborted | .undefined => false

/-- A result that a reader has looked at, among the results of its call. -/
structure Seen where
  results : List LuaValue
  i : Nat
  value : Option LuaValue
  deriving DecidableEq

structure Ran where
  ending : CallEnding
  L : LuaState
  seen : List Seen

/-- What comes behind a call, if that returns. -/
def Ran.andThen (r : Ran) (f : Bool → LuaState → Ran) : Ran :=
  match r.ending with
  | .returned ret => { f ret r.L with seen := r.seen ++ (f ret r.L).seen }
  | .thrown | .aborted | .undefined => r

/-- `lua_rawget` is defined for tables. What comes behind the two assertions in the source is for
builds without them. -/
def prepareCall (found : Found) (L : LuaState) : CallEnding × LuaState :=
  let L := L.push found.package
  match found.loaded with
  | none => (.thrown, L)
  | some loaded =>
    -- The names are pushed as the keys of the two lookups.
    let L := (L.push loaded).push (.string [])
    if loaded.isTable then
      let L := (L.rawget found.module).push (.string [])
      if found.module.isTable then
        let L := L.rawget found.func
        if L.isFunction (-1) then (.returned true, L) else (.aborted, L)
      else (.aborted, L)
    else (.undefined, L)

/-- The loop of `Call` over the format, with `count`. -/
def pushArguments : List Argument → LuaState → Option (Nat × LuaState)
  | [], L => some (0, L)
  | .unpromoted :: _, _ => none
  | argument :: arguments, L =>
    match argument.value? with
    | some v => (pushArguments arguments (L.push v)).map fun o => (o.1 + 1, o.2)
    | none => pushArguments arguments L

/-- `ExecuteFunction` up to `lua_pcall`: `traceback`, and the stack it is called on. -/
def findTraceback (functionIndex : Int) (trackback : LuaValue) (L : LuaState) : Int × LuaState :=
  let L := L.push trackback
  if L.isFunction (-1) then (functionIndex - 1, L.insert (functionIndex - 1))
  else (0, L.pop 1)

/-- The lambda in `Call` counts the results in front of the first nil. -/
def countResults (L : LuaState) : Nat :=
  ((List.range maxLuaResult).takeWhile fun (i : Nat) =>
    L.value? (-maxLuaResult + i) != some .nil).length

/-- The letters that `LuaResult::Read` has a case for. -/
def isLetter (c : Char) : Bool := ['c', 'd', 'i', 'l', 'f', 'b', 's', 'S'].contains c

/-- `LuaResult::Read` from `index` on: whether it gets to the end, and what it sees. -/
def readResults (results : List LuaValue) (L : LuaState) (count : Nat) :
    List Char → Nat → Bool × List Seen
  | [], _ => (true, [])
  | c :: format, index =>
    if count ≤ index then (false, [])
    else if isLetter c then
      let (ok, seen) := readResults results L count format (index + 1)
      (ok, ⟨results, index, L.value? (-maxLuaResult + index)⟩ :: seen)
    else readResults results L count format index

/-- The rest of `ExecuteFunction`, behind `lua_pcall`. -/
def finishFunction (argc : Nat) (traceback : Int) (L : LuaState) (reader : List LuaValue →
    LuaState → Ran) : Outcome → Ran
  | .error message =>
    let L := L.pcall argc [message]
    if traceback = 0 then
      if message.isPrintable then ⟨.returned false, L.pop 1, []⟩ else ⟨.undefined, L, []⟩
    else ⟨.returned false, L.pop 2, []⟩
  | .results results =>
    (reader results (L.pcall argc (adjust maxLuaResult results))).andThen fun _ L =>
      let L := L.pop maxLuaResult
      ⟨.returned true, if traceback = 0 then L else L.pop 1, []⟩

/-- `ExecuteFunction`. The script is run as `lua_pcall` calls it. -/
def executeFunction (argc : Nat) (trackback : LuaValue) (script : Option Outcome × List Seen)
    (reader : List LuaValue → LuaState → Ran) (L : LuaState) : Ran :=
  let functionIndex : Int := -(argc + 1)
  if L.isFunction functionIndex then
    let (traceback, L) := findTraceback functionIndex trackback L
    match script with
    | (none, seen) => ⟨.undefined, L, seen⟩
    | (some outcome, seen) =>
      let r := finishFunction argc traceback L reader outcome
      { r with seen := seen ++ r.seen }
  else ⟨.aborted, L, []⟩

mutual

/-- `ScriptEngine::Call` -/
def Invocation.run : Invocation → LuaState → Ran
  | .mk found arguments trackback script reader, L =>
    match prepareCall found L with
    | (.returned true, L) =>
      match pushArguments arguments L with
      | none => ⟨.undefined, L, []⟩
      | some (count, L) =>
        (executeFunction count trackback script.run
          (fun results L => reader.run results (countResults L) L) L).andThen
            fun ret L => ⟨.returned ret, L.pop 3, []⟩
    | (ending, L) => ⟨ending, L, []⟩

/-- The outcome, unless something on the way is the end of the process. -/
def Script.run : Script → Option Outcome × List Seen
  | .ends outcome => (some outcome, [])
  | .calls L call next =>
    let r := call.run L
    let (outcome, seen) := next.run
    (if r.ending.goesOn = false ∨ r.L.exceeded = true then none else outcome, r.seen ++ seen)

def Reader.run (results : List LuaValue) (count : Nat) : Reader → LuaState → Ran
  | .done, L => ⟨.returned true, L, []⟩
  | .read format next, L =>
    let (ok, seen) := readResults results L count format 0
    if ok then
      let r := next.run results count L
      { r with seen := seen ++ r.seen }
    else ⟨.aborted, L, seen⟩
  | .calls call next, L => (call.run L).andThen fun _ L => next.run results count L

end

/-! ## The arguments of a C function (LuaReader)

What `lobject.c` makes of strings that look like numbers, and of numbers, is a parameter. -/

structure Conversions where
  /-- `luaO_str2num` of a whole string. -/
  str2num : List UInt8 → Option LuaValue
  /-- `luaO_tostring` -/
  tostring : LuaValue → List UInt8
  /-- `lua_tonumber`, made a `float`. -/
  tofloat : LuaValue → BitVec 32

namespace Conversions

/-- `lua_tointeger` -/
def tointeger (c : Conversions) (v : LuaValue) : BitVec 64 :=
  let ofNumber : LuaValue → BitVec 64
    | .integer n => n
    | .number bits => (Double.toInteger? bits).getD 0
    | _ => 0
  match v with
  | .string bytes => ((c.str2num bytes).map ofNumber).getD 0
  | v => ofNumber v

/-- `lua_tolstring`, but that it leaves a number a number; none is a null pointer. -/
def tolstring (c : Conversions) : LuaValue → Option (List UInt8)
  | .string bytes => some bytes
  | .integer n => some (c.tostring (.integer n))
  | .number bits => some (c.tostring (.number bits))
  | _ => none

end Conversions

/-- `lua_toboolean` -/
def LuaValue.toboolean : LuaValue → Bool
  | .nil | .boolean false => false
  | _ => true

/-- What `Read` stores for a letter of its format. -/
inductive Stored
  | c (val : Int8)
  | d (val : Int16)
  | i (val : Int32)
  | l (val : Int64)
  | f (val : BitVec 32)
  | b (val : Bool)
  /-- Up to the first zero. -/
  | s (val : Option (List UInt8))
  | S (val : Option (List UInt8)) (len : Int32)
  deriving DecidableEq

/-- One letter of the format of `LuaReader::Read`; none if it is no case of the switch. -/
def store (c : Conversions) (letter : Char) (v : LuaValue) : Option Stored :=
  match letter with
  | 'c' => some (.c ⟨⟨(c.tointeger v).setWidth 8⟩⟩)
  | 'd' => some (.d ⟨⟨(c.tointeger v).setWidth 16⟩⟩)
  | 'i' => some (.i ⟨⟨(c.tointeger v).setWidth 32⟩⟩)
  | 'l' => some (.l ⟨⟨c.tointeger v⟩⟩)
  | 'f' => some (.f (c.tofloat v))
  | 'b' => some (.b v.toboolean)
  | 's' => some (.s ((c.tolstring v).map fun bytes => bytes.takeWhile (· != 0)))
  | 'S' => some (.S (c.tolstring v) (.ofInt ((c.tolstring v).getD []).length))
  | _ => none

/-- The loop of `LuaReader::Read` from an argument on. -/
def readArguments (c : Conversions) (message : String) (args : List LuaValue) :
    List Char → Nat → Except Failure (List Stored)
  | [], _ => .ok []
  | letter :: format, index =>
    match args[index]? with
    | none => .error (.error message)
    | some v =>
      match store c letter v with
      | some x => (readArguments c message args format (index + 1)).map (x :: ·)
      | none => readArguments c message args format index

/-- `LuaReader::Read` on the arguments of a C function. -/
def LuaReader.read (c : Conversions) (format : String) (args : List LuaValue) :
    Except Failure (List Stored) :=
  readArguments c ("param is not enough " ++ format) args format.toList 0

end HyperNet.ScriptEngine
