import HyperNet.ScriptEngine.Call

/-! # Call leaves the stack as it found it

The pushes and pops of `PrepareCall`, `ExecuteFunction` and `Call` add up on every way out, also
where the reader or the script uses `Call` again. What they do not see to is that the module and
the function are there, and the slots they push on, that the arguments of a format can be read,
and that an error can be printed. -/
namespace HyperNet.ScriptEngine

/-! ## When everything a call does is defined -/

namespace Argument

/-- How many slots the arguments take. -/
def pushed (arguments : List Argument) : Nat := (arguments.filterMap value?).length

end Argument

/-- The results in front of the first nil, of those that `lua_pcall` leaves. -/
def counted (results : List LuaValue) : Nat :=
  ((adjust maxLuaResult results).takeWhile (· != .nil)).length

/-- A format that asks for no more results than there are. -/
def enough (count : Nat) : List Char → Nat → Bool
  | [], _ => true
  | c :: format, index =>
    decide (index < count) && enough count format (if isLetter c then index + 1 else index)

def Script.outcome : Script → Outcome
  | .ends outcome => outcome
  | .calls _ _ next => next.outcome

mutual

/-- `package` cannot be indexed, here or in a `Call` of the reader. -/
def Invocation.throws : Invocation → Bool
  | .mk found _ _ script reader =>
    found.loaded.isNone ||
      match script.outcome with
      | .results _ => reader.throws
      | .error _ => false

def Reader.throws : Reader → Bool
  | .done => false
  | .read _ next => next.throws
  | .calls call next => call.throws || next.throws

end

mutual

/-- From a stack of this height, with so many slots: what is looked up in is a table and has the
function, the slots are there for what is pushed, the arguments are of types that are passed,
without a handler an error is a string or a number, and a reader asks for results that are
there. -/
def Invocation.Fits : Invocation → (height slots : Nat) → Prop
  | .mk found arguments trackback script reader, height, slots =>
    match found.loaded with
    | none => height + 1 ≤ slots
    | some loaded =>
      (loaded.isTable = true ∧ found.module.isTable = true ∧ found.func.isFunction = true) ∧
      (height + 4 + Argument.pushed arguments + 1 ≤ slots ∧ Argument.unpromoted ∉ arguments) ∧
      script.Fits ∧
      match script.outcome with
      | .error message => trackback.isFunction = true ∨ message.isPrintable = true
      | .results results => reader.Fits (counted results)
          (height + 3 + trackback.isFunction.toNat + maxLuaResult) slots

def Script.Fits : Script → Prop
  | .ends _ => True
  | .calls L call next =>
    (L.exceeded = false ∧ call.Fits L.stack.length L.slots) ∧ next.Fits

def Reader.Fits (count : Nat) : Reader → (height slots : Nat) → Prop
  | .done, _, _ => True
  | .read format next, height, slots =>
    enough count format 0 = true ∧ next.Fits count height slots
  | .calls call next, height, slots =>
    call.Fits height slots ∧ (call.throws = false → next.Fits count height slots)

end

/-! ## The functions of Lua -/

namespace LuaState

@[simp] theorem stack_push (L : LuaState) (v : LuaValue) : (L.push v).stack = v :: L.stack := rfl

@[simp] theorem slots_push (L : LuaState) (v : LuaValue) : (L.push v).slots = L.slots := rfl

theorem exceeded_push (L : LuaState) (v : LuaValue) :
    (L.push v).exceeded = false ↔ L.exceeded = false ∧ L.stack.length < L.slots := by
  simp [push, claim]

@[simp] theorem stack_rawget (L : LuaState) (v : LuaValue) :
    (L.rawget v).stack = v :: L.stack.drop 1 := rfl

@[simp] theorem slots_rawget (L : LuaState) (v : LuaValue) : (L.rawget v).slots = L.slots := rfl

@[simp] theorem exceeded_rawget (L : LuaState) (v : LuaValue) :
    (L.rawget v).exceeded = L.exceeded := rfl

@[simp] theorem stack_pop (L : LuaState) (n : Nat) : (L.pop n).stack = L.stack.drop n := rfl

@[simp] theorem slots_pop (L : LuaState) (n : Nat) : (L.pop n).slots = L.slots := rfl

/-- The value under `above` others. -/
theorem value?_below {L : LuaState} {above rest : List LuaValue} {v : LuaValue}
    (h : L.stack = above ++ v :: rest) : L.value? (-(above.length + 1)) = some v := by
  have hindex : (-(-(above.length + 1 : Int)) - 1).toNat = above.length := by omega
  rw [value?, stackValue?, if_neg (by omega), if_pos (by omega), hindex, h,
    List.getElem?_append_right (Nat.le_refl _), Nat.sub_self]
  rfl

theorem value?_top {L : LuaState} {rest : List LuaValue} {v : LuaValue} (h : L.stack = v :: rest) :
    L.value? (-1) = some v := by
  have hbelow : L.stack = [] ++ v :: rest := h
  exact value?_below hbelow

/-- `lua_insert` moves the top under the values that are above the index. -/
theorem stack_insert {L : LuaState} {above rest : List LuaValue} {top : LuaValue}
    (h : L.stack = top :: (above ++ rest)) :
    (L.insert (-(above.length + 1))).stack = above ++ top :: rest := by
  have hindex : (-(-(above.length + 1 : Int)) - 1).toNat = above.length := by omega
  simp only [insert, h, hindex, List.take_left, List.drop_left]

@[simp] theorem slots_insert (L : LuaState) (index : Int) : (L.insert index).slots = L.slots := by
  unfold insert
  split <;> rfl

@[simp] theorem exceeded_insert (L : LuaState) (index : Int) :
    (L.insert index).exceeded = L.exceeded := by
  unfold insert
  split <;> rfl

end LuaState

theorem length_adjust (n : Nat) (results : List LuaValue) : (adjust n results).length = n := by
  simp only [adjust, List.length_append, List.length_take, List.length_replicate]
  omega

theorem getElem?_adjust {n i : Nat} (results : List LuaValue) (h : i < n) :
    (adjust n results)[i]? = some (results.getD i .nil) := by
  rw [adjust, List.getD_eq_getElem?_getD]
  by_cases hi : i < results.length
  · rw [List.getElem?_append_left (by simp; omega), List.getElem?_take_of_lt h,
      List.getElem?_eq_getElem hi, Option.getD_some]
  · rw [List.getElem?_append_right (by simp; omega), List.getElem?_replicate,
      List.getElem?_eq_none (by omega), Option.getD_none, if_pos (by simp; omega)]

/-! ## Where the results are -/

/-- The results lie on top of the stack, the first lowest. -/
def Holds (L : LuaState) (results : List LuaValue) : Prop :=
  ∃ rest, L.stack = (adjust maxLuaResult results).reverse ++ rest

theorem Holds.value? {L : LuaState} {results : List LuaValue} (h : Holds L results) {i : Nat}
    (hi : i < maxLuaResult) :
    L.value? (-maxLuaResult + i) = some (results.getD i .nil) := by
  obtain ⟨rest, h⟩ := h
  have hlen : (adjust maxLuaResult results).reverse.length = maxLuaResult := by
    rw [List.length_reverse, length_adjust]
  have hindex : (-(-(maxLuaResult : Int) + i) - 1).toNat = maxLuaResult - 1 - i := by omega
  rw [LuaState.value?, stackValue?, if_neg (by omega), if_pos (by omega), hindex, h,
    List.getElem?_append_left (by omega), List.getElem?_reverse (by rw [length_adjust]; omega),
    length_adjust, ← getElem?_adjust results hi]
  congr 1
  omega

theorem Holds.count {L : LuaState} {results : List LuaValue} (h : Holds L results) :
    countResults L = counted results := by
  have hmap : adjust maxLuaResult results =
      (List.range maxLuaResult).map fun i => results.getD i .nil := by
    refine List.ext_getElem? fun i => ?_
    by_cases hi : i < maxLuaResult
    · rw [getElem?_adjust results hi]
      simp [hi]
    · rw [List.getElem?_eq_none (by rw [length_adjust]; omega)]
      simp [hi]
  have htake : ∀ is : List Nat, (∀ i ∈ is, i < maxLuaResult) →
      (is.takeWhile fun (i : Nat) => L.value? (-maxLuaResult + i) != some .nil) =
        is.takeWhile ((· != LuaValue.nil) ∘ fun i => results.getD i .nil) := by
    intro is his
    induction is with
    | nil => rfl
    | cons i is ih =>
      have hvalue := h.value? (his i List.mem_cons_self)
      simp only [List.takeWhile_cons, hvalue, Function.comp_apply,
        ih fun j hj => his j (List.mem_cons_of_mem i hj)]
      congr 1
  rw [countResults, htake _ fun i hi => List.mem_range.mp hi, counted, hmap, List.takeWhile_map,
    List.length_map]

/-- `Read` gets to its end where there are enough results, and sees the right ones. -/
theorem readResults_spec {L : LuaState} {results : List LuaValue} (h : Holds L results)
    {count : Nat} (hcount : count ≤ maxLuaResult) (format : List Char) (index : Nat) :
    (readResults results L count format index).1 = enough count format index ∧
      ∀ x ∈ (readResults results L count format index).2,
        x.i < maxLuaResult ∧ x.value = some (x.results.getD x.i .nil) := by
  induction format generalizing index with
  | nil => exact ⟨rfl, nofun⟩
  | cons c format ih =>
    rw [readResults, enough]
    split
    · next hle => exact ⟨by simp [Nat.not_lt.mpr hle], nofun⟩
    · next hlt =>
      have hlt : index < count := by omega
      split
      · obtain ⟨hok, hseen⟩ := ih (index + 1)
        refine ⟨by simp [hlt, hok], fun x hx => ?_⟩
        rcases List.mem_cons.mp hx with rfl | hx
        · exact ⟨Nat.lt_of_lt_of_le hlt hcount, h.value? (by omega)⟩
        · exact hseen x hx
      · obtain ⟨hok, hseen⟩ := ih index
        exact ⟨by simp [hlt, hok], hseen⟩

theorem counted_le (results : List LuaValue) : counted results ≤ maxLuaResult := by
  have := (List.takeWhile_prefix (· != LuaValue.nil) (l := adjust maxLuaResult results)).length_le
  rwa [length_adjust] at this

/-! ## What a call comes to -/

/-- The reader has seen the result that it asked for. -/
def Seen.Right (x : Seen) : Prop :=
  x.i < maxLuaResult ∧ x.value = some (x.results.getD x.i .nil)

/-- From a state with so many slots: there is something behind it exactly where `fits` holds, it
returns unless it `throws`, and what it leaves when it returns is `stack`. -/
structure Behaves (r : Ran) (exceeded : Bool) (slots : Nat) (stack : List LuaValue) (fits : Prop)
    (throws : Bool) : Prop where
  safe : r.ending.goesOn = true ∧ r.L.exceeded = false ↔ exceeded = false ∧ fits
  returns : r.ending.goesOn = true → throws = false → ∃ ret, r.ending = .returned ret
  thrown : r.ending.goesOn = true → throws = true → r.ending = .thrown
  stack_eq : ∀ ret, r.ending = .returned ret → r.L.stack = stack ∧ r.L.slots = slots
  seen : ∀ x ∈ r.seen, x.Right

namespace Behaves
variable {r : Ran} {L : LuaState} {exceeded : Bool} {slots : Nat} {stack stack' : List LuaValue}
  {fits fits' : Prop} {throws throws' : Bool}

theorem returned (ret : Bool) (L : LuaState) (h : L.stack = stack) (hf : fits) :
    Behaves ⟨.returned ret, L, []⟩ L.exceeded L.slots stack fits false where
  safe := by simp [CallEnding.goesOn, hf]
  returns _ _ := ⟨ret, rfl⟩
  thrown _ h := by cases h
  stack_eq _ _ := ⟨h, rfl⟩
  seen := nofun

/-- The process ends, or what it does is not defined. -/
theorem stopped {ending : CallEnding} {seen : List Seen} (hseen : ∀ x ∈ seen, x.Right)
    (hending : ending.goesOn = false) (hf : ¬ fits) :
    Behaves ⟨ending, L, seen⟩ exceeded slots stack fits throws where
  safe := ⟨fun h => absurd (h.1.symm.trans hending) (by decide), fun h => absurd h.2 hf⟩
  returns h := absurd (h.symm.trans hending) (by decide)
  thrown h := absurd (h.symm.trans hending) (by decide)
  stack_eq _ h := by
    have h : ending = .returned _ := h
    rw [h] at hending
    cases hending
  seen := hseen

theorem threw {seen : List Seen} (hseen : ∀ x ∈ seen, x.Right) (hf : fits) :
    Behaves ⟨.thrown, L, seen⟩ L.exceeded slots stack fits true where
  safe := by simp [CallEnding.goesOn, hf]
  returns _ h := by cases h
  thrown _ _ := rfl
  stack_eq _ h := by cases h
  seen := hseen

theorem congr (h : Behaves r exceeded slots stack fits throws) (hf : fits ↔ fits') :
    Behaves r exceeded slots stack fits' throws :=
  ⟨h.safe.trans (and_congr_right fun _ => hf), h.returns, h.thrown, h.stack_eq, h.seen⟩

/-- What was seen before. -/
theorem after {seen : List Seen} (h : Behaves r exceeded slots stack fits throws)
    (hseen : ∀ x ∈ seen, x.Right) :
    Behaves { r with seen := seen ++ r.seen } exceeded slots stack fits throws :=
  ⟨h.safe, h.returns, h.thrown, h.stack_eq, List.forall_mem_append.mpr ⟨hseen, h.seen⟩⟩

/-- Something else has been checked before, with its push. -/
theorem pushed (h : Behaves r L.exceeded slots stack fits throws) {before : Prop}
    (hL : L.exceeded = false ↔ exceeded = false ∧ before) :
    Behaves r exceeded slots stack (before ∧ fits) throws :=
  ⟨h.safe.trans (by rw [hL, and_assoc]), h.returns, h.thrown, h.stack_eq, h.seen⟩

theorem andThen_of_stopped (h : Behaves r exceeded slots stack fits throws)
    (hr : r.ending.goesOn = false) {f : Bool → LuaState → Ran} :
    Behaves (r.andThen f) exceeded slots stack' (fits ∧ fits') (throws || throws') := by
  have hand : r.andThen f = r := by
    cases he : r.ending with
    | returned => rw [he] at hr; cases hr
    | thrown | aborted | undefined => simp only [Ran.andThen, he]
  have hnot : ¬ (exceeded = false ∧ fits) := fun hf =>
    absurd ((h.safe.mpr hf).1.symm.trans hr) (by decide)
  rw [hand]
  refine ⟨⟨fun hs => absurd (hs.1.symm.trans hr) (by decide), fun hs => ?_⟩,
    fun hs => absurd (hs.symm.trans hr) (by decide),
    fun hs => absurd (hs.symm.trans hr) (by decide), fun ret he => ?_, h.seen⟩
  · exact absurd ⟨hs.1, hs.2.1⟩ hnot
  · rw [he] at hr
    cases hr

theorem andThen (h : Behaves r exceeded slots stack fits throws) {f : Bool → LuaState → Ran}
    (hf : ∀ ret L, L.stack = stack → L.slots = slots →
      Behaves (f ret L) L.exceeded slots stack' fits' throws') :
    Behaves (r.andThen f) exceeded slots stack' (fits ∧ (throws = false → fits'))
      (throws || throws') := by
  cases hr : r.ending with
  | returned ret =>
    have hthrows : throws = false := by
      by_contra ht
      have := h.thrown (by rw [hr]; rfl) (by simpa using ht)
      rw [hr] at this
      cases this
    obtain ⟨hstack, hslots⟩ := h.stack_eq ret hr
    have hsafe := h.safe
    simp only [hr, CallEnding.goesOn, true_and] at hsafe
    have hb := (hf ret r.L hstack hslots).pushed hsafe
    have hand : r.andThen f = { f ret r.L with seen := r.seen ++ (f ret r.L).seen } := by
      simp only [Ran.andThen, hr]
    rw [hand, hthrows]
    exact (hb.after h.seen).congr (by simp)
  | thrown =>
    have hthrows : throws = true := by
      by_contra ht
      obtain ⟨ret, he⟩ := h.returns (by rw [hr]; rfl) (by simpa using ht)
      rw [hr] at he
      cases he
    have hand : r.andThen f = r := by simp only [Ran.andThen, hr]
    rw [hand, hthrows]
    refine ⟨h.safe.trans (by simp), nofun, fun _ _ => hr, ?_, h.seen⟩
    intro ret he
    rw [hr] at he
    cases he
  | aborted | undefined => exact h.andThen_of_stopped (by rw [hr]; rfl)

/-- What a call that returns has left is only popped from. -/
theorem andPop (h : Behaves r exceeded slots stack fits throws) (ret : Bool → Bool)
    (g : LuaState → LuaState)
    (hg : ∀ L, L.stack = stack →
      (g L).stack = stack' ∧ (g L).slots = L.slots ∧ (g L).exceeded = L.exceeded) :
    Behaves (r.andThen fun b L => ⟨.returned (ret b), g L, []⟩) exceeded slots stack' fits
      throws := by
  have hthen : Behaves (r.andThen fun b L => ⟨.returned (ret b), g L, []⟩) exceeded slots stack'
      (fits ∧ (throws = false → True)) (throws || false) :=
    h.andThen fun b L hstack hslots => by
      obtain ⟨hstack', hslots', hexceeded⟩ := hg L hstack
      have hreturned := Behaves.returned (ret b) (g L) hstack' trivial
      rwa [hexceeded, hslots', hslots] at hreturned
  rw [Bool.or_false] at hthen
  exact hthen.congr (by simp)

end Behaves

/-! ## The pushes and pops of each function -/

/-- `PrepareCall` pushes four values. -/
theorem prepareCall_eq {found : Found} {loaded : LuaValue} (hloaded : found.loaded = some loaded)
    (hfound : loaded.isTable = true ∧ found.module.isTable = true ∧ found.func.isFunction = true)
    (L : LuaState) :
    ∃ L' : LuaState, prepareCall found L = (.returned true, L') ∧
      L'.stack = found.func :: found.module :: loaded :: found.package :: L.stack ∧
      L'.slots = L.slots ∧
      (L'.exceeded = false ↔ L.exceeded = false ∧ L.stack.length + 4 ≤ L.slots) := by
  let L₁ := (L.push found.package).push loaded
  let L₂ := (L₁.push (.string [])).rawget found.module
  let L₃ := (L₂.push (.string [])).rawget found.func
  have hfunction : L₃.isFunction (-1) = true := by
    rw [LuaState.isFunction, LuaState.value?_top (LuaState.stack_rawget _ _), Option.any_some,
      hfound.2.2]
  refine ⟨L₃, ?_, rfl, rfl, ?_⟩
  · simp only [prepareCall, hloaded, hfound.1, hfound.2.1, if_true]
    exact if_pos hfunction
  · simp only [L₁, L₂, L₃, LuaState.exceeded_rawget, LuaState.exceeded_push,
      LuaState.stack_rawget, LuaState.stack_push, LuaState.slots_rawget, LuaState.slots_push,
      List.length_cons, List.drop_succ_cons, List.drop_zero, and_assoc]
    exact and_congr_right fun _ => by omega

/-- Without one of them, nothing comes behind it. -/
theorem prepareCall_stops {found : Found} {loaded : LuaValue}
    (hloaded : found.loaded = some loaded)
    (hfound : ¬ (loaded.isTable = true ∧ found.module.isTable = true ∧
      found.func.isFunction = true)) (L : LuaState) :
    ∃ ending L', prepareCall found L = (ending, L') ∧ ending.goesOn = false := by
  simp only [prepareCall, hloaded]
  split
  · next htable =>
    split
    · next hmodule =>
      have hfunc : ¬ found.func.isFunction = true := fun hfunc => hfound ⟨htable, hmodule, hfunc⟩
      rw [LuaState.isFunction, LuaState.value?_top (LuaState.stack_rawget _ _), Option.any_some,
        if_neg hfunc]
      exact ⟨_, _, rfl, rfl⟩
    · exact ⟨_, _, rfl, rfl⟩
  · exact ⟨_, _, rfl, rfl⟩

theorem pushArguments_none {arguments : List Argument} (h : Argument.unpromoted ∈ arguments)
    (L : LuaState) : pushArguments arguments L = none := by
  induction arguments generalizing L with
  | nil => cases h
  | cons argument arguments ih =>
    cases argument with
    | unpromoted => rfl
    | integer val | buffer val =>
      simp only [pushArguments, Argument.value?]
      rw [ih (by simpa using h), Option.map_none]
    | string val =>
      cases val <;>
      · simp only [pushArguments, Argument.value?]
        rw [ih (by simpa using h), Option.map_none]
    | none =>
      simp only [pushArguments, Argument.value?]
      exact ih (by simpa using h) L

/-- One value is pushed for each letter that has one, and counted. -/
theorem pushArguments_some {arguments : List Argument} (h : Argument.unpromoted ∉ arguments)
    (L : LuaState) :
    ∃ L' : LuaState, pushArguments arguments L = some (Argument.pushed arguments, L') ∧
      L'.stack = (arguments.filterMap Argument.value?).reverse ++ L.stack ∧
      L'.slots = L.slots ∧
      (L'.exceeded = false ↔ L.exceeded = false ∧ (0 < Argument.pushed arguments →
        L.stack.length + Argument.pushed arguments ≤ L.slots)) := by
  induction arguments generalizing L with
  | nil => exact ⟨L, rfl, rfl, rfl, by simp [Argument.pushed]⟩
  | cons argument arguments ih =>
    rw [List.mem_cons, not_or] at h
    cases hv : argument.value? with
    | none =>
      obtain ⟨L', heq, hstack, hslots, hexceeded⟩ := ih h.2 L
      have hpushed : Argument.pushed (argument :: arguments) = Argument.pushed arguments := by
        rw [Argument.pushed, List.filterMap_cons_none hv, Argument.pushed]
      refine ⟨L', ?_, ?_, hslots, ?_⟩
      · rw [pushArguments, hv, hpushed]
        exacts [heq, Ne.symm h.1]
      · rw [List.filterMap_cons_none hv, hstack]
      · rw [hpushed, hexceeded]
    | some v =>
      obtain ⟨L', heq, hstack, hslots, hexceeded⟩ := ih h.2 (L.push v)
      have hpushed : Argument.pushed (argument :: arguments) = Argument.pushed arguments + 1 := by
        rw [Argument.pushed, List.filterMap_cons_some hv, List.length_cons, Argument.pushed]
      refine ⟨L', ?_, ?_, hslots, ?_⟩
      · rw [pushArguments, hv, hpushed]
        · simp only [heq, Option.map_some]
        · exact Ne.symm h.1
      · rw [List.filterMap_cons_some hv, List.reverse_cons, List.append_assoc, hstack,
          LuaState.stack_push, List.singleton_append]
      · rw [hpushed, hexceeded, LuaState.exceeded_push, LuaState.stack_push,
          LuaState.slots_push, List.length_cons, and_assoc]
        exact and_congr_right fun _ => by omega

/-- The handler under the function, if there is one. -/
def handler (trackback : LuaValue) : List LuaValue :=
  if trackback.isFunction then [trackback] else []

theorem length_handler (trackback : LuaValue) :
    (handler trackback).length = trackback.isFunction.toNat := by
  unfold handler
  cases trackback.isFunction <;> rfl

theorem findTraceback_spec {L : LuaState} {above rest : List LuaValue} {func : LuaValue}
    (h : L.stack = above ++ func :: rest) (trackback : LuaValue) :
    ∃ traceback L', findTraceback (-(above.length + 1)) trackback L = (traceback, L') ∧
      (traceback = 0 ↔ trackback.isFunction = false) ∧
      L'.stack = above ++ func :: (handler trackback ++ rest) ∧ L'.slots = L.slots ∧
      (L'.exceeded = false ↔ L.exceeded = false ∧ L.stack.length < L.slots) := by
  have hfunction : (L.push trackback).isFunction (-1) = trackback.isFunction := by
    rw [LuaState.isFunction, LuaState.value?_top (LuaState.stack_push _ _), Option.any_some]
  cases htrackback : trackback.isFunction with
  | false =>
    refine ⟨0, (L.push trackback).pop 1, ?_, by simp, ?_, rfl,
      LuaState.exceeded_push L trackback⟩
    · simp only [findTraceback, hfunction, htrackback, Bool.false_eq_true, if_false]
    · rw [handler, htrackback]
      exact h
  | true =>
    refine ⟨-(above.length + 1) - 1, (L.push trackback).insert (-(above.length + 1) - 1), ?_,
      ?_, ?_, ?_, ?_⟩
    · simp only [findTraceback, hfunction, htrackback, if_true]
    · simp only [Bool.true_eq_false, iff_false]
      omega
    · have hindex : (-(above.length + 1) - 1 : Int) = -((above ++ [func]).length + 1 : Nat) := by
        rw [List.length_append, List.length_singleton]
        omega
      have hstack : (L.push trackback).stack = trackback :: ((above ++ [func]) ++ rest) := by
        rw [LuaState.stack_push, h, List.append_assoc, List.singleton_append]
      have hinsert := LuaState.stack_insert hstack
      rw [hindex]
      refine hinsert.trans ?_
      rw [handler, htrackback, List.append_assoc]
      rfl
    · rw [LuaState.slots_insert, LuaState.slots_push]
    · rw [LuaState.exceeded_insert, LuaState.exceeded_push]

/-! ## ExecuteFunction -/

/-- What the outcome asks of the handler and the reader. -/
def Outcome.Fits (trackback : LuaValue) (fits : List LuaValue → Prop) : Outcome → Prop
  | .error message => trackback.isFunction = true ∨ message.isPrintable = true
  | .results vs => fits vs

def Outcome.throws (throws : List LuaValue → Bool) : Outcome → Bool
  | .error _ => false
  | .results vs => throws vs

section
variable {reader : List LuaValue → LuaState → Ran} {fits : List LuaValue → Prop}
  {throws : List LuaValue → Bool} {trackback : LuaValue} {above rest : List LuaValue}
  {func : LuaValue} {L : LuaState}

theorem finishFunction_behaves (h : L.stack = above ++ func :: (handler trackback ++ rest))
    {traceback : Int} (htraceback : traceback = 0 ↔ trackback.isFunction = false)
    (hreader : ∀ results L', Holds L' results → L'.slots = L.slots →
      L'.stack.length = rest.length + trackback.isFunction.toNat + maxLuaResult →
      Behaves (reader results L') L'.exceeded L'.slots L'.stack (fits results) (throws results))
    (outcome : Outcome) :
    Behaves (finishFunction above.length traceback L reader outcome) L.exceeded L.slots rest
      (outcome.Fits trackback fits) (outcome.throws throws) := by
  have hpcall (left : List LuaValue) :
      (L.pcall above.length left).stack = left.reverse ++ (handler trackback ++ rest) := by
    have hdrop : L.stack.drop (above.length + 1) = handler trackback ++ rest := by
      rw [h, ← List.drop_drop, List.drop_left, List.drop_succ_cons, List.drop_zero]
    rw [LuaState.pcall, hdrop]
  have hdrop (L' : LuaState) (h' : L'.stack = handler trackback ++ rest) :
      (if traceback = 0 then L' else L'.pop 1).stack = rest := by
    split
    · next ht => rw [h', handler, htraceback.mp ht, if_neg Bool.false_ne_true, List.nil_append]
    · next ht =>
      have ht : trackback.isFunction = true := by simpa [htraceback] using ht
      rw [LuaState.stack_pop, h', handler, if_pos ht, List.singleton_append, List.drop_one,
        List.tail_cons]
  cases outcome with
  | error message =>
    have hpop := hdrop ((L.pcall above.length [message]).pop 1) (by
      rw [LuaState.stack_pop, hpcall, List.reverse_singleton, List.singleton_append,
        List.drop_one, List.tail_cons])
    by_cases ht : traceback = 0
    · rw [if_pos ht] at hpop
      have htrackback := htraceback.mp ht
      by_cases hprint : message.isPrintable = true
      · simp only [finishFunction, if_pos ht, if_pos hprint]
        exact Behaves.returned false ((L.pcall above.length [message]).pop 1) hpop
          (Or.inr hprint)
      · simp only [finishFunction, if_pos ht, if_neg hprint]
        exact Behaves.stopped nofun rfl (by simp [Outcome.Fits, htrackback, hprint])
    · rw [if_neg ht] at hpop
      have htrackback : trackback.isFunction = true := by simpa [htraceback] using ht
      simp only [finishFunction, if_neg ht]
      exact Behaves.returned false ((L.pcall above.length [message]).pop 2)
        (by rw [← hpop]; simp) (Or.inl htrackback)
  | results vs =>
    have hstack := hpcall (adjust maxLuaResult vs)
    have hlen : (adjust maxLuaResult vs).reverse.length = maxLuaResult := by
      rw [List.length_reverse, length_adjust]
    have hread := hreader vs (L.pcall above.length (adjust maxLuaResult vs)) ⟨_, hstack⟩ rfl (by
      rw [hstack, List.length_append, hlen, List.length_append, length_handler]
      omega)
    exact hread.andPop (fun _ => true)
      (fun L => if traceback = 0 then L.pop maxLuaResult else (L.pop maxLuaResult).pop 1)
      fun L' hL' => by
        refine ⟨hdrop (L'.pop maxLuaResult) ?_, ?_, ?_⟩
        · rw [LuaState.stack_pop, hL', hstack, List.drop_left' hlen]
        · split <;> rfl
        · split <;> rfl

theorem executeFunction_behaves (h : L.stack = above ++ func :: rest)
    (hfunc : func.isFunction = true) {outcome : Outcome} {sfits : Prop}
    {script : Option Outcome × List Seen} (hsome : sfits → script.1 = some outcome)
    (hnone : ¬ sfits → script.1 = none) (hseen : ∀ x ∈ script.2, x.Right)
    (hreader : ∀ results L', Holds L' results → L'.slots = L.slots →
      L'.stack.length = rest.length + trackback.isFunction.toNat + maxLuaResult →
      Behaves (reader results L') L'.exceeded L'.slots L'.stack (fits results)
        (throws results)) :
    Behaves (executeFunction above.length trackback script reader L) L.exceeded L.slots rest
      (L.stack.length < L.slots ∧ sfits ∧ outcome.Fits trackback fits)
      (outcome.throws throws) := by
  have hfunction : L.isFunction (-(above.length + 1)) = true := by
    rw [LuaState.isFunction, LuaState.value?_below h, Option.any_some, hfunc]
  obtain ⟨traceback, L', hfind, htraceback, hstack, hslots, hexceeded⟩ :=
    findTraceback_spec h trackback
  obtain ⟨result, seen⟩ := script
  by_cases hs : sfits
  · have hresult : result = some outcome := hsome hs
    have hfinish := finishFunction_behaves hstack htraceback
      (fun results L₁ hholds hslots₁ => hreader results L₁ hholds (hslots₁.trans hslots)) outcome
    rw [hslots] at hfinish
    have hrun := (hfinish.after hseen).pushed hexceeded
    simp only [executeFunction, hfunction, if_true, hfind, hresult]
    exact hrun.congr (by simp [hs])
  · have hresult : result = none := hnone hs
    simp only [executeFunction, hfunction, if_true, hfind, hresult]
    exact Behaves.stopped hseen rfl fun hf => hs hf.2.1

end

namespace Invocation
variable {found : Found} {loaded trackback : LuaValue} {arguments : List Argument}
  {script : Script} {reader : Reader}

theorem throws_eq (hloaded : found.loaded = some loaded) :
    throws (.mk found arguments trackback script reader) =
      script.outcome.throws fun _ => reader.throws := by
  rw [throws, hloaded, Option.isNone_some, Bool.false_or]
  cases script.outcome <;> rfl

theorem Fits_iff (hloaded : found.loaded = some loaded)
    (hfound : loaded.isTable = true ∧ found.module.isTable = true ∧ found.func.isFunction = true)
    {height slots : Nat} :
    Fits (.mk found arguments trackback script reader) height slots ↔
      (height + 4 + Argument.pushed arguments + 1 ≤ slots ∧ Argument.unpromoted ∉ arguments) ∧
      script.Fits ∧
      script.outcome.Fits trackback fun results => reader.Fits (counted results)
        (height + 3 + trackback.isFunction.toNat + maxLuaResult) slots := by
  simp only [Fits, hloaded, hfound, and_self, true_and]
  cases script.outcome <;> rfl

end Invocation

/-! ## Call, and all that happens in it -/

/-- A script that runs to its end has its outcome. -/
structure Script.Behaves (s : Script) : Prop where
  some : s.Fits → s.run.1 = some s.outcome
  none : ¬ s.Fits → s.run.1 = none
  seen : ∀ x ∈ s.run.2, x.Right

def Reader.Behaves (reader : Reader) : Prop :=
  ∀ {results : List LuaValue} {L : LuaState}, Holds L results →
    ScriptEngine.Behaves (reader.run results (counted results) L) L.exceeded L.slots L.stack
      (reader.Fits (counted results) L.stack.length L.slots) reader.throws

namespace Invocation
variable {found : Found} {loaded trackback : LuaValue} {arguments : List Argument}
  {script : Script} {reader : Reader}

/-- The pushes in front of `lua_pcall` all have their slots where the last one has. -/
theorem slots_iff {height pushed slots : Nat} :
    (height + 4 ≤ slots ∧ (0 < pushed → height + 4 + pushed ≤ slots)) ∧
      pushed + (height + 4) < slots ↔ height + 4 + pushed + 1 ≤ slots := by
  omega

/-- The function is there, and the arguments are pushed for it. -/
theorem behaves_calling (hloaded : found.loaded = some loaded)
    (hfound : loaded.isTable = true ∧ found.module.isTable = true ∧ found.func.isFunction = true)
    (hletter : Argument.unpromoted ∉ arguments)
    (hscript : script.Behaves) (hreader : reader.Behaves) (L : LuaState) :
    Behaves (run (.mk found arguments trackback script reader) L) L.exceeded L.slots L.stack
      (Fits (.mk found arguments trackback script reader) L.stack.length L.slots)
      (throws (.mk found arguments trackback script reader)) := by
  obtain ⟨L₁, hprepare, hstack₁, hslots₁, hexceeded₁⟩ := prepareCall_eq hloaded hfound L
  obtain ⟨L₂, harguments, hstack₂, hslots₂, hexceeded₂⟩ := pushArguments_some hletter L₁
  have hlen₁ : L₁.stack.length = L.stack.length + 4 := by
    rw [hstack₁]
    rfl
  have hlen₂ : L₂.stack.length = Argument.pushed arguments + (L.stack.length + 4) := by
    rw [hstack₂, List.length_append, List.length_reverse, hlen₁, Argument.pushed]
  rw [hstack₁] at hstack₂
  have hread (results : List LuaValue) (L' : LuaState) (hholds : Holds L' results)
      (hslots : L'.slots = L₂.slots)
      (hlen : L'.stack.length =
        L.stack.length + 3 + trackback.isFunction.toNat + maxLuaResult) :
      Behaves (reader.run results (countResults L') L') L'.exceeded L'.slots L'.stack
        (reader.Fits (counted results)
          (L.stack.length + 3 + trackback.isFunction.toNat + maxLuaResult) L.slots)
        reader.throws := by
    have hbehaves := hreader hholds
    rw [hlen, hslots, hslots₂, hslots₁] at hbehaves
    rwa [hholds.count, hslots, hslots₂, hslots₁]
  have hexecute := executeFunction_behaves hstack₂ hfound.2.2 hscript.some hscript.none hscript.seen
    hread
  rw [List.length_reverse, hslots₂, hslots₁] at hexecute
  have hpop := hexecute.andPop id (fun L => L.pop 3) fun L' hL' =>
    ⟨(L'.stack_pop 3).trans (congrArg (List.drop 3) hL'), rfl, rfl⟩
  have hpushed := (hpop.pushed hexceeded₂).pushed hexceeded₁
  have hrun : run (.mk found arguments trackback script reader) L =
      (executeFunction (Argument.pushed arguments) trackback script.run
        (fun results L => reader.run results (countResults L) L) L₂).andThen
          fun ret L => ⟨.returned ret, L.pop 3, []⟩ := by
    simp only [run, hprepare, harguments]
  rw [hrun, throws_eq hloaded]
  refine hpushed.congr (Iff.trans ?_ (Fits_iff hloaded hfound).symm)
  rw [hlen₁, hlen₂, hslots₁, ← slots_iff]
  simp only [hletter, not_false_eq_true, and_true, and_assoc]

/-- `package` can be indexed. -/
theorem behaves_found (hloaded : found.loaded = some loaded) (hscript : script.Behaves)
    (hreader : reader.Behaves) (L : LuaState) :
    Behaves (run (.mk found arguments trackback script reader) L) L.exceeded L.slots L.stack
      (Fits (.mk found arguments trackback script reader) L.stack.length L.slots)
      (throws (.mk found arguments trackback script reader)) := by
  by_cases hfound : loaded.isTable = true ∧ found.module.isTable = true ∧
      found.func.isFunction = true
  · by_cases hletter : Argument.unpromoted ∈ arguments
    · obtain ⟨L₁, hprepare, -⟩ := prepareCall_eq hloaded hfound L
      simp only [run, hprepare, pushArguments_none hletter]
      refine Behaves.stopped nofun rfl fun hf => ?_
      rw [Fits_iff hloaded hfound] at hf
      exact hf.1.2 hletter
    · exact behaves_calling hloaded hfound hletter hscript hreader L
  · obtain ⟨ending, L₁, hprepare, hstops⟩ := prepareCall_stops hloaded hfound L
    have hrun : run (.mk found arguments trackback script reader) L = ⟨ending, L₁, []⟩ := by
      cases ending with
      | returned => cases hstops
      | thrown | aborted | undefined => simp only [run, hprepare]
    rw [hrun]
    refine Behaves.stopped nofun hstops fun hf => ?_
    simp only [Fits, hloaded] at hf
    exact hfound hf.1

end Invocation

mutual

theorem Invocation.behaves : (call : Invocation) → (L : LuaState) →
    Behaves (call.run L) L.exceeded L.slots L.stack (call.Fits L.stack.length L.slots) call.throws
  | .mk found arguments trackback script reader, L => by
    cases hloaded : found.loaded with
    | none =>
      have hthrew : Behaves ⟨.thrown, L.push found.package, []⟩ (L.push found.package).exceeded
          L.slots L.stack True true :=
        Behaves.threw nofun trivial
      simp only [Invocation.run, prepareCall, hloaded, Invocation.throws, Invocation.Fits,
        Option.isNone_none, Bool.true_or]
      exact (hthrew.pushed (LuaState.exceeded_push L found.package)).congr
        (iff_of_eq (and_true _))
    | some loaded => exact Invocation.behaves_found hloaded script.behaves reader.behaves L

theorem Script.behaves : (s : Script) → s.Behaves
  | .ends outcome => ⟨fun _ => rfl, fun h => absurd trivial h, nofun⟩
  | .calls L call next => by
    have hcall := call.behaves L
    have hnext := next.behaves
    refine ⟨fun h => ?_, fun h => ?_, List.forall_mem_append.mpr ⟨hcall.seen, hnext.seen⟩⟩
    · obtain ⟨hending, hexceeded⟩ := hcall.safe.mpr h.1
      simp only [Script.run, Script.outcome]
      rw [if_neg (by simp [hending, hexceeded]), hnext.some h.2]
    · simp only [Script.run]
      split
      · rfl
      · next hsafe =>
        rw [not_or, Bool.not_eq_false, Bool.not_eq_true] at hsafe
        exact hnext.none fun hfits => h ⟨hcall.safe.mp hsafe, hfits⟩

theorem Reader.behaves : (reader : Reader) → reader.Behaves
  | .done, _, L, _ => Behaves.returned true L rfl trivial
  | .read format next, results, L, h => by
    have hnext := next.behaves h
    obtain ⟨hok, hseen⟩ := readResults_spec h (counted_le results) format 0
    simp only [Reader.run, Reader.Fits, Reader.throws, hok]
    cases henough : enough (counted results) format 0 with
    | false => exact Behaves.stopped hseen rfl (by simp)
    | true =>
      simp only [if_true, true_and]
      exact hnext.after hseen
  | .calls call next, results, L, h => by
    have hcall := call.behaves L
    simp only [Reader.run, Reader.Fits, Reader.throws]
    refine hcall.andThen fun ret L' hstack hslots => ?_
    have hholds : Holds L' results := by
      obtain ⟨rest, hrest⟩ := h
      exact ⟨rest, hstack.trans hrest⟩
    have hnext := next.behaves hholds
    rwa [hstack, hslots] at hnext

end

end HyperNet.ScriptEngine
