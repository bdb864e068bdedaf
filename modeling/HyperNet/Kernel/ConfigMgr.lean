import Mathlib.Algebra.Ring.Int.Defs
import Mathlib.Data.List.Basic
import Mathlib.Logic.Function.Basic

/-! # Command line arguments (ConfigMgr.cpp, tools.h)

Arguments are `--name=value`; the first equals sign ends the name, and a name that comes again takes
the later value. There is no outcome where an assertion fails. -/
namespace HyperNet.Kernel

/-- One round of the loop in `ConfigMgr::parse`: the name and the value of an argument. -/
def parseArg (arg : List Char) : Option (List Char × List Char) :=
  let start := arg.drop 2
  if arg.take 2 = ['-', '-'] ∧ '=' ∈ start then
    some (start.takeWhile (· != '='), (start.dropWhile (· != '=')).tail)
  else none

/-- `_args`, with `GetCmdArg` as its lookup. -/
abbrev Args := List Char → Option (List Char)

/-- The loop of `ConfigMgr::parse`. -/
def parseArgs : List (List Char) → Args → Option Args
  | [], args => some args
  | arg :: argv, args => (parseArg arg).bind fun (name, value) =>
    parseArgs argv (Function.update args name (some value))

/-- `ConfigMgr::parse`; the first argument is the program. -/
def parse (argv : List (List Char)) : Option Args := parseArgs argv.tail fun _ => none

/-- `isspace` in the C locale. -/
def isSpace (c : Char) : Bool := c == ' ' || ('\t' ≤ c && c ≤ '\r')

/-- `atoi`, where the number is an `int`. -/
def atoi (text : List Char) : Option Int32 :=
  let (negative, digits) :=
    match text.dropWhile isSpace with
    | '-' :: digits => (true, digits)
    | '+' :: digits => (false, digits)
    | digits => (false, digits)
  let n := Nat.ofDigitChars 10 (digits.takeWhile Char.isDigit) 0
  let x : Int := if negative then -n else n
  if -2 ^ 31 ≤ x ∧ x < 2 ^ 31 then some (.ofInt x) else none

/-- How an argument is written. -/
def Argument.text (arg : List Char × List Char) : List Char := '-' :: '-' :: arg.1 ++ '=' :: arg.2

theorem parseArg_text {arg : List Char × List Char} (h : '=' ∉ arg.1) :
    parseArg (Argument.text arg) = some arg := by
  have hname : ∀ c ∈ arg.1, (c != '=') = true :=
    fun c hc => bne_iff_ne.mpr fun he => h (he ▸ hc)
  simp [Argument.text, parseArg, List.takeWhile_append_of_pos hname,
    List.dropWhile_append_of_pos hname]

theorem parseArg_iff {arg : List Char} {parsed : List Char × List Char} :
    parseArg arg = some parsed ↔ '=' ∉ parsed.1 ∧ arg = Argument.text parsed := by
  refine ⟨fun h => ?_, fun ⟨hn, ha⟩ => ha ▸ parseArg_text hn⟩
  have hshape : arg.take 2 = ['-', '-'] ∧ '=' ∈ arg.drop 2 := by
    by_contra hno
    simp [parseArg, hno] at h
  obtain ⟨name, value, hdrop, hn⟩ := List.eq_append_cons_of_mem hshape.2
  have harg : arg = Argument.text (name, value) := by
    rw [← List.take_append_drop 2 arg, hshape.1, hdrop]
    rfl
  rw [harg, parseArg_text hn] at h
  cases h
  exact ⟨hn, harg⟩

/-- The value that a name has after some arguments: the last one. -/
def lastValue (given : List (List Char × List Char)) (name : List Char) : Option (List Char) :=
  given.reverse.lookup name

theorem parseArgs_iff {argv : List (List Char)} {args parsed : Args} :
    parseArgs argv args = some parsed ↔ ∃ given : List (List Char × List Char),
      (∀ arg ∈ given, '=' ∉ arg.1) ∧ argv = given.map Argument.text ∧
        ∀ name, parsed name = (lastValue given name).or (args name) := by
  induction argv generalizing args with
  | nil =>
    constructor
    · intro h
      cases h
      exact ⟨[], nofun, rfl, fun _ => rfl⟩
    · rintro ⟨given, _, hgiven, hparsed⟩
      obtain rfl := List.map_eq_nil_iff.mp hgiven.symm
      exact congrArg some (funext fun name => (hparsed name).symm)
  | cons arg argv ih =>
    -- the first argument is in effect where no later one has its name
    have hfirst : ∀ (first : List Char × List Char) given name,
        (lastValue given name).or (Function.update args first.1 (some first.2) name) =
          (lastValue (first :: given) name).or (args name) := by
      rintro ⟨key, value⟩ given name
      rw [lastValue, lastValue, List.reverse_cons, List.lookup_append, Option.or_assoc]
      congr 1
      by_cases he : name = key
      · subst he
        simp
      · simp [Function.update_of_ne he, List.lookup_cons, beq_eq_false_iff_ne.mpr he]
    constructor
    · intro h
      obtain ⟨first, hf, hrest⟩ := Option.bind_eq_some_iff.mp h
      obtain ⟨hn, rfl⟩ := parseArg_iff.mp hf
      obtain ⟨given, hg, rfl, hparsed⟩ := ih.mp hrest
      refine ⟨first :: given, List.forall_mem_cons.mpr ⟨hn, hg⟩, rfl, fun name => ?_⟩
      rw [hparsed, hfirst]
    · rintro ⟨given, hg, hgiven, hparsed⟩
      cases given with
      | nil => cases hgiven
      | cons first given =>
        obtain ⟨rfl, rfl⟩ := List.cons.inj hgiven
        obtain ⟨hn, hg⟩ := List.forall_mem_cons.mp hg
        refine Option.bind_eq_some_iff.mpr ⟨first, parseArg_text hn, ih.mpr ⟨given, hg, rfl, ?_⟩⟩
        intro name
        rw [hparsed, hfirst]

/-- The command line is accepted exactly where all its arguments are so written, and a name has then
the value that was given last. -/
theorem parse_iff {argv : List (List Char)} {args : Args} :
    parse argv = some args ↔ ∃ given : List (List Char × List Char),
      (∀ arg ∈ given, '=' ∉ arg.1) ∧ argv.tail = given.map Argument.text ∧
        args = lastValue given := by
  rw [parse, parseArgs_iff]
  simp only [Option.or_none, funext_iff]

end HyperNet.Kernel
