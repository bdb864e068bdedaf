import HyperNet.Core.Transition
import Mathlib.Algebra.Ring.Int.Defs
import Mathlib.Data.List.Basic
import Mathlib.Logic.Function.Basic
import Mathlib.Logic.Relation

/-! # The thread pool (ThreadModule.h)

One thread pushes commands, looks at those that are completed, and terminates the module; the
others work on them. What stands between two accesses to shared data is one step, and so is a
section under a mutex. Waiting ends at any time. -/
namespace HyperNet.Public
open HyperNet.Core Transition

/-- Where a thread is in `ThreadProc`. -/
inductive Place
  /-- At the test of the outer loop. -/
  | outer
  /-- At the test of the inner loop. -/
  | inner
  | locking
  | waiting
  | execute
  | complete
  | stopped
  deriving DecidableEq

/-- A thread, with what it has taken and executed so far. -/
structure Thread (α : Type) where
  place : Place
  command : Option α
  terminate : Bool
  runningCommands : List α
  taken : List α
  executed : List α

namespace Thread
variable {α : Type}

def create : Thread α := ⟨.outer, none, false, [], [], []⟩

def push (t : Thread α) (command : α) : Thread α :=
  { t with runningCommands := t.runningCommands ++ [command] }

/-- The second half of what is done under the mutex. -/
def takeCommand (t : Thread α) : Thread α :=
  match t.runningCommands with
  | [] => { t with place := .inner }
  | command :: rest => { t with
      place := .inner
      command := some command
      runningCommands := rest
      taken := t.taken ++ [command] }

/-- One step of `ThreadProc`. The inner loop goes on with a command in hand. -/
def next (t : Thread α) : Option (Thread α) :=
  match t.place with
  | .outer => some { t with place := if t.terminate then .stopped else .inner, command := none }
  | .inner => some { t with place :=
      if t.terminate then if t.command.isSome then .execute else .outer else .locking }
  | .locking => some (if t.runningCommands.isEmpty then { t with place := .waiting }
      else t.takeCommand)
  | .waiting => some t.takeCommand
  | .execute => some { t with place := .complete, executed := t.executed ++ t.command.toList }
  | .complete => some { t with place := .outer, command := none }
  | .stopped => none

/-- What it has taken and not executed. -/
def inHand (t : Thread α) : List α := if t.place = .complete then [] else t.command.toList

/-- What it has executed and not added to the completed commands. -/
def adding (t : Thread α) : List α := if t.place = .complete then t.command.toList else []

/-- Its next step takes a command. -/
def takes (t : Thread α) : Bool :=
  (t.place == .locking || t.place == .waiting) && !t.runningCommands.isEmpty

end Thread

/-- The module with `n` threads and one more; what was pushed, added to the completed commands,
and handed to `Complete`. -/
structure ThreadModule (α : Type) (n : Nat) where
  threads : Fin (n + 1) → Thread α
  completeCommands : List α
  completeCommandsRun : List α
  swaped : Bool
  /-- The threads that `Terminate` has told. -/
  told : Nat
  pushed : List (Int × α)
  added : List (Fin (n + 1) × α)
  completed : List α

namespace ThreadModule
variable {α : Type} {n : Nat}

/-- After `Start`. -/
def start : ThreadModule α n := ⟨fun _ => .create, [], [], false, 0, [], [], []⟩

/-- `id % _threads.size()`, where the `s64` is converted to `size_t`. -/
def threadOf (n : Nat) (id : Int) : Fin (n + 1) := Fin.ofNat (n + 1) (id % 2 ^ 64).toNat

def setThread (s : ThreadModule α n) (i : Fin (n + 1)) (t : Thread α) : ThreadModule α n :=
  { s with threads := Function.update s.threads i t }

/-- `Push`, as long as there are threads. -/
def push (s : ThreadModule α n) (id : Int) (command : α) : Option (ThreadModule α n) :=
  if s.told = 0 then
    some { s.setThread (threadOf n id) ((s.threads (threadOf n id)).push command) with
      pushed := s.pushed ++ [(id, command)] }
  else none

/-- The swap in `Process`, once in each call. -/
def swap (s : ThreadModule α n) : ThreadModule α n :=
  if s.swaped = false ∧ s.completeCommandsRun = [] then
    { s with
      swaped := true
      completeCommandsRun := s.completeCommands
      completeCommands := s.completeCommandsRun }
  else s

/-- One round of the loop in `Process`. -/
def process (s : ThreadModule α n) : ThreadModule α n :=
  match s.swap.completeCommandsRun with
  | [] => { s.swap with swaped := false }
  | command :: rest => { s.swap with
      completeCommandsRun := rest
      completed := s.swap.completed ++ [command] }

/-- One step of a thread; behind its `Execute` it calls `AddToComplete`. -/
def work (s : ThreadModule α n) (i : Fin (n + 1)) : Option (ThreadModule α n) := do
  let t ← (s.threads i).next
  some { s.setThread i t with
    completeCommands := s.completeCommands ++ (s.threads i).adding
    added := s.added ++ (s.threads i).adding.map (i, ·) }

/-- `Terminate` tells the next thread, when those before it have stopped. -/
def terminate (s : ThreadModule α n) : Option (ThreadModule α n) :=
  if h : s.told < n + 1 then
    if ∀ i : Fin (n + 1), i.val < s.told → (s.threads i).place = .stopped then
      some { s.setThread ⟨s.told, h⟩ { s.threads ⟨s.told, h⟩ with terminate := true } with
        told := s.told + 1 }
    else none
  else none

end ThreadModule

/-- Who does what next. -/
inductive Turn (α : Type) (n : Nat)
  | push (id : Int) (command : α)
  | process
  | work (i : Fin (n + 1))
  | terminate

/-- The pushing thread and the others, in any order. -/
def threadModule (α : Type) (n : Nat) : System (ThreadModule α n) (Turn α n) where
  init := .start
  step
    | s, .push id command => s.push id command
    | s, .process => some s.process
    | s, .work i => s.work i
    | s, .terminate => s.terminate

section Delivery
variable {α : Type} {n : Nat}

namespace Thread

/-- What holds of a thread that has added these commands. -/
structure Sound (added : List α) (t : Thread α) : Prop where
  idle : t.place = .outer ∨ t.place = .stopped → t.command = none
  executed : t.executed = added ++ t.adding
  taken : t.executed.length + t.inHand.length ≤ t.taken.length

/-- A command is in hand only when the thread has been told to terminate, and nothing was
dropped. -/
structure Orderly (t : Thread α) : Prop where
  taken : t.taken = t.executed ++ t.inHand
  told : t.command ≠ none → t.terminate = true ∧ t.place ≠ .locking ∧ t.place ≠ .waiting

theorem sound_create : Sound [] (create : Thread α) := ⟨fun _ => rfl, rfl, Nat.le_refl _⟩

theorem orderly_create : Orderly (create : Thread α) := ⟨rfl, fun h => absurd rfl h⟩

variable {t t' : Thread α} {added : List α}

theorem Sound.push (h : Sound added t) (command : α) : Sound added (t.push command) :=
  ⟨h.idle, h.executed, h.taken⟩

theorem Orderly.push (h : Orderly t) (command : α) : Orderly (t.push command) := ⟨h.taken, h.told⟩

theorem Sound.tell (h : Sound added t) : Sound added { t with terminate := true } :=
  ⟨h.idle, h.executed, h.taken⟩

theorem Orderly.tell (h : Orderly t) : Orderly { t with terminate := true } :=
  ⟨h.taken, fun hne => ⟨rfl, (h.told hne).2⟩⟩

/-- Under the mutex, a command is taken from the front, or there is none. -/
theorem takeCommand_cases (t : Thread α) :
    (t.runningCommands = [] ∧ t.takeCommand = { t with place := .inner }) ∨
      ∃ command rest, t.runningCommands = command :: rest ∧
        t.takeCommand = { t with
          place := .inner
          command := some command
          runningCommands := rest
          taken := t.taken ++ [command] } := by
  cases hrest : t.runningCommands with
  | nil => exact Or.inl ⟨rfl, by rw [takeCommand, hrest]⟩
  | cons command rest => exact Or.inr ⟨command, rest, rfl, by rw [takeCommand, hrest]⟩

/-- A step neither loses a command that is not taken nor takes it out of order. -/
theorem next_pushed (h : t.next = some t') :
    t'.taken ++ t'.runningCommands = t.taken ++ t.runningCommands := by
  have htake : t.takeCommand.taken ++ t.takeCommand.runningCommands =
      t.taken ++ t.runningCommands := by
    cases t.takeCommand_cases with
    | inl hnone => rw [hnone.2]
    | inr hsome =>
      obtain ⟨command, rest, hrest, htake⟩ := hsome
      rw [htake, hrest, List.append_assoc]
      rfl
  unfold next at h
  cases hplace : t.place with
  | outer | inner | execute | complete => rw [hplace] at h; cases h; rfl
  | waiting => rw [hplace] at h; cases h; exact htake
  | stopped => rw [hplace] at h; cases h
  | locking =>
    rw [hplace] at h
    cases h
    split
    · rfl
    · exact htake

theorem adding_eq_nil (h : t.place ≠ .complete) : t.adding = [] := if_neg h

theorem inHand_eq (h : t.place ≠ .complete) : t.inHand = t.command.toList := if_neg h

/-- Only behind `Execute` a thread has a command that it adds. -/
theorem Sound.executed_eq (h : Sound added t) (hplace : t.place ≠ .complete) :
    t.executed = added := by
  rw [h.executed, adding_eq_nil hplace, List.append_nil]

theorem Sound.of_place (hplace : t.place ≠ .complete)
    (hidle : t.place = .outer ∨ t.place = .stopped → t.command = none)
    (hexecuted : t.executed = added)
    (htaken : t.executed.length + t.command.toList.length ≤ t.taken.length) : Sound added t := by
  refine ⟨hidle, ?_, ?_⟩
  · rw [adding_eq_nil hplace, List.append_nil]
    exact hexecuted
  · rw [inHand_eq hplace]
    exact htaken

theorem Sound.takeCommand (h : Sound added t) (hplace : t.place ≠ .complete) :
    Sound added t.takeCommand := by
  have hexecuted := h.executed_eq hplace
  have htaken := h.taken
  rw [inHand_eq hplace] at htaken
  cases t.takeCommand_cases with
  | inl hnone =>
    rw [hnone.2]
    exact .of_place (by simp) (by simp) hexecuted htaken
  | inr hsome =>
    obtain ⟨command, rest, _, htake⟩ := hsome
    rw [htake]
    refine .of_place (by simp) (by simp) hexecuted ?_
    show t.executed.length + 1 ≤ (t.taken ++ [command]).length
    rw [List.length_append, List.length_singleton]
    omega

/-- Every step keeps to that. -/
theorem Sound.next (h : Sound added t) (hnext : t.next = some t') :
    Sound (added ++ t.adding) t' := by
  have htaken := h.taken
  unfold Thread.next at hnext
  by_cases hcomplete : t.place = .complete
  · rw [hcomplete] at hnext
    cases hnext
    exact .of_place (by simp) (fun _ => rfl) h.executed
      (Nat.le_trans (Nat.le_add_right _ _) htaken)
  have hexecuted := h.executed_eq hcomplete
  rw [adding_eq_nil hcomplete, List.append_nil]
  rw [inHand_eq hcomplete] at htaken
  cases hplace : t.place with
  | complete => exact absurd hplace hcomplete
  | stopped => rw [hplace] at hnext; cases hnext
  | outer =>
    rw [hplace] at hnext
    cases hnext
    refine .of_place ?_ (fun _ => rfl) hexecuted (Nat.le_trans (Nat.le_add_right _ _) htaken)
    show (if t.terminate then Place.stopped else .inner) ≠ .complete
    split <;> simp
  | inner =>
    rw [hplace] at hnext
    cases hnext
    cases t.terminate with
    | false => exact .of_place (by simp) (by simp) hexecuted htaken
    | true =>
      cases hcommand : t.command with
      | none => exact .of_place (by simp) (fun _ => rfl) hexecuted (hcommand ▸ htaken)
      | some command => exact .of_place (by simp) (by simp) hexecuted (hcommand ▸ htaken)
  | locking =>
    rw [hplace] at hnext
    cases hnext
    split
    · exact .of_place (by simp) (by simp) hexecuted htaken
    · exact h.takeCommand hcomplete
  | waiting =>
    rw [hplace] at hnext
    cases hnext
    exact h.takeCommand hcomplete
  | execute =>
    rw [hplace] at hnext
    cases hnext
    refine ⟨by simp, ?_, ?_⟩
    · show t.executed ++ t.command.toList = added ++ t.command.toList
      rw [hexecuted]
    · show (t.executed ++ t.command.toList).length + 0 ≤ t.taken.length
      rw [List.length_append]
      exact htaken

theorem Orderly.of_none (hcommand : t.command = none) (htaken : t.taken = t.executed) :
    Orderly t := by
  refine ⟨?_, fun hne => absurd hcommand hne⟩
  rw [inHand, hcommand]
  split <;> exact htaken.trans (List.append_nil _).symm

theorem Orderly.emptyHanded (h : Orderly t) (hcommand : t.command = none) :
    t.taken = t.executed := by
  rw [h.taken, inHand, hcommand, Option.toList_none, ite_self, List.append_nil]

theorem Orderly.command_eq (h : Orderly t) (hplace : t.place = .locking ∨ t.place = .waiting) :
    t.command = none := by
  cases hcommand : t.command with
  | none => rfl
  | some command =>
    obtain ⟨_, hlocking, hwaiting⟩ := h.told (by rw [hcommand]; simp)
    exact absurd hplace (not_or.mpr ⟨hlocking, hwaiting⟩)

/-- The one command that is taken when the thread has been told. -/
theorem Orderly.takeCommand (h : Orderly t) (hplace : t.place = .locking ∨ t.place = .waiting)
    (htold : t.runningCommands ≠ [] → t.terminate = true) : Orderly t.takeCommand := by
  have hcommand := h.command_eq hplace
  have htaken := h.emptyHanded hcommand
  cases t.takeCommand_cases with
  | inl hnone =>
    rw [hnone.2]
    exact .of_none hcommand htaken
  | inr hsome =>
    obtain ⟨command, rest, hrest, htake⟩ := hsome
    rw [htake]
    refine ⟨?_, fun _ => ⟨htold (by rw [hrest]; simp), by simp, by simp⟩⟩
    rw [inHand_eq (by simp)]
    show t.taken ++ [command] = t.executed ++ [command]
    rw [htaken]

/-- Every step keeps to that, if it takes a command only when the thread has been told. -/
theorem Orderly.next (h : Orderly t) (hsound : Sound added t) (hnext : t.next = some t')
    (htold : t.takes = true → t.terminate = true) : Orderly t' := by
  have htaken := h.taken
  unfold Thread.next at hnext
  cases hplace : t.place with
  | stopped => rw [hplace] at hnext; cases hnext
  | outer =>
    have hcommand := hsound.idle (Or.inl hplace)
    rw [hplace] at hnext
    cases hnext
    exact .of_none rfl (h.emptyHanded hcommand)
  | inner =>
    rw [inHand_eq (by rw [hplace]; simp)] at htaken
    rw [hplace] at hnext
    cases hnext
    cases hcommand : t.command with
    | none =>
      exact .of_none rfl (h.emptyHanded hcommand)
    | some command =>
      obtain ⟨hterminate, _⟩ := h.told (by rw [hcommand]; simp)
      rw [hterminate]
      refine ⟨?_, fun _ => ⟨rfl, by simp, by simp⟩⟩
      rw [inHand_eq (by simp)]
      exact hcommand ▸ htaken
  | locking =>
    rw [hplace] at hnext
    cases hnext
    split
    · have hcommand := h.command_eq (Or.inl hplace)
      exact .of_none hcommand (h.emptyHanded hcommand)
    · exact h.takeCommand (Or.inl hplace) fun hne => htold (by simp [takes, hplace, hne])
  | waiting =>
    rw [hplace] at hnext
    cases hnext
    exact h.takeCommand (Or.inr hplace) fun hne => htold (by simp [takes, hplace, hne])
  | execute =>
    rw [inHand_eq (by rw [hplace]; simp)] at htaken
    rw [hplace] at hnext
    cases hnext
    refine ⟨?_, fun hne => ⟨(h.told hne).1, by simp, by simp⟩⟩
    show t.taken = (t.executed ++ t.command.toList) ++ []
    rw [List.append_nil]
    exact htaken
  | complete =>
    rw [inHand, if_pos hplace, List.append_nil] at htaken
    rw [hplace] at hnext
    cases hnext
    exact .of_none rfl htaken

/-- In the inner loop, with a command in hand. -/
structure Stuck (t : Thread α) : Prop where
  place : t.place = .inner ∨ t.place = .locking ∨ t.place = .waiting
  command : t.command ≠ none
  told : t.terminate = false

theorem Stuck.ne_complete (h : Stuck t) : t.place ≠ .complete := by
  intro hplace
  have := h.place
  rw [hplace] at this
  simp at this

theorem Stuck.takeCommand (h : Stuck t) : Stuck t.takeCommand := by
  cases t.takeCommand_cases with
  | inl hnone =>
    rw [hnone.2]
    exact ⟨Or.inl rfl, h.command, h.told⟩
  | inr hsome =>
    obtain ⟨command, rest, _, htake⟩ := hsome
    rw [htake]
    exact ⟨Or.inl rfl, by simp, h.told⟩

/-- It does not leave the loop. -/
theorem Stuck.next (h : Stuck t) (hnext : t.next = some t') : Stuck t' := by
  unfold Thread.next at hnext
  rcases h.place with hplace | hplace | hplace
  · rw [hplace] at hnext
    cases hnext
    rw [h.told]
    exact ⟨Or.inr (Or.inl rfl), h.command, rfl⟩
  · rw [hplace] at hnext
    cases hnext
    split
    · exact ⟨Or.inr (Or.inr rfl), h.command, h.told⟩
    · exact h.takeCommand
  · rw [hplace] at hnext
    cases hnext
    exact h.takeCommand

/-- A command that is taken by a thread that was not told stays in its hand. -/
theorem stuck_of_takes (htakes : t.takes = true) (htold : t.terminate = false)
    (hnext : t.next = some t') : Stuck t' := by
  have htakes : (t.place = .locking ∨ t.place = .waiting) ∧ t.runningCommands.isEmpty = false := by
    simpa [takes] using htakes
  have hstuck : Stuck t.takeCommand := by
    cases t.takeCommand_cases with
    | inl hnone =>
      rw [hnone.1] at htakes
      exact absurd htakes.2 (by simp)
    | inr hsome =>
      obtain ⟨command, rest, _, htake⟩ := hsome
      rw [htake]
      exact ⟨Or.inl rfl, by simp, htold⟩
  unfold Thread.next at hnext
  cases htakes.1 with
  | inl hplace =>
    rw [hplace] at hnext
    cases hnext
    rw [htakes.2]
    exact hstuck
  | inr hplace =>
    rw [hplace] at hnext
    cases hnext
    exact hstuck

end Thread

namespace ThreadModule
variable {s s' : ThreadModule α n} {i : Fin (n + 1)}

/-- The commands that were pushed to a thread. -/
def pushedTo (s : ThreadModule α n) (i : Fin (n + 1)) : List α :=
  (s.pushed.filter fun push => threadOf n push.1 = i).map Prod.snd

/-- The commands that a thread has added to the completed ones. -/
def addedBy (s : ThreadModule α n) (i : Fin (n + 1)) : List α :=
  (s.added.filter fun command => command.1 = i).map Prod.snd

/-- A thread takes its steps. -/
def GoesOn (i : Fin (n + 1)) : ThreadModule α n → ThreadModule α n → Prop :=
  Relation.ReflTransGen fun s s' => s.work i = some s'

/-- The commands that a thread took from its queue were pushed to it in this order. It has
executed each of them once, in order, but for one that is in its hand, and added each of these
once, in order, but for one that it is about to add. What was added is what is completed, in
order. And it goes on to add all it has taken. -/
structure Delivered (s : ThreadModule α n) : Prop where
  pushed (i : Fin (n + 1)) : s.pushedTo i = (s.threads i).taken ++ (s.threads i).runningCommands
  taken (i : Fin (n + 1)) : (s.threads i).taken = (s.threads i).executed ++ (s.threads i).inHand
  executed (i : Fin (n + 1)) : (s.threads i).executed = s.addedBy i ++ (s.threads i).adding
  added : s.added.map Prod.snd = s.completed ++ s.completeCommandsRun ++ s.completeCommands
  goesOn (i : Fin (n + 1)) : ∃ s', GoesOn i s s' ∧ (s.threads i).taken <+: s'.addedBy i

/-- What holds after any steps. -/
structure Kept (s : ThreadModule α n) : Prop where
  pushed (i : Fin (n + 1)) : s.pushedTo i = (s.threads i).taken ++ (s.threads i).runningCommands
  sound (i : Fin (n + 1)) : (s.threads i).Sound (s.addedBy i)
  added : s.added.map Prod.snd = s.completed ++ s.completeCommandsRun ++ s.completeCommands

theorem kept_start : Kept (start : ThreadModule α n) :=
  ⟨fun _ => rfl, fun _ => Thread.sound_create, rfl⟩

theorem threads_setThread (j : Fin (n + 1)) (t : Thread α) :
    (s.setThread i t).threads j = if j = i then t else s.threads j :=
  Function.update_apply s.threads i t j

theorem Kept.push (h : Kept s) {id : Int} {command : α} (hs : s.push id command = some s') :
    Kept s' := by
  unfold ThreadModule.push at hs
  split at hs
  · cases hs
    refine ⟨fun j => ?_, fun j => ?_, h.added⟩
    · show ((s.pushed ++ [(id, command)]).filter _).map _ = ((s.setThread _ _).threads j).taken ++
        ((s.setThread _ _).threads j).runningCommands
      have hpushed := h.pushed j
      unfold pushedTo at hpushed
      rw [List.filter_append, List.map_append, hpushed, threads_setThread, List.filter_singleton]
      by_cases hj : j = threadOf n id
      · rw [if_pos hj, hj, decide_eq_true rfl, List.append_assoc]
        rfl
      · rw [if_neg hj, decide_eq_false (Ne.symm hj)]
        exact List.append_nil _
    · show ((s.setThread _ _).threads j).Sound _
      rw [threads_setThread]
      split
      · next hj => exact hj ▸ (h.sound _).push command
      · exact h.sound j
  · cases hs

theorem swap_eq (s : ThreadModule α n) : s.swap.threads = s.threads ∧ s.swap.pushed = s.pushed ∧
    s.swap.added = s.added ∧ s.swap.completed = s.completed ∧
    s.swap.completeCommandsRun ++ s.swap.completeCommands =
      s.completeCommandsRun ++ s.completeCommands := by
  unfold swap
  split
  · next h => exact ⟨rfl, rfl, rfl, rfl, by rw [h.2]; exact List.append_nil _⟩
  · exact ⟨rfl, rfl, rfl, rfl, rfl⟩

theorem process_eq (s : ThreadModule α n) : s.process.threads = s.threads ∧
    s.process.pushed = s.pushed ∧ s.process.added = s.added ∧
    s.process.completed ++ s.process.completeCommandsRun ++ s.process.completeCommands =
      s.completed ++ s.completeCommandsRun ++ s.completeCommands := by
  obtain ⟨hthreads, hpushed, hadded, hcompleted, hlists⟩ := swap_eq s
  unfold process
  cases hrun : s.swap.completeCommandsRun with
  | nil =>
    refine ⟨hthreads, hpushed, hadded, ?_⟩
    show s.swap.completed ++ s.swap.completeCommandsRun ++ s.swap.completeCommands = _
    rw [hcompleted, List.append_assoc, hlists, List.append_assoc]
  | cons command rest =>
    refine ⟨hthreads, hpushed, hadded, ?_⟩
    show s.swap.completed ++ [command] ++ rest ++ s.swap.completeCommands = _
    rw [hcompleted, List.append_assoc s.completed [command], List.singleton_append, ← hrun,
      List.append_assoc, hlists, List.append_assoc]

theorem Kept.process (h : Kept s) : Kept s.process := by
  obtain ⟨hthreads, hpushed, hadded, hlists⟩ := process_eq s
  refine ⟨fun i => ?_, fun i => ?_, ?_⟩
  · rw [pushedTo, hpushed, hthreads]
    exact h.pushed i
  · rw [addedBy, hadded, hthreads]
    exact h.sound i
  · rw [hadded, hlists]
    exact h.added

/-- One step of a thread, as a step of the module. -/
theorem work_eq_some (hs : s.work i = some s') : ∃ t, (s.threads i).next = some t ∧
    s' = { s.setThread i t with
      completeCommands := s.completeCommands ++ (s.threads i).adding
      added := s.added ++ (s.threads i).adding.map (i, ·) } := by
  obtain ⟨t, ht, hs⟩ := Option.bind_eq_some_iff.mp hs
  exact ⟨t, ht, (Option.some.inj hs).symm⟩

theorem addedBy_append (commands : List α) (j : Fin (n + 1)) :
    ((s.added ++ commands.map (i, ·)).filter fun command => command.1 = j).map Prod.snd =
      s.addedBy j ++ if i = j then commands else [] := by
  have hmap : (commands.map (i, ·)).filter (fun command => command.1 = j) =
      if i = j then commands.map (i, ·) else [] := by
    split
    · next hij =>
      rw [List.filter_eq_self]
      intro command hcommand
      obtain ⟨_, _, rfl⟩ := List.mem_map.mp hcommand
      exact decide_eq_true hij
    · next hij =>
      rw [List.filter_eq_nil_iff]
      intro command hcommand
      obtain ⟨_, _, rfl⟩ := List.mem_map.mp hcommand
      simpa using hij
  rw [List.filter_append, List.map_append, hmap, addedBy]
  split
  · rw [List.map_map]
    exact congrArg _ (List.map_id _)
  · rfl

theorem work_threads (hs : s.work i = some s') (j : Fin (n + 1)) :
    (j ≠ i → s'.threads j = s.threads j ∧ s'.addedBy j = s.addedBy j) ∧
      ((s.threads i).next = some (s'.threads i) ∧
        s'.addedBy i = s.addedBy i ++ (s.threads i).adding) := by
  obtain ⟨t, ht, rfl⟩ := work_eq_some hs
  have hthread : ∀ j, (s.setThread i t).threads j = if j = i then t else s.threads j :=
    fun j => threads_setThread j t
  constructor
  · intro hj
    refine ⟨(hthread j).trans (if_neg hj), ?_⟩
    show ((s.added ++ _).filter _).map _ = _
    rw [addedBy_append, if_neg (Ne.symm hj), List.append_nil]
  · refine ⟨?_, ?_⟩
    · rw [ht]
      exact congrArg some ((hthread i).trans (if_pos rfl)).symm
    · show ((s.added ++ _).filter _).map _ = _
      rw [addedBy_append, if_pos rfl]

theorem Kept.work (h : Kept s) (hs : s.work i = some s') : Kept s' := by
  have hthreads := work_threads hs
  have hpushed : s'.pushed = s.pushed := by
    obtain ⟨t, _, rfl⟩ := work_eq_some hs
    rfl
  refine ⟨fun j => ?_, fun j => ?_, ?_⟩
  · rw [pushedTo, hpushed]
    by_cases hj : j = i
    · rw [hj]
      exact (h.pushed i).trans (Thread.next_pushed (hthreads i).2.1).symm
    · rw [((hthreads j).1 hj).1]
      exact h.pushed j
  · by_cases hj : j = i
    · rw [hj, (hthreads i).2.2]
      exact (h.sound i).next (hthreads i).2.1
    · rw [((hthreads j).1 hj).1, ((hthreads j).1 hj).2]
      exact h.sound j
  · obtain ⟨t, _, rfl⟩ := work_eq_some hs
    show (s.added ++ (s.threads i).adding.map (i, ·)).map Prod.snd =
      s.completed ++ s.completeCommandsRun ++ (s.completeCommands ++ (s.threads i).adding)
    rw [List.map_append, h.added, List.map_map, List.append_assoc _ s.completeCommands]
    exact congrArg _ (congrArg _ (List.map_id _))

theorem terminate_eq_some (hs : s.terminate = some s') : ∃ i, s' = { s.setThread i
    { s.threads i with terminate := true } with told := s.told + 1 } := by
  unfold terminate at hs
  split at hs
  · split at hs
    · exact ⟨_, (Option.some.inj hs).symm⟩
    · cases hs
  · cases hs

theorem Kept.terminate (h : Kept s) (hs : s.terminate = some s') : Kept s' := by
  obtain ⟨i, rfl⟩ := terminate_eq_some hs
  refine ⟨fun j => ?_, fun j => ?_, h.added⟩
  · show s.pushedTo j = ((s.setThread i _).threads j).taken ++
      ((s.setThread i _).threads j).runningCommands
    rw [threads_setThread]
    split
    · next hj => exact hj ▸ h.pushed j
    · exact h.pushed j
  · show ((s.setThread i _).threads j).Sound (s.addedBy j)
    rw [threads_setThread]
    split
    · next hj => exact hj ▸ (h.sound j).tell
    · exact h.sound j

theorem Kept.step (h : Kept s) {turn : Turn α n} (hs : (threadModule α n).step s turn = some s') :
    Kept s' := by
  cases turn with
  | push id command => exact h.push hs
  | process => exact Option.some.inj hs ▸ h.process
  | work i => exact h.work hs
  | terminate => exact h.terminate hs

theorem kept_of_run {P : ThreadModule α n → Turn α n → Prop} (h : (threadModule α n).Run P s) :
    Kept s :=
  h.invariant kept_start fun _ _ _ _ hkept hs => hkept.step hs

/-- A thread takes a command only when it has been told to terminate. -/
def Late (s : ThreadModule α n) : Turn α n → Prop
  | .work i => (s.threads i).takes = true → (s.threads i).terminate = true
  | _ => True

theorem orderly_step {turn : Turn α n} (hkept : Kept s) (h : ∀ i, (s.threads i).Orderly)
    (hlate : Late s turn) (hs : (threadModule α n).step s turn = some s') (i : Fin (n + 1)) :
    (s'.threads i).Orderly := by
  cases turn with
  | process =>
    rw [← Option.some.inj hs, (process_eq s).1]
    exact h i
  | push id command =>
    have hs : s.push id command = some s' := hs
    unfold ThreadModule.push at hs
    split at hs
    · cases hs
      show ((s.setThread _ _).threads i).Orderly
      rw [threads_setThread]
      split
      · exact (h _).push command
      · exact h i
    · cases hs
  | work j =>
    have hthreads := work_threads hs
    by_cases hi : i = j
    · rw [hi]
      exact (h j).next (hkept.sound j) (hthreads j).2.1 hlate
    · rw [((hthreads i).1 hi).1]
      exact h i
  | terminate =>
    obtain ⟨j, rfl⟩ := terminate_eq_some hs
    show ((s.setThread j _).threads i).Orderly
    rw [threads_setThread]
    split
    · exact (h j).tell
    · exact h i

theorem orderly_of_run (h : (threadModule α n).Run Late s) (i : Fin (n + 1)) :
    (s.threads i).Orderly :=
  h.invariant_with (I := fun s => ∀ i, (s.threads i).Orderly) (J := Kept)
    (fun _ hrun => kept_of_run hrun) (fun _ => Thread.orderly_create)
    (fun _ _ _ hlate hkept horderly hs => orderly_step hkept horderly hlate hs) i

/-- A step of a thread that takes no command. -/
theorem exists_work {t : Thread α} (hkept : Kept s) (horderly : ∀ j, (s.threads j).Orderly)
    (htakes : (s.threads i).takes = false) (hnext : (s.threads i).next = some t) :
    ∃ s', s.work i = some s' ∧ Kept s' ∧ (∀ j, (s'.threads j).Orderly) ∧ s'.threads i = t := by
  have hwork : s.work i = some _ := Option.bind_eq_some_iff.mpr ⟨t, hnext, rfl⟩
  have hlate : Late s (.work i) := fun h => by rw [htakes] at h; cases h
  refine ⟨_, hwork, hkept.work hwork, orderly_step hkept horderly hlate hwork, ?_⟩
  have hthread := (work_threads hwork i).2.1
  rw [hnext] at hthread
  exact (Option.some.inj hthread).symm

/-- A thread adds all it has taken. -/
def Adds (s : ThreadModule α n) (i : Fin (n + 1)) : Prop :=
  ∃ s', GoesOn i s s' ∧ (s.threads i).taken <+: s'.addedBy i

theorem adds_of_none (hkept : Kept s) (horderly : ∀ j, (s.threads j).Orderly)
    (hcommand : (s.threads i).command = none) : Adds s i := by
  refine ⟨s, .refl, ?_⟩
  have hadding : (s.threads i).adding = [] := by
    rw [Thread.adding, hcommand, Option.toList_none, ite_self]
  have htaken : (s.threads i).taken = s.addedBy i := by
    rw [(horderly i).emptyHanded hcommand, (hkept.sound i).executed, hadding, List.append_nil]
  exact htaken ▸ List.prefix_refl _

theorem Adds.of_work (hs : s.work i = some s')
    (htaken : (s'.threads i).taken = (s.threads i).taken) (h : Adds s' i) : Adds s i := by
  obtain ⟨s'', hgoesOn, hadded⟩ := h
  exact ⟨s'', .head hs hgoesOn, htaken ▸ hadded⟩

theorem adds_of_complete (hkept : Kept s) (horderly : ∀ j, (s.threads j).Orderly)
    (hplace : (s.threads i).place = .complete) : Adds s i := by
  have htakes : (s.threads i).takes = false := by simp [Thread.takes, hplace]
  have hnext : (s.threads i).next =
      some { s.threads i with place := .outer, command := none } := by
    rw [Thread.next, hplace]
  obtain ⟨s', hs, hkept', horderly', hthread⟩ := exists_work hkept horderly htakes hnext
  exact (adds_of_none hkept' horderly' (by rw [hthread])).of_work hs (by rw [hthread])

theorem adds_of_execute (hkept : Kept s) (horderly : ∀ j, (s.threads j).Orderly)
    (hplace : (s.threads i).place = .execute) : Adds s i := by
  have htakes : (s.threads i).takes = false := by simp [Thread.takes, hplace]
  have hnext : (s.threads i).next = some { s.threads i with
      place := .complete
      executed := (s.threads i).executed ++ (s.threads i).command.toList } := by
    rw [Thread.next, hplace]
  obtain ⟨s', hs, hkept', horderly', hthread⟩ := exists_work hkept horderly htakes hnext
  exact (adds_of_complete hkept' horderly' (by rw [hthread])).of_work hs (by rw [hthread])

/-- What a thread has in hand when it was told to terminate is executed and added. -/
theorem adds (hkept : Kept s) (horderly : ∀ j, (s.threads j).Orderly) (i : Fin (n + 1)) :
    Adds s i := by
  cases hcommand : (s.threads i).command with
  | none => exact adds_of_none hkept horderly hcommand
  | some command =>
    have hne : (s.threads i).command ≠ none := by rw [hcommand]; simp
    obtain ⟨htold, hlocking, hwaiting⟩ := (horderly i).told hne
    cases hplace : (s.threads i).place with
    | outer => exact absurd ((hkept.sound i).idle (Or.inl hplace)) hne
    | stopped => exact absurd ((hkept.sound i).idle (Or.inr hplace)) hne
    | locking => exact absurd hplace hlocking
    | waiting => exact absurd hplace hwaiting
    | complete => exact adds_of_complete hkept horderly hplace
    | execute => exact adds_of_execute hkept horderly hplace
    | inner =>
      have htakes : (s.threads i).takes = false := by simp [Thread.takes, hplace]
      have hnext : (s.threads i).next = some { s.threads i with place := .execute } := by
        rw [Thread.next, hplace]
        show some { s.threads i with place :=
          if (s.threads i).terminate then if (s.threads i).command.isSome then .execute else .outer
          else .locking } = _
        rw [if_pos htold, hcommand, Option.isSome_some, if_pos rfl]
      obtain ⟨s', hs, hkept', horderly', hthread⟩ := exists_work hkept horderly htakes hnext
      exact (adds_of_execute hkept' horderly' (by rw [hthread])).of_work hs (by rw [hthread])

/-- A command that stays in hand is not added. -/
theorem not_delivered_of_stuck (hkept : Kept s) (hstuck : (s.threads i).Stuck) : ¬Delivered s := by
  intro h
  obtain ⟨s', hgoesOn, hadded⟩ := h.goesOn i
  have hstays : (s'.threads i).Stuck ∧ s'.addedBy i = s.addedBy i := by
    clear hadded
    induction hgoesOn with
    | refl => exact ⟨hstuck, rfl⟩
    | tail _ hs ih =>
      obtain ⟨hnext, hadded⟩ := (work_threads hs i).2
      refine ⟨ih.1.next hnext, ?_⟩
      rw [hadded, Thread.adding_eq_nil ih.1.ne_complete, List.append_nil]
      exact ih.2
  have htaken := (hkept.sound i).taken
  have hexecuted := (hkept.sound i).executed_eq hstuck.ne_complete
  have hhand : 0 < (s.threads i).inHand.length := by
    rw [Thread.inHand_eq hstuck.ne_complete]
    cases hcommand : (s.threads i).command with
    | none => exact absurd hcommand hstuck.command
    | some command => exact Nat.one_pos
  rw [hstays.2, ← hexecuted] at hadded
  have hle := hadded.length_le
  omega

/-- Every command is delivered in a run in which threads take commands only when they have been
told to terminate; and one that a thread takes earlier is not. -/
theorem commands_delivered :
    (∀ s : ThreadModule α n, (threadModule α n).Run Late s → Delivered s) ∧
      ∀ (s s' : ThreadModule α n) (turn : Turn α n), (threadModule α n).Reachable s →
        (threadModule α n).step s turn = some s' → ¬Late s turn → ¬Delivered s' := by
  constructor
  · intro s hrun
    have hkept := kept_of_run hrun
    have horderly := orderly_of_run hrun
    exact ⟨hkept.pushed, fun i => (horderly i).taken, fun i => (hkept.sound i).executed,
      hkept.added, adds hkept horderly⟩
  · intro s s' turn hreachable hs hlate
    have hkept := (kept_of_run hreachable).step hs
    cases turn with
    | push | process | terminate => exact absurd trivial hlate
    | work i =>
      obtain ⟨htakes, htold⟩ := Classical.not_imp.mp hlate
      have hnext := (work_threads hs i).2.1
      exact not_delivered_of_stuck hkept
        (Thread.stuck_of_takes htakes (Bool.not_eq_true _ ▸ htold) hnext)

instance (s : ThreadModule α n) : DecidablePred (Late s)
  | .work _ => inferInstanceAs (Decidable (_ → _))
  | .push _ _ | .process | .terminate => .isTrue trivial

/-- A command that is taken between the test of the loop and `Terminate`. -/
theorem commands_delivered_late : ∃ s : ThreadModule Nat 0,
    (threadModule Nat 0).Run Late s ∧ s.completed = [7] ∧ Delivered s := by
  obtain ⟨s, hrun, hs⟩ := System.run_of_exec (M := threadModule Nat 0) (P := Late)
    [.push 1 7, .work 0, .work 0, .terminate, .work 0, .work 0, .work 0, .work 0, .process]
    (p := fun s => decide (s.completed = [7])) (by decide)
  exact ⟨s, hrun, of_decide_eq_true hs, commands_delivered.1 s hrun⟩

/-- Of two commands the first is dropped. -/
theorem command_dropped : ¬∀ s : ThreadModule Nat 0, (threadModule Nat 0).Reachable s →
    s.told = 0 → Delivered s := by
  intro h
  obtain ⟨s, hrun, hs⟩ := System.run_of_exec (M := threadModule Nat 0) (P := fun _ _ => True)
    [.push 1 7, .push 1 8, .work 0, .work 0, .work 0, .work 0, .work 0]
    (p := fun s => decide (s.told = 0 ∧ (s.threads 0).taken = [7, 8] ∧
      (s.threads 0).executed ++ (s.threads 0).inHand = [8])) (by decide)
  obtain ⟨htold, htaken, hexecuted⟩ := of_decide_eq_true hs
  have hdelivered := (h s hrun htold).taken 0
  rw [htaken, hexecuted] at hdelivered
  cases hdelivered

end ThreadModule

end Delivery
end HyperNet.Public
