import Mathlib.Data.List.Basic

/-! # Deterministic labelled systems and their guarded runs

A system moves by a partial step function: `none` means that the label is not
enabled, or that the step has no defined outcome. All nondeterminism sits in the
labels. A run may be guarded by a condition on each step's source state and
label, so that "every run whose steps all meet `P`" is a type of its own. -/
namespace HyperNet.Core.Transition

/-- An initial state and a step for each label. -/
structure System (σ ℓ : Type*) where
  init : σ
  step : σ → ℓ → Option σ

variable {σ ℓ τ : Type*}

/-- The states reached by steps that all meet `P`. -/
inductive System.Run (M : System σ ℓ) (P : σ → ℓ → Prop) : σ → Prop
  | start : M.Run P M.init
  | next {s t : σ} {l : ℓ} : M.Run P s → P s l → M.step s l = some t → M.Run P t

/-- The states reached by any steps. -/
abbrev System.Reachable (M : System σ ℓ) : σ → Prop := M.Run fun _ _ => True

namespace System
variable {M : System σ ℓ} {P Q : σ → ℓ → Prop}

theorem Run.mono (hpq : ∀ s l, P s l → Q s l) {s : σ} (h : M.Run P s) : M.Run Q s := by
  induction h with
  | start => exact .start
  | next _ hp hs ih => exact .next ih (hpq _ _ hp) hs

theorem Run.reachable {s : σ} (h : M.Run P s) : M.Reachable s := h.mono fun _ _ _ => trivial

/-- An invariant kept by every guarded step holds after every guarded run. -/
theorem Run.invariant {I : σ → Prop} (h0 : I M.init)
    (hs : ∀ s l t, P s l → I s → M.step s l = some t → I t) {s : σ} (h : M.Run P s) : I s := by
  induction h with
  | start => exact h0
  | next _ hp hst ih => exact hs _ _ _ hp ih hst

/-- `Run.invariant` where each step may also use what `J` says of its source. -/
theorem Run.invariant_with {I J : σ → Prop} (hJ : ∀ s, M.Run P s → J s) (h0 : I M.init)
    (hs : ∀ s l t, P s l → J s → I s → M.step s l = some t → I t) {s : σ} (h : M.Run P s) :
    I s := by
  induction h with
  | start => exact h0
  | next hr hp hst ih => exact hs _ _ _ hp (hJ _ hr) ih hst

/-- The state after a list of labels whose steps all meet `P`. -/
def exec (M : System σ ℓ) (P : σ → ℓ → Prop) [∀ s l, Decidable (P s l)] :
    σ → List ℓ → Option σ
  | s, [] => some s
  | s, l :: ls => if P s l then (M.step s l).bind fun t => M.exec P t ls else none

variable [∀ s l, Decidable (P s l)]

theorem exec_invariant {I : σ → Prop} (hs : ∀ s l t, P s l → I s → M.step s l = some t → I t)
    {s t : σ} {ls : List ℓ} (hi : I s) (he : M.exec P s ls = some t) : I t := by
  induction ls generalizing s with
  | nil =>
    simp only [exec, Option.some.injEq] at he
    exact he ▸ hi
  | cons l ls ih =>
    simp only [exec] at he
    split at he
    · next hp =>
      obtain ⟨u, hu, he⟩ := Option.bind_eq_some_iff.mp he
      exact ih (hs s l u hp hi hu) he
    · cases he

theorem Run.exec {s t : σ} {ls : List ℓ} (h : M.Run P s) (he : M.exec P s ls = some t) :
    M.Run P t :=
  exec_invariant (fun _ _ _ hp hr hs => .next hr hp hs) h he

theorem exec_mono {Q : σ → ℓ → Prop} [∀ s l, Decidable (Q s l)] (hpq : ∀ s l, P s l → Q s l)
    {s t : σ} {ls : List ℓ} (he : M.exec P s ls = some t) : M.exec Q s ls = some t := by
  induction ls generalizing s with
  | nil => exact he
  | cons l ls ih =>
    simp only [exec] at he ⊢
    split at he
    · next hp =>
      obtain ⟨u, hu, he⟩ := Option.bind_eq_some_iff.mp he
      rw [if_pos (hpq s l hp)]
      exact Option.bind_eq_some_iff.mpr ⟨u, hu, ih he⟩
    · cases he

/-- A script of labels that ends in a state where `p` holds. -/
theorem run_of_exec (ls : List ℓ) {p : σ → Bool} (h : (M.exec P M.init ls).any p = true) :
    ∃ s, M.Run P s ∧ p s = true := by
  cases he : M.exec P M.init ls with
  | none => simp [he] at h
  | some s => exact ⟨s, Run.exec .start he, by simpa [he] using h⟩

end System
end HyperNet.Core.Transition
