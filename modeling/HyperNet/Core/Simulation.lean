import HyperNet.Core.Transition

/-! # Forward simulations

One system simulates another through a relation of their states: each guarded step of the first
is a guarded step of the second, or none of it. `act` says which, from the state and the label
alone, so that a run of the first gives the labels of a run of the second. -/
namespace HyperNet.Core.Transition

variable {σ ℓ τ κ : Type*}

/-- The steps of `C` guarded by `P` are steps of `A` guarded by `Q`, or none. -/
structure Simulates (C : System σ ℓ) (P : σ → ℓ → Prop) (A : System τ κ) (Q : τ → κ → Prop)
    (act : σ → ℓ → Option κ) (R : σ → τ → Prop) : Prop where
  init : R C.init A.init
  silent : ∀ {s t l s'}, R s t → P s l → C.step s l = some s' → act s l = none → R s' t
  step : ∀ {s t l s' k}, R s t → P s l → C.step s l = some s' → act s l = some k →
    Q t k ∧ ∃ t', A.step t k = some t' ∧ R s' t'

/-- The steps that a list of labels makes, from the states it runs through. -/
def System.acts (C : System σ ℓ) (act : σ → ℓ → Option κ) : σ → List ℓ → List κ
  | _, [] => []
  | s, l :: ls => (act s l).toList ++ ((C.step s l).elim [] fun s' => C.acts act s' ls)

namespace Simulates
variable {C : System σ ℓ} {P : σ → ℓ → Prop} {A : System τ κ} {Q : τ → κ → Prop}
  {act : σ → ℓ → Option κ} {R : σ → τ → Prop}

/-- Every state that `C` reaches is related to one that `A` reaches. -/
theorem run (h : Simulates C P A Q act R) {s : σ} (hs : C.Run P s) : ∃ t, A.Run Q t ∧ R s t := by
  induction hs with
  | start => exact ⟨A.init, .start, h.init⟩
  | @next s s' l _ hp hst ih =>
    obtain ⟨t, ht, hr⟩ := ih
    cases ha : act s l with
    | none => exact ⟨t, ht, h.silent hr hp hst ha⟩
    | some k =>
      obtain ⟨hq, t', hst', hr'⟩ := h.step hr hp hst ha
      exact ⟨t', .next ht hq hst', hr'⟩

variable [∀ s l, Decidable (P s l)] [∀ t k, Decidable (Q t k)]

/-- A list of labels of `C` gives one of `A`. -/
theorem exec (h : Simulates C P A Q act R) {s s' : σ} {t : τ} {ls : List ℓ} (hr : R s t)
    (hs : C.exec P s ls = some s') :
    ∃ t', A.exec Q t (C.acts act s ls) = some t' ∧ R s' t' := by
  induction ls generalizing s t with
  | nil =>
    simp only [System.exec, Option.some.injEq] at hs
    exact ⟨t, rfl, hs ▸ hr⟩
  | cons l ls ih =>
    simp only [System.exec] at hs
    split at hs
    · next hp =>
      obtain ⟨u, hu, hs⟩ := Option.bind_eq_some_iff.mp hs
      cases ha : act s l with
      | none =>
        obtain ⟨t', ht', hr'⟩ := ih (h.silent hr hp hu ha) hs
        exact ⟨t', by simpa [System.acts, ha, hu] using ht', hr'⟩
      | some k =>
        obtain ⟨hq, u', hu', hr'⟩ := h.step hr hp hu ha
        obtain ⟨t', ht', hr''⟩ := ih hr' hs
        exact ⟨t', by simpa [System.acts, System.exec, ha, hu, hq, hu'] using ht', hr''⟩
    · cases hs

end Simulates
end HyperNet.Core.Transition
