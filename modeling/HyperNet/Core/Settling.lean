import HyperNet.Core.Transition

/-! # Systems that come to rest

Some steps of a system are its own work, others bring it something to do. Where each step of
its own lowers a measure, it does no more of them than the measure says, and there is a run of
them to a state in which none is left. -/
namespace HyperNet.Core.Transition

variable {σ ℓ : Type*}

/-- The steps that meet `P` keep `I` and lower the measure. -/
structure System.Settles (M : System σ ℓ) (P : σ → ℓ → Prop) (I : σ → Prop) (effort : σ → Nat) :
    Prop where
  keeps : ∀ {s l t}, P s l → I s → M.step s l = some t → I t
  lowers : ∀ {s l t}, P s l → I s → M.step s l = some t → effort t < effort s

namespace System
variable {M : System σ ℓ} {P : σ → ℓ → Prop} {I : σ → Prop} {effort : σ → Nat}
  [∀ s l, Decidable (P s l)]

/-- A run of such steps is paid for by the measure. -/
theorem Settles.exec (h : M.Settles P I effort) {s t : σ} {ls : List ℓ} (hi : I s)
    (he : M.exec P s ls = some t) : I t ∧ ls.length + effort t ≤ effort s := by
  induction ls generalizing s with
  | nil =>
    simp only [System.exec, Option.some.injEq] at he
    subst he
    exact ⟨hi, Nat.le_of_eq (Nat.zero_add _)⟩
  | cons l ls ih =>
    simp only [System.exec] at he
    split at he
    · next hp =>
      obtain ⟨u, hu, he⟩ := Option.bind_eq_some_iff.mp he
      have hlower := h.lowers hp hi hu
      obtain ⟨ht, hle⟩ := ih (h.keeps hp hi hu) he
      refine ⟨ht, ?_⟩
      rw [List.length_cons]
      omega
    · cases he

end System
end HyperNet.Core.Transition
