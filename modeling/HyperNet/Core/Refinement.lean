import Mathlib.Data.List.Basic

/-! # Objects and their refinement

An object has operations that each give an output and a next state. One object refines another
through a relation of their states that every operation keeps, with the same output. A client that
only sees outputs then cannot tell which of the two it works with. -/
namespace HyperNet.Core.Refinement

/-- A state that operations act on. -/
structure Object (σ ι ο : Type*) where
  init : σ
  step : σ → ι → ο × σ

variable {σ τ ι ο : Type*}

namespace Object

/-- The outputs of a sequence of operations, and the state behind them. -/
def runFrom (M : Object σ ι ο) : σ → List ι → List ο × σ
  | s, [] => ([], s)
  | s, i :: is =>
    let r := M.runFrom (M.step s i).2 is
    ((M.step s i).1 :: r.1, r.2)

def run (M : Object σ ι ο) (is : List ι) : List ο × σ := M.runFrom M.init is

@[simp] theorem runFrom_cons (M : Object σ ι ο) (s : σ) (i : ι) (is : List ι) :
    M.runFrom s (i :: is) = ((M.step s i).1 :: (M.runFrom (M.step s i).2 is).1,
      (M.runFrom (M.step s i).2 is).2) := rfl

end Object

/-- Each operation of `C` does what that of `A` does, as `R` relates their states. -/
structure Refines (C : Object σ ι ο) (A : Object τ ι ο) (R : σ → τ → Prop) : Prop where
  init : R C.init A.init
  step : ∀ s t i, R s t → (C.step s i).1 = (A.step t i).1 ∧ R (C.step s i).2 (A.step t i).2

namespace Refines
variable {C : Object σ ι ο} {A : Object τ ι ο} {R : σ → τ → Prop}

theorem runFrom (h : Refines C A R) {s : σ} {t : τ} (hr : R s t) (is : List ι) :
    (C.runFrom s is).1 = (A.runFrom t is).1 ∧ R (C.runFrom s is).2 (A.runFrom t is).2 := by
  induction is generalizing s t with
  | nil => exact ⟨rfl, hr⟩
  | cons i is ih =>
    obtain ⟨hout, hnext⟩ := h.step s t i hr
    obtain ⟨houts, hlast⟩ := ih hnext
    exact ⟨by rw [Object.runFrom_cons, Object.runFrom_cons, hout, houts], hlast⟩

/-- The outputs of every run are the same, and the states behind it are related. -/
theorem run (h : Refines C A R) (is : List ι) :
    (C.run is).1 = (A.run is).1 ∧ R (C.run is).2 (A.run is).2 :=
  h.runFrom h.init is

end Refines
end HyperNet.Core.Refinement
