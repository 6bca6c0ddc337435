import Mathlib

/-! Refinement of objects.

    An object answers an operation and moves to its next state. It refines another when a relation
    between their states is kept by every operation and the answers agree; then the two answer alike
    along every run. -/

namespace Nodeakt.Schemes

variable {ω ρ σ τ : Type}

/-- The answers along a run, and the state it ends in. -/
def perform (step : σ → ω → ρ × σ) : σ → List ω → List ρ × σ
  | s, [] => ([], s)
  | s, op :: ops =>
    ((step s op).1 :: (perform step (step s op).2 ops).1, (perform step (step s op).2 ops).2)

/-- Every operation answers as the specification does and keeps the relation. -/
def Refines (step : σ → ω → ρ × σ) (spec : τ → ω → ρ × τ) (R : σ → τ → Prop) : Prop :=
  ∀ s t op, R s t → (step s op).1 = (spec t op).1 ∧ R (step s op).2 (spec t op).2

theorem Refines.perform {step : σ → ω → ρ × σ} {spec : τ → ω → ρ × τ} {R : σ → τ → Prop}
    (h : Refines step spec R) (ops : List ω) {s : σ} {t : τ} (hst : R s t) :
    (perform step s ops).1 = (perform spec t ops).1 ∧
      R (perform step s ops).2 (perform spec t ops).2 := by
  induction ops generalizing s t with
  | nil => exact ⟨rfl, hst⟩
  | cons op ops ih =>
    obtain ⟨hanswer, hnext⟩ := h s t op hst
    obtain ⟨hanswers, hfinal⟩ := ih hnext
    exact ⟨congrArg₂ _ hanswer hanswers, hfinal⟩

end Nodeakt.Schemes
