import Mathlib

/-! Two machines in lockstep: as long as they agree on one step in every state that is
reached, they agree on every run. -/

namespace Conclave.Lib

variable {σ ρ : Type*} {step step' : σ → Option (σ ⊕ ρ)} {P : σ → Prop}

/-- Where a machine is after so many steps: in a state, at its result, or stuck. -/
def runFor (step : σ → Option (σ ⊕ ρ)) : ℕ → σ → Option (σ ⊕ ρ)
  | 0, s => some (.inl s)
  | n + 1, s =>
    match step s with
    | some (.inl s') => runFor step n s'
    | r => r

theorem runFor_lockstep (hstep : ∀ s, P s → step' s = step s)
    (hkeeps : ∀ s s', P s → step s = some (.inl s') → P s') (n : ℕ) {s : σ} (hs : P s) :
    runFor step' n s = runFor step n s := by
  induction n generalizing s with
  | zero => rfl
  | succ n ih =>
    rw [runFor, runFor, hstep s hs]
    match h : step s with
    | none => rfl
    | some (.inr r) => rfl
    | some (.inl s') => exact ih (hkeeps s s' hs h)

end Conclave.Lib
