import Mathlib

/-! Machines that read a list and write one as they go. -/

namespace Conclave.Lib

variable {σ τ α β : Type*}

/-- The state after a list, and all that was written. -/
def transduce (step : σ → α → σ × List β) : σ → List α → σ × List β
  | s, [] => (s, [])
  | s, a :: as =>
    let next := transduce step (step s a).1 as
    (next.1, (step s a).2 ++ next.2)

theorem transduce_append (step : σ → α → σ × List β) (s : σ) (as bs : List α) :
    transduce step s (as ++ bs) =
      ((transduce step (transduce step s as).1 bs).1,
        (transduce step s as).2 ++ (transduce step (transduce step s as).1 bs).2) := by
  induction as generalizing s with
  | nil => simp [transduce]
  | cons a as ih => simp [transduce, ih]

/-- What every step keeps, a run keeps. -/
theorem transduce_keeps {step : σ → α → σ × List β} {P : σ → Prop}
    (hstep : ∀ s a, P s → P (step s a).1) {s : σ} (hs : P s) (as : List α) :
    P (transduce step s as).1 := by
  induction as generalizing s with
  | nil => exact hs
  | cons a as ih => exact ih (hstep s a hs)

/-- A state that no step leaves, and in which none writes. -/
theorem transduce_still {step : σ → α → σ × List β} {s : σ} (h : ∀ a, step s a = (s, []))
    (as : List α) : transduce step s as = (s, []) := by
  induction as with
  | nil => rfl
  | cons a as ih => simp [transduce, h a, ih]

end Conclave.Lib
