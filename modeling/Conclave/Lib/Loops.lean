import Mathlib

/-! Counted loops of code that may fail. The state goes through the body once for each
index, and an invariant that the body keeps is what the loop gives. -/

namespace Conclave.Lib

universe u

variable {σ : Type u} {n : ℕ} {f : ℕ → σ → Option σ} {s : σ}

/-- A step that gave a value. -/
theorem bind_of_some {α β : Type u} {x : Option α} {a : α} (h : x = some a) (f : α → Option β) :
    x.bind f = f a := by
  rw [h]
  rfl

/-- `for i in 0..n`. -/
def upTo : ℕ → (ℕ → σ → Option σ) → σ → Option σ
  | 0, _, s => some s
  | n + 1, f, s => (upTo n f s).bind (f n)

/-- `for i in (0..n).rev()`. -/
def downTo : ℕ → (ℕ → σ → Option σ) → σ → Option σ
  | 0, _, s => some s
  | n + 1, f, s => (f n s).bind (downTo n f)

theorem upTo_spec (Inv : ℕ → σ → Prop) (hs : Inv 0 s)
    (hstep : ∀ i < n, ∀ s, Inv i s → ∃ s', f i s = some s' ∧ Inv (i + 1) s') :
    ∃ s', upTo n f s = some s' ∧ Inv n s' := by
  induction n with
  | zero => exact ⟨s, rfl, hs⟩
  | succ n ih =>
    obtain ⟨s₁, h₁, hinv⟩ := ih fun i hi => hstep i (Nat.lt_succ_of_lt hi)
    obtain ⟨s', h', hinv'⟩ := hstep n (Nat.lt_succ_self n) s₁ hinv
    refine ⟨s', ?_, hinv'⟩
    rw [upTo, h₁]
    exact h'

theorem downTo_spec (Inv : ℕ → σ → Prop) (hs : Inv n s)
    (hstep : ∀ i < n, ∀ s, Inv (i + 1) s → ∃ s', f i s = some s' ∧ Inv i s') :
    ∃ s', downTo n f s = some s' ∧ Inv 0 s' := by
  induction n generalizing s with
  | zero => exact ⟨s, rfl, hs⟩
  | succ n ih =>
    obtain ⟨s₁, h₁, hinv⟩ := hstep n (Nat.lt_succ_self n) s hs
    obtain ⟨s', h', hinv'⟩ := ih hinv fun i hi => hstep i (Nat.lt_succ_of_lt hi)
    refine ⟨s', ?_, hinv'⟩
    rw [downTo, h₁]
    exact h'

end Conclave.Lib
