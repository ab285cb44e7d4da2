import Mathlib

/-! Finite and infinite runs of a partial step function. -/

namespace Conclave.Lib

variable {σ α : Type*} {step : σ → α → Option σ}

/-- The state after a list of acts, none when one of them is not possible. -/
def runs (step : σ → α → Option σ) : σ → List α → Option σ
  | s, [] => some s
  | s, a :: acts => (step s a).bind fun s' => runs step s' acts

theorem runs_cons {s s' : σ} {a : α} {acts : List α} (h : runs step s (a :: acts) = some s') :
    ∃ s₁, step s a = some s₁ ∧ runs step s₁ acts = some s' := Option.bind_eq_some_iff.mp h

/-- What every step keeps, every run keeps. -/
theorem runs_keeps {P : σ → Prop} (hstep : ∀ s a s', P s → step s a = some s' → P s')
    {acts : List α} {s s' : σ} (hs : P s) (h : runs step s acts = some s') : P s' := by
  induction acts generalizing s with
  | nil => exact Option.some.inj h ▸ hs
  | cons a acts ih =>
    obtain ⟨s₁, hstep₁, hrest⟩ := runs_cons h
    exact ih (hstep s a s₁ hs hstep₁) hrest

/-- Every act of the run meets a condition on the state before it. -/
def RunsWith (step : σ → α → Option σ) (ok : σ → α → Prop) : σ → List α → Prop
  | _, [] => True
  | s, a :: acts => ok s a ∧ ∀ s', step s a = some s' → RunsWith step ok s' acts

/-- The condition on one act, in the state that the acts before it lead to. -/
theorem RunsWith.at {ok : σ → α → Prop} {before after : List α} {a : α} {s s' : σ}
    (h : RunsWith step ok s (before ++ a :: after)) (hruns : runs step s before = some s') :
    ok s' a := by
  induction before generalizing s with
  | nil => exact Option.some.inj hruns ▸ h.1
  | cons b before ih =>
    obtain ⟨s₁, hstep, hrest⟩ := runs_cons hruns
    exact ih (h.2 s₁ hstep) hrest

instance decidableRunsWith (ok : σ → α → Prop) [∀ s a, Decidable (ok s a)] :
    ∀ (s : σ) (acts : List α), Decidable (RunsWith step ok s acts)
  | _, [] => isTrue trivial
  | s, a :: acts =>
    match hs : step s a with
    | none => decidable_of_iff (ok s a) ⟨fun h => ⟨h, fun s' h' => by simp [hs] at h'⟩, And.left⟩
    | some s₁ =>
      have := decidableRunsWith ok s₁ acts
      decidable_of_iff (ok s a ∧ RunsWith step ok s₁ acts)
        ⟨fun h => ⟨h.1, fun s' h' => Option.some.inj (hs.symm.trans h') ▸ h.2⟩,
          fun h => ⟨h.1, h.2 s₁ hs⟩⟩

theorem runsWith_keeps {P : σ → Prop} {ok : σ → α → Prop}
    (hstep : ∀ s a s', P s → ok s a → step s a = some s' → P s')
    {acts : List α} {s s' : σ} (hs : P s) (hok : RunsWith step ok s acts)
    (h : runs step s acts = some s') : P s' := by
  induction acts generalizing s with
  | nil => exact Option.some.inj h ▸ hs
  | cons a acts ih =>
    obtain ⟨s₁, hstep₁, hrest⟩ := runs_cons h
    exact ih (hstep s a s₁ hs hok.1 hstep₁) (hok.2 s₁ hstep₁) hrest

/-- A condition that follows from another one in every state of the run. -/
theorem runsWith_imp {P : σ → Prop} {ok ok' : σ → α → Prop}
    (hstep : ∀ s a s', P s → ok s a → step s a = some s' → P s')
    (himp : ∀ s a, P s → ok s a → ok' s a) {s : σ} (hs : P s) {acts : List α}
    (hok : RunsWith step ok s acts) : RunsWith step ok' s acts := by
  induction acts generalizing s with
  | nil => trivial
  | cons a acts ih =>
    exact ⟨himp s a hs hok.1, fun s' h => ih (hstep s a s' hs hok.1 h) (hok.2 s' h)⟩

/-- Two conditions that agree as long as they are met. -/
theorem runsWith_congr {P : σ → Prop} {ok ok' : σ → α → Prop} {acts : List α}
    (hstep : ∀ s, ∀ a ∈ acts, ∀ s', P s → ok s a → step s a = some s' → P s')
    (hiff : ∀ s, ∀ a ∈ acts, P s → (ok s a ↔ ok' s a)) {s : σ} (hs : P s) :
    RunsWith step ok s acts ↔ RunsWith step ok' s acts := by
  induction acts generalizing s with
  | nil => exact Iff.rfl
  | cons a acts ih =>
    have ha : a ∈ a :: acts := List.mem_cons_self
    have hrest := fun s' (hok : ok s a) (h : step s a = some s') =>
      ih (fun s a' ha' => hstep s a' (List.mem_cons_of_mem a ha'))
        (fun s a' ha' => hiff s a' (List.mem_cons_of_mem a ha')) (hstep s a ha s' hs hok h)
    constructor
    · exact fun h => ⟨(hiff s a ha hs).mp h.1, fun s' h' => (hrest s' h.1 h').mp (h.2 s' h')⟩
    · intro h
      have hok := (hiff s a ha hs).mpr h.1
      exact ⟨hok, fun s' h' => (hrest s' hok h').mpr (h.2 s' h')⟩

/-- When an act outside the condition leads to a state that no step mends, the states
off it are those of runs that met it throughout. -/
theorem runsWith_of_not {P Q : σ → Prop} {ok : σ → α → Prop}
    (hP : ∀ s a s', P s → step s a = some s' → P s')
    (hQ : ∀ s a s', Q s → step s a = some s' → Q s')
    (hbad : ∀ s a s', P s → ¬ ok s a → step s a = some s' → Q s')
    {acts : List α} {s s' : σ} (hs : P s) (h : runs step s acts = some s') (hn : ¬ Q s') :
    RunsWith step ok s acts := by
  induction acts generalizing s with
  | nil => trivial
  | cons a acts ih =>
    obtain ⟨s₁, hstep₁, hrest⟩ := runs_cons h
    refine ⟨?_, fun s₂ hs₂ => ?_⟩
    · by_contra hnot
      exact hn (runs_keeps hQ (hbad s a s₁ hs hnot hstep₁) hrest)
    · obtain rfl := Option.some.inj (hstep₁.symm.trans hs₂)
      exact ih (hP s a s₁ hs hstep₁) hrest

theorem runsWith_append {ok : σ → α → Prop} {s s' : σ} {before after : List α}
    (hok : RunsWith step ok s (before ++ after)) (hrun : runs step s before = some s') :
    RunsWith step ok s before ∧ RunsWith step ok s' after := by
  induction before generalizing s with
  | nil => exact ⟨trivial, Option.some.inj hrun ▸ hok⟩
  | cons a before ih =>
    obtain ⟨s₁, hstep, hrest⟩ := runs_cons hrun
    refine ⟨⟨hok.1, fun s₂ hs₂ => ?_⟩, (ih (hok.2 s₁ hstep) hrest).2⟩
    obtain rfl := Option.some.inj (hstep.symm.trans hs₂)
    exact (ih (hok.2 _ hstep) hrest).1

theorem runs_append (before after : List α) (s : σ) :
    runs step s (before ++ after) = (runs step s before).bind fun s' => runs step s' after := by
  induction before generalizing s with
  | nil => rfl
  | cons a before ih =>
    rw [List.cons_append, runs, runs, Option.bind_assoc]
    congr 1
    funext s'
    exact ih s'

/-- An infinite run, in which nothing may happen for a while or for ever. -/
structure Execution (step : σ → α → Option σ) (s₀ : σ) where
  state : ℕ → σ
  act : ℕ → Option α
  start : state 0 = s₀
  next : ∀ n, (act n).elim (some (state n)) (step (state n)) = some (state (n + 1))

theorem Execution.next_none {s₀ : σ} (e : Execution step s₀) {n : ℕ} (h : e.act n = none) :
    e.state (n + 1) = e.state n := by
  have hn := e.next n
  rw [h] at hn
  exact (Option.some.inj hn).symm

theorem Execution.next_some {s₀ : σ} (e : Execution step s₀) {n : ℕ} {a : α}
    (h : e.act n = some a) : step (e.state n) a = some (e.state (n + 1)) := by
  have hn := e.next n
  rwa [h] at hn

theorem Execution.keeps {s₀ : σ} (e : Execution step s₀) {P : σ → Prop}
    (hstep : ∀ s a s', P s → step s a = some s' → P s') (h₀ : P s₀) (n : ℕ) :
    P (e.state n) := by
  induction n with
  | zero => rwa [e.start]
  | succ n ih =>
    cases ha : e.act n with
    | none => rwa [e.next_none ha]
    | some a => exact hstep _ a _ ih (e.next_some ha)

/-- A number that never rises from some time on is constant from some time on. -/
theorem settles (f : ℕ → ℕ) {n : ℕ} (h : ∀ m ≥ n, f (m + 1) ≤ f m) :
    ∃ k ≥ n, ∀ m ≥ k, f m = f k := by
  induction hv : f n using Nat.strong_induction_on generalizing n with
  | _ v ih =>
    by_cases hdrop : ∃ m ≥ n, f m < f n
    · obtain ⟨m, hm, hlt⟩ := hdrop
      obtain ⟨k, hk, hconst⟩ := ih (f m) (hv ▸ hlt) (fun i hi => h i (hm.trans hi)) rfl
      exact ⟨k, hm.trans hk, hconst⟩
    · have hle : ∀ d, f (n + d) ≤ f n := by
        intro d
        induction d with
        | zero => exact le_rfl
        | succ d ihd => exact (h (n + d) (Nat.le_add_right n d)).trans ihd
      refine ⟨n, le_rfl, fun m hm => ?_⟩
      obtain ⟨d, rfl⟩ := Nat.exists_eq_add_of_le hm
      exact le_antisymm (hle d) (not_lt.mp fun hlt => hdrop ⟨n + d, hm, hlt⟩)

end Conclave.Lib
