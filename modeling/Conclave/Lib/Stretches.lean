import Mathlib

/-! Reversal of the stretches of a list on which a test holds. -/

namespace Conclave.Lib

variable {α : Type*} {p q : α → Bool} {run xs : List α}

/-- The list with every maximal stretch reversed on which the test holds, where such a stretch has
been met in part. -/
def reverseStretches (p : α → Bool) (run : List α) : List α → List α
  | [] => run
  | x :: xs =>
    if p x then reverseStretches p (x :: run) xs else run ++ x :: reverseStretches p [] xs

theorem reverseStretches_append {as : List α} (has : ∀ a ∈ as, p a) (run xs : List α) :
    reverseStretches p run (as ++ xs) = reverseStretches p (as.reverse ++ run) xs := by
  induction as generalizing run with
  | nil => rfl
  | cons a as ih =>
    rw [List.forall_mem_cons] at has
    rw [List.cons_append, reverseStretches, if_pos has.1, ih has.2, List.reverse_cons,
      List.append_assoc, List.singleton_append]

/-- A stretch ends where the list does or where the test fails. -/
theorem reverseStretches_of_stretch {as : List α} (has : ∀ a ∈ as, p a)
    (hxs : ∀ x ∈ xs.head?, p x = false) :
    reverseStretches p [] (as ++ xs) = as.reverse ++ reverseStretches p [] xs := by
  rw [reverseStretches_append has, List.append_nil]
  cases xs with
  | nil => rw [reverseStretches, reverseStretches, List.append_nil]
  | cons x xs =>
    have hx : ¬ p x = true := by simp [hxs x rfl]
    rw [reverseStretches, reverseStretches, if_neg hx, if_neg hx, List.nil_append]

theorem reverseStretches_congr (h : ∀ x ∈ xs, p x = q x) :
    reverseStretches p run xs = reverseStretches q run xs := by
  induction xs generalizing run with
  | nil => rfl
  | cons x xs ih =>
    rw [List.forall_mem_cons] at h
    rw [reverseStretches, reverseStretches, h.1, ih h.2, ih h.2]

theorem perm_reverseStretches (p : α → Bool) (run xs : List α) :
    (reverseStretches p run xs).Perm (run ++ xs) := by
  induction xs generalizing run with
  | nil => rw [reverseStretches, List.append_nil]
  | cons x xs ih =>
    rw [reverseStretches]
    split_ifs
    · exact (ih (x :: run)).trans List.perm_middle.symm
    · exact List.Perm.append_left run ((ih []).cons x)

/-- A weaker test holds at the same places afterwards. -/
theorem map_reverseStretches_of_imp (hpq : ∀ x, p x → q x) (hrun : ∀ x ∈ run, q x) :
    (reverseStretches p run xs).map q = List.replicate run.length true ++ xs.map q := by
  have hall : ∀ {l : List α}, (∀ x ∈ l, q x) → l.map q = List.replicate l.length true := by
    intro l hl
    rw [List.eq_replicate_iff]
    exact ⟨List.length_map _, by simpa using hl⟩
  induction xs generalizing run with
  | nil => rw [reverseStretches, hall hrun, List.map_nil, List.append_nil]
  | cons x xs ih =>
    rw [reverseStretches]
    split_ifs with hx
    · rw [ih (List.forall_mem_cons.mpr ⟨hpq x hx, hrun⟩), List.map_cons, hpq x hx,
        List.length_cons, List.replicate_succ', List.append_assoc, List.singleton_append]
    · rw [List.map_append, List.map_cons, ih (by simp), hall hrun]
      rfl

/-- Twice reversed, every stretch is as it was. -/
theorem reverseStretches_involutive (p : α → Bool) :
    Function.Involutive (reverseStretches p []) := by
  have hback : ∀ (xs run : List α), (∀ x ∈ run, p x) →
      reverseStretches p [] (reverseStretches p run xs) = run.reverse ++ xs := by
    intro xs
    induction xs with
    | nil =>
      intro run hrun
      have h := @reverseStretches_of_stretch α p [] run hrun (by simp)
      rwa [List.append_nil] at h
    | cons x xs ih =>
      intro run hrun
      rw [reverseStretches]
      split_ifs with hx
      · rw [ih (x :: run) (List.forall_mem_cons.mpr ⟨hx, hrun⟩), List.reverse_cons,
          List.append_assoc, List.singleton_append]
      · rw [reverseStretches_of_stretch hrun (by simp [hx]), reverseStretches, if_neg hx,
          List.nil_append, ih [] (by simp)]
        rfl
  exact fun xs => hback xs [] (by simp)

end Conclave.Lib
