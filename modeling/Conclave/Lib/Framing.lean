import Conclave.Lib.Bytes

/-! Self-delimiting frames. A framer reads one frame off the front of a buffer
when the buffer holds it completely. Draining a buffer reads frames until what
is left holds none; the law proved here is that draining does not depend on how
the stream was cut: the frames of `b ++ c` are those of `b` followed by those of
what `b` left behind with `c` appended. -/

namespace Conclave.Lib

/-- A reader of one frame. It consumes at least one symbol, and symbols after a
complete frame do not change it. -/
structure Framer (β α : Type*) where
  next : List β → Option (α × List β)
  shrinks : ∀ {b a r}, next b = some (a, r) → r.length < b.length
  extend : ∀ {b a r} (c : List β), next b = some (a, r) → next (b ++ c) = some (a, r ++ c)

namespace Framer

variable {β α : Type*} (F : Framer β α)

/-- Read at most `n` frames. -/
def drainFuel : ℕ → List β → List α × List β
  | 0, b => ([], b)
  | n + 1, b =>
    match F.next b with
    | none => ([], b)
    | some (a, r) => (a :: (drainFuel n r).1, (drainFuel n r).2)

/-- All complete frames of a buffer, and the incomplete rest. -/
def drain (b : List β) : List α × List β := F.drainFuel b.length b

theorem next_nil : F.next [] = none := by
  cases h : F.next [] with
  | none => rfl
  | some p => exact absurd (F.shrinks (a := p.1) (r := p.2) h) (by simp)

theorem drainFuel_stable {n m : ℕ} {b : List β} (hn : b.length ≤ n) (hm : b.length ≤ m) :
    F.drainFuel n b = F.drainFuel m b := by
  induction n generalizing m b with
  | zero =>
    obtain rfl : b = [] := List.length_eq_zero_iff.mp (by omega)
    cases m <;> simp [drainFuel, next_nil]
  | succ n ih =>
    cases m with
    | zero =>
      obtain rfl : b = [] := List.length_eq_zero_iff.mp (by omega)
      simp [drainFuel, next_nil]
    | succ m =>
      simp only [drainFuel]
      cases h : F.next b with
      | none => rfl
      | some p =>
        have hs := F.shrinks (a := p.1) (r := p.2) h
        have hr := ih (m := m) (b := p.2) (by omega) (by omega)
        simp only [hr]

theorem drain_none {b : List β} (h : F.next b = none) : F.drain b = ([], b) := by
  unfold drain
  cases b.length <;> simp [drainFuel, h]

theorem drain_some {b : List β} {a : α} {r : List β} (h : F.next b = some (a, r)) :
    F.drain b = (a :: (F.drain r).1, (F.drain r).2) := by
  have hs := F.shrinks h
  obtain ⟨n, hn⟩ := Nat.exists_eq_succ_of_ne_zero (show b.length ≠ 0 by omega)
  unfold drain
  rw [hn, drainFuel, h]
  simp only [F.drainFuel_stable (n := n) (m := r.length) (by omega) le_rfl]

@[simp] theorem drain_nil : F.drain [] = ([], []) := F.drain_none F.next_nil

/-- Induction along the frames of a buffer. -/
theorem drain_induction {motive : List β → Prop} (b : List β)
    (stop : ∀ b, F.next b = none → motive b)
    (step : ∀ b a r, F.next b = some (a, r) → motive r → motive b) : motive b := by
  induction hn : b.length using Nat.strong_induction_on generalizing b with
  | h n ih =>
    cases h : F.next b with
    | none => exact stop b h
    | some p =>
      have hs := F.shrinks (a := p.1) (r := p.2) h
      exact step b p.1 p.2 h (ih p.2.length (by omega) p.2 rfl)

/-- What is left after draining holds no complete frame. -/
theorem next_drain_rest (b : List β) : F.next (F.drain b).2 = none := by
  induction b using F.drain_induction with
  | stop b h => rw [F.drain_none h]; exact h
  | step b a r h ih => rw [F.drain_some h]; exact ih

/-- Cutting law: draining a stream in two pieces reads the same frames. -/
theorem drain_append (b c : List β) :
    F.drain (b ++ c) =
      ((F.drain b).1 ++ (F.drain ((F.drain b).2 ++ c)).1, (F.drain ((F.drain b).2 ++ c)).2) := by
  induction b using F.drain_induction with
  | stop b h => simp [F.drain_none h]
  | step b a r h ih => rw [F.drain_some h, F.drain_some (F.extend c h), ih]; rfl

theorem drain_rest_drain (b : List β) : F.drain (F.drain b).2 = ([], (F.drain b).2) :=
  F.drain_none (F.next_drain_rest b)

section Encoder

variable (enc : α → List β) (good : α → Prop)

/-- An encoder whose output the framer reads back. -/
def Reads : Prop := ∀ a c, good a → F.next (enc a ++ c) = some (a, c)

variable {F enc good}

/-- Concatenated encodings drain to the encoded frames. -/
theorem Reads.drain_flatMap (h : F.Reads enc good) (l : List α) (hl : ∀ a ∈ l, good a)
    (c : List β) : F.drain (l.flatMap enc ++ c) = (l ++ (F.drain c).1, (F.drain c).2) := by
  induction l with
  | nil => simp
  | cons a l ih =>
    have ha := h a (l.flatMap enc ++ c) (hl a (by simp))
    rw [List.flatMap_cons, List.append_assoc, F.drain_some ha,
      ih (fun x hx => hl x (by simp [hx]))]
    rfl

/-- A framer that splits a buffer into the encoding of the frame and what follows. -/
def Splits (F : Framer β α) (enc : α → List β) (good : α → Prop) : Prop :=
  ∀ {b a r}, F.next b = some (a, r) → good a ∧ b = enc a ++ r

theorem Splits.drain_spec (h : F.Splits enc good) (b : List β) :
    (∀ a ∈ (F.drain b).1, good a) ∧ b = (F.drain b).1.flatMap enc ++ (F.drain b).2 := by
  induction b using F.drain_induction with
  | stop b hb => simp [F.drain_none hb]
  | step b a r hb ih =>
    obtain ⟨ha, rfl⟩ := h hb
    simp only [F.drain_some hb, List.mem_cons, forall_eq_or_imp, List.flatMap_cons,
      List.append_assoc]
    exact ⟨⟨ha, ih.1⟩, by rw [← ih.2]⟩

end Encoder

end Framer

end Conclave.Lib
