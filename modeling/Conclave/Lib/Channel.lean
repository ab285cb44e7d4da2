import Mathlib

/-! Ordered delivery. A receiver is offered wire items in any order and any
number of times. The specification accepts an item exactly when it is the next
one that was sent, and hands over its content; every other offer is refused and
changes nothing. A receiver that does this in each of its states does it over
whole runs. -/

namespace Conclave.Lib.Channel

variable {σ ω μ : Type*}

/-- Offer items one after another. -/
def run (step : σ → ω → Option μ × σ) : σ → List ω → List (Option μ) × σ
  | s, [] => ([], s)
  | s, o :: os => ((step s o).1 :: (run step (step s o).2 os).1, (run step (step s o).2 os).2)

/-- In-order delivery of the sent items, with what is still outstanding. -/
def deliver [DecidableEq ω] : List (ω × μ) → List ω → List (Option μ) × List (ω × μ)
  | sent, [] => ([], sent)
  | [], _ :: os => (none :: (deliver [] os).1, (deliver [] os).2)
  | (w, m) :: sent, o :: os =>
    if o = w then (some m :: (deliver sent os).1, (deliver sent os).2)
    else (none :: (deliver ((w, m) :: sent) os).1, (deliver ((w, m) :: sent) os).2)

/-- The receiver in state `st j` takes the `j`-th sent item and nothing else. -/
structure InOrder (step : σ → ω → Option μ × σ) (st : ℕ → σ) (sent : List (ω × μ)) : Prop where
  takes : ∀ j w m, sent[j]? = some (w, m) → step (st j) w = (some m, st (j + 1))
  refuses : ∀ j o, j ≤ sent.length → sent[j]?.map Prod.fst ≠ some o → step (st j) o = (none, st j)

variable {step : σ → ω → Option μ × σ} {st : ℕ → σ} {sent : List (ω × μ)}

theorem InOrder.tail {p : ω × μ} (h : InOrder step st (p :: sent)) :
    InOrder step (fun j => st (j + 1)) sent where
  takes j w m hj := h.takes (j + 1) w m (by simpa using hj)
  refuses j o hj ho := h.refuses (j + 1) o (by simpa using hj) (by simpa using ho)

theorem deliver_length_le [DecidableEq ω] : ∀ (sent : List (ω × μ)) (os : List ω),
    (deliver sent os).2.length ≤ sent.length
  | sent, [] => by simp [deliver]
  | [], _ :: os => by simpa [deliver] using deliver_length_le [] os
  | (w, m) :: sent, o :: os => by
    simp only [deliver]
    split_ifs
    · exact (deliver_length_le sent os).trans (by simp)
    · exact deliver_length_le ((w, m) :: sent) os

/-- A receiver that takes exactly the next item delivers in order. -/
theorem InOrder.run_eq [DecidableEq ω] (h : InOrder step st sent) (os : List ω) :
    (run step (st 0) os).1 = (deliver sent os).1 ∧
      (run step (st 0) os).2 = st (sent.length - (deliver sent os).2.length) := by
  induction os generalizing sent st with
  | nil => simp [run, deliver]
  | cons o os ih =>
    cases sent with
    | nil =>
      have hr := h.refuses 0 o (by simp) (by simp)
      simpa [run, deliver, hr] using ih h
    | cons p sent =>
      obtain ⟨w, m⟩ := p
      by_cases how : o = w
      · have ht := h.takes 0 w m (by simp)
        have hi := ih h.tail
        have hle : (deliver sent os).2.length ≤ sent.length := deliver_length_le sent os
        simp only [run, deliver, how, ht, ↓reduceIte, zero_add, List.length_cons]
        refine ⟨by rw [hi.1], ?_⟩
        rw [hi.2]
        congr 1
        omega
      · have hr := h.refuses 0 o (by simp) (by simpa using fun hw => how hw.symm)
        have hi := ih h
        simp only [run, deliver, how, hr, ↓reduceIte]
        exact ⟨by rw [hi.1], hi.2⟩

/-- Every state of a run is one of the receiver's numbered states. -/
theorem InOrder.run_state [DecidableEq ω] (h : InOrder step st sent) (os : List ω) :
    ∃ j ≤ sent.length, (run step (st 0) os).2 = st j :=
  ⟨_, Nat.sub_le _ _, (h.run_eq os).2⟩

/-- A refused offer leaves the state as it was. -/
theorem InOrder.refused_unchanged (h : InOrder step st sent) {j : ℕ}
    (hj : j ≤ sent.length) {o : ω} (ho : (step (st j) o).1 = none) : (step (st j) o).2 = st j := by
  by_cases hs : sent[j]?.map Prod.fst = some o
  · obtain ⟨⟨w, m⟩, hw, rfl⟩ := Option.map_eq_some_iff.mp hs
    rw [h.takes j _ m hw] at ho
    simp at ho
  · rw [h.refuses j o hj hs]

/-- Offering the sent items in order delivers all of them. -/
theorem InOrder.run_sent (h : InOrder step st sent) :
    run step (st 0) (sent.map Prod.fst) = (sent.map (fun p => some p.2), st sent.length) := by
  induction sent generalizing st with
  | nil => rfl
  | cons p sent ih =>
    have ht := h.takes 0 p.1 p.2 (by simp)
    have hi := ih h.tail
    simp only [zero_add] at ht hi
    simp only [List.map_cons, run, ht, hi, List.length_cons]

/-- An ordered channel from receiving state `s` to `s'`: the wire items deliver
their contents in order, whatever else is offered is answered as in-order
delivery answers it, and a refusal changes nothing in any state of a run. -/
structure Ordered [DecidableEq ω] (step : σ → ω → Option μ × σ) (s s' : σ) (wire : List ω)
    (msgs : List μ) : Prop where
  delivers : run step s wire = (msgs.map some, s')
  offers : ∀ os, (run step s os).1 = (deliver (wire.zip msgs) os).1
  refused : ∀ os o, (step (run step s os).2 o).1 = none →
    (step (run step s os).2 o).2 = (run step s os).2

theorem InOrder.ordered [DecidableEq ω] (h : InOrder step st sent) :
    Ordered step (st 0) (st sent.length) (sent.map Prod.fst) (sent.map Prod.snd) where
  delivers := by rw [h.run_sent, List.map_map]; rfl
  offers os := by rw [← List.zip_of_prod rfl rfl]; exact (h.run_eq os).1
  refused os o ho := by
    obtain ⟨j, hj, hs⟩ := h.run_state os
    rw [hs] at ho ⊢
    exact h.refused_unchanged hj ho

end Conclave.Lib.Channel
