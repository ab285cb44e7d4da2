import Mathlib

/-! Marking by three colours. Black nodes are done, grey ones still have edges to follow,
and when no node is grey the black ones are those that the roots reach. -/

namespace Conclave.Lib

variable {V : Type*} {live root black grey black' grey' : V → Prop} {edges : V → List V} {v w : V}

/-- The live nodes reached from the roots. -/
inductive Reachable (live root : V → Prop) (edges : V → List V) : V → Prop
  | root {v : V} (hv : root v) (hl : live v) : Reachable live root edges v
  | edge {v w : V} (hv : Reachable live root edges v) (hw : w ∈ edges v) (hl : live w) :
      Reachable live root edges w

theorem Reachable.is_live (h : Reachable live root edges v) : live v := by
  cases h with
  | root _ hl => exact hl
  | edge _ _ hl => exact hl

theorem Reachable.imp {edges' : V → List V} (h : Reachable live root edges v)
    (he : ∀ v, Reachable live root edges v → edges v ⊆ edges' v) :
    Reachable live root edges' v := by
  induction h with
  | root hv hl => exact .root hv hl
  | edge hv hw hl ih => exact .edge ih (he _ hv hw) hl

/-- Nothing marked is out of reach, the roots are marked, and a black node has no live
white successor. -/
structure Tricolour (live root : V → Prop) (edges : V → List V) (black grey : V → Prop) :
    Prop where
  sound : ∀ v, black v ∨ grey v → Reachable live root edges v
  roots : ∀ v, root v → live v → black v ∨ grey v
  closed : ∀ v, black v → ∀ w ∈ edges v, live w → black w ∨ grey w

namespace Tricolour

/-- With nothing grey left, what is black is what the roots reach. -/
theorem exact (h : Tricolour live root edges black grey) (hgrey : ∀ v, ¬ grey v) :
    black v ↔ Reachable live root edges v := by
  refine ⟨fun hv => h.sound v (.inl hv), fun hv => ?_⟩
  induction hv with
  | root hv hl => exact (h.roots _ hv hl).resolve_right (hgrey _)
  | edge _ hw hl ih => exact (h.closed _ ih _ hw hl).resolve_right (hgrey _)

/-- A grey node turns black, and its live white successors grey. -/
theorem visit (h : Tricolour live root edges black grey) (hv : grey v)
    (hblack : ∀ w, black' w ↔ w = v ∨ black w)
    (hgrey : ∀ w, grey' w ↔ w ≠ v ∧ (grey w ∨ w ∈ edges v ∧ live w ∧ ¬ black w)) :
    Tricolour live root edges black' grey' := by
  have hold : ∀ w, black w ∨ grey w → black' w ∨ grey' w := by
    rintro w (hw | hw)
    · exact .inl ((hblack w).mpr (.inr hw))
    · by_cases hwv : w = v
      · exact .inl ((hblack w).mpr (.inl hwv))
      · exact .inr ((hgrey w).mpr ⟨hwv, .inl hw⟩)
  constructor
  · rintro w (hw | hw)
    · obtain rfl | hw := (hblack w).mp hw
      · exact h.sound _ (.inr hv)
      · exact h.sound w (.inl hw)
    · obtain ⟨-, hw | ⟨hw, hl, -⟩⟩ := (hgrey w).mp hw
      · exact h.sound w (.inr hw)
      · exact .edge (h.sound v (.inr hv)) hw hl
  · exact fun w hw hl => hold w (h.roots w hw hl)
  · intro u hu w hw hl
    by_cases hbw : black w
    · exact hold w (.inl hbw)
    · obtain rfl | hu := (hblack u).mp hu
      · by_cases hwu : w = u
        · exact .inl ((hblack w).mpr (.inl hwu))
        · exact .inr ((hgrey w).mpr ⟨hwu, .inr ⟨hw, hl, hbw⟩⟩)
      · exact hold w (h.closed u hu w hw hl)

end Tricolour

end Conclave.Lib
