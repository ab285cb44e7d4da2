import Mathlib

/-! When a key was last used in a list of acts, and orders of keys by it. -/

namespace Conclave.Lib

variable {α κ : Type*} [DecidableEq κ] {uses : α → Option κ} {acts : List α} {a : α} {k : κ}
  {order : List κ}

/-- One more than the index of the last act that used the key, and zero without one. -/
def lastUse (uses : α → Option κ) (acts : List α) (k : κ) : ℕ :=
  acts.length - acts.reverse.findIdx fun a => decide (uses a = some k)

theorem lastUse_le : lastUse uses acts k ≤ acts.length := Nat.sub_le _ _

theorem lastUse_snoc :
    lastUse uses (acts ++ [a]) k =
      if uses a = some k then acts.length + 1 else lastUse uses acts k := by
  rw [lastUse, List.reverse_append, List.reverse_singleton, List.singleton_append,
    List.findIdx_cons, List.length_append, List.length_singleton]
  by_cases h : uses a = some k
  · simp [h]
  · simp [h, lastUse]

/-- The keys in the order of their last uses, each used at another time. -/
def ByUse (uses : α → Option κ) (acts : List α) (order : List κ) : Prop :=
  order.Pairwise fun j k => lastUse uses acts j < lastUse uses acts k

namespace ByUse

theorem sublist {order' : List κ} (h : ByUse uses acts order) (hs : order'.Sublist order) :
    ByUse uses acts order' := List.Pairwise.sublist hs h

/-- An act that uses none of the keys. -/
theorem snoc (h : ByUse uses acts order) (ha : ∀ k ∈ order, uses a ≠ some k) :
    ByUse uses (acts ++ [a]) order := by
  refine List.Pairwise.imp_of_mem (fun {j k} hj hk hlt => ?_) h
  rwa [lastUse_snoc, lastUse_snoc, if_neg (ha j hj), if_neg (ha k hk)]

/-- The key that an act uses goes to the end. -/
theorem use (h : ByUse uses acts order) (ha : uses a = some k) (hk : k ∉ order) :
    ByUse uses (acts ++ [a]) (order ++ [k]) := by
  have hne : ∀ j ∈ order, uses a ≠ some j := by
    intro j hj heq
    exact hk (Option.some.inj (ha.symm.trans heq) ▸ hj)
  refine List.pairwise_append.mpr ⟨h.snoc hne, List.pairwise_singleton _ _, fun j hj i hi => ?_⟩
  obtain rfl := List.mem_singleton.mp hi
  rw [lastUse_snoc, lastUse_snoc, if_neg (hne j hj), if_pos ha]
  exact Nat.lt_succ_of_le lastUse_le

end ByUse

end Conclave.Lib
