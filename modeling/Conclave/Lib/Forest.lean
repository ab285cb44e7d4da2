import Mathlib

/-! Nodes linked to a parent and to their children in order. A forest is such links that
agree and have no cycle; taking a node with what is under it away from its parent, and
putting it under another one, keeps a forest, and says which nodes are above which. -/

namespace Conclave.Lib

variable {V : Type*}

structure Links (V : Type*) where
  parent : V → Option V
  children : V → List V

namespace Links

/-- `a` is an ancestor of `v`, and not `v` itself. -/
def Above (L : Links V) (a v : V) : Prop :=
  Relation.TransGen (fun x y => L.parent y = some x) a v

/-- `v` is `a` or has it as an ancestor. -/
def Under (L : Links V) (a v : V) : Prop :=
  Relation.ReflTransGen (fun x y => L.parent y = some x) a v

structure Forest (L : Links V) : Prop where
  mem_children : ∀ p c, c ∈ L.children p ↔ L.parent c = some p
  nodup : ∀ p, (L.children p).Nodup
  acyclic : ∀ v, ¬ L.Above v v

variable {L : Links V} {a b c p v : V}

theorem Under.refl (L : Links V) (v : V) : L.Under v v := Relation.ReflTransGen.refl

theorem Under.trans (hab : L.Under a b) (hbc : L.Under b c) : L.Under a c :=
  Relation.ReflTransGen.trans hab hbc

theorem Above.under (h : L.Above a v) : L.Under a v := h.to_reflTransGen

theorem above_of_parent (h : L.parent v = some p) : L.Above p v := .single h

theorem Under.above (h : L.Under a p) (hp : L.parent v = some p) : L.Above a v :=
  Relation.TransGen.tail' h hp

theorem Above.trans_under (h : L.Above a b) (hb : L.Under b c) : L.Above a c :=
  Relation.TransGen.trans_left h hb

theorem under_iff : L.Under a v ↔ v = a ∨ L.Above a v :=
  Relation.reflTransGen_iff_eq_or_transGen

theorem above_iff : L.Above a v ↔ ∃ p, L.parent v = some p ∧ L.Under a p := by
  rw [Above, Relation.TransGen.tail'_iff]
  exact ⟨fun ⟨p, hu, hp⟩ => ⟨p, hp, hu⟩, fun ⟨p, hp, hu⟩ => ⟨p, hu, hp⟩⟩

theorem not_above_of_root (h : L.parent v = none) : ¬ L.Above a v := by
  rw [above_iff]
  rintro ⟨p, hp, -⟩
  rw [h] at hp
  cases hp

theorem under_root_iff (h : L.parent v = none) : L.Under a v ↔ v = a := by
  rw [under_iff, or_iff_left (not_above_of_root h)]

/-- The ancestors of a node are on one chain. -/
theorem Under.total (ha : L.Under a v) (hb : L.Under b v) : L.Under a b ∨ L.Under b a := by
  induction ha with
  | refl => exact .inr hb
  | @tail x y hax hxy ih =>
    obtain rfl | habove := under_iff.mp hb
    · exact .inl (hax.trans (above_of_parent hxy).under)
    · obtain ⟨p, hp, hbp⟩ := above_iff.mp habove
      obtain rfl := Option.some.inj (hp.symm.trans hxy)
      exact ih hbp

namespace Forest

theorem not_above_under (h : L.Forest) (hab : L.Above a b) : ¬ L.Under b a :=
  fun hba => h.acyclic a (hab.trans_under hba)

theorem antisymm (h : L.Forest) (hab : L.Under a b) (hba : L.Under b a) : a = b := by
  obtain rfl | habove := under_iff.mp hab
  · rfl
  · exact absurd hba (h.not_above_under habove)

theorem ne_of_parent (h : L.Forest) (hp : L.parent c = some p) : c ≠ p := by
  rintro rfl
  exact h.acyclic c (above_of_parent hp)

end Forest

section edit

variable [DecidableEq V]

/-- A node without its parent. -/
def detach (L : Links V) (c : V) : Links V where
  parent v := if v = c then none else L.parent v
  children p := (L.children p).erase c

/-- A node below a parent, whose children are then the given ones. -/
def attach (L : Links V) (p c : V) (kids : List V) : Links V where
  parent v := if v = c then some p else L.parent v
  children q := if q = p then kids else L.children q

theorem detach_parent_eq_some :
    (L.detach c).parent v = some p ↔ v ≠ c ∧ L.parent v = some p := by
  simp only [detach]
  by_cases hv : v = c
  · simp [hv]
  · simp [hv]

/-- What is above a node once another one has lost its parent. -/
theorem Forest.detach_above (h : L.Forest) :
    (L.detach c).Above a v ↔ L.Above a v ∧ ¬ (L.Above a c ∧ L.Under c v) := by
  constructor
  · intro hav
    induction hav with
    | single hp =>
      obtain ⟨hne, hp⟩ := detach_parent_eq_some.mp hp
      refine ⟨.single hp, fun ⟨hac, hcv⟩ => ?_⟩
      obtain rfl | hcv := under_iff.mp hcv
      · exact hne rfl
      · obtain ⟨p, hp', hcp⟩ := above_iff.mp hcv
        obtain rfl := Option.some.inj (hp'.symm.trans hp)
        exact h.not_above_under hac hcp
    | @tail b v hab hp ih =>
      obtain ⟨hne, hp⟩ := detach_parent_eq_some.mp hp
      refine ⟨ih.1.tail hp, fun ⟨hac, hcv⟩ => ?_⟩
      obtain rfl | hcv := under_iff.mp hcv
      · exact hne rfl
      · obtain ⟨p, hp', hcp⟩ := above_iff.mp hcv
        obtain rfl := Option.some.inj (hp'.symm.trans hp)
        exact ih.2 ⟨hac, hcp⟩
  · rintro ⟨hav, hnot⟩
    induction hav with
    | @single v hp =>
      refine .single (detach_parent_eq_some.mpr ⟨?_, hp⟩)
      rintro rfl
      exact hnot ⟨.single hp, .refl L _⟩
    | @tail b v hab hp ih =>
      refine (ih fun ⟨hac, hcb⟩ => hnot ⟨hac, hcb.trans (above_of_parent hp).under⟩).tail
        (detach_parent_eq_some.mpr ⟨?_, hp⟩)
      rintro rfl
      exact hnot ⟨hab.tail hp, .refl L _⟩

theorem Forest.detach (h : L.Forest) (c : V) : (L.detach c).Forest where
  mem_children p v := by
    rw [detach_parent_eq_some, ← h.mem_children p v]
    exact (h.nodup p).mem_erase_iff
  nodup p := (h.nodup p).erase c
  acyclic v hv := h.acyclic v (h.detach_above.mp hv).1

theorem Forest.detach_of_root (h : L.Forest) (hc : L.parent c = none) : L.detach c = L := by
  have hnot : ∀ q, c ∉ L.children q := fun q hm => by
    rw [h.mem_children, hc] at hm
    cases hm
  obtain ⟨parent, children⟩ := L
  simp only [Links.detach, mk.injEq]
  refine ⟨funext fun v => ?_, funext fun q => List.erase_of_not_mem (hnot q)⟩
  by_cases hv : v = c
  · subst hv
    simpa using hc.symm
  · exact if_neg hv

theorem attach_parent_of_ne {kids : List V} (hv : v ≠ c) :
    (L.attach p c kids).parent v = L.parent v := if_neg hv

/-- What is above a node once a root has got a parent. -/
theorem attach_above {kids : List V} (hc : L.parent c = none) (hcp : ¬ L.Under c p) :
    (L.attach p c kids).Above a v ↔ L.Above a v ∨ (L.Under a p ∧ L.Under c v) := by
  have hmono : ∀ x y, L.parent y = some x → (L.attach p c kids).parent y = some x := by
    intro x y hy
    rwa [attach_parent_of_ne]
    rintro rfl
    rw [hc] at hy
    cases hy
  have hnew : (L.attach p c kids).parent c = some p := if_pos rfl
  constructor
  · intro hav
    induction hav with
    | @single v hp =>
      by_cases hv : v = c
      · subst hv
        obtain rfl := Option.some.inj (hnew.symm.trans hp)
        exact .inr ⟨.refl L _, .refl L _⟩
      · rw [attach_parent_of_ne hv] at hp
        exact .inl (.single hp)
    | @tail b v hab hp ih =>
      by_cases hv : v = c
      · subst hv
        obtain rfl := Option.some.inj (hnew.symm.trans hp)
        obtain habove | ⟨-, hvb⟩ := ih
        · exact .inr ⟨habove.under, .refl L _⟩
        · exact absurd hvb hcp
      · rw [attach_parent_of_ne hv] at hp
        obtain habove | ⟨hap, hcb⟩ := ih
        · exact .inl (habove.tail hp)
        · exact .inr ⟨hap, hcb.trans (above_of_parent hp).under⟩
  · have hlift : ∀ {x y}, L.Under x y → (L.attach p c kids).Under x y :=
      fun hxy => Relation.ReflTransGen.mono hmono _ _ hxy
    rintro (habove | ⟨hap, hcv⟩)
    · exact Relation.TransGen.mono hmono _ _ habove
    · exact ((hlift hap).above hnew).trans_under (hlift hcv)

theorem Forest.attach {kids : List V} (h : L.Forest) (hc : L.parent c = none)
    (hcp : ¬ L.Under c p) (hkids : kids.Perm (c :: L.children p)) :
    (L.attach p c kids).Forest where
  mem_children q v := by
    have hnot : ∀ q, c ∉ L.children q := fun q hm => by
      rw [h.mem_children, hc] at hm
      cases hm
    by_cases hq : q = p
    · subst hq
      simp only [Links.attach, if_pos, hkids.mem_iff, List.mem_cons, h.mem_children]
      by_cases hv : v = c
      · simp [hv]
      · simp [hv]
    · simp only [Links.attach, if_neg hq, h.mem_children]
      by_cases hv : v = c
      · subst hv
        simp [hc, Ne.symm hq]
      · simp [hv]
  nodup q := by
    by_cases hq : q = p
    · subst hq
      simp only [Links.attach, if_pos]
      refine hkids.nodup_iff.mpr (List.nodup_cons.mpr ⟨fun hm => ?_, h.nodup q⟩)
      rw [h.mem_children, hc] at hm
      cases hm
    · simpa only [Links.attach, if_neg hq] using h.nodup q
  acyclic v hv := by
    obtain habove | ⟨hvp, hcv⟩ := (attach_above hc hcp).mp hv
    · exact h.acyclic v habove
    · exact hcp (hcv.trans hvp)

end edit

/-! ### Walks -/

/-- The nodes from one up to the last ancestor, none when more than `n` come up. -/
def climb (parent : V → Option V) : ℕ → Option V → Option (List V)
  | _, none => some []
  | 0, some _ => none
  | n + 1, some v => (climb parent n (parent v)).map (v :: ·)

theorem mem_climb {n : ℕ} {o : Option V} {vs : List V} (h : climb L.parent n o = some vs)
    (x : V) : x ∈ vs ↔ ∃ v, o = some v ∧ L.Under x v := by
  induction n generalizing o vs with
  | zero =>
    cases o with
    | none => simp [← Option.some.inj h]
    | some v => cases h
  | succ n ih =>
    cases o with
    | none => simp [← Option.some.inj h]
    | some v =>
      obtain ⟨rest, hrest, rfl⟩ := Option.map_eq_some_iff.mp h
      simp only [List.mem_cons, ih hrest, Option.some.injEq, exists_eq_left', under_iff (v := v),
        above_iff, eq_comm (a := x)]

/-- In a forest the walk up ends, within as many steps as there are nodes to meet. -/
theorem Forest.climb_isSome (h : L.Forest) (s : Finset V) :
    ∀ v, (∀ x, L.Under x v → x ∈ s) → ∃ vs, climb L.parent s.card (some v) = some vs := by
  classical
  induction hn : s.card generalizing s with
  | zero =>
    intro v hs
    rw [Finset.card_eq_zero.mp hn] at hs
    exact absurd (hs v (.refl L v)) (Finset.notMem_empty v)
  | succ n ih =>
    intro v hs
    have hv : v ∈ s := hs v (.refl L v)
    cases hp : L.parent v with
    | none => exact ⟨[v], by cases n <;> simp [climb, hp]⟩
    | some p =>
      have hcard : (s.erase v).card = n := by rw [Finset.card_erase_of_mem hv, hn]; rfl
      obtain ⟨vs, hvs⟩ := ih (s.erase v) hcard p fun x hx => by
        refine Finset.mem_erase.mpr ⟨?_, hs x (hx.above hp).under⟩
        rintro rfl
        exact h.acyclic x (hx.above hp)
      exact ⟨v :: vs, by rw [climb, hp, hvs, Option.map_some]⟩

theorem climb_mono {parent : V → Option V} {n m : ℕ} (hnm : n ≤ m) {o : Option V} {vs : List V}
    (h : climb parent n o = some vs) : climb parent m o = some vs := by
  induction n generalizing o vs m with
  | zero =>
    cases o with
    | none => cases m <;> exact h
    | some v => cases h
  | succ n ih =>
    cases o with
    | none => cases m <;> exact h
    | some v =>
      obtain ⟨m, rfl⟩ := Nat.exists_eq_succ_of_ne_zero (Nat.ne_of_gt (Nat.zero_lt_of_lt hnm))
      obtain ⟨rest, hrest, rfl⟩ := Option.map_eq_some_iff.mp h
      rw [climb, ih (Nat.le_of_succ_le_succ hnm) hrest, Option.map_some]

/-- A depth-first walk: the nodes on a stack, each before its children, in order. -/
inductive Visits (children : V → List V) : List V → List V → Prop
  | nil : Visits children [] []
  | cons {v : V} {stack order : List V} (h : Visits children (children v ++ stack) order) :
      Visits children (v :: stack) (v :: order)

namespace Visits

variable {children : V → List V} {stack order order' : List V}

theorem unique (h : Visits children stack order) (h' : Visits children stack order') :
    order = order' := by
  induction h generalizing order' with
  | nil => cases h'; rfl
  | cons _ ih =>
    cases h' with
    | cons h' => rw [ih h']

end Visits

/-- The walk as a list, of so many nodes at most. -/
def preorder (children : V → List V) : ℕ → List V → List V
  | 0, _ => []
  | _, [] => []
  | n + 1, v :: stack => v :: preorder children n (children v ++ stack)

theorem Visits.preorder_eq {children : V → List V} {stack order : List V}
    (h : Visits children stack order) {n : ℕ} (hn : order.length ≤ n) :
    preorder children n stack = order := by
  induction h generalizing n with
  | nil => cases n <;> rfl
  | @cons v stack order _ ih =>
    obtain ⟨n, rfl⟩ := Nat.exists_eq_succ_of_ne_zero (Nat.ne_of_gt (Nat.zero_lt_of_lt hn))
    rw [preorder, ih (Nat.le_of_succ_le_succ hn)]

/-- A walk meets what is under the nodes of its stack, with the children in any order. -/
theorem Forest.mem_visits (h : L.Forest) {children : V → List V}
    (hperm : ∀ v, (children v).Perm (L.children v)) {stack order : List V}
    (hv : Visits children stack order) (x : V) : x ∈ order ↔ ∃ v ∈ stack, L.Under v x := by
  have hmem : ∀ v w, w ∈ children v ↔ L.parent w = some v := fun v w =>
    (hperm v).mem_iff.trans (h.mem_children v w)
  induction hv with
  | nil => simp
  | @cons v stack order _ ih =>
    refine List.mem_cons.trans ((or_congr_right ih).trans ?_)
    constructor
    · rintro (rfl | ⟨w, hw, hwx⟩)
      · exact ⟨x, List.mem_cons_self, .refl L x⟩
      · obtain hw | hw := List.mem_append.mp hw
        · exact ⟨v, List.mem_cons_self, (above_of_parent ((hmem v w).mp hw)).under.trans hwx⟩
        · exact ⟨w, List.mem_cons_of_mem v hw, hwx⟩
    · rintro ⟨w, hw, hwx⟩
      obtain rfl | hw := List.mem_cons.mp hw
      · obtain rfl | ⟨c, hc, hcx⟩ := Relation.ReflTransGen.cases_head hwx
        · exact .inl rfl
        · exact .inr ⟨c, List.mem_append_left _ ((hmem w c).mpr hc), hcx⟩
      · exact .inr ⟨w, List.mem_append_right _ hw, hwx⟩

/-- No node of the list is under another one. -/
def Apart (L : Links V) (stack : List V) : Prop :=
  stack.Pairwise fun a b => ¬ L.Under a b ∧ ¬ L.Under b a

theorem Forest.apart_children (h : L.Forest) (v : V) : L.Apart (L.children v) := by
  refine (h.nodup v).imp_of_mem fun {a b} ha hb hne => ?_
  rw [h.mem_children] at ha hb
  constructor
  · intro hab
    obtain rfl | hab := under_iff.mp hab
    · exact hne rfl
    · obtain ⟨p, hp, hap⟩ := above_iff.mp hab
      obtain rfl := Option.some.inj (hp.symm.trans hb)
      exact h.not_above_under (above_of_parent ha) hap
  · intro hba
    obtain rfl | hba := under_iff.mp hba
    · exact hne rfl
    · obtain ⟨p, hp, hbp⟩ := above_iff.mp hba
      obtain rfl := Option.some.inj (hp.symm.trans ha)
      exact h.not_above_under (above_of_parent hb) hbp

/-- The walk from nodes that are apart, with the children of each in any order, ends and
meets no node twice. -/
theorem Forest.exists_visits (h : L.Forest) {children : V → List V}
    (hperm : ∀ v, (children v).Perm (L.children v)) (s : Finset V) :
    ∀ stack, L.Apart stack → (∀ v ∈ stack, ∀ x, L.Under v x → x ∈ s) →
      ∃ order, Visits children stack order ∧ order.Nodup ∧ order.length ≤ s.card ∧
        ∀ x ∈ order, x ∈ s := by
  classical
  induction hn : s.card generalizing s with
  | zero =>
    intro stack _ hs
    cases stack with
    | nil => exact ⟨[], .nil, List.nodup_nil, le_rfl, by simp⟩
    | cons v stack =>
      rw [Finset.card_eq_zero.mp hn] at hs
      exact absurd (hs v List.mem_cons_self v (.refl L v)) (Finset.notMem_empty v)
  | succ n ih =>
    intro stack hapart hs
    cases stack with
    | nil => exact ⟨[], .nil, List.nodup_nil, Nat.zero_le _, by simp⟩
    | cons v stack =>
      obtain ⟨hv, hrest⟩ := List.pairwise_cons.mp hapart
      have hvs : v ∈ s := hs v List.mem_cons_self v (.refl L v)
      have hcard : (s.erase v).card = n := by rw [Finset.card_erase_of_mem hvs, hn]; rfl
      have hchild : ∀ c ∈ children v, L.parent c = some v := fun c hc =>
        (h.mem_children v c).mp ((hperm v).mem_iff.mp hc)
      have hstack : L.Apart (children v ++ stack) := by
        refine List.pairwise_append.mpr ⟨?_, hrest, fun c hc w hw => ?_⟩
        · exact ((hperm v).pairwise_iff fun h => ⟨h.2, h.1⟩).mpr (h.apart_children v)
        · have hcv := (above_of_parent (hchild c hc)).under
          refine ⟨fun hcw => (hv w hw).1 (hcv.trans hcw), fun hwc => ?_⟩
          obtain rfl | hwc := under_iff.mp hwc
          · exact (hv c hw).1 hcv
          · obtain ⟨p, hp, hwp⟩ := above_iff.mp hwc
            obtain rfl := Option.some.inj (hp.symm.trans (hchild c hc))
            exact (hv w hw).2 hwp
      obtain ⟨order, hvisits, hnd, hlen, hmem⟩ := ih (s.erase v) hcard _ hstack (by
        intro w hw x hwx
        refine Finset.mem_erase.mpr ⟨?_, ?_⟩
        · rintro rfl
          obtain hw | hw := List.mem_append.mp hw
          · exact h.not_above_under (above_of_parent (hchild w hw)) hwx
          · exact (hv w hw).2 hwx
        · obtain hw | hw := List.mem_append.mp hw
          · exact hs v List.mem_cons_self x
              ((above_of_parent (hchild w hw)).under.trans hwx)
          · exact hs w (List.mem_cons_of_mem v hw) x hwx)
      refine ⟨v :: order, .cons hvisits, List.nodup_cons.mpr ⟨fun hm => ?_, hnd⟩, ?_, ?_⟩
      · exact (Finset.mem_erase.mp (hmem v hm)).1 rfl
      · simpa using hlen
      · rintro x (_ | ⟨_, hx⟩)
        · exact hvs
        · exact (Finset.mem_erase.mp (hmem x hx)).2

end Links

end Conclave.Lib
