import Conclave.Lib.Forest

/-! The order of the nodes of a forest: what comes behind a node in a walk, and which of two
nodes that are apart comes first. -/

namespace Conclave.Lib.Links

variable {V : Type*} {L : Links V} {root a b c p q v w : V} {rest stack order : List V}

/-! ### The rest of a walk -/

/-- The nodes that a walk below the root still has on its stack when it has met a node and what
is under it: the siblings behind the node and behind each of its ancestors. -/
inductive Rest (L : Links V) (root : V) : V → List V → Prop
  | root : Rest L root root []
  | child {p c : V} {front back rest : List V} (h : Rest L root p rest)
      (hsplit : L.children p = front ++ c :: back) : Rest L root c (back ++ rest)

/-- The rest behind a node belongs to its first node and what is behind that one. -/
theorem Rest.next (h : Rest L root v (w :: rest)) : Rest L root w rest := by
  generalize hstack : w :: rest = stack at h
  induction h generalizing w rest with
  | root => cases hstack
  | @child p c front back tail h hsplit ih =>
    cases back with
    | nil => exact ih hstack
    | cons d back =>
      cases hstack
      rw [← List.singleton_append, ← List.append_assoc] at hsplit
      exact .child h hsplit

/-- A walk goes from a node to the head of what is on its stack then. -/
theorem Rest.visit (h : Rest L root v rest) (hstack : L.children v ++ rest = w :: stack) :
    Rest L root w stack := by
  cases hkids : L.children v with
  | nil =>
    rw [hkids, List.nil_append] at hstack
    rw [hstack] at h
    exact h.next
  | cons d back =>
    rw [hkids] at hstack
    cases hstack
    exact @Rest.child _ L root v _ [] _ rest h hkids

theorem Forest.under_of_rest (hf : L.Forest) (h : L.Rest root v rest) : L.Under root v := by
  induction h with
  | root => exact .refl L root
  | @child p c front back rest _ hsplit ih =>
    have hmem : c ∈ L.children p := by
      rw [hsplit]
      exact List.mem_append_right _ (List.mem_cons_self ..)
    exact ih.trans (above_of_parent ((hf.mem_children p c).mp hmem)).under

theorem Forest.parent_of_mem_rest (hf : L.Forest) (h : L.Rest root v rest) (hw : w ∈ rest) :
    ∃ p, L.parent w = some p := by
  induction h with
  | root => cases hw
  | @child p c front back rest _ hsplit ih =>
    rcases List.mem_append.mp hw with hw | hw
    · refine ⟨p, (hf.mem_children p w).mp ?_⟩
      rw [hsplit]
      exact List.mem_append_right _ (List.mem_cons_of_mem _ hw)
    · exact ih hw

/-! ### Left and right -/

/-- A child of a node at some place, and what is under it. -/
def ChildOver (L : Links V) (p : V) (i : ℕ) (v : V) : Prop :=
  ∃ c, (L.children p)[i]? = some c ∧ L.Under c v

/-- Two nodes are under two children of one node, the first under the earlier one. -/
def Left (L : Links V) (a b : V) : Prop :=
  ∃ p i j, i < j ∧ L.ChildOver p i a ∧ L.ChildOver p j b

namespace Forest

variable {i j : ℕ}

theorem parent_of_getElem (h : L.Forest) (hc : (L.children p)[i]? = some c) :
    L.parent c = some p := (h.mem_children p c).mp (List.mem_of_getElem? hc)

theorem exists_childOver (h : L.Forest) (hav : L.Above p v) : ∃ i, L.ChildOver p i v := by
  obtain ⟨c, hc, hcv⟩ := Relation.TransGen.head'_iff.mp hav
  obtain ⟨i, hi⟩ := List.getElem?_of_mem ((h.mem_children p c).mpr hc)
  exact ⟨i, c, hi, hcv⟩

theorem above_of_childOver (h : L.Forest) (hv : L.ChildOver p i v) : L.Above p v := by
  obtain ⟨c, hc, hcv⟩ := hv
  exact (above_of_parent (h.parent_of_getElem hc)).trans_under hcv

/-- Only one child of a node is above a node or is that node. -/
theorem child_unique (h : L.Forest) (ha : L.parent a = some p) (hb : L.parent b = some p)
    (hav : L.Under a v) (hbv : L.Under b v) : a = b := by
  have hnot : ∀ {x y : V}, L.parent x = some p → L.parent y = some p → L.Under x y → x = y := by
    intro x y hx hy hxy
    rcases under_iff.mp hxy with rfl | habove
    · rfl
    · obtain ⟨q, hq, hxq⟩ := above_iff.mp habove
      obtain rfl := Option.some.inj (hq.symm.trans hy)
      exact absurd hxq (h.not_above_under (above_of_parent hx))
  rcases hav.total hbv with hab | hba
  · exact hnot ha hb hab
  · exact (hnot hb ha hba).symm

theorem childOver_unique (h : L.Forest) (hi : L.ChildOver p i v) (hj : L.ChildOver p j v) :
    i = j := by
  obtain ⟨a, ha, hav⟩ := hi
  obtain ⟨b, hb, hbv⟩ := hj
  obtain rfl := h.child_unique (h.parent_of_getElem ha) (h.parent_of_getElem hb) hav hbv
  exact (List.getElem?_inj (List.getElem?_eq_some_iff.mp ha).1 (h.nodup p)).mp (ha.trans hb.symm)

theorem not_under_of_left (h : L.Forest) (hab : L.Left a b) : ¬ L.Under a b ∧ ¬ L.Under b a := by
  obtain ⟨p, i, j, hlt, ⟨x, hx, hxa⟩, ⟨y, hy, hyb⟩⟩ := hab
  constructor
  · intro hu
    have := h.childOver_unique ⟨x, hx, hxa.trans hu⟩ ⟨y, hy, hyb⟩
    omega
  · intro hu
    have := h.childOver_unique ⟨x, hx, hxa⟩ ⟨y, hy, hyb.trans hu⟩
    omega

/-- The place where two nodes part is their own. -/
theorem parting_unique (h : L.Forest) {i' j' : ℕ} (hij : i ≠ j) (hij' : i' ≠ j')
    (hi : L.ChildOver p i a) (hj : L.ChildOver p j b) (hi' : L.ChildOver q i' a)
    (hj' : L.ChildOver q j' b) : p = q := by
  have hnot : ∀ {p q : V} {i j i' j' : ℕ}, i ≠ j → L.ChildOver p i a → L.ChildOver p j b →
      L.ChildOver q i' a → L.ChildOver q j' b → ¬ L.Above p q := by
    intro p q i j i' j' hij hi hj hi' hj' hpq
    obtain ⟨k, x, hx, hxq⟩ := h.exists_childOver hpq
    have hia := h.childOver_unique hi
      ⟨x, hx, hxq.trans (h.above_of_childOver hi').under⟩
    have hjb := h.childOver_unique hj
      ⟨x, hx, hxq.trans (h.above_of_childOver hj').under⟩
    exact hij (hia.trans hjb.symm)
  rcases (h.above_of_childOver hi).under.total (h.above_of_childOver hi').under with hpq | hqp
  · rcases under_iff.mp hpq with rfl | habove
    · rfl
    · exact absurd habove (hnot hij hi hj hi' hj')
  · rcases under_iff.mp hqp with rfl | habove
    · rfl
    · exact absurd habove (hnot hij' hi' hj' hi hj)

theorem left_asymm (h : L.Forest) (hab : L.Left a b) : ¬ L.Left b a := by
  rintro ⟨q, j', i', hlt', hb', ha'⟩
  obtain ⟨p, i, j, hlt, ha, hb⟩ := hab
  obtain rfl := h.parting_unique (by omega) (by omega) ha hb ha' hb'
  have hi := h.childOver_unique ha ha'
  have hj := h.childOver_unique hb hb'
  omega

end Forest

theorem ChildOver.trans {i : ℕ} (h : L.ChildOver p i a) (hab : L.Under a b) : L.ChildOver p i b := by
  obtain ⟨c, hc, hca⟩ := h
  exact ⟨c, hc, hca.trans hab⟩

theorem Left.under_right (h : L.Left a b) (hbc : L.Under b c) : L.Left a c := by
  obtain ⟨p, i, j, hlt, ha, hb⟩ := h
  exact ⟨p, i, j, hlt, ha, hb.trans hbc⟩

theorem Left.under_left (h : L.Left a b) (hac : L.Under a c) : L.Left c b := by
  obtain ⟨p, i, j, hlt, ha, hb⟩ := h
  exact ⟨p, i, j, hlt, ha.trans hac, hb⟩

/-! ### Between two points -/

/-- A node behind the point of a node that has so many of its children before it. -/
def After (L : Links V) (s : V) (i : ℕ) (v : V) : Prop :=
  (∃ k, i ≤ k ∧ L.ChildOver s k v) ∨ L.Left s v

/-- A node that ends before such a point. -/
def Before (L : Links V) (e : V) (j : ℕ) (v : V) : Prop :=
  (∃ k, k < j ∧ L.ChildOver e k v) ∨ L.Left v e

def Between (L : Links V) (s : V) (i : ℕ) (e : V) (j : ℕ) (v : V) : Prop :=
  L.After s i v ∧ L.Before e j v

/-- The points of two different nodes are in tree order. -/
def Ordered (L : Links V) (s : V) (i : ℕ) (e : V) (j : ℕ) : Prop :=
  (∃ k, i ≤ k ∧ L.ChildOver s k e) ∨ (∃ k, k < j ∧ L.ChildOver e k s) ∨ L.Left s e

/-- The lowest node that two nodes are under. -/
structure Common (L : Links V) (p a b : V) : Prop where
  left : L.Under p a
  right : L.Under p b
  lowest : ∀ q, L.Under q a → L.Under q b → L.Under q p

namespace Forest

variable {s e : V} {i j k : ℕ}

theorem not_after_of_under (h : L.Forest) (hv : L.Under v s) : ¬ L.After s i v := by
  rintro (⟨k, -, hk⟩ | hleft)
  · exact h.not_above_under (h.above_of_childOver hk) hv
  · exact (h.not_under_of_left hleft).2 hv

theorem not_before_of_under (h : L.Forest) (hv : L.Under v e) : ¬ L.Before e j v := by
  rintro (⟨k, -, hk⟩ | hleft)
  · exact h.not_above_under (h.above_of_childOver hk) hv
  · exact (h.not_under_of_left hleft).1 hv

theorem after_childOver (h : L.Forest) (hk : L.ChildOver s k v) : L.After s i v ↔ i ≤ k := by
  constructor
  · rintro (⟨k', hle, hk'⟩ | hleft)
    · rwa [h.childOver_unique hk hk']
    · exact absurd (h.above_of_childOver hk).under (h.not_under_of_left hleft).1
  · exact fun hle => .inl ⟨k, hle, hk⟩

theorem before_childOver (h : L.Forest) (hk : L.ChildOver e k v) : L.Before e j v ↔ k < j := by
  constructor
  · rintro (⟨k', hlt, hk'⟩ | hleft)
    · rwa [h.childOver_unique hk hk']
    · exact absurd (h.above_of_childOver hk).under (h.not_under_of_left hleft).2
  · exact fun hlt => .inl ⟨k, hlt, hk⟩

/-- Nodes under two children are ordered as the children are. -/
theorem left_iff (h : L.Forest) (ha : L.ChildOver p i a) (hb : L.ChildOver p j b) (hne : i ≠ j) :
    L.Left a b ↔ i < j := by
  constructor
  · intro hleft
    by_contra hge
    exact h.left_asymm hleft ⟨p, j, i, by omega, hb, ha⟩
  · exact fun hlt => ⟨p, i, j, hlt, ha, hb⟩

/-- Between two points of one node are the children from one to the other. -/
theorem between_self (h : L.Forest) :
    L.Between s i s j v ↔ ∃ k, i ≤ k ∧ k < j ∧ L.ChildOver s k v := by
  constructor
  · rintro ⟨hafter | hleft, hbefore⟩
    · obtain ⟨k, hle, hk⟩ := hafter
      exact ⟨k, hle, (h.before_childOver hk).mp hbefore, hk⟩
    · rcases hbefore with ⟨k, -, hk⟩ | hright
      · exact absurd (h.above_of_childOver hk).under (h.not_under_of_left hleft).1
      · exact absurd hright (h.left_asymm hleft)
  · rintro ⟨k, hle, hlt, hk⟩
    exact ⟨(h.after_childOver hk).mpr hle, (h.before_childOver hk).mpr hlt⟩

/-- A node under a child of another one is that child, or its parent is under it as well. -/
theorem childOver_parent (h : L.Forest) (hc : L.ChildOver q k c) (hp : L.parent c = some p) :
    q = p ∨ L.ChildOver q k p := by
  obtain ⟨x, hx, hxc⟩ := hc
  rcases under_iff.mp hxc with rfl | habove
  · exact .inl (Option.some.inj ((h.parent_of_getElem hx).symm.trans hp))
  · obtain ⟨p', hp', hxp⟩ := above_iff.mp habove
    obtain rfl := Option.some.inj (hp'.symm.trans hp)
    exact .inr ⟨x, hx, hxp⟩

/-- What is between two points has its parent between them too, unless that one is above one of
the two. -/
theorem between_parent (h : L.Forest) (hc : L.Between s i e j c) (hp : L.parent c = some p)
    (hs : ¬ L.Under p s) (he : ¬ L.Under p e) : L.Between s i e j p := by
  constructor
  · rcases hc.1 with ⟨k, hle, hk⟩ | ⟨q, i', j', hlt, hqs, hqc⟩
    · rcases h.childOver_parent hk hp with rfl | hk
      · exact absurd (.refl L _) hs
      · exact .inl ⟨k, hle, hk⟩
    · rcases h.childOver_parent hqc hp with rfl | hqp
      · exact absurd (h.above_of_childOver hqs).under hs
      · exact .inr ⟨q, i', j', hlt, hqs, hqp⟩
  · rcases hc.2 with ⟨k, hlt, hk⟩ | ⟨q, i', j', hlt, hqc, hqe⟩
    · rcases h.childOver_parent hk hp with rfl | hk
      · exact absurd (.refl L _) he
      · exact .inl ⟨k, hlt, hk⟩
    · rcases h.childOver_parent hqc hp with rfl | hqp
      · exact absurd (h.above_of_childOver hqe).under he
      · exact .inr ⟨q, i', j', hlt, hqp, hqe⟩

end Forest

/-! ### Points without anything but nodes between them -/

section ends

variable {s e : V} {i j k : ℕ}

theorem After.under (h : L.After s i v) (hvw : L.Under v w) : L.After s i w :=
  h.imp (fun ⟨k, hle, hk⟩ => ⟨k, hle, hk.trans hvw⟩) fun hleft => hleft.under_right hvw

theorem Before.under (h : L.Before e j v) (hvw : L.Under v w) : L.Before e j w :=
  h.imp (fun ⟨k, hlt, hk⟩ => ⟨k, hlt, hk.trans hvw⟩) fun hleft => hleft.under_left hvw

/-- The end is behind the start unless it is the common ancestor. -/
theorem Forest.after_end (h : L.Forest) (hp : L.Common p s e) (hordered : L.Ordered s i e j)
    (he : e ≠ p) : L.After s i e := by
  rcases hordered with hover | ⟨k, -, hk⟩ | hleft
  · exact .inl hover
  · have hup := hp.lowest e (h.above_of_childOver hk).under (.refl L e)
    exact absurd (h.antisymm hup hp.right) he
  · exact .inr hleft

theorem Forest.before_start (h : L.Forest) (hp : L.Common p s e) (hordered : L.Ordered s i e j)
    (hs : s ≠ p) : L.Before e j s := by
  rcases hordered with ⟨k, -, hk⟩ | hover | hleft
  · have hup := hp.lowest s (.refl L s) (h.above_of_childOver hk).under
    exact absurd (h.antisymm hup hp.left) hs
  · exact .inl hover
  · exact .inr hleft

/-- Among the children of a node over the start, those behind it are those behind its place. -/
theorem Forest.after_child (h : L.Forest) (hs : L.ChildOver p i s) (hc : (L.children p)[k]? = some c)
    {m : ℕ} : L.After s m c ↔ i < k := by
  have hk : L.ChildOver p k c := ⟨c, hc, .refl L c⟩
  constructor
  · rintro (⟨k', -, hk'⟩ | hleft)
    · have habove := h.above_of_childOver hk'
      obtain ⟨q, hq, hsq⟩ := above_iff.mp habove
      obtain rfl := Option.some.inj (hq.symm.trans (h.parent_of_getElem hc))
      exact absurd hsq (h.not_above_under (h.above_of_childOver hs))
    · have hne : i ≠ k := by
        rintro rfl
        obtain ⟨d, hd, hds⟩ := hs
        obtain rfl := Option.some.inj (hc.symm.trans hd)
        exact (h.not_under_of_left hleft).2 hds
      exact (h.left_iff hs hk hne).mp hleft
  · exact fun hlt => .inr ((h.left_iff hs hk (by omega)).mpr hlt)

theorem Forest.before_child (h : L.Forest) (he : L.ChildOver p j e)
    (hc : (L.children p)[k]? = some c) {m : ℕ} : L.Before e m c ↔ k < j := by
  have hk : L.ChildOver p k c := ⟨c, hc, .refl L c⟩
  constructor
  · rintro (⟨k', -, hk'⟩ | hleft)
    · have habove := h.above_of_childOver hk'
      obtain ⟨q, hq, heq⟩ := above_iff.mp habove
      obtain rfl := Option.some.inj (hq.symm.trans (h.parent_of_getElem hc))
      exact absurd heq (h.not_above_under (h.above_of_childOver he))
    · have hne : k ≠ j := by
        rintro rfl
        obtain ⟨d, hd, hde⟩ := he
        obtain rfl := Option.some.inj (hc.symm.trans hd)
        exact (h.not_under_of_left hleft).1 hde
      exact (h.left_iff hk he hne).mp hleft
  · exact fun hlt => .inr ((h.left_iff hk he (by omega)).mpr hlt)

theorem Forest.ne_of_getElem (h : L.Forest) (hc : (L.children p)[k]? = some c) : c ≠ p :=
  h.ne_of_parent (h.parent_of_getElem hc)

/-- All children of the common ancestor but the start are behind the start. -/
theorem Forest.start_side (h : L.Forest) (hp : L.Under p s) (hi : i ≤ (L.children s).length) :
    (∀ c ∈ L.children p, ¬ L.After s i c → c = s) ↔
      (s = p ∧ i = 0) ∨ (L.children p)[0]? = some s := by
  by_cases hs : s = p
  · subst hs
    have hnot : (L.children s)[0]? ≠ some s := fun hfirst => h.ne_of_getElem hfirst rfl
    simp only [true_and, hnot, or_false]
    have hchild : ∀ {k c}, (L.children s)[k]? = some c → (L.After s i c ↔ i ≤ k) :=
      fun hc => h.after_childOver ⟨_, hc, .refl L _⟩
    constructor
    · intro hall
      by_contra hpos
      have hlt : 0 < (L.children s).length := by omega
      have hc := List.getElem?_eq_getElem hlt
      have heq := hall _ (List.getElem_mem hlt) (fun hafter => hpos (by
        have := (hchild hc).mp hafter
        omega))
      exact h.ne_of_getElem hc heq
    · rintro rfl c hc hnot
      obtain ⟨k, hk⟩ := List.getElem?_of_mem hc
      exact absurd ((hchild hk).mpr (Nat.zero_le k)) hnot
  · simp only [hs, false_and, false_or]
    obtain ⟨a, ha⟩ := h.exists_childOver ((under_iff.mp hp).resolve_left hs)
    constructor
    · intro hall
      obtain ⟨d, hd, hds⟩ := ha
      have hself := hall d (List.mem_of_getElem? hd) fun hafter =>
        lt_irrefl a ((h.after_child ⟨d, hd, hds⟩ hd).mp hafter)
      subst hself
      have hlen := (List.getElem?_eq_some_iff.mp hd).1
      have hfirst := List.getElem?_eq_getElem (show 0 < (L.children p).length by omega)
      have hsame := hall _ (List.mem_of_getElem? hfirst) fun hafter =>
        absurd ((h.after_child ⟨d, hd, hds⟩ hfirst).mp hafter) (Nat.not_lt_zero a)
      rw [hfirst, hsame]
    · intro hfirst c hc hnot
      obtain ⟨k, hk⟩ := List.getElem?_of_mem hc
      have ha := h.childOver_unique ha ⟨s, hfirst, .refl L s⟩
      subst ha
      have hzero : k = 0 := by
        by_contra hpos
        exact hnot ((h.after_child ⟨s, hfirst, .refl L s⟩ hk).mpr (by omega))
      subst hzero
      exact Option.some.inj (hk.symm.trans hfirst)

/-- All children of the common ancestor but the end are before the end. -/
theorem Forest.end_side (h : L.Forest) (hp : L.Under p e) (hj : j ≤ (L.children e).length) :
    (∀ c ∈ L.children p, ¬ L.Before e j c → c = e) ↔
      (e = p ∧ j = (L.children p).length) ∨ (L.children p).getLast? = some e := by
  rw [List.getLast?_eq_getElem?]
  by_cases he : e = p
  · subst he
    have hnot : (L.children e)[(L.children e).length - 1]? ≠ some e :=
      fun hlast => h.ne_of_getElem hlast rfl
    simp only [true_and, hnot, or_false]
    have hchild : ∀ {k c}, (L.children e)[k]? = some c → (L.Before e j c ↔ k < j) :=
      fun hc => h.before_childOver ⟨_, hc, .refl L _⟩
    constructor
    · intro hall
      by_contra hshort
      have hlt : j < (L.children e).length := by omega
      have hc := List.getElem?_eq_getElem hlt
      have heq := hall _ (List.getElem_mem hlt) fun hbefore =>
        lt_irrefl j ((hchild hc).mp hbefore)
      exact h.ne_of_getElem hc heq
    · rintro rfl c hc hnot
      obtain ⟨k, hk⟩ := List.getElem?_of_mem hc
      exact absurd ((hchild hk).mpr (List.getElem?_eq_some_iff.mp hk).1) hnot
  · simp only [he, false_and, false_or]
    obtain ⟨b, hb⟩ := h.exists_childOver ((under_iff.mp hp).resolve_left he)
    constructor
    · intro hall
      obtain ⟨d, hd, hde⟩ := hb
      have hself := hall d (List.mem_of_getElem? hd) fun hbefore =>
        lt_irrefl b ((h.before_child ⟨d, hd, hde⟩ hd).mp hbefore)
      subst hself
      have hlen := (List.getElem?_eq_some_iff.mp hd).1
      have hlast := List.getElem?_eq_getElem
        (show (L.children p).length - 1 < (L.children p).length by omega)
      have hsame := hall _ (List.mem_of_getElem? hlast) fun hbefore => by
        have := (h.before_child ⟨d, hd, hde⟩ hlast).mp hbefore
        omega
      rw [hlast, hsame]
    · intro hlast c hc hnot
      obtain ⟨k, hk⟩ := List.getElem?_of_mem hc
      have hb := h.childOver_unique hb ⟨e, hlast, .refl L e⟩
      subst hb
      have hk' := (List.getElem?_eq_some_iff.mp hk).1
      have heq : k = (L.children p).length - 1 := by
        by_contra hne
        exact hnot ((h.before_child ⟨e, hlast, .refl L e⟩ hk).mpr (by omega))
      subst heq
      exact Option.some.inj (hk.symm.trans hlast)

/-- No node above the common ancestor has a child between the points. -/
theorem Forest.not_between_of_above (h : L.Forest) (hp : L.Common p s e) (hq : L.Above q p)
    (hc : c ∈ L.children q) : ¬ L.Between s i e j c := by
  rintro ⟨hafter, hbefore⟩
  obtain ⟨m, hm⟩ := h.exists_childOver hq
  obtain ⟨k, hk⟩ := List.getElem?_of_mem hc
  have hlt := (h.after_child (hm.trans hp.left) hk).mp hafter
  have hgt := (h.before_child (hm.trans hp.right) hk).mp hbefore
  omega

/-- The start is at the beginning of the common ancestor, or at the end of its first child. -/
def StartOpen (L : Links V) (p s : V) (i : ℕ) : Prop :=
  (s = p ∧ i = 0) ∨ ((L.children p)[0]? = some s ∧ i = (L.children s).length)

/-- The end is at the end of the common ancestor, or at the beginning of its last child. -/
def EndOpen (L : Links V) (p e : V) (j : ℕ) : Prop :=
  (e = p ∧ j = (L.children p).length) ∨ ((L.children p).getLast? = some e ∧ j = 0)

/-- What is between the points are the children of the common ancestor but the ends, and what is
under these. -/
def OnlyEnds (L : Links V) (p s : V) (i : ℕ) (e : V) (j : ℕ) : Prop :=
  (∀ c ∈ L.children p, L.Between s i e j c ↔ c ≠ s ∧ c ≠ e) ∧
    ∀ q, q ≠ p → ¬ L.Between s i e j q → ∀ c ∈ L.children q, ¬ L.Between s i e j c

/-- The children of the common ancestor are between the points when each is on the right side of
both. -/
theorem Forest.between_children (h : L.Forest) (hp : L.Common p s e)
    (hordered : L.Ordered s i e j) :
    (∀ c ∈ L.children p, L.Between s i e j c ↔ c ≠ s ∧ c ≠ e) ↔
      (∀ c ∈ L.children p, ¬ L.After s i c → c = s) ∧
        ∀ c ∈ L.children p, ¬ L.Before e j c → c = e := by
  have hchild : ∀ {c}, c ∈ L.children p → c ≠ p := fun hc =>
    h.ne_of_parent ((h.mem_children p _).mp hc)
  constructor
  · intro hall
    constructor
    · intro c hc hnot
      by_contra hne
      by_cases hce : c = e
      · subst hce
        exact hnot (h.after_end hp hordered (hchild hc))
      · exact hnot ((hall c hc).mpr ⟨hne, hce⟩).1
    · intro c hc hnot
      by_contra hne
      by_cases hcs : c = s
      · subst hcs
        exact hnot (h.before_start hp hordered (hchild hc))
      · exact hnot ((hall c hc).mpr ⟨hcs, hne⟩).2
  · rintro ⟨hstart, hend⟩ c hc
    constructor
    · rintro ⟨hafter, hbefore⟩
      constructor
      · rintro rfl
        exact h.not_after_of_under (.refl L c) hafter
      · rintro rfl
        exact h.not_before_of_under (.refl L c) hbefore
    · rintro ⟨hcs, hce⟩
      constructor
      · by_contra hnot
        exact hcs (hstart c hc hnot)
      · by_contra hnot
        exact hce (hend c hc hnot)

/-- The start has no child between the points when they are not its common ancestor with the end
and it is at its own end. -/
theorem Forest.start_child (h : L.Forest) (hp : L.Common p s e) (hordered : L.Ordered s i e j)
    (hs : s ≠ p) (hi : i ≤ (L.children s).length)
    (hnone : ∀ c ∈ L.children s, ¬ L.Between s i e j c) : i = (L.children s).length := by
  by_contra hne
  have hlt : i < (L.children s).length := by omega
  have hc := List.getElem?_eq_getElem hlt
  have hover : L.ChildOver s i (L.children s)[i] := ⟨_, hc, .refl L _⟩
  have hunder := (above_of_parent (h.parent_of_getElem hc)).under
  exact hnone _ (List.getElem_mem hlt)
    ⟨.inl ⟨i, le_refl i, hover⟩, (h.before_start hp hordered hs).under hunder⟩

theorem Forest.end_child (h : L.Forest) (hp : L.Common p s e) (hordered : L.Ordered s i e j)
    (he : e ≠ p) (hj : j ≤ (L.children e).length)
    (hnone : ∀ c ∈ L.children e, ¬ L.Between s i e j c) : j = 0 := by
  by_contra hne
  have hlt : 0 < (L.children e).length := by omega
  have hc := List.getElem?_eq_getElem hlt
  have hover : L.ChildOver e 0 (L.children e)[0] := ⟨_, hc, .refl L _⟩
  have hunder := (above_of_parent (h.parent_of_getElem hc)).under
  exact hnone _ (List.getElem_mem hlt)
    ⟨(h.after_end hp hordered he).under hunder, .inl ⟨0, by omega, hover⟩⟩

/-- Above an open start is nothing but the common ancestor and what is above that one. -/
theorem Forest.above_of_startOpen (h : L.Forest) (hs : L.StartOpen p s i) (hq : L.Above q s)
    (hne : q ≠ p) : L.Above q p := by
  rcases hs with ⟨rfl, -⟩ | ⟨hfirst, -⟩
  · exact hq
  · obtain ⟨p', hp', hqp⟩ := above_iff.mp hq
    obtain rfl := Option.some.inj (hp'.symm.trans (h.parent_of_getElem hfirst))
    exact (under_iff.mp hqp).resolve_left hne.symm

theorem Forest.above_of_endOpen (h : L.Forest) (he : L.EndOpen p e j) (hq : L.Above q e)
    (hne : q ≠ p) : L.Above q p := by
  rcases he with ⟨rfl, -⟩ | ⟨hlast, -⟩
  · exact hq
  · obtain ⟨p', hp', hqp⟩ := above_iff.mp hq
    have hparent := (h.mem_children p e).mp (List.mem_of_getLast? hlast)
    obtain rfl := Option.some.inj (hp'.symm.trans hparent)
    exact (under_iff.mp hqp).resolve_left hne.symm

theorem Forest.not_between_of_open (h : L.Forest) (hp : L.Common p s e) (hs : L.StartOpen p s i)
    (he : L.EndOpen p e j) (hq : q ≠ p) (hnot : ¬ L.Between s i e j q)
    (hc : c ∈ L.children q) : ¬ L.Between s i e j c := by
  intro hb
  have hparent := (h.mem_children q c).mp hc
  obtain ⟨k, hk⟩ := List.getElem?_of_mem hc
  have hover : L.ChildOver q k c := ⟨c, hk, .refl L c⟩
  have hlen := (List.getElem?_eq_some_iff.mp hk).1
  by_cases hqs : L.Under q s
  · rcases under_iff.mp hqs with rfl | habove
    · have hle := (h.after_childOver hover).mp hb.1
      rcases hs with ⟨hself, -⟩ | ⟨-, hend⟩
      · exact hq hself
      · omega
    · exact h.not_between_of_above hp (h.above_of_startOpen hs habove hq) hc hb
  · by_cases hqe : L.Under q e
    · rcases under_iff.mp hqe with rfl | habove
      · have hlt := (h.before_childOver hover).mp hb.2
        rcases he with ⟨hself, -⟩ | ⟨-, hzero⟩
        · exact hq hself
        · omega
      · exact h.not_between_of_above hp (h.above_of_endOpen he habove hq) hc hb
    · exact hnot (h.between_parent hb hparent hqs hqe)

theorem Forest.onlyEnds_iff (h : L.Forest) (hp : L.Common p s e) (hordered : L.Ordered s i e j)
    (hi : i ≤ (L.children s).length) (hj : j ≤ (L.children e).length) :
    L.OnlyEnds p s i e j ↔ L.StartOpen p s i ∧ L.EndOpen p e j := by
  rw [OnlyEnds, h.between_children hp hordered, h.start_side hp.left hi, h.end_side hp.right hj]
  constructor
  · rintro ⟨⟨hstart, hend⟩, hnone⟩
    constructor
    · rcases hstart with hself | hfirst
      · exact .inl hself
      · have hne := h.ne_of_getElem hfirst
        have hnot : ¬ L.Between s i e j s := fun hb => h.not_after_of_under (.refl L s) hb.1
        exact .inr ⟨hfirst, h.start_child hp hordered hne hi (hnone s hne hnot)⟩
    · rcases hend with hself | hlast
      · exact .inl hself
      · have hne : e ≠ p :=
          h.ne_of_parent ((h.mem_children p e).mp (List.mem_of_getLast? hlast))
        have hnot : ¬ L.Between s i e j e := fun hb => h.not_before_of_under (.refl L e) hb.2
        exact .inr ⟨hlast, h.end_child hp hordered hne hj (hnone e hne hnot)⟩
  · rintro ⟨hstart, hend⟩
    exact ⟨⟨hstart.imp id And.left, hend.imp id And.left⟩,
      fun q hq hnot c hc => h.not_between_of_open hp hstart hend hq hnot hc⟩

end ends

end Conclave.Lib.Links
