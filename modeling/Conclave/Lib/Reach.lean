import Conclave.Lib.Forest

/-! Marks on the nodes of a forest: one for a node that has work, and one for a node that
has some below it. A walk from a root that only enters nodes with the second mark finds
all the work, as long as every node above work has it. -/

namespace Conclave.Lib.Links

variable {V : Type*} {L L' : Links V} {r p c n a b : V} {own child own' child' : V → Bool}

/-- Every node of the tree of `r` above one that has work says so. -/
def Reached (L : Links V) (r : V) (own child : V → Bool) : Prop :=
  ∀ n a, L.Under r n → own n → L.Under r a → L.Above a n → child a

/-- The nodes that a walk from `r` enters. -/
inductive Entered (L : Links V) (r : V) (child : V → Bool) : V → Prop
  | root : Entered L r child r
  | child {p c : V} (hp : Entered L r child p) (hflag : child p) (hc : L.parent c = some p) :
      Entered L r child c

theorem entered_of_flags {n : V} (hn : L.Under r n)
    (h : ∀ a, L.Under r a → L.Above a n → child a) : L.Entered r child n := by
  induction hn with
  | refl => exact .root
  | @tail b n hb hp ih =>
    exact .child (ih fun a ha hab => h a ha (hab.tail hp)) (h b hb (above_of_parent hp)) hp

/-- The walk enters every node that has work. -/
theorem Reached.entered (h : L.Reached r own child) (hn : L.Under r n) (hown : own n) :
    L.Entered r child n :=
  entered_of_flags hn fun a ha han => h n a hn hown ha han

/-- Links with fewer ancestors. -/
theorem Reached.anti (h : L.Reached r own child) (hle : ∀ a n, L'.Above a n → L.Above a n) :
    L'.Reached r own child := by
  have hunder : ∀ {a n}, L'.Under a n → L.Under a n := fun hu =>
    (under_iff.mp hu).elim (fun he => he ▸ .refl L _) fun ha => (hle _ _ ha).under
  exact fun n a hn hown ha han => h n a (hunder hn) hown (hunder ha) (hle a n han)

/-- More marks of the second kind, and fewer of the first. -/
theorem Reached.imp (h : L.Reached r own child) (hown : ∀ n, own' n → own n)
    (hchild : ∀ a, child a → child' a) : L.Reached r own' child' :=
  fun n a hn ho ha han => hchild a (h n a hn (hown n ho) ha han)

/-- The work under `c` is announced up to `c`, and from `p` up. -/
def Joins (L : Links V) (r : V) (own child : V → Bool) (p c : V) : Prop :=
  L.Under r p → ∀ n, L.Under c n → own n →
    (∀ a, L.Under c a → L.Above a n → child a) ∧ ∀ a, L.Under r a → L.Under a p → child a

/-- From `n` up, a node that announces work has only such nodes above it. -/
def Chained (L : Links V) (r : V) (child : V → Bool) (n : V) : Prop :=
  L.Under r n → ∀ a, L.Above a n → L.Under r a → child a →
    ∀ b, L.Under r b → L.Above b a → child b

section

variable [DecidableEq V]

theorem Forest.above_of_detach (h : L.Forest) (hab : (L.detach c).Above a b) : L.Above a b :=
  (h.detach_above.mp hab).1

theorem Forest.under_of_detach (h : L.Forest) (hab : (L.detach c).Under a b) : L.Under a b :=
  (under_iff.mp hab).elim (fun he => he ▸ .refl L _) fun ha => (h.above_of_detach ha).under

theorem Forest.under_detach_self (h : L.Forest) : (L.detach c).Under c n ↔ L.Under c n := by
  refine ⟨h.under_of_detach, fun hcn => ?_⟩
  obtain rfl | hcn := under_iff.mp hcn
  · exact .refl _ _
  · exact (h.detach_above.mpr ⟨hcn, fun hc => h.acyclic c hc.1⟩).under

/-- Who has work and announces it stays so when a node moves whose work is announced where
it comes to be. -/
theorem Forest.reached_move (h : L.Forest) {kids : List V} (hr : L.Reached r own child)
    (hcp : ¬ L.Under c p) (hjoins : L.Joins r own child p c) :
    ((L.detach c).attach p c kids).Reached r own child := by
  have hroot : (L.detach c).parent c = none := if_pos rfl
  have hcp' : ¬ (L.detach c).Under c p := fun hu => hcp (h.under_of_detach hu)
  have habove : ∀ {a b}, ((L.detach c).attach p c kids).Above a b ↔
      (L.detach c).Above a b ∨ (L.detach c).Under a p ∧ L.Under c b := by
    intro a b
    rw [attach_above hroot hcp', h.under_detach_self]
  have hunder : ∀ {b}, ((L.detach c).attach p c kids).Under r b →
      L.Under r b ∨ L.Under r p ∧ L.Under c b := by
    intro b hb
    obtain rfl | hb := under_iff.mp hb
    · exact .inl (.refl L _)
    · exact (habove.mp hb).imp (fun hb => (h.above_of_detach hb).under)
        fun hb => ⟨h.under_of_detach hb.1, hb.2⟩
  intro n a hn hown ha han
  by_cases hp : L.Under r p
  · -- the work under `c` is announced by assumption, the other as before
    obtain han | ⟨hap, hcn⟩ := habove.mp han
    · obtain ⟨han, hnot⟩ := h.detach_above.mp han
      by_cases hcn : L.Under c n
      · obtain hac | hca := Under.total han.under hcn
        · obtain rfl | hac := under_iff.mp hac
          · exact (hjoins hp n hcn hown).1 _ (.refl L _) han
          · exact absurd ⟨hac, hcn⟩ hnot
        · exact (hjoins hp n hcn hown).1 a hca han
      · have hca : ¬ L.Under c a := fun hca => hcn (hca.trans han.under)
        exact hr n a ((hunder hn).resolve_right fun hh => hcn hh.2) hown
          ((hunder ha).resolve_right fun hh => hca hh.2) han
    · have hap := h.under_of_detach hap
      exact (hjoins hp n hcn hown).2 a
        ((hunder ha).resolve_right fun hh => hcp (hh.2.trans hap)) hap
  · have hn := (hunder hn).resolve_right fun hh => hp hh.1
    have ha := (hunder ha).resolve_right fun hh => hp hh.1
    obtain han | ⟨hap, -⟩ := habove.mp han
    · exact hr n a hn hown ha (h.above_of_detach han)
    · exact absurd (ha.trans (h.under_of_detach hap)) hp

end

theorem climb_pairwise {k : ℕ} {o : Option V} {vs : List V}
    (h : climb L.parent k o = some vs) : vs.Pairwise fun x y => L.Above y x := by
  induction k generalizing o vs with
  | zero =>
    cases o with
    | none => exact Option.some.inj h ▸ .nil
    | some v => cases h
  | succ k ih =>
    cases o with
    | none => exact Option.some.inj h ▸ .nil
    | some v =>
      obtain ⟨rest, hrest, rfl⟩ := Option.map_eq_some_iff.mp h
      refine List.pairwise_cons.mpr ⟨fun y hy => ?_, ih hrest⟩
      obtain ⟨p, hp, hyp⟩ := (mem_climb hrest y).mp hy
      exact hyp.above hp

/-- Work on nodes under `n`, announced up to `n` and then to the first node that did. -/
theorem reached_mark (hr : L.Reached r own child)
    (hchild : ∀ a, child a → child' a)
    (hown : ∀ m, own' m → own m ∨ L.Under n m ∧ ∀ a, L.Under n a → L.Above a m → child' a)
    {k : ℕ} {vs : List V} (hvs : climb L.parent k (L.parent n) = some vs)
    (hup : ∀ a ∈ vs.takeWhile (fun v => !child v), child' a)
    (hchained : L.Chained r child n) : L.Reached r own' child' := by
  intro m a hm hownm ha ham
  obtain hownm | ⟨hnm, hbetween⟩ := hown m hownm
  · exact hchild a (hr m a hm hownm ha ham)
  by_cases hna : L.Under n a
  · exact hbetween a hna ham
  have han : L.Above a n := by
    obtain han | hna' := Under.total ham.under hnm
    · exact (under_iff.mp han).resolve_left fun he => hna (he ▸ .refl L _)
    · exact absurd hna' hna
  have hmem : a ∈ vs := (mem_climb hvs a).mpr (above_iff.mp han)
  rw [← List.takeWhile_append_dropWhile (p := fun v => !child v) (l := vs)] at hmem
  obtain hmem | hmem := List.mem_append.mp hmem
  · exact hup a hmem
  cases hdrop : vs.dropWhile (fun v => !child v) with
  | nil =>
    rw [hdrop] at hmem
    cases hmem
  | cons v rest =>
    -- the first node on the way up that announced work before
    have hv : child v := by
      have hnot := List.head_dropWhile_not (fun v => !child v) (l := vs) (by simp [hdrop])
      simpa [hdrop] using hnot
    have hpair : (v :: rest).Pairwise fun x y => L.Above y x :=
      hdrop ▸ (climb_pairwise hvs).sublist (List.dropWhile_sublist _)
    rw [hdrop] at hmem
    obtain rfl | hmem := List.mem_cons.mp hmem
    · exact hchild a hv
    · have hav : L.Above a v := (List.pairwise_cons.mp hpair).1 a hmem
      have hvs' : v ∈ vs := (List.dropWhile_sublist _).subset (hdrop ▸ List.mem_cons_self)
      have hvn : L.Above v n := above_iff.mpr ((mem_climb hvs v).mp hvs')
      exact hchild a (hchained (ha.trans han.under) v hvn (ha.trans hav.under) hv a ha hav)

end Conclave.Lib.Links
