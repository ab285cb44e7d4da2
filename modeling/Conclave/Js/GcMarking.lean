import Conclave.Js.Gc

/-! What the mark phase finds: the objects that the roots reach through the edges that the
callback returns. -/

namespace Conclave.Js.Gc

open Conclave.Lib

variable {T : Type} {slots slots' slots₀ : List (Slot T)} {work work' seen : List ℕ} {i j : ℕ}
  {roots : List Handle} {trace : T → List ℕ} {s slot : Slot T}

/-- The slot holds an object. -/
def LiveAt (slots : List (Slot T)) (i : ℕ) : Prop :=
  ∃ s, slots[i]? = some s ∧ s.payload.isSome

/-- A root names the object that is in the slot now. -/
def RootAt (slots : List (Slot T)) (roots : List Handle) (i : ℕ) : Prop :=
  ∃ r ∈ roots, r.slot = i ∧ ∃ s, slots[i]? = some s ∧ s.generation = r.generation

/-- The edges that a callback returns for the object in the slot. -/
def tracedAt (trace : T → List ℕ) (slots : List (Slot T)) (i : ℕ) : List ℕ :=
  (slots[i]?.bind Slot.payload).elim [] trace

def markAt (slots : List (Slot T)) (i : ℕ) : Option Mark := slots[i]?.map Slot.mark

/-- Slots that differ in their marks and edges only. -/
def Same (slots slots' : List (Slot T)) : Prop :=
  slots.map (fun s => (s.payload, s.generation)) = slots'.map fun s => (s.payload, s.generation)

theorem Same.length (h : Same slots slots') : slots.length = slots'.length := by
  simpa using congrArg List.length h

theorem Same.get (h : Same slots slots') (hs : slots[i]? = some s) :
    ∃ s', slots'[i]? = some s' ∧ s'.payload = s.payload ∧ s'.generation = s.generation := by
  have hi := congrArg (·[i]?) h
  simp only [List.getElem?_map, hs, Option.map_some] at hi
  obtain ⟨s', hs', heq⟩ := Option.map_eq_some_iff.mp hi.symm
  exact ⟨s', hs', congrArg Prod.fst heq, congrArg Prod.snd heq⟩

theorem Same.symm (h : Same slots slots') : Same slots' slots := Eq.symm h

theorem Same.trans (h : Same slots slots') (h' : Same slots' slots₀) : Same slots slots₀ :=
  Eq.trans h h'

theorem Same.liveAt (h : Same slots slots') : LiveAt slots i ↔ LiveAt slots' i := by
  have himp : ∀ {slots slots' : List (Slot T)}, Same slots slots' → LiveAt slots i →
      LiveAt slots' i := by
    rintro slots slots' h ⟨s, hs, hlive⟩
    obtain ⟨s', hs', hp, -⟩ := h.get hs
    exact ⟨s', hs', hp ▸ hlive⟩
  exact ⟨himp h, himp h.symm⟩

theorem Same.rootAt (h : Same slots slots') : RootAt slots roots i ↔ RootAt slots' roots i := by
  have himp : ∀ {slots slots' : List (Slot T)}, Same slots slots' → RootAt slots roots i →
      RootAt slots' roots i := by
    rintro slots slots' h ⟨r, hr, hi, t, ht, hg⟩
    obtain ⟨t', ht', -, hg'⟩ := h.get ht
    exact ⟨r, hr, hi, t', ht', hg'.trans hg⟩
  exact ⟨himp h, himp h.symm⟩

theorem same_set (hs : slots[i]? = some s) (hp : slot.payload = s.payload)
    (hg : slot.generation = s.generation) : Same (slots.set i slot) slots := by
  apply List.ext_getElem?
  intro k
  rw [List.getElem?_map, List.getElem?_map, List.getElem?_set]
  split_ifs with hk hlt
  · rw [← hk, hs, Option.map_some, Option.map_some, hp, hg]
  · rw [← hk, List.getElem?_eq_none (not_lt.mp hlt)]
  · rfl

theorem markAt_set (hs : slots[i]? = some s) :
    markAt (slots.set i slot) j = if j = i then some slot.mark else markAt slots j := by
  have hlt : i < slots.length := (List.getElem?_eq_some_iff.mp hs).1
  unfold markAt
  split_ifs with h
  · rw [h, List.getElem?_set_self hlt]
    rfl
  · rw [List.getElem?_set_ne (Ne.symm h)]

/-- The worklist is the grey slots, each once. -/
structure Listed (slots : List (Slot T)) (work : List ℕ) : Prop where
  mem : ∀ i, i ∈ work ↔ markAt slots i = some .grey
  nodup : work.Nodup

/-- A white slot turns grey and goes on the worklist. -/
theorem Listed.push (h : Listed slots work) (hs : slots[i]? = some s) (hm : s.mark ≠ .grey) :
    Listed (slots.set i { s with mark := .grey }) (i :: work) := by
  constructor
  · intro k
    rw [List.mem_cons, markAt_set hs, h.mem]
    split_ifs with hk <;> simp [hk]
  · refine List.nodup_cons.mpr ⟨fun hi => hm ?_, h.nodup⟩
    have hgrey := (h.mem i).mp hi
    rw [markAt, hs] at hgrey
    exact Option.some.inj hgrey

/-- How many slots are not black yet. -/
def pending (slots : List (Slot T)) : ℕ := slots.countP fun s => s.mark ≠ .black

theorem pending_grey (hs : slots[i]? = some s) (hm : s.mark ≠ .black) :
    pending (slots.set i { s with mark := .grey }) = pending slots := by
  obtain ⟨hlt, hget⟩ := List.getElem?_eq_some_iff.mp hs
  have hpos : 0 < pending slots :=
    List.countP_pos_iff.mpr ⟨s, List.mem_of_getElem? hs, by simpa using hm⟩
  simp only [pending, ne_eq] at hpos ⊢
  rw [List.countP_set hlt]
  simp only [hget, hm, not_false_eq_true, decide_true, if_true, reduceCtorEq]
  omega

theorem pending_black (hs : slots[i]? = some s) (hm : s.mark ≠ .black)
    (hslot : slot.mark = .black) : pending (slots.set i slot) + 1 = pending slots := by
  obtain ⟨hlt, hget⟩ := List.getElem?_eq_some_iff.mp hs
  have hpos : 0 < pending slots :=
    List.countP_pos_iff.mpr ⟨s, List.mem_of_getElem? hs, by simpa using hm⟩
  simp only [pending, ne_eq] at hpos ⊢
  rw [List.countP_set hlt]
  simp only [hget, hm, hslot, not_false_eq_true, decide_true, if_true, not_true_eq_false,
    decide_false, Bool.false_eq_true, if_false]
  omega

/-- The roots that are valid and hold an object are the new grey slots. -/
theorem greyRoots_spec (h : Listed slots work) (hwhite : ∀ i, markAt slots i ≠ some .black) :
    ∃ slots' work', Heap.greyRoots roots slots work work = (slots', work') ∧ Same slots' slots ∧
      Listed slots' work' ∧ (∀ i, markAt slots' i ≠ some .black) ∧
      ∀ i, markAt slots' i = some .grey ↔
        markAt slots i = some .grey ∨ RootAt slots roots i ∧ LiveAt slots i := by
  induction roots generalizing slots work with
  | nil => exact ⟨slots, work, rfl, rfl, h, hwhite, fun i => by simp [RootAt]⟩
  | cons r roots ih =>
    -- what the first root adds to the valid ones
    have hcons : ∀ i, RootAt slots (r :: roots) i ↔
        (r.slot = i ∧ ∃ s, slots[i]? = some s ∧ s.generation = r.generation) ∨
          RootAt slots roots i := fun i => by simp [RootAt]
    cases hs : slots[r.slot]? with
    | none =>
      obtain ⟨slots', work', hrun, hsame, hlisted, hw, hgrey⟩ := ih h hwhite
      refine ⟨slots', work', by rw [Heap.greyRoots, hs]; exact hrun, hsame, hlisted, hw, fun i => ?_⟩
      rw [hgrey, hcons]
      constructor
      · exact Or.imp_right fun hr => ⟨.inr hr.1, hr.2⟩
      · rintro (hg | ⟨⟨rfl, s, hs', -⟩ | hr, hl⟩)
        · exact .inl hg
        · simp [hs] at hs'
        · exact .inr ⟨hr, hl⟩
    | some s =>
      by_cases hvalid : s.generation = r.generation ∧ s.payload.isSome ∧ r.slot ∉ work
      · have hgrey₀ : s.mark ≠ .grey := by
          intro hm
          apply hvalid.2.2
          rw [h.mem, markAt, hs, ← hm]
          rfl
        have hsame₀ : Same (slots.set r.slot { s with mark := .grey }) slots := same_set hs rfl rfl
        have hwhite₀ : ∀ i, markAt (slots.set r.slot { s with mark := .grey }) i ≠ some .black := by
          intro i
          rw [markAt_set hs]
          split_ifs
          · simp
          · exact hwhite i
        obtain ⟨slots', work', hrun, hsame, hlisted, hw, hgrey⟩ :=
          ih (h.push hs hgrey₀) hwhite₀
        refine ⟨slots', work', ?_, hsame.trans hsame₀, hlisted, hw, fun i => ?_⟩
        · rw [Heap.greyRoots, hs]
          exact (if_pos hvalid).trans hrun
        · rw [hgrey, hcons, hsame₀.rootAt, hsame₀.liveAt, markAt_set hs]
          by_cases hi : i = r.slot
          · subst hi
            have hlive : LiveAt slots r.slot := ⟨s, hs, hvalid.2.1⟩
            simp [hlive, hs, hvalid.1]
          · have hne : ¬ r.slot = i := fun he => hi he.symm
            simp [hi, hne]
      · obtain ⟨slots', work', hrun, hsame, hlisted, hw, hgrey⟩ := ih h hwhite
        refine ⟨slots', work', ?_, hsame, hlisted, hw, fun i => ?_⟩
        · rw [Heap.greyRoots, hs]
          exact (if_neg hvalid).trans hrun
        · rw [hgrey, hcons]
          constructor
          · exact Or.imp_right fun hr => ⟨.inr hr.1, hr.2⟩
          · rintro (hg | ⟨⟨rfl, t, ht, hgen⟩ | hr, t', ht', hl⟩)
            · exact .inl hg
            · obtain rfl := Option.some.inj (hs.symm.trans ht)
              obtain rfl := Option.some.inj (hs.symm.trans ht')
              have hmem : r.slot ∈ work := by
                by_contra hnot
                exact hvalid ⟨hgen, hl, hnot⟩
              exact .inl ((h.mem _).mp hmem)
            · exact .inr ⟨hr, t', ht', hl⟩

/-- The white objects among the edges are the new grey slots. -/
theorem greyChildren_spec {outgoing : List ℕ} (h : Listed slots work) :
    ∃ slots' work', Heap.greyChildren outgoing slots work = (slots', work') ∧
      Same slots' slots ∧ Listed slots' work' ∧ pending slots' = pending slots ∧
      (∀ i, markAt slots' i = some .black ↔ markAt slots i = some .black) ∧
      ∀ i, markAt slots' i = some .grey ↔ markAt slots i = some .grey ∨
        i ∈ outgoing ∧ LiveAt slots i ∧ markAt slots i = some .white := by
  induction outgoing generalizing slots work with
  | nil => exact ⟨slots, work, rfl, rfl, h, rfl, fun _ => Iff.rfl, fun i => by simp⟩
  | cons o outgoing ih =>
    cases hs : slots[o]? with
    | none =>
      obtain ⟨slots', work', hrun, hsame, hlisted, hp, hblack, hgrey⟩ := ih h
      refine ⟨slots', work', by rw [Heap.greyChildren, hs]; exact hrun, hsame, hlisted, hp, hblack,
        fun i => ?_⟩
      rw [hgrey, List.mem_cons]
      constructor
      · exact Or.imp_right fun hi => ⟨.inr hi.1, hi.2⟩
      · rintro (hg | ⟨rfl | hi, hl⟩)
        · exact .inl hg
        · obtain ⟨⟨t, ht, -⟩, -⟩ := hl
          simp [hs] at ht
        · exact .inr ⟨hi, hl⟩
    | some child =>
      by_cases hwhite : child.payload.isSome ∧ child.mark = .white
      · have hm : child.mark ≠ .grey := by simp [hwhite.2]
        have hm' : child.mark ≠ .black := by simp [hwhite.2]
        have hsame₀ : Same (slots.set o { child with mark := .grey }) slots := same_set hs rfl rfl
        obtain ⟨slots', work', hrun, hsame, hlisted, hp, hblack, hgrey⟩ := ih (h.push hs hm)
        refine ⟨slots', work', ?_, hsame.trans hsame₀, hlisted, hp.trans (pending_grey hs hm'),
          fun i => ?_, fun i => ?_⟩
        · rw [Heap.greyChildren, hs]
          exact (if_pos hwhite).trans hrun
        · rw [hblack, markAt_set hs]
          split_ifs with hi
          · simp [hi, markAt, hs, hwhite.2]
          · rfl
        · rw [hgrey, List.mem_cons, hsame₀.liveAt, markAt_set hs]
          by_cases hi : i = o
          · subst hi
            have hlive : LiveAt slots i := ⟨child, hs, hwhite.1⟩
            have hmark : markAt slots i = some .white := by rw [markAt, hs, ← hwhite.2]; rfl
            simp [hlive, hmark]
          · simp [hi]
      · obtain ⟨slots', work', hrun, hsame, hlisted, hp, hblack, hgrey⟩ := ih h
        refine ⟨slots', work', ?_, hsame, hlisted, hp, hblack, fun i => ?_⟩
        · rw [Heap.greyChildren, hs]
          exact (if_neg hwhite).trans hrun
        · rw [hgrey, List.mem_cons]
          constructor
          · exact Or.imp_right fun hi => ⟨.inr hi.1, hi.2⟩
          · rintro (hg | ⟨rfl | hi, ⟨t, ht, hl⟩, hm⟩)
            · exact .inl hg
            · obtain rfl := Option.some.inj (hs.symm.trans ht)
              rw [markAt, hs] at hm
              exact absurd ⟨hl, Option.some.inj hm⟩ hwhite
            · exact .inr ⟨hi, ⟨t, ht, hl⟩, hm⟩

/-- The state of the marking of `slots₀`. -/
structure Marking (slots₀ : List (Slot T)) (roots : List Handle) (trace : T → List ℕ)
    (slots : List (Slot T)) (work : List ℕ) : Prop where
  same : Same slots slots₀
  listed : Listed slots work
  colours : Tricolour (LiveAt slots₀) (RootAt slots₀ roots) (tracedAt trace slots₀)
    (fun i => markAt slots i = some .black) fun i => markAt slots i = some .grey

theorem drain_cons {fuel idx : ℕ} {p : T} (hs : slots[idx]? = some s) (hm : s.mark ≠ .black)
    (hp : s.payload = some p) :
    Heap.drain trace (fuel + 1) slots (idx :: work) =
      let r := Heap.greyChildren (trace p)
        (slots.set idx { s with mark := .black, outgoing := trace p }) work
      Heap.drain trace fuel r.1 r.2 := by
  rw [Heap.drain]
  simp only [hs, if_neg hm]
  split
  · next hnone => cases hp.symm.trans hnone
  · next q hq =>
    obtain rfl := Option.some.inj (hp.symm.trans hq)
    rfl

/-- The worklist runs empty, and the objects reached are black then. -/
theorem drain_spec {fuel : ℕ} (h : Marking slots₀ roots trace slots work)
    (hfuel : pending slots ≤ fuel) :
    ∃ slots', Heap.drain trace fuel slots work = some slots' ∧
      Marking slots₀ roots trace slots' [] := by
  induction fuel generalizing slots work with
  | zero =>
    cases work with
    | nil => exact ⟨slots, rfl, h⟩
    | cons idx work =>
      have hgrey := (h.listed.mem idx).mp List.mem_cons_self
      obtain ⟨s, hs, hm⟩ := Option.map_eq_some_iff.mp hgrey
      have hpos : 0 < pending slots :=
        List.countP_pos_iff.mpr ⟨s, List.mem_of_getElem? hs, by simp [hm]⟩
      omega
  | succ fuel ih =>
    cases work with
    | nil => exact ⟨slots, rfl, h⟩
    | cons idx work =>
      have hgrey := (h.listed.mem idx).mp List.mem_cons_self
      obtain ⟨s, hs, hm⟩ := Option.map_eq_some_iff.mp hgrey
      have hnb : s.mark ≠ .black := by simp [hm]
      obtain ⟨s₀, hs₀, hp₀, -⟩ := h.same.get hs
      obtain ⟨t, ht, hlive⟩ := (h.colours.sound idx (.inr hgrey)).is_live
      obtain rfl := Option.some.inj (hs₀.symm.trans ht)
      obtain ⟨p, hp⟩ := Option.isSome_iff_exists.mp hlive
      have htraced : tracedAt trace slots₀ idx = trace p := by simp [tracedAt, hs₀, hp]
      rw [hp] at hp₀
      -- the slot off the worklist turns black
      set slots₁ := slots.set idx { s with mark := .black, outgoing := trace p } with hslots₁
      have hsame₁ : Same slots₁ slots := same_set hs rfl rfl
      have hmark₁ : ∀ i, markAt slots₁ i = if i = idx then some .black else markAt slots i :=
        fun i => markAt_set hs
      have hnodup := List.nodup_cons.mp h.listed.nodup
      have hlisted₁ : Listed slots₁ work := by
        refine ⟨fun i => ?_, hnodup.2⟩
        have hmem := h.listed.mem i
        rw [List.mem_cons] at hmem
        rw [hmark₁]
        split_ifs with hi
        · simp [hi, hnodup.1]
        · rw [← hmem]
          simp [hi]
      obtain ⟨slots₂, work₂, hrun, hsame₂, hlisted₂, hpend₂, hblack₂, hgrey₂⟩ :=
        @greyChildren_spec _ _ _ (trace p) hlisted₁
      have hpend : pending slots₂ + 1 = pending slots := by
        rw [hpend₂, hslots₁]
        exact pending_black hs hnb rfl
      have hsame : Same slots₂ slots₀ := (hsame₂.trans hsame₁).trans h.same
      have hblack : ∀ i, markAt slots₂ i = some .black ↔ i = idx ∨ markAt slots i = some .black := by
        intro i
        rw [hblack₂, hmark₁]
        split_ifs with hi <;> simp [hi]
      have hgrey' : ∀ i, markAt slots₂ i = some .grey ↔ i ≠ idx ∧ (markAt slots i = some .grey ∨
          i ∈ tracedAt trace slots₀ idx ∧ LiveAt slots₀ i ∧ ¬ markAt slots i = some .black) := by
        intro i
        rw [hgrey₂, htraced, hmark₁, (hsame₁.trans h.same).liveAt]
        by_cases hi : i = idx
        · simp [hi]
        · simp only [hi, if_false, ne_eq, not_false_eq_true, true_and]
          refine or_congr_right' fun hng => and_congr_right fun _ => and_congr_right fun hl => ?_
          obtain ⟨t, ht, -⟩ := h.same.liveAt.mpr hl
          rw [markAt, ht, Option.map_some] at hng ⊢
          cases hmt : t.mark <;> simp_all
      have hcolours := h.colours.visit hgrey hblack hgrey'
      obtain ⟨slots', hdrain, hdone⟩ := ih ⟨hsame, hlisted₂, hcolours⟩ (by omega)
      refine ⟨slots', ?_, hdone⟩
      rw [drain_cons hs hnb hp₀.symm, ← hslots₁, hrun]
      exact hdrain

end Conclave.Js.Gc
