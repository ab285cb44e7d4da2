import Conclave.Lib.Reach
import Conclave.Dom.Effects

/-! The dirty bits and the walk of the render pipeline. The nodes of the document that need
a stage are found from the root by the bits for what is below, as long as a node joins the
tree only where these are set, and no bit that was left behind cuts a mark short. -/

namespace Conclave.Dom

open Lib Arena

namespace StageMask

theorem isSet_insert (m a b : StageMask) : (m.insert a).isSet b = (m.isSet b || a.isSet b) := by
  have hdist : (m ||| a) &&& b = m &&& b ||| a &&& b := by
    ext i
    simp [Bool.and_or_distrib_right]
  rw [Bool.eq_iff_iff, isSet, insert, hdist]
  simp only [isSet, bne_iff_ne, ne_eq, Bool.or_eq_true, BitVec.ofNat_eq_ofNat,
    BitVec.or_eq_zero_iff, not_and_or]

theorem isSet_remove {a b : StageMask} (hab : ~~~a &&& b = b) (m : StageMask) :
    (m.remove a).isSet b = m.isSet b := by
  rw [isSet, remove, BitVec.and_assoc, hab, isSet]

theorem isSet_of_remove {m a b : StageMask} (h : (m.remove a).isSet b = true) :
    m.isSet b = true := by
  rw [isSet, bne_iff_ne] at h ⊢
  intro hm
  refine h ?_
  rw [remove, BitVec.and_assoc, BitVec.and_comm (~~~a), ← BitVec.and_assoc, hm]
  exact BitVec.zero_and

theorem not_isSet_remove (m b : StageMask) : (m.remove b).isSet b = false := by
  rw [isSet, remove, BitVec.and_assoc]
  simp

theorem selfBit_isSet (s t : Stage) : s.selfBit.isSet t.selfBit = decide (s = t) := by
  cases s <;> cases t <;> rfl

theorem childBit_isSet (s t : Stage) : s.childBit.isSet t.childBit = decide (s = t) := by
  cases s <;> cases t <;> rfl

theorem selfBit_isSet_childBit (s t : Stage) : s.selfBit.isSet t.childBit = false := by
  cases s <;> cases t <;> rfl

theorem childBit_isSet_selfBit (s t : Stage) : s.childBit.isSet t.selfBit = false := by
  cases s <;> cases t <;> rfl

theorem not_selfBit_and_childBit (s t : Stage) : ~~~s.selfBit &&& t.childBit = t.childBit := by
  cases s <;> cases t <;> rfl

end StageMask

namespace Document

variable {d d' : Document} {p c n o r x : NodeId} {op : Op} {kids : List NodeId}
  {bit : StageMask} {ids : List NodeId}

/-- A node is there and has the bit. -/
def flagged (d : Document) (bit : StageMask) (x : NodeId) : Bool :=
  (d.record x).any fun r => r.stage.isSet bit

theorem flagged_of_look (h : d'.look NodeRecord.stage = d.look NodeRecord.stage) :
    d'.flagged = d.flagged := by
  have heq : ∀ (d : Document) bit x,
      d.flagged bit x = (d.look NodeRecord.stage x).any fun m => m.isSet bit := by
    intro d bit x
    rw [flagged, look]
    cases d.record x <;> rfl
  funext bit x
  rw [heq, heq, h]

/-- Bits set on a node. -/
def setBit (mask : StageMask) (d : Document) (id : NodeId) : Document :=
  d.modify id fun r => { r with stage := r.stage.insert mask }

theorem flagged_setBit (mask : StageMask) (d : Document) (id : NodeId) (bit : StageMask)
    (x : NodeId) :
    (setBit mask d id).flagged bit x =
      (d.flagged bit x || (mask.isSet bit && decide (x = id) && decide (d.Has x))) := by
  rw [flagged, setBit, record_modify, flagged]
  cases hr : d.record x with
  | none =>
    have hhas : ¬ d.Has x := by simp [Has, hr]
    simp [hhas]
  | some r =>
    have hhas : d.Has x := by simp [Has, hr]
    by_cases hx : x = id
    · simp [hx, hx ▸ hhas, StageMask.isSet_insert]
    · simp [hx]

theorem flagged_setBits (mask : StageMask) (ids : List NodeId) (d : Document) (bit : StageMask)
    (x : NodeId) :
    (ids.foldl (setBit mask) d).flagged bit x =
      (d.flagged bit x || (mask.isSet bit && decide (x ∈ ids) && decide (d.Has x))) := by
  induction ids generalizing d with
  | nil => simp
  | cons id ids ih =>
    have hhas : decide ((setBit mask d id).Has x) = decide (d.Has x) :=
      decide_eq_decide.mpr (has_modify d id _ x)
    rw [List.foldl_cons, ih, flagged_setBit, hhas]
    simp only [List.mem_cons, Bool.decide_or]
    cases d.flagged bit x <;> cases mask.isSet bit <;> cases decide (x = id) <;>
      cases decide (x ∈ ids) <;> cases decide (d.Has x) <;> rfl

theorem links_setBit (mask : StageMask) (d : Document) (id : NodeId) :
    (setBit mask d id).links = d.links := links_modify d id (fun _ => rfl) fun _ => rfl

theorem takeWhile_congr {f g : NodeId → Bool} {l : List NodeId} (h : ∀ x ∈ l, f x = g x) :
    l.takeWhile f = l.takeWhile g := by
  induction l with
  | nil => rfl
  | cons a l ih =>
    rw [List.takeWhile_cons, List.takeWhile_cons, h a List.mem_cons_self,
      ih fun x hx => h x (List.mem_cons_of_mem a hx)]

/-- The way up is flagged to the first node that has the bit. -/
theorem flagUp_eq {k : ℕ} {q : Option NodeId} {vs : List NodeId} (hf : d.links.Forest)
    (hvs : Links.climb d.parent k q = some vs) (hhas : ∀ v ∈ vs, d.Has v) :
    flagUp bit k q d = (vs.takeWhile fun v => !d.flagged bit v).foldl (setBit bit) d := by
  induction k generalizing q vs d with
  | zero =>
    cases q with
    | none => simp [flagUp, ← Option.some.inj hvs]
    | some v => cases hvs
  | succ k ih =>
    cases q with
    | none => simp [flagUp, ← Option.some.inj hvs]
    | some p =>
      obtain ⟨rest, hrest, rfl⟩ := Option.map_eq_some_iff.mp hvs
      obtain ⟨r, hr⟩ := Option.isSome_iff_exists.mp (hhas p List.mem_cons_self)
      have hflag : d.flagged bit p = r.stage.isSet bit := by simp [flagged, hr]
      rw [flagUp, List.takeWhile_cons, hflag]
      simp only [hr]
      cases hset : r.stage.isSet bit with
      | true => simp
      | false =>
        have hl := links_setBit bit d p
        have hparent : (setBit bit d p).parent = d.parent := congrArg Links.parent hl
        have hsame : ∀ v ∈ rest, (!(setBit bit d p).flagged bit v) = !d.flagged bit v := by
          intro v hv
          have hne : v ≠ p := by
            rintro rfl
            obtain ⟨q, hq, hu⟩ := (Links.mem_climb (L := d.links) hrest v).mp hv
            exact hf.acyclic v (hu.above hq)
          simp [flagged_setBit, hne]
        have hup := ih (d := setBit bit d p) (q := d.parent p) (hl ▸ hf) (hparent ▸ hrest)
          fun v hv => (has_modify d p _ v).mpr (hhas v (List.mem_cons_of_mem p hv))
        rw [takeWhile_congr hsame] at hup
        simp only [Bool.false_eq_true, if_false, Bool.not_false]
        change flagUp bit k ((setBit bit d p).parent p) (setBit bit d p) = _
        rw [hparent]
        exact hup

/-- The way up from a node, with what is flagged on it. -/
theorem WellFormed.flagUp (h : WellFormed d) (n : NodeId) (bit : StageMask) :
    ∃ vs, Links.climb d.parent d.slots (d.parent n) = some vs ∧
      Document.flagUp bit d.slots (d.parent n) d =
        (vs.takeWhile fun v => !d.flagged bit v).foldl (setBit bit) d := by
  cases hp : d.parent n with
  | none => exact ⟨[], by cases d.slots <;> rfl, by cases d.slots <;> rfl⟩
  | some p =>
    have hhas := h.live n p hp
    obtain ⟨vs, hvs, hmem⟩ := h.climb hhas
    exact ⟨vs, hvs, flagUp_eq h.forest hvs fun v hv => h.has_of_under ((hmem v).mp hv) hhas⟩

/-! ### What is reached -/

/-- Each node of the document that needs a stage is announced all the way up. -/
def Reaches (d : Document) : Prop :=
  ∀ r, d.root = some r → ∀ s : Stage,
    d.links.Reached r (d.flagged s.selfBit) (d.flagged s.childBit)

/-- What a node brings along is announced where it comes to be, for each stage. -/
def Joins (d : Document) (p c : NodeId) : Prop :=
  ∀ r, d.root = some r → ∀ s : Stage,
    d.links.Joins r (d.flagged s.selfBit) (d.flagged s.childBit) p c

/-- No bit that was left behind below one that is not set is on the way up. -/
def Chained (d : Document) (s : Stage) (n : NodeId) : Prop :=
  ∀ r, d.root = some r → d.links.Chained r (d.flagged s.childBit) n

/-- When each operation leaves nothing that is not reached. -/
def Announced (d : Document) : Op → Prop
  | .appendChild p c | .insertBefore p c none => ¬ d.links.Under c p → d.Joins p c
  | .insertBefore p n (some r) => ¬ d.links.Under n p → r ∈ d.children p → d.Joins p n
  | .replaceChild p n o => ¬ d.links.Under n p → o ∈ d.children p → d.Joins p n
  | .setTextContent id text => text ≠ [] → ∀ r, d.root = some r → d.links.Under r id →
      ∀ (s : Stage) a, d.links.Under r a → d.links.Under a id → d.flagged s.childBit a
  | .mark n s => d.flagged s.selfBit n = false → d.Chained s n
  | .markStyleDirtySubtree n => d.Chained .style n
  | _ => True

/-- Other documents with the same root and bits. -/
theorem Reaches.of_links (h : Reaches d) (hroot : d'.root = d.root)
    (hflagged : d'.flagged = d.flagged)
    (hl : ∀ a n, d'.links.Above a n → d.links.Above a n) : Reaches d' := by
  intro r hr s
  rw [hflagged]
  exact (h r (hroot ▸ hr) s).anti hl

theorem Reaches.place (h : Reaches d) (hw : WellFormed d) (hp : d.Has p) (hc : d.Has c)
    (hcp : ¬ d.links.Under c p) (hjoins : d.Joins p c) : Reaches (d.place p c kids) := by
  intro r hr s
  have hroot := (sameNodes_place d p c kids).root.symm.trans hr
  rw [hw.links_place hp hc, flagged_of_look (OffTree.look_place (fun _ _ _ _ => rfl) d p c kids)]
  exact hw.forest.reached_move (h r hroot s) hcp (hjoins r hroot s)

theorem Reaches.takeOut (h : Reaches d) (hw : WellFormed d) (hc : d.parent c = some p) :
    Reaches (d.takeOut p c) := by
  refine h.of_links (sameNodes_takeOut d p c).root
    (flagged_of_look (OffTree.look_takeOut (fun _ _ _ _ => rfl) d p c)) fun a n ha => ?_
  rw [hw.links_takeOut hc] at ha
  exact hw.forest.above_of_detach ha

/-- A swap is a move once the other node is gone. -/
theorem detach_comm (L : Links NodeId) (n o : NodeId) :
    (L.detach n).detach o = (L.detach o).detach n := by
  simp only [Links.detach, Links.mk.injEq]
  refine ⟨funext fun v => ?_, funext fun q => (List.erase_comm o n).symm⟩
  by_cases hn : v = n <;> by_cases ho : v = o <;> simp [hn, ho]

theorem Reaches.swap (h : Reaches d) (hw : WellFormed d) (hn : d.Has n) (ho : d.parent o = some p)
    (hno : n ≠ o) (hnp : ¬ d.links.Under n p) (hjoins : d.Joins p n) :
    Reaches (d.swap p n o kids) := by
  intro r hr s
  have hroot := (sameNodes_swap d p n o kids).root.symm.trans hr
  have hf := hw.forest
  rw [hw.links_swap hn ho hno, detach_comm,
    flagged_of_look (OffTree.look_swap (fun _ _ _ _ => rfl) d p n o kids)]
  refine (hf.detach o).reached_move ((h r hroot s).anti fun a n => hf.above_of_detach)
    (fun hu => hnp (hf.under_of_detach hu)) fun hrp m hnm hown => ?_
  obtain ⟨hin, hup⟩ := hjoins r hroot s (hf.under_of_detach hrp) m (hf.under_of_detach hnm) hown
  exact ⟨fun a ha ham => hin a (hf.under_of_detach ha) (hf.above_of_detach ham),
    fun a ha hap => hup a (hf.under_of_detach ha) (hf.under_of_detach hap)⟩

theorem Reaches.strip (h : Reaches d) (hw : WellFormed d) :
    Reaches (Document.strip p (d.children p) d) :=
  hw.strip_keeps
    (fun _ _ _ hw hkids h => (h.takeOut hw (hw.parent_head hkids)).of_links rfl rfl fun _ _ => id)
    h rfl

theorem WellFormed.under_of_strip (hw : WellFormed d) {a b : NodeId}
    (hu : (Document.strip p (d.children p) d).links.Under a b) : d.links.Under a b := by
  have hle := hw.strip_keeps (p := p)
    (P := fun d' => ∀ a b, d'.links.Above a b → d.links.Above a b)
    (fun _ _ _ hw' hkids hle a b ha => hle a b (hw'.forest.above_of_detach
      (by rwa [hw'.links_behead (hw'.parent_head hkids)] at ha))) (fun _ _ => id) rfl
  exact (Links.under_iff.mp hu).elim (fun he => he ▸ .refl _ _) fun ha => (hle a b ha).under

theorem flagged_strip (hw : WellFormed d) :
    (Document.strip p (d.children p) d).flagged = d.flagged :=
  hw.strip_keeps (P := fun d' => d'.flagged = d.flagged)
    (fun d' c _ _ _ he =>
      (flagged_of_look (OffTree.look_takeOut (fun _ _ _ _ => rfl) d' p c)).trans he) rfl rfl

/-- Bits of old nodes after a creation. -/
theorem flagged_extend (kind : NodeKind) (hx : x ≠ d.next) :
    (d.extend kind).flagged bit x = d.flagged bit x := by
  rw [flagged, record_extend, if_neg hx, flagged]

theorem WellFormed.ne_next_of_under (h : WellFormed d) (hr : d.root = some r)
    (hu : d.links.Under r x) : x ≠ d.next := by
  rintro rfl
  obtain ⟨r', hr', hhas⟩ := h.root
  obtain rfl := Option.some.inj (hr'.symm.trans hr)
  obtain he | ha := Links.under_iff.mp hu
  · exact d.not_has_next (he ▸ hhas)
  · obtain ⟨q, hq, -⟩ := Links.above_iff.mp ha
    exact d.not_has_next (has_of_parent hq)

theorem Reaches.extend (h : Reaches d) (hw : WellFormed d) (kind : NodeKind) :
    Reaches (d.extend kind) := by
  intro r hr s n a hn hown ha han
  rw [links_extend] at hn ha han
  rw [flagged_extend kind (hw.ne_next_of_under hr hn)] at hown
  rw [flagged_extend kind (hw.ne_next_of_under hr ha)]
  exact h r hr s n a hn hown ha han

theorem Reaches.fill (h : Reaches d) (hw : WellFormed d) (hp : d.Has p) {text : Text}
    (hup : ∀ r, d.root = some r → d.links.Under r p → ∀ (s : Stage) a, d.links.Under r a →
      d.links.Under a p → d.flagged s.childBit a) : Reaches (d.fill p text) := by
  have hx : Reaches ((d.extend (.text text)).place p d.next [d.next]) :=
    (h.extend hw (.text text)).place (hw.extend _) ((has_extend d _ p).mpr (.inr hp))
      ((has_extend d _ d.next).mpr (.inl rfl)) (hw.not_under_next_extend hp _) ?_
  · exact hx.of_links rfl rfl fun _ _ => id
  · intro r hr s hrp m hm _
    rw [links_extend] at hrp hm ⊢
    have hbelow : ∀ {m}, d.links.Under d.next m → m = d.next := by
      intro m hm
      obtain he | ⟨q, hq, hu⟩ := Links.under_iff.mp hm |>.imp id Links.above_iff.mp
      · exact he
      · exact absurd hu (hw.not_under_next (hw.live _ _ hq))
    refine ⟨fun a ha ham => ?_, fun a ha hap => ?_⟩
    · obtain rfl := hbelow ha
      obtain rfl := hbelow hm
      exact absurd ham (hw.forest.acyclic _)
    · rw [flagged_extend (.text text) (hw.ne_next_of_under hr ha)]
      exact hup r hr hrp s a ha hap

/-! ### Marks -/

theorem wellFormed_setBits (hw : WellFormed d) (mask : StageMask) (ids : List NodeId) :
    WellFormed (ids.foldl (setBit mask) d) := by
  induction ids generalizing d with
  | nil => exact hw
  | cons id ids ih => exact ih (hw.of_links (sameNodes_modify d id _) (links_setBit mask d id))

theorem links_setBits (mask : StageMask) (ids : List NodeId) (d : Document) :
    (ids.foldl (setBit mask) d).links = d.links := by
  induction ids generalizing d with
  | nil => rfl
  | cons id ids ih => exact (ih _).trans (links_setBit mask d id)

theorem sameNodes_setBits (mask : StageMask) (ids : List NodeId) (d : Document) :
    SameNodes (ids.foldl (setBit mask) d) d := by
  induction ids generalizing d with
  | nil => exact .refl d
  | cons id ids ih => exact (ih _).trans (sameNodes_modify d id _)

/-- Bits set on nodes under `n`, and then the way up from `n` flagged, for one stage. -/
theorem Reaches.flag (h : Reaches d) (hw : WellFormed d) (s : Stage) {mask : StageMask}
    (hself : ∀ t : Stage, mask.isSet t.selfBit = decide (t = s))
    (hchild : ∀ t : Stage, mask.isSet t.childBit = true → t = s)
    (hids : ∀ x ∈ ids, d.links.Under n x)
    (hbetween : ∀ m ∈ ids, ∀ a, d.links.Under n a → d.links.Above a m →
      mask.isSet s.childBit = true ∧ a ∈ ids ∧ d.Has a)
    (hchained : d.Chained s n) :
    Reaches (Document.flagUp s.childBit d.slots (d.parent n) (ids.foldl (setBit mask) d)) := by
  have hw₁ := wellFormed_setBits hw mask ids
  have hl₁ := links_setBits mask ids d
  have hs₁ := sameNodes_setBits mask ids d
  obtain ⟨vs, hvs, hup⟩ := hw₁.flagUp n s.childBit
  have hparent : (ids.foldl (setBit mask) d).parent = d.parent := congrArg Links.parent hl₁
  rw [hparent, hs₁.slots] at hvs hup
  have habove : ∀ v ∈ vs, d.links.Above v n := fun v hv =>
    Links.above_iff.mpr ((Links.mem_climb (L := d.links) hvs v).mp hv)
  have hsame : ∀ v ∈ vs, (!(ids.foldl (setBit mask) d).flagged s.childBit v) =
      !d.flagged s.childBit v := by
    intro v hv
    have hv' : v ∉ ids := fun hm => hw.forest.not_above_under (habove v hv) (hids v hm)
    simp [flagged_setBits, hv']
  rw [hup, takeWhile_congr hsame]
  generalize hpre : (vs.takeWhile fun v => !d.flagged s.childBit v) = pre
  have hhas : ∀ v ∈ pre, d.Has v := fun v hv => by
    have hv' : v ∈ vs := (List.takeWhile_sublist _).subset (hpre ▸ hv)
    obtain ⟨q, hq, hu⟩ := (Links.mem_climb (L := d.links) hvs v).mp hv'
    exact hw.has_of_under hu (hw.live n q hq)
  have hflag : ∀ bit x, (pre.foldl (setBit s.childBit) (ids.foldl (setBit mask) d)).flagged bit x =
      (d.flagged bit x || (mask.isSet bit && decide (x ∈ ids) && decide (d.Has x)) ||
        (s.childBit.isSet bit && decide (x ∈ pre) && decide (d.Has x))) := by
    intro bit x
    rw [flagged_setBits, flagged_setBits, decide_eq_decide.mpr (hs₁.has x)]
  intro r hr t
  have hroot : d.root = some r := ((sameNodes_setBits _ pre _).trans hs₁).root.symm.trans hr
  rw [(links_setBits s.childBit pre _).trans hl₁]
  by_cases ht : t = s
  · subst ht
    refine Links.reached_mark (h r hroot t) (fun a ha => ?_) (fun m hm => ?_) hvs (fun a ha => ?_)
      (hchained r hroot)
    · simp [hflag, ha]
    · simp only [hflag, hself, StageMask.childBit_isSet_selfBit, decide_true, Bool.true_and,
        Bool.false_and, Bool.or_false, Bool.or_eq_true, Bool.and_eq_true, decide_eq_true_eq] at hm
      refine hm.imp id fun hm => ⟨hids m hm.1, fun a ha ham => ?_⟩
      obtain ⟨hset, hmem, hhasa⟩ := hbetween m hm.1 a ha ham
      simp [hflag, hset, hmem, hhasa]
    · have ha' : a ∈ pre := hpre ▸ ha
      simp [hflag, StageMask.childBit_isSet, ha', hhas a ha']
  · refine (h r hroot t).imp (fun m hm => ?_) fun a ha => ?_
    · simpa [hflag, hself, ht, StageMask.childBit_isSet_selfBit] using hm
    · simp [hflag, ha]

theorem Reaches.mark (h : Reaches d) (hw : WellFormed d) (s : Stage)
    (hchained : d.flagged s.selfBit n = false → d.Chained s n) : Reaches (d.mark n s) := by
  cases hr : d.record n with
  | none =>
    rw [Document.mark, hr]
    exact h
  | some r =>
    rw [Document.mark, hr]
    simp only
    split
    · exact h
    · rename_i hset
      have hflag : d.flagged s.selfBit n = false := by simpa [flagged, hr] using hset
      have hl := links_setBit s.selfBit d n
      have hparent : (setBit s.selfBit d n).parent = d.parent := congrArg Links.parent hl
      change Reaches (Document.flagUp s.childBit (setBit s.selfBit d n).slots
        ((setBit s.selfBit d n).parent n) (setBit s.selfBit d n))
      rw [hparent, show (setBit s.selfBit d n).slots = d.slots from slots_modify d n _]
      change Reaches (Document.flagUp s.childBit d.slots (d.parent n)
        ([n].foldl (setBit s.selfBit) d))
      refine h.flag hw s (fun t => ?_) (fun t ht => ?_) (fun x hx => ?_)
        (fun m hm a ha ham => ?_) (hchained hflag)
      · rw [StageMask.selfBit_isSet]
        exact decide_eq_decide.mpr eq_comm
      · rw [StageMask.selfBit_isSet_childBit] at ht
        cases ht
      · exact List.mem_singleton.mp hx ▸ .refl _ _
      · obtain rfl := List.mem_singleton.mp hm
        exact absurd ha (hw.forest.not_above_under ham)

/-- Records written so that no stage is needed that was not, and all is announced that was. -/
theorem Reaches.of_flags (h : Reaches d) (hroot : d'.root = d.root) (hl : d'.links = d.links)
    (hself : ∀ (s : Stage) x, d'.flagged s.selfBit x = true → d.flagged s.selfBit x = true)
    (hchild : ∀ (s : Stage) x, d.flagged s.childBit x = true → d'.flagged s.childBit x = true) :
    Reaches d' := by
  intro r hr s
  rw [hl]
  exact (h r (hroot ▸ hr) s).imp (hself s) (hchild s)

theorem Reaches.clearStage (h : Reaches d) (s : Stage) : Reaches (d.clearStage n s) := by
  have hflag : ∀ bit x, (d.clearStage n s).flagged bit x =
      if x = n then (d.record x).any fun r => (r.stage.remove s.selfBit).isSet bit
      else d.flagged bit x := by
    intro bit x
    rw [flagged, Document.clearStage, record_modify]
    by_cases hx : x = n
    · rw [if_pos hx, if_pos hx]
      cases d.record x <;> rfl
    · rw [if_neg hx, if_neg hx, flagged]
  refine h.of_flags rfl (links_clearStage d n s) (fun t x hx => ?_) fun t x hx => ?_
  · rw [hflag] at hx
    by_cases hxn : x = n
    · rw [if_pos hxn, Option.any_eq_true] at hx
      obtain ⟨r, hr, hset⟩ := hx
      exact (Option.any_eq_true _ _).mpr ⟨r, hr, StageMask.isSet_of_remove hset⟩
    · rwa [if_neg hxn] at hx
  · rw [hflag]
    by_cases hxn : x = n
    · simp only [if_pos hxn, StageMask.isSet_remove (StageMask.not_selfBit_and_childBit s t)]
      exact hx
    · rwa [if_neg hxn]

theorem flagged_modifyAll (d : Document) (f : NodeRecord → NodeRecord) (bit : StageMask)
    (x : NodeId) :
    (d.modifyAll f).flagged bit x = (d.record x).any fun r => (f r).stage.isSet bit := by
  rw [flagged, record_modifyAll]
  cases d.record x <;> rfl

theorem Reaches.clearAll (h : Reaches d) : Reaches d.clearAllStyleDirty := by
  have hflag := flagged_modifyAll d fun r =>
    { r with stage := (r.stage.remove .needsStyle).remove .childNeedsStyle }
  have hl : d.clearAllStyleDirty.links = d.links :=
    links_modifyAll d (fun _ => rfl) fun _ => rfl
  intro r hr s
  rw [hl]
  by_cases hs : s = .style
  · subst hs
    intro m a _ hown _ _
    obtain ⟨rec, -, hset⟩ := (Option.any_eq_true _ _).mp ((hflag _ m).symm.trans hown)
    rw [StageMask.isSet_remove rfl] at hset
    exact absurd (hset.symm.trans (StageMask.not_isSet_remove _ _)) Bool.true_eq_false.mp
  · have hkeep : ~~~StageMask.needsStyle &&& s.childBit = s.childBit ∧
        ~~~StageMask.childNeedsStyle &&& s.childBit = s.childBit := by
      cases s
      · exact absurd rfl hs
      · exact ⟨rfl, rfl⟩
      · exact ⟨rfl, rfl⟩
    refine (h r hr s).imp (fun m hm => ?_) fun a ha => ?_
    · obtain ⟨rec, hrec, hset⟩ := (Option.any_eq_true _ _).mp ((hflag _ m).symm.trans hm)
      exact (Option.any_eq_true _ _).mpr ⟨rec, hrec, StageMask.isSet_of_remove
        (StageMask.isSet_of_remove hset)⟩
    · obtain ⟨rec, hrec, hset⟩ := (Option.any_eq_true _ _).mp ha
      refine (hflag _ a).trans ((Option.any_eq_true _ _).mpr ⟨rec, hrec, ?_⟩)
      rw [StageMask.isSet_remove hkeep.2, StageMask.isSet_remove hkeep.1]
      exact hset

theorem Reaches.markAll (h : Reaches d) (hw : WellFormed d) : Reaches d.markAllStyleDirty := by
  have hflag := flagged_modifyAll d fun r =>
    { r with stage := (r.stage.insert .needsStyle).insert .childNeedsStyle }
  have hl : d.markAllStyleDirty.links = d.links :=
    links_modifyAll d (fun _ => rfl) fun _ => rfl
  intro r hr s
  rw [hl]
  by_cases hs : s = .style
  · subst hs
    intro m a _ _ ha _
    obtain ⟨rec, hrec⟩ := Option.isSome_iff_exists.mp (hw.has_of_root hr ha)
    refine (hflag _ a).trans ((Option.any_eq_true _ _).mpr ⟨rec, hrec, ?_⟩)
    rw [StageMask.isSet_insert]
    exact Bool.or_true _
  · have hoff : StageMask.needsStyle.isSet s.selfBit = false ∧
        StageMask.childNeedsStyle.isSet s.selfBit = false := by
      cases s
      · exact absurd rfl hs
      · exact ⟨rfl, rfl⟩
      · exact ⟨rfl, rfl⟩
    refine (h r hr s).imp (fun m hm => ?_) fun a ha => ?_
    · obtain ⟨rec, hrec, hset⟩ := (Option.any_eq_true _ _).mp ((hflag _ m).symm.trans hm)
      rw [StageMask.isSet_insert, StageMask.isSet_insert, hoff.1, hoff.2, Bool.or_false,
        Bool.or_false] at hset
      exact (Option.any_eq_true _ _).mpr ⟨rec, hrec, hset⟩
    · obtain ⟨rec, hrec, hset⟩ := (Option.any_eq_true _ _).mp ha
      refine (hflag _ a).trans ((Option.any_eq_true _ _).mpr ⟨rec, hrec, ?_⟩)
      rw [StageMask.isSet_insert, StageMask.isSet_insert, hset]
      rfl

/-- The two style bits. -/
def styleBits : StageMask := .needsStyle ||| .childNeedsStyle

theorem flagNode_eq : flagNode = setBit styleBits := by
  funext d id
  simp only [flagNode, setBit, StageMask.insert, styleBits, BitVec.or_assoc]

theorem Reaches.markSubtree (h : Reaches d) (hw : WellFormed d) (hn : d.Has n)
    (hmem : ∀ x, x ∈ ids ↔ d.links.Under n x) (hchained : d.Chained .style n) :
    Reaches (Document.flagUp .childNeedsStyle d.slots (d.parent n) (ids.foldl flagNode d)) := by
  rw [flagNode_eq]
  refine h.flag hw .style (fun t => ?_) (fun t ht => ?_) (fun x hx => (hmem x).mp hx)
    (fun m hm a ha ham => ⟨rfl, (hmem a).mpr ha, ?_⟩) hchained
  · cases t <;> rfl
  · cases t <;> first | rfl | cases ht
  · obtain rfl | ha := Links.under_iff.mp ha
    · exact hn
    · obtain ⟨q, hq, -⟩ := Links.above_iff.mp ha
      exact has_of_parent hq

/-! ### Runs -/

/-- Documents that differ in nothing that the bits and the tree are made of. -/
theorem Reaches.of_look (h : Reaches d) (hroot : d'.root = d.root) (hl : d'.links = d.links)
    (hstage : d'.look NodeRecord.stage = d.look NodeRecord.stage) : Reaches d' :=
  h.of_links hroot (flagged_of_look hstage) fun _ _ ha => hl ▸ ha

theorem Reaches.notify (h : Reaches d) (rec : MutationRecord) : Reaches (d.notify rec) :=
  h.of_look rfl rfl rfl

theorem Effect.reaches {answer : Except DomError (Option NodeId)}
    (he : Effect d op answer d') (h : Reaches d) (hw : WellFormed d) (hnamed : Named d op)
    (hannounced : Announced d op) : Reaches d' := by
  cases he with
  | created hkind => exact h.extend hw _
  | appendRefused _ | insertRefused _ | removeRefused _ | replaceRefused _ | dataRefused => exact h
  | appended hcp | insertedLast hcp =>
    exact (h.place hw (hnamed _ (by simp [Op.nodes])) (hnamed _ (by simp [Op.nodes])) hcp
      (hannounced hcp)).notify _
  | inserted hnp hr =>
    exact (h.place hw (hnamed _ (by simp [Op.nodes])) (hnamed _ (by simp [Op.nodes])) hnp
      (hannounced hnp hr)).notify _
  | removed hc => exact (h.takeOut hw hc).notify _
  | replaced ho hno hnp hfirst =>
    exact (h.swap hw (hnamed _ (by simp [Op.nodes])) ho hno hnp
      (hannounced hnp ((hw.forest.mem_children _ _).mpr ho))).notify _
  | emptied => exact h.strip hw
  | @filled id text htext =>
    have hs := hw.sameNodes_strip (p := id) rfl
    have hid := (hs.has id).mpr (hnamed id (by simp [Op.nodes]))
    refine (h.strip hw).fill (hw.strip rfl) hid fun r hr hrid s a ha haid => ?_
    rw [flagged_strip hw]
    exact hannounced htext r (hs.root.symm.trans hr) (hw.under_of_strip hrid) s a
      (hw.under_of_strip ha) (hw.under_of_strip haid)
  | @dataSet id data _ _ write _ _ =>
    have hset : Reaches (d.setKind id (write data)) :=
      h.of_look rfl (links_modify d id (fun _ => rfl) fun _ => rfl) (look_modify d id fun _ => rfl)
    exact hset.notify _
  | attributeSet =>
    exact (h.of_look (sameNodes_writeAttribute d _ _ _).root (links_writeAttribute d _ _ _)
      (OffAttrs.look_writeAttribute (fun _ _ _ => rfl) d _ _ _)).notify _
  | attributeRemoved =>
    exact (h.of_look (sameNodes_eraseAttribute d _ _).root (links_eraseAttribute d _ _)
      (OffAttrs.look_eraseAttribute (fun _ _ _ => rfl) d _ _)).notify _
  | marked => exact h.mark hw _ hannounced
  | cleared => exact h.clearStage _
  | allMarked => exact h.markAll hw
  | allCleared => exact h.clearAll
  | subtreeMarked hmem => exact h.markSubtree hw (hnamed _ (by simp [Op.nodes])) hmem hannounced

def Marked (d : Document) (op : Op) : Prop := Named d op ∧ Coherent d op ∧ Announced d op

/-- In a run whose steps announce what they bring along, the walk from the root over the
bits for what is below finds every node of the document that needs a stage. -/
theorem dom_dirty (observers : List MutationObserver) (start : Document)
    (hnew : Document.new observers = .ok start) (ops : List Op)
    (h : RunsWith Document.step Marked start ops) (d : Document)
    (hruns : runs Document.step start ops = some d) (r n : NodeId) (hr : d.root = some r)
    (hn : d.links.Under r n) (s : Stage) (hneeds : d.flagged s.selfBit n) :
    (∀ a, d.links.Under r a → d.links.Above a n → d.flagged s.childBit a) ∧
      d.links.Entered r (d.flagged s.childBit) n := by
  have hstart : Reaches start := fun r _ s n a _ _ _ han => by
    rw [links_new hnew] at han
    exact absurd han (Links.not_above_of_root rfl)
  obtain ⟨hw, hreaches⟩ := runsWith_keeps (P := fun d => WellFormed d ∧ Reaches d)
    (fun d op d' hd hop hstep => by
      obtain ⟨answer, he⟩ := hd.1.effect_of_step hop.1 hop.2.1 hstep
      exact ⟨he.wellFormed hd.1 hop.1, he.reaches hd.2 hd.1 hop.1 hop.2.2⟩)
    ⟨wellFormed_new hnew, hstart⟩ h hruns
  exact ⟨fun a ha han => hreaches r hr s n a hn hneeds ha han, (hreaches r hr s).entered hn hneeds⟩

/-- A new node put below the root of a new document. -/
def growth : List Op := [.createElement [], .appendChild (nth 0) (nth 1)]

/-- Nothing is under another node before there are any children. -/
theorem joins_of_links (hl : d.links = ⟨fun _ => none, fun _ => []⟩)
    (hp : ∀ s : Stage, d.flagged s.childBit p) : d.Joins p c := by
  intro r _ s _ m _ _
  rw [hl]
  refine ⟨fun a _ ham => absurd ham (Links.not_above_of_root rfl), fun a _ hap => ?_⟩
  obtain rfl := (Links.under_root_iff rfl).mp hap
  exact hp s

/-- After the style bits of a frame are cleared, a node is marked again. -/
def restyling : List Op :=
  [.createElement [], .appendChild (nth 0) (nth 1), .clearAllStyleDirty, .mark (nth 1) .style]

theorem dom_dirty_sample :
    ∃ start d, Document.new [] = .ok start ∧ runs Document.step start restyling = some d ∧
      d.links.Entered (nth 0) (d.flagged Stage.style.childBit) (nth 1) := by
  refine ⟨_, _, rfl, rfl, (dom_dirty [] _ rfl restyling ⟨⟨by decide, trivial, trivial⟩,
    fun d₁ h₁ => ⟨⟨?_, trivial, fun _ => ?_⟩, fun d₂ h₂ => ⟨⟨?_, trivial, trivial⟩, fun d₃ h₃ =>
    ⟨⟨?_, trivial, fun _ r hr => ?_⟩, fun _ _ => trivial⟩⟩⟩⟩ _ rfl (nth 0) (nth 1) rfl
      (Links.above_of_parent rfl).under .style rfl).2⟩
  all_goals obtain rfl := Option.some.inj h₁
  · decide
  · exact joins_of_links ((links_extend _ _).trans (links_new rfl)) fun s => by cases s <;> rfl
  all_goals obtain rfl := Option.some.inj h₂
  · decide
  all_goals obtain rfl := Option.some.inj h₃
  · decide
  · -- the root is the only node above, and its bit is clear
    intro _ a han _ hchild
    obtain ⟨p, hp, hap⟩ := Links.above_iff.mp han
    obtain rfl := Option.some.inj hp
    obtain rfl := (Links.under_root_iff rfl).mp hap
    cases hchild

/-- After the style bits of a frame are cleared, a new node goes below the root. -/
theorem dom_dirty_fails :
    ¬ ∀ (observers : List MutationObserver) (start : Document) (ops : List Op) (d : Document)
        (r n a : NodeId) (s : Stage), Document.new observers = .ok start →
      RunsWith Document.step Named start ops → runs Document.step start ops = some d →
      d.root = some r → d.links.Under r n → d.flagged s.selfBit n → d.links.Under r a →
      d.links.Above a n → d.flagged s.childBit a := by
  intro hall
  have habove := fun (d : Document) (h : d.parent (nth 1) = some (nth 0)) =>
    Links.above_of_parent (L := d.links) h
  have h := hall [] _ (.clearAllStyleDirty :: growth) _ (nth 0) (nth 1) (nth 0) .style rfl
    (by decide) rfl rfl (habove _ rfl).under rfl (.refl _ _) (habove _ rfl)
  cases h

end Document

end Conclave.Dom
