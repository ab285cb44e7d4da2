import Conclave.Dom.Range
import Conclave.Dom.Shape

/-! What the deletion of a range has to leave, and the ranges for which it does. -/

namespace Conclave.Dom

open Lib

/-! ### Units -/

/-- What an offset in text counts. -/
inductive OffsetUnit where
  | scalar
  | utf16
  deriving DecidableEq, Repr

namespace OffsetUnit

def size : OffsetUnit → Char → ℕ
  | scalar, _ => 1
  | utf16, c => if c.toNat < 0x10000 then 1 else 2

theorem size_pos (u : OffsetUnit) (c : Char) : 0 < u.size c := by
  cases u with
  | scalar => exact Nat.one_pos
  | utf16 =>
    rw [size]
    split_ifs <;> omega

theorem utf8Size_eq (c : Char) : c.utf8Size =
    if c.toNat ≤ 0x7F then 1 else if c.toNat ≤ 0x7FF then 2
    else if c.toNat ≤ 0xFFFF then 3 else 4 := rfl

/-- Bytes are as many as units, and only ASCII has no more of them. -/
theorem size_le (u : OffsetUnit) (c : Char) :
    u.size c ≤ c.utf8Size ∧ (u.size c = c.utf8Size ↔ c.utf8Size = 1) := by
  cases u with
  | scalar => exact ⟨Char.utf8Size_pos c, eq_comm⟩
  | utf16 =>
    rw [size, utf8Size_eq]
    split_ifs <;> omega

theorem total_le (u : OffsetUnit) (t : Text) : total u.size t ≤ total Char.utf8Size t :=
  List.sum_le_sum fun c _ => (u.size_le c).1

theorem total_eq_iff (u : OffsetUnit) (t : Text) :
    total u.size t = total Char.utf8Size t ↔ ∀ c ∈ t, c.utf8Size = 1 := by
  induction t with
  | nil => simp [total]
  | cons c t ih =>
    have hc := u.size_le c
    have hle := u.total_le t
    rw [List.forall_mem_cons, ← hc.2, ← ih]
    simp only [total, List.map_cons, List.sum_cons] at hle ⊢
    omega

end OffsetUnit

/-- The characters from the start to the end are ASCII, and so are those before them, or else the
text repeats itself from the byte at the start offset on. -/
def Aligned (u : OffsetUnit) (t : Text) (start stop : ℕ) : Prop :=
  ∃ front slid gone back, t = front ++ slid ++ gone ++ back ∧
    total u.size (front ++ slid) = start ∧ total u.size (front ++ slid ++ gone) = stop ∧
    total Char.utf8Size front = start ∧ (∀ c ∈ gone, c.utf8Size = 1) ∧
    ∃ m, m ++ slid = slid ++ gone

/-- Cuts at bytes leave what cuts at units are to leave. -/
theorem aligned_iff {u : OffsetUnit} {a b c : Text} :
    (∃ front y x back, a ++ b ++ c = front ++ y ∧ a ++ b ++ c = x ++ back ∧
      total Char.utf8Size front = total u.size a ∧
      total Char.utf8Size x = total u.size (a ++ b) ∧ front ++ back = a ++ c) ↔
    Aligned u (a ++ b ++ c) (total u.size a) (total u.size (a ++ b)) := by
  have hpos := Char.utf8Size_pos
  constructor
  · rintro ⟨front, y, x, back, hy, hback, hfront, hx, heq⟩
    have hle : total Char.utf8Size front ≤ total Char.utf8Size a := hfront ▸ u.total_le a
    rw [List.append_assoc] at hy
    obtain ⟨slid, rfl, -⟩ := exists_append_of_total hpos hy.symm hle
    have hrest : back = slid ++ c := by simpa [List.append_assoc] using heq
    subst hrest
    have hslid : front ++ slid ++ b = x ++ slid := by
      simpa [← List.append_assoc] using hback
    have hbytes := congrArg (total Char.utf8Size) hslid
    simp only [total_append] at hbytes hx hfront
    have hascii := (u.total_eq_iff b).mp (by omega)
    rw [List.append_assoc] at hslid
    obtain ⟨m, rfl, hm⟩ := exists_append_of_total hpos hslid (by omega)
    exact ⟨front, slid, b, c, rfl, rfl, rfl, by rw [total_append, hfront], hascii, m, hm.symm⟩
  · rintro ⟨front, slid, gone, back, ht, hstart, hstop, hfront, hascii, m, hm⟩
    obtain ⟨hab, rfl⟩ := append_inj_of_total u.size_pos ht hstop.symm
    obtain ⟨rfl, rfl⟩ := append_inj_of_total u.size_pos hab hstart.symm
    have hbytes := congrArg (total Char.utf8Size) hm
    have hgone := (u.total_eq_iff b).mpr hascii
    rw [total_append, total_append] at hbytes
    refine ⟨front, slid ++ b ++ c, front ++ m, slid ++ c, by simp, ?_, hfront, ?_, by simp⟩
    · rw [List.append_assoc front m, ← List.append_assoc m, hm]
      simp
    · rw [total_append, total_append u.size, hfront]
      omega

/-! ### What a deletion has to leave -/

namespace Document

/-- The text that the offsets in a node count. -/
def data (d : Document) (n : NodeId) : Option Text :=
  (d.kind n).bind fun kind => (NodeKind.characterData kind).map Prod.fst

/-- How many children of a node are before an offset; its data is before all of them. -/
def kidsBefore (d : Document) (n : NodeId) (offset : UInt32) : ℕ :=
  if (d.data n).isSome then 0 else offset.toNat

/-- An offset is within its node, and not within a character. -/
structure Within (u : OffsetUnit) (d : Document) (n : NodeId) (offset : UInt32) : Prop where
  has : d.Has n
  text : ∀ t, d.data n = some t → ∃ a b, t = a ++ b ∧ total u.size a = offset.toNat
  kids : d.data n = none → offset.toNat ≤ (d.children n).length

def attrs (d : Document) (n : NodeId) : Option AttrMap := d.look NodeRecord.attrs n

end Document

namespace Range

/-- The start is not after the end in tree order. -/
def InOrder (d : Document) (r : Range) : Prop :=
  if r.startContainer = r.endContainer then r.startOffset ≤ r.endOffset
  else d.links.Ordered r.startContainer (d.kidsBefore r.startContainer r.startOffset)
    r.endContainer (d.kidsBefore r.endContainer r.endOffset)

def Contained (d : Document) (r : Range) (n : NodeId) : Prop :=
  d.links.Between r.startContainer (d.kidsBefore r.startContainer r.startOffset)
    r.endContainer (d.kidsBefore r.endContainer r.endOffset) n

/-- What is left of the data of a node. -/
def keptData (u : OffsetUnit) (r : Range) (n : NodeId) (t : Text) : Text :=
  let front := (cut u.size r.startOffset.toNat t).elim t Prod.fst
  let back := (cut u.size r.endOffset.toNat t).elim t Prod.snd
  if n = r.startContainer then if n = r.endContainer then front ++ back else front
  else if n = r.endContainer then back else t

def keptKind (u : OffsetUnit) (r : Range) (n : NodeId) (kind : NodeKind) : NodeKind :=
  match Document.NodeKind.characterData kind with
  | none => kind
  | some (t, write) => write (r.keptData u n t)

open Classical in
/-- The nodes between the boundary points are gone, with the text between them, and the others are
as before. -/
structure Deleted (u : OffsetUnit) (d : Document) (r : Range) (d' : Document) : Prop where
  wellFormed : d'.WellFormed
  same : d'.SameNodes d
  children : ∀ n, ¬ Contained d r n →
    d'.children n = (d.children n).filter fun c => ¬ Contained d r c
  kind : ∀ n, ¬ Contained d r n → d'.kind n = (d.kind n).map (r.keptKind u n)
  attrs : ∀ n, ¬ Contained d r n → d'.attrs n = d.attrs n

def DeletesRight (u : OffsetUnit) (d : Document) (r : Range) : Prop :=
  ∃ r' d', r.deleteContents d = .ok (.ok r', d') ∧ Deleted u d r d'

/-- The range is collapsed, or in one node that is no comment and cut where its bytes are, or from
the start of the common ancestor or the end of its first child to the end of the common ancestor
or the start of its last child. -/
def Deletable (u : OffsetUnit) (d : Document) (r : Range) : Prop :=
  if r.collapsed then True
  else if r.startContainer = r.endContainer then
    match d.kind r.startContainer with
    | some (.text t) => Aligned u t r.startOffset.toNat r.endOffset.toNat
    | some (.comment _) | some (.cdataSection _) => False
    | _ => True
  else
    (∃ p, d.links.Common p r.startContainer r.endContainer ∧
      d.links.StartOpen p r.startContainer (d.kidsBefore r.startContainer r.startOffset) ∧
      d.links.EndOpen p r.endContainer (d.kidsBefore r.endContainer r.endOffset)) ∧
    (∀ t, d.data r.startContainer = some t → total u.size t = r.startOffset.toNat) ∧
    ∀ t, d.data r.endContainer = some t → r.endOffset = 0

end Range

/-! ### Children taken out -/

namespace Document

variable {d d' : Document} {p c : NodeId} {cs : List NodeId}

/-- Some of the children of a node are taken out, and nothing else is changed. -/
structure Without (p : NodeId) (cs : List NodeId) (d d' : Document) : Prop where
  wellFormed : d'.WellFormed
  same : d'.SameNodes d
  children_self : d'.children p = (d.children p).filter (· ∉ cs)
  children_ne : ∀ q, q ≠ p → d'.children q = d.children q
  look : ∀ {β : Type} {g : NodeRecord → β}, OffTree g → d'.look g = d.look g

theorem Without.nil (h : d.WellFormed) : Without p [] d d where
  wellFormed := h
  same := .refl d
  children_self := by simp
  children_ne _ _ := rfl
  look _ := rfl

theorem Without.cons (h : d.WellFormed) (hc : d.parent c = some p)
    (hw : Without p cs (behead p c d) d') : Without p (c :: cs) d d' := by
  have hkids := h.children_takeOut hc
  constructor
  · exact hw.wellFormed
  · exact hw.same.trans ((sameNodes_notify _ _).trans (sameNodes_takeOut d p c))
  · have herase : (behead p c d).children p = (d.children p).filter (· ≠ c) := by
      have hnodup : (d.children p).Nodup := h.forest.nodup p
      rw [show (behead p c d).children p = _ from hkids.1, hnodup.erase_eq_filter]
      apply List.filter_congr
      intro x _
      rw [Bool.eq_iff_iff]
      simp
    rw [hw.children_self, herase, List.filter_filter]
    apply List.filter_congr
    intro x _
    simp [Bool.and_comm]
  · exact fun q hq => (hw.children_ne q hq).trans (hkids.2 q hq)
  · exact fun hg => (hw.look hg).trans (hg.look_takeOut d p c)

theorem WellFormed.parent_behead (h : d.WellFormed) (hc : d.parent c = some p) {x : NodeId}
    (hx : d.parent x = some p) (hne : x ≠ c) : (Document.behead p c d).parent x = some p := by
  have hlinks := congrFun (congrArg Links.parent (h.links_behead hc)) x
  exact hlinks.trans (Links.detach_parent_eq_some.mpr ⟨hne, hx⟩)

end Document

namespace Range

open Document

variable {d d' : Document} {p a b : NodeId} {cs : List NodeId} {u : OffsetUnit} {r r' : Range}

theorem removeEach_eq (h : d.WellFormed) (hcs : ∀ c ∈ cs, d.parent c = some p)
    (hnodup : cs.Nodup) : ∃ d', removeEach p cs d = .ok (.ok (), d') ∧ Without p cs d d' := by
  induction cs generalizing d with
  | nil => exact ⟨d, rfl, .nil h⟩
  | cons c cs ih =>
    obtain ⟨hc, hcs⟩ := List.forall_mem_cons.mp hcs
    obtain ⟨hnot, hnodup⟩ := List.nodup_cons.mp hnodup
    obtain ⟨d', heq, hw⟩ := ih (h.behead hc)
      (fun x hx => h.parent_behead hc (hcs x hx) fun hxc => hnot (hxc ▸ hx)) hnodup
    refine ⟨d', ?_, hw.cons h hc⟩
    rw [removeEach, h.removeChild_eq hc]
    exact heq

theorem removeOthers_eq (h : d.WellFormed) (hcs : ∀ c ∈ cs, d.parent c = some p)
    (hnodup : cs.Nodup) : ∃ d', removeOthers p a b cs d = .ok d' ∧
      Without p (cs.filter fun c => ¬ (c = a ∨ c = b)) d d' := by
  induction cs generalizing d with
  | nil => exact ⟨d, rfl, .nil h⟩
  | cons c cs ih =>
    obtain ⟨hc, hcs⟩ := List.forall_mem_cons.mp hcs
    obtain ⟨hnot, hnodup⟩ := List.nodup_cons.mp hnodup
    by_cases hkeep : c = a ∨ c = b
    · obtain ⟨d', heq, hw⟩ := ih h hcs hnodup
      refine ⟨d', ?_, ?_⟩
      · rw [removeOthers, if_pos hkeep]
        exact heq
      · rwa [List.filter_cons_of_neg (by simpa using Classical.or_iff_not_imp_left.mp hkeep)]
    · obtain ⟨d', heq, hw⟩ := ih (h.behead hc)
        (fun x hx => h.parent_behead hc (hcs x hx) fun hxc => hnot (hxc ▸ hx)) hnodup
      refine ⟨d', ?_, ?_⟩
      · rw [removeOthers, if_neg hkeep, h.removeChild_eq hc]
        exact heq
      · rw [List.filter_cons_of_pos (by simpa using hkeep)]
        exact hw.cons h hc

/-! ### Data and kinds kept -/

theorem deletesRight_of_eq (heq : r.deleteContents d = .ok (.ok r', d')) :
    DeletesRight u d r ↔ Deleted u d r d' := by
  constructor
  · rintro ⟨r'', d'', heq', hdeleted⟩
    rw [heq] at heq'
    cases heq'
    exact hdeleted
  · exact fun hdeleted => ⟨r', d', heq, hdeleted⟩

/-- The kind of a node is kept when its data is. -/
theorem keptKind_eq_iff {n : NodeId} :
    (d.kind n = (d.kind n).map (r.keptKind u n)) ↔
      ∀ t, d.data n = some t → r.keptData u n t = t := by
  rw [Document.data]
  cases d.kind n with
  | none => simp
  | some kind =>
    rw [Option.map_some, Option.bind_some, Option.some.injEq, keptKind]
    cases kind <;> simp [NodeKind.characterData, eq_comm]

/-- Only children of one node are taken out: these are to be the contained ones, and no data is to
be cut. -/
theorem deleted_iff_of_without (hw : Without p cs d d') :
    Deleted u d r d' ↔
      (¬ Contained d r p → ∀ c ∈ d.children p, Contained d r c ↔ c ∈ cs) ∧
      (∀ q, q ≠ p → ¬ Contained d r q → ∀ c ∈ d.children q, ¬ Contained d r c) ∧
      ∀ n, ¬ Contained d r n → ∀ t, d.data n = some t → r.keptData u n t = t := by
  classical
  have hkind : d'.kind = d.kind := hw.look (g := NodeRecord.kind) fun _ _ _ _ => rfl
  have hattrs : d'.attrs = d.attrs := hw.look (g := NodeRecord.attrs) fun _ _ _ _ => rfl
  constructor
  · intro hdeleted
    refine ⟨fun hp c hc => ?_, fun q hq hnot c hc hcontained => ?_, fun n hn => ?_⟩
    · have hkids := (hw.children_self).symm.trans (hdeleted.children p hp)
      have hiff : c ∈ (d.children p).filter (· ∉ cs) ↔
          c ∈ (d.children p).filter fun c => ¬ Contained d r c := by rw [hkids]
      simp only [List.mem_filter, hc, true_and, decide_eq_true_iff] at hiff
      exact (not_iff_not.mp hiff).symm
    · have hkids := (hw.children_ne q hq).symm.trans (hdeleted.children q hnot)
      rw [hkids] at hc
      simpa [hcontained] using (List.mem_filter.mp hc).2
    · have hkept := hdeleted.kind n hn
      rw [hkind] at hkept
      exact keptKind_eq_iff.mp hkept
  · rintro ⟨hself, hothers, hdata⟩
    refine ⟨hw.wellFormed, hw.same, fun n hn => ?_, fun n hn => ?_, fun n hn => ?_⟩
    · by_cases hnp : n = p
      · subst hnp
        rw [hw.children_self]
        apply List.filter_congr
        intro c hc
        simp [hself hn c hc]
      · rw [hw.children_ne n hnp]
        symm
        apply List.filter_eq_self.mpr
        intro c hc
        simpa using hothers n hnp hn c hc
    · rw [hkind]
      exact keptKind_eq_iff.mpr (hdata n hn)
    · rw [hattrs]

/-! ### Ranges in one node -/

theorem contained_self (h : d.WellFormed) (hsame : r.startContainer = r.endContainer)
    {n : NodeId} :
    Contained d r n ↔ ∃ k, d.kidsBefore r.startContainer r.startOffset ≤ k ∧
      k < d.kidsBefore r.startContainer r.endOffset ∧
      d.links.ChildOver r.startContainer k n := by
  rw [Contained, ← hsame]
  exact h.forest.between_self

theorem not_contained_start (h : d.WellFormed) : ¬ Contained d r r.startContainer := fun hc =>
  h.forest.not_after_of_under (.refl _ _) hc.1

theorem not_contained_end (h : d.WellFormed) : ¬ Contained d r r.endContainer := fun hc =>
  h.forest.not_before_of_under (.refl _ _) hc.2

theorem keptData_of_ne {n : NodeId} (hs : n ≠ r.startContainer) (he : n ≠ r.endContainer)
    (t : Text) : r.keptData u n t = t := by
  simp only [keptData, if_neg hs, if_neg he]

/-- The data in one node, cut at both offsets. -/
theorem exists_parts {n : NodeId} {start stop : UInt32} (hs : Within u d n start)
    (he : Within u d n stop) (hle : start ≤ stop) {t : Text} (ht : d.data n = some t) :
    ∃ a b c, t = a ++ b ++ c ∧ total u.size a = start.toNat ∧
      total u.size (a ++ b) = stop.toNat := by
  obtain ⟨a, y, rfl, ha⟩ := hs.text t ht
  obtain ⟨x, c, hx, hstop⟩ := he.text _ ht
  have hle' : total u.size a ≤ total u.size x := by
    rw [ha, hstop]
    exact UInt32.le_iff_toNat_le.mp hle
  obtain ⟨b, rfl, rfl⟩ := exists_append_of_total u.size_pos hx hle'
  exact ⟨a, b, c, (List.append_assoc a b c).symm, ha, hstop⟩

theorem keptData_self (hsame : r.startContainer = r.endContainer) {a b c : Text}
    (ha : total u.size a = r.startOffset.toNat)
    (hb : total u.size (a ++ b) = r.endOffset.toNat) :
    r.keptData u r.startContainer (a ++ b ++ c) = a ++ c := by
  have hfront : cut u.size r.startOffset.toNat (a ++ b ++ c) = some (a, b ++ c) :=
    (cut_eq_some u.size_pos).mpr ⟨List.append_assoc a b c, ha⟩
  have hback : cut u.size r.endOffset.toNat (a ++ b ++ c) = some (a ++ b, c) :=
    (cut_eq_some u.size_pos).mpr ⟨rfl, hb⟩
  simp only [keptData, hfront, hback, if_true, if_pos hsame, Option.elim_some]

theorem deletesRight_collapsed (h : d.WellFormed) (hcollapsed : r.collapsed)
    (htracked : r.Tracked) (hs : Within u d r.startContainer r.startOffset) :
    DeletesRight u d r := by
  obtain ⟨hsame, hoffset⟩ := of_decide_eq_true (htracked.symm.trans hcollapsed)
  have heq : r.deleteContents d = .ok (.ok r, d) := by
    rw [deleteContents, if_pos hcollapsed]
    rfl
  have hnone : ∀ n, ¬ Contained d r n := by
    intro n hn
    obtain ⟨k, hle, hlt, -⟩ := (contained_self h hsame).mp hn
    rw [hoffset] at hle
    omega
  rw [deletesRight_of_eq heq, deleted_iff_of_without (Without.nil h (p := r.startContainer))]
  refine ⟨fun _ c _ => ?_, fun q _ _ c _ => hnone c, fun n _ t ht => ?_⟩
  · simpa using hnone c
  · by_cases hn : n = r.startContainer
    · subst hn
      obtain ⟨a, b, rfl, ha⟩ := hs.text t ht
      have hkept := keptData_self (u := u) (b := []) (c := b) hsame ha
        (by rw [List.append_nil, ha, hoffset])
      rwa [List.append_nil] at hkept
    · exact keptData_of_ne hn (hsame ▸ hn) t

theorem mem_drop_take {l : List NodeId} {x : NodeId} {n m : ℕ} :
    x ∈ (l.drop n).take m ↔ ∃ k, n ≤ k ∧ k < n + m ∧ l[k]? = some x := by
  rw [List.mem_iff_getElem?]
  simp only [List.getElem?_take, List.getElem?_drop]
  constructor
  · rintro ⟨i, hi⟩
    split_ifs at hi with hlt
    exact ⟨n + i, by omega, by omega, hi⟩
  · rintro ⟨k, hle, hlt, hk⟩
    refine ⟨k - n, ?_⟩
    rw [if_pos (by omega), show n + (k - n) = k by omega, hk]

/-- In a node that is no text the children at the offsets are taken out. -/
theorem deleteContents_kids (h : d.WellFormed) (hcollapsed : ¬ r.collapsed)
    (hsame : r.startContainer = r.endContainer)
    (hkind : ∀ t, d.kind r.startContainer ≠ some (.text t)) :
    ∃ d', r.deleteContents d = .ok (.ok (r.collapse true), d') ∧
      Without r.startContainer (((d.children r.startContainer).drop r.startOffset.toNat).take
        (r.endOffset - r.startOffset).toNat) d d' := by
  have hcs : ∀ c ∈ ((d.children r.startContainer).drop r.startOffset.toNat).take
      (r.endOffset - r.startOffset).toNat, d.parent c = some r.startContainer := fun c hc =>
    (h.forest.mem_children _ c).mp (List.mem_of_mem_drop (List.mem_of_mem_take hc))
  have hnodup : (d.children r.startContainer).Nodup := h.forest.nodup r.startContainer
  have hsub := (List.take_sublist (r.endOffset - r.startOffset).toNat
    ((d.children r.startContainer).drop r.startOffset.toNat)).trans (List.drop_sublist _ _)
  obtain ⟨d', heq, hw⟩ := removeEach_eq h hcs (hnodup.sublist hsub)
  refine ⟨d', ?_, hw⟩
  rw [deleteContents, if_neg hcollapsed, if_pos hsame]
  cases hk : d.kind r.startContainer with
  | none =>
    dsimp only
    rw [heq]
    rfl
  | some kind =>
    cases kind with
    | text t => exact absurd hk (hkind t)
    | _ =>
      dsimp only
      rw [heq]
      rfl

theorem deletesRight_kids (h : d.WellFormed) (hcollapsed : ¬ r.collapsed)
    (htracked : r.Tracked) (hsame : r.startContainer = r.endContainer)
    (hs : Within u d r.startContainer r.startOffset)
    (he : Within u d r.startContainer r.endOffset) (hle : r.startOffset ≤ r.endOffset)
    (hkind : ∀ t, d.kind r.startContainer ≠ some (.text t)) :
    DeletesRight u d r ↔ d.data r.startContainer = none := by
  obtain ⟨d', heq, hw⟩ := deleteContents_kids h hcollapsed hsame hkind
  have hlt : r.startOffset.toNat < r.endOffset.toNat := by
    have hne : r.startOffset ≠ r.endOffset := fun hoffset =>
      hcollapsed (htracked.trans (decide_eq_true ⟨hsame, hoffset⟩))
    have hle' := UInt32.le_iff_toNat_le.mp hle
    have hne' : r.startOffset.toNat ≠ r.endOffset.toNat := fun heq =>
      hne (UInt32.toNat_inj.mp heq)
    omega
  rw [deletesRight_of_eq heq, deleted_iff_of_without hw]
  constructor
  · rintro ⟨-, -, hdata⟩
    cases ht : d.data r.startContainer with
    | none => rfl
    | some t =>
      obtain ⟨a, b, c, rfl, ha, hb⟩ := exists_parts hs he hle ht
      have hkept := hdata _ (not_contained_start h) _ ht
      rw [keptData_self hsame ha hb, List.append_assoc] at hkept
      have hbc := List.append_cancel_left hkept
      have hnil : b = [] := by simpa using congrArg List.length hbc
      rw [hnil, List.append_nil] at hb
      omega
  · intro hnone
    have hbefore : ∀ offset, d.kidsBefore r.startContainer offset = offset.toNat := by
      intro offset
      rw [kidsBefore, hnone]
      rfl
    have hcontained := @contained_self d r h hsame
    simp only [hbefore] at hcontained
    refine ⟨fun _ c hc => ?_, fun q hq hnot c hc hcc => ?_, fun n _ t ht => ?_⟩
    · rw [hcontained, mem_drop_take, UInt32.toNat_sub_of_le _ _ hle,
        Nat.add_sub_cancel' (UInt32.le_iff_toNat_le.mp hle)]
      obtain ⟨m, hm⟩ := List.getElem?_of_mem hc
      constructor
      · rintro ⟨k, hle, hlt, hk⟩
        obtain rfl := h.forest.childOver_unique hk ⟨c, hm, .refl _ c⟩
        exact ⟨k, hle, hlt, hm⟩
      · rintro ⟨k, hle, hlt, hk⟩
        exact ⟨k, hle, hlt, c, hk, .refl _ c⟩
    · obtain ⟨k, hle, hlt, hk⟩ := hcontained.mp hcc
      rcases h.forest.childOver_parent hk ((h.forest.mem_children q c).mp hc) with heq | hover
      · exact hq heq.symm
      · exact hnot (hcontained.mpr ⟨k, hle, hlt, hover⟩)
    · have hn : n ≠ r.startContainer := by
        rintro rfl
        rw [hnone] at ht
        cases ht
      exact keptData_of_ne hn (hsame ▸ hn) t

theorem setTextData_text (h : d.WellFormed) {n : NodeId} {t : Text}
    (hkind : d.kind n = some (.text t)) (data : Text) :
    d.setTextData n data = .ok (.ok t,
      (d.setKind n (.text data)).notify ⟨n, .characterData t data⟩) := by
  obtain ⟨rec, hrec, hk⟩ := Option.map_eq_some_iff.mp hkind
  have hn : d.Has n := Option.isSome_iff_exists.mpr ⟨rec, hrec⟩
  simp only [setTextData, hrec, hk, NodeKind.characterData]
  change (do
    let d ← (d.setKind n (.text data)).emitMutation ⟨n, .characterData t data⟩
    return (Except.ok t, d)) = _
  rw [(h.setKind n (.text data)).emitMutation_eq ⟨n, .characterData t data⟩
    (((sameNodes_modify d n _).has n).mpr hn)]
  rfl

/-- Text is cut at bytes. -/
theorem deleteContents_text (h : d.WellFormed) (hcollapsed : ¬ r.collapsed)
    (hsame : r.startContainer = r.endContainer) {t : Text}
    (hkind : d.kind r.startContainer = some (.text t))
    (hstart : r.startOffset.toNat ≤ total Char.utf8Size t)
    (hstop : r.endOffset.toNat ≤ total Char.utf8Size t) {answer : Answer Range} :
    r.deleteContents d = .ok answer ↔
      ∃ front y x back, cut Char.utf8Size r.startOffset.toNat t = some (front, y) ∧
        cut Char.utf8Size r.endOffset.toNat t = some (x, back) ∧
        answer = (.ok (r.collapse true), (d.setKind r.startContainer (.text (front ++ back))).notify
          ⟨r.startContainer, .characterData t (front ++ back)⟩) := by
  rw [deleteContents, if_neg hcollapsed, if_pos hsame]
  simp only [hkind, deleteTextRange]
  rw [if_neg (by omega)]
  cases cut Char.utf8Size r.startOffset.toNat t with
  | none => simp [bind, Except.bind]
  | some front =>
    cases cut Char.utf8Size r.endOffset.toNat t with
    | none => simp [bind, Except.bind]
    | some back =>
      dsimp only
      rw [setTextData_text h hkind]
      constructor
      · intro heq
        cases heq
        exact ⟨_, _, _, _, rfl, rfl, rfl⟩
      · rintro ⟨front', y, x, back', hfront, hback, rfl⟩
        cases hfront
        cases hback
        rfl

/-- A text is changed and nothing else: it is to be without what is between the offsets. -/
theorem deleted_text_iff (h : d.WellFormed) (hsame : r.startContainer = r.endContainer) {t : Text}
    (hkind : d.kind r.startContainer = some (.text t)) {new : Text} {rec : MutationRecord} :
    Deleted u d r ((d.setKind r.startContainer (.text new)).notify rec) ↔
      new = r.keptData u r.startContainer t := by
  have hdata : d.data r.startContainer = some t := by
    rw [Document.data, hkind]
    rfl
  have hnone : ∀ n, ¬ Contained d r n := by
    intro n hn
    obtain ⟨k, -, hlt, -⟩ := (contained_self h hsame).mp hn
    rw [kidsBefore, hdata] at hlt
    exact absurd hlt (Nat.not_lt_zero k)
  have hrecord : ∀ n, ((d.setKind r.startContainer (.text new)).notify rec).kind n =
      if n = r.startContainer then some (.text new) else d.kind n := by
    intro n
    change ((d.setKind r.startContainer (.text new)).record n).map NodeRecord.kind = _
    rw [setKind, record_modify]
    split_ifs with hn
    · subst hn
      obtain ⟨rec', hrec', -⟩ := Option.map_eq_some_iff.mp hkind
      rw [hrec']
      rfl
    · rfl
  constructor
  · intro hdeleted
    have hkept := hdeleted.kind _ (hnone r.startContainer)
    rw [hrecord, if_pos rfl, hkind] at hkept
    cases hkept
    rfl
  · rintro rfl
    have hlinks := links_modify d r.startContainer
      (f := fun rec => { rec with kind := .text (r.keptData u r.startContainer t) })
      (fun _ => rfl) fun _ => rfl
    refine ⟨(h.setKind _ _).notify _, (sameNodes_notify _ _).trans (sameNodes_modify d _ _),
      fun n _ => ?_, fun n _ => ?_, fun n _ => ?_⟩
    · have hkids := congrFun (congrArg Links.children hlinks) n
      refine Eq.trans (b := d.children n) hkids ?_
      symm
      apply List.filter_eq_self.mpr
      exact fun c _ => by simpa using hnone c
    · rw [hrecord]
      split_ifs with hn
      · rw [hn, hkind]
        rfl
      · symm
        exact (keptKind_eq_iff.mpr fun t _ => keptData_of_ne hn (hsame ▸ hn) t).symm
    · exact congrFun (look_modify d r.startContainer
        (f := fun rec => { rec with kind := .text (r.keptData u r.startContainer t) })
        (g := NodeRecord.attrs) fun _ => rfl) n

theorem deletesRight_text (h : d.WellFormed) (hcollapsed : ¬ r.collapsed)
    (hsame : r.startContainer = r.endContainer)
    (hs : Within u d r.startContainer r.startOffset)
    (he : Within u d r.startContainer r.endOffset) (hle : r.startOffset ≤ r.endOffset) {t : Text}
    (hkind : d.kind r.startContainer = some (.text t)) :
    DeletesRight u d r ↔ Aligned u t r.startOffset.toNat r.endOffset.toNat := by
  have hdata : d.data r.startContainer = some t := by
    rw [Document.data, hkind]
    rfl
  obtain ⟨a, b, c, rfl, ha, hb⟩ := exists_parts hs he hle hdata
  have hbytes : total u.size (a ++ b) ≤ total Char.utf8Size (a ++ b ++ c) := by
    rw [total_append Char.utf8Size (a ++ b)]
    exact (u.total_le (a ++ b)).trans (Nat.le_add_right _ _)
  have hstart : r.startOffset.toNat ≤ total Char.utf8Size (a ++ b ++ c) :=
    (UInt32.le_iff_toNat_le.mp hle).trans (hb ▸ hbytes)
  have hrun := @deleteContents_text d r h hcollapsed hsame _ hkind hstart (hb ▸ hbytes)
  rw [← ha, ← hb, ← aligned_iff]
  constructor
  · rintro ⟨r', d', heq, hdeleted⟩
    obtain ⟨front, y, x, back, hfront, hback, hanswer⟩ := hrun.mp heq
    cases hanswer
    rw [deleted_text_iff h hsame hkind, keptData_self hsame ha hb] at hdeleted
    rw [cut_eq_some Char.utf8Size_pos, ← ha] at hfront
    rw [cut_eq_some Char.utf8Size_pos, ← hb] at hback
    exact ⟨front, y, x, back, hfront.1, hback.1, hfront.2, hback.2, hdeleted⟩
  · rintro ⟨front, y, x, back, hy, hx, hfront, hback, hnew⟩
    refine ⟨_, _, hrun.mpr ⟨front, y, x, back, ?_, ?_, rfl⟩, ?_⟩
    · exact (cut_eq_some Char.utf8Size_pos).mpr ⟨hy, ha ▸ hfront⟩
    · exact (cut_eq_some Char.utf8Size_pos).mpr ⟨hx, hb ▸ hback⟩
    · rw [deleted_text_iff h hsame hkind, keptData_self hsame ha hb]
      exact hnew

/-! ### Ranges across nodes -/

/-- On the way up from a node the first one that is above the other node too is the lowest. -/
theorem find_climb {k : ℕ} {o : Option NodeId} {vs : List NodeId}
    (hclimb : Links.climb d.parent k o = some vs) {good : NodeId → Bool}
    (hfind : vs.find? good = some p) : ∀ q ∈ vs, good q → d.links.Under q p := by
  induction k generalizing o vs with
  | zero =>
    cases o with
    | none =>
      cases hclimb
      cases hfind
    | some n => cases hclimb
  | succ k ih =>
    cases o with
    | none =>
      cases hclimb
      cases hfind
    | some n =>
      obtain ⟨ws, hws, rfl⟩ := Option.map_eq_some_iff.mp hclimb
      have hup : ∀ q, q ∈ n :: ws ↔ d.links.Under q n := fun q => by
        simpa using Links.mem_climb (L := d.links) hclimb q
      rw [List.find?_cons] at hfind
      split at hfind
      · cases hfind
        exact fun q hq _ => (hup q).mp hq
      · next hbad =>
        intro q hq hgood
        rcases List.mem_cons.mp hq with rfl | hq
        · rw [hgood] at hbad
          cases hbad
        · exact ih hws hfind q hq hgood

theorem commonAncestor_eq (h : d.WellFormed) (hs : d.Has r.startContainer)
    (he : d.Has r.endContainer) {q : NodeId} (hqs : d.links.Under q r.startContainer)
    (hqe : d.links.Under q r.endContainer) :
    ∃ p, r.commonAncestor d = .ok (some p) ∧
      d.links.Common p r.startContainer r.endContainer := by
  obtain ⟨as, has, hamem⟩ := h.climb hs
  obtain ⟨bs, hbs, hbmem⟩ := h.climb he
  cases hfind : as.find? (· ∈ bs) with
  | none =>
    have hq := List.find?_eq_none.mp hfind q ((hamem q).mpr hqs)
    exact absurd (decide_eq_true ((hbmem q).mpr hqe)) hq
  | some p =>
    have hgood : decide (p ∈ bs) = true := List.find?_some (p := fun n => decide (n ∈ bs)) hfind
    refine ⟨p, ?_, (hamem p).mp (List.mem_of_find?_eq_some hfind),
      (hbmem p).mp (of_decide_eq_true hgood), fun q hqs hqe => ?_⟩
    · simp only [commonAncestor, ancestorChain, has, hbs, ok_bind, hfind]
      rfl
    · exact find_climb has hfind q ((hamem q).mpr hqs) (decide_eq_true ((hbmem q).mpr hqe))

theorem exists_common (h : d.WellFormed) {i j : ℕ}
    (hordered : d.links.Ordered r.startContainer i r.endContainer j) :
    ∃ q, d.links.Under q r.startContainer ∧ d.links.Under q r.endContainer := by
  rcases hordered with ⟨k, -, hk⟩ | ⟨k, -, hk⟩ | ⟨q, k, l, -, hk, hl⟩
  · exact ⟨_, .refl _ _, (h.forest.above_of_childOver hk).under⟩
  · exact ⟨_, (h.forest.above_of_childOver hk).under, .refl _ _⟩
  · exact ⟨q, (h.forest.above_of_childOver hk).under, (h.forest.above_of_childOver hl).under⟩

theorem common_unique (h : d.WellFormed) {p' : NodeId} (hp : d.links.Common p a b)
    (hp' : d.links.Common p' a b) : p = p' :=
  h.forest.antisymm (hp'.lowest p hp.left hp.right) (hp.lowest p' hp'.left hp'.right)

theorem kidsBefore_le {n : NodeId} {offset : UInt32} (hw : Within u d n offset) :
    d.kidsBefore n offset ≤ (d.children n).length := by
  rw [kidsBefore]
  split_ifs with hdata
  · exact Nat.zero_le _
  · exact hw.kids (Option.not_isSome_iff_eq_none.mp hdata)

/-- All the data before the start is kept when it is all the data there is. -/
theorem keptData_start (hne : r.startContainer ≠ r.endContainer)
    (hs : Within u d r.startContainer r.startOffset) {t : Text}
    (ht : d.data r.startContainer = some t) :
    r.keptData u r.startContainer t = t ↔ total u.size t = r.startOffset.toNat := by
  obtain ⟨a, b, rfl, ha⟩ := hs.text t ht
  have hcut : cut u.size r.startOffset.toNat (a ++ b) = some (a, b) :=
    (cut_eq_some u.size_pos).mpr ⟨rfl, ha⟩
  simp only [keptData, hcut, if_true, if_neg hne, Option.elim_some]
  constructor
  · intro heq
    rw [← heq, ha]
  · intro htotal
    obtain ⟨heq, -⟩ := append_inj_of_total (a := a) (x := a ++ b) (b := b) (y := []) u.size_pos
      (List.append_nil _).symm (ha.trans htotal.symm)
    exact heq

theorem keptData_end (hne : r.endContainer ≠ r.startContainer)
    (he : Within u d r.endContainer r.endOffset) {t : Text}
    (ht : d.data r.endContainer = some t) :
    r.keptData u r.endContainer t = t ↔ r.endOffset = 0 := by
  obtain ⟨a, b, rfl, ha⟩ := he.text t ht
  have hcut : cut u.size r.endOffset.toNat (a ++ b) = some (a, b) :=
    (cut_eq_some u.size_pos).mpr ⟨rfl, ha⟩
  simp only [keptData, hcut, if_true, if_neg hne, Option.elim_some]
  constructor
  · intro heq
    have hnil : a = [] := by simpa using congrArg List.length heq
    rw [hnil] at ha
    exact UInt32.toNat_inj.mp ha.symm
  · intro hzero
    rw [hzero] at ha
    rw [eq_nil_of_total u.size_pos ha]
    rfl

theorem deletesRight_across (h : d.WellFormed) (hcollapsed : ¬ r.collapsed)
    (hne : r.startContainer ≠ r.endContainer)
    (hs : Within u d r.startContainer r.startOffset)
    (he : Within u d r.endContainer r.endOffset)
    (hordered : d.links.Ordered r.startContainer (d.kidsBefore r.startContainer r.startOffset)
      r.endContainer (d.kidsBefore r.endContainer r.endOffset)) :
    DeletesRight u d r ↔
      (∃ p, d.links.Common p r.startContainer r.endContainer ∧
        d.links.StartOpen p r.startContainer (d.kidsBefore r.startContainer r.startOffset) ∧
        d.links.EndOpen p r.endContainer (d.kidsBefore r.endContainer r.endOffset)) ∧
      (∀ t, d.data r.startContainer = some t → total u.size t = r.startOffset.toNat) ∧
      ∀ t, d.data r.endContainer = some t → r.endOffset = 0 := by
  obtain ⟨q, hqs, hqe⟩ := exists_common h hordered
  obtain ⟨p, hcommon, hp⟩ := commonAncestor_eq h hs.has he.has hqs hqe
  have hkids : ∀ c ∈ d.children p, d.parent c = some p := fun c hc =>
    (h.forest.mem_children p c).mp hc
  obtain ⟨d', hothers, hw⟩ := removeOthers_eq (a := r.startContainer) (b := r.endContainer) h hkids
    (h.forest.nodup p)
  have heq : r.deleteContents d = .ok (.ok (r.collapse true), d') := by
    rw [deleteContents, if_neg hcollapsed, if_neg hne, hcommon, ok_bind]
    dsimp only
    rw [hothers]
    rfl
  have honly := h.forest.onlyEnds_iff hp hordered (kidsBefore_le hs) (kidsBefore_le he)
  have hnot : ¬ Contained d r p := fun hc => h.forest.not_after_of_under hp.left hc.1
  rw [deletesRight_of_eq heq, deleted_iff_of_without hw]
  constructor
  · rintro ⟨hself, hoff, hdata⟩
    have hends := honly.mp ⟨fun c hc => ?_, hoff⟩
    · refine ⟨⟨p, hp, hends⟩, fun t ht => ?_, fun t ht => ?_⟩
      · exact (keptData_start hne hs ht).mp (hdata _ (not_contained_start h) t ht)
      · exact (keptData_end hne.symm he ht).mp (hdata _ (not_contained_end h) t ht)
    · refine (hself hnot c hc).trans ?_
      rw [List.mem_filter, and_iff_right (show c ∈ d.children p from hc), decide_eq_true_iff,
        not_or]
  · rintro ⟨⟨p', hp', hends⟩, hstart, hend⟩
    obtain rfl := common_unique h hp hp'
    obtain ⟨hself, hoff⟩ := honly.mpr hends
    refine ⟨fun _ c hc => ?_, hoff, fun n _ t ht => ?_⟩
    · refine (hself c hc).trans ?_
      rw [List.mem_filter, and_iff_right (show c ∈ d.children p from hc), decide_eq_true_iff,
        not_or]
    · by_cases hns : n = r.startContainer
      · subst hns
        exact (keptData_start hne hs ht).mpr (hstart t ht)
      · by_cases hne' : n = r.endContainer
        · subst hne'
          exact (keptData_end hne.symm he ht).mpr (hend t ht)
        · exact keptData_of_ne hns hne' t

/-! ### All ranges -/

theorem deletesRight_iff (h : d.WellFormed) (htracked : r.Tracked)
    (hs : Within u d r.startContainer r.startOffset)
    (he : Within u d r.endContainer r.endOffset) (hordered : InOrder d r) :
    DeletesRight u d r ↔ Deletable u d r := by
  rw [Deletable]
  split_ifs with hcollapsed hsame
  · exact iff_true_intro (deletesRight_collapsed h hcollapsed htracked hs)
  · rw [InOrder, if_pos hsame] at hordered
    rw [← hsame] at he
    have hnone : (∀ t, d.kind r.startContainer ≠ some (.text t)) → (DeletesRight u d r ↔ _) :=
      deletesRight_kids h hcollapsed htracked hsame hs he hordered
    rw [Document.data] at hnone
    split
    · next t hkind => exact deletesRight_text h hcollapsed hsame hs he hordered hkind
    · next t hkind => simpa [hkind, NodeKind.characterData] using hnone (by simp [hkind])
    · next t hkind => simpa [hkind, NodeKind.characterData] using hnone (by simp [hkind])
    · next htext hcomment hcdata =>
      refine (hnone htext).trans (iff_true_intro ?_)
      cases hkind : d.kind r.startContainer with
      | none => rfl
      | some kind =>
        cases kind with
        | text t => exact absurd hkind (htext t)
        | comment t => exact absurd hkind (hcomment t)
        | cdataSection t => exact absurd hkind (hcdata t)
        | _ => rfl
  · rw [InOrder, if_neg hsame] at hordered
    exact deletesRight_across h hcollapsed hsame hs he hordered

/-- A deletion leaves what is outside the range, and takes what is within, when its ends are open
to both sides; and the walker returns what the filter lets through when nothing below a node turned
down is let through, and is left where it was when the last node of all is. -/
theorem range_and_walker (u : OffsetUnit) (d : Document) (h : d.WellFormed) (r : Range)
    (htracked : r.Tracked) (hs : Within u d r.startContainer r.startOffset)
    (he : Within u d r.endContainer r.endOffset) (hordered : InOrder d r) (root : NodeId)
    (hroot : d.Has root) (whatToShow : BitVec 32) (filter : NodeKind → BitVec 32) :
    (DeletesRight u d r ↔ Deletable u d r) ∧
      (TreeWalker.WalksRight (.new d root whatToShow filter) ↔
        TreeWalker.Walkable (.new d root whatToShow filter)) :=
  ⟨deletesRight_iff h htracked hs he hordered,
    TreeWalker.walksRight_iff h hroot whatToShow filter⟩

/-- A text of two characters under the root. -/
def accented : List Op := [.createTextNode ['é', 'a'], .appendChild (nth 0) (nth 1)]

theorem exists_accented : ∃ d : Document, d.WellFormed ∧ d.Has (nth 0) ∧ d.Has (nth 1) ∧
    d.kind (nth 0) = some .document ∧ d.kind (nth 1) = some (.text ['é', 'a']) ∧
    d.children (nth 0) = [nth 1] ∧ d.children (nth 1) = [] := by
  have hrun : ∃ start d : Document, Document.new [] = .ok start ∧
      runs Document.step start accented = some d ∧
      RunsWith Document.step (fun d op => Named d op ∧ Coherent d op) start accented ∧
      d.Has (nth 0) ∧ d.Has (nth 1) ∧ d.kind (nth 0) = some .document ∧
      d.kind (nth 1) = some (.text ['é', 'a']) ∧ d.children (nth 0) = [nth 1] ∧
      d.children (nth 1) = [] :=
    ⟨_, _, rfl, rfl, by decide, rfl, rfl, rfl, rfl, rfl, rfl⟩
  obtain ⟨start, d, hnew, hruns, hok, hrest⟩ := hrun
  exact ⟨d, runsWith_keeps (fun _ _ _ hw hop hstep => hw.step hop.1 hop.2 hstep)
    (wellFormed_new hnew) hok hruns, hrest⟩

/-- The text itself is the first child of the root. -/
theorem range_and_walker_sample : ∃ d : Document, d.WellFormed ∧
    DeletesRight .utf16 d ⟨nth 0, 0, nth 0, 1, false⟩ ∧
    (TreeWalker.WalksRight (.new d (nth 0) 4 fun _ => ACCEPT) ↔
      TreeWalker.Walkable (.new d (nth 0) 4 fun _ => ACCEPT)) := by
  obtain ⟨d, h, hroot, -, hkind, -, hkids, -⟩ := exists_accented
  have hdata : d.data (nth 0) = none := by
    rw [Document.data, hkind]
    rfl
  have hwithin : ∀ offset : UInt32, offset.toNat ≤ 1 → Within .utf16 d (nth 0) offset := by
    refine fun offset hle => ⟨hroot, fun t ht => ?_, fun _ => by rwa [hkids]⟩
    rw [hdata] at ht
    cases ht
  have hall := range_and_walker .utf16 d h ⟨nth 0, 0, nth 0, 1, false⟩ rfl (hwithin 0 (by decide))
    (hwithin 1 (by decide)) (by rw [InOrder, if_pos rfl]; decide) (nth 0) hroot 4
    fun _ => ACCEPT
  refine ⟨d, h, hall.1.mpr ?_, hall.2⟩
  simp only [Deletable, hkind, Bool.false_eq_true, if_false, if_true]

/-- The first character is two bytes long, and the walker is led to a text that is turned down. -/
theorem range_and_walker_fails :
    (¬ ∀ (u : OffsetUnit) (d : Document) (r : Range), d.WellFormed → r.Tracked →
      Within u d r.startContainer r.startOffset → Within u d r.endContainer r.endOffset →
      InOrder d r → DeletesRight u d r) ∧
    ¬ ∀ (d : Document) (root : NodeId) (whatToShow : BitVec 32) (filter : NodeKind → BitVec 32),
      d.WellFormed → d.Has root → TreeWalker.WalksRight (.new d root whatToShow filter) := by
  obtain ⟨d, h, hroot, htext, -, hkind, hkids, hleaf⟩ := exists_accented
  constructor
  · intro hall
    have hdata : d.data (nth 1) = some ['é', 'a'] := by
      rw [Document.data, hkind]
      rfl
    have hwithin : ∀ (offset : UInt32) (a b : Text), ['é', 'a'] = a ++ b →
        total OffsetUnit.utf16.size a = offset.toNat → Within .utf16 d (nth 1) offset := by
      refine fun offset a b ht ha => ⟨htext, fun t ht' => ⟨a, b, ?_, ha⟩, fun hnone => ?_⟩
      · rw [hdata] at ht'
        cases ht'
        exact ht
      · rw [hdata] at hnone
        cases hnone
    obtain ⟨r', d', heq, -⟩ := hall .utf16 d ⟨nth 1, 0, nth 1, 1, false⟩ h rfl
      (hwithin 0 [] ['é', 'a'] rfl rfl) (hwithin 1 ['é'] ['a'] rfl rfl)
      (by rw [InOrder, if_pos rfl]; decide)
    simp only [deleteContents, deleteTextRange, hkind] at heq
    cases heq
  · intro hall
    have hwalks := hall d (nth 0) 4 (fun _ => REJECT) h hroot
    have hends := ((TreeWalker.walksRight_iff h hroot _ _).mp hwalks).2 [nth 1]
    have hvisits : TreeWalker.Preorder d (nth 0) [nth 1] := by
      rw [TreeWalker.Preorder, hkids]
      refine .cons ?_
      rw [hleaf]
      exact .nil
    have hanswer : (TreeWalker.new d (nth 0) 4 fun _ => REJECT).acceptNode (nth 1) = REJECT := by
      rw [TreeWalker.acceptNode,
        show (TreeWalker.new d (nth 0) 4 fun _ => REJECT).doc.kind (nth 1) = _ from hkind]
      exact if_pos (show shows 4 (.text ['é', 'a']) = true by decide)
    exact absurd (hanswer.symm.trans (hends hvisits (nth 1) rfl)) (by decide)

end Range

end Conclave.Dom
