import Conclave.Lib.Outcome
import Conclave.Dom.Edits

/-! What each tree operation does on the nodes of a well formed document: it is turned down
and leaves the document as it was, or it leaves an edit of it, with a record of that. -/

namespace Conclave.Dom.Document

open Lib Arena

variable {d : Document} {p c n o r x : NodeId} {kids : List NodeId}

theorem WellFormed.children_detach (h : WellFormed d) (c p : NodeId) :
    (d.detach c).children p = (d.children p).erase c :=
  congrFun (congrArg Links.children (h.links_detach c)) p

theorem WellFormed.appendChild_under (h : WellFormed d) (hcp : d.links.Under c p) :
    d.appendChild p c = .ok (.error .hierarchyRequest, d) := by
  classical
  rw [appendChild, h.validateInsert_eq, if_pos hcp]
  rfl

/-- The children of a parent that gets one more, or has it moved, at the end. -/
def withLast (d : Document) (p c : NodeId) : List NodeId := (d.children p).erase c ++ [c]

theorem withLast_perm (d : Document) (p c : NodeId) :
    (d.withLast p c).Perm (c :: (d.children p).erase c) := List.perm_append_singleton c _

/-- The document after a placement whose writes all found their record. -/
theorem WellFormed.place_eq (h : WellFormed d) (hp : d.Has p) (hc : d.Has c)
    (hcp : ¬ d.links.Under c p) (hkids : kids.Perm (c :: (d.children p).erase c))
    {f : List NodeId → Except Fault (List NodeId)} (hf : f ((d.children p).erase c) = .ok kids)
    (rec : MutationRecord) (hrec : rec.target = p) :
    (do
      andThen (← (d.detach c).withChildren p f) fun d =>
        andThen (d.withParent c (some p)) fun d => do
          let d ← (d.maybeRegisterId c).emitMutation rec
          return (.ok c, d)) = Except.ok (.ok c, (d.place p c kids).notify rec) := by
  have hs := sameNodes_detach d c
  have hs' := (sameNodes_setChildren (d.detach c) p kids).trans hs
  rw [← h.children_detach c p] at hf
  rw [withChildren_eq ((hs.has p).mpr hp) hf, ok_bind]
  simp only [andThen, withParent_eq ((hs'.has c).mpr hc)]
  have hw := h.place hp hc hcp hkids
  have htarget : (d.place p c kids).Has rec.target := by
    rw [hrec]
    exact ((sameNodes_place d p c kids).has p).mpr hp
  rw [show (((d.detach c).setChildren p kids).setParent c (some p)).maybeRegisterId c =
    d.place p c kids from rfl, hw.emitMutation_eq rec htarget]
  rfl

theorem WellFormed.appendChild_eq (h : WellFormed d) (hp : d.Has p) (hc : d.Has c)
    (hcp : ¬ d.links.Under c p) :
    d.appendChild p c = .ok (.ok c, (d.place p c (d.withLast p c)).notify
      ⟨p, .childList [c] [] ((d.children p).erase c).getLast? none⟩) := by
  classical
  rw [appendChild, h.validateInsert_eq, if_neg hcp, ok_bind]
  simp only
  rw [h.children_detach c p]
  exact h.place_eq hp hc hcp (withLast_perm d p c) rfl _ rfl

theorem idxOf?_eq {l : List NodeId} (h : r ∈ l) : l.idxOf? r = some (l.idxOf r) := by
  induction l with
  | nil => cases h
  | cons a l ih =>
    rw [List.idxOf?_cons, List.idxOf_cons]
    by_cases ha : a = r
    · simp [ha]
    · have hm : r ∈ l := (List.mem_cons.mp h).resolve_left (Ne.symm ha)
      simp [ih hm, beq_false_of_ne ha]

theorem idxOf?_eq_none {l : List NodeId} (h : r ∉ l) : l.idxOf? r = none := by
  simpa using h

/-! ### Insertion before a child -/

theorem WellFormed.insertBefore_under (h : WellFormed d) (hnp : d.links.Under n p)
    (refNode : Option NodeId) :
    d.insertBefore p n refNode = .ok (.error .hierarchyRequest, d) := by
  classical
  rw [insertBefore.eq_def, h.validateInsert_eq, if_pos hnp]
  rfl

theorem WellFormed.insertBefore_none (h : WellFormed d) (hnp : ¬ d.links.Under n p) :
    d.insertBefore p n none = d.appendChild p n := by
  classical
  rw [insertBefore.eq_def, h.validateInsert_eq, if_neg hnp]
  rfl

theorem WellFormed.insertBefore_notFound (h : WellFormed d) (hnp : ¬ d.links.Under n p)
    (hr : r ∉ d.children p) : d.insertBefore p n (some r) = .ok (.error .notFound, d) := by
  classical
  rw [insertBefore.eq_def, h.validateInsert_eq, if_neg hnp, ok_bind]
  simp only [idxOf?_eq_none hr]
  rfl

/-- The children of a parent with one put where another one is found before the move. -/
def withAt (d : Document) (p n r : NodeId) : List NodeId :=
  ((d.children p).erase n).insertIdx ((d.children p).idxOf r) n

theorem idxOf_le_length_erase {l : List NodeId} (hr : r ∈ l) (n : NodeId) :
    l.idxOf r ≤ (l.erase n).length := by
  have hlt := List.idxOf_lt_length_of_mem hr
  by_cases hn : n ∈ l
  · have := List.length_erase_of_mem hn
    omega
  · rw [List.erase_of_not_mem hn]
    exact hlt.le

theorem WellFormed.insertBefore_eq (h : WellFormed d) (hp : d.Has p) (hn : d.Has n)
    (hnp : ¬ d.links.Under n p) (hr : r ∈ d.children p) :
    d.insertBefore p n (some r) = .ok (.ok n, (d.place p n (d.withAt p n r)).notify
      ⟨p, .childList [n] [] (before ((d.children p).erase n) ((d.children p).idxOf r))
        (some r)⟩) := by
  classical
  have hle := idxOf_le_length_erase hr n
  rw [insertBefore.eq_def, h.validateInsert_eq, if_neg hnp, ok_bind]
  simp only [idxOf?_eq hr]
  rw [h.children_detach n p]
  exact h.place_eq hp hn hnp (List.perm_insertIdx n _ hle) (if_pos hle) _ rfl

/-! ### Removal -/

theorem removeChild_notFound (hc : c ∉ d.children p) :
    d.removeChild p c = .ok (.error .notFound, d) := by
  simp only [removeChild, idxOf?_eq_none hc]
  rfl

/-- The record of a removal. -/
def removal (d : Document) (p c : NodeId) : MutationRecord :=
  let kids := d.children p
  ⟨p, .childList [] [c] (before kids (kids.idxOf c)) kids[kids.idxOf c + 1]?⟩

theorem WellFormed.removeChild_eq (h : WellFormed d) (hc : d.parent c = some p) :
    d.removeChild p c = .ok (.ok c, (d.takeOut p c).notify (d.removal p c)) := by
  have hm : c ∈ d.children p := (h.forest.mem_children p c).mpr hc
  have hp : d.Has p := h.live c p hc
  have hf : vecRemove (d.children p) ((d.children p).idxOf c) = .ok ((d.children p).erase c) := by
    rw [vecRemove, if_pos (List.idxOf_lt_length_of_mem hm), List.eraseIdx_idxOf_eq_erase]
  have hs := sameNodes_setChildren d p ((d.children p).erase c)
  simp only [removeChild, idxOf?_eq hm]
  rw [withChildren_eq hp hf, ok_bind]
  simp only [andThen, withParent_eq ((hs.has c).mpr (has_of_parent hc))]
  rw [show ((d.setChildren p ((d.children p).erase c)).setParent c none).unregisterId c =
    d.takeOut p c from rfl, (h.takeOut hc).emitMutation_eq _
      (((sameNodes_takeOut d p c).has p).mpr hp)]
  rfl

/-! ### Replacement -/

theorem replaceChild_notFound (ho : o ∉ d.children p) :
    d.replaceChild p n o = .ok (.error .notFound, d) := by
  simp only [replaceChild, idxOf?_eq_none ho]
  rfl

theorem WellFormed.replaceChild_under (h : WellFormed d) (ho : o ∈ d.children p)
    (hnp : d.links.Under n p) :
    d.replaceChild p n o = .ok (.error .hierarchyRequest, d) := by
  classical
  simp only [replaceChild, idxOf?_eq ho]
  rw [h.validateInsert_eq, if_pos hnp]
  rfl

/-- The children of a parent with one overwritten at the place another one has before. -/
def withSwapped (d : Document) (p n o : NodeId) : List NodeId :=
  ((d.children p).erase n).set ((d.children p).idxOf o) n

/-- The record of a replacement. -/
def replacement (d : Document) (p n o : NodeId) : MutationRecord :=
  let kids := d.children p
  ⟨p, .childList [n] [o] (before kids (kids.idxOf o)) kids[kids.idxOf o + 1]?⟩

/-- A list around its first occurrence of an element. -/
theorem exists_split {l : List NodeId} (ho : o ∈ l) :
    ∃ as bs, l = as ++ o :: bs ∧ o ∉ as ∧ l.idxOf o = as.length := by
  obtain ⟨as, bs, rfl, hoas⟩ := List.eq_append_cons_of_mem ho
  exact ⟨as, bs, rfl, hoas, by rw [List.idxOf_append_of_notMem hoas, List.idxOf_cons_self]; rfl⟩

/-- `a` is on the list and comes before `b`, which is on it too. -/
def Precedes (l : List NodeId) (a b : NodeId) : Prop :=
  a ∈ l ∧ b ∈ l ∧ l.idxOf a < l.idxOf b

instance (l : List NodeId) (a b : NodeId) : Decidable (Precedes l a b) :=
  inferInstanceAs (Decidable (_ ∧ _ ∧ _))

theorem not_mem_of_not_precedes {as bs : List NodeId} (hoas : o ∉ as)
    (hn : ¬ Precedes (as ++ o :: bs) n o) : n ∉ as := by
  intro hm
  refine hn ⟨List.mem_append_left _ hm, by simp, ?_⟩
  rw [List.idxOf_append_of_mem hm, List.idxOf_append_of_notMem hoas]
  exact (List.idxOf_lt_length_of_mem hm).trans_le (Nat.le_add_right _ _)

/-- The two places of a replacement that goes right. -/
theorem withSwapped_eq (ho : o ∈ d.children p) (hno : n ≠ o)
    (hfirst : ¬ Precedes (d.children p) n o) :
    ∃ as bs, (d.children p).erase n = as ++ o :: bs ∧ d.withSwapped p n o = as ++ n :: bs ∧
      (d.children p).idxOf o = as.length ∧ o ∉ as := by
  obtain ⟨as, bs, hl, hoas, hidx⟩ := exists_split ho
  have hnas : n ∉ as := not_mem_of_not_precedes hoas (hl ▸ hfirst)
  have herase : (d.children p).erase n = as ++ o :: bs.erase n := by
    rw [hl, List.erase_append_right _ hnas, List.erase_cons_tail (by simpa using Ne.symm hno)]
  refine ⟨as, bs.erase n, herase, ?_, hidx, hoas⟩
  rw [withSwapped, herase, hidx]
  simp

theorem withSwapped_perm (ho : o ∈ d.children p) (hno : n ≠ o)
    (hfirst : ¬ Precedes (d.children p) n o) :
    (d.withSwapped p n o).Perm (n :: ((d.children p).erase n).erase o) := by
  obtain ⟨as, bs, herase, hswap, -, hoas⟩ := withSwapped_eq ho hno hfirst
  rw [hswap, herase, List.erase_append_right _ hoas, List.erase_cons_head]
  exact List.perm_middle

/-- The document after a replacement whose writes all found their record. -/
theorem WellFormed.swap_eq (h : WellFormed d) (hn : d.Has n) (ho : d.parent o = some p)
    (hno : n ≠ o) (hnp : ¬ d.links.Under n p)
    (hkids : kids.Perm (n :: ((d.children p).erase n).erase o))
    {f : List NodeId → Except Fault (List NodeId)} (hf : f ((d.children p).erase n) = .ok kids)
    (rec : MutationRecord) (hrec : rec.target = p) :
    (do
      andThen (← ((d.detach n).unregisterId o).withChildren p f) fun d =>
        andThen (d.withParent n (some p)) fun d =>
          andThen (d.withParent o none) fun d => do
            let d ← (d.maybeRegisterId n).emitMutation rec
            return (.ok o, d)) = Except.ok (.ok o, (d.swap p n o kids).notify rec) := by
  have hp : d.Has p := h.live o p ho
  have hs := (sameNodes_unregisterId (d.detach n) o).trans (sameNodes_detach d n)
  have hs₁ := (sameNodes_setChildren ((d.detach n).unregisterId o) p kids).trans hs
  have hs₂ := (sameNodes_setParent (((d.detach n).unregisterId o).setChildren p kids) n
    (some p)).trans hs₁
  have hchildren : ((d.detach n).unregisterId o).children p = (d.children p).erase n :=
    (congrFun (congrArg Links.children (links_unregisterId (d.detach n) o)) p).trans
      (h.children_detach n p)
  rw [← hchildren] at hf
  rw [withChildren_eq ((hs.has p).mpr hp) hf, ok_bind]
  simp only [andThen, withParent_eq ((hs₁.has n).mpr hn),
    withParent_eq ((hs₂.has o).mpr (has_of_parent ho))]
  have hw := h.swap hn ho hno hnp hkids
  have htarget : (d.swap p n o kids).Has rec.target := by
    rw [hrec]
    exact ((sameNodes_swap d p n o kids).has p).mpr hp
  rw [show ((((((d.detach n).unregisterId o).setChildren p kids).setParent n
    (some p)).setParent o none).maybeRegisterId n) = d.swap p n o kids from rfl,
    hw.emitMutation_eq rec htarget]
  rfl

theorem WellFormed.replaceChild_eq (h : WellFormed d) (hn : d.Has n) (ho : d.parent o = some p)
    (hno : n ≠ o) (hnp : ¬ d.links.Under n p) (hfirst : ¬ Precedes (d.children p) n o) :
    d.replaceChild p n o = .ok (.ok o, (d.swap p n o (d.withSwapped p n o)).notify
      (d.replacement p n o)) := by
  classical
  have hm : o ∈ d.children p := (h.forest.mem_children p o).mpr ho
  have hkids := withSwapped_perm hm hno hfirst
  obtain ⟨as, bs, herase, -, hidx, -⟩ := withSwapped_eq hm hno hfirst
  have hf : vecSet ((d.children p).erase n) ((d.children p).idxOf o) n =
      .ok (d.withSwapped p n o) := by
    rw [vecSet, if_pos (by rw [herase, hidx]; simp)]
    rfl
  simp only [replaceChild, idxOf?_eq hm]
  rw [h.validateInsert_eq, if_neg hnp, ok_bind]
  exact h.swap_eq hn ho hno hnp hkids hf _ rfl

/-! ### Creation -/

/-- The record of a new node, dirty in every stage. -/
def fresh (kind : NodeKind) : NodeRecord :=
  ⟨kind, [], none, [], none, .selfAny ||| .childAny⟩

/-- The node that the next creation answers. -/
def next (d : Document) : NodeId := d.slab.next

def extend (d : Document) (kind : NodeKind) : Document :=
  { d with slab := ⟨d.slab.slots ++ [.occupied 1 (fresh kind)], none, d.slab.len + 1⟩ }

theorem alloc_eq (hfree : d.slab.freeHead = none) (hroom : d.slots < 2 ^ 32) (kind : NodeKind) :
    d.alloc kind = .ok (d.next, d.extend kind) := by
  rw [alloc, Slab.insert_of_full hfree, if_pos (show d.slab.slots.length < 2 ^ 32 from hroom)]
  rfl

theorem record_extend (d : Document) (kind : NodeKind) (x : NodeId) :
    (d.extend kind).record x = if x = d.next then some (fresh kind) else d.record x :=
  d.slab.get_append (fresh kind) _ x

theorem record_next (d : Document) : d.record d.next = none := d.slab.get_next

theorem not_has_next (d : Document) : ¬ d.Has d.next := by
  simp [Has, record_next]

theorem has_extend (d : Document) (kind : NodeKind) (x : NodeId) :
    (d.extend kind).Has x ↔ x = d.next ∨ d.Has x := by
  rw [Has, record_extend]
  by_cases hx : x = d.next
  · simp [hx]
  · simp [hx, Has]

theorem links_extend (d : Document) (kind : NodeKind) : (d.extend kind).links = d.links := by
  simp only [links, Links.mk.injEq]
  constructor
  all_goals
    funext x
    by_cases hx : x = d.next
    · subst hx
      simp [parent, children, record_extend, record_next, fresh]
    · simp [parent, children, record_extend, hx]

theorem WellFormed.extend (h : WellFormed d) (kind : NodeKind) : WellFormed (d.extend kind) where
  freeHead := rfl
  forest := links_extend d kind ▸ h.forest
  live c p hp := by
    have hp' : d.parent c = some p := by
      rwa [show (d.extend kind).parent = d.parent from congrArg Links.parent (links_extend d kind)]
        at hp
    exact (has_extend d kind p).mpr (.inr (h.live c p hp'))
  root := by
    obtain ⟨r, hr, hhas⟩ := h.root
    exact ⟨r, hr, (has_extend d kind r).mpr (.inr hhas)⟩

theorem WellFormed.not_under_next (h : WellFormed d) (hn : d.Has n) : ¬ d.links.Under d.next n :=
  fun hu => d.not_has_next (h.has_of_under hu hn)

/-! ### Text content -/

/-- The first of the children, taken out. -/
def behead (p c : NodeId) (d : Document) : Document := (d.takeOut p c).notify (d.removal p c)

theorem WellFormed.behead (h : WellFormed d) (hc : d.parent c = some p) :
    WellFormed (behead p c d) := (h.takeOut hc).notify _

theorem WellFormed.parent_head (h : WellFormed d) (hkids : d.children p = c :: kids) :
    d.parent c = some p :=
  (h.forest.mem_children p c).mp (by
    rw [show d.links.children p = c :: kids from hkids]
    exact List.mem_cons_self)

theorem WellFormed.links_behead (h : WellFormed d) (hc : d.parent c = some p) :
    (Document.behead p c d).links = d.links.detach c := h.links_takeOut hc

theorem WellFormed.children_behead (h : WellFormed d) (hkids : d.children p = c :: kids) :
    (Document.behead p c d).children p = kids := by
  have hl := congrFun (congrArg Links.children (h.links_behead (h.parent_head hkids))) p
  exact hl.trans (by simp [Links.detach, links, hkids])

theorem strip_cons (hkids : d.children p = c :: kids) :
    strip p (c :: kids) d = strip p kids (behead p c d) := by
  have hrec : d.removal p c = ⟨p, .childList [] [c] none kids.head?⟩ := by
    simp [removal, hkids, before, List.head?_eq_getElem?]
  rw [strip, behead, hrec]

/-- What every removal of a first child keeps, the removal of all of them keeps. -/
theorem WellFormed.strip_keeps {P : Document → Prop}
    (hstep : ∀ d c kids, WellFormed d → d.children p = c :: kids → P d → P (Document.behead p c d))
    (h : WellFormed d) (hd : P d) (hkids : d.children p = kids) : P (strip p kids d) := by
  induction kids generalizing d with
  | nil => exact hd
  | cons c kids ih =>
    rw [strip_cons hkids]
    exact ih (h.behead (h.parent_head hkids)) (hstep d c kids h hkids hd)
      (h.children_behead hkids)

theorem WellFormed.strip (h : WellFormed d) (hkids : d.children p = kids) :
    WellFormed (Document.strip p kids d) :=
  h.strip_keeps (fun _ _ _ h hkids _ => h.behead (h.parent_head hkids)) h hkids

theorem WellFormed.sameNodes_strip (h : WellFormed d) (hkids : d.children p = kids) :
    SameNodes (Document.strip p kids d) d :=
  h.strip_keeps (P := fun d' => SameNodes d' d)
    (fun _ c _ _ _ hs => (sameNodes_notify _ _).trans ((sameNodes_takeOut _ p c).trans hs))
    (.refl d) hkids

/-- The loop over the children removes them all. -/
theorem WellFormed.removeAll_eq (h : WellFormed d) (hkids : d.children p = kids) :
    kids.foldlM (fun d c => do return (← d.removeChild p c).2) d =
      Except.ok (Document.strip p kids d) := by
  induction kids generalizing d with
  | nil => rfl
  | cons c kids ih =>
    have hc := h.parent_head hkids
    rw [List.foldlM_cons, h.removeChild_eq hc, ok_bind, strip_cons hkids]
    exact ih (h.behead hc) (h.children_behead hkids)

theorem WellFormed.children_strip (h : WellFormed d) :
    (Document.strip p (d.children p) d).children p = [] := by
  induction hkids : d.children p generalizing d with
  | nil => exact hkids
  | cons c kids ih =>
    rw [strip_cons hkids]
    have hrest := h.children_behead hkids
    exact ih (h.behead (h.parent_head hkids)) hrest

/-- A new text put under a parent without children. -/
def fill (d : Document) (p : NodeId) (text : Text) : Document :=
  ((d.extend (.text text)).place p d.next [d.next]).notify
    ⟨p, .childList [d.next] [] none none⟩

theorem WellFormed.setTextContent_nil (h : WellFormed d) :
    d.setTextContent p [] = .ok (Document.strip p (d.children p) d) := by
  rw [setTextContent, h.removeAll_eq rfl]
  rfl

theorem children_extend (d : Document) (kind : NodeKind) :
    (d.extend kind).children = d.children := congrArg Links.children (links_extend d kind)

theorem WellFormed.not_under_next_extend (h : WellFormed d) (hp : d.Has p) (kind : NodeKind) :
    ¬ (d.extend kind).links.Under d.next p := by
  rw [links_extend]
  exact h.not_under_next hp

theorem WellFormed.appendChild_next (h : WellFormed d) (hp : d.Has p)
    (hnil : d.children p = []) (text : Text) :
    (d.extend (.text text)).appendChild p d.next = .ok (.ok d.next, d.fill p text) := by
  have hkids : (d.extend (.text text)).children p = [] := by rw [children_extend, hnil]
  rw [(h.extend _).appendChild_eq ((has_extend d _ p).mpr (.inr hp))
    ((has_extend d _ d.next).mpr (.inl rfl)) (h.not_under_next_extend hp _), withLast, hkids]
  rfl

theorem WellFormed.setTextContent_eq (h : WellFormed d) (hp : d.Has p) {text : Text}
    (htext : text ≠ []) (hroom : d.slots < 2 ^ 32) :
    d.setTextContent p text = .ok ((Document.strip p (d.children p) d).fill p text) := by
  have hs := h.sameNodes_strip (p := p) rfl
  have hw := h.strip (p := p) rfl
  rw [setTextContent, h.removeAll_eq rfl, ok_bind]
  simp only [if_neg htext]
  rw [createTextNode, alloc_eq hw.freeHead (hs.slots ▸ hroom), ok_bind]
  simp only
  rw [hw.appendChild_next ((hs.has p).mpr hp) h.children_strip text]
  rfl

end Conclave.Dom.Document
