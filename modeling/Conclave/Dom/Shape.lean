import Conclave.Dom.Effects

/-! The tree of a document. A step on nodes of the document comes back with a forest again,
and with the children where they belong, unless it moves a node forward among its siblings
by a position that was found before the node left its place. -/

namespace Conclave.Dom

open Lib Arena

namespace Document

variable {d d' : Document} {p c n o r : NodeId} {op : Op}

/-- The children lists and the parents agree, and no node is above itself. -/
structure IsForest (d : Document) : Prop where
  once : ∀ p c, (d.children p).count c = if d.parent c = some p then 1 else 0
  acyclic : ∀ v, ¬ d.links.Above v v

theorem WellFormed.isForest (h : WellFormed d) : IsForest d where
  once p c := by
    by_cases hp : d.parent c = some p
    · rw [if_pos hp]
      exact List.count_eq_one_of_mem (h.forest.nodup p) ((h.forest.mem_children p c).mpr hp)
    · rw [if_neg hp]
      exact List.count_eq_zero.mpr fun hm => hp ((h.forest.mem_children p c).mp hm)
  acyclic := h.forest.acyclic

/-- The children of a parent get a node directly before another one of them. -/
def PutBefore (kids kids' : List NodeId) (n r : NodeId) : Prop :=
  if n = r then kids' = kids
  else ∃ as bs, kids.erase n = as ++ r :: bs ∧ kids' = as ++ n :: r :: bs

/-- The children of a parent get a node in the place of another one. -/
def PutFor (kids kids' : List NodeId) (n o : NodeId) : Prop :=
  if n = o then kids' = kids
  else ∃ as bs, kids.erase n = as ++ o :: bs ∧ kids' = as ++ n :: bs

/-- The children that an operation which does not fail has to leave. -/
def Prescribed (d : Document) (op : Op) (d' : Document) : Prop :=
  match op with
  | .appendChild p c | .insertBefore p c none =>
    d'.children p = (d.children p).erase c ++ [c] ∧
      ∀ q ≠ p, d'.children q = (d.children q).erase c
  | .insertBefore p n (some r) => PutBefore (d.children p) (d'.children p) n r ∧
      ∀ q ≠ p, d'.children q = (d.children q).erase n
  | .removeChild p c => d'.children p = (d.children p).erase c ∧
      ∀ q ≠ p, d'.children q = d.children q
  | .replaceChild p n o => PutFor (d.children p) (d'.children p) n o ∧
      ∀ q ≠ p, d'.children q = (d.children q).erase n
  | .setTextContent id text =>
    (if text = [] then d'.children id = []
      else ∃ t, d'.children id = [t] ∧ ¬ d.Has t ∧ d'.look NodeRecord.kind t = some (.text text)) ∧
      ∀ q ≠ id, d'.children q = d.children q
  | _ => d'.links = d.links

/-- What the answer of an operation says of the document after it. -/
def Answers (d : Document) (op : Op) (d' : Document) : Except DomError (Option NodeId) → Prop
  | .ok _ => Prescribed d op d'
  | .error _ => d' = d

/-- An operation comes back with a forest, as prescribed or with nothing changed. -/
def Behaves (d : Document) (op : Op) : Prop :=
  ∃ answer d', d.perform op = .ok (answer, d') ∧ IsForest d' ∧ Answers d op d' answer

/-- There is room for a node to be created, and no node is put before, or for, a sibling
that it precedes, or for itself. -/
def Fair (d : Document) (op : Op) : Prop :=
  Room d op ∧ Coherent d op ∧
    match op with
    | .insertBefore p n (some r) => ¬ Precedes (d.children p) n r
    | _ => True

def Allowed (d : Document) (op : Op) : Prop := Named d op ∧ Fair d op

instance decidableFair (d : Document) : ∀ op, Decidable (Fair d op)
  | .insertBefore _ _ (some _) => inferInstanceAs (Decidable (_ ∧ _ ∧ ¬ _))
  | .createElement _ | .createElementNs .. | .createTextNode _ | .createComment _
  | .createDocumentFragment | .setTextContent .. | .replaceChild .. | .appendChild ..
  | .insertBefore _ _ none | .removeChild .. | .setTextData .. | .setAttribute ..
  | .removeAttribute .. | .mark .. | .clearStage .. | .markAllStyleDirty | .clearAllStyleDirty
  | .markStyleDirtySubtree _ => inferInstanceAs (Decidable (_ ∧ _ ∧ True))

instance (d : Document) (op : Op) : Decidable (Allowed d op) :=
  inferInstanceAs (Decidable (_ ∧ _))

/-! ### The children after an effect -/

theorem WellFormed.children_place (h : WellFormed d) (hp : d.Has p) (hc : d.Has c)
    (kids : List NodeId) (q : NodeId) :
    (d.place p c kids).children q = if q = p then kids else (d.children q).erase c :=
  congrFun (congrArg Links.children (h.links_place hp hc)) q

theorem insertIdx_append (as bs : List NodeId) (n : NodeId) :
    (as ++ bs).insertIdx as.length n = as ++ n :: bs := by
  induction as with
  | nil => rfl
  | cons a as ih => simp [ih]

theorem putBefore_withAt (hr : r ∈ d.children p) (hfair : ¬ Precedes (d.children p) n r) :
    PutBefore (d.children p) (d.withAt p n r) n r := by
  obtain ⟨as, bs, hl, hras, hidx⟩ := exists_split hr
  rw [PutBefore, withAt, hidx]
  by_cases hnr : n = r
  · subst hnr
    rw [if_pos rfl, hl, List.erase_append_right _ hras, List.erase_cons_head, insertIdx_append]
  · have hnas : n ∉ as := not_mem_of_not_precedes hras (hl ▸ hfair)
    have herase : (d.children p).erase n = as ++ r :: bs.erase n := by
      rw [hl, List.erase_append_right _ hnas, List.erase_cons_tail (by simpa using Ne.symm hnr)]
    rw [if_neg hnr, herase]
    exact ⟨as, bs.erase n, rfl, insertIdx_append as _ n⟩

theorem WellFormed.children_takeOut (h : WellFormed d) (hc : d.parent c = some p) :
    (d.takeOut p c).children p = (d.children p).erase c ∧
      ∀ q ≠ p, (d.takeOut p c).children q = d.children q := by
  have hkids := fun q => congrFun (congrArg Links.children (h.links_takeOut hc)) q
  refine ⟨hkids p, fun q hq => (hkids q).trans (List.erase_of_not_mem fun hm => hq ?_)⟩
  exact Option.some.inj (((h.forest.mem_children q c).mp hm).symm.trans hc)

theorem WellFormed.children_swap (h : WellFormed d) (hn : d.Has n) (ho : d.parent o = some p)
    (hno : n ≠ o) (kids : List NodeId) :
    (d.swap p n o kids).children p = kids ∧
      ∀ q ≠ p, (d.swap p n o kids).children q = (d.children q).erase n := by
  have hl : (d.swap p n o kids).links = _ := h.links_swap hn ho hno
  have hkids : ∀ q, (d.swap p n o kids).children q =
      if q = p then kids else ((d.children q).erase n).erase o := by
    intro q
    change (d.swap p n o kids).links.children q = _
    rw [hl]
    rfl
  refine ⟨by rw [hkids, if_pos rfl], fun q hq => ?_⟩
  rw [hkids, if_neg hq]
  refine List.erase_of_not_mem fun hm => hq ?_
  exact Option.some.inj (((h.forest.mem_children q o).mp (List.mem_of_mem_erase hm)).symm.trans ho)

theorem WellFormed.children_strip_of_ne (h : WellFormed d) {q : NodeId} (hq : q ≠ p) :
    (Document.strip p (d.children p) d).children q = d.children q :=
  h.strip_keeps (P := fun d' => d'.children q = d.children q)
    (fun _ _ _ hw hkids hsame =>
      ((hw.children_takeOut (hw.parent_head hkids)).2 q hq).trans hsame) rfl rfl

theorem WellFormed.children_fill (h : WellFormed d) (hp : d.Has p) (text : Text) :
    (d.fill p text).children p = [d.next] ∧
      ∀ q ≠ p, (d.fill p text).children q = d.children q := by
  have hkids := (h.extend (.text text)).children_place ((has_extend d _ p).mpr (.inr hp))
    ((has_extend d _ d.next).mpr (.inl rfl)) [d.next]
  refine ⟨(hkids p).trans (if_pos rfl), fun q hq => (hkids q).trans ?_⟩
  rw [if_neg hq, children_extend]
  exact List.erase_of_not_mem fun hm =>
    d.not_has_next (has_of_parent ((h.forest.mem_children q d.next).mp hm))

theorem look_kind_fill (d : Document) (p : NodeId) (text : Text) :
    (d.fill p text).look NodeRecord.kind d.next = some (.text text) := by
  refine (congrFun (OffTree.look_place (fun _ _ _ _ => rfl) _ p d.next _) d.next).trans ?_
  rw [look, record_extend, if_pos rfl]
  rfl

theorem WellFormed.prescribed_fill (h : WellFormed d) (hp : d.Has p) {text : Text}
    (htext : text ≠ []) :
    Prescribed d (.setTextContent p text)
      ((Document.strip p (d.children p) d).fill p text) := by
  have hs := h.sameNodes_strip (p := p) rfl
  obtain ⟨hkids, hothers⟩ := (h.strip rfl).children_fill ((hs.has p).mpr hp) text
  refine ⟨?_, fun q hq => (hothers q hq).trans (h.children_strip_of_ne hq)⟩
  rw [if_neg htext]
  exact ⟨_, hkids, fun hh => not_has_next _ ((hs.has _).mpr hh), look_kind_fill _ p text⟩

/-- What an effect leaves is what the operation has to. -/
theorem Effect.prescribed {answer : Except DomError (Option NodeId)}
    (he : Effect d op answer d') (h : WellFormed d) (hnamed : Named d op) (hfair : Fair d op) :
    Answers d op d' answer := by
  have hplace : ∀ {p c} {kids : List NodeId}, p ∈ op.nodes → c ∈ op.nodes →
      (d.place p c kids).children p = kids ∧
        ∀ q ≠ p, (d.place p c kids).children q = (d.children q).erase c := fun hp hc =>
    ⟨(h.children_place (hnamed _ hp) (hnamed _ hc) _ _).trans (if_pos rfl),
      fun q hq => (h.children_place (hnamed _ hp) (hnamed _ hc) _ q).trans (if_neg hq)⟩
  cases he with
  | @created _ kind hkind =>
    have hl := links_extend d kind
    cases op <;> first | (cases hkind; done) | exact hl
  | appendRefused _ | insertRefused _ | removeRefused _ | replaceRefused _ | dataRefused => rfl
  | appended _ | insertedLast _ => exact hplace (by simp [Op.nodes]) (by simp [Op.nodes])
  | @inserted p n r hnp hr =>
    obtain ⟨hkids, hothers⟩ := @hplace p n (d.withAt p n r) (by simp [Op.nodes])
      (by simp [Op.nodes])
    refine ⟨?_, hothers⟩
    change PutBefore (d.children p) ((d.place p n (d.withAt p n r)).children p) n r
    rw [hkids]
    exact putBefore_withAt hr hfair.2.2
  | removed hc => exact h.children_takeOut hc
  | @replaced p n o ho hno hnp hfirst =>
    have hm := (h.forest.mem_children p o).mpr ho
    obtain ⟨hkids, hothers⟩ := h.children_swap (hnamed n (by simp [Op.nodes])) ho hno
      (d.withSwapped p n o)
    obtain ⟨as, bs, herase, hswap, -, -⟩ := withSwapped_eq hm hno hfirst
    refine ⟨?_, hothers⟩
    rw [PutFor, if_neg hno]
    exact ⟨as, bs, herase, hkids.trans hswap⟩
  | emptied =>
    exact ⟨by rw [if_pos rfl]; exact h.children_strip, fun q hq => h.children_strip_of_ne hq⟩
  | filled htext => exact h.prescribed_fill (hnamed _ (by simp [Op.nodes])) htext
  | dataSet _ _ => exact links_modify d _ (fun _ => rfl) fun _ => rfl
  | attributeSet => exact links_writeAttribute d _ _ _
  | attributeRemoved => exact links_eraseAttribute d _ _
  | marked => exact links_mark d _ _
  | cleared => exact links_clearStage d _ _
  | allMarked | allCleared => exact links_modifyAll d (fun _ => rfl) fun _ => rfl
  | subtreeMarked _ => exact links_flagSubtree d _ _

/-! ### Runs -/

theorem WellFormed.behaves (h : WellFormed d) (hallowed : Allowed d op) : Behaves d op := by
  obtain ⟨hnamed, hfair⟩ := hallowed
  obtain ⟨answer, d', hperform, he⟩ := h.perform_effect hnamed hfair.2.1 hfair.1
  exact ⟨answer, d', hperform, (he.wellFormed h hnamed).isForest, he.prescribed h hnamed hfair⟩

/-- The tree stays a forest, and the children stay in order, in every run of operations
that find room and move no node forward among its siblings by a stale position. -/
theorem dom_forest (observers : List MutationObserver) (start : Document)
    (hnew : Document.new observers = .ok start) (ops : List Op)
    (h : RunsWith Document.step Allowed start ops) :
    IsForest start ∧ RunsWith Document.step Behaves start ops :=
  ⟨(wellFormed_new hnew).isForest,
    runsWith_imp (fun _ _ _ hw ha hstep => hw.step ha.1 ha.2.2.1 hstep)
      (fun _ _ hw ha => hw.behaves ha) (wellFormed_new hnew) h⟩

/-- Two siblings under the root. -/
def siblings : List Op :=
  [.createElement [], .createElement [], .appendChild (nth 0) (nth 1),
    .appendChild (nth 0) (nth 2)]

theorem dom_forest_sample :
    ∃ start, Document.new [] = .ok start ∧ RunsWith Document.step Behaves start siblings :=
  ⟨_, rfl, (dom_forest [] _ rfl siblings (by decide)).2⟩

/-- The first of the siblings is to take the place of the second. -/
theorem dom_forest_fails :
    ¬ ∀ (observers : List MutationObserver) (start : Document) (ops : List Op),
      Document.new observers = .ok start → RunsWith Document.step Named start ops →
        RunsWith Document.step Behaves start ops := by
  intro hall
  have h := hall [] _ (siblings ++ [Op.replaceChild (nth 0) (nth 1) (nth 2)]) rfl (by decide)
  obtain ⟨answer, d', hperform, -⟩ := h.at rfl
  cases hperform

end Document

end Conclave.Dom
