import Conclave.Lib.Run
import Conclave.Dom.Marks

/-! What an operation can do, said once. On nodes of a well formed document it answers by
one of these effects, unless there is no room for a new node or it replaces a child by
itself or by a sibling before it; and after each effect the document is well formed. -/

namespace Conclave.Dom

open Lib Arena

/-- The kind of node that an operation creates. -/
def Op.creates : Op → Option NodeKind
  | createElement tag => some (.element tag none)
  | createElementNs ns tag => some (.element tag (some ns))
  | createTextNode data => some (.text data)
  | createComment data => some (.comment data)
  | createDocumentFragment => some .documentFragment
  | _ => none

namespace Document

variable {d d' : Document} {p c n o r x : NodeId} {op : Op} {kids : List NodeId}
  {answer : Except DomError (Option NodeId)}

/-- The record of a placement before another node, or at the end. -/
def placement (p c : NodeId) (prev next : Option NodeId) : MutationRecord :=
  ⟨p, .childList [c] [] prev next⟩

inductive Effect (d : Document) : Op → Except DomError (Option NodeId) → Document → Prop
  | created {op : Op} {kind : NodeKind} (hkind : op.creates = some kind) :
      Effect d op (.ok (some d.next)) (d.extend kind)
  | appendRefused {p c : NodeId} (hcp : d.links.Under c p) :
      Effect d (.appendChild p c) (.error .hierarchyRequest) d
  | appended {p c : NodeId} (hcp : ¬ d.links.Under c p) :
      Effect d (.appendChild p c) (.ok (some c)) ((d.place p c (d.withLast p c)).notify
        (placement p c ((d.children p).erase c).getLast? none))
  | insertRefused {p n : NodeId} {refNode : Option NodeId} {e : DomError}
      (h : d.links.Under n p ∨ ∃ r, refNode = some r ∧ r ∉ d.children p) :
      Effect d (.insertBefore p n refNode) (.error e) d
  | insertedLast {p n : NodeId} (hnp : ¬ d.links.Under n p) :
      Effect d (.insertBefore p n none) (.ok (some n)) ((d.place p n (d.withLast p n)).notify
        (placement p n ((d.children p).erase n).getLast? none))
  | inserted {p n r : NodeId} (hnp : ¬ d.links.Under n p) (hr : r ∈ d.children p) :
      Effect d (.insertBefore p n (some r)) (.ok (some n))
        ((d.place p n (d.withAt p n r)).notify (placement p n
          (before ((d.children p).erase n) ((d.children p).idxOf r)) (some r)))
  | removeRefused {p c : NodeId} (hc : c ∉ d.children p) :
      Effect d (.removeChild p c) (.error .notFound) d
  | removed {p c : NodeId} (hc : d.parent c = some p) :
      Effect d (.removeChild p c) (.ok (some c)) (behead p c d)
  | replaceRefused {p n o : NodeId} {e : DomError} (h : o ∉ d.children p ∨ d.links.Under n p) :
      Effect d (.replaceChild p n o) (.error e) d
  | replaced {p n o : NodeId} (ho : d.parent o = some p) (hno : n ≠ o)
      (hnp : ¬ d.links.Under n p) (hfirst : ¬ Precedes (d.children p) n o) :
      Effect d (.replaceChild p n o) (.ok (some o))
        ((d.swap p n o (d.withSwapped p n o)).notify (d.replacement p n o))
  | emptied {id : NodeId} :
      Effect d (.setTextContent id []) (.ok none) (strip id (d.children id) d)
  | filled {id : NodeId} {text : Text} (htext : text ≠ []) :
      Effect d (.setTextContent id text) (.ok none) ((strip id (d.children id) d).fill id text)
  | dataRefused {id : NodeId} {data : Text} :
      Effect d (.setTextData id data) (.error (.invalidArgument "not a character-data node")) d
  | dataSet {id : NodeId} {data old : Text} {rec : NodeRecord} {write : Text → NodeKind}
      (hrec : d.record id = some rec)
      (hkind : NodeKind.characterData rec.kind = some (old, write)) :
      Effect d (.setTextData id data) (.ok none)
        ((d.setKind id (write data)).notify ⟨id, .characterData old data⟩)
  | attributeSet {id : NodeId} {name value : Text} :
      Effect d (.setAttribute id name value) (.ok none)
        ((d.writeAttribute id name value).notify (d.written id name value))
  | attributeRemoved {id : NodeId} {name : Text} :
      Effect d (.removeAttribute id name) (.ok none)
        ((d.eraseAttribute id name).notify (d.erased id name))
  | marked {id : NodeId} {stage : Stage} :
      Effect d (.mark id stage) (.ok none) (d.mark id stage)
  | cleared {id : NodeId} {stage : Stage} :
      Effect d (.clearStage id stage) (.ok none) (d.clearStage id stage)
  | allMarked : Effect d .markAllStyleDirty (.ok none) d.markAllStyleDirty
  | allCleared : Effect d .clearAllStyleDirty (.ok none) d.clearAllStyleDirty
  | subtreeMarked {id : NodeId} {order : List NodeId}
      (hmem : ∀ x, x ∈ order ↔ d.links.Under id x) :
      Effect d (.markStyleDirtySubtree id) (.ok none)
        (flagUp .childNeedsStyle d.slots (d.parent id) (order.foldl flagNode d))

/-- The operation is called with nodes of the document. -/
def Named (d : Document) (op : Op) : Prop := ∀ n ∈ op.nodes, d.Has n

/-- A node that the operation creates finds room. -/
def Room (d : Document) : Op → Prop
  | .setTextContent _ text => text = [] ∨ d.slots < 2 ^ 32
  | op => op.creates = none ∨ d.slots < 2 ^ 32

/-- A child is replaced neither by itself nor by a sibling before it. -/
def Coherent (d : Document) : Op → Prop
  | .replaceChild p n o => (n = o → o ∉ d.children p) ∧ ¬ Precedes (d.children p) n o
  | _ => True

theorem created_effect (h : WellFormed d) (hroom : d.slots < 2 ^ 32) {kind : NodeKind}
    (hop : d.perform op = Document.created (d.alloc kind)) (hkind : op.creates = some kind) :
    ∃ answer d', d.perform op = .ok (answer, d') ∧ Effect d op answer d' := by
  refine ⟨_, _, ?_, .created hkind⟩
  rw [hop, alloc_eq h.freeHead hroom]
  rfl

theorem appendChild_effect (h : WellFormed d) (hp : d.Has p) (hc : d.Has c) :
    ∃ answer d', d.perform (.appendChild p c) = .ok (answer, d') ∧
      Effect d (.appendChild p c) answer d' := by
  by_cases hcp : d.links.Under c p
  · exact ⟨_, _, by rw [perform, h.appendChild_under hcp]; rfl, .appendRefused hcp⟩
  · exact ⟨_, _, by rw [perform, h.appendChild_eq hp hc hcp]; rfl, .appended hcp⟩

theorem insertBefore_effect (h : WellFormed d) (hp : d.Has p) (hn : d.Has n)
    (refNode : Option NodeId) :
    ∃ answer d', d.perform (.insertBefore p n refNode) = .ok (answer, d') ∧
      Effect d (.insertBefore p n refNode) answer d' := by
  by_cases hnp : d.links.Under n p
  · exact ⟨_, _, by rw [perform, h.insertBefore_under hnp]; rfl, .insertRefused (.inl hnp)⟩
  cases refNode with
  | none =>
    refine ⟨_, _, ?_, .insertedLast hnp⟩
    rw [perform, h.insertBefore_none hnp, h.appendChild_eq hp hn hnp]
    rfl
  | some r =>
    by_cases hr : r ∈ d.children p
    · exact ⟨_, _, by rw [perform, h.insertBefore_eq hp hn hnp hr]; rfl, .inserted hnp hr⟩
    · exact ⟨_, _, by rw [perform, h.insertBefore_notFound hnp hr]; rfl,
        .insertRefused (.inr ⟨r, rfl, hr⟩)⟩

theorem removeChild_effect (h : WellFormed d) :
    ∃ answer d', d.perform (.removeChild p c) = .ok (answer, d') ∧
      Effect d (.removeChild p c) answer d' := by
  by_cases hc : c ∈ d.children p
  · have hparent : d.parent c = some p := (h.forest.mem_children p c).mp hc
    exact ⟨_, _, by rw [perform, h.removeChild_eq hparent]; rfl, .removed hparent⟩
  · exact ⟨_, _, by rw [perform, removeChild_notFound hc]; rfl, .removeRefused hc⟩

theorem replaceChild_effect (h : WellFormed d) (hn : d.Has n)
    (hself : n = o → o ∉ d.children p) (hfirst : ¬ Precedes (d.children p) n o) :
    ∃ answer d', d.perform (.replaceChild p n o) = .ok (answer, d') ∧
      Effect d (.replaceChild p n o) answer d' := by
  by_cases ho : o ∈ d.children p
  · by_cases hnp : d.links.Under n p
    · exact ⟨_, _, by rw [perform, h.replaceChild_under ho hnp]; rfl, .replaceRefused (.inr hnp)⟩
    · have hparent : d.parent o = some p := (h.forest.mem_children p o).mp ho
      have hno : n ≠ o := fun heq => hself heq ho
      exact ⟨_, _, by rw [perform, h.replaceChild_eq hn hparent hno hnp hfirst]; rfl,
        .replaced hparent hno hnp hfirst⟩
  · exact ⟨_, _, by rw [perform, replaceChild_notFound ho]; rfl, .replaceRefused (.inl ho)⟩

/-- An operation on nodes of a well formed document comes back. -/
theorem WellFormed.perform_effect (h : WellFormed d) (hnamed : Named d op)
    (hcoherent : Coherent d op) (hroom : Room d op) :
    ∃ answer d', d.perform op = .ok (answer, d') ∧ Effect d op answer d' := by
  cases op with
  | createElement tag => exact created_effect h (hroom.resolve_left nofun) rfl rfl
  | createElementNs ns tag => exact created_effect h (hroom.resolve_left nofun) rfl rfl
  | createTextNode data => exact created_effect h (hroom.resolve_left nofun) rfl rfl
  | createComment data => exact created_effect h (hroom.resolve_left nofun) rfl rfl
  | createDocumentFragment => exact created_effect h (hroom.resolve_left nofun) rfl rfl
  | appendChild p c =>
    exact appendChild_effect h (hnamed p (by simp [Op.nodes])) (hnamed c (by simp [Op.nodes]))
  | insertBefore p n refNode =>
    exact insertBefore_effect h (hnamed p (by simp [Op.nodes])) (hnamed n (by simp [Op.nodes]))
      refNode
  | removeChild p c => exact removeChild_effect h
  | replaceChild p n o =>
    exact replaceChild_effect h (hnamed n (by simp [Op.nodes])) hcoherent.1 hcoherent.2
  | setTextContent id text =>
    have hid := hnamed id (by simp [Op.nodes])
    by_cases htext : text = []
    · subst htext
      exact ⟨_, _, by rw [perform, h.setTextContent_nil]; rfl, .emptied⟩
    · exact ⟨_, _, by rw [perform, h.setTextContent_eq hid htext (hroom.resolve_left htext)]; rfl,
        .filled htext⟩
  | setTextData id data =>
    obtain hdata | ⟨rec, old, write, hrec, hkind, hdata⟩ :=
      h.setTextData_eq (hnamed id (by simp [Op.nodes])) data
    · exact ⟨_, _, by rw [perform, hdata]; rfl, .dataRefused⟩
    · exact ⟨_, _, by rw [perform, hdata]; rfl, .dataSet hrec hkind⟩
  | setAttribute id name value =>
    exact ⟨_, _, by rw [perform, h.setAttribute_eq (hnamed id (by simp [Op.nodes]))]; rfl,
      .attributeSet⟩
  | removeAttribute id name =>
    exact ⟨_, _, by rw [perform, h.removeAttribute_eq (hnamed id (by simp [Op.nodes]))]; rfl,
      .attributeRemoved⟩
  | mark id stage => exact ⟨_, _, rfl, .marked⟩
  | clearStage id stage => exact ⟨_, _, rfl, .cleared⟩
  | markAllStyleDirty => exact ⟨_, _, rfl, .allMarked⟩
  | clearAllStyleDirty => exact ⟨_, _, rfl, .allCleared⟩
  | markStyleDirtySubtree id =>
    obtain ⟨order, hmem, hmark⟩ := h.markStyleDirtySubtree_eq (hnamed id (by simp [Op.nodes]))
    exact ⟨_, _, by rw [perform, hmark]; rfl, .subtreeMarked hmem⟩

theorem alloc_full (hfree : d.slab.freeHead = none) (hfull : ¬ d.slots < 2 ^ 32)
    (kind : NodeKind) : d.alloc kind = .error (.arena .exceeded) := by
  rw [alloc, Slab.insert_of_full hfree,
    if_neg (show ¬ d.slab.slots.length < 2 ^ 32 from hfull)]

/-- Without room an operation does not come back. -/
theorem WellFormed.room_of_perform (h : WellFormed d)
    {result : Answer (Option NodeId)} (hperform : d.perform op = .ok result) : Room d op := by
  by_contra hroom
  have hfull : ¬ d.slots < 2 ^ 32 := fun hlt => hroom (by cases op <;> exact .inr hlt)
  have hcreate : ∀ kind, d.perform op = Document.created (d.alloc kind) → False := by
    intro kind hop
    rw [hop, alloc_full h.freeHead hfull] at hperform
    cases hperform
  cases op with
  | createElement tag => exact hcreate _ rfl
  | createElementNs ns tag => exact hcreate _ rfl
  | createTextNode data => exact hcreate _ rfl
  | createComment data => exact hcreate _ rfl
  | createDocumentFragment => exact hcreate _ rfl
  | setTextContent id text =>
    have htext : text ≠ [] := fun ht => hroom (.inl ht)
    have hs := h.sameNodes_strip (p := id) rfl
    rw [perform, setTextContent, h.removeAll_eq rfl, ok_bind] at hperform
    simp only [if_neg htext] at hperform
    rw [createTextNode, alloc_full (h.strip rfl).freeHead (hs.slots ▸ hfull)] at hperform
    cases hperform
  | _ => exact hroom (.inl rfl)

theorem step_eq (h : d.perform op = .ok (answer, d')) : d.step op = some d' := by
  rw [step, h]
  rfl

/-- What a step that comes back did. -/
theorem WellFormed.effect_of_step (h : WellFormed d) (hnamed : Named d op)
    (hcoherent : Coherent d op) (hstep : d.step op = some d') :
    ∃ answer, Effect d op answer d' := by
  obtain ⟨result, hperform, -⟩ : ∃ result, d.perform op = .ok result ∧ result.2 = d' := by
    cases hp : d.perform op with
    | error e =>
      rw [step, hp] at hstep
      cases hstep
    | ok result =>
      rw [step, hp] at hstep
      exact ⟨result, rfl, Option.some.inj hstep⟩
  obtain ⟨answer, d'', hperform', heffect⟩ :=
    h.perform_effect hnamed hcoherent (h.room_of_perform hperform)
  rw [step_eq hperform'] at hstep
  exact ⟨answer, Option.some.inj hstep ▸ heffect⟩

/-! ### Links and the invariant after an effect -/

theorem OffStage.links_eq (h : ∀ {β : Type} {g : NodeRecord → β},
    OffStage g → d'.look g = d.look g) : d'.links = d.links :=
  links_eq_of_look (h fun _ _ => rfl) (h fun _ _ => rfl)

theorem links_mark (d : Document) (id : NodeId) (stage : Stage) :
    (d.mark id stage).links = d.links := OffStage.links_eq fun hg => hg.look_mark d id stage

theorem links_clearStage (d : Document) (id : NodeId) (stage : Stage) :
    (d.clearStage id stage).links = d.links := links_modify d id (fun _ => rfl) fun _ => rfl

theorem links_modifyAll (d : Document) {f : NodeRecord → NodeRecord}
    (hp : ∀ r, (f r).parent = r.parent) (hc : ∀ r, (f r).children = r.children) :
    (d.modifyAll f).links = d.links :=
  links_eq_of_look (look_modifyAll d hp) (look_modifyAll d hc)

theorem links_flagSubtree (d : Document) (id : NodeId) (order : List NodeId) :
    (flagUp .childNeedsStyle d.slots (d.parent id) (order.foldl flagNode d)).links = d.links :=
  (OffStage.links_eq fun hg => hg.look_flagUp _ _ _ _).trans
    (OffStage.links_eq fun hg => hg.look_flagNodes order d)

theorem links_writeAttribute (d : Document) (id : NodeId) (name value : Text) :
    (d.writeAttribute id name value).links = d.links :=
  links_eq_of_look (OffAttrs.look_writeAttribute (fun _ _ _ => rfl) d id name value)
    (OffAttrs.look_writeAttribute (fun _ _ _ => rfl) d id name value)

theorem links_eraseAttribute (d : Document) (id : NodeId) (name : Text) :
    (d.eraseAttribute id name).links = d.links :=
  links_eq_of_look (OffAttrs.look_eraseAttribute (fun _ _ _ => rfl) d id name)
    (OffAttrs.look_eraseAttribute (fun _ _ _ => rfl) d id name)

theorem withAt_perm (hr : r ∈ d.children p) (n : NodeId) :
    (d.withAt p n r).Perm (n :: (d.children p).erase n) :=
  List.perm_insertIdx n _ (idxOf_le_length_erase hr n)

theorem WellFormed.fill (h : WellFormed d) (hp : d.Has p) (hnil : d.children p = [])
    (text : Text) : WellFormed (d.fill p text) := by
  refine ((h.extend _).place ((has_extend d _ p).mpr (.inr hp)) ((has_extend d _ _).mpr (.inl rfl))
    (h.not_under_next_extend hp _) ?_).notify _
  rw [children_extend, hnil]
  rfl

theorem Effect.wellFormed (he : Effect d op answer d') (h : WellFormed d)
    (hnamed : Named d op) : WellFormed d' := by
  cases he with
  | created hkind => exact h.extend _
  | appendRefused _ | insertRefused _ | removeRefused _ | replaceRefused _ | dataRefused => exact h
  | appended hcp | insertedLast hcp =>
    exact (h.place (hnamed _ (by simp [Op.nodes])) (hnamed _ (by simp [Op.nodes])) hcp
      (withLast_perm d _ _)).notify _
  | inserted hnp hr =>
    exact (h.place (hnamed _ (by simp [Op.nodes])) (hnamed _ (by simp [Op.nodes])) hnp
      (withAt_perm hr _)).notify _
  | removed hc => exact h.behead hc
  | replaced ho hno hnp hfirst =>
    have hm := (h.forest.mem_children _ _).mpr ho
    exact (h.swap (hnamed _ (by simp [Op.nodes])) ho hno hnp
      (withSwapped_perm hm hno hfirst)).notify _
  | emptied => exact h.strip rfl
  | @filled id text _ =>
    have hid := hnamed id (by simp [Op.nodes])
    exact (h.strip rfl).fill (((h.sameNodes_strip rfl).has id).mpr hid) h.children_strip text
  | dataSet _ _ => exact (h.setKind _ _).notify _
  | attributeSet => exact (h.writeAttribute _ _ _).notify _
  | attributeRemoved => exact (h.eraseAttribute _ _).notify _
  | marked => exact h.of_links (sameNodes_mark d _ _) (links_mark d _ _)
  | cleared => exact h.of_links (sameNodes_modify d _ _) (links_clearStage d _ _)
  | allMarked | allCleared =>
    exact h.of_links (sameNodes_modifyAll d _) (links_modifyAll d (fun _ => rfl) fun _ => rfl)
  | subtreeMarked _ =>
    exact h.of_links ((sameNodes_flagUp _ _ _ _).trans (sameNodes_flagNodes _ d))
      (links_flagSubtree d _ _)

theorem WellFormed.has_of_root (h : WellFormed d) (hr : d.root = some r)
    (hu : d.links.Under r x) : d.Has x := by
  obtain ⟨r', hr', hhas⟩ := h.root
  obtain rfl := Option.some.inj (hr'.symm.trans hr)
  obtain rfl | ha := Links.under_iff.mp hu
  · exact hhas
  · obtain ⟨q, hq, -⟩ := Links.above_iff.mp ha
    exact has_of_parent hq

/-- A step keeps the invariant. -/
theorem WellFormed.step (h : WellFormed d) (hnamed : Named d op) (hcoherent : Coherent d op)
    (hstep : d.step op = some d') : WellFormed d' := by
  obtain ⟨answer, heffect⟩ := h.effect_of_step hnamed hcoherent hstep
  exact heffect.wellFormed h hnamed

theorem links_new {observers : List MutationObserver} (h : Document.new observers = .ok d) :
    d.links = ⟨fun _ => none, fun _ => []⟩ := by
  obtain rfl := Except.ok.inj h
  exact links_extend ⟨.new, none, fun _ => none, observers⟩ .document

/-- The document with its root alone. -/
theorem wellFormed_new {observers : List MutationObserver}
    (h : Document.new observers = .ok d) : WellFormed d := by
  have hl := links_new h
  obtain rfl := Except.ok.inj h
  exact {
    freeHead := rfl
    forest := hl ▸ {
      mem_children := by simp
      nodup := by simp
      acyclic := fun v hv => Links.not_above_of_root rfl hv }
    live := fun c p hp => by
      cases hp.symm.trans (congrFun (congrArg Links.parent hl) c)
    root := ⟨⟨0, 1⟩, rfl, rfl⟩ }

instance (d : Document) (op : Op) : Decidable (Named d op) :=
  inferInstanceAs (Decidable (∀ n ∈ op.nodes, d.Has n))

instance decidableRoom (d : Document) : ∀ op, Decidable (Room d op)
  | .setTextContent .. => inferInstanceAs (Decidable (_ ∨ _))
  | .createElement _ | .createElementNs .. | .createTextNode _ | .createComment _
  | .createDocumentFragment | .insertBefore .. | .replaceChild .. | .appendChild ..
  | .removeChild .. | .setTextData .. | .setAttribute .. | .removeAttribute .. | .mark ..
  | .clearStage .. | .markAllStyleDirty | .clearAllStyleDirty | .markStyleDirtySubtree _ =>
    inferInstanceAs (Decidable (_ ∨ _))

instance decidableCoherent (d : Document) : ∀ op, Decidable (Coherent d op)
  | .replaceChild .. => inferInstanceAs (Decidable (_ ∧ _))
  | .createElement _ | .createElementNs .. | .createTextNode _ | .createComment _
  | .createDocumentFragment | .insertBefore .. | .setTextContent .. | .appendChild ..
  | .removeChild .. | .setTextData .. | .setAttribute .. | .removeAttribute .. | .mark ..
  | .clearStage .. | .markAllStyleDirty | .clearAllStyleDirty | .markStyleDirtySubtree _ =>
    isTrue trivial

/-- The handle of a node that is created when so many are there. -/
def nth (i : ℕ) : NodeId := ⟨i, 1⟩

end Document

end Conclave.Dom
