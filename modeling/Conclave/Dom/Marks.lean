import Conclave.Dom.Operations

/-! The operations that write no links: attributes, text data, and the dirty bits. The walk
down a subtree ends, because it meets each node of a forest once. -/

namespace Conclave.Dom.Document

open Lib Arena

variable {d : Document} {n x : NodeId}

/-! ### Attributes and text data -/

/-- The attribute written, before the record of it. -/
def writeAttribute (d : Document) (id : NodeId) (name value : Text) : Document :=
  let old := (d.record id).bind fun r => (r.attrs.set name value).1
  let d := d.modify id fun r => { r with attrs := (r.attrs.set name value).2 }
  if eqIgnoreAsciiCase name "id".toList then
    let d := old.elim d fun prev => d.dropId prev id
    let d := { d with idIndex := Function.update d.idIndex value (some id) }
    d.modify id fun r => { r with elementIdCache := some value }
  else d

/-- The attribute taken away, before the record of it. -/
def eraseAttribute (d : Document) (id : NodeId) (name : Text) : Document :=
  let old := (d.record id).bind fun r => (r.attrs.remove name).1
  let d := d.modify id fun r => { r with attrs := (r.attrs.remove name).2 }
  if eqIgnoreAsciiCase name "id".toList then
    let d := old.elim d fun prev => d.dropId prev id
    d.modify id fun r => { r with elementIdCache := none }
  else d

/-- The records of the two. -/
def written (d : Document) (id : NodeId) (name value : Text) : MutationRecord :=
  ⟨id, .attributes name (attrNamespace name)
    ((d.record id).bind fun r => (r.attrs.set name value).1) (some value)⟩

def erased (d : Document) (id : NodeId) (name : Text) : MutationRecord :=
  ⟨id, .attributes name (attrNamespace name)
    ((d.record id).bind fun r => (r.attrs.remove name).1) none⟩

/-- A field that neither an attribute nor the index of ids is. -/
def OffAttrs {β : Type} (g : NodeRecord → β) : Prop :=
  ∀ r attrs cache, g { r with attrs := attrs, elementIdCache := cache } = g r

variable {β : Type} {g : NodeRecord → β}

theorem sameNodes_elim_dropId (d : Document) (old : Option Text) (id : NodeId) :
    SameNodes (old.elim d fun prev => d.dropId prev id) d := by
  cases old with
  | none => exact .refl d
  | some prev => exact sameNodes_dropId d prev id

theorem look_elim_dropId (d : Document) (old : Option Text) (id : NodeId) :
    (old.elim d fun prev => d.dropId prev id).look g = d.look g := by
  cases old with
  | none => rfl
  | some prev => exact look_dropId d prev id g

theorem sameNodes_writeAttribute (d : Document) (id : NodeId) (name value : Text) :
    SameNodes (d.writeAttribute id name value) d := by
  simp only [writeAttribute]
  split
  · refine (sameNodes_modify _ _ _).trans ?_
    have hs := (sameNodes_elim_dropId (d.modify id fun r =>
      { r with attrs := (r.attrs.set name value).2 })
      ((d.record id).bind fun r => (r.attrs.set name value).1) id).trans (sameNodes_modify d id _)
    exact ⟨hs.slots, hs.freeHead, hs.has, hs.root⟩
  · exact sameNodes_modify d id _

theorem OffAttrs.look_writeAttribute (hg : OffAttrs g) (d : Document) (id : NodeId)
    (name value : Text) : (d.writeAttribute id name value).look g = d.look g := by
  simp only [writeAttribute]
  split
  · rw [look_modify _ id fun r => hg r r.attrs _]
    exact (look_elim_dropId _ _ id).trans (look_modify d id fun r => hg r _ r.elementIdCache)
  · exact look_modify d id fun r => hg r _ r.elementIdCache

theorem sameNodes_eraseAttribute (d : Document) (id : NodeId) (name : Text) :
    SameNodes (d.eraseAttribute id name) d := by
  simp only [eraseAttribute]
  split
  · exact (sameNodes_modify _ _ _).trans
      ((sameNodes_elim_dropId _ _ id).trans (sameNodes_modify d id _))
  · exact sameNodes_modify d id _

theorem OffAttrs.look_eraseAttribute (hg : OffAttrs g) (d : Document) (id : NodeId)
    (name : Text) : (d.eraseAttribute id name).look g = d.look g := by
  simp only [eraseAttribute]
  split
  · rw [look_modify _ id fun r => hg r r.attrs _, look_elim_dropId,
      look_modify d id fun r => hg r _ r.elementIdCache]
  · exact look_modify d id fun r => hg r _ r.elementIdCache

theorem WellFormed.writeAttribute (h : WellFormed d) (id : NodeId) (name value : Text) :
    WellFormed (d.writeAttribute id name value) :=
  h.of_links (sameNodes_writeAttribute d id name value)
    (links_eq_of_look (OffAttrs.look_writeAttribute (fun _ _ _ => rfl) d id name value)
      (OffAttrs.look_writeAttribute (fun _ _ _ => rfl) d id name value))

theorem WellFormed.eraseAttribute (h : WellFormed d) (id : NodeId) (name : Text) :
    WellFormed (d.eraseAttribute id name) :=
  h.of_links (sameNodes_eraseAttribute d id name)
    (links_eq_of_look (OffAttrs.look_eraseAttribute (fun _ _ _ => rfl) d id name)
      (OffAttrs.look_eraseAttribute (fun _ _ _ => rfl) d id name))

theorem WellFormed.setAttribute_eq (h : WellFormed d) (hn : d.Has n) (name value : Text) :
    d.setAttribute n name value =
      .ok ((d.writeAttribute n name value).notify (d.written n name value)) :=
  (h.writeAttribute n name value).emitMutation_eq (d.written n name value)
    (((sameNodes_writeAttribute d n name value).has n).mpr hn)

theorem WellFormed.removeAttribute_eq (h : WellFormed d) (hn : d.Has n) (name : Text) :
    d.removeAttribute n name = .ok ((d.eraseAttribute n name).notify (d.erased n name)) :=
  (h.eraseAttribute n name).emitMutation_eq (d.erased n name)
    (((sameNodes_eraseAttribute d n name).has n).mpr hn)

def setKind (d : Document) (id : NodeId) (kind : NodeKind) : Document :=
  d.modify id fun r => { r with kind := kind }

theorem WellFormed.setKind (h : WellFormed d) (id : NodeId) (kind : NodeKind) :
    WellFormed (d.setKind id kind) :=
  h.of_links (sameNodes_modify d id _) (links_modify d id (fun _ => rfl) fun _ => rfl)

/-- Text data is set on a node that has some, or nothing happens. -/
theorem WellFormed.setTextData_eq (h : WellFormed d) (hn : d.Has n) (data : Text) :
    d.setTextData n data = .ok (.error (.invalidArgument "not a character-data node"), d) ∨
      ∃ r old write, d.record n = some r ∧ NodeKind.characterData r.kind = some (old, write) ∧
        d.setTextData n data = .ok (.ok old,
          (d.setKind n (write data)).notify ⟨n, .characterData old data⟩) := by
  obtain ⟨r, hr⟩ := Option.isSome_iff_exists.mp hn
  cases hk : NodeKind.characterData r.kind with
  | none => exact .inl (by simp only [setTextData, hr, hk])
  | some kind =>
    obtain ⟨old, write⟩ := kind
    refine .inr ⟨r, old, write, hr, hk, ?_⟩
    simp only [setTextData, hr, hk]
    change (do
      let d ← (d.setKind n (write data)).emitMutation ⟨n, .characterData old data⟩
      return (Except.ok old, d)) = _
    rw [(h.setKind n (write data)).emitMutation_eq ⟨n, .characterData old data⟩
      (((sameNodes_modify d n _).has n).mpr hn)]
    rfl

/-! ### Dirty bits -/

/-- A field that is not the dirty bits. -/
def OffStage {β : Type} (g : NodeRecord → β) : Prop :=
  ∀ r stage, g { r with stage := stage } = g r

theorem sameNodes_flagUp (bit : StageMask) (k : ℕ) (o : Option NodeId) (d : Document) :
    SameNodes (flagUp bit k o d) d := by
  induction k generalizing o d with
  | zero => cases o <;> exact .refl d
  | succ k ih =>
    cases o with
    | none => exact .refl d
    | some p =>
      simp only [flagUp]
      split
      · split
        · exact .refl d
        · exact (ih _ _).trans (sameNodes_modify d p _)
      · exact .refl d

theorem OffStage.look_flagUp (hg : OffStage g) (bit : StageMask) (k : ℕ) (o : Option NodeId)
    (d : Document) : (flagUp bit k o d).look g = d.look g := by
  induction k generalizing o d with
  | zero => cases o <;> rfl
  | succ k ih =>
    cases o with
    | none => rfl
    | some p =>
      simp only [flagUp]
      split
      · split
        · rfl
        · exact (ih _ _).trans (look_modify d p fun r => hg r _)
      · rfl

theorem sameNodes_mark (d : Document) (id : NodeId) (stage : Stage) :
    SameNodes (d.mark id stage) d := by
  simp only [mark]
  split
  · exact .refl d
  · split
    · exact .refl d
    · exact (sameNodes_flagUp _ _ _ _).trans (sameNodes_modify d id _)

theorem OffStage.look_mark (hg : OffStage g) (d : Document) (id : NodeId) (stage : Stage) :
    (d.mark id stage).look g = d.look g := by
  simp only [mark]
  split
  · rfl
  · split
    · rfl
    · rw [hg.look_flagUp, look_modify d id fun r => hg r _]

/-- Every record written. -/
def modifyAll (d : Document) (f : NodeRecord → NodeRecord) : Document :=
  { d with slab := d.slab.modifyAll f }

theorem record_modifyAll (d : Document) (f : NodeRecord → NodeRecord) (x : NodeId) :
    (d.modifyAll f).record x = (d.record x).map f := d.slab.get_modifyAll f x

theorem sameNodes_modifyAll (d : Document) (f : NodeRecord → NodeRecord) :
    SameNodes (d.modifyAll f) d :=
  ⟨List.length_map _, rfl, fun x => by rw [Has, record_modifyAll, Option.isSome_map, Has], rfl⟩

theorem look_modifyAll (d : Document) {f : NodeRecord → NodeRecord} (hf : ∀ r, g (f r) = g r) :
    (d.modifyAll f).look g = d.look g := by
  funext x
  rw [look, record_modifyAll, look]
  cases d.record x <;> simp [hf]

/-- A node of a subtree, flagged. -/
def flagNode (d : Document) (id : NodeId) : Document :=
  d.modify id fun r => { r with stage := (r.stage.insert .needsStyle).insert .childNeedsStyle }

theorem sameNodes_flagNodes (ids : List NodeId) (d : Document) :
    SameNodes (ids.foldl flagNode d) d := by
  induction ids generalizing d with
  | nil => exact .refl d
  | cons id ids ih => exact (ih _).trans (sameNodes_modify d id _)

theorem OffStage.look_flagNodes (hg : OffStage g) (ids : List NodeId) (d : Document) :
    (ids.foldl flagNode d).look g = d.look g := by
  induction ids generalizing d with
  | nil => rfl
  | cons id ids ih => exact (ih _).trans (look_modify d id fun r => hg r _)

/-- The loop over the stack flags the nodes of a walk. -/
theorem flagDown_eq {children : NodeId → List NodeId} {stack order : List NodeId}
    (hv : Links.Visits children stack order) :
    ∀ {k : ℕ} {d : Document}, order.length ≤ k →
      (∀ x ∈ order, d.Has x ∧ (d.children x).reverse = children x) →
      flagDown k stack d = .ok (order.foldl flagNode d) := by
  induction hv with
  | nil => intro k d _ _; cases k <;> rfl
  | @cons v stack order _ ih =>
    intro k d hk hrec
    obtain ⟨k, rfl⟩ := Nat.exists_eq_succ_of_ne_zero (Nat.ne_of_gt (Nat.zero_lt_of_lt hk))
    obtain ⟨hhas, hkids⟩ := hrec v List.mem_cons_self
    obtain ⟨r, hr⟩ := Option.isSome_iff_exists.mp hhas
    rw [flagDown]
    simp only [hr]
    rw [← children_of_record hr, hkids]
    refine ih (Nat.le_of_succ_le_succ hk) fun x hx => ?_
    obtain ⟨hhasx, hkidsx⟩ := hrec x (List.mem_cons_of_mem v hx)
    refine ⟨(has_modify d v _ x).mpr hhasx, ?_⟩
    have hl : (d.flagNode v).links = d.links :=
      links_modify d v (fun _ => rfl) fun _ => rfl
    rw [← hkidsx]
    exact congrArg List.reverse (congrFun (congrArg Links.children hl) x)

/-- Marking a subtree comes back, with what is under the node flagged, and the way up. -/
theorem WellFormed.markStyleDirtySubtree_eq (h : WellFormed d) (hn : d.Has n) :
    ∃ order : List NodeId, (∀ x, x ∈ order ↔ d.links.Under n x) ∧ d.markStyleDirtySubtree n =
      .ok (flagUp .childNeedsStyle d.slots (d.parent n) (order.foldl flagNode d)) := by
  obtain ⟨s, hs, hcard⟩ := d.exists_live
  have hunder : ∀ x, d.links.Under n x → d.Has x := by
    intro x hx
    obtain rfl | hx := Links.under_iff.mp hx
    · exact hn
    · obtain ⟨p, hp, -⟩ := Links.above_iff.mp hx
      exact has_of_parent hp
  obtain ⟨order, hv, -, hlen, -⟩ := h.forest.exists_visits
    (fun v => List.reverse_perm (d.links.children v)) s [n] (List.pairwise_singleton _ _)
    fun v hv x hx => (hs x).mpr (hunder x (List.mem_singleton.mp hv ▸ hx))
  have hmem : ∀ x, x ∈ order ↔ d.links.Under n x := fun x => by
    rw [h.forest.mem_visits (fun v => List.reverse_perm (d.links.children v)) hv]
    simp only [List.mem_singleton, exists_eq_left]
  refine ⟨order, hmem, ?_⟩
  have hdown := flagDown_eq hv (d := d) (hlen.trans hcard)
    fun x hx => ⟨hunder x ((hmem x).mp hx), rfl⟩
  have hl : (order.foldl flagNode d).links = d.links :=
    links_eq_of_look (OffStage.look_flagNodes (fun _ _ => rfl) order d)
      (OffStage.look_flagNodes (fun _ _ => rfl) order d)
  have hparent : (order.foldl flagNode d).parent = d.parent := congrArg Links.parent hl
  rw [markStyleDirtySubtree, hdown]
  simp only [Except.map]
  rw [hparent, (sameNodes_flagNodes order d).slots]

end Conclave.Dom.Document
