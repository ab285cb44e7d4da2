import Conclave.Dom.Attributes
import Conclave.Dom.Shape

/-! The index of ids against the tree. A key of the index leads to a node that remembers to
have been entered under it, which is the id it carries; so each operation changes the index
at the nodes it is called with alone, and it agrees with the tree as long as the first
element with an id changes only so. -/

namespace Conclave.Dom

open Lib Arena

namespace Document

variable {d d' : Document} {p c n o r x : NodeId} {op : Op} {kids : List NodeId} {s v : Text}

/-- The id that a node has been entered under. -/
def cacheOf (d : Document) (x : NodeId) : Option Text :=
  (d.look NodeRecord.elementIdCache x).join

def idOf (d : Document) (x : NodeId) : Option Text :=
  (d.look NodeRecord.attrs x).bind fun attrs => attrs.get "id".toList

/-- A node is an element with the id. -/
def carries (d : Document) (s : Text) (x : NodeId) : Bool :=
  (d.look NodeRecord.kind x).any NodeKind.isElement && d.idOf x == some s

/-- The first element with an id, in tree order, when these are the children of each node. -/
def firstWith (d : Document) (children : NodeId → List NodeId) (s : Text) : Option NodeId :=
  (Links.preorder children (d.slots + 1) d.root.toList).find? (d.carries s)

/-- The index agrees with the tree. -/
def Agrees (d : Document) : Prop := ∀ s, d.getElementById s = d.firstWith d.children s

/-- A key of the index leads to a node that was entered under it, with the id it carries. -/
structure Indexed (d : Document) : Prop where
  cached : ∀ x s, d.cacheOf x = some s → d.idOf x = some s
  entered : ∀ s x, d.idIndex s = some x → d.cacheOf x = some s

theorem Indexed.of_same (h : Indexed d) (hcache : d'.cacheOf = d.cacheOf)
    (hid : d'.idOf = d.idOf) (hindex : d'.idIndex = d.idIndex) : Indexed d' where
  cached x s hx := by
    rw [hcache] at hx
    rw [hid]
    exact h.cached x s hx
  entered s x hx := by
    rw [hindex] at hx
    rw [hcache]
    exact h.entered s x hx

theorem cacheOf_eq (h : d'.look NodeRecord.elementIdCache = d.look NodeRecord.elementIdCache) :
    d'.cacheOf = d.cacheOf := by
  funext x
  rw [cacheOf, cacheOf, h]

theorem idOf_eq (h : d'.look NodeRecord.attrs = d.look NodeRecord.attrs) : d'.idOf = d.idOf := by
  funext x
  rw [idOf, idOf, h]

theorem carries_eq (hkind : d'.look NodeRecord.kind = d.look NodeRecord.kind)
    (hattrs : d'.look NodeRecord.attrs = d.look NodeRecord.attrs) : d'.carries = d.carries := by
  funext s x
  rw [carries, carries, hkind, idOf_eq hattrs]

/-! ### Entering a node and taking it out -/

/-- The index without the keys that lead to some nodes. -/
def without (index : Text → Option NodeId) (gone : List NodeId) (s : Text) : Option NodeId :=
  (index s).bind fun x => if x ∈ gone then none else some x

theorem cacheOf_modify (d : Document) (id : NodeId) (cache : Option Text) (x : NodeId) :
    (d.modify id fun r => { r with elementIdCache := cache }).cacheOf x =
      if x = id ∧ d.Has x then cache else d.cacheOf x := by
  rw [cacheOf, look, record_modify, cacheOf, look]
  cases hr : d.record x with
  | none =>
    have hhas : ¬ d.Has x := by simp [Has, hr]
    simp [hhas]
  | some rec =>
    have hhas : d.Has x := by simp [Has, hr]
    by_cases hx : x = id
    · simp [hx, hx ▸ hhas]
    · simp [hx]

theorem cacheOf_dropId (d : Document) (key : Text) (id : NodeId) :
    (d.dropId key id).cacheOf = d.cacheOf := cacheOf_eq (look_dropId d key id _)

theorem idOf_dropId (d : Document) (key : Text) (id : NodeId) :
    (d.dropId key id).idOf = d.idOf := idOf_eq (look_dropId d key id _)

theorem idIndex_dropId (d : Document) (key : Text) (id : NodeId) (s : Text) :
    (d.dropId key id).idIndex s =
      if s = key ∧ d.idIndex s = some id then none else d.idIndex s := by
  unfold dropId
  by_cases hkey : d.idIndex key = some id
  · rw [if_pos hkey]
    by_cases hs : s = key
    · simp [hs, hkey]
    · simp [hs]
  · rw [if_neg hkey]
    by_cases hs : s = key
    · simp [hs, hkey]
    · simp [hs]

/-- Taking a node out of the index removes the keys that lead to it. -/
theorem Indexed.unregisterId (h : Indexed d) (c : NodeId) :
    Indexed (d.unregisterId c) ∧ (d.unregisterId c).idIndex = without d.idIndex [c] := by
  have hattrs : (d.unregisterId c).idOf = d.idOf :=
    idOf_eq (look_unregisterId (fun _ _ => rfl) d c)
  have hcache : ∀ x, (d.unregisterId c).cacheOf x =
      if x = c ∧ d.Has x then none else d.cacheOf x := by
    intro x
    rw [← cacheOf_modify, Document.unregisterId]
    cases (d.record c).bind NodeRecord.elementIdCache with
    | none => rfl
    | some v => exact congrFun (cacheOf_dropId _ v c) x
  have hindex : (d.unregisterId c).idIndex = without d.idIndex [c] := by
    funext s
    have hcacheOf : (d.record c).bind NodeRecord.elementIdCache = d.cacheOf c := by
      rw [cacheOf, look]
      cases d.record c <;> rfl
    rw [Document.unregisterId, hcacheOf, without]
    cases hc : d.cacheOf c with
    | none =>
      change d.idIndex s = _
      cases hs : d.idIndex s with
      | none => rfl
      | some x =>
        have hx : x ≠ c := by
          rintro rfl
          rw [h.entered s x hs] at hc
          cases hc
        simp [hx]
    | some v =>
      simp only
      rw [idIndex_dropId, idIndex_modify]
      cases hs : d.idIndex s with
      | none => simp
      | some x =>
        by_cases hx : x = c
        · subst hx
          have hsv : s = v := Option.some.inj ((h.entered s x hs).symm.trans hc)
          simp [hsv]
        · simp [hx]
  refine ⟨⟨fun x s hx => ?_, fun s x hx => ?_⟩, hindex⟩
  · rw [hcache] at hx
    rw [hattrs]
    split at hx
    · cases hx
    · exact h.cached x s hx
  · rw [hindex, without] at hx
    obtain ⟨y, hy, hyx⟩ := Option.bind_eq_some_iff.mp hx
    obtain ⟨hyc, hyx⟩ := Option.ite_none_left_eq_some.mp hyx
    obtain rfl := Option.some.inj hyx
    rw [hcache, if_neg fun hh => hyc (List.mem_singleton.mpr hh.1)]
    exact h.entered s y hy

/-- The index with a key for a node. -/
def withEntry (index : Text → Option NodeId) (id : Option Text) (c : NodeId) (s : Text) :
    Option NodeId :=
  if id = some s then some c else index s

/-- Entering a node makes the key of its id lead to it. -/
theorem Indexed.maybeRegisterId (h : Indexed d) (c : NodeId) :
    Indexed (d.maybeRegisterId c) ∧
      (d.maybeRegisterId c).idIndex = withEntry d.idIndex (d.idOf c) c := by
  have hid : ((d.record c).bind fun r => r.attrs.get "id".toList) = d.idOf c := by
    rw [idOf, look]
    cases d.record c <;> rfl
  rw [Document.maybeRegisterId, hid]
  cases hc : d.idOf c with
  | none =>
    refine ⟨h, funext fun s => ?_⟩
    simp [withEntry]
  | some v =>
    have hhas : d.Has c := by
      rw [idOf, look] at hc
      cases hr : d.record c with
      | none => simp [hr] at hc
      | some rec => simp [Has, hr]
    have hcache : ∀ x, (d.modify c fun r => { r with elementIdCache := some v }).cacheOf x =
        if x = c then some v else d.cacheOf x := by
      intro x
      rw [cacheOf_modify]
      by_cases hx : x = c
      · simp [hx, hhas]
      · simp [hx]
    have hattrs : (d.modify c fun r => { r with elementIdCache := some v }).idOf = d.idOf :=
      idOf_eq (look_modify d c fun _ => rfl)
    refine ⟨⟨fun x s hx => ?_, fun s x hx => ?_⟩, funext fun s => ?_⟩
    · have hx' := (hcache x).symm.trans hx
      refine (congrFun hattrs x).trans ?_
      by_cases hxc : x = c
      · rw [if_pos hxc] at hx'
        rw [hxc, hc, Option.some.inj hx']
      · rw [if_neg hxc] at hx'
        exact h.cached x s hx'
    · refine (hcache x).trans ?_
      change Function.update d.idIndex v (some c) s = some x at hx
      by_cases hs : s = v
      · subst hs
        rw [Function.update_self] at hx
        rw [if_pos (Option.some.inj hx).symm]
      · rw [Function.update_of_ne hs] at hx
        have hxs := h.entered s x hx
        by_cases hxc : x = c
        · subst hxc
          exact absurd (Option.some.inj ((h.cached x s hxs).symm.trans hc)) hs
        · rw [if_neg hxc]
          exact hxs
    · change Function.update d.idIndex v (some c) s = withEntry d.idIndex (some v) c s
      rw [withEntry]
      by_cases hs : s = v
      · simp [hs]
      · simp [hs, Ne.symm hs]

/-! ### The index after the tree operations -/

theorem idOf_modify (d : Document) (id : NodeId) {f : NodeRecord → NodeRecord}
    (hattrs : ∀ r, (f r).attrs = r.attrs) : (d.modify id f).idOf = d.idOf :=
  idOf_eq (look_modify d id hattrs)

/-- A write that leaves the id and what is remembered of it. -/
theorem Indexed.modify (h : Indexed d) (id : NodeId) {f : NodeRecord → NodeRecord}
    (hattrs : ∀ r, (f r).attrs = r.attrs) (hcache : ∀ r, (f r).elementIdCache = r.elementIdCache) :
    Indexed (d.modify id f) :=
  h.of_same (cacheOf_eq (look_modify d id hcache)) (idOf_modify d id hattrs) rfl

theorem Indexed.setChildren (h : Indexed d) (p : NodeId) (kids : List NodeId) :
    Indexed (d.setChildren p kids) := h.modify p (fun _ => rfl) fun _ => rfl

theorem Indexed.setParent (h : Indexed d) (c : NodeId) (parent : Option NodeId) :
    Indexed (d.setParent c parent) := h.modify c (fun _ => rfl) fun _ => rfl

theorem idOf_setChildren (d : Document) (p : NodeId) (kids : List NodeId) :
    (d.setChildren p kids).idOf = d.idOf := idOf_modify d p fun _ => rfl

theorem idOf_setParent (d : Document) (c : NodeId) (parent : Option NodeId) :
    (d.setParent c parent).idOf = d.idOf := idOf_modify d c fun _ => rfl

theorem idOf_unregisterId (d : Document) (c : NodeId) : (d.unregisterId c).idOf = d.idOf :=
  idOf_eq (look_unregisterId (fun _ _ => rfl) d c)

/-- A key that leads to a node is the id of the node. -/
theorem Indexed.idOf_of_key (h : Indexed d) (hs : d.idIndex s = some x) : d.idOf x = some s :=
  h.cached x s (h.entered s x hs)

/-- Entering a node makes up for having taken it out. -/
theorem Indexed.withEntry_without (h : Indexed d) (c : NodeId) (gone : List NodeId) :
    withEntry (without d.idIndex (c :: gone)) (d.idOf c) c =
      withEntry (without d.idIndex gone) (d.idOf c) c := by
  funext s
  rw [withEntry, withEntry]
  by_cases hc : d.idOf c = some s
  · rw [if_pos hc, if_pos hc]
  · rw [if_neg hc, if_neg hc, without, without]
    cases hs : d.idIndex s with
    | none => rfl
    | some x =>
      have hx : x ≠ c := fun hxc => hc (hxc ▸ h.idOf_of_key hs)
      simp [hx]

theorem without_nil (index : Text → Option NodeId) : without index [] = index := by
  funext s
  rw [without]
  cases index s <;> rfl

theorem without_without (index : Text → Option NodeId) (gone gone' : List NodeId) :
    without (without index gone) gone' = without index (gone ++ gone') := by
  funext s
  simp only [without]
  cases index s with
  | none => rfl
  | some x => by_cases hx : x ∈ gone <;> simp [hx]

theorem Indexed.detach (h : Indexed d) (c : NodeId) :
    Indexed (d.detach c) ∧ ((d.detach c).idIndex = d.idIndex ∨
      (d.detach c).idIndex = without d.idIndex [c]) := by
  simp only [Document.detach]
  split
  · exact ⟨h, .inl rfl⟩
  · rename_i p _
    have h₁ := (h.modify (f := fun r => { r with children := r.children.filter (· ≠ c) }) p
      (fun _ => rfl) fun _ => rfl).setParent c none
    exact ⟨(h₁.unregisterId c).1, .inr (h₁.unregisterId c).2⟩

theorem idOf_detach (d : Document) (c : NodeId) : (d.detach c).idOf = d.idOf :=
  idOf_eq (OffTree.look_detach (fun _ _ _ _ => rfl) d c)

theorem Indexed.place (h : Indexed d) (p c : NodeId) (kids : List NodeId) :
    Indexed (d.place p c kids) ∧
      (d.place p c kids).idIndex = withEntry d.idIndex (d.idOf c) c := by
  obtain ⟨h₁, hindex⟩ := h.detach c
  have h₂ := (h₁.setChildren p kids).setParent c (some p)
  have hid : (((d.detach c).setChildren p kids).setParent c (some p)).idOf = d.idOf := by
    rw [idOf_setParent, idOf_setChildren, idOf_detach]
  refine ⟨(h₂.maybeRegisterId c).1, (h₂.maybeRegisterId c).2.trans ?_⟩
  rw [hid]
  change withEntry (d.detach c).idIndex (d.idOf c) c = _
  obtain hindex | hindex := hindex
  · rw [hindex]
  · rw [hindex, h.withEntry_without, without_nil]

theorem Indexed.takeOut (h : Indexed d) (p c : NodeId) :
    Indexed (d.takeOut p c) ∧ (d.takeOut p c).idIndex = without d.idIndex [c] := by
  exact ((h.setChildren p ((d.children p).erase c)).setParent c none).unregisterId c

theorem Indexed.swap (h : Indexed d) (p n o : NodeId) (kids : List NodeId) :
    Indexed (d.swap p n o kids) ∧
      (d.swap p n o kids).idIndex = withEntry (without d.idIndex [o]) (d.idOf n) n := by
  obtain ⟨h₁, hindex⟩ := h.detach n
  obtain ⟨h₂, hindex₂⟩ := h₁.unregisterId o
  have h₃ := ((h₂.setChildren p kids).setParent n (some p)).setParent o none
  have hid : (((((d.detach n).unregisterId o).setChildren p kids).setParent n
      (some p)).setParent o none).idOf = d.idOf := by
    rw [idOf_setParent, idOf_setParent, idOf_setChildren, idOf_unregisterId, idOf_detach]
  refine ⟨(h₃.maybeRegisterId n).1, (h₃.maybeRegisterId n).2.trans ?_⟩
  rw [hid]
  change withEntry ((d.detach n).unregisterId o).idIndex (d.idOf n) n = _
  rw [hindex₂]
  obtain hindex | hindex := hindex
  · rw [hindex]
  · rw [hindex, without_without]
    exact h.withEntry_without n [o]

theorem Indexed.notify (h : Indexed d) (rec : MutationRecord) : Indexed (d.notify rec) :=
  h.of_same rfl rfl rfl

theorem Indexed.strip (h : Indexed d) (p : NodeId) (kids : List NodeId) :
    Indexed (Document.strip p kids d) ∧
      (Document.strip p kids d).idIndex = without d.idIndex kids := by
  induction kids generalizing d with
  | nil => exact ⟨h, (without_nil _).symm⟩
  | cons c kids ih =>
    obtain ⟨h₁, hindex⟩ := h.takeOut p c
    obtain ⟨h₂, hindex₂⟩ := ih (h₁.notify ⟨p, .childList [] [c] none kids.head?⟩)
    refine ⟨h₂, hindex₂.trans ?_⟩
    change without (d.takeOut p c).idIndex kids = _
    rw [hindex, without_without]
    rfl

/-! ### The index after the attribute operations -/

theorem idOf_of_record {rec : NodeRecord} (hr : d.record x = some rec) :
    d.idOf x = rec.attrs.get "id".toList := by
  simp [idOf, look, hr]

/-- No two attributes of a node have the same name. -/
def Distinct (d : Document) : Prop :=
  ∀ x m, d.look NodeRecord.attrs x = some m → AttrMap.Distinct m

/-- The document with its attributes written on one node. -/
def setAttrs (d : Document) (id : NodeId) (f : AttrMap → AttrMap) : Document :=
  d.modify id fun r => { r with attrs := f r.attrs }

theorem idOf_setAttrs (d : Document) (id : NodeId) (f : AttrMap → AttrMap) {o : Option Text}
    (hhas : d.Has id) (hf : ∀ rec, d.record id = some rec → (f rec.attrs).get "id".toList = o)
    (x : NodeId) : (d.setAttrs id f).idOf x = if x = id then o else d.idOf x := by
  obtain ⟨rec, hr⟩ := Option.isSome_iff_exists.mp hhas
  by_cases hx : x = id
  · subst hx
    have hset : (d.setAttrs x f).record x = some { rec with attrs := f rec.attrs } := by
      rw [setAttrs, record_modify, if_pos rfl, hr]
      rfl
    rw [if_pos rfl, ← hf rec hr, idOf_of_record hset]
  · rw [if_neg hx, idOf, idOf, look, look, setAttrs, record_modify, if_neg hx]

/-- The key of the old id dropped, when that leads to the node. -/
theorem Indexed.dropOld (h : Indexed d) (id : NodeId) (f : AttrMap → AttrMap) :
    ((d.idOf id).elim (d.setAttrs id f) fun prev => (d.setAttrs id f).dropId prev id).idIndex =
      without d.idIndex [id] := by
  funext s
  rw [without]
  cases hid : d.idOf id with
  | none =>
    change d.idIndex s = _
    cases hs : d.idIndex s with
    | none => rfl
    | some x =>
      have hx : x ≠ id := by
        rintro rfl
        rw [h.idOf_of_key hs] at hid
        cases hid
      simp [hx]
  | some prev =>
    refine (idIndex_dropId _ prev id s).trans ?_
    change (if s = prev ∧ d.idIndex s = some id then none else d.idIndex s) = _
    cases hs : d.idIndex s with
    | none => simp
    | some x =>
      by_cases hx : x = id
      · subst hx
        have hsp : s = prev := Option.some.inj ((h.idOf_of_key hs).symm.trans hid)
        simp [hsp]
      · simp [hx]

theorem cacheOf_elim_dropId (d : Document) (o : Option Text) (id : NodeId) :
    (o.elim d fun prev => d.dropId prev id).cacheOf = d.cacheOf := by
  cases o with
  | none => rfl
  | some prev => exact cacheOf_dropId d prev id

theorem idOf_elim_dropId (d : Document) (o : Option Text) (id : NodeId) :
    (o.elim d fun prev => d.dropId prev id).idOf = d.idOf := by
  cases o with
  | none => rfl
  | some prev => exact idOf_dropId d prev id

/-- An id that is the new one of a node, with the index and what is remembered to match. -/
theorem Indexed.renamed (h : Indexed d) {id : NodeId} {o : Option Text}
    (hcache : ∀ x, d'.cacheOf x = if x = id then o else d.cacheOf x)
    (hid : ∀ x, d'.idOf x = if x = id then o else d.idOf x)
    (hindex : d'.idIndex = withEntry (without d.idIndex [id]) o id) : Indexed d' where
  cached x s hx := by
    rw [hcache] at hx
    rw [hid]
    split
    · rwa [if_pos ‹_›] at hx
    · rw [if_neg ‹_›] at hx
      exact h.cached x s hx
  entered s x hx := by
    rw [hindex, withEntry] at hx
    rw [hcache]
    by_cases ho : o = some s
    · rw [if_pos ho] at hx
      rw [if_pos (Option.some.inj hx).symm, ho]
    · rw [if_neg ho, without] at hx
      obtain ⟨y, hy, hyx⟩ := Option.bind_eq_some_iff.mp hx
      obtain ⟨hyid, hyx⟩ := Option.ite_none_left_eq_some.mp hyx
      obtain rfl := Option.some.inj hyx
      rw [if_neg fun he => hyid (List.mem_singleton.mpr he)]
      exact h.entered s y hy

theorem withEntry_none (index : Text → Option NodeId) (c : NodeId) :
    withEntry index none c = index := by
  funext s
  simp [withEntry]

theorem withEntry_some (index : Text → Option NodeId) (value : Text) (c : NodeId) :
    withEntry index (some value) c = Function.update index value (some c) := by
  funext s
  rw [withEntry]
  by_cases hs : s = value
  · simp [hs]
  · simp [hs, Ne.symm hs]

/-- The old value of the attribute that is the id. -/
theorem old_id {id : NodeId} {name : Text} (hname : eqIgnoreAsciiCase name "id".toList = true)
    {g : AttrMap → Option Text × AttrMap} (hg : ∀ m, (g m).1 = m.get name) :
    ((d.record id).bind fun r => (g r.attrs).1) = d.idOf id := by
  rw [idOf, look]
  cases d.record id with
  | none => rfl
  | some rec =>
    refine (hg rec.attrs).trans ?_
    have hiff : ∀ k, eqIgnoreAsciiCase k name = eqIgnoreAsciiCase k "id".toList := fun k => by
      rw [eqIgnoreAsciiCase, eqIgnoreAsciiCase, AttrMap.eqIgnoreAsciiCase_iff.mp hname]
    simp only [AttrMap.get, hiff]
    rfl

def setCache (d : Document) (id : NodeId) (o : Option Text) : Document :=
  d.modify id fun r => { r with elementIdCache := o }

theorem look_setCache {β : Type} {g : NodeRecord → β} (hg : OffIds g) (d : Document)
    (id : NodeId) (o : Option Text) : (d.setCache id o).look g = d.look g :=
  look_modify d id fun r => hg r o

theorem idOf_setCache (d : Document) (id : NodeId) (o : Option Text) :
    (d.setCache id o).idOf = d.idOf := idOf_modify d id fun _ => rfl

/-- A node with other attributes, entered under the id that is among them. -/
def rename (d : Document) (id : NodeId) (f : AttrMap → AttrMap) (o : Option Text) : Document :=
  setCache { (d.idOf id).elim (d.setAttrs id f) fun prev => (d.setAttrs id f).dropId prev id with
    idIndex := withEntry (without d.idIndex [id]) o id } id o

theorem Indexed.rename (h : Indexed d) {id : NodeId} {f : AttrMap → AttrMap} {o : Option Text}
    (hhas : d.Has id) (hf : ∀ rec, d.record id = some rec → (f rec.attrs).get "id".toList = o) :
    Indexed (d.rename id f o) ∧ (∀ x, (d.rename id f o).idOf x = if x = id then o else d.idOf x) ∧
      (d.rename id f o).idIndex = withEntry (without d.idIndex [id]) o id := by
  have hattrs := idOf_setAttrs d id f hhas hf
  have hid : ∀ x, (d.rename id f o).idOf x = if x = id then o else d.idOf x := fun x =>
    (congrFun (idOf_setCache _ id o) x).trans
      ((congrFun (idOf_elim_dropId (d.setAttrs id f) (d.idOf id) id) x).trans (hattrs x))
  have hcache : ∀ x, (d.rename id f o).cacheOf x = if x = id then o else d.cacheOf x := by
    intro x
    have hhas' := ((sameNodes_elim_dropId (d.setAttrs id f) (d.idOf id) id).has id).mpr
      (((sameNodes_modify d id _).has id).mpr hhas)
    have hold : ((d.idOf id).elim (d.setAttrs id f) fun prev =>
        (d.setAttrs id f).dropId prev id).cacheOf = d.cacheOf :=
      (cacheOf_elim_dropId _ (d.idOf id) id).trans (cacheOf_eq (look_modify d id fun _ => rfl))
    refine (cacheOf_modify _ id o x).trans ?_
    by_cases hx : x = id
    · rw [if_pos ⟨hx, hx ▸ hhas'⟩, if_pos hx]
    · rw [if_neg fun hh => hx hh.1, if_neg hx]
      exact congrFun hold x
  exact ⟨h.renamed hcache hid rfl, hid, rfl⟩

theorem writeAttribute_eq_rename {id : NodeId} {name : Text}
    (hname : eqIgnoreAsciiCase name "id".toList = true) (h : Indexed d) (value : Text) :
    d.writeAttribute id name value =
      d.rename id (fun m => (m.set name value).2) (some value) := by
  rw [rename, withEntry_some, ← h.dropOld id fun m => (m.set name value).2]
  simp only [writeAttribute, if_pos hname, old_id hname (AttrMap.set_fst name value)]
  rfl

theorem eraseAttribute_eq_rename {id : NodeId} {name : Text}
    (hname : eqIgnoreAsciiCase name "id".toList = true) (h : Indexed d) :
    d.eraseAttribute id name = d.rename id (fun m => (m.remove name).2) none := by
  rw [rename, withEntry_none, ← h.dropOld id fun m => (m.remove name).2]
  simp only [eraseAttribute, if_pos hname, old_id hname (AttrMap.remove_fst name)]
  rfl

/-- What writing the id of a node does to the index. -/
theorem Indexed.writeId (h : Indexed d) {id : NodeId} {name : Text} (hhas : d.Has id)
    (hname : eqIgnoreAsciiCase name "id".toList = true) (value : Text) :
    Indexed (d.writeAttribute id name value) ∧
      (∀ x, (d.writeAttribute id name value).idOf x = if x = id then some value else d.idOf x) ∧
      (d.writeAttribute id name value).idIndex =
        withEntry (without d.idIndex [id]) (some value) id := by
  rw [writeAttribute_eq_rename hname h value]
  exact h.rename hhas fun rec _ => (AttrMap.get_set name value rec.attrs _).trans (if_pos hname)

/-- What taking the id of a node away does to the index. -/
theorem Indexed.eraseId (h : Indexed d) (hd : Distinct d) {id : NodeId} {name : Text}
    (hhas : d.Has id) (hname : eqIgnoreAsciiCase name "id".toList = true) :
    Indexed (d.eraseAttribute id name) ∧
      (∀ x, (d.eraseAttribute id name).idOf x = if x = id then none else d.idOf x) ∧
      (d.eraseAttribute id name).idIndex = withEntry (without d.idIndex [id]) none id := by
  rw [eraseAttribute_eq_rename hname h]
  exact h.rename hhas fun rec hr =>
    (AttrMap.get_remove (hd id rec.attrs (by simp [look, hr])) name _).trans (if_pos hname)

/-- Another attribute written or taken away. -/
theorem Indexed.setAttrs (h : Indexed d) (id : NodeId) {f : AttrMap → AttrMap}
    (hf : ∀ rec, d.record id = some rec →
      (f rec.attrs).get "id".toList = rec.attrs.get "id".toList) :
    Indexed (d.setAttrs id f) ∧ (d.setAttrs id f).idOf = d.idOf := by
  have hid : (d.setAttrs id f).idOf = d.idOf := by
    funext x
    rw [idOf, idOf, look, look, Document.setAttrs, record_modify]
    by_cases hx : x = id
    · subst hx
      rw [if_pos rfl]
      cases hr : d.record x with
      | none => rfl
      | some rec => exact hf rec hr
    · rw [if_neg hx]
  exact ⟨h.of_same (cacheOf_eq (look_modify d id fun _ => rfl)) hid rfl, hid⟩

/-! ### Agreement -/

/-- A node is an element, and the id is this one, or that of the node where it is another. -/
def carriesAs (d : Document) (id : NodeId) (o : Option Text) (s : Text) (x : NodeId) : Bool :=
  if x = id then (d.look NodeRecord.kind x).any NodeKind.isElement && o == some s
  else d.carries s x

/-- The first element with an id, as it is now. -/
def now (d : Document) : Text → Option NodeId := d.firstWith d.children

/-- When an operation changes which elements are first with their ids at the nodes it is
called with alone: what it puts into the tree comes first with its id, what it takes out
has no other element with its id in the tree, and all else that was first stays so. -/
def Settled (d : Document) : Op → Prop
  | .appendChild p c | .insertBefore p c none => ¬ d.links.Under c p →
      d.firstWith (fun q => if q = p then d.withLast p c else (d.children q).erase c) =
        withEntry d.now (d.idOf c) c
  | .insertBefore p n (some r) => ¬ d.links.Under n p → r ∈ d.children p →
      d.firstWith (fun q => if q = p then d.withAt p n r else (d.children q).erase n) =
        withEntry d.now (d.idOf n) n
  | .removeChild p c => d.parent c = some p →
      d.firstWith (fun q => (d.children q).erase c) = without d.now [c]
  | .replaceChild p n o => ¬ d.links.Under n p → o ∈ d.children p →
      d.firstWith (fun q => if q = p then d.withSwapped p n o else (d.children q).erase n) =
        withEntry (without d.now [o]) (d.idOf n) n
  | .setTextContent id text =>
      d.firstWith (fun q => if q = id then (if text = [] then [] else [d.next])
        else d.children q) = without d.now (d.children id)
  | .setAttribute id name value => eqIgnoreAsciiCase name "id".toList = true →
      (fun s => (Links.preorder d.children (d.slots + 1) d.root.toList).find?
        (d.carriesAs id (some value) s)) = withEntry (without d.now [id]) (some value) id
  | .removeAttribute id name => eqIgnoreAsciiCase name "id".toList = true →
      (fun s => (Links.preorder d.children (d.slots + 1) d.root.toList).find?
        (d.carriesAs id none s)) = withEntry (without d.now [id]) none id
  | _ => True

theorem Agrees.eq_now (h : Agrees d) : d.idIndex = d.now := funext h

/-- The first elements of a document with the same nodes, root, kinds and ids. -/
theorem firstWith_eq (hs : SameNodes d' d) (hcarries : d'.carries = d.carries)
    (children : NodeId → List NodeId) : d'.firstWith children = d.firstWith children := by
  funext s
  rw [firstWith, firstWith, hs.slots, hs.root, hcarries]

theorem agrees_of {kids' : NodeId → List NodeId} (hindex : d'.idIndex = d.firstWith kids')
    (hs : SameNodes d' d) (hcarries : d'.carries = d.carries) (hkids : d'.children = kids') : Agrees d' := by
  intro s
  rw [getElementById, hindex, hkids, firstWith_eq hs hcarries]

/-! ### Frames of the other operations -/

theorem idIndex_flagUp (bit : StageMask) (k : ℕ) (q : Option NodeId) (d : Document) :
    (flagUp bit k q d).idIndex = d.idIndex := by
  induction k generalizing q d with
  | zero => cases q <;> rfl
  | succ k ih =>
    cases q with
    | none => rfl
    | some p =>
      simp only [flagUp]
      split
      · split
        · rfl
        · exact ih _ _
      · rfl

theorem idIndex_mark (d : Document) (id : NodeId) (stage : Stage) :
    (d.mark id stage).idIndex = d.idIndex := by
  simp only [mark]
  split
  · rfl
  · split
    · rfl
    · exact idIndex_flagUp _ _ _ _

theorem idIndex_flagNodes (ids : List NodeId) (d : Document) :
    (ids.foldl flagNode d).idIndex = d.idIndex := by
  induction ids generalizing d with
  | nil => rfl
  | cons id ids ih => exact ih _

/-- What the index and the tree have to agree, with what the nodes remember. -/
structure InStep (d : Document) : Prop where
  indexed : Indexed d
  distinct : Distinct d
  agrees : Agrees d

theorem Distinct.of_look (h : Distinct d)
    (hattrs : d'.look NodeRecord.attrs = d.look NodeRecord.attrs) : Distinct d' := by
  intro x m hm
  rw [hattrs] at hm
  exact h x m hm

theorem Distinct.setAttrs (h : Distinct d) (id : NodeId) {f : AttrMap → AttrMap}
    (hf : ∀ m, AttrMap.Distinct m → AttrMap.Distinct (f m)) : Distinct (d.setAttrs id f) := by
  intro x m hm
  rw [look, Document.setAttrs, record_modify] at hm
  by_cases hx : x = id
  · rw [if_pos hx, Option.map_map] at hm
    obtain ⟨rec, hrec, rfl⟩ := Option.map_eq_some_iff.mp hm
    exact hf rec.attrs (h x rec.attrs (by simp [look, hrec]))
  · rw [if_neg hx] at hm
    exact h x m hm

theorem look_attrs_writeAttribute (d : Document) (id : NodeId) (name value : Text) :
    (d.writeAttribute id name value).look NodeRecord.attrs =
      (d.setAttrs id fun m => (m.set name value).2).look NodeRecord.attrs := by
  simp only [writeAttribute]
  split
  · exact (look_setCache (fun _ _ => rfl) _ id _).trans (look_elim_dropId _ _ id)
  · rfl

theorem look_attrs_eraseAttribute (d : Document) (id : NodeId) (name : Text) :
    (d.eraseAttribute id name).look NodeRecord.attrs =
      (d.setAttrs id fun m => (m.remove name).2).look NodeRecord.attrs := by
  simp only [eraseAttribute]
  split
  · exact (look_setCache (fun _ _ => rfl) _ id _).trans (look_elim_dropId _ _ id)
  · rfl

/-- Documents that differ in nothing that the index and the tree are made of. -/
theorem InStep.of_look (h : InStep d) (hs : SameNodes d' d) (hl : d'.links = d.links)
    (hkind : d'.look NodeRecord.kind = d.look NodeRecord.kind)
    (hattrs : d'.look NodeRecord.attrs = d.look NodeRecord.attrs)
    (hcache : d'.look NodeRecord.elementIdCache = d.look NodeRecord.elementIdCache)
    (hindex : d'.idIndex = d.idIndex) : InStep d' where
  indexed := h.indexed.of_same (cacheOf_eq hcache) (idOf_eq hattrs) hindex
  distinct := h.distinct.of_look hattrs
  agrees := agrees_of (hindex.trans h.agrees.eq_now) hs (carries_eq hkind hattrs)
    (congrArg Links.children hl)

theorem InStep.of_offStage (h : InStep d) (hs : SameNodes d' d)
    (hlook : ∀ {β : Type} {g : NodeRecord → β}, OffStage g → d'.look g = d.look g)
    (hindex : d'.idIndex = d.idIndex) : InStep d' :=
  h.of_look hs (OffStage.links_eq hlook) (hlook fun _ _ => rfl) (hlook fun _ _ => rfl)
    (hlook fun _ _ => rfl) hindex

theorem InStep.notify (h : InStep d) (rec : MutationRecord) : InStep (d.notify rec) :=
  h.of_look (sameNodes_notify d rec) rfl rfl rfl rfl rfl

/-- A tree operation whose nodes are all that the first elements change at. -/
theorem InStep.of_tree (h : InStep d) (hs : SameNodes d' d)
    (hlook : ∀ {β : Type} {g : NodeRecord → β}, OffTree g → d'.look g = d.look g)
    (hindexed : Indexed d') {kids' : NodeId → List NodeId} (hkids : d'.children = kids')
    (hindex : d'.idIndex = d.firstWith kids') : InStep d' where
  indexed := hindexed
  distinct := h.distinct.of_look (hlook fun _ _ _ _ => rfl)
  agrees := agrees_of hindex hs (carries_eq (hlook fun _ _ _ _ => rfl) (hlook fun _ _ _ _ => rfl))
    hkids

theorem InStep.place (h : InStep d) (hw : WellFormed d) (hp : d.Has p) (hc : d.Has c)
    (hsettled : d.firstWith (fun q => if q = p then kids else (d.children q).erase c) =
      withEntry d.now (d.idOf c) c) : InStep (d.place p c kids) := by
  obtain ⟨hindexed, hindex⟩ := h.indexed.place p c kids
  refine h.of_tree (sameNodes_place d p c kids) (fun hg => OffTree.look_place hg d p c kids)
    hindexed (funext fun q => hw.children_place hp hc kids q) ?_
  rw [hindex, h.agrees.eq_now, hsettled]

theorem InStep.takeOut (h : InStep d) (hw : WellFormed d) (hc : d.parent c = some p)
    (hsettled : d.firstWith (fun q => (d.children q).erase c) = without d.now [c]) :
    InStep (d.takeOut p c) := by
  obtain ⟨hindexed, hindex⟩ := h.indexed.takeOut p c
  refine h.of_tree (sameNodes_takeOut d p c) (fun hg => OffTree.look_takeOut hg d p c)
    hindexed (congrArg Links.children (hw.links_takeOut hc)) ?_
  rw [hindex, h.agrees.eq_now]
  exact hsettled.symm

theorem InStep.swap (h : InStep d) (hw : WellFormed d) (hn : d.Has n) (ho : d.parent o = some p)
    (hno : n ≠ o)
    (hsettled : d.firstWith (fun q => if q = p then kids else (d.children q).erase n) =
      withEntry (without d.now [o]) (d.idOf n) n) : InStep (d.swap p n o kids) := by
  obtain ⟨hindexed, hindex⟩ := h.indexed.swap p n o kids
  obtain ⟨hkids, hothers⟩ := hw.children_swap hn ho hno kids
  refine h.of_tree (sameNodes_swap d p n o kids) (fun hg => OffTree.look_swap hg d p n o kids)
    hindexed (funext fun q => ?_) (by rw [hindex, h.agrees.eq_now, hsettled])
  by_cases hq : q = p
  · rw [if_pos hq, hq, hkids]
  · rw [if_neg hq, hothers q hq]

/-! ### New nodes -/

theorem WellFormed.visits (h : WellFormed d) :
    ∃ order, Links.Visits d.children d.root.toList order ∧ order.length ≤ d.slots := by
  obtain ⟨s, hs, hcard⟩ := d.exists_live
  obtain ⟨r, hr, -⟩ := h.root
  obtain ⟨order, hv, -, hlen, -⟩ := h.forest.exists_visits (fun v => List.Perm.refl _) s
    d.root.toList (by rw [hr]; exact List.pairwise_singleton _ _) fun v hv x hx => by
      rw [hr] at hv
      exact (hs x).mpr (h.has_of_root (List.mem_singleton.mp hv ▸ hr) hx)
  exact ⟨order, hv, hlen.trans hcard⟩

theorem firstWith_visits {children : NodeId → List NodeId} {order : List NodeId}
    (hv : Links.Visits children d.root.toList order) (hlen : order.length ≤ d.slots + 1)
    (s : Text) : d.firstWith children s = order.find? (d.carries s) := by
  rw [firstWith, hv.preorder_eq hlen]

theorem look_extend {β : Type} (g : NodeRecord → β) (d : Document) (kind : NodeKind)
    (x : NodeId) : (d.extend kind).look g x = if x = d.next then some (g (fresh kind))
      else d.look g x := by
  rw [look, record_extend]
  by_cases hx : x = d.next
  · rw [if_pos hx, if_pos hx]
    rfl
  · rw [if_neg hx, if_neg hx]
    rfl

theorem look_next {β : Type} (g : NodeRecord → β) (d : Document) : d.look g d.next = none := by
  rw [look, record_next]
  rfl

theorem idOf_extend (d : Document) (kind : NodeKind) : (d.extend kind).idOf = d.idOf := by
  funext x
  rw [idOf, idOf, look_extend]
  by_cases hx : x = d.next
  · rw [if_pos hx, hx, look_next]
    rfl
  · rw [if_neg hx]

theorem carries_extend (d : Document) (kind : NodeKind) :
    (d.extend kind).carries = d.carries := by
  funext s x
  rw [carries, carries, idOf_extend, look_extend]
  by_cases hx : x = d.next
  · have hid : d.idOf d.next = none := by
      rw [idOf, look_next]
      rfl
    simp [hx, hid]
  · rw [if_neg hx]

theorem Indexed.extend (h : Indexed d) (kind : NodeKind) : Indexed (d.extend kind) := by
  refine h.of_same (funext fun x => ?_) (idOf_extend d kind) rfl
  rw [cacheOf, cacheOf, look_extend]
  by_cases hx : x = d.next
  · rw [if_pos hx, hx, look_next]
    rfl
  · rw [if_neg hx]

theorem Distinct.extend (h : Distinct d) (kind : NodeKind) : Distinct (d.extend kind) := by
  intro x m hm
  rw [look_extend] at hm
  by_cases hx : x = d.next
  · rw [if_pos hx] at hm
    exact Option.some.inj hm ▸ List.nodup_nil
  · rw [if_neg hx] at hm
    exact h x m hm

theorem slots_extend (d : Document) (kind : NodeKind) : (d.extend kind).slots = d.slots + 1 := by
  simp [slots, Document.extend]

/-- The first elements of a document with one more node, for which they are the same. -/
theorem WellFormed.firstWith_grown (hw : WellFormed d') (hslots : d'.slots = d.slots + 1)
    (hroot : d'.root = d.root) (hcarries : d'.carries = d.carries) :
    d'.firstWith d'.children = d.firstWith d'.children := by
  obtain ⟨order, hv, hlen⟩ := hw.visits
  funext s
  rw [firstWith_visits hv (hlen.trans (Nat.le_succ _)), hcarries]
  exact (firstWith_visits (hroot ▸ hv) (hslots ▸ hlen) s).symm

theorem InStep.extend (h : InStep d) (hw : WellFormed d) (kind : NodeKind) :
    InStep (d.extend kind) where
  indexed := h.indexed.extend kind
  distinct := h.distinct.extend kind
  agrees := by
    intro s
    rw [(hw.extend kind).firstWith_grown (slots_extend d kind) rfl (carries_extend d kind),
      children_extend]
    exact h.agrees s

theorem InStep.fill (h : InStep d) (hp : d.Has p) (text : Text) {e : Document}
    (hs : SameNodes e d) (hwe : WellFormed e) (hnil : e.children p = [])
    (hkids : ∀ q ≠ p, e.children q = d.children q)
    (hlook : ∀ {β : Type} {g : NodeRecord → β}, OffTree g → e.look g = d.look g)
    (hindexed : Indexed e) (hindex : e.idIndex = without d.idIndex (d.children p))
    (hsettled : d.firstWith (fun q => if q = p then [d.next] else d.children q) =
      without d.now (d.children p)) : InStep (e.fill p text) := by
  have hpe := (hs.has p).mpr hp
  have hnext : e.next = d.next := by
    simp only [next, Slab.next]
    rw [show e.slab.slots.length = d.slab.slots.length from hs.slots]
  obtain ⟨hindexed', hindex'⟩ := (hindexed.extend (.text text)).place p e.next [e.next]
  have hlook' : ∀ {β : Type} {g : NodeRecord → β}, OffTree g →
      (e.fill p text).look g = (e.extend (.text text)).look g := fun hg => hg.look_place _ _ _ _
  have hcarries : (e.fill p text).carries = d.carries :=
    (carries_eq (hlook' fun _ _ _ _ => rfl) (hlook' fun _ _ _ _ => rfl)).trans
      ((carries_extend e _).trans (carries_eq (hlook fun _ _ _ _ => rfl) (hlook fun _ _ _ _ => rfl)))
  have hchildren : (e.fill p text).children =
      fun q => if q = p then [d.next] else d.children q := by
    obtain ⟨hself, hothers⟩ := hwe.children_fill hpe text
    funext q
    by_cases hq : q = p
    · rw [if_pos hq, hq, hself, hnext]
    · rw [if_neg hq, hothers q hq, hkids q hq]
  have hsn := sameNodes_place (e.extend (.text text)) p e.next [e.next]
  exact {
    indexed := hindexed'.notify _
    distinct := ((h.distinct.of_look (hlook fun _ _ _ _ => rfl)).extend (.text text)).of_look
      (hlook' fun _ _ _ _ => rfl)
    agrees := fun s => by
      rw [(hwe.fill hpe hnil text).firstWith_grown
        (hsn.slots.trans ((slots_extend e _).trans (by rw [hs.slots]))) (hsn.root.trans hs.root)
        hcarries, hchildren, hsettled, getElementById]
      change ((e.extend (.text text)).place p e.next [e.next]).idIndex s = _
      have hid : (e.extend (.text text)).idOf e.next = none := by
        rw [idOf_extend, idOf, look_next]
        rfl
      rw [hindex', hid, withEntry_none]
      change e.idIndex s = _
      rw [hindex, h.agrees.eq_now] }

/-! ### Attributes -/

theorem carries_rename {id : NodeId} {o : Option Text}
    (hkind : d'.look NodeRecord.kind = d.look NodeRecord.kind)
    (hid : ∀ x, d'.idOf x = if x = id then o else d.idOf x) (s : Text) :
    d'.carries s = d.carriesAs id o s := by
  funext x
  rw [carries, carriesAs, hkind, hid]
  by_cases hx : x = id
  · rw [if_pos hx, if_pos hx, hx]
  · rw [if_neg hx, if_neg hx, carries]

/-- A node that gets another id, or loses the one it has. -/
theorem InStep.rename (h : InStep d) {id : NodeId} {o : Option Text} (hs : SameNodes d' d)
    (hl : d'.links = d.links) (hkind : d'.look NodeRecord.kind = d.look NodeRecord.kind)
    (hdistinct : Distinct d') (hindexed : Indexed d')
    (hid : ∀ x, d'.idOf x = if x = id then o else d.idOf x)
    (hindex : d'.idIndex = withEntry (without d.idIndex [id]) o id)
    (hsettled : (fun s => (Links.preorder d.children (d.slots + 1) d.root.toList).find?
      (d.carriesAs id o s)) = withEntry (without d.now [id]) o id) : InStep d' where
  indexed := hindexed
  distinct := hdistinct
  agrees s := by
    rw [getElementById, hindex, h.agrees.eq_now, ← hsettled, firstWith, hs.slots, hs.root,
      carries_rename hkind hid, show d'.children = d.children from congrArg Links.children hl]

theorem InStep.writeAttribute (h : InStep d) {id : NodeId} (hhas : d.Has id) (name value : Text)
    (hsettled : Settled d (.setAttribute id name value)) :
    InStep (d.writeAttribute id name value) := by
  have hdistinct : Distinct (d.writeAttribute id name value) :=
    (h.distinct.setAttrs id fun m hm => hm.set name value).of_look
      (look_attrs_writeAttribute d id name value)
  have hkind : (d.writeAttribute id name value).look NodeRecord.kind = d.look NodeRecord.kind :=
    OffAttrs.look_writeAttribute (fun _ _ _ => rfl) d id name value
  by_cases hname : eqIgnoreAsciiCase name "id".toList = true
  · obtain ⟨hindexed, hid, hindex⟩ := h.indexed.writeId hhas hname value
    exact h.rename (sameNodes_writeAttribute d id name value) (links_writeAttribute d id name value)
      hkind hdistinct hindexed hid hindex (hsettled hname)
  · have heq : d.writeAttribute id name value =
        d.setAttrs id fun m => (m.set name value).2 := if_neg hname
    obtain ⟨hindexed, hid⟩ := h.indexed.setAttrs (f := fun m => (m.set name value).2) id
      fun rec _ => (AttrMap.get_set name value rec.attrs _).trans (if_neg hname)
    rw [← heq] at hindexed hid
    exact ⟨hindexed, hdistinct, agrees_of (by rw [heq]; exact h.agrees.eq_now)
      (sameNodes_writeAttribute d id name value)
      (funext fun s => funext fun x => by rw [carries, carries, hkind, hid])
      (congrArg Links.children (links_writeAttribute d id name value))⟩

theorem InStep.eraseAttribute (h : InStep d) {id : NodeId} (hhas : d.Has id) (name : Text)
    (hsettled : Settled d (.removeAttribute id name)) : InStep (d.eraseAttribute id name) := by
  have hdistinct : Distinct (d.eraseAttribute id name) :=
    (h.distinct.setAttrs id fun m hm => hm.remove name).of_look
      (look_attrs_eraseAttribute d id name)
  have hkind : (d.eraseAttribute id name).look NodeRecord.kind = d.look NodeRecord.kind :=
    OffAttrs.look_eraseAttribute (fun _ _ _ => rfl) d id name
  by_cases hname : eqIgnoreAsciiCase name "id".toList = true
  · obtain ⟨hindexed, hid, hindex⟩ := h.indexed.eraseId h.distinct hhas hname
    exact h.rename (sameNodes_eraseAttribute d id name) (links_eraseAttribute d id name)
      hkind hdistinct hindexed hid hindex (hsettled hname)
  · have heq : d.eraseAttribute id name = d.setAttrs id fun m => (m.remove name).2 := if_neg hname
    obtain ⟨hindexed, hid⟩ := h.indexed.setAttrs (f := fun m => (m.remove name).2) id
      fun rec hr => (AttrMap.get_remove (h.distinct id rec.attrs (by simp [look, hr])) name _).trans
        (if_neg hname)
    rw [← heq] at hindexed hid
    exact ⟨hindexed, hdistinct, agrees_of (by rw [heq]; exact h.agrees.eq_now)
      (sameNodes_eraseAttribute d id name)
      (funext fun s => funext fun x => by rw [carries, carries, hkind, hid])
      (congrArg Links.children (links_eraseAttribute d id name))⟩

/-! ### Text and marks -/

theorem OffTree.look_strip {β : Type} {g : NodeRecord → β} (hg : OffTree g) (hw : WellFormed d) :
    (Document.strip p (d.children p) d).look g = d.look g :=
  hw.strip_keeps (P := fun d' => d'.look g = d.look g)
    (fun e c _ _ _ hsame => (hg.look_takeOut e p c).trans hsame) rfl rfl

theorem InStep.strip (h : InStep d) (hw : WellFormed d)
    (hsettled : d.firstWith (fun q => if q = p then [] else d.children q) =
      without d.now (d.children p)) : InStep (Document.strip p (d.children p) d) := by
  obtain ⟨hindexed, hindex⟩ := h.indexed.strip p (d.children p)
  refine h.of_tree (hw.sameNodes_strip rfl) (fun hg => OffTree.look_strip hg hw) hindexed
    (funext fun q => ?_) (by rw [hindex, h.agrees.eq_now, hsettled])
  by_cases hq : q = p
  · rw [if_pos hq, hq, hw.children_strip]
  · rw [if_neg hq, hw.children_strip_of_ne hq]

theorem isElement_of_characterData {kind : NodeKind} {data : Text × (Text → NodeKind)}
    (h : NodeKind.characterData kind = some data) (text : Text) :
    kind.isElement = false ∧ (data.2 text).isElement = false := by
  cases kind <;> cases h <;> exact ⟨rfl, rfl⟩

/-- Character data has no id, before and after it is written. -/
theorem carries_setKind {id : NodeId} {rec : NodeRecord} {data : Text × (Text → NodeKind)}
    (hrec : d.record id = some rec) (hkind : NodeKind.characterData rec.kind = some data)
    (text : Text) : (d.setKind id (data.2 text)).carries = d.carries := by
  obtain ⟨hbefore, hafter⟩ := isElement_of_characterData hkind text
  funext s x
  have hid : (d.setKind id (data.2 text)).idOf = d.idOf := idOf_modify d id fun _ => rfl
  rw [carries, carries, hid, look, look, setKind, record_modify]
  by_cases hx : x = id
  · rw [if_pos hx, hx, hrec]
    simp [hbefore, hafter]
  · rw [if_neg hx]

theorem InStep.setKind (h : InStep d) {id : NodeId} {rec : NodeRecord}
    {data : Text × (Text → NodeKind)} (hrec : d.record id = some rec)
    (hkind : NodeKind.characterData rec.kind = some data) (text : Text) :
    InStep (d.setKind id (data.2 text)) where
  indexed := h.indexed.modify id (fun _ => rfl) fun _ => rfl
  distinct := h.distinct.of_look (look_modify d id fun _ => rfl)
  agrees := by
    have hl : (d.setKind id (data.2 text)).links = d.links :=
      links_modify d id (fun _ => rfl) fun _ => rfl
    exact agrees_of h.agrees.eq_now (sameNodes_modify d id _) (carries_setKind hrec hkind text)
      (congrArg Links.children hl)

/-! ### Runs -/

theorem Effect.inStep {answer : Except DomError (Option NodeId)} (he : Effect d op answer d')
    (h : InStep d) (hw : WellFormed d) (hnamed : Named d op) (hsettled : Settled d op) :
    InStep d' := by
  cases he with
  | created hkind => exact h.extend hw _
  | appendRefused _ | insertRefused _ | removeRefused _ | replaceRefused _ | dataRefused => exact h
  | appended hcp | insertedLast hcp =>
    exact (h.place hw (hnamed _ (by simp [Op.nodes])) (hnamed _ (by simp [Op.nodes]))
      (hsettled hcp)).notify _
  | inserted hnp hr =>
    exact (h.place hw (hnamed _ (by simp [Op.nodes])) (hnamed _ (by simp [Op.nodes]))
      (hsettled hnp hr)).notify _
  | removed hc => exact (h.takeOut hw hc (hsettled hc)).notify _
  | replaced ho hno hnp hfirst =>
    exact (h.swap hw (hnamed _ (by simp [Op.nodes])) ho hno
      (hsettled hnp ((hw.forest.mem_children _ _).mpr ho))).notify _
  | @emptied id =>
    refine h.strip hw (Eq.trans (congrArg d.firstWith (funext fun q => ?_)) hsettled)
    rw [if_pos rfl]
  | @filled id text htext =>
    refine h.fill (hnamed id (by simp [Op.nodes])) text (hw.sameNodes_strip rfl) (hw.strip rfl)
      hw.children_strip (fun q hq => hw.children_strip_of_ne hq)
      (fun hg => OffTree.look_strip hg hw) (h.indexed.strip id _).1 (h.indexed.strip id _).2
      (Eq.trans (congrArg d.firstWith (funext fun q => ?_)) hsettled)
    rw [if_neg htext]
  | dataSet hrec hkind => exact (h.setKind hrec hkind _).notify _
  | attributeSet =>
    exact (h.writeAttribute (hnamed _ (by simp [Op.nodes])) _ _ hsettled).notify _
  | attributeRemoved =>
    exact (h.eraseAttribute (hnamed _ (by simp [Op.nodes])) _ hsettled).notify _
  | marked =>
    exact h.of_offStage (sameNodes_mark d _ _) (fun hg => hg.look_mark d _ _) (idIndex_mark d _ _)
  | cleared =>
    exact h.of_offStage (sameNodes_modify d _ _) (fun hg => look_modify d _ fun r => hg r _) rfl
  | allMarked | allCleared =>
    exact h.of_offStage (sameNodes_modifyAll d _) (fun hg => look_modifyAll d fun r => hg r _) rfl
  | subtreeMarked _ =>
    exact h.of_offStage ((sameNodes_flagUp _ _ _ _).trans (sameNodes_flagNodes _ d))
      (fun hg => (hg.look_flagUp _ _ _ _).trans (hg.look_flagNodes _ d))
      ((idIndex_flagUp _ _ _ _).trans (idIndex_flagNodes _ d))

theorem inStep_new {observers : List MutationObserver} (h : Document.new observers = .ok d) :
    InStep d := by
  have hl := links_new h
  obtain rfl := Except.ok.inj h
  let blank : Document := ⟨.new, none, fun _ => none, observers⟩
  have hblank : ∀ {β : Type} (g : NodeRecord → β) x, blank.look g x = none := fun _ _ => rfl
  have hblankIn : Indexed blank ∧ Distinct blank := ⟨⟨nofun, nofun⟩, nofun⟩
  refine ⟨(hblankIn.1.extend .document).of_same rfl rfl rfl,
    (hblankIn.2.extend .document).of_look rfl, fun s => rfl⟩

/-- An operation on nodes of the document that settles where it is called. -/
def Tracked (d : Document) (op : Op) : Prop := Named d op ∧ Coherent d op ∧ Settled d op

/-- In a run of such operations the index leads to the first element of the tree with an
id, and to none when there is none. -/
theorem dom_by_id (observers : List MutationObserver) (start : Document)
    (hnew : Document.new observers = .ok start) (ops : List Op)
    (h : RunsWith Document.step Tracked start ops) (d : Document)
    (hruns : runs Document.step start ops = some d) :
    ∃ r order, d.root = some r ∧ Links.Visits d.children [r] order ∧
      ∀ s, d.getElementById s = order.find? (d.carries s) := by
  obtain ⟨hw, hin⟩ := runsWith_keeps (P := fun d => WellFormed d ∧ InStep d)
    (fun d op d' hd hop hstep => by
      obtain ⟨answer, he⟩ := hd.1.effect_of_step hop.1 hop.2.1 hstep
      exact ⟨he.wellFormed hd.1 hop.1, he.inStep hd.2 hd.1 hop.1 hop.2.2⟩)
    ⟨wellFormed_new hnew, inStep_new hnew⟩ h hruns
  obtain ⟨r, hr, -⟩ := hw.root
  obtain ⟨order, hv, hlen⟩ := hw.visits
  refine ⟨r, order, hr, by rwa [hr] at hv, fun s => ?_⟩
  rw [hin.agrees s, firstWith_visits hv (hlen.trans (Nat.le_succ _))]

/-- Two new nodes under the root, the second of which gets an id. -/
def naming : List Op :=
  [.createElement [], .createElement [], .appendChild (nth 0) (nth 1), .appendChild (nth 0) (nth 2),
    .setAttribute (nth 2) "id".toList ['a']]

theorem dom_by_id_sample :
    ∃ start d r order, Document.new [] = .ok start ∧ runs Document.step start naming = some d ∧
      d.root = some r ∧ Links.Visits d.children [r] order ∧
      ∀ s, d.getElementById s = order.find? (d.carries s) := by
  refine ⟨_, _, (dom_by_id [] _ rfl naming ⟨⟨by decide, trivial, trivial⟩, fun d₁ h₁ =>
    ⟨⟨?_, trivial, trivial⟩, fun d₂ h₂ => ⟨⟨?_, trivial, fun _ => ?_⟩, fun d₃ h₃ =>
    ⟨⟨?_, trivial, fun _ => ?_⟩, fun d₄ h₄ => ⟨⟨?_, trivial, fun _ => ?_⟩, fun _ _ => trivial⟩⟩⟩⟩⟩
    _ rfl).imp fun r => Exists.imp fun order h => ⟨rfl, rfl, h⟩⟩
  all_goals obtain rfl := Option.some.inj h₁
  · decide
  all_goals obtain rfl := Option.some.inj h₂
  · decide
  · rfl
  all_goals obtain rfl := Option.some.inj h₃
  · decide
  · rfl
  all_goals obtain rfl := Option.some.inj h₄
  · decide
  · funext s
    by_cases hs : s = ['a']
    · subst hs
      rfl
    · rw [withEntry, if_neg fun h => hs (Option.some.inj h).symm]
      change List.find? _ [nth 0, nth 1, nth 2] = none
      refine List.find?_eq_none.mpr fun x hx => ?_
      simp only [List.mem_cons, List.not_mem_nil, or_false] at hx
      rcases hx with rfl | rfl | rfl
      · exact Bool.false_ne_true
      · exact Bool.false_ne_true
      · exact fun h => hs (Option.some.inj (eq_of_beq h)).symm

/-- The root, with a node under a node that is taken out after the lower one got an id. -/
def orphaning : List Op :=
  [.createElement [], .createElement [], .appendChild (nth 0) (nth 1),
    .appendChild (nth 1) (nth 2), .setAttribute (nth 2) "id".toList ['a'],
    .removeChild (nth 0) (nth 1)]

theorem dom_by_id_fails :
    ¬ ∀ (observers : List MutationObserver) (start : Document) (ops : List Op) (d : Document),
      Document.new observers = .ok start → RunsWith Document.step Named start ops →
      runs Document.step start ops = some d →
      ∃ r order, d.root = some r ∧ Links.Visits d.children [r] order ∧
        ∀ s, d.getElementById s = order.find? (d.carries s) := by
  intro hall
  obtain ⟨r, order, hr, hv, hfirst⟩ := hall [] _ orphaning _ rfl (by decide) rfl
  obtain rfl := Option.some.inj hr
  cases hv with
  | cons hv =>
    cases (show Links.Visits _ [] _ from hv)
    cases hfirst ['a']

end Document

end Conclave.Dom
