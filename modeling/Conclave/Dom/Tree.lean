import Conclave.Arena.Handles
import Conclave.Dom.Document

/-! The links of a document. Every write of an operation is one to a record, so that what
it leaves of the links, and of any other field, follows from what it writes; each tree
operation that comes back is a detachment, an attachment, or both. -/

namespace Conclave.Arena.Slab

variable {T : Type} {s : Slab T}

theorem get_modify (s : Slab T) (h : Handle) (f : T → T) (k : Handle) :
    (s.modify h f).get k = if k = h then (s.get k).map f else s.get k := by
  unfold modify
  cases hs : s.slots[h.index]? with
  | none =>
    by_cases hk : k = h
    · subst hk
      simp [get, hs]
    · simp [hk]
  | some slot =>
    cases slot with
    | vacant g next =>
      by_cases hk : k = h
      · subst hk
        simp [get, hs]
      · simp [hk]
    | occupied g v =>
      by_cases hg : g = h.generation
      · have hset := getElem?_set_of hs (.occupied g (f v)) k.index
        simp only [hg, if_pos, get] at hset ⊢
        rw [hset]
        by_cases hi : k.index = h.index
        · by_cases hk : k = h
          · subst hk
            simp [hs, hg]
          · have hne : ¬ h.generation = k.generation := fun he => hk (Handle.ext hi he.symm)
            simp [hi, hs, hk, hg, hne]
        · have hk : k ≠ h := fun he => hi (he ▸ rfl)
          simp [hi, hk]
      · by_cases hk : k = h
        · subst hk
          simp [get, hs, hg]
        · simp [hk, hg]

@[simp] theorem length_modify (s : Slab T) (h : Handle) (f : T → T) :
    (s.modify h f).slots.length = s.slots.length := by
  unfold modify
  split
  · split <;> simp
  · rfl

@[simp] theorem freeHead_modify (s : Slab T) (h : Handle) (f : T → T) :
    (s.modify h f).freeHead = s.freeHead := by
  unfold modify
  split
  · split <;> rfl
  · rfl

theorem modify_congr {k : Handle} {v : T} (hv : s.get k = some v) {f g : T → T}
    (hfg : f v = g v) : s.modify k f = s.modify k g := by
  simp only [modify, get_eq_some.mp hv, hfg]

theorem get_modifyAll (s : Slab T) (f : T → T) (k : Handle) :
    (s.modifyAll f).get k = (s.get k).map f := by
  simp only [get, modifyAll, List.getElem?_map]
  cases s.slots[k.index]? with
  | none => rfl
  | some slot =>
    cases slot with
    | vacant g next => rfl
    | occupied g v =>
      by_cases hg : g = k.generation
      · simp [hg]
      · simp [hg]

/-- The handle of an insertion when no slot is free. -/
def next (s : Slab T) : Handle := ⟨s.slots.length, 1⟩

theorem insert_of_full (hfree : s.freeHead = none) (v : T) :
    s.insert v = if s.slots.length < 2 ^ 32 then
      .ok (s.next, ⟨s.slots ++ [.occupied 1 v], none, s.len + 1⟩) else .error .exceeded := by
  simp only [insert, hfree, next]

theorem get_next (s : Slab T) : s.get s.next = none := by
  simp [get, next]

theorem get_append (s : Slab T) (v : T) (n : ℕ) (k : Handle) :
    (⟨s.slots ++ [.occupied 1 v], none, n⟩ : Slab T).get k =
      if k = s.next then some v else s.get k := by
  simp only [get]
  obtain hlt | heq | hgt := lt_trichotomy k.index s.slots.length
  · have hk : k ≠ s.next := fun he => by simp [he, next] at hlt
    rw [List.getElem?_append_left hlt, if_neg hk]
  · by_cases hk : k = s.next
    · subst hk
      simp [next]
    · have hne : ¬ 1 = k.generation := fun he => hk (Handle.ext heq he.symm)
      simp [heq, hk, hne]
  · have hk : k ≠ s.next := fun he => by simp [he, next] at hgt
    rw [List.getElem?_eq_none (by simpa using hgt), List.getElem?_eq_none hgt.le, if_neg hk]

end Conclave.Arena.Slab

namespace Conclave.Dom

open Lib Arena

namespace Document

variable {d : Document} {p c n x : NodeId}

def Has (d : Document) (id : NodeId) : Prop := (d.record id).isSome

instance (d : Document) (id : NodeId) : Decidable (d.Has id) :=
  inferInstanceAs (Decidable (_ = true))

def links (d : Document) : Links NodeId := ⟨d.parent, d.children⟩

/-- What a field of the records holds. -/
def look {β : Type} (d : Document) (g : NodeRecord → β) (id : NodeId) : Option β :=
  (d.record id).map g

theorem parent_eq_look (d : Document) (id : NodeId) :
    d.parent id = (d.look NodeRecord.parent id).join := by
  simp only [parent, look]
  cases d.record id <;> rfl

theorem children_eq_look (d : Document) (id : NodeId) :
    d.children id = (d.look NodeRecord.children id).getD [] := by
  simp only [children, look]
  cases d.record id <;> rfl

theorem record_modify (d : Document) (id : NodeId) (f : NodeRecord → NodeRecord) (x : NodeId) :
    (d.modify id f).record x = if x = id then (d.record x).map f else d.record x :=
  d.slab.get_modify id f x

@[simp] theorem slots_modify (d : Document) (id : NodeId) (f : NodeRecord → NodeRecord) :
    (d.modify id f).slots = d.slots := d.slab.length_modify id f

@[simp] theorem root_modify (d : Document) (id : NodeId) (f : NodeRecord → NodeRecord) :
    (d.modify id f).root = d.root := rfl

@[simp] theorem idIndex_modify (d : Document) (id : NodeId) (f : NodeRecord → NodeRecord) :
    (d.modify id f).idIndex = d.idIndex := rfl

@[simp] theorem observers_modify (d : Document) (id : NodeId) (f : NodeRecord → NodeRecord) :
    (d.modify id f).observers = d.observers := rfl

@[simp] theorem freeHead_modify (d : Document) (id : NodeId) (f : NodeRecord → NodeRecord) :
    (d.modify id f).slab.freeHead = d.slab.freeHead := d.slab.freeHead_modify id f

@[simp] theorem has_modify (d : Document) (id : NodeId) (f : NodeRecord → NodeRecord)
    (x : NodeId) : (d.modify id f).Has x ↔ d.Has x := by
  simp only [Has, record_modify]
  split <;> simp

theorem look_modify {β : Type} (d : Document) (id : NodeId) {f : NodeRecord → NodeRecord}
    {g : NodeRecord → β} (hf : ∀ r, g (f r) = g r) : (d.modify id f).look g = d.look g := by
  funext x
  simp only [look, record_modify]
  split
  · cases d.record x <;> simp [hf]
  · rfl

theorem links_eq_of_look {d' : Document} (hp : d'.look NodeRecord.parent = d.look NodeRecord.parent)
    (hc : d'.look NodeRecord.children = d.look NodeRecord.children) : d'.links = d.links := by
  simp only [links, Links.mk.injEq]
  exact ⟨funext fun x => by simp only [parent_eq_look, hp],
    funext fun x => by simp only [children_eq_look, hc]⟩

/-- A write that leaves the links as they are. -/
theorem links_modify (d : Document) (id : NodeId) {f : NodeRecord → NodeRecord}
    (hp : ∀ r, (f r).parent = r.parent) (hc : ∀ r, (f r).children = r.children) :
    (d.modify id f).links = d.links :=
  links_eq_of_look (look_modify d id hp) (look_modify d id hc)

/-- A write to a record that is there. -/
theorem links_modify_of_record {r : NodeRecord} (hr : d.record p = some r)
    (f : NodeRecord → NodeRecord) :
    (d.modify p f).links =
      ⟨fun x => if x = p then (f r).parent else d.parent x,
        fun x => if x = p then (f r).children else d.children x⟩ := by
  simp only [links, Links.mk.injEq]
  constructor
  all_goals
    funext x
    by_cases hx : x = p
    · subst hx
      simp [parent, children, record_modify, hr]
    · simp [parent, children, record_modify, hx]

theorem parent_of_record {r : NodeRecord} (hr : d.record x = some r) : d.parent x = r.parent := by
  simp [parent, hr]

theorem children_of_record {r : NodeRecord} (hr : d.record x = some r) :
    d.children x = r.children := by
  simp [children, hr]

theorem has_of_parent (h : d.parent c = some p) : d.Has c := by
  obtain ⟨r, hr, -⟩ := Option.bind_eq_some_iff.mp h
  simp [Has, hr]

/-- The nodes of two documents are the same ones. -/
structure SameNodes (d' d : Document) : Prop where
  slots : d'.slots = d.slots
  freeHead : d'.slab.freeHead = d.slab.freeHead
  has : ∀ x, d'.Has x ↔ d.Has x
  root : d'.root = d.root

theorem SameNodes.refl (d : Document) : SameNodes d d := ⟨rfl, rfl, fun _ => Iff.rfl, rfl⟩

theorem SameNodes.trans {d'' d' : Document} (h : SameNodes d'' d') (h' : SameNodes d' d) :
    SameNodes d'' d :=
  ⟨h.slots.trans h'.slots, h.freeHead.trans h'.freeHead, fun x => (h.has x).trans (h'.has x),
    h.root.trans h'.root⟩

theorem sameNodes_modify (d : Document) (id : NodeId) (f : NodeRecord → NodeRecord) :
    SameNodes (d.modify id f) d :=
  ⟨slots_modify d id f, freeHead_modify d id f, has_modify d id f, rfl⟩

/-! ### Frames of the index -/

/-- A field that the index of ids does not keep. -/
def OffIds {β : Type} (g : NodeRecord → β) : Prop :=
  ∀ r cache, g { r with elementIdCache := cache } = g r

theorem sameNodes_dropId (d : Document) (key : Text) (id : NodeId) :
    SameNodes (d.dropId key id) d := by
  unfold dropId
  split <;> exact ⟨rfl, rfl, fun _ => Iff.rfl, rfl⟩

theorem look_dropId {β : Type} (d : Document) (key : Text) (id : NodeId) (g : NodeRecord → β) :
    (d.dropId key id).look g = d.look g := by
  unfold dropId
  split <;> rfl

theorem sameNodes_unregisterId (d : Document) (id : NodeId) :
    SameNodes (d.unregisterId id) d := by
  simp only [unregisterId]
  split
  · exact (sameNodes_dropId _ _ _).trans (sameNodes_modify d id _)
  · exact sameNodes_modify d id _

theorem look_unregisterId {β : Type} {g : NodeRecord → β} (hg : OffIds g) (d : Document)
    (id : NodeId) : (d.unregisterId id).look g = d.look g := by
  simp only [unregisterId]
  split
  · rw [look_dropId, look_modify d id fun r => hg r _]
  · rw [look_modify d id fun r => hg r _]

theorem sameNodes_maybeRegisterId (d : Document) (id : NodeId) :
    SameNodes (d.maybeRegisterId id) d := by
  unfold maybeRegisterId
  split
  · have hs := sameNodes_modify d id fun r => { r with elementIdCache := some ‹Text› }
    exact ⟨hs.slots, hs.freeHead, hs.has, hs.root⟩
  · exact .refl d

theorem look_maybeRegisterId {β : Type} {g : NodeRecord → β} (hg : OffIds g) (d : Document)
    (id : NodeId) : (d.maybeRegisterId id).look g = d.look g := by
  unfold maybeRegisterId
  split
  · exact look_modify d id fun r => hg r _
  · rfl

theorem links_unregisterId (d : Document) (id : NodeId) :
    (d.unregisterId id).links = d.links :=
  links_eq_of_look (look_unregisterId (fun _ _ => rfl) d id)
    (look_unregisterId (fun _ _ => rfl) d id)

theorem links_maybeRegisterId (d : Document) (id : NodeId) :
    (d.maybeRegisterId id).links = d.links :=
  links_eq_of_look (look_maybeRegisterId (fun _ _ => rfl) d id)
    (look_maybeRegisterId (fun _ _ => rfl) d id)

/-! ### The invariant -/

/-- A forest in an arena that has had no node removed. -/
structure WellFormed (d : Document) : Prop where
  freeHead : d.slab.freeHead = none
  forest : d.links.Forest
  live : ∀ c p, d.parent c = some p → d.Has p
  root : ∃ r, d.root = some r ∧ d.Has r

theorem WellFormed.of_sameNodes {d' : Document} (h : WellFormed d) (hs : SameNodes d' d)
    (hforest : d'.links.Forest) (hlive : ∀ c p, d'.parent c = some p → d.Has p) :
    WellFormed d' where
  freeHead := hs.freeHead.trans h.freeHead
  forest := hforest
  live c p hp := (hs.has p).mpr (hlive c p hp)
  root := by
    obtain ⟨r, hr, hhas⟩ := h.root
    exact ⟨r, hs.root.trans hr, (hs.has r).mpr hhas⟩

/-- Writes that leave the links as they are. -/
theorem WellFormed.of_links {d' : Document} (h : WellFormed d) (hs : SameNodes d' d)
    (hl : d'.links = d.links) : WellFormed d' :=
  h.of_sameNodes hs (hl ▸ h.forest) fun c p hp =>
    h.live c p (by rwa [show d'.parent = d.parent from congrArg Links.parent hl] at hp)

theorem exists_live (d : Document) :
    ∃ s : Finset NodeId, (∀ x, x ∈ s ↔ d.Has x) ∧ s.card ≤ d.slots := by
  refine ⟨(d.slab.iter.map Prod.fst).toFinset, fun x => ?_, ?_⟩
  · rw [List.mem_toFinset, List.mem_map, Has, Option.isSome_iff_exists]
    constructor
    · rintro ⟨⟨h, v⟩, hm, rfl⟩
      exact ⟨v, Slab.get_eq_some.mpr (Slab.mem_iter.mp hm)⟩
    · rintro ⟨v, hv⟩
      exact ⟨(x, v), Slab.mem_iter.mpr (Slab.get_eq_some.mp hv), rfl⟩
  · calc (d.slab.iter.map Prod.fst).toFinset.card
        ≤ (d.slab.iter.map Prod.fst).length := List.toFinset_card_le _
      _ = d.slab.slots.countP Slot.isOccupied := by rw [List.length_map, Slab.iter_length]
      _ ≤ d.slots := List.countP_le_length

theorem WellFormed.has_of_under (h : WellFormed d) (hu : d.links.Under x n) (hn : d.Has n) :
    d.Has x := by
  induction hu with
  | refl => exact hn
  | tail _ hp ih => exact ih (h.live _ _ hp)

/-- The walk up from a node ends, with its ancestors. -/
theorem WellFormed.climb (h : WellFormed d) (hn : d.Has n) :
    ∃ vs, Links.climb d.parent d.slots (some n) = some vs ∧
      ∀ x, x ∈ vs ↔ d.links.Under x n := by
  obtain ⟨s, hs, hcard⟩ := d.exists_live
  obtain ⟨vs, hvs⟩ := h.forest.climb_isSome s n fun x hx =>
    (hs x).mpr (h.has_of_under hx hn)
  have hclimb := Links.climb_mono hcard hvs
  exact ⟨vs, hclimb, fun x => by simp [Links.mem_climb (L := d.links) hclimb]⟩

/-- The inclusive ancestors of a node, the closest first. -/
def chain (d : Document) (id : NodeId) : List NodeId :=
  (Links.climb d.parent d.slots (some id)).getD []

/-- The document with a record on the queues of those who want it. -/
def notify (d : Document) (rec : MutationRecord) : Document :=
  { d with
    observers := d.observers.map fun o => (o.chosen (d.chain rec.target) rec).elim o o.enqueue }

theorem WellFormed.emitMutation_eq (h : WellFormed d) (rec : MutationRecord)
    (ht : d.Has rec.target) : d.emitMutation rec = .ok (d.notify rec) := by
  obtain ⟨vs, hvs, -⟩ := h.climb ht
  simp only [emitMutation, notify, chain, hvs, Option.getD_some]

theorem climbPast_eq {k : ℕ} {o : Option NodeId} {vs : List NodeId}
    (h : Links.climb d.parent k o = some vs) :
    d.climbPast c k o = .ok (if c ∈ vs then .error .hierarchyRequest else .ok ()) := by
  induction k generalizing o vs with
  | zero =>
    cases o with
    | none => simp [climbPast, ← Option.some.inj h]
    | some v => cases h
  | succ k ih =>
    cases o with
    | none => simp [climbPast, ← Option.some.inj h]
    | some v =>
      obtain ⟨rest, hrest, rfl⟩ := Option.map_eq_some_iff.mp h
      by_cases hv : v = c
      · simp [climbPast, hv]
      · simp [climbPast, hv, ih hrest, Ne.symm hv]

/-- An insertion is turned down when the parent is under the child. -/
theorem WellFormed.validateInsert_eq (h : WellFormed d) [Decidable (d.links.Under c p)] :
    d.validateInsert p c =
      .ok (if d.links.Under c p then .error .hierarchyRequest else .ok ()) := by
  unfold validateInsert
  by_cases hpc : p = c
  · simp [hpc, Links.Under.refl]
  · cases hparent : d.parent p with
    | none =>
      have hnot : ¬ d.links.Under c p := by
        rw [Links.under_root_iff hparent]
        exact hpc
      cases hs : d.slots <;> simp [hpc, climbPast, hnot]
    | some q =>
      obtain ⟨vs, hvs, hmem⟩ := h.climb (h.live p q hparent)
      have hiff : c ∈ vs ↔ d.links.Under c p := by
        rw [hmem, Links.under_iff (v := p), or_iff_right hpc, Links.above_iff]
        exact ⟨fun hu => ⟨q, hparent, hu⟩, fun ⟨q', hq', hu⟩ =>
          Option.some.inj (hq'.symm.trans hparent) ▸ hu⟩
      rw [if_neg hpc, climbPast_eq hvs]
      simp only [hiff]

end Document

end Conclave.Dom
