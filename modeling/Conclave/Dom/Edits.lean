import Conclave.Dom.Tree

/-! What the tree operations leave. Each is a composition of a few writes, and its links
are those of the document before with nodes detached and attached. -/

namespace Conclave.Dom.Document

open Lib Arena

variable {d : Document} {p c n o x : NodeId} {kids : List NodeId}

def setChildren (d : Document) (p : NodeId) (kids : List NodeId) : Document :=
  d.modify p fun r => { r with children := kids }

def setParent (d : Document) (c : NodeId) (parent : Option NodeId) : Document :=
  d.modify c fun r => { r with parent := parent }

/-- A node put under a parent whose children are then the given ones. -/
def place (d : Document) (p c : NodeId) (kids : List NodeId) : Document :=
  (((d.detach c).setChildren p kids).setParent c (some p)).maybeRegisterId c

def takeOut (d : Document) (p c : NodeId) : Document :=
  ((d.setChildren p ((d.children p).erase c)).setParent c none).unregisterId c

/-- A node put under a parent that loses another one. -/
def swap (d : Document) (p n o : NodeId) (kids : List NodeId) : Document :=
  (((((d.detach n).unregisterId o).setChildren p kids).setParent n (some p)).setParent o
    none).maybeRegisterId n

/-- Nodes taken out one after the other, with a record of each. -/
def strip (p : NodeId) : List NodeId → Document → Document
  | [], d => d
  | c :: rest, d =>
    strip p rest ((d.takeOut p c).notify ⟨p, .childList [] [c] none rest.head?⟩)

theorem withChildren_eq (hp : d.Has p) {f : List NodeId → Except Fault (List NodeId)}
    (hf : f (d.children p) = .ok kids) :
    d.withChildren p f = .ok (.ok (), d.setChildren p kids) := by
  obtain ⟨r, hr⟩ := Option.isSome_iff_exists.mp hp
  rw [children_of_record hr] at hf
  simp only [withChildren, hr, hf]
  rfl

theorem withParent_eq (hc : d.Has c) (parent : Option NodeId) :
    d.withParent c parent = (.ok (), d.setParent c parent) := by
  obtain ⟨r, hr⟩ := Option.isSome_iff_exists.mp hc
  simp only [withParent, hr, setParent]

theorem sameNodes_setChildren (d : Document) (p : NodeId) (kids : List NodeId) :
    SameNodes (d.setChildren p kids) d := sameNodes_modify d p _

theorem sameNodes_setParent (d : Document) (c : NodeId) (parent : Option NodeId) :
    SameNodes (d.setParent c parent) d := sameNodes_modify d c _

theorem sameNodes_detach (d : Document) (c : NodeId) : SameNodes (d.detach c) d := by
  simp only [detach]
  split
  · exact .refl d
  · exact (sameNodes_unregisterId _ _).trans
      ((sameNodes_modify _ _ _).trans (sameNodes_modify _ _ _))

theorem links_setChildren (hp : d.Has p) :
    (d.setChildren p kids).links =
      ⟨d.parent, fun x => if x = p then kids else d.children x⟩ := by
  obtain ⟨r, hr⟩ := Option.isSome_iff_exists.mp hp
  rw [setChildren, links_modify_of_record hr, Links.mk.injEq]
  refine ⟨funext fun x => ?_, rfl⟩
  by_cases hx : x = p
  · rw [if_pos hx, hx, parent_of_record hr]
  · rw [if_neg hx]

theorem links_setParent (hc : d.Has c) (parent : Option NodeId) :
    (d.setParent c parent).links =
      ⟨fun x => if x = c then parent else d.parent x, d.children⟩ := by
  obtain ⟨r, hr⟩ := Option.isSome_iff_exists.mp hc
  rw [setParent, links_modify_of_record hr, Links.mk.injEq]
  refine ⟨rfl, funext fun x => ?_⟩
  by_cases hx : x = c
  · rw [if_pos hx, hx, children_of_record hr]
  · rw [if_neg hx]

theorem parent_setChildren (hp : d.Has p) : (d.setChildren p kids).parent = d.parent :=
  congrArg Links.parent (links_setChildren hp)

theorem children_setChildren (hp : d.Has p) :
    (d.setChildren p kids).children = fun x => if x = p then kids else d.children x :=
  congrArg Links.children (links_setChildren hp)

/-- A node without a place among the children of its parent, and without a parent. -/
theorem WellFormed.links_erase (h : WellFormed d) (hp : d.parent c = some p) :
    ((d.setChildren p ((d.children p).erase c)).setParent c none).links = d.links.detach c := by
  have hhas : d.Has p := h.live c p hp
  rw [links_setParent ((sameNodes_setChildren d p _).has c |>.mpr (has_of_parent hp)),
    parent_setChildren hhas, children_setChildren hhas, Links.detach, Links.mk.injEq]
  refine ⟨rfl, funext fun q => ?_⟩
  by_cases hq : q = p
  · rw [if_pos hq, hq]
    rfl
  · rw [if_neg hq]
    refine (List.erase_of_not_mem fun hm => hq ?_).symm
    exact Option.some.inj (((h.forest.mem_children q c).mp hm).symm.trans hp)

theorem WellFormed.links_detach (h : WellFormed d) (c : NodeId) :
    (d.detach c).links = d.links.detach c := by
  simp only [detach]
  split
  · rename_i hp
    exact (h.forest.detach_of_root hp).symm
  · rename_i p hp
    rw [links_unregisterId, ← h.links_erase hp]
    obtain ⟨r, hr⟩ := Option.isSome_iff_exists.mp (h.live c p hp)
    have hnd : r.children.Nodup := children_of_record hr ▸ h.forest.nodup p
    have hmodify : (d.modify p fun r => { r with children := r.children.filter (· ≠ c) }) =
        d.setChildren p ((d.children p).erase c) := by
      refine congrArg (fun slab => { d with slab := slab }) (Slab.modify_congr hr ?_)
      rw [children_of_record hr, hnd.erase_eq_filter]
      simp only [ne_eq, decide_not, bne]
      rfl
    rw [hmodify]
    rfl

/-! ### The links after each -/

theorem WellFormed.links_place (h : WellFormed d) (hp : d.Has p) (hc : d.Has c) :
    (d.place p c kids).links = (d.links.detach c).attach p c kids := by
  have hs := sameNodes_detach d c
  have hp' := (hs.has p).mpr hp
  rw [place, links_maybeRegisterId,
    links_setParent ((sameNodes_setChildren _ p kids).has c |>.mpr ((hs.has c).mpr hc)),
    parent_setChildren hp', children_setChildren hp', ← h.links_detach c]
  rfl

theorem WellFormed.links_takeOut (h : WellFormed d) (hc : d.parent c = some p) :
    (d.takeOut p c).links = d.links.detach c := by
  rw [takeOut, links_unregisterId, h.links_erase hc]

theorem WellFormed.links_swap (h : WellFormed d) (hn : d.Has n) (ho : d.parent o = some p)
    (hno : n ≠ o) :
    (d.swap p n o kids).links = ((d.links.detach n).detach o).attach p n kids := by
  have hs := (sameNodes_unregisterId (d.detach n) o).trans (sameNodes_detach d n)
  have hp : d.Has p := h.live o p ho
  have hp' := (hs.has p).mpr hp
  have hl : ((d.detach n).unregisterId o).links = d.links.detach n := by
    rw [links_unregisterId, h.links_detach n]
  have hs₁ := (sameNodes_setChildren ((d.detach n).unregisterId o) p kids).trans hs
  have hs₂ := (sameNodes_setParent (((d.detach n).unregisterId o).setChildren p kids) n
    (some p)).trans hs₁
  have hparent : ((d.detach n).unregisterId o).parent = (d.links.detach n).parent :=
    congrArg Links.parent hl
  have hchildren : ((d.detach n).unregisterId o).children = (d.links.detach n).children :=
    congrArg Links.children hl
  have h₁ := links_setParent ((hs₁.has n).mpr hn) (some p)
  rw [parent_setChildren hp', children_setChildren hp', hparent, hchildren] at h₁
  have hparent₁ := congrArg Links.parent h₁
  have hchildren₁ := congrArg Links.children h₁
  rw [swap, links_maybeRegisterId, links_setParent ((hs₂.has o).mpr (has_of_parent ho)),
    Links.attach, Links.mk.injEq]
  refine ⟨funext fun x => ?_, funext fun q => ?_⟩
  · refine (congrArg (if x = o then none else ·) (congrFun hparent₁ x)).trans ?_
    simp only [Links.detach]
    by_cases hx : x = o
    · simp [hx, Ne.symm hno]
    · simp [hx]
  · refine (congrFun hchildren₁ q).trans ?_
    by_cases hq : q = p
    · simp [hq]
    · have hnot : o ∉ (d.links.detach n).children q := fun hm => by
        obtain ⟨-, hq'⟩ := Links.detach_parent_eq_some.mp
          (((h.forest.detach n).mem_children q o).mp hm)
        exact hq (Option.some.inj (hq'.symm.trans ho))
      simp only [if_neg hq]
      exact (List.erase_of_not_mem hnot).symm

/-! ### Other fields -/

/-- A field that the tree operations do not write. -/
def OffTree {β : Type} (g : NodeRecord → β) : Prop :=
  ∀ r q kids cache, g { r with parent := q, children := kids, elementIdCache := cache } = g r

variable {β : Type} {g : NodeRecord → β}

theorem OffTree.offIds (hg : OffTree g) : OffIds g :=
  fun r cache => hg r r.parent r.children cache

theorem OffTree.look_setChildren (hg : OffTree g) (d : Document) (p : NodeId)
    (kids : List NodeId) : (d.setChildren p kids).look g = d.look g :=
  look_modify d p fun r => hg r r.parent kids r.elementIdCache

theorem OffTree.look_setParent (hg : OffTree g) (d : Document) (c : NodeId)
    (parent : Option NodeId) : (d.setParent c parent).look g = d.look g :=
  look_modify d c fun r => hg r parent r.children r.elementIdCache

theorem OffTree.look_detach (hg : OffTree g) (d : Document) (c : NodeId) :
    (d.detach c).look g = d.look g := by
  simp only [detach]
  split
  · rfl
  · rw [look_unregisterId hg.offIds,
      look_modify _ c fun r => hg r none r.children r.elementIdCache,
      look_modify _ _ fun r => hg r r.parent _ r.elementIdCache]

theorem OffTree.look_place (hg : OffTree g) (d : Document) (p c : NodeId) (kids : List NodeId) :
    (d.place p c kids).look g = d.look g := by
  rw [place, look_maybeRegisterId hg.offIds, hg.look_setParent, hg.look_setChildren,
    hg.look_detach]

theorem OffTree.look_takeOut (hg : OffTree g) (d : Document) (p c : NodeId) :
    (d.takeOut p c).look g = d.look g := by
  rw [takeOut, look_unregisterId hg.offIds, hg.look_setParent, hg.look_setChildren]

theorem OffTree.look_swap (hg : OffTree g) (d : Document) (p n o : NodeId)
    (kids : List NodeId) : (d.swap p n o kids).look g = d.look g := by
  rw [swap, look_maybeRegisterId hg.offIds, hg.look_setParent, hg.look_setParent,
    hg.look_setChildren, look_unregisterId hg.offIds, hg.look_detach]

theorem sameNodes_place (d : Document) (p c : NodeId) (kids : List NodeId) :
    SameNodes (d.place p c kids) d :=
  (sameNodes_maybeRegisterId _ c).trans <| (sameNodes_setParent _ c _).trans <|
    (sameNodes_setChildren _ p kids).trans (sameNodes_detach d c)

theorem sameNodes_takeOut (d : Document) (p c : NodeId) : SameNodes (d.takeOut p c) d :=
  (sameNodes_unregisterId _ c).trans <| (sameNodes_setParent _ c _).trans <|
    sameNodes_setChildren _ p _

theorem sameNodes_swap (d : Document) (p n o : NodeId) (kids : List NodeId) :
    SameNodes (d.swap p n o kids) d :=
  (sameNodes_maybeRegisterId _ n).trans <| (sameNodes_setParent _ o _).trans <|
    (sameNodes_setParent _ n _).trans <| (sameNodes_setChildren _ p kids).trans <|
      (sameNodes_unregisterId _ o).trans (sameNodes_detach d n)

theorem sameNodes_notify (d : Document) (rec : MutationRecord) : SameNodes (d.notify rec) d :=
  ⟨rfl, rfl, fun _ => Iff.rfl, rfl⟩

/-! ### The invariant after each -/

theorem WellFormed.notify (h : WellFormed d) (rec : MutationRecord) :
    WellFormed (d.notify rec) := h.of_links (sameNodes_notify d rec) rfl

theorem WellFormed.takeOut (h : WellFormed d) (hc : d.parent c = some p) :
    WellFormed (d.takeOut p c) := by
  have hl := h.links_takeOut hc
  refine h.of_sameNodes (sameNodes_takeOut d p c) (hl ▸ h.forest.detach c) fun x q hq => ?_
  have hparent : (d.links.detach c).parent x = some q := hl ▸ hq
  exact h.live x q (Links.detach_parent_eq_some.mp hparent).2

/-- What is not under a node is not under it either once that has lost its parent. -/
theorem WellFormed.not_under_detach (h : WellFormed d) (hcp : ¬ d.links.Under c p) :
    ¬ (d.links.detach n).Under c p := fun hu =>
  hcp <| (Links.under_iff.mp hu).elim (fun he => he ▸ .refl _ _)
    fun ha => (h.forest.detach_above.mp ha).1.under

theorem WellFormed.place (h : WellFormed d) (hp : d.Has p) (hc : d.Has c)
    (hcp : ¬ d.links.Under c p) (hkids : kids.Perm (c :: (d.children p).erase c)) :
    WellFormed (d.place p c kids) := by
  have hl : (d.place p c kids).links = _ := h.links_place hp hc
  refine h.of_sameNodes (sameNodes_place d p c kids) ?_ fun x q hq => ?_
  · rw [hl]
    exact (h.forest.detach c).attach (if_pos rfl) (h.not_under_detach hcp) hkids
  · have hparent : ((d.links.detach c).attach p c kids).parent x = some q := hl ▸ hq
    by_cases hx : x = c
    · rw [hx] at hparent
      exact Option.some.inj ((if_pos rfl : _ = some p).symm.trans hparent) ▸ hp
    · rw [Links.attach_parent_of_ne hx] at hparent
      exact h.live x q (Links.detach_parent_eq_some.mp hparent).2

theorem WellFormed.swap (h : WellFormed d) (hn : d.Has n) (ho : d.parent o = some p)
    (hno : n ≠ o) (hnp : ¬ d.links.Under n p)
    (hkids : kids.Perm (n :: ((d.children p).erase n).erase o)) :
    WellFormed (d.swap p n o kids) := by
  have hl : (d.swap p n o kids).links = _ := h.links_swap hn ho hno
  have hd := h.forest.detach n
  refine h.of_sameNodes (sameNodes_swap d p n o kids) ?_ fun x q hq => ?_
  · rw [hl]
    refine (hd.detach o).attach ?_ (fun hu => ?_) hkids
    · simp [Links.detach]
    · refine h.not_under_detach hnp ((Links.under_iff.mp hu).elim (fun he => he ▸ .refl _ _)
        fun ha => (hd.detach_above.mp ha).1.under)
  · have hparent : (((d.links.detach n).detach o).attach p n kids).parent x = some q := hl ▸ hq
    by_cases hx : x = n
    · rw [hx] at hparent
      exact Option.some.inj ((if_pos rfl : _ = some p).symm.trans hparent) ▸ h.live o p ho
    · rw [Links.attach_parent_of_ne hx] at hparent
      exact h.live x q (Links.detach_parent_eq_some.mp
        (Links.detach_parent_eq_some.mp hparent).2).2

end Conclave.Dom.Document
