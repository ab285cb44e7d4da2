import Conclave.Js.GcMarking
import Conclave.Lib.Loops

/-! The heap over whole runs. A collection frees the objects that the roots do not reach
and no others, as long as the callback returns the edges that the objects have; a handle
whose object was freed stays dead, as long as no generation counter wraps. -/

namespace Conclave.Js.Gc

open Conclave.Lib

variable {T : Type} {slots slots' : List (Slot T)} {free : List ℕ} {i j : ℕ} {slot : Slot T}
  {s s' : Heap T} {h : Handle} {roots : List Handle} {trace : Trace T}

/-- What the sweep frees. -/
def Garbage (s : Slot T) : Prop := s.payload.isSome ∧ s.mark = .white

instance (s : Slot T) : Decidable (Garbage s) := inferInstanceAs (Decidable (_ ∧ _))

theorem sweep_of_garbage (hs : Garbage slot) :
    Heap.sweep i (slot :: slots) free =
      let r := Heap.sweep (i + 1) slots (i % 2 ^ 32 :: free)
      (Heap.freed slot :: r.1, r.2.1, r.2.2 + 1) := (if_pos hs).trans rfl

theorem sweep_of_not_garbage (hs : ¬ Garbage slot) :
    Heap.sweep i (slot :: slots) free =
      let r := Heap.sweep (i + 1) slots free
      (slot :: r.1, r.2.1, r.2.2) := (if_neg hs).trans rfl

theorem sweep_slots (i : ℕ) (slots : List (Slot T)) (free : List ℕ) :
    (Heap.sweep i slots free).1 = slots.map fun s => if Garbage s then Heap.freed s else s := by
  induction slots generalizing i free with
  | nil => rfl
  | cons s slots ih =>
    by_cases hs : Garbage s
    · rw [sweep_of_garbage hs, List.map_cons, if_pos hs, ← ih]
    · rw [sweep_of_not_garbage hs, List.map_cons, if_neg hs, ← ih]

theorem sweep_reclaimed (i : ℕ) (slots : List (Slot T)) (free : List ℕ) :
    (Heap.sweep i slots free).2.2 = slots.countP fun s => decide (Garbage s) := by
  induction slots generalizing i free with
  | nil => rfl
  | cons s slots ih =>
    by_cases hs : Garbage s
    · rw [sweep_of_garbage hs, List.countP_cons_of_pos (by simpa using hs), ← ih]
    · rw [sweep_of_not_garbage hs, List.countP_cons_of_neg (by simpa using hs), ← ih]

/-- The slots the sweep frees go on the free list. -/
theorem sweep_free (hsize : i + slots.length ≤ 2 ^ 32) :
    (∀ j, j ∈ (Heap.sweep i slots free).2.1 ↔
      j ∈ free ∨ ∃ k s, slots[k]? = some s ∧ Garbage s ∧ j = i + k) ∧
      (free.Nodup → (∀ j ∈ free, ∀ k s, slots[k]? = some s → Garbage s → j ≠ i + k) →
        (Heap.sweep i slots free).2.1.Nodup) := by
  induction slots generalizing i free with
  | nil => simp [Heap.sweep]
  | cons s slots ih =>
    have hshift : ∀ k, i + 1 + k = i + (k + 1) := fun k => by omega
    rw [List.length_cons] at hsize
    have hi : i % 2 ^ 32 = i := Nat.mod_eq_of_lt (by omega)
    by_cases hs : Garbage s
    · obtain ⟨ihmem, ihnodup⟩ := @ih (i :: free) (i + 1) (by omega)
      rw [sweep_of_garbage hs, hi]
      constructor
      · intro j
        refine (ihmem j).trans ?_
        constructor
        · rintro (hj | ⟨k, t, ht, hg, rfl⟩)
          · obtain rfl | hj := List.mem_cons.mp hj
            · exact .inr ⟨0, s, rfl, hs, rfl⟩
            · exact .inl hj
          · exact .inr ⟨k + 1, t, ht, hg, hshift k⟩
        · rintro (hj | ⟨k, t, ht, hg, rfl⟩)
          · exact .inl (List.mem_cons_of_mem i hj)
          · cases k with
            | zero => exact .inl List.mem_cons_self
            | succ k => exact .inr ⟨k, t, ht, hg, (hshift k).symm⟩
      · intro hnodup hdisj
        apply ihnodup
        · exact List.nodup_cons.mpr ⟨fun hmem => hdisj i hmem 0 s rfl hs rfl, hnodup⟩
        · intro j hj k t ht hg
          obtain rfl | hj := List.mem_cons.mp hj
          · omega
          · rw [hshift]
            exact hdisj j hj (k + 1) t ht hg
    · obtain ⟨ihmem, ihnodup⟩ := @ih free (i + 1) (by omega)
      rw [sweep_of_not_garbage hs]
      constructor
      · intro j
        refine (ihmem j).trans (or_congr_right ?_)
        constructor
        · rintro ⟨k, t, ht, hg, rfl⟩
          exact ⟨k + 1, t, ht, hg, hshift k⟩
        · rintro ⟨k, t, ht, hg, rfl⟩
          cases k with
          | zero =>
            obtain rfl := Option.some.inj ht
            exact absurd hg hs
          | succ k => exact ⟨k, t, ht, hg, (hshift k).symm⟩
      · intro hnodup hdisj
        refine ihnodup hnodup fun j hj k t ht hg => ?_
        rw [hshift]
        exact hdisj j hj (k + 1) t ht hg

/-- The live slots. -/
def liveSlots (slots : List (Slot T)) : ℕ := slots.countP fun s => s.payload.isSome

/-- The count and the free list are those of the slots, which the indices can name. -/
structure Valid (s : Heap T) : Prop where
  count : s.liveCount = liveSlots s.slots
  free : ∀ i, i ∈ s.freeList ↔ ∃ slot, s.slots[i]? = some slot ∧ slot.payload = none
  nodup : s.freeList.Nodup
  size : s.slots.length ≤ 2 ^ 32

theorem valid_new : Valid (Heap.new : Heap T) := ⟨rfl, by simp [Heap.new], List.nodup_nil, by
  simp [Heap.new]⟩

/-- The edges an object has for a collection: those its callback computes, or those that
`set_outgoing` gave it when the callback does nothing. -/
def Trace.edges : Trace T → Slot T → List ℕ
  | recompute f, s => s.payload.elim [] f
  | noop, s => s.outgoing

/-- The object in the slot is reached from the valid roots through the current edges. -/
def Reached (s : Heap T) (roots : List Handle) (trace : Trace T) : ℕ → Prop :=
  Reachable (LiveAt s.slots) (RootAt s.slots roots) fun i => s.slots[i]?.elim [] trace.edges

/-- A callback that does nothing meets no object with edges, which would lose them. -/
def KeepsEdges (s : Heap T) (roots : List Handle) (trace : Trace T) : Prop :=
  trace = .noop → ∀ (i : ℕ) (slot : Slot T), s.slots[i]? = some slot →
    Reached s roots trace i → slot.outgoing = []

/-- A slot is at hand, no edges are dropped, and no generation counter wraps. -/
def Settled (s : Heap T) : Act T → Prop
  | .alloc _ => s.freeList ≠ [] ∨ s.slots.length < 2 ^ 32
  | .collect roots trace =>
    KeepsEdges s roots trace ∧
      ∀ i slot, s.slots[i]? = some slot → slot.payload.isSome → ¬ Reached s roots trace i →
        slot.generation + 1 < 2 ^ 32
  | _ => True

/-- What the callback returns reaches what the current edges reach. -/
theorem traced_iff (hedges : KeepsEdges s roots trace) :
    Reachable (LiveAt s.slots) (RootAt s.slots roots) (tracedAt trace.run s.slots) i ↔
      Reached s roots trace i := by
  cases trace with
  | recompute f =>
    have hedges : (fun i => s.slots[i]?.elim [] (Trace.recompute f).edges) =
        tracedAt (Trace.recompute f).run s.slots := by
      have hrun : (Trace.recompute f).run = f := rfl
      funext i
      cases hs : s.slots[i]? <;> simp [tracedAt, hs, Trace.edges, hrun]
    rw [Reached, hedges]
  | noop =>
    refine ⟨fun h => h.imp fun v _ w hw => ?_, fun h => h.imp fun v hv w hw => ?_⟩
    · have hnone : tracedAt (Trace.noop : Trace T).run s.slots v = [] := by
        cases hs : s.slots[v]?.bind Slot.payload <;> simp [tracedAt, hs, Trace.run]
      rw [hnone] at hw
      cases hw
    · have hnone : s.slots[v]?.elim [] Slot.outgoing = [] := by
        cases hs : s.slots[v]? with
        | none => rfl
        | some slot => exact hedges rfl v slot hs hv
      have hw' : w ∈ s.slots[v]?.elim [] Slot.outgoing := hw
      rw [hnone] at hw'
      cases hw'

/-- The slot a collection leaves. -/
def Swept (reached : Prop) (slot slot' : Slot T) : Prop :=
  (slot.payload.isSome ∧ ¬ reached → slot'.payload = none ∧
    slot'.generation = (slot.generation + 1) % 2 ^ 32) ∧
  (slot.payload = none ∨ reached → slot'.payload = slot.payload ∧
    slot'.generation = slot.generation)

theorem Swept.isSome {reached : Prop} {slot slot' : Slot T} (h : Swept reached slot slot') :
    slot'.payload.isSome ↔ slot.payload.isSome ∧ reached := by
  by_cases hlive : slot.payload.isSome <;> by_cases hr : reached
  · rw [(h.2 (.inr hr)).1]
    simp [hr]
  · rw [(h.1 ⟨hlive, hr⟩).1]
    simp [hr]
  · rw [(h.2 (.inr hr)).1]
    simp [hr]
  · have hnone : slot.payload = none := by simpa using hlive
    rw [(h.2 (.inl hnone)).1]
    simp [hnone]

/-- The sweep takes its garbage from the live slots. -/
theorem liveSlots_sweep (slots : List (Slot T)) :
    liveSlots slots = (slots.countP fun s => decide (Garbage s)) +
      liveSlots (slots.map fun s => if Garbage s then Heap.freed s else s) := by
  induction slots with
  | nil => rfl
  | cons s slots ih =>
    unfold liveSlots at ih ⊢
    rw [List.map_cons, List.countP_cons, List.countP_cons, List.countP_cons, ih]
    by_cases hs : Garbage s
    · simp only [hs, hs.1, if_true, decide_true, Heap.freed, Option.isSome_none,
        Bool.false_eq_true, if_false]
      omega
    · simp only [hs, if_false, decide_false, Bool.false_eq_true]
      omega

theorem Same.liveSlots (h : Same slots slots') : liveSlots slots = liveSlots slots' := by
  have hmap := congrArg (List.countP fun p : Option T × ℕ => p.1.isSome) h
  rw [List.countP_map, List.countP_map] at hmap
  exact hmap

/-- A collection does not fail. It frees the live slots that are not reached, and counts
them. -/
theorem collect_spec (hs : Valid s)
    (hedges : KeepsEdges s roots trace) :
    ∃ n s', s.collect roots trace.run = some (n, s') ∧ Valid s' ∧ n + s'.liveCount = s.liveCount ∧
      s'.slots.length = s.slots.length ∧
      ∀ i slot, s.slots[i]? = some slot →
        ∃ slot', s'.slots[i]? = some slot' ∧ Swept (Reached s roots trace i) slot slot' := by
  set white := s.slots.map fun s => { s with mark := Mark.white } with hw
  have hmark : ∀ i, markAt white i ≠ some .black ∧ markAt white i ≠ some .grey := by
    intro i
    unfold markAt
    rw [hw, List.getElem?_map]
    cases s.slots[i]? <;> simp
  have hsame₀ : Same white s.slots := by
    rw [hw, Same, List.map_map]
    rfl
  have hwhite : Listed white [] := ⟨fun i => by simp [(hmark i).2], List.nodup_nil⟩
  obtain ⟨slots₁, work, hroots, hsame₁, hlisted, hblack, hgrey⟩ :=
    @greyRoots_spec T white [] roots hwhite fun i => (hmark i).1
  have hgrey' : ∀ i, markAt slots₁ i = some .grey ↔ RootAt s.slots roots i ∧ LiveAt s.slots i := by
    intro i
    rw [hgrey, hsame₀.rootAt, hsame₀.liveAt]
    simp [(hmark i).2]
  have hsame : Same slots₁ s.slots := hsame₁.trans hsame₀
  have hmarking : Marking s.slots roots trace.run slots₁ work := by
    refine ⟨hsame, hlisted, ?_, ?_, fun i hb => absurd hb (hblack i)⟩
    · rintro i (hb | hg)
      · exact absurd hb (hblack i)
      · obtain ⟨hr, hl⟩ := (hgrey' i).mp hg
        exact .root hr hl
    · exact fun i hr hl => .inr ((hgrey' i).mpr ⟨hr, hl⟩)
  have hfuel : pending slots₁ ≤ slots₁.length := List.countP_le_length
  obtain ⟨slots₂, hdrain, hdone⟩ := drain_spec hmarking hfuel
  have hnogrey : ∀ i, markAt slots₂ i ≠ some .grey := fun i hg => by
    simpa using (hdone.listed.mem i).mpr hg
  have hreached : ∀ i, markAt slots₂ i = some .black ↔ Reached s roots trace i := fun i =>
    (hdone.colours.exact hnogrey).trans (traced_iff hedges)
  have hgarbage : ∀ i t, slots₂[i]? = some t →
      (Garbage t ↔ t.payload.isSome ∧ ¬ Reached s roots trace i) := by
    intro i t ht
    have hi := hreached i
    have hg := hnogrey i
    rw [markAt, ht] at hi hg
    rw [← hi, Garbage]
    refine and_congr_right fun _ => ?_
    cases hm : t.mark <;> simp_all
  have hlen₂ : slots₂.length = s.slots.length := hdone.same.length
  have hsize : 0 + slots₂.length ≤ 2 ^ 32 := by
    rw [Nat.zero_add, hlen₂]
    exact hs.size
  obtain ⟨hfree, hnodup⟩ := @sweep_free _ _ s.freeList _ hsize
  have hcount : liveSlots s.slots = (slots₂.countP fun s => decide (Garbage s)) +
      liveSlots (slots₂.map fun s => if Garbage s then Heap.freed s else s) :=
    hdone.same.symm.liveSlots.trans (liveSlots_sweep slots₂)
  have hle : ¬ s.liveCount < slots₂.countP fun s => decide (Garbage s) := by
    rw [hs.count, hcount]
    omega
  have hslot : ∀ i slot, s.slots[i]? = some slot → ∃ slot', (slots₂.map fun s =>
      if Garbage s then Heap.freed s else s)[i]? = some slot' ∧
        Swept (Reached s roots trace i) slot slot' := by
    intro i slot hslot
    obtain ⟨t, ht, hp, hg⟩ := hdone.same.symm.get hslot
    refine ⟨if Garbage t then Heap.freed t else t, by rw [List.getElem?_map, ht]; rfl, ?_⟩
    have hiff := hgarbage i t ht
    rw [hp] at hiff
    constructor
    · intro hcond
      rw [if_pos (hiff.mpr hcond)]
      exact ⟨rfl, by rw [← hg]; rfl⟩
    · intro hcond
      have hnot : ¬ Garbage t := by
        rw [hiff]
        rintro ⟨hlive, hr⟩
        obtain hnone | hyes := hcond
        · simp [hnone] at hlive
        · exact hr hyes
      rw [if_neg hnot]
      exact ⟨hp, hg⟩
  refine ⟨slots₂.countP fun s => decide (Garbage s), ⟨slots₂.map fun s =>
    if Garbage s then Heap.freed s else s, (Heap.sweep 0 slots₂ s.freeList).2.1,
    s.liveCount - slots₂.countP fun s => decide (Garbage s)⟩, ?_, ?_, ?_, ?_, hslot⟩
  · simp only [Heap.collect]
    rw [← hw, hroots]
    simp only [hdrain, sweep_slots, sweep_reclaimed]
    rw [if_neg hle]
  · refine ⟨?_, fun i => ?_, hnodup hs.nodup fun j hj k t ht hg hjk => ?_, ?_⟩
    · rw [hs.count, hcount]
      exact Nat.add_sub_cancel_left ..
    · rw [hfree, hs.free]
      constructor
      · rintro (⟨slot, hsl, hnone⟩ | ⟨k, t, ht, hg, rfl⟩)
        · obtain ⟨slot', hslot', hswept⟩ := hslot i slot hsl
          exact ⟨slot', hslot', (hswept.2 (.inl hnone)).1.trans hnone⟩
        · refine ⟨Heap.freed t, ?_, rfl⟩
          rw [Nat.zero_add, List.getElem?_map, ht, Option.map_some, if_pos hg]
      · rintro ⟨slot', hslot', hnone⟩
        rw [List.getElem?_map] at hslot'
        obtain ⟨t, ht, rfl⟩ := Option.map_eq_some_iff.mp hslot'
        by_cases hg : Garbage t
        · exact .inr ⟨i, t, ht, hg, (Nat.zero_add i).symm⟩
        · rw [if_neg hg] at hnone
          obtain ⟨slot, hsl, hp, -⟩ := hdone.same.get ht
          exact .inl ⟨slot, hsl, hp.trans hnone⟩
    · obtain ⟨slot, hsl, hnone⟩ := (hs.free j).mp hj
      rw [Nat.zero_add] at hjk
      obtain ⟨t', ht', hp, -⟩ := hdone.same.symm.get hsl
      obtain rfl := Option.some.inj ((hjk ▸ ht').symm.trans ht)
      simp [hp, hnone, Garbage] at hg
    · simpa [hlen₂] using hs.size
  · exact Nat.add_sub_cancel' (not_lt.mp hle)
  · rw [List.length_map, hlen₂]

theorem getElem?_set_of_get {slot' : Slot T} (hs : slots[i]? = some slot) :
    (slots.set i slot')[j]? = if j = i then some slot' else slots[j]? := by
  have hlt : i < slots.length := (List.getElem?_eq_some_iff.mp hs).1
  split_ifs with h
  · rw [h, List.getElem?_set_self hlt]
  · rw [List.getElem?_set_ne (Ne.symm h)]

/-- A write that leaves the slot live or dead. -/
theorem liveSlots_set {slot' : Slot T} (hs : slots[i]? = some slot)
    (hp : slot'.payload.isSome = slot.payload.isSome) :
    liveSlots (slots.set i slot') = liveSlots slots := by
  obtain ⟨hlt, hget⟩ := List.getElem?_eq_some_iff.mp hs
  unfold liveSlots
  rw [List.countP_set hlt, hget, hp]
  split_ifs with hlive
  · have hpos : 0 < slots.countP fun s => s.payload.isSome :=
      List.countP_pos_iff.mpr ⟨slot, List.mem_of_getElem? hs, hlive⟩
    omega
  · rfl

theorem Valid.set {slot' : Slot T} (hv : Valid s) (hs : s.slots[i]? = some slot)
    (hp : slot'.payload.isSome = slot.payload.isSome) :
    Valid { s with slots := s.slots.set i slot' } := by
  refine ⟨hv.count.trans (liveSlots_set hs hp).symm, fun j => ?_, hv.nodup, by simpa using hv.size⟩
  rw [hv.free, getElem?_set_of_get hs]
  split_ifs with h
  · rw [h, hs]
    simp only [Option.some.injEq, exists_eq_left']
    rw [← Option.not_isSome_iff_eq_none, ← Option.not_isSome_iff_eq_none, hp]
  · rfl

/-- A handle to a new object resolves to it. -/
theorem alloc_spec {payload : T} (hv : Valid s) (hok : Settled s (.alloc payload)) :
    ∃ h s', s.alloc payload = some (h, s') ∧ Valid s' ∧ s'.get h = some payload ∧
      ∀ (i : ℕ) (slot : Slot T), s.slots[i]? = some slot →
        ∃ slot' : Slot T, s'.slots[i]? = some slot' ∧
          slot'.generation = slot.generation ∧ (slot.payload.isSome → slot'.payload.isSome) := by
  unfold Heap.alloc
  split
  · next idx freeList hfree =>
    obtain ⟨slot, hslot, hnone⟩ := (hv.free idx).mp (hfree ▸ List.mem_cons_self)
    have hlt : idx < s.slots.length := (List.getElem?_eq_some_iff.mp hslot).1
    have hget : s.slots[idx] = slot := (List.getElem?_eq_some_iff.mp hslot).2
    have hnodup := List.nodup_cons.mp (hfree ▸ hv.nodup)
    simp only [hslot]
    refine ⟨_, _, rfl, ⟨?_, fun j => ?_, hnodup.2, by simpa using hv.size⟩, ?_, fun j t ht => ?_⟩
    · have hdead : ¬ slot.payload.isSome := by simp [hnone]
      rw [hv.count, liveSlots, liveSlots, List.countP_set hlt, hget, if_neg hdead]
      rfl
    · have hj := hv.free j
      rw [hfree, List.mem_cons] at hj
      rw [getElem?_set_of_get hslot]
      split_ifs with h
      · simp [h, hnodup.1]
      · rw [← hj]
        simp [h]
    · simp [Heap.get, hlt]
    · rw [getElem?_set_of_get hslot]
      split_ifs with h
      · rw [h, hslot] at ht
        obtain rfl := Option.some.inj ht
        exact ⟨_, rfl, rfl, fun _ => rfl⟩
      · exact ⟨t, ht, rfl, id⟩
  · next hfree =>
    have hlt : s.slots.length < 2 ^ 32 := hok.resolve_left (not_not.mpr hfree)
    refine ⟨_, _, rfl, ⟨?_, fun j => ?_, List.nodup_nil, ?_⟩, ?_, fun j t ht => ?_⟩
    · rw [hv.count, liveSlots, liveSlots, List.countP_append]
      rfl
    · have hj := hv.free j
      rw [hfree] at hj
      rw [List.getElem?_append]
      split_ifs with h
      · exact hj
      · refine iff_of_false List.not_mem_nil ?_
        rintro ⟨slot, hslot, hnone⟩
        have hmem := List.mem_of_getElem? hslot
        rw [List.mem_singleton.mp hmem] at hnone
        cases hnone
    · rw [List.length_append]
      exact hlt
    · have hmod : s.slots.length % 2 ^ 32 = s.slots.length := Nat.mod_eq_of_lt hlt
      simp only [Heap.get, hmod, List.getElem?_append_right le_rfl, Nat.sub_self]
      rfl
    · obtain ⟨hj, -⟩ := List.getElem?_eq_some_iff.mp ht
      exact ⟨t, by rw [List.getElem?_append_left hj, ht], rfl, id⟩

/-- Generations only grow, and a slot that keeps its generation keeps its object. -/
def Grows (s s' : Heap T) : Prop :=
  ∀ (i : ℕ) (slot : Slot T), s.slots[i]? = some slot → ∃ slot' : Slot T, s'.slots[i]? = some slot' ∧
    (slot.generation < slot'.generation ∨
      slot'.generation = slot.generation ∧ (slot.payload.isSome → slot'.payload.isSome))

theorem Grows.refl (s : Heap T) : Grows s s := fun _ slot h => ⟨slot, h, .inr ⟨rfl, id⟩⟩

theorem Grows.set {slot' : Slot T} (hs : s.slots[i]? = some slot)
    (hg : slot'.generation = slot.generation) (hp : slot'.payload.isSome = slot.payload.isSome) :
    Grows s { s with slots := s.slots.set i slot' } := by
  intro j t ht
  have hj : (s.slots.set i slot')[j]? = if j = i then some slot' else s.slots[j]? :=
    getElem?_set_of_get hs
  rw [hj]
  split_ifs with h
  · rw [h, hs] at ht
    obtain rfl := Option.some.inj ht
    exact ⟨slot', rfl, .inr ⟨hg, fun hl => hp.trans hl⟩⟩
  · exact ⟨t, ht, .inr ⟨rfl, id⟩⟩

/-- What an act does to a heap: it does not fail and keeps the bookkeeping. -/
theorem step_spec {a : Act T} (hv : Valid s) (hok : Settled s a) :
    ∃ s', step s a = some s' ∧ Valid s' ∧ Grows s s' := by
  cases a with
  | alloc payload =>
    obtain ⟨h, s', halloc, hv', -, hkeep⟩ := alloc_spec hv hok
    refine ⟨s', by rw [step, halloc]; rfl, hv', fun i slot hslot => ?_⟩
    obtain ⟨slot', hslot', hg, hp⟩ := hkeep i slot hslot
    exact ⟨slot', hslot', .inr ⟨hg, hp⟩⟩
  | modify h f =>
    refine ⟨s.modify h f, rfl, ?_⟩
    unfold Heap.modify
    split
    · next slot hslot =>
      split_ifs
      · exact ⟨hv, .refl s⟩
      · exact ⟨hv.set hslot (by simp), .set hslot rfl (by simp)⟩
    · exact ⟨hv, .refl s⟩
  | setOutgoing h edges =>
    refine ⟨s.setOutgoing h edges, rfl, ?_⟩
    unfold Heap.setOutgoing
    split
    · next slot hslot =>
      split_ifs
      · exact ⟨hv.set hslot rfl, .set hslot rfl rfl⟩
      · exact ⟨hv, .refl s⟩
    · exact ⟨hv, .refl s⟩
  | collect roots trace =>
    obtain ⟨n, s', hrun, hv', -, -, hslots⟩ := collect_spec hv hok.1
    refine ⟨s', by rw [step, hrun]; rfl, hv', fun i slot hslot => ?_⟩
    obtain ⟨slot', hslot', hswept⟩ := hslots i slot hslot
    refine ⟨slot', hslot', ?_⟩
    by_cases hfree : slot.payload.isSome ∧ ¬ Reached s roots trace i
    · have hlt := hok.2 i slot hslot hfree.1 hfree.2
      rw [(hswept.1 hfree).2, Nat.mod_eq_of_lt hlt]
      exact .inl (Nat.lt_succ_self _)
    · have hkeep : slot.payload = none ∨ Reached s roots trace i := by
        by_cases hlive : slot.payload.isSome
        · exact .inr (not_not.mp fun hr => hfree ⟨hlive, hr⟩)
        · exact .inl (by simpa using hlive)
      obtain ⟨hp, hg⟩ := hswept.2 hkeep
      exact .inr ⟨hg, fun hl => hp ▸ hl⟩

/-- The slot of the handle has gone on to a later generation. -/
def Stale (h : Handle) (s : Heap T) : Prop :=
  ∃ slot, s.slots[h.slot]? = some slot ∧ h.generation < slot.generation

theorem Stale.get (hst : Stale h s) : s.get h = none := by
  obtain ⟨slot, hslot, hlt⟩ := hst
  rw [Heap.get, hslot]
  exact if_pos hlt.ne'

theorem Stale.grows (hst : Stale h s) (hg : Grows s s') : Stale h s' := by
  obtain ⟨slot, hslot, hlt⟩ := hst
  obtain ⟨slot', hslot', hlt' | ⟨heq, -⟩⟩ := hg h.slot slot hslot
  · exact ⟨slot', hslot', hlt.trans hlt'⟩
  · exact ⟨slot', hslot', heq ▸ hlt⟩

/-- A handle that resolves goes on to, or its slot to a later generation. -/
theorem Grows.get (hg : Grows s s') (hh : (s.get h).isSome) : (s'.get h).isSome ∨ Stale h s' := by
  cases hslot : s.slots[h.slot]? with
  | none => simp [Heap.get, hslot] at hh
  | some slot =>
    have hgen : slot.generation = h.generation := by
      by_contra hne
      simp [Heap.get, hslot, hne] at hh
    have hlive : slot.payload.isSome := by simpa [Heap.get, hslot, hgen] using hh
    obtain ⟨slot', hslot', hlt | ⟨heq, hkeep⟩⟩ := hg h.slot slot hslot
    · exact .inr ⟨slot', hslot', hgen ▸ hlt⟩
    · left
      rw [Heap.get, hslot']
      simpa [heq.trans hgen] using hkeep hlive

theorem runs_valid {acts : List (Act T)} (hv : Valid s) (hok : RunsWith step Settled s acts)
    (hrun : runs step s acts = some s') : Valid s' := by
  refine runsWith_keeps (fun s a s' hv hok hstep => ?_) hv hok hrun
  obtain ⟨s₁, hstep₁, hv₁, -⟩ := step_spec hv hok
  exact Option.some.inj (hstep₁.symm.trans hstep) ▸ hv₁

/-- What growing keeps, a run keeps. -/
theorem runs_grows {P : Heap T → Prop} (hP : ∀ s s', Grows s s' → P s → P s')
    {acts : List (Act T)} (hv : Valid s) (hok : RunsWith step Settled s acts)
    (hrun : runs step s acts = some s') (hs : P s) : P s' := by
  refine (runsWith_keeps (P := fun s => Valid s ∧ P s) (fun s a s' hs hok hstep => ?_)
    ⟨hv, hs⟩ hok hrun).2
  obtain ⟨s₁, hstep₁, hv₁, hg⟩ := step_spec hs.1 hok
  obtain rfl := Option.some.inj (hstep₁.symm.trans hstep)
  exact ⟨hv₁, hP _ _ hg hs.2⟩

/-- Whenever a handle was issued in the run and its object is freed later on, the handle
does not resolve at the end. -/
def NoRevival (acts : List (Act T)) (s : Heap T) : Prop :=
  ∀ before payload freed rest s₁ h s₂ s₃,
    acts = before ++ .alloc payload :: (freed ++ rest) → runs step Heap.new before = some s₁ →
    s₁.alloc payload = some (h, s₂) → runs step s₂ freed = some s₃ → s₃.get h = none →
    s.get h = none

/-- In every state of such a run: no act fails, a collection frees exactly the live slots
that are not reached and leaves the other objects to their handles, the count and the free
list are those of the slots, and no handle of a freed object resolves. -/
theorem gc_heap {acts : List (Act T)} (hok : RunsWith step Settled Heap.new acts)
    (hrun : runs step Heap.new acts = some s) :
    s.liveCount = liveSlots s.slots ∧ s.freeList.Nodup ∧
      (∀ i, i ∈ s.freeList ↔ ∃ slot, s.slots[i]? = some slot ∧ slot.payload = none) ∧
      (∀ a, Settled s a → (step s a).isSome) ∧
      (∀ roots trace, Settled s (.collect roots trace) →
        ∃ n s', s.collect roots trace.run = some (n, s') ∧ n + s'.liveCount = s.liveCount ∧
          (∀ i, LiveAt s'.slots i ↔ LiveAt s.slots i ∧ Reached s roots trace i) ∧
          ∀ h, Reached s roots trace h.slot → s'.get h = s.get h) ∧
      NoRevival acts s := by
  have hv := runs_valid valid_new hok hrun
  refine ⟨hv.count, hv.nodup, hv.free, fun a ha => ?_, fun roots trace ha => ?_, ?_⟩
  · obtain ⟨s', hstep, -⟩ := step_spec hv ha
    rw [hstep]
    rfl
  · obtain ⟨n, s', hcollect, -, hcount, hlen, hslots⟩ := collect_spec hv ha.1
    refine ⟨n, s', hcollect, hcount, fun i => ?_, fun h hh => ?_⟩
    · constructor
      · rintro ⟨slot', hslot', hlive⟩
        obtain ⟨hlt, -⟩ := List.getElem?_eq_some_iff.mp hslot'
        obtain ⟨slot'', hslot'', hswept⟩ := hslots i _ (List.getElem?_eq_getElem (hlen ▸ hlt))
        obtain rfl := Option.some.inj (hslot'.symm.trans hslot'')
        obtain ⟨hl, hr⟩ := hswept.isSome.mp hlive
        exact ⟨⟨_, List.getElem?_eq_getElem (hlen ▸ hlt), hl⟩, hr⟩
      · rintro ⟨⟨slot, hslot, hl⟩, hr⟩
        obtain ⟨slot', hslot', hswept⟩ := hslots i slot hslot
        exact ⟨slot', hslot', hswept.isSome.mpr ⟨hl, hr⟩⟩
    · obtain ⟨slot, hslot, -⟩ := hh.is_live
      obtain ⟨slot', hslot', hswept⟩ := hslots h.slot slot hslot
      obtain ⟨hp, hg⟩ := hswept.2 (.inr hh)
      simp only [Heap.get, hslot, hslot', hp, hg]
  · intro before payload freed rest s₁ h s₂ s₃ hacts hbefore halloc hfreed hnone
    subst hacts
    obtain ⟨hok₁, hok₂⟩ := runsWith_append hok hbefore
    have hv₁ := runs_valid valid_new hok₁ hbefore
    have hstep : step s₁ (.alloc payload) = some s₂ := by rw [step, halloc]; rfl
    obtain ⟨h', s₂', halloc', hv₂, hget, -⟩ := alloc_spec hv₁ hok₂.1
    obtain ⟨rfl, rfl⟩ := Prod.mk.inj (Option.some.inj (halloc.symm.trans halloc'))
    obtain ⟨hok₃, hok₄⟩ := runsWith_append (hok₂.2 _ hstep) hfreed
    have hv₃ := runs_valid hv₂ hok₃ hfreed
    have hstale : Stale h s₃ := by
      have hor := runs_grows (P := fun s => (s.get h).isSome ∨ Stale h s)
        (fun s s' hg => Or.rec hg.get fun hst => .inr (hst.grows hg)) hv₂ hok₃ hfreed
        (.inl (by rw [hget]; rfl))
      exact hor.resolve_left (by rw [hnone]; simp)
    have hrest : runs step s₃ rest = some s := by
      have hall := hrun
      rw [runs_append, hbefore, Option.bind_some, runs, hstep, Option.bind_some, runs_append,
        hfreed, Option.bind_some] at hall
      exact hall
    exact (runs_grows (P := Stale h) (fun s s' hg hst => hst.grows hg) hv₃ hok₄ hrest hstale).get

theorem gc_heap_collected :
    let acts : List (Act ℕ) := [.alloc 0, .alloc 1, .alloc 2,
      .collect [⟨0, 0⟩] (.recompute fun p => if p = 0 then [1] else [0])]
    ∃ s, runs step Heap.new acts = some s ∧ s.liveCount = 2 ∧ 2 ∈ s.freeList ∧
      NoRevival acts s := by
  have hok : RunsWith step Settled (Heap.new : Heap ℕ) [.alloc 0, .alloc 1, .alloc 2,
      .collect [⟨0, 0⟩] (.recompute fun p => if p = 0 then [1] else [0])] := by
    refine ⟨.inr (by decide), fun s₁ h₁ => ?_⟩
    obtain rfl := Option.some.inj h₁
    refine ⟨.inr (by decide), fun s₂ h₂ => ?_⟩
    obtain rfl := Option.some.inj h₂
    refine ⟨.inr (by decide), fun s₃ h₃ => ?_⟩
    obtain rfl := Option.some.inj h₃
    refine ⟨⟨nofun, fun i slot hslot _ _ => ?_⟩, fun _ _ => trivial⟩
    match i, hslot with
    | 0, hslot | 1, hslot | 2, hslot => rw [← Option.some.inj hslot]; decide
  refine ⟨_, rfl, rfl, by decide, ?_⟩
  exact (gc_heap hok rfl).2.2.2.2.2

/-- A heap with one object, in a slot at generation `g`. -/
def single (g : ℕ) : Heap ℕ := ⟨[⟨some 0, [], .white, g⟩], [], 1⟩

/-- The object is freed and a new one takes the slot. -/
def reuse : List (Act ℕ) := [.collect [] (.recompute fun _ => []), .alloc 0]

theorem runs_reuse (g : ℕ) : runs step (single g) reuse = some (single ((g + 1) % 2 ^ 32)) := rfl

theorem runs_reuses (n g : ℕ) (hg : g < 2 ^ 32) :
    runs step (single g) (List.replicate n reuse).flatten = some (single ((g + n) % 2 ^ 32)) := by
  induction n generalizing g with
  | zero => rw [Nat.add_zero, Nat.mod_eq_of_lt hg]; rfl
  | succ n ih =>
    have hnext : (g + 1) % 2 ^ 32 < 2 ^ 32 := Nat.mod_lt _ (Nat.two_pow_pos 32)
    rw [List.replicate_succ, List.flatten_cons, runs_append, bind_of_some (runs_reuse g), ih _ hnext,
      Nat.mod_add_mod, Nat.add_assoc, Nat.add_comm 1]

/-- A callback that does nothing loses an object that is still reached, and after all the
generations of a slot the first handle resolves again. -/
theorem gc_heap_fails :
    (∃ s s' : Heap ℕ, runs step Heap.new [.alloc 0, .alloc 1, .setOutgoing ⟨0, 0⟩ [1]] = some s ∧
      s.collect [⟨0, 0⟩] Trace.noop.run = some (1, s') ∧ LiveAt s.slots 1 ∧
      Reached s [⟨0, 0⟩] .noop 1 ∧ ¬ LiveAt s'.slots 1) ∧
    ∃ (acts : List (Act ℕ)) (s : Heap ℕ), runs step Heap.new acts = some s ∧
      ¬ NoRevival acts s := by
  constructor
  · refine ⟨_, _, rfl, rfl, ⟨_, rfl, rfl⟩, ?_, ?_⟩
    · refine Reachable.edge (v := 0) (.root ?_ ?_) (List.mem_singleton_self 1) ⟨_, rfl, rfl⟩
      · exact ⟨⟨0, 0⟩, List.mem_singleton_self _, rfl, _, rfl, rfl⟩
      · exact ⟨_, rfl, rfl⟩
    · rintro ⟨slot, hslot, hlive⟩
      obtain rfl := Option.some.inj hslot
      cases hlive
  · obtain ⟨rest, hrest⟩ : ∃ rest, runs step (single 1) rest = some (single 0) :=
      ⟨_, runs_reuses 4294967295 1 (by decide)⟩
    refine ⟨.alloc 0 :: (reuse ++ rest), single 0, hrest, fun hno => ?_⟩
    have hdead := hno [] 0 [.collect [] (.recompute fun _ => [])] (.alloc 0 :: rest) Heap.new
      ⟨0, 0⟩ (single 0) ⟨[⟨none, [], .white, 1⟩], [0], 0⟩ rfl rfl rfl rfl rfl
    cases hdead

end Conclave.Js.Gc
