import Conclave.Arena.Slab

/-! Handles of a slab never alias. A history remembers which handles a slab issued, with
the values, and which of them were removed since. One invariant ties the slots to it: the
handles issued for a slot are those of the generations it has used, an occupied slot is a
live handle, and the free list visits the vacant slots that have a generation left. -/

namespace Conclave.Arena

open Lib

variable {T : Type}

inductive Op (T : Type)
  | insert (value : T)
  | remove (h : Handle)

/-- A slab with the handles it issued, those of them on which `remove` was called since,
and the panics of `insert`. -/
structure History (T : Type) where
  slab : Slab T
  issued : List (Handle × T)
  removed : List Handle
  panics : List Panic

namespace History

def init : History T := ⟨.new, [], [], []⟩

/-- The handles issued so far. -/
def handles (t : History T) : List Handle := t.issued.map Prod.fst

def step (t : History T) : Op T → History T
  | .insert value =>
    match t.slab.insert value with
    | .ok (h, slab) => { t with slab := slab, issued := t.issued ++ [(h, value)] }
    | .error p => { t with panics := t.panics ++ [p] }
  | .remove h =>
    { t with
      slab := (t.slab.remove h).2
      removed := if h ∈ t.handles then t.removed ++ [h] else t.removed }

def run (t : History T) (ops : List (Op T)) : History T := ops.foldl step t

end History

namespace Slab

/-- The link out of a vacant slot. -/
def nextFree (s : Slab T) (i : ℕ) : Option ℕ :=
  match s.slots[i]? with
  | some (.vacant _ next) => next
  | _ => none

theorem get_eq_some {s : Slab T} {h : Handle} {v : T} :
    s.get h = some v ↔ s.slots[h.index]? = some (.occupied h.generation v) := by
  unfold get
  cases hs : s.slots[h.index]? with
  | none => simp
  | some slot =>
    cases slot with
    | occupied g w =>
      simp only [Option.ite_none_right_eq_some, Option.some.injEq, Slot.occupied.injEq]
    | vacant g next => simp

theorem mem_iter {s : Slab T} {h : Handle} {v : T} :
    (h, v) ∈ s.iter ↔ s.slots[h.index]? = some (.occupied h.generation v) := by
  simp only [iter, List.mem_filterMap, Prod.exists, List.mk_mem_zipIdx_iff_getElem?]
  constructor
  · rintro ⟨slot, i, hs, hv⟩
    cases slot with
    | occupied g w =>
      obtain ⟨rfl, rfl⟩ := Prod.mk.inj (Option.some.inj hv)
      exact hs
    | vacant g next => cases hv
  · intro hs
    exact ⟨_, h.index, hs, rfl⟩

theorem iter_nodup (s : Slab T) : (s.iter.map Prod.fst).Nodup := by
  have hidx : s.slots.zipIdx.Pairwise fun a b => a.2 ≠ b.2 := by
    rw [← List.pairwise_map (f := Prod.snd), List.zipIdx_map_snd]
    exact List.nodup_range'
  rw [List.Nodup, List.pairwise_map, iter, List.pairwise_filterMap]
  refine hidx.imp fun {a b} hab e he e' he' heq => hab ?_
  have hindex : ∀ (a : Slot T × ℕ) (e : Handle × T), entryAt a = some e → e.1.index = a.2 := by
    rintro ⟨slot, i⟩ e he
    cases slot with
    | occupied g w => exact (Option.some.inj he) ▸ rfl
    | vacant g next => cases he
  rw [← hindex a e he, ← hindex b e' he', heq]

theorem iter_length (s : Slab T) : s.iter.length = s.slots.countP Slot.isOccupied := by
  have hsome : ∀ a : Slot T × ℕ, (entryAt a).isSome = (Slot.isOccupied ∘ Prod.fst) a := by
    rintro ⟨slot, i⟩
    cases slot <;> rfl
  rw [iter, List.length_filterMap_eq_countP, funext hsome, ← List.countP_map, List.zipIdx_map_fst]

end Slab

/-! ### The invariant -/

/-- A changed slot. -/
theorem getElem?_set_of {slots : List (Slot T)} {i : ℕ} {old : Slot T}
    (hi : slots[i]? = some old) (new : Slot T) (j : ℕ) :
    (slots.set i new)[j]? = if j = i then some new else slots[j]? := by
  have hlt := (List.getElem?_eq_some_iff.mp hi).1
  rw [List.getElem?_set]
  by_cases hij : i = j
  · subst hij
    simp [hlt]
  · rw [if_neg hij, if_neg (Ne.symm hij)]

/-- What a history keeps; `path` is the free list. -/
structure Inv (t : History T) (path : List ℕ) : Prop where
  bound : t.slab.slots.length ≤ 2 ^ 32
  follows : Follows t.slab.nextFree t.slab.freeHead path
  nodup : path.Nodup
  free : ∀ i ∈ path, ∃ g next, t.slab.slots[i]? = some (.vacant g next)
  retired : ∀ i g next, t.slab.slots[i]? = some (.vacant g next) → i ∉ path → g = 2 ^ 32 - 1
  generations : ∀ (i : ℕ) slot, t.slab.slots[i]? = some slot →
    1 ≤ slot.generation ∧ slot.generation < 2 ^ 32
  issued : ∀ h, h ∈ t.handles ↔ ∃ slot, t.slab.slots[h.index]? = some slot ∧
    1 ≤ h.generation ∧ (h.generation < slot.generation ∨
      h.generation = slot.generation ∧ h.index ∉ path)
  unique : t.handles.Nodup
  removed : ∀ h ∈ t.removed, h ∈ t.handles
  live : ∀ h v, ((h, v) ∈ t.issued ∧ h ∉ t.removed) ↔
    t.slab.slots[h.index]? = some (.occupied h.generation v)
  len : t.slab.len = t.slab.slots.countP Slot.isOccupied
  panics : ∀ p ∈ t.panics, p = .exceeded

theorem inv_init : Inv (History.init : History T) [] where
  bound := by simp [History.init, Slab.new]
  follows := rfl
  nodup := List.nodup_nil
  free := by simp
  retired := by simp [History.init, Slab.new]
  generations := by simp [History.init, Slab.new]
  issued := by simp [History.init, Slab.new, History.handles]
  unique := by simp [History.init, History.handles]
  removed := by simp [History.init]
  live := by simp [History.init, Slab.new]
  len := rfl
  panics := by simp [History.init]

variable {t : History T} {path : List ℕ}

/-- An occupied slot is not free. -/
theorem Inv.not_mem_of_occupied (h : Inv t path) {i g : ℕ} {v : T}
    (hi : t.slab.slots[i]? = some (.occupied g v)) : i ∉ path := by
  intro hm
  obtain ⟨g', next, hv⟩ := h.free i hm
  rw [hi] at hv
  cases hv

/-- The handles issued for one slot are those of the generations it has used. -/
theorem Inv.mem_handles_iff (h : Inv t path) (hd : Handle) {slot : Slot T}
    (hi : t.slab.slots[hd.index]? = some slot) :
    hd ∈ t.handles ↔ 1 ≤ hd.generation ∧ (hd.generation < slot.generation ∨
      hd.generation = slot.generation ∧ hd.index ∉ path) := by
  rw [h.issued]
  constructor
  · rintro ⟨slot', hs, hg⟩
    obtain rfl := Option.some.inj (hs.symm.trans hi)
    exact hg
  · exact fun hg => ⟨slot, hi, hg⟩

theorem Inv.not_live_of_vacant (h : Inv t path) {hd : Handle} {g : ℕ} {next : Option ℕ}
    (hi : t.slab.slots[hd.index]? = some (.vacant g next)) (v : T) :
    ¬ ((hd, v) ∈ t.issued ∧ hd ∉ t.removed) := by
  rw [h.live, hi]
  simp

/-- The first free slot gets its next generation. -/
theorem Inv.reuse {i g : ℕ} {next : Option ℕ} {rest : List ℕ} (h : Inv t (i :: rest))
    (hi : t.slab.slots[i]? = some (.vacant g next)) (v : T) :
    Inv { t with
      slab := ⟨t.slab.slots.set i (.occupied g v), next, t.slab.len + 1⟩
      issued := t.issued ++ [(⟨i, g⟩, v)] } rest := by
  have hset := getElem?_set_of hi (.occupied g v)
  obtain ⟨hir, hnd⟩ := List.nodup_cons.mp h.nodup
  have hne : ∀ j ∈ rest, j ≠ i := fun j hj hji => hir (hji ▸ hj)
  have hg := h.generations i _ hi
  have hnew : (⟨i, g⟩ : Handle) ∉ t.handles := by
    rw [h.mem_handles_iff ⟨i, g⟩ hi]
    rintro ⟨-, hlt | ⟨-, hm⟩⟩
    · exact lt_irrefl _ hlt
    · exact hm List.mem_cons_self
  have hhandles : ({ t with
      slab := ⟨t.slab.slots.set i (.occupied g v), next, t.slab.len + 1⟩
      issued := t.issued ++ [(⟨i, g⟩, v)] } : History T).handles = t.handles ++ [⟨i, g⟩] := by
    simp [History.handles]
  constructor
  case bound => simpa using h.bound
  case follows =>
    obtain ⟨-, hrest⟩ := h.follows
    have hnext : t.slab.nextFree i = next := by simp only [Slab.nextFree, hi]
    rw [hnext] at hrest
    refine hrest.congr fun j hj => ?_
    simp only [Slab.nextFree, hset, if_neg (hne j hj)]
  case nodup => exact hnd
  case free =>
    intro j hj
    rw [hset, if_neg (hne j hj)]
    exact h.free j (List.mem_cons_of_mem i hj)
  case retired =>
    intro j g' next' hj hjr
    rw [hset] at hj
    split_ifs at hj with hji
    · cases Option.some.inj hj
    · exact h.retired j g' next' hj fun hm => (List.mem_cons.mp hm).elim hji hjr
  case generations =>
    intro j slot hj
    rw [hset] at hj
    split_ifs at hj with hji
    · obtain rfl := Option.some.inj hj
      exact hg
    · exact h.generations j slot hj
  case issued =>
    intro hd
    rw [hhandles, List.mem_append, List.mem_singleton, hset]
    by_cases hji : hd.index = i
    · subst hji
      rw [h.mem_handles_iff _ hi, if_pos rfl]
      simp only [Slot.generation, Option.some.injEq, exists_eq_left', List.mem_cons_self,
        not_true_eq_false, and_false, or_false, Handle.ext_iff, true_and, hir, not_false_eq_true,
        and_true]
      have := hg.1
      simp only [Slot.generation] at this
      omega
    · rw [h.issued, if_neg hji]
      have hne' : hd ≠ ⟨i, g⟩ := fun heq => hji (heq ▸ rfl)
      simp only [List.mem_cons, hji, false_or, hne', or_false]
  case unique =>
    rw [hhandles]
    exact List.nodup_append.mpr ⟨h.unique, List.nodup_singleton _, fun x hx y hy hxy =>
      hnew (List.mem_singleton.mp hy ▸ hxy ▸ hx)⟩
  case removed =>
    intro hd hr
    rw [hhandles]
    exact List.mem_append_left _ (h.removed hd hr)
  case live =>
    intro hd w
    rw [List.mem_append, List.mem_singleton, hset]
    by_cases hji : hd.index = i
    · subst hji
      have hold := h.not_live_of_vacant hi w
      rw [if_pos rfl]
      simp only [Option.some.injEq, Slot.occupied.injEq, Prod.mk.injEq, Handle.ext_iff, true_and]
      constructor
      · rintro ⟨hm | ⟨hgen, rfl⟩, hr⟩
        · exact absurd ⟨hm, hr⟩ hold
        · exact ⟨hgen.symm, rfl⟩
      · rintro ⟨hgen, rfl⟩
        refine ⟨.inr ⟨hgen.symm, rfl⟩, fun hr => hnew ?_⟩
        rw [hgen]
        exact h.removed hd hr
    · rw [if_neg hji, ← h.live]
      have hne' : (hd, w) ≠ (⟨i, g⟩, v) := fun heq => hji (by cases heq; rfl)
      simp only [hne', or_false]
  case len =>
    obtain ⟨hlt, hsi⟩ := List.getElem?_eq_some_iff.mp hi
    simp only [List.countP_set hlt, hsi, Slot.isOccupied, h.len]
    simp
  case panics => exact h.panics

/-- Without a free slot a new one is appended. -/
theorem Inv.append (h : Inv t []) (hlt : t.slab.slots.length < 2 ^ 32) (v : T) :
    Inv { t with
      slab := ⟨t.slab.slots ++ [.occupied 1 v], none, t.slab.len + 1⟩
      issued := t.issued ++ [(⟨t.slab.slots.length, 1⟩, v)] } [] := by
  have hget : ∀ j : ℕ, (t.slab.slots ++ [.occupied 1 v])[j]? =
      if j = t.slab.slots.length then some (.occupied 1 v) else t.slab.slots[j]? := by
    intro j
    rw [List.getElem?_append]
    split_ifs with h₁ h₂ h₃
    · omega
    · rfl
    · simp [h₃]
    · rw [List.getElem?_eq_none (by simp; omega), List.getElem?_eq_none (by omega)]
  have hfresh : ∀ hd ∈ t.handles, hd.index ≠ t.slab.slots.length := by
    intro hd hm heq
    obtain ⟨slot, hs, -⟩ := (h.issued hd).mp hm
    rw [heq, List.getElem?_eq_none le_rfl] at hs
    cases hs
  have hhandles : ({ t with
      slab := ⟨t.slab.slots ++ [.occupied 1 v], none, t.slab.len + 1⟩
      issued := t.issued ++ [(⟨t.slab.slots.length, 1⟩, v)] } : History T).handles =
        t.handles ++ [⟨t.slab.slots.length, 1⟩] := by
    simp [History.handles]
  constructor
  case bound => simpa using hlt
  case follows => rfl
  case nodup => exact List.nodup_nil
  case free => simp
  case retired =>
    intro j g next hj hjr
    rw [hget] at hj
    split_ifs at hj
    · cases Option.some.inj hj
    · exact h.retired j g next hj hjr
  case generations =>
    intro j slot hj
    rw [hget] at hj
    split_ifs at hj
    · obtain rfl := Option.some.inj hj
      exact ⟨le_rfl, by norm_num [Slot.generation]⟩
    · exact h.generations j slot hj
  case issued =>
    intro hd
    rw [hhandles, List.mem_append, List.mem_singleton, hget]
    by_cases hji : hd.index = t.slab.slots.length
    · have hold : hd ∉ t.handles := fun hm => hfresh hd hm hji
      rw [if_pos hji]
      simp only [hold, false_or, Option.some.injEq, exists_eq_left', Slot.generation,
        List.not_mem_nil, not_false_eq_true, and_true, Handle.ext_iff, hji, true_and]
      omega
    · rw [h.issued, if_neg hji]
      have hne : hd ≠ ⟨t.slab.slots.length, 1⟩ := fun heq => hji (heq ▸ rfl)
      simp only [hne, or_false]
  case unique =>
    rw [hhandles]
    refine List.nodup_append.mpr ⟨h.unique, List.nodup_singleton _, fun x hx y hy hxy => ?_⟩
    obtain rfl := List.mem_singleton.mp hy
    exact hfresh x hx (hxy ▸ rfl)
  case removed =>
    intro hd hr
    rw [hhandles]
    exact List.mem_append_left _ (h.removed hd hr)
  case live =>
    intro hd w
    rw [List.mem_append, List.mem_singleton, hget]
    by_cases hji : hd.index = t.slab.slots.length
    · have hold : (hd, w) ∉ t.issued := fun hm => hfresh hd (List.mem_map_of_mem hm) hji
      have hr : hd ∉ t.removed := fun hm => hfresh hd (h.removed hd hm) hji
      rw [if_pos hji]
      simp only [hold, false_or, hr, not_false_eq_true, and_true, Prod.mk.injEq, Handle.ext_iff,
        hji, true_and, Option.some.injEq, Slot.occupied.injEq]
      exact ⟨fun hh => ⟨hh.1.symm, hh.2.symm⟩, fun hh => ⟨hh.1.symm, hh.2.symm⟩⟩
    · rw [if_neg hji, ← h.live]
      have hne : (hd, w) ≠ (⟨t.slab.slots.length, 1⟩, v) := fun heq => hji (by cases heq; rfl)
      simp only [hne, or_false]
  case len => simp [h.len, Slot.isOccupied]
  case panics => exact h.panics

/-- A live handle is removed and its slot becomes vacant. The slot is on the new free
list with its next generation, or off it with none left. -/
theorem Inv.vacateTo (h : Inv t path) {hd : Handle} {v : T}
    (hi : t.slab.slots[hd.index]? = some (.occupied hd.generation v)) {g : ℕ}
    {next head : Option ℕ} {path' : List ℕ} (hg : 1 ≤ g ∧ g < 2 ^ 32)
    (hpath : ∀ j, j ≠ hd.index → (j ∈ path' ↔ j ∈ path))
    (hfollows : Follows (⟨t.slab.slots.set hd.index (.vacant g next), head, t.slab.len - 1⟩ :
      Slab T).nextFree head path')
    (hnodup : path'.Nodup)
    (hout : hd.index ∉ path' → g = 2 ^ 32 - 1 ∧ hd.generation = 2 ^ 32 - 1)
    (hin : hd.index ∈ path' → g = hd.generation + 1) :
    Inv { t with
      slab := ⟨t.slab.slots.set hd.index (.vacant g next), head, t.slab.len - 1⟩
      removed := t.removed ++ [hd] } path' := by
  have hset := getElem?_set_of hi (.vacant g next)
  have hip := h.not_mem_of_occupied hi
  have hlive := (h.live hd v).mpr hi
  constructor
  case bound => simpa using h.bound
  case follows => exact hfollows
  case nodup => exact hnodup
  case free =>
    intro j hj
    rw [hset]
    split_ifs with hji
    · exact ⟨g, next, rfl⟩
    · exact h.free j ((hpath j hji).mp hj)
  case retired =>
    intro j g' next' hj hjp
    rw [hset] at hj
    split_ifs at hj with hji
    · subst hji
      obtain ⟨rfl, -⟩ := Slot.vacant.inj (Option.some.inj hj)
      exact (hout hjp).1
    · exact h.retired j g' next' hj fun hm => hjp ((hpath j hji).mpr hm)
  case generations =>
    intro j slot hj
    rw [hset] at hj
    split_ifs at hj with hji
    · rw [← Option.some.inj hj]
      exact hg
    · exact h.generations j slot hj
  case issued =>
    intro hd'
    change hd' ∈ t.handles ↔ _
    rw [hset]
    by_cases hji : hd'.index = hd.index
    · rw [h.mem_handles_iff _ (hji ▸ hi), if_pos hji]
      simp only [Option.some.injEq, exists_eq_left', hji, hip, not_false_eq_true, and_true,
        Slot.generation]
      by_cases hmp : hd.index ∈ path'
      · have := hin hmp
        simp only [hmp, not_true_eq_false, and_false, or_false]
        omega
      · have := hout hmp
        simp only [hmp, not_false_eq_true, and_true]
        omega
    · rw [h.issued, if_neg hji]
      simp only [hpath _ hji]
  case unique => exact h.unique
  case removed =>
    intro hd' hr
    obtain hr | hr := List.mem_append.mp hr
    · exact h.removed hd' hr
    · rw [List.mem_singleton.mp hr]
      exact List.mem_map_of_mem hlive.1
  case live =>
    intro hd' w
    rw [hset, List.mem_append, List.mem_singleton, not_or, ← and_assoc, h.live]
    by_cases hji : hd'.index = hd.index
    · rw [if_pos hji, hji, hi]
      simp only [Option.some.injEq, Slot.occupied.injEq, reduceCtorEq, iff_false, not_and]
      rintro ⟨hgen, -⟩
      exact not_not.mpr (Handle.ext hji hgen.symm)
    · rw [if_neg hji]
      exact and_iff_left fun heq => hji (heq ▸ rfl)
  case len =>
    obtain ⟨hlt, hsi⟩ := List.getElem?_eq_some_iff.mp hi
    simp only [List.countP_set hlt, hsi, Slot.isOccupied, h.len]
    simp
  case panics => exact h.panics

/-- A removed handle leaves its slot vacant, in front of the free list while a
generation is left. -/
theorem Inv.vacate (h : Inv t path) {hd : Handle} {v : T}
    (hi : t.slab.slots[hd.index]? = some (.occupied hd.generation v)) :
    ∃ path', Inv { t with slab := (t.slab.remove hd).2, removed := t.removed ++ [hd] } path' := by
  have hgen := h.generations _ _ hi
  simp only [Slot.generation] at hgen
  have hip := h.not_mem_of_occupied hi
  simp only [Slab.remove, hi, ↓reduceIte, Slab.vacated]
  by_cases hlt : hd.generation + 1 < 2 ^ 32
  · have hset := getElem?_set_of hi (.vacant (hd.generation + 1) t.slab.freeHead)
    simp only [if_pos hlt, ↓reduceIte]
    refine ⟨hd.index :: path, h.vacateTo hi ⟨by omega, hlt⟩ (fun j hj => by simp [hj]) ?_
      (List.nodup_cons.mpr ⟨hip, h.nodup⟩) (fun hout => absurd List.mem_cons_self hout)
      fun _ => rfl⟩
    refine h.follows.push ?_ fun j hj => ?_
    · simp only [Slab.nextFree, hset, ↓reduceIte]
    · have hji : j ≠ hd.index := fun heq => hip (heq ▸ hj)
      simp only [Slab.nextFree, hset, if_neg hji]
  · have hset := getElem?_set_of hi (.vacant hd.generation none)
    simp only [if_neg hlt, Bool.false_eq_true, ↓reduceIte]
    refine ⟨path, h.vacateTo hi hgen (fun _ _ => Iff.rfl) ?_ h.nodup
      (fun _ => ⟨by omega, by omega⟩) fun hin => absurd hin hip⟩
    refine h.follows.congr fun j hj => ?_
    have hji : j ≠ hd.index := fun heq => hip (heq ▸ hj)
    simp only [Slab.nextFree, hset, if_neg hji]

/-! ### Runs -/

theorem Inv.insert (h : Inv t path) (v : T) : ∃ path', Inv (t.step (.insert v)) path' := by
  simp only [History.step, Slab.insert]
  cases hf : t.slab.freeHead with
  | none =>
    have hfollows := h.follows
    rw [hf] at hfollows
    obtain rfl := hfollows.eq_nil
    by_cases hlt : t.slab.slots.length < 2 ^ 32
    · simp only [if_pos hlt]
      exact ⟨[], h.append hlt v⟩
    · simp only [if_neg hlt]
      refine ⟨[], { h with panics := fun p hp => ?_ }⟩
      obtain hp | hp := List.mem_append.mp hp
      · exact h.panics p hp
      · exact List.mem_singleton.mp hp
  | some i =>
    have hfollows := h.follows
    rw [hf] at hfollows
    obtain ⟨rest, rfl, -⟩ := hfollows.pop
    obtain ⟨g, next, hi⟩ := h.free i List.mem_cons_self
    simp only [hi]
    exact ⟨rest, h.reuse hi v⟩

theorem Inv.remove (h : Inv t path) (hd : Handle) :
    ∃ path', Inv (t.step (.remove hd)) path' := by
  simp only [History.step]
  cases hget : t.slab.get hd with
  | some v =>
    have hi := Slab.get_eq_some.mp hget
    have hmem : hd ∈ t.handles := List.mem_map_of_mem ((h.live hd v).mpr hi).1
    rw [if_pos hmem]
    exact h.vacate hi
  | none =>
    have hrem : (t.slab.remove hd).2 = t.slab := by
      unfold Slab.remove
      unfold Slab.get at hget
      split at hget
      · split_ifs at hget with hg
        simp only [if_neg hg]
      · rfl
    rw [hrem]
    refine ⟨path, ?_⟩
    split_ifs with hmem
    · -- a handle that was issued and is not live was removed before
      have hr : hd ∈ t.removed := by
        obtain ⟨⟨hd', v⟩, hv, rfl⟩ := List.mem_map.mp hmem
        by_contra hr
        have hi := (h.live hd' v).mp ⟨hv, hr⟩
        rw [Slab.get_eq_some.mpr hi] at hget
        cases hget
      have hsame : ∀ x, x ∈ t.removed ++ [hd] ↔ x ∈ t.removed := fun x => by
        rw [List.mem_append, List.mem_singleton]
        exact or_iff_left_of_imp fun hx => hx ▸ hr
      exact { h with
        removed := fun x hx => h.removed x ((hsame x).mp hx)
        live := fun x v => by
          rw [hsame]
          exact h.live x v }
    · exact h

theorem Inv.run (h : Inv t path) (ops : List (Op T)) : ∃ path', Inv (t.run ops) path' := by
  induction ops generalizing t path with
  | nil => exact ⟨path, h⟩
  | cons op ops ih =>
    obtain ⟨path', h'⟩ : ∃ path', Inv (t.step op) path' := by
      cases op with
      | insert v => exact h.insert v
      | remove hd => exact h.remove hd
    exact ih h'

theorem Inv.get_eq (h : Inv t path) {hd : Handle} {v : T} (hm : (hd, v) ∈ t.issued) :
    t.slab.get hd = if hd ∈ t.removed then none else some v := by
  split_ifs with hr
  · cases hget : t.slab.get hd with
    | none => rfl
    | some w => exact absurd hr ((h.live hd w).mpr (Slab.get_eq_some.mp hget)).2
  · exact Slab.get_eq_some.mpr ((h.live hd v).mp ⟨hm, hr⟩)

theorem Inv.get_eq_none (h : Inv t path) {hd : Handle} (hm : hd ∉ t.handles) :
    t.slab.get hd = none := by
  cases hget : t.slab.get hd with
  | none => rfl
  | some v =>
    have hlive := (h.live hd v).mpr (Slab.get_eq_some.mp hget)
    exact absurd (List.mem_map_of_mem hlive.1) hm

theorem Inv.mem_iter_iff (h : Inv t path) (hd : Handle) (v : T) :
    (hd, v) ∈ t.slab.iter ↔ (hd, v) ∈ t.issued ∧ hd ∉ t.removed := by
  rw [Slab.mem_iter, h.live]

theorem Inv.len_eq (h : Inv t path) :
    t.slab.len = (t.issued.filter fun e => e.1 ∉ t.removed).length := by
  have hperm : t.slab.iter.Perm (t.issued.filter fun e => e.1 ∉ t.removed) := by
    refine (List.perm_ext_iff_of_nodup t.slab.iter_nodup.of_map
      (h.unique.of_map.filter _)).mpr fun e => ?_
    rw [h.mem_iter_iff e.1 e.2, List.mem_filter, decide_eq_true_iff]
  rw [h.len, ← Slab.iter_length, hperm.length_eq]

/-- The free list is the vacant slots whose last generation was not issued. -/
theorem Inv.mem_path_iff (h : Inv t path) (i : ℕ) :
    i ∈ path ↔ (∃ g next, t.slab.slots[i]? = some (.vacant g next)) ∧
      ⟨i, 2 ^ 32 - 1⟩ ∉ t.handles := by
  constructor
  · intro hm
    obtain ⟨g, next, hi⟩ := h.free i hm
    have hg := h.generations i _ hi
    simp only [Slot.generation] at hg
    refine ⟨⟨g, next, hi⟩, ?_⟩
    rw [h.mem_handles_iff ⟨i, 2 ^ 32 - 1⟩ hi]
    simp only [Slot.generation, hm, not_true_eq_false, and_false, or_false, not_and]
    omega
  · rintro ⟨⟨g, next, hi⟩, hlast⟩
    by_contra hm
    refine hlast ((h.mem_handles_iff ⟨i, 2 ^ 32 - 1⟩ hi).mpr ⟨by norm_num, .inr ⟨?_, hm⟩⟩)
    exact (h.retired i g next hi hm).symm

/-- After every sequence of operations: no arm marked unreachable was reached; no handle
was issued twice; a handle gives its value until it is removed and nothing from then on,
and a handle never issued gives nothing; the length is the number of live handles; the
free list is a path without repetition through the vacant slots that have a generation
left; and iteration gives every live handle once. -/
theorem slab_handles (ops : List (Op T)) :
    let t := History.init.run ops
    (∀ p ∈ t.panics, p = .exceeded) ∧ t.handles.Nodup ∧
      (∀ h v, (h, v) ∈ t.issued → t.slab.get h = if h ∈ t.removed then none else some v) ∧
      (∀ h, h ∉ t.handles → t.slab.get h = none) ∧
      t.slab.len = (t.issued.filter fun e => e.1 ∉ t.removed).length ∧
      (∃ path, Follows t.slab.nextFree t.slab.freeHead path ∧ path.Nodup ∧
        ∀ i, i ∈ path ↔ (∃ g next, t.slab.slots[i]? = some (.vacant g next)) ∧
          ⟨i, 2 ^ 32 - 1⟩ ∉ t.handles) ∧
      (t.slab.iter.map Prod.fst).Nodup ∧
        ∀ h v, (h, v) ∈ t.slab.iter ↔ (h, v) ∈ t.issued ∧ h ∉ t.removed := by
  intro t
  obtain ⟨path, h⟩ := (inv_init (T := T)).run ops
  exact ⟨h.panics, h.unique, fun _ _ hm => h.get_eq hm, fun _ hm => h.get_eq_none hm, h.len_eq,
    ⟨path, h.follows, h.nodup, h.mem_path_iff⟩, t.slab.iter_nodup, h.mem_iter_iff⟩

/-- A slot that is used again answers to its new handle only. -/
example :
    let t := History.init.run [.insert 'a', .insert 'b', .remove ⟨0, 1⟩, .insert 'c']
    t.handles = [⟨0, 1⟩, ⟨1, 1⟩, ⟨0, 2⟩] ∧ t.slab.get ⟨0, 1⟩ = none ∧
      t.slab.get ⟨0, 2⟩ = some 'c' := by decide

end Conclave.Arena
