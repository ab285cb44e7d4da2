import Conclave.Js.Operations

/-! What the inline-cache guards look at: the structure version, the cached shape and
the header of a map. An operation draws a new version unless it leaves the keys alone,
it keeps or resets the cached shape, and it keeps the header in step with the store. -/

namespace Conclave.Js

open Lib OrderedMap

namespace OrderedMap

variable {V : Type} {g g' g₁ : Globals} {m m' m₁ : OrderedMap V}

/-- The header is the stored shape of a shaped map, `DICT_SHAPE` for one that was
shaped, and `BORN_DICT_SHAPE` for one that never was. -/
def HeaderOk (wasShaped : Bool) (m : OrderedMap V) : Prop :=
  match m.store with
  | .shaped shape _ => wasShaped = true ∧ m.shapeHeader = shape
  | .dict .. => m.shapeHeader = if wasShaped then DICT_SHAPE else BORN_DICT_SHAPE

/-- What an operation does to what the guards look at. -/
structure Turn (g g' : Globals) (m m' : OrderedMap V) : Prop where
  draws : g.nextStructVer ≤ g'.nextStructVer
  ver : (m'.structVer = m.structVer ∧ m'.keys g' = m.keys g) ∨
    ∃ n, g.nextStructVer ≤ n ∧ n < g'.nextStructVer ∧ m'.structVer = n % 2 ^ 64
  cache : m'.cachedShape = m.cachedShape ∨ m'.cachedShape = (0, 0)
  header : ∀ wasShaped, m.HeaderOk wasShaped → m'.HeaderOk wasShaped

theorem Turn.refl (g : Globals) (m : OrderedMap V) : Turn g g m m :=
  ⟨le_rfl, .inl ⟨rfl, rfl⟩, .inl rfl, fun _ h => h⟩

theorem Turn.trans (h : Turn g g₁ m m₁) (h' : Turn g₁ g' m₁ m') : Turn g g' m m' where
  draws := h.draws.trans h'.draws
  ver := by
    obtain ⟨hv', hk'⟩ | ⟨n, hn, hlt, hv'⟩ := h'.ver
    · obtain ⟨hv, hk⟩ | ⟨n, hn, hlt, hv⟩ := h.ver
      · exact .inl ⟨hv'.trans hv, hk'.trans hk⟩
      · exact .inr ⟨n, hn, hlt.trans_le h'.draws, hv'.trans hv⟩
    · exact .inr ⟨n, h.draws.trans hn, hlt, hv'⟩
  cache := by
    obtain hc | hc := h'.cache
    · rw [hc]
      exact h.cache
    · exact .inr hc
  header b hb := h'.header b (h.header b hb)

/-- A new version accounts for any change of the keys. -/
theorem turn_of_bump (m m₁ : OrderedMap V) (hn : g.nextStructVer ≤ g₁.nextStructVer)
    (hc : m₁.cachedShape = m.cachedShape ∨ m₁.cachedShape = (0, 0))
    (hh : ∀ wasShaped, m.HeaderOk wasShaped → m₁.HeaderOk wasShaped) :
    Turn g (m₁.bumpStructVer g₁).2 m (m₁.bumpStructVer g₁).1 where
  draws := hn.trans (Nat.le_succ _)
  ver := .inr ⟨g₁.nextStructVer, hn, Nat.lt_succ_self _, rfl⟩
  cache := hc
  header := hh

theorem Turn.resetShapeCache (h : Turn g g' m m') : Turn g g' m m'.resetShapeCache :=
  ⟨h.draws, h.ver, .inr rfl, h.header⟩

theorem modifySlot_turn (m : OrderedMap V) (g : Globals) (i : ℕ) (u : V → V) :
    Turn g g m (m.modifySlot i u) := by
  obtain ⟨store, ver, cache⟩ := m
  cases store with
  | dict entries index =>
    exact ⟨le_rfl, .inl ⟨rfl, Entries.keys_modifyAt entries i u⟩, .inl rfl, fun _ h => h⟩
  | shaped shape slots => exact ⟨le_rfl, .inl ⟨rfl, rfl⟩, .inl rfl, fun _ h => h⟩

theorem getMut_turn (m : OrderedMap V) (g : Globals) (k : String) (u : V → V) :
    Turn g g m (m.getMut g k u).2 := by
  rw [getMut_eq]
  cases m.slotOf g k with
  | none => exact .refl g m
  | some i => exact modifySlot_turn m g i u

/-- A fall back to a dictionary is a new version, and the header says so. -/
theorem deoptToDict_turn (m : OrderedMap V) (g : Globals) :
    Turn g (m.deoptToDict g).2 m (m.deoptToDict g).1 := by
  obtain ⟨store, ver, cache⟩ := m
  cases store with
  | dict entries index => exact .refl _ _
  | shaped shape slots =>
    refine ⟨Nat.le_succ _, .inr ⟨g.nextStructVer, le_rfl, Nat.lt_succ_self _, rfl⟩, .inr rfl, ?_⟩
    rintro b ⟨rfl, -⟩
    rfl

theorem deoptToDict_dict (m : OrderedMap V) (g : Globals) :
    ∃ entries index, (m.deoptToDict g).1.store = .dict entries index := by
  obtain ⟨store, ver, cache⟩ := m
  cases store <;> exact ⟨_, _, rfl⟩

/-! ### Dictionary operations -/

section Dict

variable {entries : List (String × V)} {index : Index String}

theorem dictInsert_turn (hm : m.store = .dict entries index) (g : Globals) (k : String) (v : V) :
    Turn g (m.dictInsert g k v).2.2 m (m.dictInsert g k v).2.1 := by
  obtain ⟨store, ver, cache⟩ := m
  obtain rfl : store = .dict entries index := hm
  cases hix : index k with
  | some i =>
    simp only [dictInsert, hix]
    exact modifySlot_turn ⟨.dict entries index, ver, cache⟩ g i fun _ => v
  | none =>
    simp only [dictInsert, hix]
    exact turn_of_bump _ _ le_rfl (.inl rfl) fun _ h => h

theorem dictGetOrInsertWith_turn (hm : m.store = .dict entries index) (g : Globals) (k : String)
    (f : Unit → V) (u : V → V) :
    Turn g (m.dictGetOrInsertWith g k f u).2.2 m (m.dictGetOrInsertWith g k f u).2.1 := by
  obtain ⟨store, ver, cache⟩ := m
  obtain rfl : store = .dict entries index := hm
  cases hix : index k with
  | some i =>
    simp only [dictGetOrInsertWith, hix]
    exact modifySlot_turn ⟨.dict entries index, ver, cache⟩ g i u
  | none =>
    simp only [dictGetOrInsertWith, hix]
    exact turn_of_bump _ _ le_rfl (.inl rfl) fun _ h => h

theorem dictRemove_turn (hm : m.store = .dict entries index) (g : Globals) (k : String) :
    Turn g (m.dictRemove g k).2.2 m (m.dictRemove g k).2.1 := by
  obtain ⟨store, ver, cache⟩ := m
  obtain rfl : store = .dict entries index := hm
  cases hix : index k with
  | none =>
    simp only [dictRemove, hix]
    exact .refl _ _
  | some i =>
    simp only [dictRemove, hix]
    refine Turn.resetShapeCache ?_
    exact turn_of_bump _ _ le_rfl (.inl rfl) fun _ h => h

end Dict

/-! ### Operations -/

section Shaped

variable {shape : ℕ} {slots : List V}

/-- The forms in which `shaped_intern_slot` returns: a dictionary, the map as it was, or
the map moved to another shape with the value of its last slot still to come. -/
theorem shapedInternSlot_forms (hm : m.store = .shaped shape slots) (g : Globals) (k : String) :
    m.shapedInternSlot g k = (.deopted, m.deoptToDict g) ∨
      (∃ i, m.shapedInternSlot g k = (.slot i, m, g)) ∨
      ∃ shape' table, m.shapedInternSlot g k = (.slot slots.length,
        { m with store := .shaped shape' slots, shapeCache := { m.shapeCache with header := shape' } },
        { g with table := table }) := by
  unfold shapedInternSlot
  split_ifs with hforce
  · exact .inl rfl
  · simp only [hm]
    cases (g.table.shape shape).lookup k with
    | some i => exact .inr (.inl ⟨i, rfl⟩)
    | none =>
      simp only
      split_ifs with hcap
      · exact .inl rfl
      · exact .inr (.inr ⟨_, _, rfl⟩)

/-- The value that completes a slot comes with a new version. -/
theorem push_turn (m₁ : OrderedMap V) (hm : m.store = .shaped shape slots) {shape' : ℕ} {slots' : List V}
    (hn : g.nextStructVer ≤ g₁.nextStructVer) (hs : m₁.store = .shaped shape' slots)
    (hc : m₁.cachedShape = m.cachedShape) (hh : m₁.shapeHeader = shape' ∨ m₁ = m) :
    Turn g ({ m₁ with store := .shaped shape' slots' }.bumpStructVer g₁).2 m
      ({ m₁ with store := .shaped shape' slots' }.bumpStructVer g₁).1 := by
  refine turn_of_bump _ _ hn (.inl hc) fun b hb => ?_
  unfold HeaderOk at hb ⊢
  rw [hm] at hb
  obtain hh | rfl := hh
  · exact ⟨hb.1, hh⟩
  · obtain ⟨rfl, -⟩ := Store.shaped.inj (hm.symm.trans hs)
    exact hb

theorem insert_turn (m : OrderedMap V) (g : Globals) (k : String) (v : V) :
    Turn g (m.insert g k v).2.2 m (m.insert g k v).2.1 := by
  cases hm : m.store with
  | dict entries index =>
    simp only [insert, hm]
    exact dictInsert_turn hm g k v
  | shaped shape slots =>
    obtain hr | ⟨i, hr⟩ | ⟨shape', table, hr⟩ := shapedInternSlot_forms hm g k
    · obtain ⟨entries, index, hd⟩ := m.deoptToDict_dict g
      simp only [insert, hm, hr]
      exact (m.deoptToDict_turn g).trans (dictInsert_turn hd _ k v)
    · simp only [insert, hm, hr]
      split_ifs with hi
      · have := modifySlot_turn m g i fun _ => v
        simpa only [modifySlot, hm, ← List.set_eq_modify] using this
      · exact push_turn m hm le_rfl hm rfl (.inr rfl)
    · simp only [insert, hm, hr, lt_irrefl, ↓reduceIte]
      exact push_turn ⟨.shaped shape' slots, _, _⟩ hm le_rfl rfl rfl (.inl rfl)

theorem getOrInsertWith_turn (m : OrderedMap V) (g : Globals) (k : String) (f : Unit → V)
    (u : V → V) : Turn g (m.getOrInsertWith g k f u).2.2 m (m.getOrInsertWith g k f u).2.1 := by
  cases hm : m.store with
  | dict entries index =>
    simp only [getOrInsertWith, hm]
    exact dictGetOrInsertWith_turn hm g k f u
  | shaped shape slots =>
    obtain hr | ⟨i, hr⟩ | ⟨shape', table, hr⟩ := shapedInternSlot_forms hm g k
    · obtain ⟨entries, index, hd⟩ := m.deoptToDict_dict g
      simp only [getOrInsertWith, hm, hr]
      exact (m.deoptToDict_turn g).trans (dictGetOrInsertWith_turn hd _ k f u)
    · simp only [getOrInsertWith, hm, hr]
      split_ifs with hi
      · exact push_turn m hm le_rfl hm rfl (.inr rfl)
      · have := modifySlot_turn m g i u
        simpa only [modifySlot, hm] using this
    · simp only [getOrInsertWith, hm, hr, ↓reduceIte]
      exact push_turn ⟨.shaped shape' slots, _, _⟩ hm le_rfl rfl rfl (.inl rfl)

end Shaped

theorem remove_turn (m : OrderedMap V) (g : Globals) (k : String) :
    Turn g (m.remove g k).2.2 m (m.remove g k).2.1 := by
  cases hm : m.store with
  | dict entries index =>
    simp only [remove, hm]
    exact dictRemove_turn hm g k
  | shaped shape slots =>
    simp only [remove, hm]
    cases (g.table.shape shape).lookup k with
    | none => exact .refl g m
    | some i =>
      obtain ⟨entries, index, hd⟩ := m.deoptToDict_dict g
      exact (m.deoptToDict_turn g).trans (dictRemove_turn hd _ k)

theorem clear_turn (m : OrderedMap V) (g : Globals) :
    Turn g (m.clear g).2 m (m.clear g).1 := by
  obtain ⟨store, ver, cache⟩ := m
  cases store with
  | dict entries index =>
    have h := turn_of_bump ⟨.dict entries index, ver, cache⟩ ⟨.dict [] Index.empty, ver, cache⟩
      (le_refl g.nextStructVer) (.inl rfl) fun _ h => h
    exact h.resetShapeCache
  | shaped shape slots =>
    refine (turn_of_bump _ _ le_rfl (.inr rfl) ?_).resetShapeCache
    rintro b ⟨rfl, -⟩
    rfl

theorem retain_turn (m : OrderedMap V) (g : Globals) (f : Keep V) :
    Turn g (m.retain g f).2 m (m.retain g f).1 := by
  obtain ⟨entries, index, hd⟩ := m.deoptToDict_dict g
  refine (m.deoptToDict_turn g).trans ?_
  simp only [retain, hd]
  refine Turn.resetShapeCache ?_
  refine turn_of_bump _ _ le_rfl (.inl rfl) fun b hb => ?_
  unfold HeaderOk at hb
  rwa [hd] at hb

theorem drain_turn (m : OrderedMap V) (g : Globals) :
    Turn g (m.drain g).2.2 m (m.drain g).2.1 := by
  obtain ⟨entries, index, hd⟩ := m.deoptToDict_dict g
  refine (m.deoptToDict_turn g).trans ?_
  simp only [drain, resetShapeCache, bumpStructVer_store, hd]
  refine ⟨Nat.le_succ _, .inr ⟨_, le_rfl, Nat.lt_succ_self _, rfl⟩, .inr rfl, fun b hb => ?_⟩
  unfold HeaderOk at hb
  rwa [hd] at hb

theorem extend_turn (es : List (String × V)) (m : OrderedMap V) (g : Globals) :
    Turn g (extend es m g).2 m (extend es m g).1 := by
  induction es generalizing m g with
  | nil => exact .refl g m
  | cons e es ih => exact (insert_turn m g e.1 e.2).trans (ih _ _)

theorem intoIter_turn (m : OrderedMap V) (g : Globals) : Turn g (m.intoIter g).2 m m := by
  have hn : g.nextStructVer ≤ (m.intoIter g).2.nextStructVer := by
    unfold intoIter
    simp only
    split <;> exact (m.deoptToDict_turn g).draws
  refine ⟨hn, .inl ⟨rfl, ?_⟩, .inl rfl, fun _ h => h⟩
  unfold keys
  rw [intoIter_table]

theorem apply_turn (m : OrderedMap V) (g : Globals) (op : MapOp V) :
    Turn g (m.apply g op).2.2 m (m.apply g op).2.1 := by
  cases op with
  | insert k v => exact insert_turn m g k v
  | getMut k u => exact getMut_turn m g k u
  | getOrInsertWith k f u => exact getOrInsertWith_turn m g k f u
  | remove k => exact remove_turn m g k
  | clear => exact clear_turn m g
  | retain f => exact retain_turn m g f
  | drain => exact drain_turn m g
  | extend es => exact extend_turn es m g
  | setAtSlot slot v =>
    simp only [apply, setAtSlot_eq]
    exact modifySlot_turn m g slot _
  | intoIter => exact intoIter_turn m g
  | _ => exact .refl g m

end OrderedMap

end Conclave.Js
