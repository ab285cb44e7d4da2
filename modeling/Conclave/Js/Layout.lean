import Conclave.Js.Ordered

/-! What the operations of an ordered map do to its entries. A map is laid out well
when its slots are as many as the keys of its shape, or its index gives the position
of every key. Each operation keeps that and acts on the entry list as the operation
by key, however the map is stored. -/

namespace Conclave.Js

open Lib

namespace OrderedMap

variable {V : Type} {g g' : Globals} {m m' : OrderedMap V}

/-- The layout of a map over a table. -/
def Valid (g : Globals) (m : OrderedMap V) : Prop :=
  match m.store with
  | .shaped shape slots => shape < g.table.shapes.length ∧
      (g.table.shape shape).properties.length = slots.length
  | .dict entries index => index.Of (Entries.keys entries)

/-- Of the state after an operation: the table is in order and extends the old one,
the map is laid out well and has the entries `es`. -/
structure After (g g' : Globals) (m' : OrderedMap V) (es : List (String × V)) : Prop where
  ok : g'.table.Ok
  grows : g.table.Extends g'.table
  valid : m'.Valid g'
  iter : m'.iter g' = es

theorem Valid.mono (h : m.Valid g) (hext : g.table.Extends g'.table) :
    m.Valid g' ∧ m.iter g' = m.iter g := by
  obtain ⟨store, ver, cache⟩ := m
  cases store with
  | dict entries index => exact ⟨h, rfl⟩
  | shaped shape slots =>
    obtain ⟨hlt, hlen⟩ := h
    obtain ⟨hp, -⟩ := hext.keeps shape hlt
    exact ⟨⟨hlt.trans_le hext.length, by rw [hp, hlen]⟩, by simp only [iter, hp]⟩

theorem Valid.after (hok : g.table.Ok) (h : m.Valid g) : After g g m (m.iter g) :=
  ⟨hok, .refl _, h, rfl⟩

/-- The keys of a well laid out map. -/
theorem Valid.keys_eq (h : m.Valid g) : m.keys g = Entries.keys (m.iter g) := by
  obtain ⟨store, ver, cache⟩ := m
  cases store with
  | dict entries index => rfl
  | shaped shape slots => exact (Entries.keys_zip h.2).symm

theorem Valid.values_eq (h : m.Valid g) : m.values = (m.iter g).map Prod.snd := by
  obtain ⟨store, ver, cache⟩ := m
  cases store with
  | dict entries index => rfl
  | shaped shape slots => exact (List.map_snd_zip h.2.ge).symm

theorem Valid.len_eq (h : m.Valid g) : m.len = (m.iter g).length := by
  obtain ⟨store, ver, cache⟩ := m
  cases store with
  | dict entries index => rfl
  | shaped shape slots =>
    simp only [len, iter, List.length_zip, h.2, Nat.min_self]

/-- The slot of a key is its position, in either store. -/
theorem Valid.slotOf_of (hok : g.table.Ok) (h : m.Valid g) :
    Index.Of (m.slotOf g) (Entries.keys (m.iter g)) := by
  obtain ⟨store, ver, cache⟩ := m
  cases store with
  | dict entries index => exact h
  | shaped shape slots =>
    have hs := (hok.shapes shape h.1).index_of
    rw [iter, Entries.keys_zip h.2]
    exact hs

theorem Valid.valueAtSlot_eq (h : m.Valid g) (i : ℕ) :
    m.valueAtSlot i = (m.iter g)[i]?.map Prod.snd := by
  obtain ⟨store, ver, cache⟩ := m
  cases store with
  | dict entries index => rfl
  | shaped shape slots =>
    rw [← List.getElem?_map, ← h.values_eq]
    rfl

/-- A lookup is by slot. -/
theorem get_eq_slot (m : OrderedMap V) (g : Globals) (k : String) :
    m.get g k = (m.slotOf g k).bind m.valueAtSlot := by
  obtain ⟨store, ver, cache⟩ := m
  cases store <;> rfl

theorem containsKey_eq_slot (m : OrderedMap V) (g : Globals) (k : String) :
    m.containsKey g k = (m.slotOf g k).isSome := by
  obtain ⟨store, ver, cache⟩ := m
  cases store <;> rfl

theorem Valid.nodup (hok : g.table.Ok) (h : m.Valid g) : (Entries.keys (m.iter g)).Nodup :=
  (h.slotOf_of hok).nodup

/-- The value of a key, by slot or by key. -/
theorem Valid.slot_cases (hok : g.table.Ok) (h : m.Valid g) (k : String) :
    (m.slotOf g k = none ∧ k ∉ Entries.keys (m.iter g) ∧ (m.iter g).lookup k = none) ∨
      ∃ i, m.slotOf g k = some i ∧ (Entries.keys (m.iter g))[i]? = some k ∧
        (m.iter g).lookup k = (m.iter g)[i]?.map Prod.snd := by
  have hof := h.slotOf_of hok
  cases hs : m.slotOf g k with
  | none =>
    have hk := hof.eq_none_iff.mp hs
    exact .inl ⟨rfl, hk, Entries.lookup_eq_none hk⟩
  | some i =>
    have hi := (hof k i).mp hs
    exact .inr ⟨i, rfl, hi, Entries.lookup_eq (h.nodup hok) hi⟩

theorem Valid.get_eq (hok : g.table.Ok) (h : m.Valid g) (k : String) :
    m.get g k = (m.iter g).lookup k := by
  rw [get_eq_slot]
  obtain ⟨hs, -, hl⟩ | ⟨i, hs, -, hl⟩ := h.slot_cases hok k
  · rw [hs, hl, Option.bind_none]
  · rw [hs, hl, Option.bind_some, h.valueAtSlot_eq]

theorem Valid.containsKey_eq (hok : g.table.Ok) (h : m.Valid g) (k : String) :
    m.containsKey g k = decide (k ∈ Entries.keys (m.iter g)) := by
  rw [containsKey_eq_slot, Bool.eq_iff_iff, (h.slotOf_of hok).isSome_iff, decide_eq_true_iff]

/-! ### Writes in place -/

/-- A store with the value at a slot changed. -/
def modifySlot (m : OrderedMap V) (i : ℕ) (u : V → V) : OrderedMap V :=
  match m.store with
  | .dict entries index => { m with store := .dict (entries.modify i fun e => (e.1, u e.2)) index }
  | .shaped shape slots => { m with store := .shaped shape (slots.modify i u) }

theorem setAtSlot_eq (m : OrderedMap V) (i : ℕ) (v : V) :
    m.setAtSlot i v = m.modifySlot i fun _ => v := by
  obtain ⟨store, ver, cache⟩ := m
  cases store with
  | dict entries index => rfl
  | shaped shape slots => simp only [setAtSlot, modifySlot, List.set_eq_modify]

theorem getMut_eq (m : OrderedMap V) (g : Globals) (k : String) (u : V → V) :
    m.getMut g k u = match m.slotOf g k with
      | none => (none, m)
      | some i => (m.valueAtSlot i, m.modifySlot i u) := by
  obtain ⟨store, ver, cache⟩ := m
  cases store <;> rfl

theorem Valid.modifySlot_after (hok : g.table.Ok) (h : m.Valid g) (i : ℕ) (u : V → V) :
    After g g (m.modifySlot i u) ((m.iter g).modify i fun e => (e.1, u e.2)) := by
  obtain ⟨store, ver, cache⟩ := m
  cases store with
  | dict entries index =>
    refine ⟨hok, .refl _, ?_, rfl⟩
    unfold Valid
    simp only [modifySlot, Entries.keys_modifyAt]
    exact h
  | shaped shape slots =>
    exact ⟨hok, .refl _, ⟨h.1, by rw [List.length_modify]; exact h.2⟩, Entries.zip_modify u i⟩

theorem Valid.getMut_after (hok : g.table.Ok) (h : m.Valid g) (k : String) (u : V → V) :
    (m.getMut g k u).1 = (m.iter g).lookup k ∧
      After g g (m.getMut g k u).2 (Entries.modify (m.iter g) k u) := by
  rw [getMut_eq]
  obtain ⟨hs, hk, hl⟩ | ⟨i, hs, hi, hl⟩ := h.slot_cases hok k
  · rw [hs, hl, Entries.modify_of_not_mem hk]
    exact ⟨rfl, h.after hok⟩
  · rw [hs, hl, ← Entries.modify_eq (h.nodup hok) hi]
    exact ⟨h.valueAtSlot_eq i, h.modifySlot_after hok i u⟩

/-! ### Falling back to a dictionary -/

/-- A dictionary of given entries. -/
def IsDict (m : OrderedMap V) (es : List (String × V)) : Prop :=
  ∃ index, m.store = .dict es index ∧ index.Of (Entries.keys es)

theorem IsDict.after {es : List (String × V)} (h : m'.IsDict es) (hok : g'.table.Ok)
    (hext : g.table.Extends g'.table) : After g g' m' es := by
  obtain ⟨index, hs, hof⟩ := h
  refine ⟨hok, hext, ?_, ?_⟩
  · unfold Valid
    rw [hs]
    exact hof
  · unfold iter
    rw [hs]

@[simp] theorem bumpStructVer_store (m : OrderedMap V) (g : Globals) :
    (m.bumpStructVer g).1.store = m.store := rfl

@[simp] theorem bumpStructVer_table (m : OrderedMap V) (g : Globals) :
    (m.bumpStructVer g).2.table = g.table := rfl

theorem Valid.deopt_isDict (hok : g.table.Ok) (h : m.Valid g) :
    (m.deoptToDict g).1.IsDict (m.iter g) ∧ (m.deoptToDict g).2.table = g.table := by
  obtain ⟨store, ver, cache⟩ := m
  cases store with
  | dict entries index => exact ⟨⟨index, rfl, h⟩, rfl⟩
  | shaped shape slots => exact ⟨⟨_, rfl, Index.number_of (h.nodup hok)⟩, rfl⟩

theorem IsDict.dictInsert_after {es : List (String × V)} (h : m.IsDict es) (hok : g.table.Ok)
    (k : String) (v : V) :
    (m.dictInsert g k v).1 = es.lookup k ∧
      After g (m.dictInsert g k v).2.2 (m.dictInsert g k v).2.1 (Entries.put es k v) := by
  obtain ⟨store, ver, cache⟩ := m
  obtain ⟨index, rfl, hof⟩ := h
  cases hix : index k with
  | some i =>
    have hi := (hof k i).mp hix
    have hmod := Entries.modify_eq hof.nodup hi fun _ => v
    have hmem : k ∈ Entries.keys es := List.mem_of_getElem? hi
    simp only [dictInsert, hix, Entries.put, Entries.upsert, if_pos hmem]
    refine ⟨(Entries.lookup_eq hof.nodup hi).symm, IsDict.after ⟨index, ?_, ?_⟩ hok (.refl _)⟩
    · rw [hmod]
    · rw [Entries.keys_modify]
      exact hof
  | none =>
    have hmem := hof.eq_none_iff.mp hix
    simp only [dictInsert, hix, Entries.put, Entries.upsert, if_neg hmem]
    refine ⟨(Entries.lookup_eq_none hmem).symm, IsDict.after ⟨_, rfl, ?_⟩ hok (.refl _)⟩
    have := hof.insert hmem
    rw [Entries.keys, List.map_append, List.map_singleton]
    rwa [Entries.keys, List.length_map] at this

theorem IsDict.dictGetOrInsertWith_after {es : List (String × V)} (h : m.IsDict es)
    (hok : g.table.Ok) (k : String) (f : Unit → V) (u : V → V) :
    (m.dictGetOrInsertWith g k f u).1 = some ((es.lookup k).getD (f ())) ∧
      After g (m.dictGetOrInsertWith g k f u).2.2 (m.dictGetOrInsertWith g k f u).2.1
        (Entries.upsert es k u (u (f ()))) := by
  obtain ⟨store, ver, cache⟩ := m
  obtain ⟨index, rfl, hof⟩ := h
  cases hix : index k with
  | some i =>
    have hi := (hof k i).mp hix
    have hmod := Entries.modify_eq hof.nodup hi u
    have hmem : k ∈ Entries.keys es := List.mem_of_getElem? hi
    have hval : ∃ v, es[i]?.map Prod.snd = some v := by
      rw [Entries.keys_getElem?] at hi
      cases he : es[i]? with
      | none => simp [he] at hi
      | some e => exact ⟨e.2, rfl⟩
    obtain ⟨v, hv⟩ := hval
    simp only [dictGetOrInsertWith, hix, Entries.upsert, if_pos hmem,
      Entries.lookup_eq hof.nodup hi, hv]
    refine ⟨rfl, IsDict.after ⟨index, ?_, ?_⟩ hok (.refl _)⟩
    · rw [hmod]
    · rw [Entries.keys_modify]
      exact hof
  | none =>
    have hmem := hof.eq_none_iff.mp hix
    simp only [dictGetOrInsertWith, hix, Entries.upsert, if_neg hmem, Entries.lookup_eq_none hmem]
    refine ⟨rfl, IsDict.after ⟨_, rfl, ?_⟩ hok (.refl _)⟩
    have := hof.insert hmem
    rw [Entries.keys, List.map_append, List.map_singleton]
    rwa [Entries.keys, List.length_map] at this

theorem IsDict.dictRemove_after {es : List (String × V)} (h : m.IsDict es) (hok : g.table.Ok)
    (k : String) :
    (m.dictRemove g k).1 = es.lookup k ∧
      After g (m.dictRemove g k).2.2 (m.dictRemove g k).2.1 (Entries.erase es k) := by
  obtain ⟨store, ver, cache⟩ := m
  obtain ⟨index, rfl, hof⟩ := h
  cases hix : index k with
  | some i =>
    have hi := (hof k i).mp hix
    simp only [dictRemove, hix]
    rw [← Entries.erase_eq hof.nodup hi]
    refine ⟨(Entries.lookup_eq hof.nodup hi).symm, IsDict.after ⟨_, rfl, ?_⟩ hok (.refl _)⟩
    rw [Entries.keys_eraseIdx]
    exact hof.erase hix
  | none =>
    have hmem := hof.eq_none_iff.mp hix
    simp only [dictRemove, hix]
    rw [Entries.erase_of_not_mem hmem]
    exact ⟨(Entries.lookup_eq_none hmem).symm, IsDict.after ⟨index, rfl, hof⟩ hok (.refl _)⟩

/-! ### Interning a key -/

/-- What `shaped_intern_slot` leaves of a shaped map: its dictionary, the map itself
with the slot of a key it has, or the shape extended by a key it lacks. -/
theorem Valid.shapedInternSlot_cases (hok : g.table.Ok) (h : m.Valid g) {shape : ℕ}
    {slots : List V} (hm : m.store = .shaped shape slots) (k : String)
    (hlen : (m.shapedInternSlot g k).2.2.table.shapes.length ≤ 2 ^ 32) :
    (∃ m' g', m.shapedInternSlot g k = (.deopted, m', g') ∧ m'.IsDict (m.iter g) ∧
        g'.table = g.table) ∨
      (∃ i, m.shapedInternSlot g k = (.slot i, m, g) ∧ m.slotOf g k = some i ∧ i < slots.length) ∨
      ∃ m' g' shape', m.shapedInternSlot g k = (.slot slots.length, m', g') ∧
        m'.store = .shaped shape' slots ∧ g'.table.Ok ∧ g.table.Extends g'.table ∧
        shape' < g'.table.shapes.length ∧ k ∉ (g.table.shape shape).properties ∧
        (g'.table.shape shape').properties = (g.table.shape shape).properties ++ [k] := by
  have hdict := h.deopt_isDict hok
  obtain ⟨store, ver, cache⟩ := m
  obtain rfl : store = .shaped shape slots := hm
  obtain ⟨hlt, hslots⟩ := h
  have hof := (hok.shapes shape hlt).index_of
  unfold shapedInternSlot at hlen ⊢
  split_ifs at hlen ⊢ with hforce
  · exact .inl ⟨_, _, rfl, hdict.1, hdict.2⟩
  · simp only at hlen ⊢
    cases hl : (g.table.shape shape).lookup k with
    | some i => exact .inr (.inl ⟨i, rfl, hl, hslots ▸ hof.lt hl⟩)
    | none =>
      simp only [hl] at hlen ⊢
      split_ifs at hlen ⊢ with hcap
      · exact .inl ⟨_, _, rfl, hdict.1, hdict.2⟩
      · have hk : k ∉ (g.table.shape shape).properties := hof.eq_none_iff.mp hl
        obtain ⟨hok', hext, hlt', hprops⟩ := ShapeTable.addProperty_spec hok hlt k hlen
        rw [if_neg hk] at hprops
        exact .inr (.inr ⟨_, _, _, rfl, rfl, hok', hext, hlt', hk, hprops⟩)

/-- A pushed value completes the slot a key was given. -/
theorem push_after {shape shape' : ℕ} {slots : List V} {k : String} (hslots :
      (g.table.shape shape).properties.length = slots.length)
    (hok : g'.table.Ok) (hext : g.table.Extends g'.table) (hlt : shape' < g'.table.shapes.length)
    (hprops : (g'.table.shape shape').properties = (g.table.shape shape).properties ++ [k]) (v : V) :
    After g ({ m' with store := .shaped shape' (slots ++ [v]) }.bumpStructVer g').2
      ({ m' with store := .shaped shape' (slots ++ [v]) }.bumpStructVer g').1
      ((g.table.shape shape).properties.zip slots ++ [(k, v)]) := by
  refine ⟨hok, hext, ⟨hlt, ?_⟩, ?_⟩
  · simp only [bumpStructVer_table, hprops, List.length_append, List.length_singleton, hslots]
  · simp only [iter, bumpStructVer_store, bumpStructVer_table, hprops]
    rw [List.zip_append hslots]
    rfl

/-! ### Operations -/

theorem After.of_table {g₁ : Globals} {es : List (String × V)} (h : After g₁ g' m' es)
    (ht : g₁.table = g.table) : After g g' m' es :=
  ⟨h.ok, ht ▸ h.grows, h.valid, h.iter⟩

/-- A key on a map: in place when it has a slot, at the end when it has none. -/
theorem Valid.upsert_of_slot (hok : g.table.Ok) (h : m.Valid g) {k : String} {i : ℕ}
    (hs : m.slotOf g k = some i) (u : V → V) (v : V) :
    (m.valueAtSlot i) = (m.iter g).lookup k ∧
      After g g (m.modifySlot i u) (Entries.upsert (m.iter g) k u v) := by
  have hi := ((h.slotOf_of hok) k i).mp hs
  rw [Entries.upsert, if_pos (List.mem_of_getElem? hi), ← Entries.modify_eq (h.nodup hok) hi,
    Entries.lookup_eq (h.nodup hok) hi]
  exact ⟨h.valueAtSlot_eq i, h.modifySlot_after hok i u⟩

theorem Valid.isDict (h : m.Valid g) {entries : List (String × V)} {index : Index String}
    (hm : m.store = .dict entries index) : m.IsDict (m.iter g) := by
  obtain ⟨store, ver, cache⟩ := m
  obtain rfl : store = .dict entries index := hm
  exact ⟨index, rfl, h⟩

theorem dictInsert_table (m : OrderedMap V) (g : Globals) (k : String) (v : V) :
    (m.dictInsert g k v).2.2.table = g.table := by
  unfold dictInsert
  split
  · rfl
  · split <;> rfl

theorem dictGetOrInsertWith_table (m : OrderedMap V) (g : Globals) (k : String) (f : Unit → V)
    (u : V → V) : (m.dictGetOrInsertWith g k f u).2.2.table = g.table := by
  unfold dictGetOrInsertWith
  split
  · rfl
  · split <;> rfl

/-- What grows the table is the interning of the key. -/
theorem insert_table {shape : ℕ} {slots : List V} (hm : m.store = .shaped shape slots) (k : String)
    (v : V) : (m.insert g k v).2.2.table = (m.shapedInternSlot g k).2.2.table := by
  simp only [insert, hm]
  rcases m.shapedInternSlot g k with ⟨i | _, m', g'⟩
  · simp only
    split
    · rfl
    · split_ifs <;> rfl
  · exact dictInsert_table m' g' k v

theorem getOrInsertWith_table {shape : ℕ} {slots : List V} (hm : m.store = .shaped shape slots)
    (k : String) (f : Unit → V) (u : V → V) :
    (m.getOrInsertWith g k f u).2.2.table = (m.shapedInternSlot g k).2.2.table := by
  simp only [getOrInsertWith, hm]
  rcases m.shapedInternSlot g k with ⟨i | _, m', g'⟩
  · simp only
    split
    · rfl
    · split_ifs <;> rfl
  · exact dictGetOrInsertWith_table m' g' k f u

theorem Valid.insert_after (hok : g.table.Ok) (h : m.Valid g) (k : String) (v : V)
    (hlen : (m.insert g k v).2.2.table.shapes.length ≤ 2 ^ 32) :
    (m.insert g k v).1 = (m.iter g).lookup k ∧
      After g (m.insert g k v).2.2 (m.insert g k v).2.1 (Entries.put (m.iter g) k v) := by
  cases hm : m.store with
  | dict entries index =>
    have hins : m.insert g k v = m.dictInsert g k v := by simp only [insert, hm]
    rw [hins]
    exact (h.isDict hm).dictInsert_after hok k v
  | shaped shape slots =>
    have hiter : m.iter g = (g.table.shape shape).properties.zip slots := by simp only [iter, hm]
    have hv : shape < g.table.shapes.length ∧
        (g.table.shape shape).properties.length = slots.length := by
      unfold Valid at h
      rwa [hm] at h
    rw [insert_table hm] at hlen
    obtain ⟨m', g', hr, hd, ht⟩ | ⟨i, hr, hs, hlt⟩ | ⟨m', g', shape', hr, hm', hok', hext, hlt, hk,
        hprops⟩ := h.shapedInternSlot_cases hok hm k hlen
    · have hins : m.insert g k v = m'.dictInsert g' k v := by simp only [insert, hm, hr]
      rw [hins]
      obtain ⟨hval, haft⟩ := hd.dictInsert_after (g := g') (by rwa [ht]) k v
      exact ⟨hval, haft.of_table ht⟩
    · have hins : m.insert g k v = (m.valueAtSlot i, m.modifySlot i fun _ => v, g) := by
        simp only [insert, hm, hr, if_pos hlt, valueAtSlot, modifySlot, List.set_eq_modify]
      rw [hins]
      exact h.upsert_of_slot hok hs (fun _ => v) v
    · have hins : m.insert g k v = (none,
          { m' with store := .shaped shape' (slots ++ [v]) }.bumpStructVer g') := by
        simp only [insert, hm, hr, hm', lt_irrefl, ↓reduceIte]
      have hmem : k ∉ Entries.keys (m.iter g) := by rwa [hiter, Entries.keys_zip hv.2]
      rw [hins, Entries.lookup_eq_none hmem, Entries.put, Entries.upsert, if_neg hmem, hiter]
      exact ⟨rfl, push_after hv.2 hok' hext hlt hprops v⟩

theorem Valid.getOrInsertWith_after (hok : g.table.Ok) (h : m.Valid g) (k : String) (f : Unit → V)
    (u : V → V) (hlen : (m.getOrInsertWith g k f u).2.2.table.shapes.length ≤ 2 ^ 32) :
    (m.getOrInsertWith g k f u).1 = some (((m.iter g).lookup k).getD (f ())) ∧
      After g (m.getOrInsertWith g k f u).2.2 (m.getOrInsertWith g k f u).2.1
        (Entries.upsert (m.iter g) k u (u (f ()))) := by
  cases hm : m.store with
  | dict entries index =>
    have hins : m.getOrInsertWith g k f u = m.dictGetOrInsertWith g k f u := by
      simp only [getOrInsertWith, hm]
    rw [hins]
    exact (h.isDict hm).dictGetOrInsertWith_after hok k f u
  | shaped shape slots =>
    have hiter : m.iter g = (g.table.shape shape).properties.zip slots := by simp only [iter, hm]
    have hv : shape < g.table.shapes.length ∧
        (g.table.shape shape).properties.length = slots.length := by
      unfold Valid at h
      rwa [hm] at h
    rw [getOrInsertWith_table hm] at hlen
    obtain ⟨m', g', hr, hd, ht⟩ | ⟨i, hr, hs, hlt⟩ | ⟨m', g', shape', hr, hm', hok', hext, hlt, hk,
        hprops⟩ := h.shapedInternSlot_cases hok hm k hlen
    · have hins : m.getOrInsertWith g k f u = m'.dictGetOrInsertWith g' k f u := by
        simp only [getOrInsertWith, hm, hr]
      rw [hins]
      obtain ⟨hval, haft⟩ := hd.dictGetOrInsertWith_after (g := g') (by rwa [ht]) k f u
      exact ⟨hval, haft.of_table ht⟩
    · have hins : m.getOrInsertWith g k f u = (m.valueAtSlot i, m.modifySlot i u, g) := by
        simp only [getOrInsertWith, hm, hr, if_neg hlt.ne, valueAtSlot, modifySlot]
      obtain ⟨hval, haft⟩ := h.upsert_of_slot hok hs u (u (f ()))
      rw [hins]
      refine ⟨?_, haft⟩
      have hsome : m.valueAtSlot i = some slots[i] := by
        simp only [valueAtSlot, hm, List.getElem?_eq_getElem hlt]
      rw [← hval, hsome]
      rfl
    · have hins : m.getOrInsertWith g k f u = (some (f ()),
          { m' with store := .shaped shape' (slots ++ [u (f ())]) }.bumpStructVer g') := by
        simp only [getOrInsertWith, hm, hr, hm', ↓reduceIte]
      have hmem : k ∉ Entries.keys (m.iter g) := by rwa [hiter, Entries.keys_zip hv.2]
      rw [hins, Entries.lookup_eq_none hmem, Entries.upsert, if_neg hmem, hiter]
      exact ⟨rfl, push_after hv.2 hok' hext hlt hprops _⟩

theorem Valid.remove_after (hok : g.table.Ok) (h : m.Valid g) (k : String) :
    (m.remove g k).1 = (m.iter g).lookup k ∧
      After g (m.remove g k).2.2 (m.remove g k).2.1 (Entries.erase (m.iter g) k) := by
  cases hm : m.store with
  | dict entries index =>
    have hr : m.remove g k = m.dictRemove g k := by simp only [remove, hm]
    rw [hr]
    exact (h.isDict hm).dictRemove_after hok k
  | shaped shape slots =>
    have hslot : m.slotOf g k = (g.table.shape shape).lookup k := by simp only [slotOf, hm]
    obtain ⟨hs, hk, hl⟩ | ⟨i, hs, -, -⟩ := h.slot_cases hok k
    · have hr : m.remove g k = (none, m, g) := by simp only [remove, hm, ← hslot, hs]
      rw [hr, hl, Entries.erase_of_not_mem hk]
      exact ⟨rfl, h.after hok⟩
    · have hr : m.remove g k = (m.deoptToDict g).1.dictRemove (m.deoptToDict g).2 k := by
        simp only [remove, hm, ← hslot, hs]
      obtain ⟨hd, ht⟩ := h.deopt_isDict hok
      obtain ⟨hval, haft⟩ := hd.dictRemove_after (g := (m.deoptToDict g).2) (by rwa [ht]) k
      rw [hr]
      exact ⟨hval, haft.of_table ht⟩

theorem clear_after (hok : g.table.Ok) (m : OrderedMap V) :
    After g (m.clear g).2 (m.clear g).1 [] := by
  refine IsDict.after ⟨Index.empty, ?_, Index.of_empty⟩ hok (.refl _)
  unfold clear
  cases m.store <;> rfl

theorem Valid.drain_after (hok : g.table.Ok) (h : m.Valid g) :
    (m.drain g).1 = m.iter g ∧ After g (m.drain g).2.2 (m.drain g).2.1 [] := by
  obtain ⟨⟨index, hs, -⟩, ht⟩ := h.deopt_isDict hok
  have hr : m.drain g = (m.iter g,
      { (((m.deoptToDict g).1.bumpStructVer (m.deoptToDict g).2).1.resetShapeCache) with
        store := .dict [] Index.empty }, ((m.deoptToDict g).1.bumpStructVer (m.deoptToDict g).2).2) := by
    simp only [drain, resetShapeCache, bumpStructVer_store, hs]
  rw [hr]
  exact ⟨rfl, IsDict.after ⟨_, rfl, Index.of_empty⟩ (by simpa [ht] using hok)
    (by simp only [bumpStructVer_table, ht]; exact .refl _)⟩

theorem keys_retainLoop (f : Keep V) (seen es : List (String × V)) :
    (Entries.keys (retainLoop f seen es)).Sublist (Entries.keys es) := by
  induction es generalizing seen with
  | nil => exact List.Sublist.refl _
  | cons e es ih =>
    unfold retainLoop
    simp only
    split_ifs
    · exact (ih _).cons_cons _
    · exact (ih _).cons _

theorem Valid.retain_after (hok : g.table.Ok) (h : m.Valid g) (f : Keep V) :
    After g (m.retain g f).2 (m.retain g f).1 (retainLoop f [] (m.iter g)) := by
  obtain ⟨⟨index, hs, hof⟩, ht⟩ := h.deopt_isDict hok
  have hnd := hof.nodup.sublist (keys_retainLoop f [] (m.iter g))
  refine IsDict.after ⟨Index.empty.number 0 ((retainLoop f [] (m.iter g)).map Prod.fst), ?_,
    Index.number_of hnd⟩ ?_ ?_
  · simp only [retain, resetShapeCache, bumpStructVer_store, hs]
  · simpa [retain, hs, ht] using hok
  · simp only [retain, bumpStructVer_table, ht]
    exact .refl _

theorem Valid.intoIter_eq (hok : g.table.Ok) (h : m.Valid g) : (m.intoIter g).1 = m.iter g := by
  obtain ⟨⟨index, hs, -⟩, -⟩ := h.deopt_isDict hok
  simp only [intoIter, hs]

/-! ### What leaves the table alone -/

theorem deoptToDict_table (m : OrderedMap V) (g : Globals) :
    (m.deoptToDict g).2.table = g.table := by
  unfold deoptToDict
  cases m.store <;> rfl

theorem dictRemove_table (m : OrderedMap V) (g : Globals) (k : String) :
    (m.dictRemove g k).2.2.table = g.table := by
  unfold dictRemove
  split
  · rfl
  · split <;> rfl

theorem remove_table (m : OrderedMap V) (g : Globals) (k : String) :
    (m.remove g k).2.2.table = g.table := by
  unfold remove
  split
  · exact dictRemove_table m g k
  · split
    · rfl
    · exact (dictRemove_table _ _ k).trans (deoptToDict_table m g)

theorem clear_table (m : OrderedMap V) (g : Globals) : (m.clear g).2.table = g.table := rfl

theorem retain_table (m : OrderedMap V) (g : Globals) (f : Keep V) :
    (m.retain g f).2.table = g.table := deoptToDict_table m g

theorem drain_table (m : OrderedMap V) (g : Globals) : (m.drain g).2.2.table = g.table := by
  unfold drain
  simp only
  split <;> exact deoptToDict_table m g

theorem intoIter_table (m : OrderedMap V) (g : Globals) : (m.intoIter g).2.table = g.table := by
  unfold intoIter
  simp only
  split <;> exact deoptToDict_table m g

/-! ### What grows the table -/

theorem shapedInternSlot_length_le (m : OrderedMap V) (g : Globals) (k : String) :
    g.table.shapes.length ≤ (m.shapedInternSlot g k).2.2.table.shapes.length := by
  unfold shapedInternSlot
  split_ifs
  · rw [deoptToDict_table]
  · split
    · exact le_rfl
    · split
      · exact le_rfl
      · split_ifs
        · rw [deoptToDict_table]
        · exact ShapeTable.addProperty_length_le _ _ _

theorem insert_length_le (m : OrderedMap V) (g : Globals) (k : String) (v : V) :
    g.table.shapes.length ≤ (m.insert g k v).2.2.table.shapes.length := by
  cases hm : m.store with
  | dict entries index =>
    simp only [insert, hm]
    rw [dictInsert_table]
  | shaped shape slots =>
    rw [insert_table hm]
    exact shapedInternSlot_length_le m g k

theorem getOrInsertWith_length_le (m : OrderedMap V) (g : Globals) (k : String) (f : Unit → V)
    (u : V → V) :
    g.table.shapes.length ≤ (m.getOrInsertWith g k f u).2.2.table.shapes.length := by
  cases hm : m.store with
  | dict entries index =>
    simp only [getOrInsertWith, hm]
    rw [dictGetOrInsertWith_table]
  | shaped shape slots =>
    rw [getOrInsertWith_table hm]
    exact shapedInternSlot_length_le m g k

theorem extend_length_le (es : List (String × V)) (m : OrderedMap V) (g : Globals) :
    g.table.shapes.length ≤ (extend es m g).2.table.shapes.length := by
  induction es generalizing m g with
  | nil => exact le_rfl
  | cons e es ih => exact (insert_length_le m g e.1 e.2).trans (ih _ _)

theorem After.trans {g'' : Globals} {m'' : OrderedMap V} {es es' : List (String × V)}
    (h : After g g' m' es) (h' : After g' g'' m'' es') : After g g'' m'' es' :=
  ⟨h'.ok, h.grows.trans h'.grows, h'.valid, h'.iter⟩

theorem Valid.extend_after {es : List (String × V)} (hok : g.table.Ok) (h : m.Valid g)
    (hlen : (extend es m g).2.table.shapes.length ≤ 2 ^ 32) :
    After g (extend es m g).2 (extend es m g).1
      (es.foldl (fun acc e => Entries.put acc e.1 e.2) (m.iter g)) := by
  induction es generalizing m g with
  | nil => exact h.after hok
  | cons e es ih =>
    obtain ⟨-, haft⟩ := h.insert_after hok e.1 e.2 ((extend_length_le es _ _).trans hlen)
    have := ih haft.ok haft.valid hlen
    rw [haft.iter] at this
    exact haft.trans this

theorem new_after (hok : g.table.Ok) (shapedObjEnabled : Bool) :
    After g (new (V := V) shapedObjEnabled g).2 (new (V := V) shapedObjEnabled g).1 [] := by
  cases shapedObjEnabled with
  | false => exact IsDict.after ⟨Index.empty, rfl, Index.of_empty⟩ hok (.refl _)
  | true =>
    have hzero : (g.table.shape g.table.emptyId).properties = [] := by
      rw [hok.empty_id]
      exact hok.empty_properties.2
    refine ⟨hok, .refl _, ⟨?_, by rw [List.length_nil, List.length_eq_zero_iff]; exact hzero⟩, ?_⟩
    · rw [hok.empty_id]
      exact hok.empty_properties.1
    · simp only [new, ↓reduceIte, iter, List.zip_nil_right]

end OrderedMap

end Conclave.Js
