import Conclave.Js.Versions

/-! The inline-cache guards over a heap. A heap holds any number of maps over one shape
table and one version counter. While the counter has not wrapped and the table keeps to
its ids, the headers follow the stores, equal versions mean equal keys, and a slot found
under one shape id is the slot of the key in every map that answers with that id. -/

namespace Conclave.Js

open Lib OrderedMap

variable {V : Type}

/-- A map, and whether it or the map it was cloned from was born shaped. -/
structure Object (V : Type) where
  map : OrderedMap V
  wasShaped : Bool

structure Heap (V : Type) where
  globals : Globals
  objects : List (Object V)

/-- A step on a heap. `intern` and `drawVersion` are what maps of other value types do
to the shared state. -/
inductive HeapStep (V : Type)
  | create (shapedObjEnabled : Bool)
  | clone (i : ℕ)
  | use (i : ℕ) (op : MapOp V)
  | objectShapeId (i : ℕ)
  | intern (shape : ℕ) (key : String)
  | drawVersion

/-- The counter has not wrapped and every shape has an id of its own. -/
def Globals.Within (g : Globals) : Prop :=
  g.nextStructVer ≤ 2 ^ 64 ∧ g.table.shapes.length ≤ 2 ^ 32

instance (g : Globals) : Decidable g.Within := inferInstanceAs (Decidable (_ ∧ _))

namespace Heap

def init : Heap V := ⟨.init, []⟩

def step (h : Heap V) : HeapStep V → Heap V
  | .create shapedObjEnabled =>
    let (m, g) := OrderedMap.new shapedObjEnabled h.globals
    ⟨g, h.objects ++ [⟨m, shapedObjEnabled⟩]⟩
  | .clone i => { h with objects := h.objects ++ h.objects[i]?.toList }
  | .use i op =>
    match h.objects[i]? with
    | none => h
    | some o =>
      let (_, m, g) := o.map.apply h.globals op
      ⟨g, h.objects.set i ⟨m, o.wasShaped⟩⟩
  | .objectShapeId i =>
    match h.objects[i]? with
    | none => h
    | some o =>
      let (_, m, g) := o.map.objectShapeId h.globals
      ⟨g, h.objects.set i ⟨m, o.wasShaped⟩⟩
  | .intern shape key =>
    if shape < h.globals.table.shapes.length then
      { h with globals := { h.globals with table := (h.globals.table.addProperty shape key).2 } }
    else h
  | .drawVersion => { h with globals := (freshStructVer h.globals).2 }

def run (ss : List (HeapStep V)) (h : Heap V) : Heap V := ss.foldl step h

@[simp] theorem run_nil (h : Heap V) : run [] h = h := rfl

@[simp] theorem run_cons (s : HeapStep V) (ss : List (HeapStep V)) (h : Heap V) :
    run (s :: ss) h = run ss (h.step s) := rfl

theorem run_append (ss ss' : List (HeapStep V)) (h : Heap V) :
    run (ss ++ ss') h = run ss' (run ss h) := List.foldl_append

end Heap

/-! ### One map -/

variable {g g' : Globals} {o : Object V} {m : OrderedMap V} {es : List (String × V)}

/-- A map whose guards hold: the header follows the store, its versions were drawn, and
a shape cached for the version it has is the shape of its keys. -/
structure Guarded (g : Globals) (o : Object V) : Prop where
  valid : o.map.Valid g
  header : o.map.HeaderOk o.wasShaped
  drawn : 0 < o.map.structVer ∧ o.map.structVer < g.nextStructVer
  cacheDrawn : o.map.cachedShape.1 < g.nextStructVer
  cached : o.map.cachedShape.1 = o.map.structVer →
    g.table.IdOf o.map.cachedShape.2 (o.map.keys g)

theorem Guarded.mono (h : Guarded g o) (hn : g.nextStructVer ≤ g'.nextStructVer)
    (hext : g.table.Extends g'.table) : Guarded g' o ∧ o.map.keys g' = o.map.keys g := by
  obtain ⟨hv, hi⟩ := h.valid.mono hext
  have hk : o.map.keys g' = o.map.keys g := by rw [hv.keys_eq, h.valid.keys_eq, hi]
  refine ⟨⟨hv, h.header, ⟨h.drawn.1, h.drawn.2.trans_le hn⟩, h.cacheDrawn.trans_le hn, ?_⟩, hk⟩
  intro hc
  rw [hk]
  exact (h.cached hc).mono hext

/-- An operation keeps the guards of the map it is on. -/
theorem Guarded.turn (h : Guarded g o) (hpos : 0 < g.nextStructVer) (haft : After g g' m es)
    (ht : Turn g g' o.map m) (hlim : g'.nextStructVer ≤ 2 ^ 64) :
    Guarded g' ⟨m, o.wasShaped⟩ := by
  have hver : (m.structVer = o.map.structVer ∧ m.keys g' = o.map.keys g) ∨
      g.nextStructVer ≤ m.structVer ∧ m.structVer < g'.nextStructVer := by
    obtain hs | ⟨n, hn, hlt, hv⟩ := ht.ver
    · exact .inl hs
    · rw [hv, Nat.mod_eq_of_lt (hlt.trans_le hlim)]
      exact .inr ⟨hn, hlt⟩
  have hcache : m.cachedShape.1 < g.nextStructVer := by
    obtain hc | hc := ht.cache
    · rw [hc]
      exact h.cacheDrawn
    · rw [hc]
      exact hpos
  refine ⟨haft.valid, ht.header _ h.header, ?_, hcache.trans_le ht.draws, fun hc => ?_⟩
  · obtain ⟨hv, -⟩ | ⟨hn, hlt⟩ := hver
    · rw [hv]
      exact ⟨h.drawn.1, h.drawn.2.trans_le ht.draws⟩
    · exact ⟨hpos.trans_le hn, hlt⟩
  · obtain ⟨hv, hk⟩ | ⟨hn, -⟩ := hver
    · simp only at hc ⊢
      rw [hk]
      obtain hcs | hcs := ht.cache
      · rw [hcs] at hc ⊢
        exact (h.cached (hc.trans hv)).mono haft.grows
      · rw [hcs, hv] at hc
        exact absurd hc.symm h.drawn.1.ne'
    · exact absurd hc (hcache.trans_le hn).ne

/-! ### The shape of a map -/

theorem storedShapeId_shaped {shape : ℕ} {slots : List V} (hm : m.store = .shaped shape slots) :
    m.storedShapeId = some shape := by
  simp only [storedShapeId, hm]

/-- What `object_shape_id` leaves: the same map over a grown table, but for the cached
shape. -/
theorem objectShapeId_turn (m : OrderedMap V) (g : Globals) :
    (m.objectShapeId g).2.1.store = m.store ∧
      (m.objectShapeId g).2.1.structVer = m.structVer ∧
      (m.objectShapeId g).2.1.shapeHeader = m.shapeHeader ∧
      (m.objectShapeId g).2.2.nextStructVer = g.nextStructVer := by
  unfold objectShapeId
  split
  · exact ⟨rfl, rfl, rfl, rfl⟩
  · split_ifs <;> exact ⟨rfl, rfl, rfl, rfl⟩

theorem objectShapeId_length_le (m : OrderedMap V) (g : Globals) :
    g.table.shapes.length ≤ (m.objectShapeId g).2.2.table.shapes.length := by
  unfold objectShapeId
  split
  · exact le_rfl
  · split_ifs
    · exact le_rfl
    · exact ShapeTable.addProperties_length_le _ _ _

/-- The id of a map is the shape of its keys, unless it is the dictionary's, and the
map stays guarded. -/
theorem Guarded.objectShapeId (hok : g.table.Ok) (h : Guarded g o)
    (hlen : (o.map.objectShapeId g).2.2.table.shapes.length ≤ 2 ^ 32) :
    (o.map.objectShapeId g).2.2.table.Ok ∧
      g.table.Extends (o.map.objectShapeId g).2.2.table ∧
      Guarded (o.map.objectShapeId g).2.2 ⟨(o.map.objectShapeId g).2.1, o.wasShaped⟩ ∧
      ((o.map.objectShapeId g).1 ≠ DICT_SHAPE →
        (o.map.objectShapeId g).2.2.table.IdOf (o.map.objectShapeId g).1 (o.map.keys g)) := by
  cases hst : o.map.storedShapeId with
  | some stored =>
    simp only [OrderedMap.objectShapeId, hst]
    refine ⟨hok, .refl _, h, fun hne => ?_⟩
    cases hm : o.map.store with
    | dict entries index =>
      simp only [storedShapeId, hm] at hst
      split_ifs at hst
      exact absurd (Option.some.inj hst).symm hne
    | shaped shape slots =>
      obtain rfl := Option.some.inj ((storedShapeId_shaped hm).symm.trans hst)
      have hv := h.valid
      unfold Valid at hv
      rw [hm] at hv
      exact ⟨hv.1, by simp only [keys, hm]⟩
  | none =>
    by_cases hc : o.map.cachedShape.1 = o.map.structVer
    · simp only [OrderedMap.objectShapeId, hst, if_pos hc]
      exact ⟨hok, .refl _, h, fun _ => h.cached hc⟩
    · simp only [OrderedMap.objectShapeId, hst, if_neg hc] at hlen ⊢
      have hroot : g.table.IdOf g.table.emptyId [] := by
        rw [hok.empty_id]
        exact hok.empty_properties
      have hnd : ([] ++ o.map.keys g).Nodup := by
        rw [List.nil_append, h.valid.keys_eq]
        exact h.valid.nodup hok
      obtain ⟨hok', hext, hid⟩ := ShapeTable.addProperties_spec hok hroot hnd hlen
      rw [List.nil_append] at hid
      obtain ⟨hg, hk⟩ : Guarded { g with
          table := (g.table.addProperties g.table.emptyId (o.map.keys g)).2 } o ∧ _ :=
        h.mono le_rfl hext
      refine ⟨hok', hext, ⟨hg.valid, h.header, h.drawn, h.drawn.2, fun _ => ?_⟩, fun _ => hid⟩
      exact (congrArg (ShapeTable.IdOf _ _) hk).mpr hid

/-! ### The heap -/

namespace Heap

variable {h : Heap V}

/-- Every map is guarded, and equal versions mean equal keys. -/
structure Sound (h : Heap V) : Prop where
  ok : h.globals.table.Ok
  counter : 0 < h.globals.nextStructVer
  objects : ∀ o ∈ h.objects, Guarded h.globals o
  versions : ∀ o ∈ h.objects, ∀ p ∈ h.objects, o.map.structVer = p.map.structVer →
    o.map.keys h.globals = p.map.keys h.globals

theorem sound_init : (init : Heap V).Sound :=
  ⟨ShapeTable.ok_new, Nat.one_pos, by simp [init], by simp [init]⟩

/-- The maps of a heap over a grown state. -/
theorem Sound.mono (h' : h.Sound) {objects : List (Object V)} (hsub : objects ⊆ h.objects)
    (hok : g'.table.Ok) (hn : h.globals.nextStructVer ≤ g'.nextStructVer)
    (hext : h.globals.table.Extends g'.table) : Sound ⟨g', objects⟩ where
  ok := hok
  counter := h'.counter.trans_le hn
  objects o ho := ((h'.objects o (hsub ho)).mono hn hext).1
  versions o ho p hp hv := by
    rw [((h'.objects o (hsub ho)).mono hn hext).2, ((h'.objects p (hsub hp)).mono hn hext).2]
    exact h'.versions o (hsub ho) p (hsub hp) hv

/-- The maps of a heap over a grown state, and one more that agrees with those of its
version. -/
theorem Sound.add (h' : h.Sound) {objects : List (Object V)}
    (hsub : ∀ p ∈ objects, p = o ∨ p ∈ h.objects) (hok : g'.table.Ok)
    (hn : h.globals.nextStructVer ≤ g'.nextStructVer) (hext : h.globals.table.Extends g'.table)
    (ho : Guarded g' o)
    (hv : ∀ p ∈ h.objects, o.map.structVer = p.map.structVer →
      o.map.keys g' = p.map.keys h.globals) : Sound ⟨g', objects⟩ where
  ok := hok
  counter := h'.counter.trans_le hn
  objects p hp := by
    obtain rfl | hp := hsub p hp
    · exact ho
    · exact ((h'.objects p hp).mono hn hext).1
  versions p hp q hq hpq := by
    have hk := fun p hp => ((h'.objects p hp).mono hn hext).2
    obtain rfl | hp := hsub p hp
    · obtain rfl | hq := hsub q hq
      · rfl
      · exact (hv q hq hpq).trans (hk q hq).symm
    · obtain rfl | hq := hsub q hq
      · exact (hk p hp).trans (hv p hp hpq.symm).symm
      · exact ((hk p hp).trans (h'.versions p hp q hq hpq)).trans (hk q hq).symm

theorem step_le (h : Heap V) (st : HeapStep V) :
    h.globals.nextStructVer ≤ (h.step st).globals.nextStructVer ∧
      h.globals.table.shapes.length ≤ (h.step st).globals.table.shapes.length := by
  cases st with
  | create shapedObjEnabled => cases shapedObjEnabled <;> exact ⟨Nat.le_succ _, le_rfl⟩
  | clone i => exact ⟨le_rfl, le_rfl⟩
  | use i op =>
    simp only [step]
    cases h.objects[i]? with
    | none => exact ⟨le_rfl, le_rfl⟩
    | some o => exact ⟨(apply_turn o.map h.globals op).draws, apply_length_le _ _ _⟩
  | objectShapeId i =>
    simp only [step]
    cases h.objects[i]? with
    | none => exact ⟨le_rfl, le_rfl⟩
    | some o => exact ⟨(objectShapeId_turn o.map h.globals).2.2.2.ge, objectShapeId_length_le _ _⟩
  | intern shape key =>
    simp only [step]
    split_ifs
    · exact ⟨le_rfl, ShapeTable.addProperty_length_le _ _ _⟩
    · exact ⟨le_rfl, le_rfl⟩
  | drawVersion => exact ⟨Nat.le_succ _, le_rfl⟩

theorem step_within {st : HeapStep V} (hlim : (h.step st).globals.Within) : h.globals.Within :=
  ⟨(step_le h st).1.trans hlim.1, (step_le h st).2.trans hlim.2⟩

theorem run_within {ss : List (HeapStep V)} (hlim : (run ss h).globals.Within) :
    h.globals.Within := by
  induction ss generalizing h with
  | nil => exact hlim
  | cons s ss ih => exact step_within (ih hlim)

/-- A version that is drawn new is no other map's. -/
theorem Sound.fresh_ne (h' : h.Sound) {v : ℕ} (hv : h.globals.nextStructVer ≤ v) {p : Object V}
    (hp : p ∈ h.objects) : v ≠ p.map.structVer :=
  ((h'.objects p hp).drawn.2.trans_le hv).ne'

theorem Sound.create (h' : h.Sound) (shapedObjEnabled : Bool)
    (hlim : (h.step (.create shapedObjEnabled)).globals.Within) :
    (h.step (.create shapedObjEnabled)).Sound := by
  have haft := new_after (V := V) h'.ok shapedObjEnabled
  have hnext : (OrderedMap.new (V := V) shapedObjEnabled h.globals).2.nextStructVer =
      h.globals.nextStructVer + 1 := by
    cases shapedObjEnabled <;> rfl
  have hbound : h.globals.nextStructVer + 1 ≤ 2 ^ 64 := hnext ▸ hlim.1
  have hver : (OrderedMap.new (V := V) shapedObjEnabled h.globals).1.structVer =
      h.globals.nextStructVer := by
    rw [← Nat.mod_eq_of_lt (Nat.lt_of_succ_le hbound)]
    cases shapedObjEnabled <;> rfl
  have hcache : (OrderedMap.new (V := V) shapedObjEnabled h.globals).1.cachedShape.1 = 0 := by
    cases shapedObjEnabled <;> rfl
  have hle : h.globals.nextStructVer ≤
      (OrderedMap.new (V := V) shapedObjEnabled h.globals).2.nextStructVer := by omega
  show Sound ⟨(OrderedMap.new shapedObjEnabled h.globals).2,
    h.objects ++ [⟨(OrderedMap.new shapedObjEnabled h.globals).1, shapedObjEnabled⟩]⟩
  refine h'.add (o := ⟨(OrderedMap.new shapedObjEnabled h.globals).1, shapedObjEnabled⟩)
    (fun p hp => ?_) haft.ok hle haft.grows ⟨haft.valid, ?_, ?_, ?_, fun hc => ?_⟩ fun p hp hv => ?_
  · exact (List.mem_append.mp hp).symm.imp_left List.mem_singleton.mp
  · cases shapedObjEnabled with
    | false => rfl
    | true => exact ⟨rfl, rfl⟩
  · simp only [hver, hnext]
    exact ⟨h'.counter, Nat.lt_succ_self _⟩
  · simp only [hcache, hnext]
    exact Nat.succ_pos _
  · simp only [hcache, hver] at hc
    exact absurd hc h'.counter.ne
  · exact absurd hv (hver ▸ h'.fresh_ne le_rfl hp)

theorem Sound.use (h' : h.Sound) {i : ℕ} (op : MapOp V) (ho : h.objects[i]? = some o)
    (hlim : (o.map.apply h.globals op).2.2.Within) :
    Sound ⟨(o.map.apply h.globals op).2.2,
        h.objects.set i ⟨(o.map.apply h.globals op).2.1, o.wasShaped⟩⟩ ∧
      h.globals.table.Extends (o.map.apply h.globals op).2.2.table := by
  have hmem := List.mem_of_getElem? ho
  have hg := h'.objects o hmem
  obtain ⟨-, haft⟩ := hg.valid.apply_after h'.ok op hlim.2
  have ht := apply_turn o.map h.globals op
  refine ⟨h'.add (o := ⟨_, o.wasShaped⟩) (fun p hp => (List.mem_or_eq_of_mem_set hp).symm) haft.ok
    ht.draws haft.grows (hg.turn h'.counter haft ht hlim.1) fun p hp hv => ?_, haft.grows⟩
  obtain ⟨hs, hk⟩ | ⟨n, hn, hlt, hs⟩ := ht.ver
  · exact hk.trans (h'.versions o hmem p hp (hs.symm.trans hv))
  · rw [Nat.mod_eq_of_lt (hlt.trans_le hlim.1)] at hs
    exact absurd (hs.symm.trans hv) (h'.fresh_ne hn hp)

theorem Sound.objectShapeId (h' : h.Sound) {i : ℕ} (ho : h.objects[i]? = some o)
    (hlen : (o.map.objectShapeId h.globals).2.2.table.shapes.length ≤ 2 ^ 32) :
    Sound ⟨(o.map.objectShapeId h.globals).2.2,
        h.objects.set i ⟨(o.map.objectShapeId h.globals).2.1, o.wasShaped⟩⟩ ∧
      h.globals.table.Extends (o.map.objectShapeId h.globals).2.2.table := by
  have hmem := List.mem_of_getElem? ho
  have hg := h'.objects o hmem
  obtain ⟨hok, hext, hg', -⟩ := hg.objectShapeId h'.ok hlen
  obtain ⟨hstore, hver, -, hnext⟩ := objectShapeId_turn o.map h.globals
  have hk : (o.map.objectShapeId h.globals).2.1.keys (o.map.objectShapeId h.globals).2.2 =
      o.map.keys h.globals := by
    rw [← (hg.mono hnext.ge hext).2]
    simp only [keys, hstore]
  refine ⟨h'.add (o := ⟨_, o.wasShaped⟩) (fun p hp => (List.mem_or_eq_of_mem_set hp).symm) hok
    hnext.ge hext hg' fun p hp hv => ?_, hext⟩
  exact hk.trans (h'.versions o hmem p hp (hver.symm.trans hv))

theorem Sound.step (h' : h.Sound) (st : HeapStep V) (hlim : (h.step st).globals.Within) :
    (h.step st).Sound ∧ h.globals.table.Extends (h.step st).globals.table := by
  cases st with
  | create shapedObjEnabled =>
    exact ⟨h'.create shapedObjEnabled hlim, (new_after (V := V) h'.ok shapedObjEnabled).grows⟩
  | clone i =>
    refine ⟨h'.mono (fun p hp => ?_) h'.ok le_rfl (.refl _), .refl _⟩
    obtain hp | hp := List.mem_append.mp hp
    · exact hp
    · exact List.mem_of_getElem? (Option.mem_toList.mp hp)
  | use i op =>
    simp only [Heap.step] at hlim ⊢
    cases ho : h.objects[i]? with
    | none => exact ⟨h', .refl _⟩
    | some o =>
      simp only [ho] at hlim ⊢
      exact h'.use op ho hlim
  | objectShapeId i =>
    simp only [Heap.step] at hlim ⊢
    cases ho : h.objects[i]? with
    | none => exact ⟨h', .refl _⟩
    | some o =>
      simp only [ho] at hlim ⊢
      exact h'.objectShapeId ho hlim.2
  | intern shape key =>
    simp only [Heap.step] at hlim ⊢
    split_ifs at hlim ⊢ with hid
    · obtain ⟨hok, hext, -⟩ := ShapeTable.addProperty_spec h'.ok hid key hlim.2
      exact ⟨h'.mono (fun _ hp => hp) hok le_rfl hext, hext⟩
    · exact ⟨h', .refl _⟩
  | drawVersion => exact ⟨h'.mono (fun _ hp => hp) h'.ok (Nat.le_succ _) (.refl _), .refl _⟩

theorem Sound.run (h' : h.Sound) {ss : List (HeapStep V)} (hlim : (run ss h).globals.Within) :
    (run ss h).Sound ∧ h.globals.table.Extends (run ss h).globals.table := by
  induction ss generalizing h with
  | nil => exact ⟨h', .refl _⟩
  | cons s ss ih =>
    obtain ⟨hs, hext⟩ := h'.step s (run_within hlim)
    obtain ⟨hss, hext'⟩ := ih hs hlim
    exact ⟨hss, hext.trans hext'⟩

/-! ### The guards -/

/-- (a) Every header follows its store, and no shape has a sentinel for its id while
there are few enough of them. -/
def HeadersFollow (h : Heap V) : Prop :=
  (∀ o ∈ h.objects, o.map.HeaderOk o.wasShaped) ∧
    (h.globals.table.shapes.length < 2 ^ 32 - 2 →
      ∀ s ∈ h.globals.table.shapes, s.id ≠ DICT_SHAPE ∧ s.id ≠ BORN_DICT_SHAPE)

/-- (b) Of a run: where a map had the id `s` and a key in a slot, and later a map has
the id `s`, that slot of the later map is the one with its value for the key. -/
def SlotsGuarded (ss : List (HeapStep V)) : Prop :=
  ∀ pre mid i j o p, ss = pre ++ .objectShapeId i :: (mid ++ [.objectShapeId j]) →
    (run pre init).objects[i]? = some o →
    (run (pre ++ .objectShapeId i :: mid) init).objects[j]? = some p →
    (o.map.objectShapeId (run pre init).globals).1 =
      (p.map.objectShapeId (run (pre ++ .objectShapeId i :: mid) init).globals).1 →
    (o.map.objectShapeId (run pre init).globals).1 ≠ DICT_SHAPE →
    ∀ key slot, o.map.slotOf (run pre init).globals key = some slot →
      ∃ v, p.map.valueAtSlot slot = some v ∧
        p.map.get (run (pre ++ .objectShapeId i :: mid) init).globals key = some v

/-- (c) Maps of one version have the same keys. -/
def VersionsGuarded (h : Heap V) : Prop :=
  ∀ o ∈ h.objects, ∀ p ∈ h.objects, o.map.structVer = p.map.structVer →
    o.map.keys h.globals = p.map.keys h.globals

theorem Sound.headersFollow (h' : h.Sound) : h.HeadersFollow := by
  refine ⟨fun o ho => (h'.objects o ho).header, fun hlen s hs => ?_⟩
  obtain ⟨id, hid, rfl⟩ := List.getElem_of_mem hs
  have hshape : h.globals.table.shape id = h.globals.table.shapes[id] := by
    rw [ShapeTable.shape, List.getD_eq_getElem?_getD, List.getElem?_eq_getElem hid, Option.getD_some]
  have hide := (h'.ok.shapes id hid).id_eq
  rw [hshape] at hide
  rw [hide, DICT_SHAPE, BORN_DICT_SHAPE]
  omega

/-- Keys in the same places make a slot of one map the slot of the other. -/
theorem slot_of_same_keys {m₁ m₂ : OrderedMap V} (hok : g.table.Ok) (h₁ : m₁.Valid g)
    (hok' : g'.table.Ok) (h₂ : m₂.Valid g') (hk : m₁.keys g = m₂.keys g') {key : String} {slot : ℕ}
    (hs : m₁.slotOf g key = some slot) :
    ∃ v, m₂.valueAtSlot slot = some v ∧ m₂.get g' key = some v := by
  have hi := (h₁.slotOf_of hok key slot).mp hs
  rw [← h₁.keys_eq, hk, h₂.keys_eq] at hi
  have hs' := (h₂.slotOf_of hok' key slot).mpr hi
  have hlt := (List.getElem?_eq_some_iff.mp hi).1
  rw [Entries.keys, List.length_map] at hlt
  refine ⟨((m₂.iter g')[slot]).2, ?_, ?_⟩
  · rw [h₂.valueAtSlot_eq, List.getElem?_eq_getElem hlt, Option.map_some]
  · rw [get_eq_slot, hs', Option.bind_some, h₂.valueAtSlot_eq, List.getElem?_eq_getElem hlt,
      Option.map_some]

theorem step_objectShapeId {i : ℕ} (ho : h.objects[i]? = some o) :
    (h.step (.objectShapeId i)).globals = (o.map.objectShapeId h.globals).2.2 := by
  simp only [step, ho]

theorem slotsGuarded (ss : List (HeapStep V)) (hlim : (run ss init).globals.Within) :
    SlotsGuarded ss := by
  rintro pre mid i j o p rfl ho hp hid hne key slot hs
  have hmid : run (pre ++ .objectShapeId i :: mid) init =
      run mid ((run pre init).step (.objectShapeId i)) := by rw [run_append, run_cons]
  have hend : run (pre ++ .objectShapeId i :: (mid ++ [.objectShapeId j])) init =
      (run (pre ++ .objectShapeId i :: mid) init).step (.objectShapeId j) := by
    rw [run_append, run_cons, run_append, run_cons, run_nil, hmid]
  rw [hend] at hlim
  rw [hmid] at hlim hp hid ⊢
  have hlim₁ := step_within hlim
  have hlim₀ := run_within hlim₁
  obtain ⟨hpre, -⟩ := sound_init.run (step_within hlim₀)
  obtain ⟨hstep, -⟩ := hpre.step _ hlim₀
  obtain ⟨hlater, hext⟩ := hstep.run hlim₁
  rw [step_objectShapeId ho] at hext hlim₀
  rw [step_objectShapeId hp] at hlim
  have hgo := hpre.objects o (List.mem_of_getElem? ho)
  have hgp := hlater.objects p (List.mem_of_getElem? hp)
  obtain ⟨-, -, -, hido⟩ := hgo.objectShapeId hpre.ok hlim₀.2
  obtain ⟨-, hextp, -, hidp⟩ := hgp.objectShapeId hlater.ok hlim.2
  have hko := ((hido hne).mono hext).mono hextp
  rw [hid] at hko hne
  exact slot_of_same_keys hpre.ok hgo.valid hlater.ok hgp.valid (hko.2.symm.trans (hidp hne).2) hs

/-- In every run in which the version counter does not wrap and every shape has its own
id, the guards are sound. -/
theorem guards_sound (ss : List (HeapStep V)) (hlim : (run ss init).globals.Within) :
    (run ss init).HeadersFollow ∧ SlotsGuarded ss ∧ (run ss init).VersionsGuarded := by
  obtain ⟨hs, -⟩ := sound_init.run hlim
  exact ⟨hs.headersFollow, slotsGuarded ss hlim, hs.versions⟩

/-- A shaped map and a dictionary come to the same keys; a clone and a removal follow. -/
def sampleHeap : List (HeapStep ℕ) :=
  [.create true, .create false, .use 0 (.insert "x" 1), .use 1 (.insert "x" 2), .objectShapeId 0,
    .clone 1, .use 2 (.remove "x"), .objectShapeId 1]

theorem guards_sound_sample :
    (run sampleHeap init).HeadersFollow ∧ SlotsGuarded sampleHeap ∧
      (run sampleHeap init).VersionsGuarded :=
  guards_sound sampleHeap (by decide +kernel)

/-! ### After the counter wraps -/

/-- Two dictionaries; one is cleared until the counter is about to give the version of
the other, and then gains a key. -/
def wrappedSteps (n : ℕ) : List (HeapStep ℕ) :=
  [.create false, .create false] ++ List.replicate n (.use 1 .clear) ++ [.use 1 (.insert "a" 7)]

theorem run_clears (n : ℕ) {h : Heap ℕ} {o p : Object ℕ} (hop : h.objects = [o, p])
    (hp : p.map.store = .dict [] Index.empty) :
    ∃ p', (run (List.replicate n (.use 1 .clear)) h).objects = [o, p'] ∧
      p'.map.store = .dict [] Index.empty ∧
      (run (List.replicate n (.use 1 .clear)) h).globals =
        { h.globals with nextStructVer := h.globals.nextStructVer + n } := by
  induction n generalizing h p with
  | zero => exact ⟨p, hop, hp, rfl⟩
  | succ n ih =>
    have hstep : h.step (.use 1 .clear) =
        ⟨(p.map.clear h.globals).2, [o, ⟨(p.map.clear h.globals).1, p.wasShaped⟩]⟩ := by
      simp only [step, hop, List.getElem?_cons_succ, List.getElem?_cons_zero, OrderedMap.apply,
        List.set_cons_succ, List.set_cons_zero]
    have hclear : (p.map.clear h.globals).1.store = .dict [] Index.empty := by
      simp only [clear, hp, resetShapeCache, bumpStructVer_store]
    obtain ⟨p', hop', hp', hg⟩ := ih (h := h.step (.use 1 .clear)) (by rw [hstep]) hclear
    refine ⟨p', by rw [List.replicate_succ, run_cons, hop'], hp', ?_⟩
    rw [List.replicate_succ, run_cons, hg, hstep]
    simp only [clear, bumpStructVer, freshStructVer, Globals.mk.injEq, true_and]
    omega

theorem wrapped_versions {n : ℕ} (hn : (3 + n) % 2 ^ 64 = 1) :
    ¬ (run (wrappedSteps n) init).VersionsGuarded := by
  obtain ⟨o, p, hop, ho, hov, hp⟩ : ∃ o p, (run [.create false, .create false] init).objects =
      [o, p] ∧ o.map.store = .dict [] Index.empty ∧ o.map.structVer = 1 ∧
      p.map.store = .dict [] Index.empty := ⟨_, _, rfl, rfl, rfl, rfl⟩
  obtain ⟨p', hop', hp', hg⟩ := run_clears n hop hp
  have hnext : (run [.create false, .create false] (init : Heap ℕ)).globals.nextStructVer = 3 := rfl
  have hrun : run (wrappedSteps n) init = (run (List.replicate n (.use 1 .clear))
      (run [.create false, .create false] init)).step (.use 1 (.insert "a" 7)) := by
    rw [wrappedSteps, run_append, run_append, run_cons, run_nil]
  intro h
  rw [hrun] at h
  simp only [VersionsGuarded, step, hop', List.getElem?_cons_succ, List.getElem?_cons_zero,
    OrderedMap.apply, OrderedMap.insert, hp', dictInsert, Index.empty, List.set_cons_succ,
    List.set_cons_zero, bumpStructVer, freshStructVer, hg, hnext, hn, List.nil_append] at h
  have hkeys := h o (by simp) _ (List.mem_cons_of_mem _ (List.mem_singleton.mpr rfl)) hov
  simp [keys, ho] at hkeys

/-- After `2 ^ 64` versions a map with a key has the version of an empty one. -/
theorem guards_unsound : ¬ (run (wrappedSteps (2 ^ 64 - 2)) init).VersionsGuarded :=
  wrapped_versions (by norm_num)

end Heap

end Conclave.Js
