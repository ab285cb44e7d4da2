import Conclave.Js.Operations

/-! Shaped and dictionary stores side by side. A world holds pairs of maps, one born
shaped and one born a dictionary, that see the same operations, while other maps
intern into the shape table. The two answer alike and hold the same entries as long
as the table has at most `2 ^ 32` shapes. The id of the next shape wraps to the
empty shape, and the shaped map of the pair loses its key. -/

namespace Conclave.Js

open Lib OrderedMap

variable {V : Type}

/-- The shared state, and the pairs: the shaped side first. -/
structure World (V : Type) where
  globals : Globals
  pairs : List (OrderedMap V × OrderedMap V)

/-- A step: a new pair of empty maps, a clone of a pair, an operation on both sides of
a pair, and what any other map does to the shared state. -/
inductive Step (V : Type)
  | create
  | clone (i : ℕ)
  | use (i : ℕ) (op : MapOp V)
  | intern (shape : ℕ) (key : String)
  | drawVersion

namespace World

def init : World V := ⟨.init, []⟩

def step (w : World V) : Step V → Option (Returned V × Returned V) × World V
  | .create =>
    let (s, g) := OrderedMap.new true w.globals
    let (d, g) := OrderedMap.default g
    (none, ⟨g, w.pairs ++ [(s, d)]⟩)
  | .clone i => (none, { w with pairs := w.pairs ++ w.pairs[i]?.toList })
  | .use i op =>
    match w.pairs[i]? with
    | none => (none, w)
    | some (s, d) =>
      let (r, s, g) := s.apply w.globals op
      let (r', d, g) := d.apply g op
      (some (r, r'), ⟨g, w.pairs.set i (s, d)⟩)
  | .intern shape key =>
    if shape < w.globals.table.shapes.length then
      (none, { w with globals :=
        { w.globals with table := (w.globals.table.addProperty shape key).2 } })
    else (none, w)
  | .drawVersion => (none, { w with globals := (freshStructVer w.globals).2 })

/-- The answers of a run, shaped and dictionary, and the world after it. -/
def run : List (Step V) → World V → List (Returned V × Returned V) × World V
  | [], w => ([], w)
  | s :: ss, w =>
    let (r, w) := w.step s
    let (rs, w) := run ss w
    (r.toList ++ rs, w)

/-! ### The two sides agree -/

/-- A pair is laid out well and holds the same entries on both sides. -/
structure Agree (g : Globals) (p : OrderedMap V × OrderedMap V) : Prop where
  shaped : p.1.Valid g
  dict : p.2.Valid g
  iter : p.1.iter g = p.2.iter g

structure Same (w : World V) : Prop where
  ok : w.globals.table.Ok
  pairs : ∀ p ∈ w.pairs, Agree w.globals p

variable {g g' : Globals} {w : World V}

theorem Agree.mono {p : OrderedMap V × OrderedMap V} (h : Agree g p)
    (hext : g.table.Extends g'.table) : Agree g' p := by
  obtain ⟨hs, his⟩ := h.shaped.mono hext
  obtain ⟨hd, hid⟩ := h.dict.mono hext
  exact ⟨hs, hd, by rw [his, hid, h.iter]⟩

/-- The pairs that a step leaves alone still agree over the grown table. -/
theorem Same.mono (h : w.Same) (hok : g'.table.Ok) (hext : w.globals.table.Extends g'.table) :
    Same ⟨g', w.pairs⟩ :=
  ⟨hok, fun p hp => (h.pairs p hp).mono hext⟩

/-- An operation on a pair that agrees gives equal answers and a pair that agrees. -/
theorem Agree.apply {s d : OrderedMap V} (hok : g.table.Ok) (h : Agree g (s, d)) (op : MapOp V)
    (hlen : (d.apply (s.apply g op).2.2 op).2.2.table.shapes.length ≤ 2 ^ 32) :
    (s.apply g op).1 = (d.apply (s.apply g op).2.2 op).1 ∧
      (d.apply (s.apply g op).2.2 op).2.2.table.Ok ∧
      g.table.Extends (d.apply (s.apply g op).2.2 op).2.2.table ∧
      Agree (d.apply (s.apply g op).2.2 op).2.2
        ((s.apply g op).2.1, (d.apply (s.apply g op).2.2 op).2.1) := by
  obtain ⟨hr, haft⟩ := h.shaped.apply_after hok op ((apply_length_le _ _ _).trans hlen)
  obtain ⟨hd, hdi⟩ := h.dict.mono haft.grows
  obtain ⟨hr', haft'⟩ := hd.apply_after haft.ok op hlen
  obtain ⟨hv, hvi⟩ := haft.valid.mono haft'.grows
  have hes : d.iter (s.apply g op).2.2 = s.iter g := by rw [hdi, h.iter]
  refine ⟨by rw [hr, hr', hes], haft'.ok, haft.grows.trans haft'.grows, hv, haft'.valid, ?_⟩
  rw [hvi, haft.iter, haft'.iter, hes]

theorem step_length_le (w : World V) (st : Step V) :
    w.globals.table.shapes.length ≤ (w.step st).2.globals.table.shapes.length := by
  cases st with
  | create => exact le_rfl
  | clone i => exact le_rfl
  | use i op =>
    simp only [step]
    cases w.pairs[i]? with
    | none => exact le_rfl
    | some p =>
      have hs := apply_length_le p.1 w.globals op
      exact hs.trans (apply_length_le p.2 (p.1.apply w.globals op).2.2 op)
  | intern shape key =>
    simp only [step]
    split_ifs
    · exact ShapeTable.addProperty_length_le _ _ _
    · exact le_rfl
  | drawVersion => exact le_rfl

theorem run_length_le (ss : List (Step V)) (w : World V) :
    w.globals.table.shapes.length ≤ (run ss w).2.globals.table.shapes.length := by
  induction ss generalizing w with
  | nil => exact le_rfl
  | cons s ss ih => exact (step_length_le w s).trans (ih _)

theorem Same.step (h : w.Same) (st : Step V)
    (hlen : (w.step st).2.globals.table.shapes.length ≤ 2 ^ 32) :
    (w.step st).2.Same ∧ ∀ r ∈ (w.step st).1, r.1 = r.2 := by
  cases st with
  | create =>
    have hs := new_after (V := V) h.ok true
    have hd := new_after (V := V) hs.ok false
    have hm := h.mono hd.ok (hs.grows.trans hd.grows)
    refine ⟨⟨hd.ok, fun p hp => ?_⟩, by simp [World.step]⟩
    obtain hp | hp := List.mem_append.mp hp
    · exact hm.pairs p hp
    · obtain rfl := List.mem_singleton.mp hp
      obtain ⟨hv, hi⟩ := hs.valid.mono hd.grows
      exact ⟨hv, hd.valid, (hi.trans hs.iter).trans hd.iter.symm⟩
  | clone i =>
    refine ⟨⟨h.ok, fun p hp => ?_⟩, by simp [World.step]⟩
    obtain hp | hp := List.mem_append.mp hp
    · exact h.pairs p hp
    · exact h.pairs p (List.mem_of_getElem? (Option.mem_toList.mp hp))
  | use i op =>
    simp only [World.step] at hlen ⊢
    cases hp : w.pairs[i]? with
    | none => exact ⟨h, by simp⟩
    | some p =>
      obtain ⟨s, d⟩ := p
      simp only [hp] at hlen ⊢
      have hsd := h.pairs _ (List.mem_of_getElem? hp)
      obtain ⟨hr, hok, hext, hag⟩ := hsd.apply h.ok op hlen
      refine ⟨⟨hok, fun q hq => ?_⟩, by simpa using hr⟩
      obtain hq | rfl := List.mem_or_eq_of_mem_set hq
      · exact (h.pairs q hq).mono hext
      · exact hag
  | intern shape key =>
    simp only [World.step] at hlen ⊢
    split_ifs at hlen ⊢ with hid
    · obtain ⟨hok, hext, -⟩ := ShapeTable.addProperty_spec h.ok hid key hlen
      exact ⟨h.mono hok hext, by simp⟩
    · exact ⟨h, by simp⟩
  | drawVersion => exact ⟨h.mono h.ok (.refl _), by simp [World.step]⟩

theorem Same.run {ss : List (Step V)} (h : w.Same)
    (hlen : (run ss w).2.globals.table.shapes.length ≤ 2 ^ 32) :
    (run ss w).2.Same ∧ ∀ r ∈ (run ss w).1, r.1 = r.2 := by
  induction ss generalizing w with
  | nil => exact ⟨h, by simp [World.run]⟩
  | cons s ss ih =>
    obtain ⟨hs, hr⟩ := h.step s ((run_length_le ss _).trans hlen)
    obtain ⟨hss, hrs⟩ := ih hs hlen
    refine ⟨hss, fun r hmem => ?_⟩
    obtain hmem | hmem := List.mem_append.mp hmem
    · exact hr r (Option.mem_toList.mp hmem)
    · exact hrs r hmem

theorem same_init : (init : World V).Same := ⟨ShapeTable.ok_new, by simp [init]⟩

/-- In every run that keeps the shape table to its `2 ^ 32` ids, a shaped map and a
dictionary with the same history answer every operation alike, and agree in length,
keys, values and iteration at its end. -/
theorem stores_indistinguishable (ss : List (Step V))
    (hlen : (run ss init).2.globals.table.shapes.length ≤ 2 ^ 32) :
    (∀ r ∈ (run ss init).1, r.1 = r.2) ∧
      ∀ p ∈ (run ss init).2.pairs,
        p.1.len = p.2.len ∧ p.1.values = p.2.values ∧
          p.1.keys (run ss init).2.globals = p.2.keys (run ss init).2.globals ∧
          p.1.iter (run ss init).2.globals = p.2.iter (run ss init).2.globals ∧
          ∀ k, p.1.get (run ss init).2.globals k = p.2.get (run ss init).2.globals k := by
  obtain ⟨hsame, hr⟩ := same_init.run hlen
  refine ⟨hr, fun p hp => ?_⟩
  obtain ⟨hs, hd, hi⟩ := hsame.pairs p hp
  refine ⟨?_, ?_, ?_, hi, fun k => ?_⟩
  · rw [hs.len_eq, hd.len_eq, hi]
  · rw [hs.values_eq, hd.values_eq, hi]
  · rw [hs.keys_eq, hd.keys_eq, hi]
  · rw [hs.get_eq hsame.ok, hd.get_eq hsame.ok, hi]

/-- A pair that loses the slot cap's worth of layout: an index key, a removal and a
clone fall back to a dictionary on the shaped side. -/
def sampleSteps : List (Step ℕ) :=
  [.create, .intern 0 "y", .use 0 (.insert "x" 1), .clone 0, .use 0 (.insert "0" 2),
    .use 1 (.remove "x"), .use 1 .iter, .use 0 .keys]

theorem stores_indistinguishable_sample :
    (run sampleSteps init).2.globals.table.shapes.length ≤ 2 ^ 32 ∧
      (∀ r ∈ (run sampleSteps init).1, r.1 = r.2) := by
  have hlen : (run sampleSteps init).2.globals.table.shapes.length ≤ 2 ^ 32 := by decide +kernel
  exact ⟨hlen, (stores_indistinguishable sampleSteps hlen).1⟩

/-! ### At the id limit -/

/-- The keys of the other maps. -/
def otherKey (n : ℕ) : String := .ofList (List.replicate (n + 2) 'b')

theorem otherKey_inj {i j : ℕ} (h : otherKey i = otherKey j) : i = j := by
  have hl := congrArg List.length (String.ofList_injective h)
  simpa using hl

theorem otherKey_ne (n : ℕ) : otherKey n ≠ "a" := by
  intro h
  have hl := congrArg (fun s : String => s.toList.length) h
  simp [otherKey] at hl

/-- Other maps give the empty shape a key each. -/
def interns (n : ℕ) : List (Step V) := (List.range n).map fun i => .intern 0 (otherKey i)

/-- A table whose empty shape has `n` children. -/
structure Crowded (t : ShapeTable) (n : ℕ) : Prop where
  length : t.shapes.length = n + 1
  empty_id : t.emptyId = 0
  index : (t.shape 0).index = Index.empty
  fresh : ∀ k, (∀ i < n, otherKey i ≠ k) → (t.shape 0).transitions k = none

theorem Crowded.addProperty {t : ShapeTable} {n : ℕ} (h : Crowded t n) {k : String}
    (hk : ∀ i < n, otherKey i ≠ k) :
    t.addProperty 0 k = ((n + 1) % 2 ^ 32, t.addChild 0 k) := by
  simp only [ShapeTable.addProperty, h.index, Index.empty, h.fresh k hk, h.length]

theorem Crowded.shape_addChild {t : ShapeTable} {n : ℕ} (h : Crowded t n) (k : String) :
    (t.addChild 0 k).shape 0 = t.parentOf 0 k := by
  rw [ShapeTable.shape_addChild (by rw [h.length]; omega), if_pos rfl]

theorem Crowded.addChild {t : ShapeTable} {n : ℕ} (h : Crowded t n) :
    Crowded (t.addChild 0 (otherKey n)) (n + 1) where
  length := by rw [ShapeTable.addChild_length, h.length]
  empty_id := h.empty_id
  index := by
    rw [h.shape_addChild]
    exact h.index
  fresh k hk := by
    rw [h.shape_addChild]
    have hne : k ≠ otherKey n := (hk n (Nat.lt_succ_self n)).symm
    simp only [ShapeTable.parentOf, if_neg hne]
    exact h.fresh k fun i hi => hk i (hi.trans (Nat.lt_succ_self n))

theorem run_cons (s : Step V) (ss : List (Step V)) (w : World V) :
    run (s :: ss) w = ((w.step s).1.toList ++ (run ss (w.step s).2).1, (run ss (w.step s).2).2) :=
  rfl

theorem run_append (ss ss' : List (Step V)) (w : World V) :
    run (ss ++ ss') w =
      ((run ss w).1 ++ (run ss' (run ss w).2).1, (run ss' (run ss w).2).2) := by
  induction ss generalizing w with
  | nil => rfl
  | cons s ss ih => simp only [List.cons_append, run, ih, List.append_assoc]

theorem run_interns (w : World V) (hw : w.globals.table = .new) (n : ℕ) :
    (run (interns n) w).1 = [] ∧ (run (interns n) w).2.pairs = w.pairs ∧
      Crowded (run (interns n) w).2.globals.table n := by
  induction n with
  | zero =>
    refine ⟨rfl, rfl, ?_⟩
    simp only [interns, List.range_zero, List.map_nil, run, hw]
    exact ⟨rfl, rfl, rfl, fun _ _ => rfl⟩
  | succ n ih =>
    obtain ⟨hr, hp, hc⟩ := ih
    have hsplit : interns (V := V) (n + 1) = interns n ++ [.intern 0 (otherKey n)] := by
      simp [interns, List.range_succ]
    have hlt : 0 < (run (interns n) w).2.globals.table.shapes.length := by rw [hc.length]; omega
    have hadd := hc.addProperty (k := otherKey n) fun i hi h => hi.ne (otherKey_inj h)
    rw [hsplit, run_append, hr]
    simp only [run, World.step, if_pos hlt, hadd]
    exact ⟨rfl, hp, hc.addChild⟩

/-- The shaped side puts a key in the table's last place but one over and reads back
nothing. -/
theorem Crowded.lost {n : ℕ} (h : Crowded g.table n) (hn : (n + 1) % 2 ^ 32 = 0)
    {m : OrderedMap ℕ} (hm : m.store = .shaped 0 [])
    (hg : g'.table = (m.insert g "a" 7).2.2.table) :
    (m.insert g "a" 7).2.1.get g' "a" = none := by
  have hforce : stringKeyForcesDeopt "a" = false := by decide +kernel
  have hadd := h.addProperty (k := "a") fun i _ => otherKey_ne i
  have hlookup : (g.table.shape 0).lookup "a" = none := by rw [Shape.lookup, h.index]; rfl
  have hins : (m.insert g "a" 7).2.1.store = .shaped 0 [7] ∧
      (m.insert g "a" 7).2.2.table = g.table.addChild 0 "a" := by
    simp only [OrderedMap.insert, hm, shapedInternSlot, hforce, Bool.false_eq_true, ↓reduceIte, hlookup, hadd,
      hn, List.length_nil, SHAPED_SLOT_CAP, mirrorShapeHeader]
    simp
  obtain ⟨hs, ht⟩ := hins
  simp only [OrderedMap.get, hs, hg, ht, h.shape_addChild, Shape.lookup, ShapeTable.parentOf, h.index]
  rfl

/-- On the dictionary side the key is there. -/
theorem kept (g g' : Globals) {m : OrderedMap ℕ} (hm : m.store = .dict [] Index.empty) :
    (m.insert g "a" 7).2.1.get g' "a" = some 7 := by
  simp only [OrderedMap.insert, hm, dictInsert, Index.empty, bumpStructVer, OrderedMap.get,
    Index.insert]
  rfl

/-- Other maps intern `n` keys, then a pair gains a key. -/
def crowdedSteps (n : ℕ) : List (Step ℕ) :=
  .create :: (interns n ++ [.use 0 (.insert "a" 7), .use 0 (.get "a")])

theorem crowded_lost {n : ℕ} (hn : (n + 1) % 2 ^ 32 = 0) :
    (.value none, .value (some 7)) ∈ (run (crowdedSteps n) init).1 := by
  obtain ⟨hr, hp, hc⟩ := run_interns (init.step (V := ℕ) .create).2 rfl n
  obtain ⟨w, hw⟩ : ∃ w, w = (run (interns n) (init.step (V := ℕ) .create).2).2 := ⟨_, rfl⟩
  rw [← hw] at hp hc
  obtain ⟨s, d, hsd, hs, hd⟩ : ∃ s d, w.pairs = [(s, d)] ∧ s.store = .shaped 0 [] ∧
      d.store = .dict [] Index.empty := ⟨_, _, hp, rfl, rfl⟩
  have htable : (d.insert (s.insert w.globals "a" 7).2.2 "a" 7).2.2.table =
      (s.insert w.globals "a" 7).2.2.table := by
    simp only [OrderedMap.insert, hd]
    exact dictInsert_table _ _ _ _
  have hrun : (run (crowdedSteps n) init).1 =
      (run [.use 0 (.insert "a" 7), .use 0 (.get "a")] w).1 := by
    rw [crowdedSteps, run_cons, run_append, hr, hw]
    rfl
  rw [hrun]
  simp only [run, World.step, hsd, List.getElem?_cons_zero, OrderedMap.apply, List.set_cons_zero,
    hc.lost hn hs htable, kept _ _ hd]
  simp

/-- With `2 ^ 32` shapes in the table the dictionary has the key and the shaped map
does not. -/
theorem stores_distinguishable :
    ¬ ∀ r ∈ (run (crowdedSteps (2 ^ 32 - 1)) init).1, r.1 = r.2 := by
  intro h
  have hget := h _ (crowded_lost (n := 2 ^ 32 - 1) rfl)
  simp at hget

end World

end Conclave.Js
