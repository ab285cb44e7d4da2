import Conclave.Lib.Entries

/-! Hidden classes. The shape table interns key sequences: shape 0 is empty, and
adding a key to a shape follows a transition or makes a child. Shape ids are
`u32`s cut from the table's length, so the table is what it should be while it has
at most `2 ^ 32` shapes. -/

namespace Conclave.Js

open Lib

/-- A shape: its keys in slot order, their slots, and the transitions out of it. -/
structure Shape where
  id : ℕ
  properties : List String
  index : Index String
  transitions : String → Option ℕ

namespace Shape

def empty (id : ℕ) : Shape := ⟨id, [], Index.empty, fun _ => none⟩

def lookup (s : Shape) (key : String) : Option ℕ := s.index key

end Shape

structure ShapeTable where
  shapes : List Shape
  emptyId : ℕ

/-- A `ShapeId` that stands for a dictionary object. -/
def DICT_SHAPE : ℕ := 2 ^ 32 - 1

namespace ShapeTable

def new : ShapeTable := ⟨[Shape.empty 0], 0⟩

/-- Indexing; every id in use is below the length. -/
def shape (t : ShapeTable) (id : ℕ) : Shape := t.shapes.getD id (Shape.empty 0)

/-- The shape of `id`'s keys and one more, as the last of the table. -/
def childOf (t : ShapeTable) (id : ℕ) (key : String) : Shape where
  id := t.shapes.length % 2 ^ 32
  properties := (t.shape id).properties ++ [key]
  index := (t.shape id).index.insert key (t.shape id).properties.length
  transitions := fun _ => none

/-- `id` with a transition to the new shape. -/
def parentOf (t : ShapeTable) (id : ℕ) (key : String) : Shape :=
  { t.shape id with
    transitions := fun k => if k = key then some (t.shapes.length % 2 ^ 32)
      else (t.shape id).transitions k }

def addChild (t : ShapeTable) (id : ℕ) (key : String) : ShapeTable :=
  { t with shapes := (t.shapes ++ [t.childOf id key]).set id (t.parentOf id key) }

def addProperty (t : ShapeTable) (id : ℕ) (key : String) : ℕ × ShapeTable :=
  match (t.shape id).index key with
  | some _ => (id, t)
  | none =>
    match (t.shape id).transitions key with
    | some target => (target, t)
    | none => (t.shapes.length % 2 ^ 32, t.addChild id key)

/-- Intern a key sequence from a shape on. -/
def addProperties (t : ShapeTable) (id : ℕ) : List String → ℕ × ShapeTable
  | [] => (id, t)
  | k :: ks => addProperties (t.addProperty id k).2 (t.addProperty id k).1 ks

/-! ### Well-formed tables -/

/-- What the table promises of one shape. -/
structure ShapeOk (t : ShapeTable) (id : ℕ) (s : Shape) : Prop where
  id_eq : s.id = id
  index_of : s.index.Of s.properties
  transition : ∀ k c, s.transitions k = some c → c < t.shapes.length ∧ k ∉ s.properties ∧
    (t.shape c).properties = s.properties ++ [k]

/-- Ids are positions, slots are positions of keys, and transitions go to the key
sequence they say. -/
structure Ok (t : ShapeTable) : Prop where
  empty_id : t.emptyId = 0
  empty_properties : 0 < t.shapes.length ∧ (t.shape 0).properties = []
  shapes : ∀ id, id < t.shapes.length → t.ShapeOk id (t.shape id)

/-- A later table: the old shapes keep their keys and slots. -/
structure Extends (t t' : ShapeTable) : Prop where
  length : t.shapes.length ≤ t'.shapes.length
  keeps : ∀ id, id < t.shapes.length → (t'.shape id).properties = (t.shape id).properties ∧
    (t'.shape id).index = (t.shape id).index

theorem Extends.refl (t : ShapeTable) : t.Extends t := ⟨le_rfl, fun _ _ => ⟨rfl, rfl⟩⟩

theorem Extends.trans {t u v : ShapeTable} (h : t.Extends u) (h' : u.Extends v) :
    t.Extends v where
  length := h.length.trans h'.length
  keeps id hid := by
    obtain ⟨h₁, h₂⟩ := h.keeps id hid
    obtain ⟨h₁', h₂'⟩ := h'.keeps id (hid.trans_le h.length)
    exact ⟨h₁'.trans h₁, h₂'.trans h₂⟩

theorem ok_new : new.Ok where
  empty_id := rfl
  empty_properties := ⟨by decide, rfl⟩
  shapes id hid := by
    obtain rfl : id = 0 := by simpa [new] using hid
    exact ⟨rfl, Index.of_empty, by simp [new, shape, Shape.empty]⟩

@[simp] theorem addChild_length (t : ShapeTable) (id : ℕ) (key : String) :
    (t.addChild id key).shapes.length = t.shapes.length + 1 := by
  simp [addChild]

theorem addProperty_length_le (t : ShapeTable) (id : ℕ) (key : String) :
    t.shapes.length ≤ (t.addProperty id key).2.shapes.length := by
  unfold addProperty
  split
  · exact le_rfl
  · split
    · exact le_rfl
    · simp

/-- The shapes after a child was added. -/
theorem shape_addChild {t : ShapeTable} {id : ℕ} (hid : id < t.shapes.length) (key : String)
    (j : ℕ) : (t.addChild id key).shape j =
      if j = id then t.parentOf id key
      else if j = t.shapes.length then t.childOf id key else t.shape j := by
  simp only [addChild, shape, List.getD_eq_getElem?_getD, List.getElem?_set, List.length_append,
    List.length_singleton]
  by_cases hj : j = id
  · subst hj
    simp [show j < t.shapes.length + 1 by omega]
  · rw [if_neg (Ne.symm hj), if_neg hj, List.getElem?_append]
    by_cases hlast : j = t.shapes.length
    · subst hlast
      simp
    · rw [if_neg hlast]
      split_ifs with hlt
      · rfl
      · rw [List.getElem?_eq_none (by simp; omega), List.getElem?_eq_none (by omega)]

theorem addChild_extends {t : ShapeTable} {id : ℕ} (hid : id < t.shapes.length) (key : String) :
    t.Extends (t.addChild id key) := by
  refine ⟨by simp, fun j hj => ?_⟩
  rw [shape_addChild hid]
  split_ifs with hji hjl
  · subst hji
    exact ⟨rfl, rfl⟩
  · omega
  · exact ⟨rfl, rfl⟩

theorem shape_addChild_last {t : ShapeTable} {id : ℕ} (hid : id < t.shapes.length) (key : String) :
    (t.addChild id key).shape t.shapes.length = t.childOf id key := by
  rw [shape_addChild hid, if_neg (by omega), if_pos rfl]

/-- A table below the id limit takes a child for a key its parent lacks. -/
theorem Ok.addChild {t : ShapeTable} (h : t.Ok) {id : ℕ} (hid : id < t.shapes.length)
    {key : String} (hmem : key ∉ (t.shape id).properties) (hlen : t.shapes.length < 2 ^ 32) :
    (t.addChild id key).Ok := by
  have hext := addChild_extends hid key
  have hmod : t.shapes.length % 2 ^ 32 = t.shapes.length := Nat.mod_eq_of_lt hlen
  have hlast := shape_addChild_last hid key
  refine ⟨h.empty_id, ⟨by simp, ?_⟩, fun j hj => ?_⟩
  · rw [(hext.keeps 0 h.empty_properties.1).1]
    exact h.empty_properties.2
  · rw [addChild_length] at hj
    by_cases hjl : j = t.shapes.length
    · subst hjl
      rw [hlast]
      exact ⟨hmod, (h.shapes id hid).index_of.insert hmem, by simp [childOf]⟩
    · have hj' : j < t.shapes.length := by omega
      have hjok := h.shapes j hj'
      have hold : ∀ k c, (t.shape j).transitions k = some c →
          c < (t.addChild id key).shapes.length ∧ k ∉ (t.shape j).properties ∧
            ((t.addChild id key).shape c).properties = (t.shape j).properties ++ [k] := by
        intro k c hkc
        obtain ⟨hc, hkm, hcp⟩ := hjok.transition k c hkc
        exact ⟨by simp; omega, hkm, by rw [(hext.keeps c hc).1, hcp]⟩
      rw [shape_addChild hid, if_neg hjl]
      split_ifs with hjid
      · subst hjid
        refine ⟨hjok.id_eq, hjok.index_of, fun k c hkc => ?_⟩
        simp only [parentOf] at hkc
        split_ifs at hkc with hk
        · obtain rfl := Option.some.inj hkc
          subst hk
          exact ⟨by simp; omega, hmem, by rw [hmod, hlast]; rfl⟩
        · exact hold k c hkc
      · exact ⟨hjok.id_eq, hjok.index_of, hold⟩

/-- Adding a key keeps a table below the id limit in order, and gives the shape of
the extended key sequence. -/
theorem addProperty_spec {t : ShapeTable} (h : t.Ok) {id : ℕ} (hid : id < t.shapes.length)
    (key : String) (hlen : (t.addProperty id key).2.shapes.length ≤ 2 ^ 32) :
    (t.addProperty id key).2.Ok ∧ t.Extends (t.addProperty id key).2 ∧
      (t.addProperty id key).1 < (t.addProperty id key).2.shapes.length ∧
      ((t.addProperty id key).2.shape (t.addProperty id key).1).properties =
        if key ∈ (t.shape id).properties then (t.shape id).properties
        else (t.shape id).properties ++ [key] := by
  have hp := h.shapes id hid
  unfold addProperty at hlen ⊢
  cases hix : (t.shape id).index key with
  | some i =>
    have hmem : key ∈ (t.shape id).properties := hp.index_of.isSome_iff.mp (by rw [hix]; rfl)
    rw [if_pos hmem]
    exact ⟨h, .refl t, hid, rfl⟩
  | none =>
    have hmem : key ∉ (t.shape id).properties := hp.index_of.eq_none_iff.mp hix
    simp only [hix] at hlen ⊢
    rw [if_neg hmem]
    cases htr : (t.shape id).transitions key with
    | some c =>
      obtain ⟨hc, -, hprops⟩ := hp.transition key c htr
      exact ⟨h, .refl t, hc, hprops⟩
    | none =>
      simp only [htr, addChild_length] at hlen ⊢
      have hmod : t.shapes.length % 2 ^ 32 = t.shapes.length := Nat.mod_eq_of_lt (by omega)
      refine ⟨h.addChild hid hmem (by omega), addChild_extends hid key, by omega, ?_⟩
      rw [hmod, shape_addChild_last hid]
      rfl

theorem addProperties_length_le (t : ShapeTable) (id : ℕ) (ks : List String) :
    t.shapes.length ≤ (t.addProperties id ks).2.shapes.length := by
  induction ks generalizing t id with
  | nil => exact le_rfl
  | cons k ks ih => exact (addProperty_length_le t id k).trans (ih _ _)

/-- `id` is the shape of a key sequence. -/
def IdOf (t : ShapeTable) (id : ℕ) (ks : List String) : Prop :=
  id < t.shapes.length ∧ (t.shape id).properties = ks

theorem IdOf.mono {t t' : ShapeTable} {id : ℕ} {ks : List String} (h : t.IdOf id ks)
    (hext : t.Extends t') : t'.IdOf id ks :=
  ⟨h.1.trans_le hext.length, (hext.keeps id h.1).1.trans h.2⟩

/-- Interning a sequence of new keys gives the shape of the extended sequence. -/
theorem addProperties_spec {t : ShapeTable} (h : t.Ok) {id : ℕ} {done ks : List String}
    (hid : t.IdOf id done) (hnd : (done ++ ks).Nodup)
    (hlen : (t.addProperties id ks).2.shapes.length ≤ 2 ^ 32) :
    (t.addProperties id ks).2.Ok ∧ t.Extends (t.addProperties id ks).2 ∧
      (t.addProperties id ks).2.IdOf (t.addProperties id ks).1 (done ++ ks) := by
  induction ks generalizing t id done with
  | nil => exact ⟨h, .refl t, by rwa [List.append_nil]⟩
  | cons k ks ih =>
    have hk : k ∉ (t.shape id).properties := by
      rw [hid.2]
      exact fun hm => (List.nodup_append.mp hnd).2.2 k hm k (by simp) rfl
    obtain ⟨hok, hext, hlt, hprops⟩ := addProperty_spec h hid.1 k
      ((addProperties_length_le _ _ _).trans hlen)
    rw [if_neg hk, hid.2] at hprops
    have hsplit : done ++ k :: ks = (done ++ [k]) ++ ks := by simp
    rw [hsplit] at hnd ⊢
    obtain ⟨hok', hext', hid'⟩ := ih hok ⟨hlt, hprops⟩ hnd hlen
    exact ⟨hok', hext.trans hext', hid'⟩

end ShapeTable

end Conclave.Js
