import Conclave.Js.Shapes

/-! Interning a key sequence once more finds the shape that has it, and leaves the table
alone. -/

namespace Conclave.Js.ShapeTable

variable {t : ShapeTable}

/-- The tables a process can have: shapes are made by adding keys to others. -/
inductive Grown : ShapeTable → Prop where
  | new : Grown new
  | add {t : ShapeTable} {id : ℕ} {key : String} (h : Grown t) (hid : id < t.shapes.length)
    (hlen : (t.addProperty id key).2.shapes.length ≤ 2 ^ 32) : Grown (t.addProperty id key).2

/-- The keys of a shape lead from the empty shape to it along transitions that are there. -/
def Interned (t : ShapeTable) : Prop :=
  ∀ id < t.shapes.length, t.addProperties t.emptyId (t.shape id).properties = (id, t)

theorem Grown.ok (h : t.Grown) : t.Ok := by
  induction h with
  | new => exact ok_new
  | add _ hid hlen ih => exact (addProperty_spec ih hid _ hlen).1

theorem Grown.length_le (h : t.Grown) : t.shapes.length ≤ 2 ^ 32 := by
  cases h with
  | new => decide
  | add _ _ hlen => exact hlen

theorem addProperties_append (t : ShapeTable) (id : ℕ) (ks ks' : List String) :
    t.addProperties id (ks ++ ks') =
      (t.addProperties id ks).2.addProperties (t.addProperties id ks).1 ks' := by
  induction ks generalizing t id with
  | nil => rfl
  | cons k ks ih => exact ih _ _

/-- A step that finds its shape finds it after a child was added elsewhere. -/
theorem addProperty_addChild {id s c : ℕ} {key k : String} (hid : id < t.shapes.length)
    (hs : s < t.shapes.length) (hnone : (t.shape id).transitions key = none)
    (h : t.addProperty s k = (c, t)) :
    (t.addChild id key).addProperty s k = (c, t.addChild id key) := by
  have hkeep := ((addChild_extends hid key).keeps s hs).2
  unfold addProperty at h ⊢
  rw [hkeep]
  cases hix : (t.shape s).index k with
  | some i =>
    rw [hix] at h
    rw [(Prod.mk.inj h).1]
  | none =>
    rw [hix] at h
    cases htr : (t.shape s).transitions k with
    | some target =>
      have htr' : ((t.addChild id key).shape s).transitions k = some target := by
        rw [shape_addChild hid]
        split_ifs with hsid hslast
        · subst hsid
          have hne : k ≠ key := by
            rintro rfl
            rw [hnone] at htr
            cases htr
          simp [parentOf, hne, htr]
        · omega
        · exact htr
      simp only [htr] at h
      simp only [htr', (Prod.mk.inj h).1]
    | none =>
      -- a step that adds a shape does not leave the table alone
      simp only [htr] at h
      have hlen := congrArg (·.shapes.length) (Prod.mk.inj h).2
      simp at hlen

theorem addProperties_addChild (hok : t.Ok) {id s c : ℕ} {key : String} {ks : List String}
    (hid : id < t.shapes.length) (hs : s < t.shapes.length)
    (hnone : (t.shape id).transitions key = none) (hlen : t.shapes.length ≤ 2 ^ 32)
    (h : t.addProperties s ks = (c, t)) :
    (t.addChild id key).addProperties s ks = (c, t.addChild id key) := by
  induction ks generalizing s with
  | nil =>
    obtain rfl := (Prod.mk.inj h).1
    rfl
  | cons k ks ih =>
    have hsame : (t.addProperty s k).2 = t := by
      have hgrow := addProperties_length_le (t.addProperty s k).2 (t.addProperty s k).1 ks
      have hend := congrArg (·.2.shapes.length) h
      simp only [addProperties] at hend
      rw [hend] at hgrow
      cases hix : (t.shape s).index k with
      | some i => simp only [addProperty, hix]
      | none =>
        cases htr : (t.shape s).transitions k with
        | some target => simp only [addProperty, hix, htr]
        | none =>
          simp only [addProperty, hix, htr, addChild_length] at hgrow
          omega
    have hstep : t.addProperty s k = ((t.addProperty s k).1, t) := Prod.ext rfl hsame
    have hlt : (t.addProperty s k).1 < t.shapes.length := by
      have hspec := (addProperty_spec hok hs k (hsame.symm ▸ hlen)).2.2.1
      rwa [hsame] at hspec
    rw [addProperties, addProperty_addChild hid hs hnone hstep]
    rw [addProperties, hstep] at h
    exact ih hlt h

/-- Every shape of a process is found again by its keys. -/
theorem Grown.interned (h : t.Grown) : t.Interned := by
  induction h with
  | new =>
    intro id hid
    obtain rfl : id = 0 := by simpa [ShapeTable.new] using hid
    rfl
  | @add t id key h hid hlen ih =>
    unfold addProperty at hlen ⊢
    cases hix : (t.shape id).index key with
    | some i => exact ih
    | none =>
      cases htr : (t.shape id).transitions key with
      | some target => simpa only [hix, htr] using ih
      | none =>
        simp only [hix, htr, addChild_length] at hlen ⊢
        intro j hj
        have hempty : t.emptyId < t.shapes.length := by
          rw [h.ok.empty_id]
          exact h.ok.empty_properties.1
        rw [addChild_length] at hj
        have hold : ∀ i < t.shapes.length, (t.addChild id key).addProperties t.emptyId
            (t.shape i).properties = (i, t.addChild id key) := fun i hi =>
          addProperties_addChild h.ok hid hempty htr h.length_le (ih i hi)
        have hid₀ : (t.addChild id key).emptyId = t.emptyId := rfl
        rw [hid₀]
        by_cases hlast : j = t.shapes.length
        · subst hlast
          have hmod : t.shapes.length % 2 ^ 32 = t.shapes.length := Nat.mod_eq_of_lt (by omega)
          have hkeys : ((t.addChild id key).shape t.shapes.length).properties =
              (t.shape id).properties ++ [key] := by rw [shape_addChild_last hid]; rfl
          have hix' : ((t.addChild id key).shape id).index key = none := by
            rw [((addChild_extends hid key).keeps id hid).2, hix]
          have htr' : ((t.addChild id key).shape id).transitions key =
              some t.shapes.length := by
            rw [shape_addChild hid, if_pos rfl]
            exact (if_pos rfl).trans (congrArg some hmod)
          rw [hkeys, addProperties_append, hold id hid]
          simp only [addProperties, addProperty, hix', htr']
        · rw [((addChild_extends hid key).keeps j (by omega)).1]
          exact hold j (by omega)

end Conclave.Js.ShapeTable
