import Conclave.Dom.Document

/-! Attributes by name, where names that differ in case alone are the same. -/

namespace Conclave.Dom

open Lib

namespace AttrMap

variable {m : AttrMap} {name value k : Text}

/-- No two names are alike. -/
def Distinct (m : AttrMap) : Prop := (m.map fun kv => Text.toAsciiLowercase kv.1).Nodup

theorem eqIgnoreAsciiCase_iff {a b : Text} :
    eqIgnoreAsciiCase a b = true ↔ Text.toAsciiLowercase a = Text.toAsciiLowercase b :=
  beq_iff_eq

theorem eqIgnoreAsciiCase_congr {a b c : Text} (h : eqIgnoreAsciiCase a b = true) :
    eqIgnoreAsciiCase a c = eqIgnoreAsciiCase b c := by
  rw [eqIgnoreAsciiCase, eqIgnoreAsciiCase, eqIgnoreAsciiCase_iff.mp h]

theorem get_cons (kv : Text × Text) (m : AttrMap) (k : Text) :
    get (kv :: m) k = if eqIgnoreAsciiCase kv.1 k then some kv.2 else get m k := by
  rw [get, List.find?_cons]
  cases eqIgnoreAsciiCase kv.1 k <;> rfl

theorem set_fst (name value : Text) (m : AttrMap) : (set name value m).1 = get m name := by
  induction m with
  | nil => rfl
  | cons kv m ih =>
    rw [get_cons, set]
    split
    · rfl
    · exact ih

theorem get_set (name value : Text) (m : AttrMap) (k : Text) :
    get (set name value m).2 k = if eqIgnoreAsciiCase name k then some value else get m k := by
  induction m with
  | nil => exact get_cons (name, value) [] k
  | cons kv m ih =>
    obtain ⟨k', v'⟩ := kv
    by_cases hk : eqIgnoreAsciiCase k' name = true
    · rw [set, if_pos hk, get_cons, get_cons, eqIgnoreAsciiCase_congr hk]
      cases eqIgnoreAsciiCase name k <;> rfl
    · rw [set, if_neg hk, get_cons, get_cons, ih]
      by_cases hname : eqIgnoreAsciiCase name k = true
      · have hk' : ¬ eqIgnoreAsciiCase k' k = true := fun hkk => hk (by
          rw [eqIgnoreAsciiCase_iff] at hkk hname ⊢
          rw [hkk, hname])
        simp [hname, hk']
      · simp [hname]

theorem remove_fst (name : Text) (m : AttrMap) : (remove name m).1 = get m name := by
  induction m with
  | nil => rfl
  | cons kv m ih =>
    rw [get_cons, remove]
    split
    · rfl
    · exact ih

theorem get_eq_none (h : ∀ kv ∈ m, ¬ eqIgnoreAsciiCase kv.1 k = true) : get m k = none := by
  rw [get, List.find?_eq_none.mpr h]
  rfl

theorem get_remove (hd : Distinct m) (name k : Text) :
    get (remove name m).2 k = if eqIgnoreAsciiCase name k then none else get m k := by
  induction m with
  | nil => simp [remove, get]
  | cons kv m ih =>
    obtain ⟨k', v'⟩ := kv
    obtain ⟨hk'm, hd⟩ := List.nodup_cons.mp hd
    by_cases hk : eqIgnoreAsciiCase k' name = true
    · rw [remove, if_pos hk, get_cons]
      by_cases hname : eqIgnoreAsciiCase name k = true
      · rw [if_pos hname]
        refine get_eq_none fun kv hkv hkk => hk'm (List.mem_map.mpr ⟨kv, hkv, ?_⟩)
        rw [eqIgnoreAsciiCase_iff] at hk hname hkk
        exact hkk.trans (hname.symm.trans hk.symm)
      · rw [if_neg hname, eqIgnoreAsciiCase_congr hk, if_neg hname]
    · rw [remove, if_neg hk, get_cons, get_cons, ih hd]
      by_cases hname : eqIgnoreAsciiCase name k = true
      · have hk' : ¬ eqIgnoreAsciiCase k' k = true := fun hkk => hk (by
          rw [eqIgnoreAsciiCase_iff] at hkk hname ⊢
          rw [hkk, hname])
        simp [hname, hk']
      · simp [hname]

theorem keys_set (name value : Text) (m : AttrMap) :
    (set name value m).2.map Prod.fst = m.map Prod.fst ∨
      (∀ kv ∈ m, ¬ eqIgnoreAsciiCase kv.1 name = true) ∧
        (set name value m).2.map Prod.fst = m.map Prod.fst ++ [name] := by
  induction m with
  | nil => exact .inr ⟨by simp, rfl⟩
  | cons kv m ih =>
    obtain ⟨k', v'⟩ := kv
    rw [set]
    by_cases hk : eqIgnoreAsciiCase k' name = true
    · rw [if_pos hk]
      exact .inl rfl
    · rw [if_neg hk]
      refine ih.imp (fun h => by simp [h]) fun h => ⟨?_, by simp [h.2]⟩
      rintro kv (_ | ⟨_, hm⟩)
      · exact hk
      · exact h.1 kv hm

theorem Distinct.set (hd : Distinct m) (name value : Text) : Distinct (AttrMap.set name value m).2 := by
  have hmap : ∀ m : AttrMap, m.map (fun kv => Text.toAsciiLowercase kv.1) =
      (m.map Prod.fst).map Text.toAsciiLowercase := fun m => (List.map_map ..).symm
  rw [Distinct, hmap] at hd ⊢
  obtain h | ⟨hnone, h⟩ := keys_set name value m
  · rwa [h]
  · rw [h, List.map_append, List.nodup_append]
    refine ⟨hd, List.nodup_singleton _, ?_⟩
    intro a ha b hb heq
    obtain ⟨key, hkey, rfl⟩ := List.mem_map.mp ha
    obtain ⟨kv, hkv, rfl⟩ := List.mem_map.mp hkey
    rw [List.mem_singleton.mp hb] at heq
    exact hnone kv hkv (eqIgnoreAsciiCase_iff.mpr heq)

theorem Distinct.remove (hd : Distinct m) (name : Text) : Distinct (AttrMap.remove name m).2 := by
  refine hd.sublist (List.Sublist.map _ ?_)
  clear hd
  induction m with
  | nil => exact List.Sublist.refl _
  | cons kv m ih =>
    rw [AttrMap.remove]
    split
    · exact List.sublist_cons_self _ _
    · exact ih.cons_cons _

end AttrMap

end Conclave.Dom
