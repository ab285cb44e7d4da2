import Mathlib

/-! Ordered entry lists. An entry list with distinct keys is an insertion-ordered
map; a position index over its keys answers lookups. The operations by key are
stated without positions, and each is the operation at the position the index
gives. -/

namespace Conclave.Lib

variable {α β : Type*} [DecidableEq α]

/-! ### Position indices -/

/-- A map from keys to positions. -/
abbrev Index (α : Type*) := α → Option ℕ

namespace Index

def empty : Index α := fun _ => none

def insert (ix : Index α) (a : α) (i : ℕ) : Index α := fun b => if b = a then some i else ix b

def erase (ix : Index α) (a : α) : Index α := fun b => if b = a then none else ix b

def mapValues (ix : Index α) (f : ℕ → ℕ) : Index α := fun b => (ix b).map f

/-- Number keys from `n` on. -/
def number (ix : Index α) : ℕ → List α → Index α
  | _, [] => ix
  | n, a :: as => number (ix.insert a n) (n + 1) as

/-- The index of a key list: every key at its one position. -/
def Of (ix : Index α) (ks : List α) : Prop := ∀ a i, ix a = some i ↔ ks[i]? = some a

variable {ix : Index α} {ks : List α}

omit [DecidableEq α] in
theorem of_empty : Of (empty : Index α) [] := by
  simp [Of, empty]

omit [DecidableEq α] in
theorem Of.nodup (h : ix.Of ks) : ks.Nodup := by
  rw [List.nodup_iff_getElem?_ne_getElem?]
  intro i j hij hj heq
  rw [List.getElem?_eq_getElem hj] at heq
  have hi := (h _ _).mpr heq
  have hj' := (h _ _).mpr (List.getElem?_eq_getElem hj)
  rw [hi, Option.some.injEq] at hj'
  omega

omit [DecidableEq α] in
theorem Of.eq_none_iff (h : ix.Of ks) {a : α} : ix a = none ↔ a ∉ ks := by
  rw [List.mem_iff_getElem?, not_exists]
  constructor
  · intro hn i hi
    rw [(h a i).mpr hi] at hn
    cases hn
  · intro hn
    cases ha : ix a with
    | none => rfl
    | some i => exact absurd ((h a i).mp ha) (hn i)

omit [DecidableEq α] in
theorem Of.isSome_iff (h : ix.Of ks) {a : α} : (ix a).isSome = true ↔ a ∈ ks := by
  rw [Option.isSome_iff_ne_none, ne_eq, h.eq_none_iff, not_not]

omit [DecidableEq α] in
theorem Of.lt (h : ix.Of ks) {a : α} {i : ℕ} (ha : ix a = some i) : i < ks.length :=
  (List.getElem?_eq_some_iff.mp ((h a i).mp ha)).1

/-- The position of a key is the first place it is found. -/
theorem Of.eq_idxOf? (h : ix.Of ks) (a : α) : ix a = ks.idxOf? a := by
  symm
  cases ha : ix a with
  | none => exact List.idxOf?_eq_none_iff.mpr (h.eq_none_iff.mp ha)
  | some i =>
    obtain ⟨hlt, hi⟩ := List.getElem?_eq_some_iff.mp ((h a i).mp ha)
    refine List.idxOf?_eq_some_iff.mpr ⟨hlt, hi, fun j hj hja => ?_⟩
    exact hj.ne (h.nodup.getElem_inj_iff.mp (hja.trans hi.symm))

/-- A new key goes to the end. -/
theorem Of.insert (h : ix.Of ks) {a : α} (ha : a ∉ ks) :
    (ix.insert a ks.length).Of (ks ++ [a]) := by
  intro b i
  unfold Index.insert
  by_cases hb : b = a
  · subst hb
    rw [if_pos rfl, Option.some.injEq]
    constructor
    · rintro rfl
      simp
    · intro hi
      rw [List.getElem?_append] at hi
      split_ifs at hi with hlt
      · exact absurd (List.mem_of_getElem? hi) ha
      · have hz : i - ks.length = 0 := by
          have := (List.getElem?_eq_some_iff.mp hi).1
          simpa using this
        omega
  · rw [if_neg hb, h b i, List.getElem?_append]
    split_ifs with hlt
    · rfl
    · constructor
      · intro hi
        exact absurd (List.getElem?_eq_some_iff.mp hi).1 hlt
      · intro hi
        have := List.mem_of_getElem? hi
        exact absurd (by simpa using this) hb

/-- A key that is removed shifts the later positions down. -/
theorem Of.erase (h : ix.Of ks) {a : α} {i : ℕ} (ha : ix a = some i) :
    ((ix.erase a).mapValues fun j => if i < j then j - 1 else j).Of (ks.eraseIdx i) := by
  intro b j
  have hi := (h a i).mp ha
  simp only [mapValues, Index.erase, List.getElem?_eraseIdx]
  by_cases hb : b = a
  · subst hb
    simp only [↓reduceIte, Option.map_none, reduceCtorEq, false_iff]
    split_ifs with hji
    · intro hj
      have := (h b j).mpr hj
      rw [ha, Option.some.injEq] at this
      omega
    · intro hj
      have := (h b (j + 1)).mpr hj
      rw [ha, Option.some.injEq] at this
      omega
  · rw [if_neg hb, Option.map_eq_some_iff]
    constructor
    · rintro ⟨m, hm, hmj⟩
      have hmi : m ≠ i := by
        rintro rfl
        exact hb (Option.some.inj (((h b m).mp hm).symm.trans hi))
      split_ifs at hmj with hlt
      · rw [if_neg (by omega), show j + 1 = m by omega]
        exact (h b m).mp hm
      · rw [if_pos (by omega), ← hmj]
        exact (h b m).mp hm
    · intro hj
      split_ifs at hj with hji
      · exact ⟨j, (h b j).mpr hj, if_neg (by omega)⟩
      · exact ⟨j + 1, (h b (j + 1)).mpr hj, by rw [if_pos (by omega)]; omega⟩

theorem Of.number (h : ix.Of ks) {as : List α} (hnd : (ks ++ as).Nodup) :
    (ix.number ks.length as).Of (ks ++ as) := by
  induction as generalizing ix ks with
  | nil => simpa [Index.number] using h
  | cons a as ih =>
    have ha : a ∉ ks := by
      intro hm
      exact (List.nodup_append.mp hnd).2.2 a hm a (by simp) rfl
    have hsplit : ks ++ a :: as = (ks ++ [a]) ++ as := by simp
    rw [hsplit] at hnd ⊢
    have := ih (h.insert ha) hnd
    rwa [List.length_append, List.length_singleton] at this

theorem number_of {as : List α} (hnd : as.Nodup) : ((empty : Index α).number 0 as).Of as := by
  have h : ([] ++ as : List α).Nodup := by simpa using hnd
  simpa using of_empty.number h

end Index

/-! ### Entry lists -/

namespace Entries

def keys (es : List (α × β)) : List α := es.map Prod.fst

/-- Change the value of a key. -/
def modify (es : List (α × β)) (a : α) (f : β → β) : List (α × β) :=
  es.map fun e => if e.1 = a then (e.1, f e.2) else e

/-- Change the value of a key, or append the key. -/
def upsert (es : List (α × β)) (a : α) (f : β → β) (b : β) : List (α × β) :=
  if a ∈ keys es then modify es a f else es ++ [(a, b)]

/-- Overwrite a key in place, or append it. -/
def put (es : List (α × β)) (a : α) (b : β) : List (α × β) := upsert es a (fun _ => b) b

def erase (es : List (α × β)) (a : α) : List (α × β) := es.filter fun e => e.1 ≠ a

variable {es : List (α × β)} {a : α} {i : ℕ}

omit [DecidableEq α] in
theorem keys_getElem? (es : List (α × β)) (i : ℕ) : (keys es)[i]? = es[i]?.map Prod.fst :=
  List.getElem?_map

theorem keys_modify (es : List (α × β)) (a : α) (f : β → β) : keys (modify es a f) = keys es := by
  simp only [keys, modify, List.map_map]
  apply List.map_congr_left
  intro e _
  simp only [Function.comp_apply]
  split_ifs <;> rfl

/-- The value of a key is the value at its position. -/
theorem lookup_eq (hnd : (keys es).Nodup) (hi : (keys es)[i]? = some a) :
    es.lookup a = es[i]?.map Prod.snd := by
  induction es generalizing i with
  | nil => simp [keys] at hi
  | cons e es ih =>
    obtain ⟨hne, hnd⟩ := List.nodup_cons.mp hnd
    cases i with
    | zero =>
      obtain rfl : e.1 = a := by simpa [keys] using hi
      simp [List.lookup]
    | succ i =>
      have hi' : (keys es)[i]? = some a := by simpa [keys] using hi
      have hea : (a == e.1) = false := by
        rw [beq_eq_false_iff_ne]
        rintro rfl
        exact hne (List.mem_of_getElem? hi')
      rw [List.lookup, hea, ih hnd hi', List.getElem?_cons_succ]

theorem lookup_eq_none (h : a ∉ keys es) : es.lookup a = none := by
  induction es with
  | nil => rfl
  | cons e es ih =>
    simp only [keys, List.map_cons, List.mem_cons, not_or] at h
    have hea : (a == e.1) = false := beq_eq_false_iff_ne.mpr h.1
    rw [List.lookup, hea]
    exact ih h.2

/-- Changing the value of a key changes the entry at its position. -/
theorem modify_eq (hnd : (keys es).Nodup) (hi : (keys es)[i]? = some a) (f : β → β) :
    es.modify i (fun e => (e.1, f e.2)) = modify es a f := by
  apply List.ext_getElem?
  intro j
  simp only [List.getElem?_modify, modify, List.getElem?_map]
  cases hj : es[j]? with
  | none => simp
  | some e =>
    have hkey : (keys es)[j]? = some e.1 := by rw [keys_getElem?, hj]; rfl
    by_cases hij : i = j
    · subst hij
      rw [hi, Option.some.injEq] at hkey
      simp [hkey]
    · have hne : e.1 ≠ a := by
        rintro rfl
        exact hij ((List.getElem?_inj (List.getElem?_eq_some_iff.mp hi).1 hnd).mp
          (hi.trans hkey.symm))
      simp [hij, hne]

theorem modify_of_not_mem (h : a ∉ keys es) (f : β → β) : modify es a f = es := by
  refine (List.map_congr_left fun e he => ?_).trans (List.map_id es)
  have hne : e.1 ≠ a := by
    rintro rfl
    exact h (List.mem_map_of_mem he)
  simp [hne]

theorem erase_of_not_mem (h : a ∉ keys es) : erase es a = es := by
  refine List.filter_eq_self.mpr fun e he => ?_
  have hne : e.1 ≠ a := fun heq => h (heq ▸ List.mem_map_of_mem he)
  simpa using hne

omit [DecidableEq α] in
/-- Changing values by position keeps the keys. -/
theorem keys_modifyAt (es : List (α × β)) (i : ℕ) (f : β → β) :
    keys (es.modify i fun e => (e.1, f e.2)) = keys es := by
  apply List.ext_getElem?
  intro j
  simp only [keys, List.getElem?_map, List.getElem?_modify]
  cases es[j]? <;> simp
  split_ifs <;> rfl

/-- Removing a key removes the entry at its position. -/
theorem erase_eq (hnd : (keys es).Nodup) (hi : (keys es)[i]? = some a) :
    es.eraseIdx i = erase es a := by
  induction es generalizing i with
  | nil => simp [keys] at hi
  | cons e es ih =>
    obtain ⟨hne, hnd⟩ := List.nodup_cons.mp hnd
    cases i with
    | zero =>
      obtain rfl : e.1 = a := by simpa [keys] using hi
      have hall : erase es e.1 = es := by
        refine List.filter_eq_self.mpr fun e' he' => ?_
        have : e'.1 ≠ e.1 := fun heq => hne (heq ▸ List.mem_map_of_mem he')
        simpa using this
      rw [List.eraseIdx_cons_zero, erase, List.filter_cons_of_neg (by simp)]
      exact hall.symm
    | succ i =>
      have hi' : (keys es)[i]? = some a := by simpa [keys] using hi
      have hea : e.1 ≠ a := by
        rintro rfl
        exact hne (List.mem_of_getElem? hi')
      rw [List.eraseIdx_cons_succ, ih hnd hi', erase, erase,
        List.filter_cons_of_pos (by simpa using hea)]

omit [DecidableEq α] in
theorem keys_eraseIdx (es : List (α × β)) (i : ℕ) : keys (es.eraseIdx i) = (keys es).eraseIdx i := by
  simp [keys, List.eraseIdx_map]

omit [DecidableEq α] in
theorem keys_zip {ks : List α} {vs : List β} (h : ks.length = vs.length) : keys (ks.zip vs) = ks := by
  unfold keys
  rw [List.map_fst_zip]
  omega

omit [DecidableEq α] in
theorem zip_modify {ks : List α} {vs : List β} (f : β → β) (i : ℕ) :
    ks.zip (vs.modify i f) = (ks.zip vs).modify i fun e => (e.1, f e.2) := by
  apply List.ext_getElem?
  intro j
  simp only [List.getElem?_modify, List.zip, List.getElem?_zipWith]
  cases ks[j]? <;> cases vs[j]? <;> simp
  split_ifs <;> rfl

end Entries

end Conclave.Lib
