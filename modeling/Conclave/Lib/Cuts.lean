import Mathlib

/-! Where the cutting of a list at a character stops, and what it leaves of the parts. -/

namespace Conclave.Lib

variable {α : Type*} {p q : α → Bool} {l rest : List α}

/-- The rest is empty, or begins with an element that fails the predicate. -/
def Stops (p : α → Bool) (rest : List α) : Prop := ∀ a, rest.head? = some a → p a = false

theorem takeWhile_append_stops (hl : ∀ a ∈ l, p a) (h : Stops p rest) :
    (l ++ rest).takeWhile p = l := by
  rw [List.takeWhile_append_of_pos hl]
  cases rest with
  | nil => exact List.append_nil l
  | cons a rest => rw [List.takeWhile_cons, h a rfl]; exact List.append_nil l

theorem dropWhile_append_stops (hl : ∀ a ∈ l, p a) (h : Stops p rest) :
    (l ++ rest).dropWhile p = rest := by
  rw [List.dropWhile_append_of_pos hl]
  cases rest with
  | nil => rfl
  | cons a rest => rw [List.dropWhile_cons, h a rfl]; rfl

theorem stops_dropWhile (p : α → Bool) (l : List α) : Stops p (l.dropWhile p) := by
  intro a ha
  have h := List.head?_dropWhile_not p l
  rw [ha] at h
  simpa using h

theorem dropWhile_append_kept {a : α} (h : p a = false) (l rest : List α) :
    (l ++ a :: rest).dropWhile p = l.dropWhile p ++ a :: rest := by
  induction l with
  | nil => rw [List.nil_append, List.dropWhile_cons, h]; rfl
  | cons b l ih =>
    rw [List.cons_append, List.dropWhile_cons, List.dropWhile_cons, ih]
    cases p b <;> rfl

/-- Nothing is dropped from the right past an element that fails the predicate. -/
theorem rdropWhile_append_kept {a : α} (h : p a = false) (l rest : List α) :
    (l ++ a :: rest).rdropWhile p = l ++ a :: rest.rdropWhile p := by
  induction rest using List.reverseRecOn with
  | nil => exact List.rdropWhile_concat_neg p l a (by simp [h])
  | append_singleton rest b ih =>
    rw [← List.cons_append, ← List.append_assoc, List.rdropWhile_concat, List.rdropWhile_concat]
    cases p b
    · simp
    · simpa using ih

/-- A cut through a list from which only elements that the cut passes over were taken. -/
theorem mem_takeWhile_filter {a : α} (hq : ∀ b, q b = false → p b = true) {l : List α}
    (h : a ∈ (l.filter q).takeWhile p) : a ∈ l.takeWhile p := by
  induction l with
  | nil => exact h
  | cons b l ih =>
    cases hb : q b with
    | false =>
      rw [List.filter_cons_of_neg (by simp [hb])] at h
      rw [List.takeWhile_cons_of_pos (hq b hb)]
      exact List.mem_cons_of_mem b (ih h)
    | true =>
      rw [List.filter_cons_of_pos hb] at h
      cases hp : p b with
      | false => simp [hp] at h
      | true =>
        rw [List.takeWhile_cons_of_pos hp] at h ⊢
        cases List.mem_cons.mp h with
        | inl h => exact h ▸ List.mem_cons_self
        | inr h => exact List.mem_cons_of_mem b (ih h)

theorem mem_takeWhile_prefix {a : α} {l₁ l₂ : List α} (hl : l₁ <+: l₂)
    (h : a ∈ l₁.takeWhile p) : a ∈ l₂.takeWhile p := by
  obtain ⟨t, rfl⟩ := hl
  rw [List.takeWhile_append]
  split
  · next heq => exact List.mem_append_left _ ((List.takeWhile_prefix p).subset h)
  · exact h

/-- Two lists with the same first separator. -/
theorem append_cons_inj {x : α} {a b s t : List α} (ha : x ∉ a) (hb : x ∉ b)
    (h : a ++ x :: s = b ++ x :: t) : a = b ∧ s = t := by
  induction a generalizing b with
  | nil =>
    cases b with
    | nil => exact ⟨rfl, List.tail_eq_of_cons_eq h⟩
    | cons c b =>
      obtain ⟨rfl, -⟩ := List.cons.inj h
      exact absurd List.mem_cons_self hb
  | cons c a ih =>
    cases b with
    | nil =>
      obtain ⟨rfl, -⟩ := List.cons.inj h
      exact absurd List.mem_cons_self ha
    | cons d b =>
      obtain ⟨rfl, htail⟩ := List.cons.inj h
      obtain ⟨rfl, hst⟩ := ih (fun hm => ha (List.mem_cons_of_mem _ hm))
        (fun hm => hb (List.mem_cons_of_mem _ hm)) htail
      exact ⟨rfl, hst⟩

/-! ### Parts between separators -/

variable [DecidableEq α] {x : α}

theorem not_mem_of_mem_splitOn (x : α) (l : List α) : ∀ part ∈ l.splitOn x, x ∉ part := by
  induction l with
  | nil => simp [List.splitOn_nil]
  | cons a l ih =>
    rw [List.splitOn_cons_eq_if_modifyHead]
    split
    · simpa using ih
    · next ha =>
      cases hs : l.splitOn x with
      | nil => exact absurd hs (List.splitOn_ne_nil x l)
      | cons first others =>
        rw [hs] at ih
        intro part hpart
        cases List.mem_cons.mp hpart with
        | inl h =>
          rw [h, List.mem_cons, not_or]
          exact ⟨fun he => ha (by simp [he]), ih first List.mem_cons_self⟩
        | inr h => exact ih part (List.mem_cons_of_mem first h)

/-- Parts rewritten one by one and put together again are the parts of the whole. -/
theorem splitOn_intercalate_map {f : List α → List α} (hf : ∀ part, x ∉ part → x ∉ f part)
    (l : List α) : ([x].intercalate ((l.splitOn x).map f)).splitOn x = (l.splitOn x).map f := by
  apply List.splitOn_intercalate
  · intro part hpart
    obtain ⟨part', h', rfl⟩ := List.mem_map.mp hpart
    exact hf part' (not_mem_of_mem_splitOn x l part' h')
  · simp

omit [DecidableEq α] in
theorem mem_intercalate {sep part : List α} {parts : List (List α)} (h : part ∈ parts) :
    ∀ a ∈ part, a ∈ sep.intercalate parts := by
  induction parts with
  | nil => exact nomatch h
  | cons first others ih =>
    intro a ha
    cases others with
    | nil =>
      obtain rfl := List.mem_singleton.mp h
      rwa [List.intercalate_singleton]
    | cons second others =>
      rw [List.intercalate_cons_cons]
      cases List.mem_cons.mp h with
      | inl h => exact List.mem_append_left _ (List.mem_append_left _ (h ▸ ha))
      | inr h => exact List.mem_append_right _ (ih h a ha)

omit [DecidableEq α] in
theorem intercalate_concat {parts : List (List α)} (h : parts ≠ []) (t : List α) :
    [x].intercalate (parts ++ [t]) = [x].intercalate parts ++ x :: t := by
  induction parts with
  | nil => exact absurd rfl h
  | cons first parts ih =>
    cases parts with
    | nil => simp [List.intercalate_cons_cons]
    | cons second parts =>
      rw [List.cons_append, List.cons_append, List.intercalate_cons_cons, ← List.cons_append,
        ih (by simp), List.intercalate_cons_cons]
      simp only [List.append_assoc]

omit [DecidableEq α] in
theorem mem_or_of_mem_intercalate {sep : List α} {parts : List (List α)} {a : α}
    (h : a ∈ sep.intercalate parts) : a ∈ sep ∨ ∃ part ∈ parts, a ∈ part := by
  induction parts with
  | nil => exact nomatch h
  | cons first others ih =>
    cases others with
    | nil => exact .inr ⟨first, List.mem_cons_self, by rwa [List.intercalate_singleton] at h⟩
    | cons second others =>
      rw [List.intercalate_cons_cons, List.append_assoc] at h
      cases List.mem_append.mp h with
      | inl h => exact .inr ⟨first, List.mem_cons_self, h⟩
      | inr h =>
        cases List.mem_append.mp h with
        | inl h => exact .inl h
        | inr h =>
          apply (ih h).imp_right
          exact fun ⟨part, hpart, ha⟩ => ⟨part, List.mem_cons_of_mem first hpart, ha⟩

theorem mem_of_mem_splitOn {part l : List α} (h : part ∈ l.splitOn x) : ∀ a ∈ part, a ∈ l := by
  have hparts : ∀ a ∈ part, a ∈ [x].intercalate (l.splitOn x) := mem_intercalate h
  rwa [List.intercalate_splitOn] at hparts

omit [DecidableEq α] in
theorem map_intercalate (f : α → α) (sep : List α) (parts : List (List α)) :
    (sep.intercalate parts).map f = (sep.map f).intercalate (parts.map (List.map f)) := by
  induction parts with
  | nil => rfl
  | cons first parts ih =>
    cases parts with
    | nil => simp
    | cons second parts =>
      rw [List.map_cons] at ih
      simp [List.intercalate_cons_cons, ih]

/-- A map that keeps the separator, and makes no other element one, maps the parts. -/
theorem splitOn_map {f : α → α} (hx : ∀ a, f a = x ↔ a = x) (l : List α) :
    (l.map f).splitOn x = (l.splitOn x).map (List.map f) := by
  have hf : ∀ part : List α, x ∉ part → x ∉ part.map f := by
    intro part hpart hmem
    obtain ⟨a, ha, hfa⟩ := List.mem_map.mp hmem
    exact hpart ((hx a).mp hfa ▸ ha)
  calc (l.map f).splitOn x = (([x].intercalate (l.splitOn x)).map f).splitOn x := by
        rw [List.intercalate_splitOn]
    _ = ([x].intercalate ((l.splitOn x).map (List.map f))).splitOn x := by
        rw [map_intercalate, List.map_singleton, (hx x).mpr rfl]
    _ = (l.splitOn x).map (List.map f) := splitOn_intercalate_map hf l

end Conclave.Lib
