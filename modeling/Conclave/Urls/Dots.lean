import Conclave.Urls.Parse

/-! Dot segments. The loop takes them out one after the other, and what is lost of the path
are the slashes that it puts back without looking at the segments. -/

namespace Conclave.Urls

open Lib Ipc

variable {s t : Text} {seg : Text} {segs out : List Text}

def IsDot (seg : Text) : Prop := isDotSegment seg ∨ isDotdotSegment seg

/-! ### Dots and their escapes -/

/-- How many dots a text is, when it is nothing but dots and escapes of dots. -/
def dots : Text → Option ℕ
  | [] => some 0
  | '.' :: s => (dots s).map (· + 1)
  | '%' :: '2' :: e :: s => if e = 'e' ∨ e = 'E' then (dots s).map (· + 1) else none
  | _ => none

theorem dots_escape (a b : Char) (s : Text) :
    dots ('%' :: a :: b :: s) =
      if a = '2' ∧ (b = 'e' ∨ b = 'E') then (dots s).map (· + 1) else none := by
  by_cases ha : a = '2'
  · subst ha
    simp [dots]
  · rw [if_neg fun h => ha h.1]
    unfold dots
    split
    · next heq => simp at heq
    · next heq => simp at heq
    · next heq => simp [ha] at heq
    · rfl

theorem dots_other {c : Char} (hdot : c ≠ '.') (hpercent : c ≠ '%') (s : Text) :
    dots (c :: s) = none := by
  unfold dots
  split
  · next heq => simp at heq
  · next heq => exact absurd (List.cons.inj heq).1 hdot
  · next heq => exact absurd (List.cons.inj heq).1 hpercent
  · rfl

theorem dots_eq_zero (s : Text) : dots s = some 0 ↔ s = [] := by
  unfold dots
  split
  · simp
  · simp
  · split <;> simp
  · next hnil _ _ => simpa using hnil

theorem dots_eq_succ (s : Text) (n : ℕ) :
    dots s = some (n + 1) ↔ ∃ t, dots t = some n ∧
      (s = '.' :: t ∨ s = '%' :: '2' :: 'e' :: t ∨ s = '%' :: '2' :: 'E' :: t) := by
  constructor
  · intro h
    unfold dots at h
    split at h
    · cases h
    · next t => exact ⟨t, by simpa using h, .inl rfl⟩
    · next e t =>
      split at h
      · next he =>
        refine ⟨t, by simpa using h, .inr ?_⟩
        exact he.imp (fun he => by rw [he]) fun he => by rw [he]
      · cases h
    · cases h
  · rintro ⟨t, ht, rfl | rfl | rfl⟩ <;> simp [dots, ht]

theorem lower_eq_e (c : Char) : c.toLower = 'e' ↔ c = 'e' ∨ c = 'E' := by
  have hc : c = 'E' ↔ c.toNat = 69 := by rw [← Char.toNat_inj]; rfl
  have he : c = 'e' ↔ c.toNat = 101 := by rw [← Char.toNat_inj]; rfl
  have hl : c.toLower = 'e' ↔ c.toLower.toNat = 101 := by rw [← Char.toNat_inj]; rfl
  rw [hc, he, hl]
  cases Text.toLower_cases c with
  | inl h => omega
  | inr h => rw [h.2]; omega

theorem lower_eq_dot (c : Char) : c.toLower = '.' ↔ c = '.' := Text.toLower_eq rfl rfl c

theorem lower_eq_percent (c : Char) : c.toLower = '%' ↔ c = '%' := Text.toLower_eq rfl rfl c

theorem lower_eq_two (c : Char) : c.toLower = '2' ↔ c = '2' := Text.toLower_eq rfl rfl c

theorem lower_eq_cons (c : Char) (s t : Text) :
    Text.toAsciiLowercase s = c :: t ↔
      ∃ d u, s = d :: u ∧ d.toLower = c ∧ Text.toAsciiLowercase u = t :=
  List.map_eq_cons_iff

theorem lower_eq_nil (s : Text) : Text.toAsciiLowercase s = [] ↔ s = [] := List.map_eq_nil_iff

theorem isDotSegment_iff (seg : Text) : isDotSegment seg ↔ dots seg = some 1 := by
  have hdot : ".".toList = ['.'] := rfl
  have hescape : "%2e".toList = ['%', '2', 'e'] := rfl
  simp only [isDotSegment, Bool.or_eq_true, beq_iff_eq, hdot, hescape, lower_eq_cons, lower_eq_nil,
    lower_eq_percent, lower_eq_two, lower_eq_e, dots_eq_succ seg 0, dots_eq_zero]
  constructor
  · rintro (rfl | ⟨_, _, rfl, rfl, _, _, rfl, rfl, _, _, rfl, rfl | rfl, rfl⟩) <;> simp
  · rintro ⟨_, rfl, rfl | rfl | rfl⟩ <;> simp

theorem isDotdotSegment_iff (seg : Text) : isDotdotSegment seg ↔ dots seg = some 2 := by
  have hdot : "..".toList = ['.', '.'] := rfl
  have hescape : "%2e%2e".toList = ['%', '2', 'e', '%', '2', 'e'] := rfl
  have hfirst : ".%2e".toList = ['.', '%', '2', 'e'] := rfl
  have hsecond : "%2e.".toList = ['%', '2', 'e', '.'] := rfl
  simp only [isDotdotSegment, Bool.or_eq_true, beq_iff_eq, hdot, hescape, hfirst, hsecond,
    lower_eq_cons, lower_eq_nil, lower_eq_percent, lower_eq_two, lower_eq_e, lower_eq_dot,
    dots_eq_succ seg 1, dots_eq_succ _ 0, dots_eq_zero]
  constructor
  · rintro (((rfl | ⟨_, _, rfl, rfl, _, _, rfl, rfl, _, _, rfl, rfl | rfl, _, _, rfl, rfl, _, _,
      rfl, rfl, _, _, rfl, rfl | rfl, rfl⟩) | ⟨_, _, rfl, rfl, _, _, rfl, rfl, _, _, rfl, rfl, _, _,
      rfl, rfl | rfl, rfl⟩) | ⟨_, _, rfl, rfl, _, _, rfl, rfl, _, _, rfl, rfl | rfl, _, _, rfl, rfl,
      rfl⟩) <;> simp
  · rintro ⟨_, ⟨_, rfl, rfl | rfl | rfl⟩, rfl | rfl | rfl⟩ <;> simp

theorem dots_encodeByte {b : UInt8} (h : b.toNat ≠ '.'.toNat) (s : Text) :
    dots (encodeByte pathNeedsEncode b ++ s) = none := by
  have hb := b.toNat_lt
  unfold encodeByte
  split
  · have hall : ∀ n < 256, n ≠ '.'.toNat → ¬ ((Nat.digitChar (n / 16)).toUpper = '2' ∧
        ((Nat.digitChar (n % 16)).toUpper = 'e' ∨ (Nat.digitChar (n % 16)).toUpper = 'E')) := by
      decide +kernel
    exact (dots_escape _ _ s).trans (if_neg (hall b.toNat hb h))
  · next hkept =>
    simp only [Bool.or_eq_true, beq_iff_eq, not_or, Bool.not_eq_true] at hkept
    have hnat : (Char.ofNat b.toNat).toNat = b.toNat :=
      toNat_ofNat_ascii (isListed_eq_false hkept.1).1
    refine dots_other (fun heq => h ?_) (fun heq => hkept.2 ?_) s
    · rw [← hnat, heq]
    · rw [← hnat, heq]

theorem dots_encodeChar {c : Char} (h : c ≠ '.') (s : Text) :
    dots (encodeChar pathNeedsEncode c ++ s) = none := by
  have hbyte : ∃ b bytes, String.utf8EncodeChar c = b :: bytes ∧ b.toNat ≠ '.'.toNat := by
    by_cases hc : c.toNat < 128
    · refine ⟨_, _, utf8EncodeChar_ascii hc, ?_⟩
      rw [UInt8.toNat_ofNat', Nat.mod_eq_of_lt (by omega)]
      exact fun heq => h (Char.toNat_inj.mp heq)
    · obtain ⟨b, bytes, hbytes⟩ := List.exists_cons_of_ne_nil (@String.utf8EncodeChar_ne_nil c)
      have hhigh := utf8EncodeChar_high hc b (hbytes ▸ List.mem_cons_self)
      refine ⟨b, bytes, hbytes, fun heq => ?_⟩
      rw [heq] at hhigh
      exact absurd hhigh (by decide)
  obtain ⟨b, bytes, hbytes, hne⟩ := hbyte
  rw [encodeChar, hbytes, List.flatMap_cons, List.append_assoc]
  exact dots_encodeByte hne _

/-- Encoding neither makes dots nor takes any away. -/
theorem dots_percentEncodePath (s : Text) : dots (percentEncodePath s) = dots s := by
  unfold percentEncodePath
  have hdot : ∀ t, dots (encodeChar pathNeedsEncode '.' ++ t) = (dots t).map (· + 1) := fun t => rfl
  induction s using percentEncodeWith.induct with
  | case1 c a b s hescape ih =>
    obtain ⟨rfl, ha, hb⟩ := hescape
    have hiff : (a.toUpper = '2' ∧ (b.toUpper = 'e' ∨ b.toUpper = 'E')) ↔
        (a = '2' ∧ (b = 'e' ∨ b = 'E')) :=
      and_congr (toUpper_hex ha).1 (toUpper_hex hb).2
    rw [percentEncodeWith, if_pos ⟨rfl, ha, hb⟩, dots_escape, dots_escape, ih]
    simp only [hiff]
  | case2 c a b s hescape ih =>
    rw [percentEncodeWith, if_neg hescape]
    by_cases hc : c = '.'
    · rw [hc, hdot, ih]
      rfl
    · rw [dots_encodeChar hc]
      by_cases hpercent : c = '%'
      · subst hpercent
        rw [dots_escape, if_neg]
        rintro ⟨rfl, hb⟩
        refine hescape ⟨rfl, by decide, ?_⟩
        rcases hb with rfl | rfl <;> decide
      · rw [dots_other hc hpercent]
  | case3 c s hshort ih =>
    rw [percentEncodeWith]
    · by_cases hc : c = '.'
      · rw [hc, hdot, ih]
        rfl
      · rw [dots_encodeChar hc]
        unfold dots
        split
        · next heq => cases heq
        · next heq => exact absurd (List.cons.inj heq).1 hc
        · next heq => exact absurd (List.cons.inj heq).2 (hshort _ _ _)
        · rfl
    · exact hshort
  | case4 => rfl

/-! ### Segments put together -/

def join (segs : List Text) : Text := ['/'].intercalate segs

@[simp] theorem join_nil : join [] = [] := rfl

@[simp] theorem join_singleton (seg : Text) : join [seg] = seg := List.intercalate_singleton

theorem join_cons (seg : Text) (h : segs ≠ []) : join (seg :: segs) = seg ++ '/' :: join segs := by
  obtain ⟨first, others, rfl⟩ := List.exists_cons_of_ne_nil h
  exact (List.intercalate_cons_cons).trans (by rw [List.append_assoc]; rfl)

theorem join_concat (h : segs ≠ []) (seg : Text) : join (segs ++ [seg]) = join segs ++ '/' :: seg := by
  induction segs with
  | nil => exact absurd rfl h
  | cons first segs ih =>
    by_cases hsegs : segs = []
    · subst hsegs
      simp [join_cons]
    · rw [List.cons_append, join_cons first (List.append_ne_nil_of_left_ne_nil hsegs _), ih hsegs,
        join_cons first hsegs, List.append_assoc]
      rfl

theorem head_join (h : ∀ seg ∈ segs, '/' ∉ seg) :
    (join segs).head? = some '/' ↔ ∃ x y, segs = [] :: x :: y := by
  cases segs with
  | nil => simp
  | cons first segs =>
    cases first with
    | nil =>
      cases segs with
      | nil => simp
      | cons x y => simp [join_cons]
    | cons c first =>
      have hc : c ≠ '/' := fun hc => h _ List.mem_cons_self (hc ▸ List.mem_cons_self)
      cases segs with
      | nil => simpa using hc
      | cons x y => simpa [join_cons] using hc

theorem getLast_join (h : ∀ seg ∈ segs, '/' ∉ seg) :
    (join segs).getLast? = some '/' ↔ ∃ l, l ≠ [] ∧ segs = l ++ [[]] := by
  cases segs using List.reverseRecOn with
  | nil => simp
  | append_singleton l last =>
    have hlast : last.getLast? ≠ some '/' := fun hc =>
      h last (by simp) (List.mem_of_getLast? hc)
    have hparts : (∃ l', l' ≠ [] ∧ l ++ [last] = l' ++ [[]]) ↔ l ≠ [] ∧ last = [] := by
      constructor
      · rintro ⟨l', hl', heq⟩
        obtain ⟨rfl, hlast⟩ := List.append_inj' heq rfl
        exact ⟨hl', List.singleton_inj.mp hlast⟩
      · rintro ⟨hl, rfl⟩
        exact ⟨l, hl, rfl⟩
    rw [hparts]
    by_cases hl : l = []
    · subst hl
      simpa using hlast
    · rw [join_concat hl, List.getLast?_append_of_ne_nil _ (by simp)]
      cases last with
      | nil => simpa using hl
      | cons c last =>
        rw [List.getLast?_cons_cons]
        simpa using hlast

end Conclave.Urls
