import Conclave.Unicode.Decoding

/-! Characters of four bytes: the search through the ranges, and what is read again when one
breaks off. -/

namespace Conclave.Unicode

open Lib Encodings Decoder

/-! ### Ranges -/

section Ranges

variable {ptrs : List ℕ} {pointer : ℕ}

/-- The pointers up to the place are not larger than the one searched for, and those after it
are. -/
def SplitsAt (ptrs : List ℕ) (pointer lo hi : ℕ) : Prop :=
  lo ≤ hi ∧ hi ≤ ptrs.length ∧ (∀ i < lo, ∀ p, ptrs[i]? = some p → p ≤ pointer) ∧
    ∀ i ≥ hi, ∀ p, ptrs[i]? = some p → pointer < p

theorem searchRanges_splits (hsorted : ptrs.Pairwise (· < ·)) {fuel lo hi : ℕ}
    (h : SplitsAt ptrs pointer lo hi) (hfuel : hi ≤ lo + fuel) :
    SplitsAt ptrs pointer (searchRanges ptrs pointer fuel lo hi)
      (searchRanges ptrs pointer fuel lo hi) := by
  induction fuel generalizing lo hi with
  | zero =>
    obtain ⟨hle, hlength, hbefore, hafter⟩ := h
    obtain rfl : hi = lo := by omega
    exact ⟨le_rfl, hlength, hbefore, hafter⟩
  | succ fuel ih =>
    obtain ⟨hle, hlength, hbefore, hafter⟩ := h
    unfold searchRanges
    split
    · next hlt =>
      have hmid : (lo + hi) / 2 < ptrs.length := by omega
      have hget : (ptrs[(lo + hi) / 2]?).getD 0 = ptrs[(lo + hi) / 2] := by
        rw [List.getElem?_eq_getElem hmid]
        rfl
      dsimp only
      rw [hget]
      split
      · next hsmall =>
        refine ih ⟨by omega, hlength, fun i hi' p hp => ?_, hafter⟩ (by omega)
        obtain ⟨hi'', rfl⟩ := List.getElem?_eq_some_iff.mp hp
        rcases Nat.lt_succ_iff_lt_or_eq.mp hi' with hlt' | rfl
        · exact (List.pairwise_iff_getElem.mp hsorted i _ hi'' hmid hlt').le.trans hsmall
        · exact hsmall
      · next hlarge =>
        refine ih ⟨by omega, by omega, hbefore, fun i hi' p hp => ?_⟩ (by omega)
        obtain ⟨hi'', rfl⟩ := List.getElem?_eq_some_iff.mp hp
        rcases Nat.eq_or_lt_of_le hi' with rfl | hlt'
        · exact not_le.mp hlarge
        · exact (not_le.mp hlarge).trans (List.pairwise_iff_getElem.mp hsorted _ i hmid hi'' hlt')
    · next hnot =>
      obtain rfl : hi = lo := by omega
      exact ⟨le_rfl, hlength, hbefore, hafter⟩

/-- The entries with pointers that are not larger are those in front of the place. -/
theorem filter_zip_eq_take {cps : List ℕ} {lo : ℕ} (h : SplitsAt ptrs pointer lo lo) :
    (ptrs.zip cps).filter (·.1 ≤ pointer) = (ptrs.zip cps).take lo := by
  obtain ⟨-, -, hbefore, hafter⟩ := h
  have hfst : ∀ (i : ℕ) (entry : ℕ × ℕ), (ptrs.zip cps)[i]? = some entry →
      ptrs[i]? = some entry.1 := by
    intro i entry hentry
    exact (List.getElem?_zip_eq_some.mp hentry).1
  rw [← List.take_append_drop lo (ptrs.zip cps), List.filter_append, List.take_append_drop]
  have htake : ((ptrs.zip cps).take lo).filter (·.1 ≤ pointer) = (ptrs.zip cps).take lo := by
    rw [List.filter_eq_self]
    intro entry hentry
    obtain ⟨i, hi⟩ := List.mem_iff_getElem?.mp hentry
    rw [List.getElem?_take] at hi
    split at hi
    · next hlt => exact decide_eq_true (hbefore i hlt entry.1 (hfst i entry hi))
    · nomatch hi
  have hdrop : ((ptrs.zip cps).drop lo).filter (·.1 ≤ pointer) = [] := by
    rw [List.filter_eq_nil_iff]
    intro entry hentry hle
    obtain ⟨i, hi⟩ := List.mem_iff_getElem?.mp hentry
    rw [List.getElem?_drop] at hi
    have hlt := hafter (lo + i) (Nat.le_add_right lo i) entry.1 (hfst (lo + i) entry hi)
    exact absurd (of_decide_eq_true hle) (not_le.mpr hlt)
  rw [htake, hdrop, List.append_nil]

theorem gb18030RangesCodePoint_eq (tables : Tables) (pointer : ℕ) :
    gb18030RangesCodePoint tables pointer =
      rangesIndex (tables.rangesPtr.zip tables.rangesCp) pointer := by
  unfold gb18030RangesCodePoint rangesIndex
  split_ifs
  · rfl
  · rfl
  · have hall : SplitsAt tables.rangesPtr pointer 0 tables.rangesPtr.length := by
      refine ⟨Nat.zero_le _, le_rfl, fun i hi => absurd hi i.not_lt_zero, fun i hi p hp => ?_⟩
      have hlt := (List.getElem?_eq_some_iff.mp hp).1
      omega
    have hsplits := searchRanges_splits tables.ranges_sorted hall (Nat.zero_add _).ge
    rw [filter_zip_eq_take hsplits]
    dsimp only
    generalize hlo : searchRanges tables.rangesPtr pointer tables.rangesPtr.length 0
      tables.rangesPtr.length = lo at hsplits
    split
    · next hzero =>
      rw [hzero]
      rfl
    · next hne =>
      have hlt : lo - 1 < tables.rangesPtr.length := by
        have := hsplits.2.1
        omega
      have hlt' : lo - 1 < tables.rangesCp.length := tables.ranges_length ▸ hlt
      have hlast : ((tables.rangesPtr.zip tables.rangesCp).take lo).getLast? =
          some (tables.rangesPtr[lo - 1], tables.rangesCp[lo - 1]) := by
        rw [List.getLast?_take, if_neg hne,
          List.getElem?_eq_getElem (by rw [List.length_zip]; omega), List.getElem_zip]
        rfl
      rw [hlast, List.getElem?_eq_getElem hlt, List.getElem?_eq_getElem hlt']
      rfl

end Ranges

/-! ### gb18030 -/

section Gb18030

variable (tables : Tables)

def gbPointer (lead byte : UInt8) : Option ℕ :=
  if between 0x40 0x7E byte ∨ between 0x80 0xFE byte then
    some ((lead.toNat - 0x81) * 190 + byte.toNat - if byte < 0x7F then 0x40 else 0x41)
  else none

/-- No character begins with 0x80; and where the fourth byte of a character is not one, it is
an ASCII byte that makes no character with the third one either. -/
def Whole (s : Gb18030Loop) (byte : UInt8) : Prop :=
  if s.third ≠ 0 then
    between 0x30 0x39 byte ∨
      byte < 0x80 ∧ (gbPointer s.third byte).bind (indexCodePoint tables.gb18030) = none
  else s.first = 0 → byte ≠ 0x80

/-- The bytes of a character that has been begun. -/
inductive Holds : Gb18030Loop → Gb18030State → Prop where
  | none : Holds ⟨0, 0, 0⟩ .none
  | one {first : UInt8} (h : between 0x81 0xFE first) : Holds ⟨first, 0, 0⟩ (.one first)
  | two {first second : UInt8} (h : between 0x81 0xFE first) (h' : between 0x30 0x39 second) :
    Holds ⟨first, second, 0⟩ (.two first second)
  | three {first second third : UInt8} (h : between 0x81 0xFE first)
    (h' : between 0x30 0x39 second) (h'' : between 0x81 0xFE third) :
    Holds ⟨first, second, third⟩ (.three first second third)

theorem ne_zero_of_between {low high : ℕ} (hlow : 0 < low) {b : UInt8} (h : between low high b) :
    b ≠ 0 := by
  rintro rfl
  have hzero : (0 : UInt8).toNat = 0 := rfl
  have hb := (between_iff.mp h).1
  omega

theorem gbPointer_eq (lead b : UInt8) : gbPointer lead b = gb18030Pointer lead b := by
  unfold gbPointer gb18030Pointer
  simp only [Bool.or_eq_true]
  split
  · next h =>
    rw [Nat.add_sub_assoc (offset_le (by decide) (by decide) h)]
  · rfl

abbrev standardGb18030 : Decoder Gb18030State :=
  gb18030 (indexCodePoint tables.gb18030) (rangesIndex (tables.rangesPtr.zip tables.rangesCp))

theorem run_digit {digit : UInt8} (h : between 0x30 0x39 digit) (bytes : Bytes) :
    (standardGb18030 tables).run .none (digit :: bytes) =
      Char.ofNat digit.toNat :: (standardGb18030 tables).run .none bytes := by
  have hascii : ascii digit := by
    have hd := between_iff.mp h
    exact decide_eq_true (by omega)
  rw [run_cons]
  simp only [gb18030, Encodings.gb18030Next, hascii, if_true]
  rfl

theorem run_of_next {t : Gb18030State} {b : UInt8} {r : Reading Gb18030State}
    (h : (standardGb18030 tables).next t b = r) (bytes : Bytes) :
    (standardGb18030 tables).run t (b :: bytes) =
      r.out ++ (standardGb18030 tables).run r.state (r.restored ++ bytes) := by
  rw [run_cons, h]

/-- A byte read here is one or more bytes read by the standard. -/
def StepsTo (r : Reading Gb18030Loop) (t : Gb18030State) (b : UInt8) : Prop :=
  ∃ t', Holds r.state t' ∧ ∀ bytes, (standardGb18030 tables).run t (b :: bytes) =
    r.out ++ (standardGb18030 tables).run t' (r.restored ++ bytes)

variable {tables}

theorem stepsTo_of_next {s : Reading Gb18030Loop} {t : Gb18030State} {b : UInt8}
    {r : Reading Gb18030State} (hnext : (standardGb18030 tables).next t b = r)
    (hr : Matches Holds s r) : StepsTo tables s t b :=
  ⟨r.state, hr.state, fun bytes => by rw [run_of_next tables hnext, hr.out, hr.restored]⟩

theorem stepsTo_none {b : UInt8} (hok : b ≠ 0x80) :
    StepsTo tables (gb18030Next tables ⟨0, 0, 0⟩ b) .none b := by
  unfold gb18030Next
  simp only [ne_eq, not_true_eq_false, if_false, hok]
  split
  · next h =>
    exact stepsTo_of_next (if_pos (ascii_iff.mpr h)) ⟨rfl, rfl, .none⟩
  · next h =>
    have hascii : ¬ ascii b := fun ha => h (ascii_iff.mp ha)
    split
    · next hlead =>
      have hnext : (standardGb18030 tables).next .none b = { out := [], state := .one b } := by
        simp [gb18030, Encodings.gb18030Next, hascii, hok, hlead]
      exact stepsTo_of_next hnext ⟨rfl, rfl, .one hlead⟩
    · next hlead =>
      have hnext : (standardGb18030 tables).next .none b =
          { out := [replacement], state := .none } := by
        simp [gb18030, Encodings.gb18030Next, hascii, hok, hlead]
      exact stepsTo_of_next hnext ⟨rfl, rfl, .none⟩

/-- The second byte of a character, in the words of the code. -/
theorem gb18030Next_one {first b : UInt8} (hfirst : first ≠ 0) (hb : ¬ between 0x30 0x39 b) :
    gb18030Next tables ⟨first, 0, 0⟩ b =
      match (gbPointer first b).bind (indexCodePoint tables.gb18030) with
      | some c => { out := [c], state := ⟨0, 0, 0⟩ }
      | none => { out := [replacement], state := ⟨0, 0, 0⟩, restored := stepBack b } := by
  refine (@forall_eq' _ (gb18030Next tables ⟨first, 0, 0⟩ b = ·) _).mp fun v hv => ?_
  unfold gb18030Next
  simp only [ne_eq, not_true_eq_false, hfirst, not_false_eq_true, hb, if_false, if_true,
    Bool.false_eq_true]
  exact hv

theorem standard_one {first b : UInt8} (hb : ¬ between 0x30 0x39 b) :
    (standardGb18030 tables).next (.one first) b =
      match (gbPointer first b).bind (indexCodePoint tables.gb18030) with
      | some c => { out := [c], state := .none }
      | none => { out := [replacement], state := .none, restored := putBack b } := by
  rw [gbPointer_eq]
  exact if_neg hb

theorem stepsTo_one {first b : UInt8} (hfirst : between 0x81 0xFE first) :
    StepsTo tables (gb18030Next tables ⟨first, 0, 0⟩ b) (.one first) b := by
  have hne := ne_zero_of_between (by decide) hfirst
  by_cases hb : between 0x30 0x39 b
  · have hcode : gb18030Next tables ⟨first, 0, 0⟩ b = { out := [], state := ⟨first, b, 0⟩ } := by
      simp [gb18030Next, hne, hb]
    rw [hcode]
    exact stepsTo_of_next (if_pos hb) ⟨rfl, rfl, .two hfirst hb⟩
  · rw [gb18030Next_one hne hb]
    have hnext : (standardGb18030 tables).next (.one first) b = _ := standard_one hb
    cases hc : (gbPointer first b).bind (indexCodePoint tables.gb18030) with
    | some c =>
      rw [hc] at hnext
      exact stepsTo_of_next hnext ⟨rfl, rfl, .none⟩
    | none =>
      rw [hc] at hnext
      exact stepsTo_of_next hnext ⟨rfl, stepBack_eq b, .none⟩

/-- A digit that was read as a second byte is read once more as itself. -/
theorem char_of_digit {digit : UInt8} (h : between 0x30 0x39 digit) :
    (if digit < 0x80 then Char.ofNat digit.toNat else replacement) = Char.ofNat digit.toNat := by
  have hd := between_iff.mp h
  exact if_pos (ascii_iff.mp (decide_eq_true (by omega)))

theorem stepsTo_two {first second b : UInt8} (hfirst : between 0x81 0xFE first)
    (hsecond : between 0x30 0x39 second) :
    StepsTo tables (gb18030Next tables ⟨first, second, 0⟩ b) (.two first second) b := by
  have hne := ne_zero_of_between (by decide) hsecond
  by_cases hb : between 0x81 0xFE b
  · have hcode : gb18030Next tables ⟨first, second, 0⟩ b =
        { out := [], state := ⟨first, second, b⟩ } := by
      simp [gb18030Next, hne, hb]
    rw [hcode]
    exact stepsTo_of_next (if_pos hb) ⟨rfl, rfl, .three hfirst hsecond hb⟩
  · have hcode : gb18030Next tables ⟨first, second, 0⟩ b =
        { out := [replacement, Char.ofNat second.toNat], state := ⟨0, 0, 0⟩, restored := [b] } := by
      simp [gb18030Next, hne, hb, char_of_digit hsecond]
    rw [hcode]
    refine ⟨.none, .none, fun bytes => ?_⟩
    have hnext : (standardGb18030 tables).next (.two first second) b =
        { out := [replacement], state := .none, restored := [second, b] } := if_neg hb
    rw [run_of_next tables hnext]
    show [replacement] ++ (standardGb18030 tables).run .none (second :: b :: bytes) = _
    rw [run_digit tables hsecond]
    rfl

/-- The last byte is in ASCII, and makes no character with the third one. -/
theorem stepsTo_three {first second third b : UInt8} (hsecond : between 0x30 0x39 second)
    (hthird : between 0x81 0xFE third) (hok : Whole tables ⟨first, second, third⟩ b) :
    StepsTo tables (gb18030Next tables ⟨first, second, third⟩ b) (.three first second third) b := by
  have hne := ne_zero_of_between (by decide) hthird
  by_cases hb : between 0x30 0x39 b
  · have hcode : gb18030Next tables ⟨first, second, third⟩ b =
        { out := orReplacement (rangesIndex (tables.rangesPtr.zip tables.rangesCp)
            (rangesPointer first second third b))
          state := ⟨0, 0, 0⟩ } := by
      unfold gb18030Next
      simp only [ne_eq, hne, not_false_eq_true, hb, if_true, gb18030RangesCodePoint_eq]
      rfl
    rw [hcode]
    exact stepsTo_of_next (if_pos hb) ⟨rfl, rfl, .none⟩
  · obtain ⟨hascii, hnone⟩ := ((if_pos hne).mp hok).resolve_left hb
    have hthird' : ¬ third < 0x80 := by
      have ht := between_iff.mp hthird
      rw [UInt8.lt_iff_toNat_lt, not_lt]
      exact (by decide : (0x80 : UInt8).toNat ≤ 0x81).trans ht.1
    have hcode : gb18030Next tables ⟨first, second, third⟩ b =
        { out := [replacement, Char.ofNat second.toNat, replacement], state := ⟨0, 0, 0⟩,
          restored := [b] } := by
      simp [gb18030Next, hne, hb, char_of_digit hsecond, hthird']
    rw [hcode]
    refine ⟨.none, .none, fun bytes => ?_⟩
    have hbroken : (standardGb18030 tables).next (.three first second third) b =
        { out := [replacement], state := .none, restored := [second, third, b] } := if_neg hb
    have hlead : (standardGb18030 tables).next .none third = { out := [], state := .one third } := by
      have hne' : third ≠ 0x80 := by
        rintro rfl
        exact absurd hthird (by decide)
      simp [gb18030, Encodings.gb18030Next, ascii_iff, hthird', hne', hthird]
    have hlast : (standardGb18030 tables).next (.one third) b =
        { out := [replacement], state := .none, restored := [b] } := by
      rw [standard_one hb, hnone, putBack, if_pos (ascii_iff.mpr hascii)]
    rw [run_of_next tables hbroken]
    show [replacement] ++ (standardGb18030 tables).run .none (second :: third :: b :: bytes) = _
    rw [run_digit tables hsecond, run_of_next tables hlead]
    show [replacement] ++ Char.ofNat second.toNat ::
      ([] ++ (standardGb18030 tables).run (.one third) (b :: bytes)) = _
    rw [run_of_next tables hlast]
    rfl

variable (tables)

theorem decodeGb18030_run {s : Gb18030Loop} {t : Gb18030State} (hst : Holds s t) {bytes : Bytes}
    (hmeets : (decodeGb18030 tables).Meets (Whole tables) s bytes) :
    (decodeGb18030 tables).run s bytes = (standardGb18030 tables).run t bytes := by
  induction s, bytes using induction_on (decodeGb18030 tables) generalizing t with
  | nil s =>
    rw [run_nil, run_nil]
    cases hst with
    | none => rfl
    | one h => simp [decodeGb18030, gb18030, ne_zero_of_between _ h]
    | two h h' => simp [decodeGb18030, gb18030, ne_zero_of_between _ h]
    | three h h' h'' => simp [decodeGb18030, gb18030, ne_zero_of_between _ h]
  | cons s b bs ih =>
    obtain ⟨hok, hrest⟩ := meets_cons.mp hmeets
    have hstep : StepsTo tables ((decodeGb18030 tables).next s b) t b := by
      cases hst with
      | none => exact stepsTo_none (hok rfl)
      | one h => exact stepsTo_one h
      | two h h' => exact stepsTo_two h h'
      | three h h' h'' => exact stepsTo_three h' h'' hok
    obtain ⟨t', hholds, hrun⟩ := hstep
    rw [run_cons, hrun, ih hholds hrest]

end Gb18030

end Conclave.Unicode
