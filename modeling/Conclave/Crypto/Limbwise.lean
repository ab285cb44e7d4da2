import Conclave.Crypto.Division

/-! What the helpers around the division compute: the top limb that is not zero, the
comparison, the shifts and the product. -/

namespace Conclave.Crypto

open Conclave.Lib

variable {l l' : List UInt64} {i : ℕ}

theorem rposition_nil : rposition [] = none := rfl

theorem rposition_of_getLast? (h : l.getLast? ≠ some 0) (hne : l ≠ []) :
    rposition l = some (l.length - 1) := by
  obtain ⟨init, x, rfl⟩ := List.eq_nil_or_concat' l |>.resolve_left hne
  have hx : x ≠ 0 := by simpa using h
  simp [rposition, List.range_succ, hx]

theorem elim_rposition (h : l.getLast? ≠ some 0) : (rposition l).elim 0 (· + 1) = l.length := by
  by_cases hne : l = []
  · rw [hne]
    rfl
  · rw [rposition_of_getLast? h hne]
    exact Nat.succ_pred_eq_of_pos (List.length_pos_iff.mpr hne)

/-- Numbers with different top limbs, or else the limbs below. -/
theorem cmpBelow_spec (hl : i ≤ l.length) (hl' : i ≤ l'.length) :
    BigUint.cmpBelow l l' i = some (compare (segment l 0 i) (segment l' 0 i)) := by
  induction i with
  | zero => simp [BigUint.cmpBelow]
  | succ i ih =>
    obtain ⟨x, hx, hx'⟩ := exists_limb (by omega : i < l.length)
    obtain ⟨y, hy, hy'⟩ := exists_limb (by omega : i < l'.length)
    have hstep : BigUint.cmpBelow l l' (i + 1) =
        if compare x y = .eq then BigUint.cmpBelow l l' i else some (compare x y) := by
      cases h : compare x y <;>
        simp [BigUint.cmpBelow, hx, hy, h, Option.bind_eq_bind, Option.bind_some]
    have hcmp : compare x y = compare x.toNat y.toNat := by
      simp only [compare, compareOfLessAndEq, UInt64.lt_iff_toNat_lt, ← UInt64.toNat_inj]
    have hsl := segment_lt l 0 i
    have hsl' := segment_lt l' 0 i
    rw [hstep, hcmp, segment_succ, segment_succ, Nat.zero_add, ← hx', ← hy']
    obtain hlt | heq | hgt := lt_trichotomy x.toNat y.toNat
    · have hle : x.toNat * radix ^ i + radix ^ i ≤ y.toNat * radix ^ i := by
        rw [← Nat.succ_mul]
        exact Nat.mul_le_mul_right _ hlt
      rw [compare_lt_iff_lt.mpr hlt, compare_lt_iff_lt.mpr (by omega), if_neg (by decide)]
    · rw [heq, compare_eq_iff_eq.mpr rfl, if_pos rfl, ih (by omega) (by omega)]
      simp only [compare, compareOfLessAndEq, Nat.add_lt_add_iff_right, Nat.add_right_cancel_iff]
    · have hle : y.toNat * radix ^ i + radix ^ i ≤ x.toNat * radix ^ i := by
        rw [← Nat.succ_mul]
        exact Nat.mul_le_mul_right _ hgt
      rw [compare_gt_iff_gt.mpr hgt, compare_gt_iff_gt.mpr (by omega), if_neg (by decide)]

namespace BigUint

variable {a b : BigUint}

@[simp] theorem toNat_zero : zero.toNat = 0 := rfl

@[simp] theorem toNat_ofLimbs (l : List UInt64) : (ofLimbs l).toNat = value l := value_trimmed l

@[simp] theorem toNat_fromU64 (v : UInt64) : (fromU64 v).toNat = v.toNat := by
  simp [fromU64, value_cons]

theorem toNat_lt (a : BigUint) : a.toNat < radix ^ a.limbs.length := value_lt a.limbs

theorem radix_pow_le (h : a.limbs ≠ []) : radix ^ (a.limbs.length - 1) ≤ a.toNat :=
  radix_pow_le_value a.normal h

theorem toNat_inj (h : a.toNat = b.toNat) : a = b := BigUint.ext (eq_of_value_eq a.normal b.normal h)

theorem toNat_eq_zero : a.toNat = 0 ↔ a.limbs = [] := by
  refine ⟨fun h => ?_, fun h => ?_⟩
  · by_contra hne
    have hle := radix_pow_le hne
    have hpos : 0 < radix ^ (a.limbs.length - 1) := Nat.pow_pos radix_pos
    omega
  · rw [toNat, h]
    rfl

/-- A number with fewer limbs is smaller. -/
theorem lt_of_length_lt (h : a.limbs.length < b.limbs.length) : a.toNat < b.toNat := by
  have hb : b.limbs ≠ [] := List.ne_nil_of_length_pos (by omega)
  calc a.toNat < radix ^ a.limbs.length := a.toNat_lt
    _ ≤ radix ^ (b.limbs.length - 1) := Nat.pow_le_pow_right radix_pos (by omega)
    _ ≤ b.toNat := radix_pow_le hb

theorem isZero_iff : a.isZero = true ↔ a.toNat = 0 := by
  rw [toNat_eq_zero]
  refine ⟨fun h => ?_, fun h => by simp [isZero, h]⟩
  by_contra hne
  obtain ⟨init, x, heq⟩ := List.eq_nil_or_concat' a.limbs |>.resolve_left hne
  have hx : x = 0 := by
    rw [isZero, List.all_eq_true] at h
    simpa using h x (heq ▸ by simp)
  exact a.normal (by simp [heq, hx])

/-- The comparison is the one of the numbers. -/
theorem cmp_spec (a b : BigUint) : a.cmp b = some (compare a.toNat b.toNat) := by
  by_cases ha : a.limbs = []
  · have ha₀ := toNat_eq_zero.mpr ha
    by_cases hb : b.limbs = []
    · rw [cmp, ha, hb, ha₀, toNat_eq_zero.mpr hb]
      rfl
    · have hb₀ : 0 < b.toNat := Nat.pos_of_ne_zero fun h => hb (toNat_eq_zero.mp h)
      rw [cmp, ha, rposition_nil, rposition_of_getLast? b.normal hb, ha₀, compare_lt_iff_lt.mpr hb₀]
  · have ha₀ : 0 < a.toNat := Nat.pos_of_ne_zero fun h => ha (toNat_eq_zero.mp h)
    have halen := List.length_pos_iff.mpr ha
    by_cases hb : b.limbs = []
    · rw [cmp, hb, rposition_nil, rposition_of_getLast? a.normal ha, toNat_eq_zero.mpr hb,
        compare_gt_iff_gt.mpr ha₀]
    · have hblen := List.length_pos_iff.mpr hb
      rw [cmp, rposition_of_getLast? a.normal ha, rposition_of_getLast? b.normal hb]
      obtain hlt | heq | hgt := lt_trichotomy a.limbs.length b.limbs.length
      · have hlt' : a.limbs.length - 1 < b.limbs.length - 1 := by omega
        rw [compare_lt_iff_lt.mpr (lt_of_length_lt hlt)]
        exact (if_pos hlt'.ne).trans (congrArg some (compare_lt_iff_lt.mpr hlt'))
      · have hi : a.limbs.length - 1 + 1 = a.limbs.length := Nat.succ_pred_eq_of_pos halen
        have hb' : segment b.limbs 0 a.limbs.length = b.toNat := by rw [heq]; rfl
        refine (if_neg (not_not.mpr (by rw [heq]))).trans ?_
        rw [hi, cmpBelow_spec le_rfl heq.le, hb']
        rfl
      · have hgt' : b.limbs.length - 1 < a.limbs.length - 1 := by omega
        rw [compare_gt_iff_gt.mpr (lt_of_length_lt hgt)]
        exact (if_pos hgt'.ne').trans (congrArg some (compare_gt_iff_gt.mpr hgt'))

end BigUint

/-- A shift of one limb, with what comes in below. -/
theorem shl_limb {l carry s : UInt64} (hs : 0 < s.toNat) (hs' : s.toNat < 64)
    (hc : carry.toNat < 2 ^ s.toNat) :
    (l <<< s ||| carry).toNat + radix * (l >>> (64 - s)).toNat =
        l.toNat * 2 ^ s.toNat + carry.toNat ∧ (l >>> (64 - s)).toNat < 2 ^ s.toNat := by
  have hsub : (64 - s).toNat = 64 - s.toNat := by
    rw [UInt64.toNat_sub_of_le _ _ (UInt64.le_iff_toNat_le.mpr (by
      rw [show (64 : UInt64).toNat = 64 from rfl]; omega))]
    rfl
  have hpow : 2 ^ s.toNat * 2 ^ (64 - s.toNat) = radix := by
    rw [← pow_add, show s.toNat + (64 - s.toNat) = 64 by omega]
    rfl
  have hl : l.toNat < radix := l.toNat_lt
  have hhigh : (l >>> (64 - s)).toNat = l.toNat / 2 ^ (64 - s.toNat) := by
    rw [UInt64.toNat_shiftRight, hsub, Nat.mod_eq_of_lt (by omega), Nat.shiftRight_eq_div_pow]
  have hlow : (l <<< s).toNat = 2 ^ s.toNat * (l.toNat % 2 ^ (64 - s.toNat)) := by
    rw [UInt64.toNat_shiftLeft, Nat.mod_eq_of_lt hs', Nat.shiftLeft_eq, Nat.mul_comm,
      ← Nat.mul_mod_mul_left, hpow]
    rfl
  have hdm := Nat.mod_add_div l.toNat (2 ^ (64 - s.toNat))
  rw [hhigh, UInt64.toNat_or, hlow, ← Nat.two_pow_add_eq_or_of_lt hc]
  refine ⟨?_, (Nat.div_lt_iff_lt_mul (Nat.two_pow_pos _)).mpr (hpow ▸ hl)⟩
  calc 2 ^ s.toNat * (l.toNat % 2 ^ (64 - s.toNat)) + carry.toNat +
        radix * (l.toNat / 2 ^ (64 - s.toNat))
      = 2 ^ s.toNat * (l.toNat % 2 ^ (64 - s.toNat) +
          2 ^ (64 - s.toNat) * (l.toNat / 2 ^ (64 - s.toNat))) + carry.toNat := by
        rw [← hpow]; ring
    _ = l.toNat * 2 ^ s.toNat + carry.toNat := by rw [hdm, Nat.mul_comm]

theorem value_shlFrom {s carry : UInt64} (hs : 0 < s.toNat) (hs' : s.toNat < 64)
    (hc : carry.toNat < 2 ^ s.toNat) :
    value (shlFrom s carry l) = value l * 2 ^ s.toNat + carry.toNat := by
  induction l generalizing carry with
  | nil =>
    unfold shlFrom
    split_ifs with h
    · simp [value_cons]
    · simp [not_not.mp h]
  | cons x l ih =>
    obtain ⟨hdigit, hcarry⟩ := shl_limb (l := x) hs hs' hc
    rw [shlFrom, value_cons, ih hcarry, value_cons]
    linear_combination hdigit

@[simp] theorem value_shlLimbs {s : UInt64} (hs' : s.toNat < 64) :
    value (shlLimbs l s) = value l * 2 ^ s.toNat := by
  unfold shlLimbs
  split_ifs with h
  · simp [h]
  · have hs : 0 < s.toNat := Nat.pos_of_ne_zero fun h₀ => h (UInt64.toNat_inj.mp h₀)
    rw [value_shlFrom hs hs' (Nat.two_pow_pos _)]
    rfl

/-- A shift needs one limb more only when its number does. -/
theorem length_shlFrom (s carry : UInt64) (l : List UInt64) :
    (shlFrom s carry l).length = l.length ∨
      (shlFrom s carry l).length = l.length + 1 ∧ radix ^ l.length ≤ value (shlFrom s carry l) := by
  induction l generalizing carry with
  | nil =>
    unfold shlFrom
    split_ifs with h
    · have hpos : carry.toNat ≠ 0 := fun h₀ => h (UInt64.toNat_inj.mp h₀)
      right
      simp [value_cons]
      omega
    · exact .inl rfl
  | cons x l ih =>
    rw [shlFrom, List.length_cons, List.length_cons, value_cons]
    obtain h | ⟨h, hle⟩ := ih (x >>> (64 - s))
    · exact .inl (by rw [h])
    · refine .inr ⟨by rw [h], ?_⟩
      rw [pow_succ, Nat.mul_comm]
      exact (Nat.mul_le_mul_left _ hle).trans (Nat.le_add_left _ _)

theorem length_shlLimbs (l : List UInt64) (s : UInt64) :
    (shlLimbs l s).length = l.length ∨
      (shlLimbs l s).length = l.length + 1 ∧ radix ^ l.length ≤ value (shlLimbs l s) := by
  unfold shlLimbs
  split_ifs
  · exact .inl rfl
  · exact length_shlFrom s 0 l

/-- The shift down, and the bits it moves into the limb below. -/
theorem shrFrom_spec {s : UInt64} (hs : 0 < s.toNat) (hs' : s.toNat < 64) (l : List UInt64) :
    value (shrFrom s l).1 = value l / 2 ^ s.toNat ∧ (shrFrom s l).1.length = l.length ∧
      (shrFrom s l).2.toNat = value l % 2 ^ s.toNat * 2 ^ (64 - s.toNat) := by
  have hsub : (64 - s).toNat = 64 - s.toNat := by
    rw [UInt64.toNat_sub_of_le _ _ (UInt64.le_iff_toNat_le.mpr (by
      rw [show (64 : UInt64).toNat = 64 from rfl]; omega))]
    rfl
  have hpow : 2 ^ (64 - s.toNat) * 2 ^ s.toNat = radix := by
    rw [← pow_add, show 64 - s.toNat + s.toNat = 64 by omega]
    rfl
  induction l with
  | nil => exact ⟨by simp [shrFrom], rfl, by simp [shrFrom]⟩
  | cons x l ih =>
    obtain ⟨ihvalue, ihlen, ihcarry⟩ := ih
    have hx : x.toNat < radix := x.toNat_lt
    have hdigit : (x >>> s ||| (shrFrom s l).2).toNat =
        x.toNat / 2 ^ s.toNat + 2 ^ (64 - s.toNat) * (value l % 2 ^ s.toNat) := by
      have hlow : x.toNat / 2 ^ s.toNat < 2 ^ (64 - s.toNat) :=
        (Nat.div_lt_iff_lt_mul (Nat.two_pow_pos _)).mpr (hpow ▸ hx)
      rw [UInt64.toNat_or, UInt64.toNat_shiftRight, Nat.mod_eq_of_lt hs',
        Nat.shiftRight_eq_div_pow, ihcarry, Nat.lor_comm, Nat.mul_comm (value l % _),
        ← Nat.two_pow_add_eq_or_of_lt hlow, Nat.add_comm]
    have hsplit : value (x :: l) = x.toNat + 2 ^ s.toNat * (2 ^ (64 - s.toNat) * value l) := by
      rw [value_cons, ← hpow]
      ring
    refine ⟨?_, by rw [shrFrom, List.length_cons, List.length_cons, ihlen], ?_⟩
    · rw [shrFrom, value_cons, ihvalue, hdigit, hsplit, Nat.add_mul_div_left _ _ (Nat.two_pow_pos _)]
      have hdm := Nat.mod_add_div (value l) (2 ^ s.toNat)
      calc x.toNat / 2 ^ s.toNat + 2 ^ (64 - s.toNat) * (value l % 2 ^ s.toNat) +
            radix * (value l / 2 ^ s.toNat)
          = x.toNat / 2 ^ s.toNat + 2 ^ (64 - s.toNat) *
              (value l % 2 ^ s.toNat + 2 ^ s.toNat * (value l / 2 ^ s.toNat)) := by
            rw [← hpow]; ring
        _ = x.toNat / 2 ^ s.toNat + 2 ^ (64 - s.toNat) * value l := by rw [hdm]
    · rw [shrFrom, hsplit, Nat.add_mul_mod_self_left, UInt64.toNat_shiftLeft, hsub,
        Nat.mod_eq_of_lt (show 64 - s.toNat < 64 by omega), Nat.shiftLeft_eq,
        ← Nat.mul_mod_mul_right, Nat.mul_comm (2 ^ s.toNat), hpow]
      rfl

@[simp] theorem value_shrLimbs {s : UInt64} (hs' : s.toNat < 64) :
    value (shrLimbs l s) = value l / 2 ^ s.toNat := by
  unfold shrLimbs
  split_ifs with h
  · simp [h]
  · have hs : 0 < s.toNat := Nat.pos_of_ne_zero fun h₀ => h (UInt64.toNat_inj.mp h₀)
    exact (shrFrom_spec hs hs' l).1

/-- The rows of the product below `i`. -/
structure Multiplied (a b : List UInt64) (i : ℕ) (out : List UInt64) : Prop where
  length : out.length = a.length + b.length
  clear : ∀ m, i + b.length ≤ m → limbAt out m = 0
  value : segment out 0 (i + b.length) = segment a 0 i * value b

/-- The products of a row below `j`. -/
structure Row (ai : ℕ) (b out₀ : List UInt64) (i j : ℕ) (out : List UInt64) (carry : ℕ) :
    Prop where
  length : out.length = out₀.length
  frame : ∀ m, m < i ∨ i + j ≤ m → limbAt out m = limbAt out₀ m
  value : segment out i j + carry * radix ^ j = segment out₀ i j + ai * segment b 0 j
  carry : carry < radix

theorem mulStep_spec {ai j c : ℕ} {b out₀ out : List UInt64} (hai : ai < radix)
    (h : Row ai b out₀ i j out c) (hj : j < b.length) (hi : i + j < out₀.length) :
    ∃ out' c', mulStep ai b i j out c = some (out', c') ∧ Row ai b out₀ i (j + 1) out' c' := by
  have hlen : i + j < out.length := h.length ▸ hi
  obtain ⟨y, hy, hy'⟩ := exists_limb hj
  obtain ⟨x, hx, hx'⟩ := exists_limb hlen
  have hylt : y.toNat < radix := y.toNat_lt
  have hxlt : x.toNat < radix := x.toNat_lt
  have hc := h.carry
  have hprod : ai * y.toNat + x.toNat + c < radix * radix := by
    obtain ⟨r, hr⟩ : ∃ r, radix = r + 1 := ⟨radix - 1, rfl⟩
    have hle : ai * y.toNat ≤ r * r := Nat.mul_le_mul (by omega) (by omega)
    rw [hr]
    have hexp : (r + 1) * (r + 1) = r * r + 2 * r + 1 := by ring
    omega
  refine ⟨out.set (i + j) (low (ai * y.toNat + x.toNat + c)),
    (ai * y.toNat + x.toNat + c) / radix, ?_, ?_⟩
  · rw [mulStep, hy, hx]
    simp only [Option.bind_eq_bind, Option.bind_some]
    rw [bind_of_some (u128_eq hprod), store_eq hlen]
    rfl
  · refine ⟨by rw [List.length_set, h.length], fun m hm => ?_, ?_, ?_⟩
    · rw [limbAt_set_ne (by omega), h.frame m (by omega)]
    · have hdigit : (low (ai * y.toNat + x.toNat + c)).toNat +
          radix * ((ai * y.toNat + x.toNat + c) / radix) =
            ai * limbAt b j + limbAt out₀ (i + j) + c := by
        rw [low_toNat, Nat.mod_add_div, hx', hy', h.frame (i + j) (.inr le_rfl)]
      rw [segment_succ, segment_succ, segment_succ, limbAt_set_self hlen,
        segment_set_of_not_mem (.inr le_rfl), Nat.zero_add, pow_succ]
      linear_combination h.value + radix ^ j * hdigit
    · exact (Nat.div_lt_iff_lt_mul radix_pos).mpr hprod

theorem mulRow_spec {a b out : List UInt64} (h : Multiplied a b i out) (hi : i < a.length) :
    ∃ out', mulRow a b i out = some out' ∧ Multiplied a b (i + 1) out' := by
  obtain ⟨x, hx, hx'⟩ := exists_limb hi
  have hout := h.length
  obtain ⟨⟨out₁, c⟩, hrun, hrow⟩ := upTo_spec (n := b.length)
    (f := fun j s => mulStep x.toNat b i j s.1 s.2) (s := (out, 0))
    (fun j s => Row x.toNat b out i j s.1 s.2) ⟨rfl, fun _ _ => rfl, by simp, radix_pos⟩ (by
      intro j hj s hs
      obtain ⟨out', c', hstep, hs'⟩ := mulStep_spec x.toNat_lt hs hj (by omega)
      exact ⟨(out', c'), hstep, hs'⟩)
  have hlen : i + b.length < out₁.length := hrow.length ▸ (by omega)
  refine ⟨out₁.set (i + b.length) (low c), ?_, ?_⟩
  · rw [mulRow, hx]
    simp only [Option.bind_eq_bind, Option.bind_some]
    rw [bind_of_some hrun, store_eq hlen]
  · refine ⟨by rw [List.length_set, hrow.length, hout], fun m hm => ?_, ?_⟩
    · rw [limbAt_set_ne (by omega), hrow.frame m (by omega), h.clear m (by omega)]
    · have hlow : segment out₁ 0 i = segment out 0 i := by
        apply segment_congr
        intro m hm
        exact hrow.frame (0 + m) (by omega)
      have hvalue := h.value
      have hrowvalue := hrow.value
      rw [segment_add] at hvalue
      rw [Nat.add_right_comm, segment_succ, Nat.zero_add, limbAt_set_self hlen,
        segment_set_of_not_mem (by omega), segment_add, hlow, segment_succ, low_toNat,
        Nat.mod_eq_of_lt hrow.carry, Nat.zero_add, ← hx', pow_add]
      rw [Nat.zero_add] at hvalue
      have hb : segment b 0 b.length = value b := rfl
      rw [hb] at hrowvalue
      linear_combination hvalue + radix ^ i * hrowvalue

/-- The product is the product of the numbers, and no step of it overflows. -/
theorem mulFull_spec (a b : BigUint) :
    ∃ c, mulFull a b = some c ∧ c.toNat = a.toNat * b.toNat := by
  unfold mulFull
  split_ifs with hzero
  · refine ⟨BigUint.zero, rfl, ?_⟩
    rw [Bool.or_eq_true, BigUint.isZero_iff, BigUint.isZero_iff] at hzero
    obtain h | h := hzero <;> simp [h]
  · have hclear : ∀ m, limbAt (List.replicate (a.limbs.length + b.limbs.length) 0) m = 0 := by
      intro m
      rw [limbAt, List.getD_eq_getElem?_getD, List.getElem?_replicate]
      split_ifs <;> rfl
    obtain ⟨out, hrun, hout⟩ := upTo_spec (n := a.limbs.length) (f := mulRow a.limbs b.limbs)
      (s := List.replicate (a.limbs.length + b.limbs.length) 0) (Multiplied a.limbs b.limbs)
      ⟨List.length_replicate .., fun m _ => hclear m, by
        rw [segment_of_le fun m _ => hclear _, segment_zero, Nat.zero_mul]⟩
      fun i hi s hs => mulRow_spec hs hi
    refine ⟨BigUint.ofLimbs out, by rw [hrun]; rfl, ?_⟩
    rw [BigUint.toNat_ofLimbs, ← segment_of_length_le hout.length.le]
    exact hout.value

end Conclave.Crypto
