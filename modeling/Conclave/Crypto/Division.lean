import Conclave.Crypto.BigInt
import Conclave.Lib.LongDivision

/-! The division is Euclidean division of the numbers, and no step of it overflows or
leaves its array. -/

namespace Conclave.Crypto

open Conclave.Lib

theorem u128_eq {n : ℕ} (h : n < radix * radix) : u128 n = some n := if_pos h

theorem i128_eq {z : ℤ} (h : -2 ^ 127 ≤ z) (h' : z < 2 ^ 127) : i128 z = some z := if_pos ⟨h, h'⟩

theorem low_toNat (n : ℕ) : (low n).toNat = n % radix := UInt64.toNat_ofNat'

theorem lowInt_toNat (z : ℤ) : ((lowInt z).toNat : ℤ) = z % radix := by
  have h₀ := Int.emod_nonneg z (show ((radix : ℕ) : ℤ) ≠ 0 by decide)
  have h₁ := Int.emod_lt_of_pos z (show (0 : ℤ) < (radix : ℕ) by decide)
  have hlt : (z % radix).toNat < radix := by omega
  have hlow : (lowInt z).toNat = (z % radix).toNat := UInt64.toNat_ofNat_of_lt hlt
  rw [hlow]
  omega

theorem wide_eq {hi lo : ℕ} (hhi : hi < radix) (hlo : lo < radix) :
    wide hi lo = hi * radix + lo := by
  have hlt : hi * radix < 2 ^ 128 := Nat.mul_lt_mul_of_pos_right hhi radix_pos
  rw [wide, Nat.mod_eq_of_lt hlt, Nat.mul_comm]
  exact (Nat.two_pow_add_eq_or_of_lt hlo hi).symm

theorem store_eq {xs : List UInt64} {i : ℕ} {x : UInt64} (h : i < xs.length) :
    store xs i x = some (xs.set i x) := if_pos h

theorem exists_limb {xs : List UInt64} {i : ℕ} (h : i < xs.length) :
    ∃ x, xs[i]? = some x ∧ x.toNat = limbAt xs i :=
  ⟨xs[i], (limbAt_of_lt h).1, (limbAt_of_lt h).2.symm⟩

section Trial

variable {v₁ v₀ u₀ qhat rhat : ℕ}

theorem tooLarge_eq (hv₀ : v₀ < radix) (hr : rhat < radix) :
    tooLarge v₀ u₀ qhat rhat =
      some (decide (radix ≤ qhat ∨ rhat * radix + u₀ < qhat * v₀)) := by
  unfold tooLarge
  split_ifs with h
  · simp [h]
  · rw [u128_eq (Nat.mul_lt_mul'' (not_le.mp h) hv₀), wide_eq hr radix_pos]
    simp [h]

theorem correct_of_pass (h : tooLarge v₀ u₀ qhat rhat = some false) :
    correct v₁ v₀ u₀ qhat rhat = some qhat := by
  cases qhat <;> simp [correct, h]

theorem correct_of_fail (h : tooLarge v₀ u₀ (qhat + 1) rhat = some true)
    (hr : rhat + v₁ < radix * radix) :
    correct v₁ v₀ u₀ (qhat + 1) rhat =
      if rhat + v₁ < radix then correct v₁ v₀ u₀ qhat (rhat + v₁) else some qhat := by
  simp [correct, h, u128_eq hr]

variable {N P ul vl U V : ℕ}

/-- A remainder that fills its limb ends the test. -/
theorem pass_of_radix_le (hN : N < (v₁ + 1) * radix) (hv₀ : v₀ < radix)
    (hq : qhat * v₁ + rhat = N) (hr : radix ≤ rhat) :
    qhat < radix ∧ qhat * v₀ ≤ rhat * radix + u₀ := by
  have hqlt : qhat * v₁ < radix * v₁ := by
    rw [Nat.succ_mul] at hN
    rw [Nat.mul_comm radix]
    omega
  have hq' := Nat.lt_of_mul_lt_mul_right hqlt
  refine ⟨hq', (Nat.mul_le_mul hq'.le hv₀.le).trans ?_⟩
  exact (Nat.mul_le_mul_right _ hr).trans (Nat.le_add_right _ _)

/-- The correction ends with a digit that passes the test and is not too small. -/
theorem correct_spec (hv₁ : v₁ < radix) (hv₀ : v₀ < radix) (hN : N < (v₁ + 1) * radix)
    (hU : U = (N * radix + u₀) * P + ul) (hul : ul < P) (hV : V = (v₁ * radix + v₀) * P + vl)
    (hUV : U < radix * V) (hr : rhat < radix) (hq : qhat * v₁ + rhat = N)
    (hlow : U < (qhat + 1) * V) :
    ∃ q r, correct v₁ v₀ u₀ qhat rhat = some q ∧ q * v₁ + r = N ∧ q < radix ∧
      q * v₀ ≤ r * radix + u₀ ∧ U < (q + 1) * V := by
  induction qhat generalizing rhat with
  | zero =>
    have htest : tooLarge v₀ u₀ 0 rhat = some false := by
      simp [tooLarge_eq hv₀ hr, radix_pos.ne']
    exact ⟨0, rhat, correct_of_pass htest, hq, radix_pos, by simp, hlow⟩
  | succ qhat ih =>
    have htest := @tooLarge_eq v₀ u₀ (qhat + 1) rhat hv₀ hr
    by_cases hbig : radix ≤ qhat + 1 ∨ rhat * radix + u₀ < (qhat + 1) * v₀
    · have hlow' : U < (qhat + 1) * V := by
        obtain hbig | hbig := hbig
        · exact hUV.trans_le (Nat.mul_le_mul_right _ hbig)
        · exact lt_mul_of_test hU hul hV hq hbig
      have hq' : qhat * v₁ + (rhat + v₁) = N := by rw [← hq]; ring
      have hsum : rhat + v₁ < radix * radix := by
        have h₁ : 2 * radix ≤ radix * radix := Nat.mul_le_mul_right _ (by decide)
        omega
      rw [decide_eq_true hbig] at htest
      rw [correct_of_fail htest hsum]
      split_ifs with hlt
      · exact ih hlt hq' hlow'
      · obtain ⟨hqlt, hpass⟩ := @pass_of_radix_le v₁ v₀ u₀ qhat (rhat + v₁) N hN hv₀ hq' (not_lt.mp hlt)
        exact ⟨qhat, rhat + v₁, rfl, hq', hqlt, hpass, hlow'⟩
    · rw [decide_eq_false hbig] at htest
      rw [not_or, not_le, not_lt] at hbig
      exact ⟨qhat + 1, rhat, correct_of_pass htest, hq, hbig.1, hbig.2, hlow⟩

end Trial

section Window

variable {vn un : List UInt64} {n j i qhat : ℕ}

/-- A number below the base and what was borrowed before it, less a digit of a product. -/
theorem borrow_bounds {x p : ℕ} {k : ℤ} (hx : x < radix) (hp : p ≤ (radix - 1) * (radix - 1))
    (hk : -(radix : ℤ) ≤ k) (hk' : k ≤ 0) :
    -(2 * radix : ℤ) ≤ x + k - (p % radix : ℕ) ∧ (x + k - (p % radix : ℕ) : ℤ) < radix ∧
      -(radix : ℤ) ≤ (x + k - (p % radix : ℕ)) / radix - (p / radix : ℕ) ∧
      (x + k - (p % radix : ℕ)) / radix - ((p / radix : ℕ) : ℤ) ≤ 0 := by
  have hmod := Nat.mod_lt p radix_pos
  have hdiv : p / radix ≤ radix - 2 := by
    have hlt : p < (radix - 1) * radix := lt_of_le_of_lt hp
      (Nat.mul_lt_mul_of_pos_left (by decide) (by decide))
    have := (Nat.div_lt_iff_lt_mul radix_pos).mpr hlt
    omega
  have hr : (0 : ℤ) < radix := by exact_mod_cast radix_pos
  have hlow : -2 ≤ ((x : ℤ) + k - (p % radix : ℕ)) / radix :=
    (Int.le_ediv_iff_mul_le hr).mpr (by omega)
  have hhigh : ((x : ℤ) + k - (p % radix : ℕ)) / radix < 1 :=
    (Int.ediv_lt_iff_lt_mul hr).mpr (by omega)
  have htwo : 2 ≤ radix := by decide
  generalize p / radix = high at hdiv ⊢
  generalize p % radix = rest at hmod hlow hhigh ⊢
  exact ⟨by omega, by omega, by omega, by omega⟩

/-- What the subtraction of the first `i` limbs leaves. -/
structure Subtracted (vn un₀ : List UInt64) (j qhat i : ℕ) (un : List UInt64) (k : ℤ) : Prop where
  length : un.length = un₀.length
  frame : ∀ m, m < j ∨ j + i ≤ m → limbAt un m = limbAt un₀ m
  value : (segment un j i : ℤ) + k * radix ^ i = segment un₀ j i - qhat * segment vn 0 i
  borrow : -(radix : ℤ) ≤ k
  borrow' : k ≤ 0

theorem mulSubStep_spec {un₀ : List UInt64} {k : ℤ} (h : Subtracted vn un₀ j qhat i un k)
    (hi : i < vn.length) (hj : j + i < un₀.length) (hq : qhat < radix) :
    ∃ un' k', mulSubStep qhat vn j i un k = some (un', k') ∧
      Subtracted vn un₀ j qhat (i + 1) un' k' := by
  have hlen : j + i < un.length := h.length ▸ hj
  obtain ⟨v, hv, hvn⟩ := exists_limb hi
  obtain ⟨x, hx, hun⟩ := exists_limb hlen
  have hvlt := v.toNat_lt
  have hxlt : x.toNat < radix := x.toNat_lt
  have hp : qhat * v.toNat ≤ (radix - 1) * (radix - 1) :=
    Nat.mul_le_mul (Nat.le_pred_of_lt hq) (Nat.le_pred_of_lt hvlt)
  have hb := borrow_bounds hxlt hp h.borrow h.borrow'
  set t : ℤ := x.toNat + k - ((qhat * v.toNat) % radix : ℕ) with ht
  have hrad : (radix : ℤ) = 2 ^ 64 := rfl
  have hsum : i128 (x.toNat + k) = some (x.toNat + k) := by
    have hk := h.borrow
    have hk' := h.borrow'
    exact i128_eq (by omega) (by omega)
  refine ⟨un.set (j + i) (lowInt t), t / radix - (qhat * v.toNat / radix : ℕ), ?_, ?_⟩
  · have hmul : qhat * v.toNat < radix * radix := Nat.mul_lt_mul'' hq hvlt
    rw [mulSubStep, hv, hx]
    simp only [Option.bind_eq_bind, Option.bind_some, u128_eq hmul, hsum]
    rw [← ht, i128_eq (by omega) (by omega), Option.bind_some, store_eq hlen,
      i128_eq (by omega) (by omega)]
    rfl
  · refine ⟨by rw [List.length_set, h.length], fun m hm => ?_, ?_, hb.2.2.1, hb.2.2.2⟩
    · rw [limbAt_set_ne (by omega), h.frame m (by omega)]
    · have hdigit : ((lowInt t).toNat : ℤ) + radix * (t / radix - (qhat * v.toNat / radix : ℕ)) =
          limbAt un₀ (j + i) + k - qhat * limbAt vn i := by
        rw [← h.frame (j + i) (.inr le_rfl), ← hun, ← hvn, lowInt_toNat]
        have hdm := Int.emod_add_mul_ediv t radix
        have hpm : ((qhat * v.toNat % radix : ℕ) : ℤ) + radix * (qhat * v.toNat / radix : ℕ) =
            qhat * v.toNat := by
          exact_mod_cast Nat.mod_add_div (qhat * v.toNat) radix
        rw [mul_sub]
        linarith
      rw [segment_succ, segment_succ, segment_succ, limbAt_set_self hlen,
        segment_set_of_not_mem (.inr le_rfl), Nat.zero_add, pow_succ]
      generalize qhat * v.toNat / radix = high at hdigit ⊢
      push_cast
      linear_combination h.value + (radix : ℤ) ^ i * hdigit

/-- D4 on the limbs of the divisor. -/
theorem mulSub_spec (hn : n ≤ vn.length) (hj : j + n ≤ un.length) (hq : qhat < radix) :
    ∃ un' k, upTo n (fun i s => mulSubStep qhat vn j i s.1 s.2) (un, 0) = some (un', k) ∧
      Subtracted vn un j qhat n un' k := by
  obtain ⟨⟨un', k⟩, hrun, h⟩ := upTo_spec (n := n)
    (f := fun i s => mulSubStep qhat vn j i s.1 s.2) (s := (un, (0 : ℤ)))
    (fun i s => Subtracted vn un j qhat i s.1 s.2)
    ⟨rfl, fun _ _ => rfl, by simp, by simp, le_rfl⟩ (by
      intro i hi s hs
      obtain ⟨un', k', hstep, hs'⟩ := mulSubStep_spec hs (by omega) (by omega) hq
      exact ⟨(un', k'), hstep, hs'⟩)
  exact ⟨un', k, hrun, h⟩

/-- What adding back the first `i` limbs leaves. -/
structure Added (vn un₀ : List UInt64) (j i : ℕ) (un : List UInt64) (carry : ℕ) : Prop where
  length : un.length = un₀.length
  frame : ∀ m, m < j ∨ j + i ≤ m → limbAt un m = limbAt un₀ m
  value : segment un j i + carry * radix ^ i = segment un₀ j i + segment vn 0 i
  carry : carry < radix

theorem addBackStep_spec {un₀ : List UInt64} {c : ℕ} (h : Added vn un₀ j i un c)
    (hi : i < vn.length) (hj : j + i < un₀.length) :
    ∃ un' c', addBackStep vn j i un c = some (un', c') ∧ Added vn un₀ j (i + 1) un' c' := by
  have hlen : j + i < un.length := h.length ▸ hj
  obtain ⟨v, hv, hvn⟩ := exists_limb hi
  obtain ⟨x, hx, hun⟩ := exists_limb hlen
  have hvlt : v.toNat < radix := v.toNat_lt
  have hxlt : x.toNat < radix := x.toNat_lt
  have hc := h.carry
  have hthree : 3 * radix ≤ radix * radix := Nat.mul_le_mul_right _ (by decide)
  refine ⟨un.set (j + i) (low (x.toNat + v.toNat + c)), (x.toNat + v.toNat + c) / radix, ?_, ?_⟩
  · rw [addBackStep, hv, hx]
    simp only [Option.bind_eq_bind, Option.bind_some]
    rw [u128_eq (by omega), Option.bind_some, store_eq hlen]
    rfl
  · refine ⟨by rw [List.length_set, h.length], fun m hm => ?_, ?_, ?_⟩
    · rw [limbAt_set_ne (by omega), h.frame m (by omega)]
    · have hdigit : (low (x.toNat + v.toNat + c)).toNat +
          radix * ((x.toNat + v.toNat + c) / radix) = limbAt un₀ (j + i) + limbAt vn i + c := by
        rw [low_toNat, Nat.mod_add_div, hun, hvn, h.frame (j + i) (.inr le_rfl)]
      rw [segment_succ, segment_succ, segment_succ, limbAt_set_self hlen,
        segment_set_of_not_mem (.inr le_rfl), Nat.zero_add, pow_succ]
      linear_combination h.value + radix ^ i * hdigit
    · exact (Nat.div_lt_iff_lt_mul radix_pos).mpr (by omega)

/-- D6: the divisor is added to the window, modulo what the window holds. -/
theorem addBack_spec (hn : n ≤ vn.length) (hj : j + n < un.length) :
    ∃ un', addBack vn n j un = some un' ∧ un'.length = un.length ∧
      (∀ m, m < j ∨ j + n < m → limbAt un' m = limbAt un m) ∧
      segment un' j (n + 1) = (segment un j (n + 1) + segment vn 0 n) % radix ^ (n + 1) := by
  obtain ⟨⟨un₁, c⟩, hrun, h⟩ := upTo_spec (n := n)
    (f := fun i s => addBackStep vn j i s.1 s.2) (s := (un, 0))
    (fun i s => Added vn un j i s.1 s.2) ⟨rfl, fun _ _ => rfl, by simp, radix_pos⟩ (by
      intro i hi s hs
      obtain ⟨un', c', hstep, hs'⟩ := addBackStep_spec hs (by omega) (by omega)
      exact ⟨(un', c'), hstep, hs'⟩)
  have hlen : j + n < un₁.length := h.length ▸ hj
  obtain ⟨x, hx, hun⟩ := exists_limb hlen
  have hxlt : x.toNat < radix := x.toNat_lt
  have hc := h.carry
  have htwo : 2 * radix ≤ radix * radix := Nat.mul_le_mul_right _ (by decide)
  refine ⟨un₁.set (j + n) (low (x.toNat + c)), ?_, by rw [List.length_set, h.length],
    fun m hm => ?_, ?_⟩
  · rw [addBack, hrun]
    simp only [Option.bind_eq_bind, Option.bind_some, hx]
    rw [u128_eq (by simp only at hc; omega), Option.bind_some, store_eq hlen]
  · rw [limbAt_set_ne (by omega), h.frame m (by omega)]
  · have hvalue : segment (un₁.set (j + n) (low (x.toNat + c))) j (n + 1) +
        radix ^ (n + 1) * ((x.toNat + c) / radix) = segment un j (n + 1) + segment vn 0 n := by
      have hdigit : (low (x.toNat + c)).toNat + radix * ((x.toNat + c) / radix) =
          limbAt un (j + n) + c := by
        rw [low_toNat, Nat.mod_add_div, hun, h.frame (j + n) (.inr le_rfl)]
      rw [segment_succ, segment_succ, limbAt_set_self hlen,
        segment_set_of_not_mem (.inr le_rfl), pow_succ]
      linear_combination h.value + radix ^ n * hdigit
    rw [← hvalue, Nat.add_mul_mod_self_left, Nat.mod_eq_of_lt (segment_lt _ _ _)]

/-- The sign of the top limb tells whether the digit was too large. -/
theorem Subtracted.neg_iff {un₀ : List UInt64} {k : ℤ} (h : Subtracted vn un₀ j qhat n un k) :
    limbAt un₀ (j + n) + k < 0 ↔ segment un₀ j (n + 1) < qhat * segment vn 0 n := by
  have hpow : (0 : ℤ) < (radix : ℤ) ^ n := by exact_mod_cast Nat.pow_pos radix_pos
  have hs : (segment un j n : ℤ) < (radix : ℤ) ^ n := by exact_mod_cast segment_lt un j n
  have hs₀ : (0 : ℤ) ≤ segment un j n := Int.natCast_nonneg _
  have heq : (segment un j n : ℤ) + (limbAt un₀ (j + n) + k) * (radix : ℤ) ^ n =
      segment un₀ j (n + 1) - qhat * segment vn 0 n := by
    rw [segment_succ]
    push_cast
    linear_combination h.value
  have hiff : segment un₀ j (n + 1) < qhat * segment vn 0 n ↔
      (segment un j n : ℤ) + (limbAt un₀ (j + n) + k) * (radix : ℤ) ^ n < 0 := by
    rw [heq, sub_neg]
    exact_mod_cast Iff.rfl
  rw [hiff]
  constructor
  · intro hneg
    have hle : (limbAt un₀ (j + n) + k) * (radix : ℤ) ^ n ≤ -1 * (radix : ℤ) ^ n :=
      mul_le_mul_of_nonneg_right (by omega) hpow.le
    linarith
  · intro hlt
    by_contra hneg
    have hge : 0 ≤ (limbAt un₀ (j + n) + k) * (radix : ℤ) ^ n := mul_nonneg (by omega) hpow.le
    linarith

/-- The window after D4. -/
theorem Subtracted.window {un₀ : List UInt64} {k : ℤ} (h : Subtracted vn un₀ j qhat n un k)
    (hj : j + n < un.length) :
    (segment (un.set (j + n) (lowInt (limbAt un₀ (j + n) + k))) j (n + 1) : ℤ) =
      segment un₀ j (n + 1) - qhat * segment vn 0 n +
        if limbAt un₀ (j + n) + k < 0 then ((radix ^ (n + 1) : ℕ) : ℤ) else 0 := by
  have hkl := h.borrow
  have hkr := h.borrow'
  have hlt := limbAt_lt un₀ (j + n)
  have hvalue := h.value
  rw [segment_succ, limbAt_set_self hj, segment_set_of_not_mem (.inr le_rfl), segment_succ]
  push_cast
  rw [lowInt_toNat]
  split_ifs with hneg
  · rw [← Int.add_emod_right, Int.emod_eq_of_lt (by omega) (by omega), pow_succ]
    linear_combination hvalue
  · rw [Int.emod_eq_of_lt (by omega) (by omega)]
    linear_combination hvalue

/-- D4: the window less the digit times the divisor, and the base for the limb above when
that is negative. -/
theorem subtract_spec (hn : n ≤ vn.length) (hj : j + n < un.length) (hq : qhat < radix) :
    ∃ un' t, subtract qhat vn n j un = some (un', t) ∧ un'.length = un.length ∧
      (∀ m < j, limbAt un' m = limbAt un m) ∧
      (t < 0 ↔ segment un j (n + 1) < qhat * segment vn 0 n) ∧
      (segment un' j (n + 1) : ℤ) = segment un j (n + 1) - qhat * segment vn 0 n +
        if t < 0 then ((radix ^ (n + 1) : ℕ) : ℤ) else 0 := by
  obtain ⟨un₁, k, hrun, hsub⟩ := mulSub_spec hn hj.le hq
  have hlen : j + n < un₁.length := hsub.length ▸ hj
  obtain ⟨top, htop, htop'⟩ := exists_limb hlen
  rw [hsub.frame _ (.inr le_rfl)] at htop'
  have ht128 : i128 (top.toNat + k) = some (limbAt un (j + n) + k) := by
    have hkl := hsub.borrow
    have hkr := hsub.borrow'
    have hlimb := limbAt_lt un (j + n)
    have hrad : radix < 2 ^ 100 := by decide
    rw [htop']
    exact i128_eq (by omega) (by omega)
  refine ⟨_, _, ?_, ?_, fun m hm => ?_, hsub.neg_iff, hsub.window hlen⟩
  · rw [subtract, hrun]
    simp only [Option.bind_eq_bind, Option.bind_some, htop, ht128, store_eq hlen]
  · rw [List.length_set, hsub.length]
  · rw [limbAt_set_ne (by omega), hsub.frame m (.inl hm)]

theorem estimate_eq {d : ℕ} (hvn : vn.length = d + 2) (hv : 0 < limbAt vn (d + 1))
    (hj : j + (d + 2) < un.length) :
    estimate vn (d + 2) j un =
      correct (limbAt vn (d + 1)) (limbAt vn d) (limbAt un (j + d))
        ((limbAt un (j + (d + 2)) * radix + limbAt un (j + (d + 1))) / limbAt vn (d + 1))
        ((limbAt un (j + (d + 2)) * radix + limbAt un (j + (d + 1))) % limbAt vn (d + 1)) := by
  obtain ⟨v₁, hv₁, hv₁'⟩ := exists_limb (by omega : d + 1 < vn.length)
  obtain ⟨v₀, hv₀, hv₀'⟩ := exists_limb (by omega : d < vn.length)
  obtain ⟨u₂, hu₂, hu₂'⟩ := exists_limb hj
  obtain ⟨u₁, hu₁, hu₁'⟩ := exists_limb (by omega : j + (d + 1) < un.length)
  obtain ⟨u₀, hu₀, hu₀'⟩ := exists_limb (by omega : j + d < un.length)
  have h₁ : j + (d + 2) - 1 = j + (d + 1) := by omega
  have h₂ : j + (d + 2) - 2 = j + d := by omega
  have h₃ : d + 2 - 1 = d + 1 := by omega
  unfold estimate
  simp only [Option.bind_eq_bind]
  rw [h₁, h₂, h₃, Nat.add_sub_cancel, bind_of_some hv₁, bind_of_some hu₂, bind_of_some hu₁,
    hv₁', hu₂', hu₁', if_neg hv.ne', bind_of_some hv₀, bind_of_some hu₀, hv₀', hu₀',
    wide_eq (limbAt_lt _ _) (limbAt_lt _ _)]

/-- The trial digit is right or one too large. -/
theorem estimate_spec {d : ℕ} (hvn : vn.length = d + 2) (hv : 0 < limbAt vn (d + 1))
    (hj : j + (d + 2) < un.length)
    (hlt : segment un j (d + 3) < radix * segment vn 0 (d + 2)) :
    ∃ qhat, estimate vn (d + 2) j un = some qhat ∧ qhat < radix ∧
      segment un j (d + 3) < (qhat + 1) * segment vn 0 (d + 2) ∧
      qhat * segment vn 0 (d + 2) < segment un j (d + 3) + segment vn 0 (d + 2) := by
  rw [estimate_eq hvn hv hj]
  generalize hN : limbAt un (j + (d + 2)) * radix + limbAt un (j + (d + 1)) = N
  have hV : segment vn 0 (d + 2) =
      (limbAt vn (d + 1) * radix + limbAt vn d) * radix ^ d + segment vn 0 d := by
    rw [segment_succ, segment_succ, Nat.zero_add, Nat.zero_add, pow_succ]
    ring
  have hU : segment un j (d + 3) =
      (N * radix + limbAt un (j + d)) * radix ^ d + segment un j d := by
    rw [segment_succ, segment_succ, segment_succ, pow_succ, pow_succ, ← hN]
    ring
  have hvl := segment_lt vn 0 d
  have hul := segment_lt un j d
  have hv₀ := limbAt_lt vn d
  have hu₀ := limbAt_lt un (j + d)
  have hsplit : ∀ a b : ℕ, (a * radix + b) * radix ^ d = a * (radix * radix ^ d) + b * radix ^ d :=
    fun a b => by ring
  have hdigit : ∀ b < radix, b * radix ^ d + radix ^ d ≤ radix * radix ^ d := fun b hb => by
    rw [← Nat.succ_mul]
    exact Nat.mul_le_mul_right _ hb
  have hNlt : N < (limbAt vn (d + 1) + 1) * radix := by
    apply lt_of_lt_mul (Nat.mul_pos radix_pos (Nat.pow_pos (n := d) radix_pos)) _ _ hlt
    · rw [hU, hsplit]
      exact (Nat.le_add_right _ _).trans (Nat.le_add_right _ _)
    · have := hdigit _ hv₀
      rw [hV, hsplit, Nat.succ_mul]
      omega
  have hlow : segment un j (d + 3) < (N / limbAt vn (d + 1) + 1) * segment vn 0 (d + 2) := by
    apply lt_first_trial (B := radix) (P := radix ^ d) hv
    · have := hdigit _ hu₀
      rw [hU, hsplit, Nat.succ_mul]
      omega
    · rw [hV, hsplit]
      exact (Nat.le_add_right _ _).trans (Nat.le_add_right _ _)
  obtain ⟨qhat, r, hcorrect, hqr, hqlt, hpass, hqlow⟩ := correct_spec (limbAt_lt vn (d + 1)) hv₀
    hNlt hU hul hV hlt ((Nat.mod_lt N hv).trans (limbAt_lt vn (d + 1)))
    (Nat.div_add_mod' N (limbAt vn (d + 1))) hlow
  exact ⟨qhat, hcorrect, hqlt, hqlow, mul_lt_of_not_test hU hV hvl hqr hpass hv hqlt⟩

/-- One digit of the quotient, from a window that holds less than the base times the
divisor. The window is left with the remainder. -/
theorem digitStep_spec {q : List UInt64} {d : ℕ} (hvn : vn.length = d + 2)
    (hv : 0 < limbAt vn (d + 1)) (hj : j + (d + 2) < un.length) (hq : j < q.length)
    (hlt : segment un j (d + 3) < radix * segment vn 0 (d + 2)) :
    ∃ un' x, digitStep vn (d + 2) j un q = some (un', q.set j x) ∧
      x.toNat = segment un j (d + 3) / segment vn 0 (d + 2) ∧ un'.length = un.length ∧
      (∀ m < j, limbAt un' m = limbAt un m) ∧
      segment un' j (d + 3) = segment un j (d + 3) % segment vn 0 (d + 2) := by
  obtain ⟨qhat, hestimate, hqlt, hqlow, hqhigh⟩ := estimate_spec hvn hv hj hlt
  obtain ⟨un₁, t, hsubtract, hlen₁, hframe₁, hneg, hwindow⟩ :=
    subtract_spec hvn.ge hj hqlt
  have hrest : digitStep vn (d + 2) j un q =
      if t < 0 then (addBack vn (d + 2) j un₁).bind
        fun un => (store q j (low qhat - 1)).bind fun q => some (un, q)
      else (store q j (low qhat)).bind fun q => some (un₁, q) := by
    rw [digitStep, hestimate, Option.bind_eq_bind, Option.bind_some, hsubtract]
    rfl
  have hqhat : (low qhat).toNat = qhat := by rw [low_toNat, Nat.mod_eq_of_lt hqlt]
  by_cases hlt₀ : t < 0
  · -- the digit is one too large
    have hUlt := hneg.mp hlt₀
    obtain ⟨Q, rfl⟩ : ∃ Q, qhat = Q + 1 := by
      cases qhat with
      | zero => simp at hUlt
      | succ Q => exact ⟨Q, rfl⟩
    have hQle : Q * segment vn 0 (d + 2) ≤ segment un j (d + 3) := by
      rw [Nat.succ_mul] at hqhigh
      omega
    obtain ⟨un', hadd, hlen', hframe, hvalue⟩ := addBack_spec hvn.ge (hlen₁ ▸ hj)
    refine ⟨un', low (Q + 1) - 1, ?_, ?_, ?_, fun m hm => ?_, ?_⟩
    · rw [hrest, if_pos hlt₀, hadd, store_eq hq]
      rfl
    · have hone : (1 : UInt64) ≤ low (Q + 1) := by
        rw [UInt64.le_iff_toNat_le, hqhat]
        exact Nat.le_add_left 1 Q
      rw [UInt64.toNat_sub_of_le _ _ hone, hqhat, div_eq_of_bounds hUlt hQle, UInt64.toNat_one,
        Nat.add_sub_cancel]
    · rw [hlen', hlen₁]
    · rw [hframe m (.inl hm), hframe₁ m hm]
    · rw [if_pos hlt₀] at hwindow
      have hM : segment vn 0 (d + 2) ≤ radix ^ (d + 3) :=
        (segment_lt vn 0 (d + 2)).le.trans (Nat.pow_le_pow_right radix_pos (by omega))
      rw [hvalue]
      exact add_back_mod hM hUlt hQle hwindow
  · have hUge := not_lt.mp (hneg.not.mp hlt₀)
    refine ⟨un₁, low qhat, ?_, ?_, hlen₁, hframe₁, ?_⟩
    · rw [hrest, if_neg hlt₀, store_eq hq]
      rfl
    · rw [hqhat, div_eq_of_bounds hqlow hUge]
    · rw [if_neg hlt₀, Int.add_zero] at hwindow
      exact sub_eq_mod hqlow hUge hwindow

end Window

end Conclave.Crypto
