import Conclave.Crypto.Euclid

/-! Sums, differences and powers modulo a number. -/

namespace Conclave.Crypto

open Conclave.Lib
open BigUint

namespace BigUint

def one : BigUint := ⟨[1], by decide⟩

def bitLen (a : BigUint) : ℕ :=
  match rposition a.limbs with
  | some i => i * 64 + (64 - (leadingZeros (a.limbs.getD i 0)).toNat)
  | none => 0

def bit (a : BigUint) (idx : ℕ) : Bool :=
  a.limbs[idx / 64]?.any fun l => l >>> UInt64.ofNat (idx % 64) &&& 1 == 1

def isOne (a : BigUint) : Bool := rposition a.limbs == some 0 && a.limbs[0]? == some 1

def isEven (a : BigUint) : Bool := a.limbs.head?.all fun l => l &&& 1 == 0

end BigUint

def addStep (a b : List UInt64) (i : ℕ) (out : List UInt64) (carry : ℕ) :
    Option (List UInt64 × ℕ) := do
  let s ← u128 ((a.getD i 0).toNat + (b.getD i 0).toNat + carry)
  some (out ++ [low s], s / radix)

def add (a b : BigUint) : Option BigUint := do
  let (out, carry) ← upTo (max a.limbs.length b.limbs.length)
    (fun i s => addStep a.limbs b.limbs i s.1 s.2) ([], 0)
  some (ofLimbs (if carry ≠ 0 then out ++ [low carry] else out))

def subStep (a b : List UInt64) (i : ℕ) (out : List UInt64) (borrow : ℤ) :
    Option (List UInt64 × ℤ) := do
  let d ← i128 ((← i128 ((← a[i]?).toNat - (b.getD i 0).toNat)) - borrow)
  if d < 0 then some (← store out i (lowInt (← i128 (d + radix))), 1)
  else some (← store out i (lowInt d), 0)

/-- The caller ensures `b ≤ a`. -/
def sub (a b : BigUint) : Option BigUint := do
  let (out, _) ← upTo a.limbs.length (fun i s => subStep a.limbs b.limbs i s.1 s.2)
    (List.replicate a.limbs.length 0, 0)
  some (ofLimbs out)

def addMod (a b n : BigUint) : Option BigUint := do
  let s ← add a b
  if (← s.cmp n) ≠ .lt then sub s n else some s

def subMod (a b n : BigUint) : Option BigUint := do
  if (← a.cmp b) ≠ .lt then sub a b else sub (← add a n) b

def mulMod (a b n : BigUint) : Option BigUint := do some (← divmod (← mulFull a b) n).2

def rem (a n : BigUint) : Option BigUint := do some (← divmod a n).2

def divFloor (a n : BigUint) : Option BigUint := do some (← divmod a n).1

/-- One bit of the exponent: a square, and a product if the bit is set. -/
def powStep (base exp modulus : BigUint) (i : ℕ) (result : BigUint) : Option BigUint := do
  let result ← mulMod result result modulus
  if exp.bit i then mulMod result base modulus else some result

def powMod (base exp modulus : BigUint) : Option BigUint :=
  if modulus.isZero then none
  else if exp.bitLen = 0 then some one
  else do
    let base ← rem base modulus
    downTo (exp.bitLen - 1) (powStep base exp modulus) base

def BigUint.decOne (a : BigUint) : Option BigUint := sub a (fromU64 1)

section Sums

variable {a b out : List UInt64} {i carry : ℕ}

/-- The sum of the first `i` limbs. -/
structure Summed (a b : List UInt64) (i : ℕ) (out : List UInt64) (carry : ℕ) : Prop where
  length : out.length = i
  value : value out + carry * radix ^ i = segment a 0 i + segment b 0 i
  carry : carry ≤ 1

theorem addStep_spec (h : Summed a b i out carry) :
    ∃ out' carry', addStep a b i out carry = some (out', carry') ∧
      Summed a b (i + 1) out' carry' := by
  have ha := limbAt_lt a i
  have hb := limbAt_lt b i
  have hc := h.carry
  have hsum : limbAt a i + limbAt b i + carry < radix * 2 := by omega
  have hlt : limbAt a i + limbAt b i + carry < radix * radix :=
    hsum.trans_le (Nat.mul_le_mul_left _ (by decide))
  refine ⟨out ++ [low (limbAt a i + limbAt b i + carry)],
    (limbAt a i + limbAt b i + carry) / radix, bind_of_some (u128_eq hlt) _, ?_⟩
  refine ⟨by rw [List.length_append, h.length]; rfl, ?_, ?_⟩
  · have hdigit := Nat.mod_add_div (limbAt a i + limbAt b i + carry) radix
    rw [value_append, value_cons, value_nil, low_toNat, h.length, segment_succ, segment_succ,
      Nat.zero_add, pow_succ]
    linear_combination h.value + radix ^ i * hdigit
  · exact Nat.le_of_lt_succ ((Nat.div_lt_iff_lt_mul radix_pos).mpr (by omega))

theorem add_spec (a b : BigUint) : ∃ c, add a b = some c ∧ c.toNat = a.toNat + b.toNat := by
  obtain ⟨⟨out, carry⟩, hrun, h⟩ := upTo_spec (n := max a.limbs.length b.limbs.length)
    (f := fun i s => addStep a.limbs b.limbs i s.1 s.2) (s := ([], 0))
    (fun i s => Summed a.limbs b.limbs i s.1 s.2) ⟨rfl, rfl, Nat.zero_le _⟩ (by
      intro i _ s hs
      obtain ⟨out', carry', hstep, hs'⟩ := addStep_spec hs
      exact ⟨(out', carry'), hstep, hs'⟩)
  have hvalue := h.value
  rw [segment_of_length_le (le_max_left _ _), segment_of_length_le (le_max_right _ _)] at hvalue
  refine ⟨_, bind_of_some hrun _, ?_⟩
  rw [toNat_ofLimbs]
  split_ifs with hc
  · have hlow : (low carry).toNat = carry := by
      rw [low_toNat, Nat.mod_eq_of_lt (h.carry.trans_lt (by decide))]
    rw [value_append, value_cons, value_nil, hlow, h.length]
    simpa [BigUint.toNat] using hvalue
  · rw [not_not.mp hc, Nat.zero_mul] at hvalue
    exact hvalue

/-- The difference of the first `i` limbs. -/
structure Lessened (a b : List UInt64) (i : ℕ) (out : List UInt64) (borrow : ℤ) : Prop where
  length : out.length = a.length
  value : (segment out 0 i : ℤ) - borrow * radix ^ i = segment a 0 i - segment b 0 i
  borrow : borrow = 0 ∨ borrow = 1

theorem subStep_spec {borrow : ℤ} (h : Lessened a b i out borrow) (hi : i < a.length) :
    ∃ out' borrow', subStep a b i out borrow = some (out', borrow') ∧
      Lessened a b (i + 1) out' borrow' := by
  obtain ⟨x, hx, hx'⟩ := exists_limb hi
  have hxlt : x.toNat < radix := x.toNat_lt
  have hylt := limbAt_lt b i
  have hout : i < out.length := h.length ▸ hi
  have hradix : (radix : ℤ) = 2 ^ 64 := rfl
  have hb := h.borrow
  set d : ℤ := x.toNat - limbAt b i - borrow with hd
  have hrun : i128 (x.toNat - limbAt b i : ℤ) = some (x.toNat - limbAt b i : ℤ) :=
    i128_eq (by omega) (by omega)
  have hrun' : i128 d = some d := i128_eq (by omega) (by omega)
  have hstep : subStep a b i out borrow =
      if d < 0 then some (out.set i (lowInt (d + radix)), 1)
      else some (out.set i (lowInt d), 0) := by
    have hsum : i128 (d + radix) = some (d + radix) := i128_eq (by omega) (by omega)
    rw [subStep, hx]
    simp only [Option.bind_eq_bind, Option.bind_some]
    rw [show (b.getD i 0).toNat = limbAt b i from rfl, bind_of_some hrun, ← hd,
      bind_of_some hrun', hsum, store_eq hout, Option.bind_some, store_eq hout]
    rfl
  have hkeep : ∀ z : ℤ, 0 ≤ z → z < radix → ∀ borrow' : ℤ, z - radix * borrow' = d →
      (borrow' = 0 ∨ borrow' = 1) → Lessened a b (i + 1) (out.set i (lowInt z)) borrow' := by
    intro z hz hz' borrow' hdigit hborrow'
    refine ⟨by rw [List.length_set, h.length], ?_, hborrow'⟩
    have hlow : ((lowInt z).toNat : ℤ) = z := by rw [lowInt_toNat, Int.emod_eq_of_lt hz hz']
    rw [segment_succ, segment_succ, segment_succ, Nat.zero_add, limbAt_set_self hout,
      segment_set_of_not_mem (.inr (by omega)), ← hx', pow_succ]
    push_cast
    rw [hlow]
    linear_combination h.value + (radix : ℤ) ^ i * hdigit + (radix : ℤ) ^ i * hd
  rw [hstep]
  split_ifs with hneg
  · exact ⟨_, _, rfl, hkeep (d + radix) (by omega) (by omega) 1 (by ring) (.inr rfl)⟩
  · exact ⟨_, _, rfl, hkeep d (by omega) (by omega) 0 (by ring) (.inl rfl)⟩

theorem sub_spec {a b : BigUint} (hle : b.toNat ≤ a.toNat) :
    ∃ c, sub a b = some c ∧ c.toNat = a.toNat - b.toNat := by
  obtain ⟨⟨out, borrow⟩, hrun, h⟩ := upTo_spec (n := a.limbs.length)
    (f := fun i s => subStep a.limbs b.limbs i s.1 s.2)
    (s := (List.replicate a.limbs.length 0, 0))
    (fun i s => Lessened a.limbs b.limbs i s.1 s.2) ⟨List.length_replicate, by simp, .inl rfl⟩ (by
      intro i hi s hs
      obtain ⟨out', borrow', hstep, hs'⟩ := subStep_spec hs hi
      exact ⟨(out', borrow'), hstep, hs'⟩)
  have hlen : b.limbs.length ≤ a.limbs.length := by
    by_contra hlt
    exact absurd (lt_of_length_lt (not_le.mp hlt)) (by omega)
  have hvalue := h.value
  have hlt := segment_lt out 0 a.limbs.length
  rw [segment_of_length_le h.length.le, segment_of_length_le le_rfl, segment_of_length_le hlen]
    at hvalue
  rw [segment_of_length_le h.length.le] at hlt
  refine ⟨ofLimbs out, bind_of_some hrun _, ?_⟩
  rw [toNat_ofLimbs]
  change (value out : ℤ) - borrow * radix ^ a.limbs.length = a.toNat - b.toNat at hvalue
  have hzero : borrow = 0 := by
    refine h.borrow.resolve_right fun hone => ?_
    change borrow = 1 at hone
    have hlt' : (value out : ℤ) < radix ^ a.limbs.length := by exact_mod_cast hlt
    have hle' : (b.toNat : ℤ) ≤ a.toNat := by exact_mod_cast hle
    rw [hone] at hvalue
    linarith
  rw [hzero, zero_mul, sub_zero] at hvalue
  omega

end Sums

section Bits

namespace BigUint

@[simp] theorem toNat_one : one.toNat = 1 := by simp [one, toNat, value_cons]

theorem bit_eq (a : BigUint) (idx : ℕ) : a.bit idx = a.toNat.testBit idx := by
  have hshift : (UInt64.ofNat (idx % 64)).toNat = idx % 64 :=
    UInt64.toNat_ofNat_of_lt ((Nat.mod_lt _ (by decide)).trans (by decide))
  have hvalue : a.toNat.testBit idx = (limbAt a.limbs (idx / 64)).testBit (idx % 64) := by
    have hpow : a.toNat / radix ^ (idx / 64) = a.toNat >>> (64 * (idx / 64)) := by
      rw [Nat.shiftRight_eq_div_pow, pow_mul]
      rfl
    have hmod : a.toNat / radix ^ (idx / 64) % radix = _ := value_div_radix_pow a.limbs (idx / 64)
    rw [← hmod, hpow, show radix = 2 ^ 64 from rfl, Nat.testBit_mod_two_pow,
      decide_eq_true (Nat.mod_lt idx (by decide)), Bool.true_and, Nat.testBit_shiftRight,
      Nat.div_add_mod]
  rw [hvalue, bit]
  by_cases h : idx / 64 < a.limbs.length
  · obtain ⟨x, hx, hx'⟩ := exists_limb h
    rw [hx, ← hx', Option.any_some, Nat.testBit_eq_decide_div_mod_eq, ← Nat.shiftRight_eq_div_pow,
      ← Nat.and_one_is_mod, Bool.beq_eq_decide_eq]
    congr 1
    rw [← UInt64.toNat_inj, UInt64.toNat_and, UInt64.toNat_shiftRight, hshift,
      Nat.mod_eq_of_lt (Nat.mod_lt idx (by decide))]
    rfl
  · rw [List.getElem?_eq_none (by omega), limbAt_of_le (by omega)]
    simp

theorem bitLen_eq (a : BigUint) : a.bitLen = a.toNat.size := by
  by_cases hne : a.limbs = []
  · rw [toNat_eq_zero.mpr hne, bitLen, hne, rposition_nil]
    rfl
  · have hlen := List.length_pos_iff.mpr hne
    have htop : a.limbs.length - 1 < a.limbs.length := by omega
    obtain ⟨x, hx, hx'⟩ := exists_limb htop
    have hx₀ : x ≠ 0 := by
      rintro rfl
      exact a.normal (by rw [List.getLast?_eq_getElem?]; exact hx)
    have hpos : x.toNat ≠ 0 := fun h => hx₀ (UInt64.toNat_inj.mp h)
    have hget : a.limbs.getD (a.limbs.length - 1) 0 = x := by
      rw [List.getD_eq_getElem?_getD, hx]
      rfl
    have hlog : x.toNat.log2 < 64 := (Nat.log2_lt hpos).mpr x.toNat_lt
    have hfits : 63 - x.toNat.log2 < UInt64.size := (Nat.sub_le _ _).trans_lt (by decide)
    have hlead : (leadingZeros x).toNat = 63 - x.toNat.log2 := by
      rw [leadingZeros, if_neg hx₀]
      exact UInt64.toNat_ofNat_of_lt hfits
    have hsplit : a.toNat = segment a.limbs 0 (a.limbs.length - 1) +
        x.toNat * radix ^ (a.limbs.length - 1) := by
      have h := segment_succ a.limbs 0 (a.limbs.length - 1)
      rw [Nat.sub_add_cancel hlen, Nat.zero_add, ← hx'] at h
      exact h
    have hrest := segment_lt a.limbs 0 (a.limbs.length - 1)
    have hradix : radix ^ (a.limbs.length - 1) = 2 ^ ((a.limbs.length - 1) * 64) := by
      rw [Nat.mul_comm, pow_mul]
      rfl
    have hlow : 2 ^ ((a.limbs.length - 1) * 64 + x.toNat.log2) ≤ a.toNat := by
      rw [pow_add, hsplit, hradix, Nat.mul_comm]
      exact (Nat.mul_le_mul_right _ (Nat.log2_self_le hpos)).trans (Nat.le_add_left _ _)
    have hhigh : a.toNat < 2 ^ ((a.limbs.length - 1) * 64 + x.toNat.log2 + 1) := by
      have hmul : (x.toNat + 1) * radix ^ (a.limbs.length - 1) ≤
          2 ^ (x.toNat.log2 + 1) * radix ^ (a.limbs.length - 1) :=
        Nat.mul_le_mul_right _ Nat.lt_log2_self
      rw [Nat.add_assoc, pow_add, ← hradix, Nat.mul_comm (radix ^ _)]
      rw [Nat.succ_mul] at hmul
      omega
    have hbits : a.bitLen = (a.limbs.length - 1) * 64 + x.toNat.log2 + 1 := by
      rw [bitLen, rposition_of_getLast? a.normal hne]
      change (a.limbs.length - 1) * 64 + (64 - (leadingZeros (a.limbs.getD _ 0)).toNat) = _
      rw [hget, hlead]
      omega
    rw [hbits]
    exact le_antisymm (Nat.lt_size.mpr hlow) (Nat.size_le.mpr hhigh)

theorem isOne_iff (a : BigUint) : a.isOne = true ↔ a.toNat = 1 := by
  constructor
  · intro h
    rw [isOne, Bool.and_eq_true, beq_iff_eq, beq_iff_eq] at h
    have hne : a.limbs ≠ [] := by
      rintro hnil
      rw [hnil] at h
      exact absurd h.2 (by simp)
    rw [rposition_of_getLast? a.normal hne, Option.some_inj] at h
    obtain ⟨x, hx⟩ : ∃ x, a.limbs = [x] :=
      List.length_eq_one_iff.mp (by have := List.length_pos_iff.mpr hne; omega)
    rw [hx] at h
    simp only [List.getElem?_cons_zero, Option.some_inj] at h
    rw [toNat, hx, h.2, value_cons]
    rfl
  · intro h
    rw [toNat_inj (h.trans toNat_one.symm)]
    rfl

theorem isEven_iff (a : BigUint) : a.isEven = true ↔ Even a.toNat := by
  have hparity : ∀ x : UInt64, (x &&& 1 == 0) = true ↔ Even x.toNat := by
    intro x
    rw [beq_iff_eq, ← UInt64.toNat_inj, UInt64.toNat_and, Nat.even_iff]
    exact iff_of_eq (congrArg (· = 0) (Nat.and_one_is_mod x.toNat))
  rw [isEven, toNat]
  cases a.limbs with
  | nil => simp
  | cons x l =>
    have hradix : Even (radix * value l) := Even.mul_right (by decide) _
    rw [List.head?_cons, Option.all_some, hparity, value_cons, Nat.even_add]
    exact ⟨fun h => iff_of_true h hradix, fun h => h.mpr hradix⟩

end BigUint

end Bits

section Powers

variable {a b n base exp m : BigUint}

theorem rem_spec (hn : n.toNat ≠ 0) : ∃ r, rem a n = some r ∧ r.toNat = a.toNat % n.toNat := by
  obtain ⟨q, r, hrun, heq, hlt⟩ := divmod_spec a n hn
  refine ⟨r, bind_of_some hrun _, ?_⟩
  rw [heq, Nat.mul_comm, Nat.mul_add_mod, Nat.mod_eq_of_lt hlt]

theorem mulMod_spec (hn : n.toNat ≠ 0) :
    ∃ r, mulMod a b n = some r ∧ r.toNat = a.toNat * b.toNat % n.toNat := by
  obtain ⟨c, hc, hvalue⟩ := mulFull_spec a b
  obtain ⟨r, hrun, hr⟩ := @rem_spec c n hn
  refine ⟨r, (bind_of_some hc _).trans hrun, ?_⟩
  rw [hr, hvalue]

theorem addMod_spec (ha : a.toNat < n.toNat) (hb : b.toNat < n.toNat) :
    ∃ r, addMod a b n = some r ∧ r.toNat = (a.toNat + b.toNat) % n.toNat := by
  obtain ⟨s, hs, hvalue⟩ := add_spec a b
  have hrun : addMod a b n = if compare s.toNat n.toNat ≠ .lt then sub s n else some s :=
    (bind_of_some hs _).trans (bind_of_some (cmp_spec s n) _)
  rw [hrun, ← hvalue]
  split_ifs with h
  · have hle : n.toNat ≤ s.toNat := not_lt.mp fun hlt => h (compare_lt_iff_lt.mpr hlt)
    obtain ⟨r, hr, hr'⟩ := sub_spec hle
    refine ⟨r, hr, ?_⟩
    rw [hr', Nat.mod_eq_sub_mod hle, Nat.mod_eq_of_lt (by omega)]
  · have hlt : s.toNat < n.toNat := compare_lt_iff_lt.mp (not_not.mp h)
    exact ⟨s, rfl, (Nat.mod_eq_of_lt hlt).symm⟩

theorem subMod_spec (ha : a.toNat < n.toNat) (hb : b.toNat < n.toNat) :
    ∃ r, subMod a b n = some r ∧ (r.toNat : ℤ) = ((a.toNat : ℤ) - b.toNat) % n.toNat := by
  have hrun : subMod a b n =
      if compare a.toNat b.toNat ≠ .lt then sub a b else (add a n).bind fun s => sub s b :=
    bind_of_some (cmp_spec a b) _
  rw [hrun]
  split_ifs with h
  · have hle : b.toNat ≤ a.toNat := not_lt.mp fun hlt => h (compare_lt_iff_lt.mpr hlt)
    obtain ⟨r, hr, hr'⟩ := sub_spec hle
    refine ⟨r, hr, ?_⟩
    rw [Int.emod_eq_of_lt (by omega) (by omega)]
    omega
  · have hlt : a.toNat < b.toNat := compare_lt_iff_lt.mp (not_not.mp h)
    obtain ⟨s, hs, hvalue⟩ := add_spec a n
    obtain ⟨r, hr, hr'⟩ := @sub_spec s b (by omega)
    refine ⟨r, (bind_of_some hs _).trans hr, ?_⟩
    rw [← Int.add_emod_right, Int.emod_eq_of_lt (by omega) (by omega)]
    omega

theorem decOne_spec (ha : a.toNat ≠ 0) : ∃ r, a.decOne = some r ∧ r.toNat = a.toNat - 1 :=
  @sub_spec a (fromU64 1) (by simpa using Nat.one_le_iff_ne_zero.mpr ha)

/-- One bit of the exponent takes the power at the bits above it to the one with it. -/
theorem powStep_spec {i e : ℕ} {result : BigUint} (hm : m.toNat ≠ 0)
    (h : result.toNat = base.toNat ^ (e / 2 ^ (i + 1)) % m.toNat)
    (hbit : exp.bit i = e.testBit i) :
    ∃ r, powStep base exp m i result = some r ∧ r.toNat = base.toNat ^ (e / 2 ^ i) % m.toNat := by
  obtain ⟨s, hs, hsvalue⟩ := @mulMod_spec result result m hm
  have hsquare : s.toNat = base.toNat ^ (2 * (e / 2 ^ (i + 1))) % m.toNat := by
    rw [hsvalue, h, ← Nat.mul_mod, ← pow_add, ← Nat.two_mul]
  have hhalf : e / 2 ^ i = 2 * (e / 2 ^ (i + 1)) + e / 2 ^ i % 2 := by
    rw [pow_succ, ← Nat.div_div_eq_div_mul, Nat.div_add_mod]
  have hrun : powStep base exp m i result =
      if exp.bit i then mulMod s base m else some s := bind_of_some hs _
  rw [hrun, hbit, hhalf, Nat.testBit_eq_decide_div_mod_eq]
  split_ifs with hone
  · rw [decide_eq_true_eq] at hone
    obtain ⟨r, hr, hvalue⟩ := @mulMod_spec s base m hm
    refine ⟨r, hr, ?_⟩
    rw [hvalue, hsquare, hone, pow_succ base.toNat, Nat.mod_mul_mod]
  · have hzero : e / 2 ^ i % 2 = 0 := by
      rw [decide_eq_true_eq] at hone
      omega
    rw [hzero, Nat.add_zero]
    exact ⟨s, rfl, hsquare⟩

theorem powMod_spec (hm : 1 < m.toNat) :
    ∃ x, powMod base exp m = some x ∧ x.toNat = base.toNat ^ exp.toNat % m.toNat := by
  have hm₀ : m.toNat ≠ 0 := by omega
  rw [powMod, if_neg (mt isZero_iff.mp hm₀), bitLen_eq]
  split_ifs with hbits
  · refine ⟨one, rfl, ?_⟩
    rw [Nat.size_eq_zero.mp hbits, pow_zero, toNat_one, Nat.mod_eq_of_lt hm]
  · obtain ⟨b, hb, hvalue⟩ := @rem_spec base m hm₀
    have htop : exp.toNat / 2 ^ (exp.toNat.size - 1) = 1 := by
      have hlt := Nat.lt_size_self exp.toNat
      have hle := Nat.lt_size.mp (show exp.toNat.size - 1 < exp.toNat.size by omega)
      rw [show exp.toNat.size = exp.toNat.size - 1 + 1 by omega, pow_succ] at hlt
      exact Nat.div_eq_of_lt_le (by omega) (by omega)
    obtain ⟨x, hrun, hx⟩ := downTo_spec (n := exp.toNat.size - 1) (f := powStep b exp m) (s := b)
      (fun i r => r.toNat = b.toNat ^ (exp.toNat / 2 ^ i) % m.toNat)
      (by rw [htop, pow_one, hvalue, Nat.mod_mod])
      fun i _ r hr => powStep_spec hm₀ hr (bit_eq exp i)
    refine ⟨x, (bind_of_some hb _).trans hrun, ?_⟩
    rw [hx, pow_zero, Nat.div_one, hvalue, ← Nat.pow_mod]

end Powers

end Conclave.Crypto
