import Conclave.Crypto.Modular
import Conclave.Crypto.Octets

/-! The Miller–Rabin test after trial division. No prime fails it, whatever the source of
random bytes returns, and it ends whenever the source reaches a base in the range. -/

namespace Conclave.Crypto

open Conclave.Lib
open BigUint

variable {ρ : Type}

/-- A source of random bytes: it fills a buffer of the given length. -/
abbrev Rng (ρ : Type) := (k : ℕ) → ρ → Vector UInt8 k × ρ

def SMALL : List UInt64 :=
  [3, 5, 7, 11, 13, 17, 19, 23, 29, 31, 37, 41, 43, 47, 53, 59, 61, 67, 71, 73, 79, 83, 89, 97, 101]

def shrOne (n : BigUint) : BigUint := ofLimbs (shrLimbs n.limbs 1)

/-- The verdict of the small primes, if they have one. -/
def trialDivision (n : BigUint) : List UInt64 → Option (Option Bool)
  | [] => some none
  | p :: ps => do
    if (← n.cmp (fromU64 p)) = .eq then some (some true)
    else if (← rem n (fromU64 p)).isZero then some (some false)
    else trialDivision n ps

theorem toNat_shrOne (n : BigUint) : (shrOne n).toNat = n.toNat / 2 := by
  rw [shrOne, toNat_ofLimbs, value_shrLimbs (by decide)]
  rfl

/-- `d` halved while it is even, and how often. For zero the loop does not end. -/
def halve (d : BigUint) (s : ℕ) : Option (BigUint × ℕ) :=
  if _ : d.isZero then none
  else if d.isEven then halve (shrOne d) (s + 1)
  else some (d, s)
termination_by d.toNat
decreasing_by
  rename_i hzero _
  rw [toNat_shrOne]
  exact Nat.div_lt_self (Nat.pos_of_ne_zero (mt isZero_iff.mpr hzero)) (by decide)

/-- A random base in `2 ..= n - 2`, drawn again as long as it is not one. -/
def drawBase (nMinus1 : BigUint) (nbytes : ℕ) (rng : Rng ρ) : ℕ → ρ → Option (BigUint × ρ)
  | 0, _ => none
  | fuel + 1, st => do
    let (buf, st) := rng nbytes st
    let cand ← rem (fromBeBytes buf.toList) (← nMinus1.decOne)
    let a ← add cand (fromU64 2)
    if (← a.cmp (fromU64 2)) ≠ .lt && (← a.cmp nMinus1) = .lt then some (a, st)
    else drawBase nMinus1 nbytes rng fuel st

/-- Squares of `x` until one is `n - 1`. -/
def squares (n nMinus1 : BigUint) : ℕ → BigUint → Option Bool
  | 0, _ => some false
  | k + 1, x => do
    let x ← mulMod x x n
    if (← x.cmp nMinus1) = .eq then some true else squares n nMinus1 k x

/-- One round of the test: whether the base `a` passes. -/
def passes (n nMinus1 d : BigUint) (s : ℕ) (a : BigUint) : Option Bool := do
  let x ← powMod a d n
  if x.isOne || (← x.cmp nMinus1) = .eq then some true else squares n nMinus1 (s - 1) x

def testRounds (fuel : ℕ) (n nMinus1 d : BigUint) (s nbytes : ℕ) (rng : Rng ρ) :
    ℕ → ρ → Option Bool
  | 0, _ => some true
  | rounds + 1, st => do
    let (a, st) ← drawBase nMinus1 nbytes rng fuel st
    if ← passes n nMinus1 d s a then testRounds fuel n nMinus1 d s nbytes rng rounds st
    else some false

/-- `fuel` bounds the draws of one base. -/
def isProbablePrime (fuel : ℕ) (n : BigUint) (rounds : ℕ) (rng : Rng ρ) (st : ρ) :
    Option Bool := do
  if n.isZero || n.isOne then some false
  else if (← n.cmp (fromU64 3)) ≠ .gt then
    some ((← n.cmp (fromU64 2)) = .eq || (← n.cmp (fromU64 3)) = .eq)
  else if n.isEven then some false
  else
    match ← trialDivision n SMALL with
    | some verdict => some verdict
    | none =>
      let nMinus1 ← n.decOne
      let (d, s) ← halve nMinus1 0
      testRounds fuel n nMinus1 d s ((n.bitLen + 7) / 8) rng rounds st

section Bases

variable {p a s d : ℕ}

/-- A power that is minus one, on the numbers. -/
theorem mod_eq_of_eq_neg_one (hp : 0 < p) {x : ℕ} (h : (x : ZMod p) = -1) : x % p = p - 1 := by
  have hcast : ((p - 1 : ℕ) : ZMod p) = -1 := by
    rw [Nat.cast_sub hp, ZMod.natCast_self, Nat.cast_one, zero_sub]
  have hmod := (ZMod.natCast_eq_natCast_iff' x (p - 1) p).mp (h.trans hcast.symm)
  rwa [Nat.mod_eq_of_lt (Nat.sub_lt hp one_pos)] at hmod

/-- The square roots of one modulo a prime are one and minus one, so the chain of squares
from `a ^ d` to one starts there or goes through minus one. -/
theorem strong_of_prime (hp : p.Prime) (hs : p - 1 = 2 ^ s * d) (ha : ¬ p ∣ a) :
    a ^ d % p = 1 ∨ ∃ i < s, a ^ (2 ^ i * d) % p = p - 1 := by
  have hfact : Fact p.Prime := ⟨hp⟩
  have hfermat : (a : ZMod p) ^ (2 ^ s * d) = 1 := by
    rw [← hs]
    exact ZMod.pow_card_sub_one_eq_one (mt (ZMod.natCast_eq_zero_iff a p).mp ha)
  clear hs
  induction s with
  | zero =>
    left
    rw [pow_zero, one_mul] at hfermat
    have hmod := (ZMod.natCast_eq_natCast_iff' (a ^ d) 1 p).mp (by simpa using hfermat)
    rwa [Nat.mod_eq_of_lt hp.one_lt] at hmod
  | succ s ih =>
    have hsquare : (a : ZMod p) ^ (2 ^ s * d) * (a : ZMod p) ^ (2 ^ s * d) = 1 := by
      rw [← pow_add, ← two_mul, ← mul_assoc, ← pow_succ', hfermat]
    obtain hone | hneg := mul_self_eq_one_iff.mp hsquare
    · obtain h | ⟨i, hi, h⟩ := ih hone
      · exact .inl h
      · exact .inr ⟨i, Nat.lt_succ_of_lt hi, h⟩
    · have hcast : ((a ^ (2 ^ s * d) : ℕ) : ZMod p) = -1 := by
        rw [Nat.cast_pow, hneg]
      exact .inr ⟨s, Nat.lt_succ_self s, mod_eq_of_eq_neg_one hp.pos hcast⟩

end Bases

section Rounds

variable {n nMinus1 d : BigUint} {s : ℕ}

theorem trialDivision_spec {ps : List UInt64} (hps : ∀ p ∈ ps, p.toNat ≠ 0 ∧ p.toNat ≠ 1) :
    ∃ v, trialDivision n ps = some v ∧ (n.toNat.Prime → v ≠ some false) ∧
      (v = none → ∀ p ∈ ps, ¬ p.toNat ∣ n.toNat) := by
  induction ps with
  | nil => exact ⟨none, rfl, fun _ => by simp, by simp⟩
  | cons p ps ih =>
    obtain ⟨hzero, hone⟩ := hps p (List.mem_cons_self ..)
    obtain ⟨r, hr, hvalue⟩ := @rem_spec n (fromU64 p) (by rwa [toNat_fromU64])
    obtain ⟨v, hv, hprime, hnone⟩ := ih fun q hq => hps q (List.mem_cons_of_mem _ hq)
    rw [toNat_fromU64] at hvalue
    have hrun : trialDivision n (p :: ps) =
        if compare n.toNat p.toNat = .eq then some (some true)
        else if r.isZero then some (some false) else trialDivision n ps := by
      rw [trialDivision, Option.bind_eq_bind, bind_of_some (cmp_spec _ _), toNat_fromU64]
      congr 1
      exact bind_of_some hr _
    rw [hrun]
    split_ifs with heq hdvd
    · exact ⟨some true, rfl, fun _ => by simp, by simp⟩
    · refine ⟨some false, rfl, fun hn => ?_, by simp⟩
      rw [isZero_iff, hvalue] at hdvd
      have hp := (Nat.dvd_prime hn).mp (Nat.dvd_of_mod_eq_zero hdvd)
      exact absurd (compare_eq_iff_eq.mpr (hp.resolve_left hone).symm) heq
    · refine ⟨v, hv, hprime, fun h q hq => ?_⟩
      obtain rfl | hq := List.mem_cons.mp hq
      · rw [isZero_iff, hvalue] at hdvd
        exact mt Nat.mod_eq_zero_of_dvd hdvd
      · exact hnone h q hq

theorem halve_spec (hd : d.toNat ≠ 0) (s : ℕ) :
    ∃ d' k, halve d s = some (d', s + k) ∧ d.toNat = 2 ^ k * d'.toNat := by
  induction hn : d.toNat using Nat.strong_induction_on generalizing d s with
  | _ n ih =>
    rw [halve]
    rw [dif_neg (mt isZero_iff.mp hd)]
    split_ifs with heven
    · obtain ⟨h, hh⟩ := (isEven_iff d).mp heven
      have hhalf := toNat_shrOne d
      obtain ⟨d', k, hrun, heq⟩ := ih _ (by omega) (show (shrOne d).toNat ≠ 0 by omega) (s + 1) rfl
      refine ⟨d', k + 1, ?_, ?_⟩
      · rw [hrun, Nat.add_assoc, Nat.add_comm 1]
      · rw [pow_succ, Nat.mul_right_comm, ← heq]
        omega
    · exact ⟨d, 0, rfl, by rw [hn, pow_zero, one_mul]⟩

theorem squares_spec (hn : n.toNat ≠ 0) (k : ℕ) (x : BigUint) :
    ∃ b, squares n nMinus1 k x = some b ∧
      ((∃ i < k, x.toNat ^ 2 ^ (i + 1) % n.toNat = nMinus1.toNat) → b = true) := by
  induction k generalizing x with
  | zero => exact ⟨false, rfl, fun ⟨i, hi, _⟩ => absurd hi (Nat.not_lt_zero i)⟩
  | succ k ih =>
    obtain ⟨y, hy, hvalue⟩ := @mulMod_spec x x n hn
    obtain ⟨b, hb, hfound⟩ := ih y
    have hrun : squares n nMinus1 (k + 1) x =
        if compare y.toNat nMinus1.toNat = .eq then some true else squares n nMinus1 k y := by
      rw [squares, Option.bind_eq_bind, bind_of_some hy]
      exact bind_of_some (cmp_spec _ _) _
    rw [hrun]
    split_ifs with heq
    · exact ⟨true, rfl, fun _ => rfl⟩
    · refine ⟨b, hb, fun ⟨i, hi, h⟩ => hfound ?_⟩
      have hsquare : ∀ j, y.toNat ^ 2 ^ j % n.toNat = x.toNat ^ 2 ^ (j + 1) % n.toNat := by
        intro j
        rw [hvalue, ← Nat.pow_mod, ← pow_two, ← pow_mul, ← pow_succ']
      cases i with
      | zero =>
        rw [← hsquare, pow_zero, pow_one, hvalue, Nat.mod_mod, ← hvalue] at h
        exact absurd (compare_eq_iff_eq.mpr h) heq
      | succ i => exact ⟨i, by omega, (hsquare (i + 1)).trans h⟩

/-- A round ends, and a base of a prime passes it. -/
theorem passes_spec (hn : 1 < n.toNat) (hs : n.toNat - 1 = 2 ^ s * d.toNat)
    (hminus : nMinus1.toNat = n.toNat - 1) (a : BigUint) :
    ∃ b, passes n nMinus1 d s a = some b ∧
      (n.toNat.Prime → ¬ n.toNat ∣ a.toNat → b = true) := by
  obtain ⟨x, hx, hvalue⟩ := @powMod_spec a d n hn
  obtain ⟨b, hb, hfound⟩ := @squares_spec n nMinus1 (by omega) (s - 1) x
  have hrun : passes n nMinus1 d s a =
      if x.isOne || compare x.toNat nMinus1.toNat = .eq then some true
      else squares n nMinus1 (s - 1) x :=
    (bind_of_some hx _).trans (bind_of_some (cmp_spec _ _) _)
  rw [hrun]
  split_ifs with hfirst
  · exact ⟨true, rfl, fun _ _ => rfl⟩
  · refine ⟨b, hb, fun hp ha => hfound ?_⟩
    rw [Bool.or_eq_true, isOne_iff, decide_eq_true_eq, compare_eq_iff_eq, not_or] at hfirst
    obtain hone | ⟨i, hi, h⟩ := strong_of_prime hp hs ha
    · exact absurd (hvalue.trans hone) hfirst.1
    · cases i with
      | zero =>
        rw [pow_zero, one_mul, ← hvalue, ← hminus] at h
        exact absurd h hfirst.2
      | succ i =>
        refine ⟨i, by omega, ?_⟩
        rw [hvalue, ← Nat.pow_mod, ← pow_mul, Nat.mul_comm d.toNat, h, hminus]

end Rounds

section Source

variable {n nMinus1 d : BigUint} {s nbytes fuel : ℕ} {rng : Rng ρ}

/-- The source after `k` draws. -/
def afterDraws (rng : Rng ρ) (nbytes : ℕ) : ℕ → ρ → ρ
  | 0, st => st
  | k + 1, st => afterDraws rng nbytes k (rng nbytes st).2

/-- Whatever was drawn before, the source comes to a number that gives a base in the range. -/
def ReachesBase (rng : Rng ρ) (n : BigUint) : Prop :=
  ∀ st, ∃ k, beNat (rng ((n.bitLen + 7) / 8) (afterDraws rng ((n.bitLen + 7) / 8) k st)).1.toList %
    (n.toNat - 2) + 2 < n.toNat - 1

theorem drawBase_succ (hminus : 1 < nMinus1.toNat) (st : ρ) :
    ∃ a : BigUint, a.toNat = beNat (rng nbytes st).1.toList % (nMinus1.toNat - 1) + 2 ∧
      ∀ fuel, drawBase nMinus1 nbytes rng (fuel + 1) st =
        if a.toNat < nMinus1.toNat then some (a, (rng nbytes st).2)
        else drawBase nMinus1 nbytes rng fuel (rng nbytes st).2 := by
  obtain ⟨m, hm, hmvalue⟩ := @decOne_spec nMinus1 (by omega)
  obtain ⟨cand, hcand, hcandvalue⟩ := @rem_spec (fromBeBytes (rng nbytes st).1.toList) m (by omega)
  obtain ⟨a, ha, havalue⟩ := add_spec cand (fromU64 2)
  have htwo : (fromU64 2).toNat = 2 := by rw [toNat_fromU64]; rfl
  rw [hcandvalue, toNat_fromBeBytes, hmvalue, htwo] at havalue
  refine ⟨a, havalue, fun fuel => ?_⟩
  have hlow : compare a.toNat 2 ≠ .lt := fun h => absurd (compare_lt_iff_lt.mp h) (by omega)
  rw [drawBase]
  simp only [Option.bind_eq_bind]
  rw [bind_of_some hm, bind_of_some hcand, bind_of_some ha, bind_of_some (cmp_spec a _),
    bind_of_some (cmp_spec a _), htwo]
  simp only [hlow, ne_eq, not_false_eq_true, decide_true, Bool.true_and, decide_eq_true_eq,
    compare_lt_iff_lt]

theorem drawBase_range (hminus : 1 < nMinus1.toNat) {st st' : ρ} {a : BigUint}
    (h : drawBase nMinus1 nbytes rng fuel st = some (a, st')) :
    2 ≤ a.toNat ∧ a.toNat < nMinus1.toNat := by
  induction fuel generalizing st with
  | zero => cases h
  | succ fuel ih =>
    obtain ⟨b, hb, hstep⟩ := @drawBase_succ _ _ nbytes rng hminus st
    rw [hstep] at h
    split_ifs at h with hlt
    · cases h
      exact ⟨by omega, hlt⟩
    · exact ih h

/-- A source that comes to a number in the range ends the draws. -/
theorem drawBase_of_reaches (hminus : 1 < nMinus1.toNat) (k : ℕ) (st : ρ)
    (hk : beNat (rng nbytes (afterDraws rng nbytes k st)).1.toList % (nMinus1.toNat - 1) + 2 <
      nMinus1.toNat) :
    ∃ a st', ∀ fuel, k < fuel → drawBase nMinus1 nbytes rng fuel st = some (a, st') := by
  induction k generalizing st with
  | zero =>
    obtain ⟨a, ha, hstep⟩ := @drawBase_succ _ _ nbytes rng hminus st
    refine ⟨a, (rng nbytes st).2, fun fuel hfuel => ?_⟩
    obtain ⟨f, rfl⟩ := Nat.exists_eq_add_of_le' hfuel
    rw [hstep, if_pos (ha ▸ hk)]
  | succ k ih =>
    obtain ⟨a, ha, hstep⟩ := @drawBase_succ _ _ nbytes rng hminus st
    obtain ⟨b, st', hb⟩ := ih (rng nbytes st).2 hk
    by_cases hlt : a.toNat < nMinus1.toNat
    · refine ⟨a, (rng nbytes st).2, fun fuel hfuel => ?_⟩
      obtain ⟨f, rfl⟩ := Nat.exists_eq_add_of_le' hfuel
      rw [show f + (k + 1).succ = f + (k + 1) + 1 from rfl, hstep, if_pos hlt]
    · refine ⟨b, st', fun fuel hfuel => ?_⟩
      obtain ⟨f, rfl⟩ := Nat.exists_eq_add_of_le' hfuel
      rw [show f + (k + 1).succ = f + (k + 1) + 1 from rfl, hstep, if_neg hlt, hb _ (by omega)]

variable (hn : 3 < n.toNat) (hs : n.toNat - 1 = 2 ^ s * d.toNat)
  (hminus : nMinus1.toNat = n.toNat - 1)

include hn hs hminus

theorem testRounds_ne_false (hp : n.toNat.Prime) (rounds : ℕ) (st : ρ) :
    testRounds fuel n nMinus1 d s nbytes rng rounds st ≠ some false := by
  induction rounds generalizing st with
  | zero => simp [testRounds]
  | succ rounds ih =>
    rw [testRounds]
    cases hdraw : drawBase nMinus1 nbytes rng fuel st with
    | none => simp
    | some drawn =>
      obtain ⟨a, st'⟩ := drawn
      obtain ⟨hlow, hhigh⟩ := drawBase_range (by omega) hdraw
      obtain ⟨b, hb, hpass⟩ := @passes_spec n nMinus1 d s (by omega) hs hminus a
      have hdvd : ¬ n.toNat ∣ a.toNat := Nat.not_dvd_of_pos_of_lt (by omega) (by omega)
      rw [hpass hp hdvd] at hb
      simp only [Option.bind_eq_bind, Option.bind_some, hb, if_true]
      exact ih st'

theorem testRounds_ends (hreach : ∀ st, ∃ k, beNat (rng nbytes
      (afterDraws rng nbytes k st)).1.toList % (nMinus1.toNat - 1) + 2 < nMinus1.toNat)
    (rounds : ℕ) (st : ρ) :
    ∃ b enough, ∀ fuel, enough ≤ fuel →
      testRounds fuel n nMinus1 d s nbytes rng rounds st = some b := by
  induction rounds generalizing st with
  | zero => exact ⟨true, 0, fun _ _ => rfl⟩
  | succ rounds ih =>
    obtain ⟨k, hk⟩ := hreach st
    obtain ⟨a, st', hdraw⟩ := drawBase_of_reaches (by omega) k st hk
    obtain ⟨b, hb, -⟩ := @passes_spec n nMinus1 d s (by omega) hs hminus a
    obtain ⟨verdict, enough, hrest⟩ := ih st'
    refine ⟨if b then verdict else false, max (k + 1) enough, fun fuel hfuel => ?_⟩
    rw [testRounds, hdraw fuel (by omega)]
    simp only [Option.bind_eq_bind, Option.bind_some, hb]
    rw [hrest fuel (by omega)]
    cases b <;> rfl

end Source

theorem small_spec : ∀ p ∈ SMALL, p.toNat ≠ 0 ∧ p.toNat ≠ 1 := by simp [SMALL]

/-- An odd number that the small primes say nothing about is above all of them. -/
theorem lt_of_no_small {n : ℕ} (hn : 3 < n) (hodd : ¬ Even n)
    (hsmall : ∀ p ∈ SMALL, ¬ p.toNat ∣ n) : 101 < n := by
  have hcover : ∀ m < 102, 3 < m → m % 2 = 1 → SMALL.any (m % ·.toNat == 0) = true := by
    decide
  by_contra hle
  obtain ⟨p, hp, hdvd⟩ := List.any_eq_true.mp
    (hcover n (by omega) hn (Nat.not_even_iff.mp hodd))
  exact hsmall p hp (Nat.dvd_of_mod_eq_zero (beq_iff_eq.mp hdvd))

/-- What the test comes to: a verdict of its own that no prime gets as a rejection, or the rounds. -/
theorem isProbablePrime_cases (n : BigUint) (rounds : ℕ) (rng : Rng ρ) :
    (∃ b, (∀ fuel st, isProbablePrime fuel n rounds rng st = some b) ∧
      (n.toNat.Prime → b = true)) ∨
    ∃ nMinus1 d s, 101 < n.toNat ∧ nMinus1.toNat = n.toNat - 1 ∧
      n.toNat - 1 = 2 ^ s * d.toNat ∧ ∀ fuel st, isProbablePrime fuel n rounds rng st =
        testRounds fuel n nMinus1 d s ((n.bitLen + 7) / 8) rng rounds st := by
  have htwo : (fromU64 2).toNat = 2 := by rw [toNat_fromU64]; rfl
  have hthree : (fromU64 3).toNat = 3 := by rw [toNat_fromU64]; rfl
  by_cases hlow : (n.isZero || n.isOne) = true
  · refine .inl ⟨false, fun fuel st => by rw [isProbablePrime, if_pos hlow], fun hp => ?_⟩
    rw [Bool.or_eq_true, isZero_iff, isOne_iff] at hlow
    exact absurd hp (by obtain h | h := hlow <;> rw [h] <;> decide)
  by_cases hsmall : compare n.toNat 3 ≠ .gt
  · refine .inl ⟨compare n.toNat 2 = .eq || compare n.toNat 3 = .eq, fun fuel st => ?_, fun _ => ?_⟩
    · rw [isProbablePrime, if_neg hlow, Option.bind_eq_bind, bind_of_some (cmp_spec _ _), hthree,
        if_pos hsmall]
      rw [bind_of_some (cmp_spec _ _), htwo, bind_of_some (cmp_spec _ _), hthree]
    · rw [Bool.or_eq_true, isZero_iff, isOne_iff, not_or] at hlow
      have hle : n.toNat ≤ 3 := not_lt.mp fun h => hsmall (compare_gt_iff_gt.mpr h)
      rw [Bool.or_eq_true, decide_eq_true_eq, decide_eq_true_eq, compare_eq_iff_eq,
        compare_eq_iff_eq]
      omega
  have hgt : 3 < n.toNat := compare_gt_iff_gt.mp (not_not.mp hsmall)
  by_cases heven : n.isEven = true
  · refine .inl ⟨false, fun fuel st => ?_, fun hp => ?_⟩
    · rw [isProbablePrime, if_neg hlow, Option.bind_eq_bind, bind_of_some (cmp_spec _ _), hthree,
        if_neg hsmall, if_pos heven]
    · have h := hp.eq_two_or_odd
      rw [isEven_iff, Nat.even_iff] at heven
      omega
  obtain ⟨v, hv, hprime, hnone⟩ := @trialDivision_spec n SMALL small_spec
  have hrun : ∀ fuel st, isProbablePrime fuel n rounds rng st = v.elim
      (n.decOne.bind fun nMinus1 => (halve nMinus1 0).bind fun ds =>
        testRounds fuel n nMinus1 ds.1 ds.2 ((n.bitLen + 7) / 8) rng rounds st) some := by
    intro fuel st
    rw [isProbablePrime, if_neg hlow, Option.bind_eq_bind, bind_of_some (cmp_spec _ _), hthree,
      if_neg hsmall, if_neg heven, Option.bind_eq_bind, bind_of_some hv]
    cases v <;> rfl
  cases v with
  | some verdict =>
    refine .inl ⟨verdict, hrun, fun hp => ?_⟩
    have hne := hprime hp
    cases verdict with
    | false => exact absurd rfl hne
    | true => rfl
  | none =>
    have hlarge := lt_of_no_small hgt (mt (isEven_iff n).mpr heven) (hnone rfl)
    obtain ⟨nMinus1, hdec, hminus⟩ := @decOne_spec n (by omega)
    obtain ⟨d, k, hhalve, heq⟩ := @halve_spec nMinus1 (by omega) 0
    refine .inr ⟨nMinus1, d, k, hlarge, hminus, hminus ▸ heq, fun fuel st => ?_⟩
    rw [Nat.zero_add] at hhalve
    rw [hrun]
    exact (bind_of_some hdec _).trans (bind_of_some hhalve _)

/-- No prime is rejected, whatever bytes the source returns; and with a source that reaches the
bases the test ends for every number, for a prime with the verdict true. -/
theorem prime_not_rejected (n : BigUint) (rounds : ℕ) (rng : Rng ρ) :
    (n.toNat.Prime → ∀ fuel st, isProbablePrime fuel n rounds rng st ≠ some false) ∧
    ((101 < n.toNat → ReachesBase rng n) → ∀ st, ∃ b enough, (n.toNat.Prime → b = true) ∧
      ∀ fuel, enough ≤ fuel → isProbablePrime fuel n rounds rng st = some b) := by
  obtain ⟨b, hrun, hb⟩ | ⟨nMinus1, d, s, hlarge, hminus, hs, hrun⟩ :=
    isProbablePrime_cases n rounds rng
  · constructor
    · intro hp fuel st
      rw [hrun, hb hp]
      simp
    · exact fun _ st => ⟨b, 0, hb, fun fuel _ => hrun fuel st⟩
  · have hnever : n.toNat.Prime → ∀ fuel st,
        isProbablePrime fuel n rounds rng st ≠ some false := by
      intro hp fuel st
      rw [hrun]
      exact testRounds_ne_false (by omega) hs hminus hp rounds st
    refine ⟨hnever, fun hreach st => ?_⟩
    have hbases := hreach hlarge
    have hrange : ∀ st, ∃ k, beNat (rng ((n.bitLen + 7) / 8)
        (afterDraws rng ((n.bitLen + 7) / 8) k st)).1.toList % (nMinus1.toNat - 1) + 2 <
          nMinus1.toNat := by
      rw [hminus]
      exact hbases
    obtain ⟨b, enough, hends⟩ := testRounds_ends (by omega) hs hminus hrange rounds st
    refine ⟨b, enough, fun hp => ?_, fun fuel hfuel => (hrun fuel st).trans (hends fuel hfuel)⟩
    have h := hnever hp enough st
    rw [hrun, hends enough le_rfl] at h
    exact Bool.eq_true_of_not_eq_false fun hfalse => h (by rw [hfalse])

/-- A source of zeros gives the base two every time. -/
theorem prime_not_rejected_zeros :
    Nat.Prime (fromU64 65537).toNat ∧ ∃ enough, ∀ fuel, enough ≤ fuel →
      isProbablePrime fuel (fromU64 65537) 40 (fun k st => (Vector.replicate k 0, st)) () =
        some true := by
  have hvalue : (fromU64 65537).toNat = 65537 := by rw [toNat_fromU64]; rfl
  have hp : Nat.Prime (fromU64 65537).toNat := by rw [hvalue]; norm_num
  obtain ⟨b, enough, hb, hends⟩ := (prime_not_rejected (fromU64 65537) 40
    (fun k st => (Vector.replicate k 0, st))).2 (fun _ st => ⟨0, by
      rw [hvalue, Vector.toList_replicate, beNat_replicate_zero]; decide⟩) ()
  exact ⟨hp, enough, fun fuel hfuel => by rw [hends fuel hfuel, hb hp]⟩

end Conclave.Crypto
