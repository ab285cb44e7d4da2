import Conclave.Crypto.Modular

/-! The modular inverse by the extended Euclidean algorithm, with its signed coefficients. -/

namespace Conclave.Crypto

open Conclave.Lib
open BigUint

structure SignedBig where
  neg : Bool
  mag : BigUint

namespace SignedBig

def zero : SignedBig := ⟨false, BigUint.zero⟩

def fromUint (m : BigUint) : SignedBig := ⟨false, m⟩

protected def sub (a b : SignedBig) : Option SignedBig := do
  match a.neg, b.neg with
  | false, false =>
    if (← a.mag.cmp b.mag) = .lt then some ⟨true, ← sub b.mag a.mag⟩
    else some ⟨false, ← sub a.mag b.mag⟩
  | true, true =>
    if (← a.mag.cmp b.mag) = .lt then some ⟨false, ← sub b.mag a.mag⟩
    else some ⟨true, ← sub a.mag b.mag⟩
  | false, true => some ⟨false, ← add a.mag b.mag⟩
  | true, false => some ⟨true, ← add a.mag b.mag⟩

def mulUint (a : SignedBig) (q : BigUint) : Option SignedBig := do
  let mag ← mulFull a.mag q
  some ⟨a.neg && !mag.isZero, mag⟩

def toInt (a : SignedBig) : ℤ := if a.neg then -a.mag.toNat else a.mag.toNat

@[simp] theorem toInt_zero : zero.toInt = 0 := rfl

@[simp] theorem toInt_fromUint (m : BigUint) : (fromUint m).toInt = m.toNat := rfl

theorem sub_spec (a b : SignedBig) : ∃ c, a.sub b = some c ∧ c.toInt = a.toInt - b.toInt := by
  have hdiff : ∀ x y : BigUint, ∀ neg neg' : Bool,
      ∃ c : SignedBig, (do
        if (← x.cmp y) = .lt then some ⟨neg, ← sub y x⟩ else some ⟨neg', ← sub x y⟩) = some c ∧
        (x.toNat < y.toNat ∧ c.neg = neg ∧ (c.mag.toNat : ℤ) = y.toNat - x.toNat ∨
          y.toNat ≤ x.toNat ∧ c.neg = neg' ∧ (c.mag.toNat : ℤ) = x.toNat - y.toNat) := by
    intro x y neg neg'
    rw [Option.bind_eq_bind, bind_of_some (cmp_spec x y)]
    split_ifs with h
    · have hlt := compare_lt_iff_lt.mp h
      obtain ⟨d, hd, hvalue⟩ := Crypto.sub_spec hlt.le
      have hmag : (d.toNat : ℤ) = y.toNat - x.toNat := by omega
      exact ⟨⟨neg, d⟩, bind_of_some hd _, .inl ⟨hlt, rfl, hmag⟩⟩
    · have hle : y.toNat ≤ x.toNat := not_lt.mp fun hlt => h (compare_lt_iff_lt.mpr hlt)
      obtain ⟨d, hd, hvalue⟩ := Crypto.sub_spec hle
      have hmag : (d.toNat : ℤ) = x.toNat - y.toNat := by omega
      exact ⟨⟨neg', d⟩, bind_of_some hd _, .inr ⟨hle, rfl, hmag⟩⟩
  obtain ⟨aneg, x⟩ := a
  obtain ⟨bneg, y⟩ := b
  obtain ⟨s, hs, hsum⟩ := add_spec x y
  cases aneg <;> cases bneg
  · obtain ⟨c, hc, h⟩ := hdiff x y true false
    refine ⟨c, hc, ?_⟩
    obtain ⟨-, hneg, hmag⟩ | ⟨-, hneg, hmag⟩ := h <;> simp [toInt, hneg, hmag]
  · refine ⟨⟨false, s⟩, bind_of_some hs _, ?_⟩
    simp [toInt, hsum]
  · refine ⟨⟨true, s⟩, bind_of_some hs _, ?_⟩
    simp [toInt, hsum]
    ring
  · obtain ⟨c, hc, h⟩ := hdiff x y false true
    refine ⟨c, hc, ?_⟩
    obtain ⟨-, hneg, hmag⟩ | ⟨-, hneg, hmag⟩ := h <;> simp [toInt, hneg, hmag] <;> ring

theorem mulUint_spec (a : SignedBig) (q : BigUint) :
    ∃ c, a.mulUint q = some c ∧ c.toInt = a.toInt * q.toNat := by
  obtain ⟨c, hc, hvalue⟩ := mulFull_spec a.mag q
  refine ⟨⟨a.neg && !c.isZero, c⟩, bind_of_some hc _, ?_⟩
  by_cases hzero : c.toNat = 0
  · have hprod : (a.mag.toNat : ℤ) * q.toNat = 0 := by exact_mod_cast hvalue.symm.trans hzero
    unfold toInt
    split_ifs <;> simp [hzero, hprod]
  · have hne : c.isZero = false := Bool.eq_false_iff.mpr (mt isZero_iff.mp hzero)
    simp only [toInt, hne, Bool.not_false, Bool.and_true]
    split_ifs <;> simp [hvalue]

end SignedBig

/-- The loop of the extended Euclidean algorithm: the divisor it ends with, and its coefficient. -/
def euclid (oldR r : BigUint) (oldT t : SignedBig) : Option (BigUint × SignedBig) :=
  if _ : r.isZero then some (oldR, oldT)
  else
    match _ : divmod oldR r with
    | none => none
    | some (q, rest) => do
      let qt ← t.mulUint q
      euclid r rest t (← oldT.sub qt)
termination_by r.toNat
decreasing_by
  rename_i hzero hrun _
  obtain ⟨q', rest', hrun', -, hlt⟩ := divmod_spec oldR r (mt isZero_iff.mpr hzero)
  rw [hrun] at hrun'
  cases hrun'
  exact hlt

def invModFull (a m : BigUint) : Option (Option BigUint) :=
  if m.isZero || m.isOne then some none
  else do
    let a ← rem a m
    if a.isZero then some none
    else
      let (oldR, oldT) ← euclid m a .zero (.fromUint (fromU64 1))
      if !oldR.isOne then some none
      else
        let pos ← rem oldT.mag m
        if oldT.neg && !pos.isZero then some (some (← sub m pos)) else some (some pos)

/-- Both rows of the loop keep their coefficient, and the divisors of both stay the same. -/
theorem euclid_spec {m a : ℤ} {oldR r : BigUint} {oldT t : SignedBig}
    (hold : oldT.toInt * a ≡ oldR.toNat [ZMOD m]) (hcur : t.toInt * a ≡ r.toNat [ZMOD m]) :
    ∃ g u, euclid oldR r oldT t = some (g, u) ∧ g.toNat = oldR.toNat.gcd r.toNat ∧
      u.toInt * a ≡ g.toNat [ZMOD m] := by
  induction hn : r.toNat using Nat.strong_induction_on generalizing oldR r oldT t with
  | _ n ih =>
    rw [euclid]
    split_ifs with hzero
    · refine ⟨oldR, oldT, rfl, ?_, hold⟩
      rw [← hn, isZero_iff.mp hzero, Nat.gcd_zero_right]
    · have hr : r.toNat ≠ 0 := mt isZero_iff.mpr hzero
      obtain ⟨q, rest, hrun, heq, hlt⟩ := divmod_spec oldR r hr
      obtain ⟨qt, hqt, hqtvalue⟩ := t.mulUint_spec q
      obtain ⟨newT, hnewT, hvalue⟩ := oldT.sub_spec qt
      have hnew : newT.toInt * a ≡ rest.toNat [ZMOD m] := by
        have hsplit : (rest.toNat : ℤ) = oldR.toNat - q.toNat * r.toNat := by
          rw [heq]
          push_cast
          ring
        have hcoeff : newT.toInt * a = oldT.toInt * a - q.toNat * (t.toInt * a) := by
          rw [hvalue, hqtvalue]
          ring
        rw [hsplit, hcoeff]
        exact hold.sub (hcur.mul_left _)
      obtain ⟨g, u, hloop, hg, hu⟩ := ih rest.toNat (hn ▸ hlt) hcur hnew rfl
      refine ⟨g, u, ?_, ?_, hu⟩
      · split
        · rename_i hnone
          rw [hnone] at hrun
          cases hrun
        · rename_i q' rest' hsome
          rw [hsome] at hrun
          cases hrun
          rw [Option.bind_eq_bind, bind_of_some hqt, bind_of_some hnewT]
          exact hloop
      · rw [hg, heq, ← hn, Nat.gcd_comm, Nat.gcd_mul_right_add_left]

/-- A coefficient taken into `0 ..< m`. -/
theorem toRange_spec {m pos : BigUint} {u : SignedBig} (hm : m.toNat ≠ 0)
    (hpos : pos.toNat = u.mag.toNat % m.toNat) :
    ∃ x, (if u.neg && !pos.isZero then (sub m pos).bind fun x => some (some x)
        else some (some pos)) = some (some x) ∧
      x.toNat < m.toNat ∧ (x.toNat : ℤ) ≡ u.toInt [ZMOD m.toNat] := by
  have hlt : pos.toNat < m.toNat := hpos ▸ Nat.mod_lt _ (Nat.pos_of_ne_zero hm)
  have hmod : (pos.toNat : ℤ) ≡ u.mag.toNat [ZMOD m.toNat] := by
    rw [hpos, Int.natCast_modEq_iff]
    exact Nat.mod_modEq _ _
  cases hneg : u.neg with
  | false =>
    refine ⟨pos, rfl, hlt, ?_⟩
    simpa [SignedBig.toInt, hneg] using hmod
  | true =>
    have hint : u.toInt = -u.mag.toNat := by simp [SignedBig.toInt, hneg]
    rw [hint]
    by_cases hzero : pos.isZero = true
    · refine ⟨pos, by rw [hzero]; rfl, hlt, ?_⟩
      rw [isZero_iff.mp hzero] at hmod ⊢
      simpa using hmod.neg
    · obtain ⟨x, hx, hvalue⟩ := sub_spec hlt.le
      have hne : pos.toNat ≠ 0 := mt isZero_iff.mpr hzero
      refine ⟨x, ?_, by omega, ?_⟩
      · rw [Bool.eq_false_iff.mpr hzero]
        exact bind_of_some hx _
      · have hsub : (x.toNat : ℤ) = m.toNat - pos.toNat := by omega
        have hself : (m.toNat : ℤ) ≡ 0 [ZMOD m.toNat] := by simp [Int.ModEq]
        rw [hsub, ← zero_sub]
        exact hself.sub hmod

theorem invModFull_spec (a : BigUint) {m : BigUint} (hm : 1 < m.toNat) :
    (Nat.Coprime a.toNat m.toNat → ∃ x, invModFull a m = some (some x) ∧ 0 < x.toNat ∧
      x.toNat < m.toNat ∧ a.toNat * x.toNat % m.toNat = 1) ∧
    (¬ Nat.Coprime a.toNat m.toNat → invModFull a m = some none) := by
  have hm₀ : m.toNat ≠ 0 := by omega
  have hguard : (m.isZero || m.isOne) = false := by
    rw [Bool.or_eq_false_iff]
    exact ⟨Bool.eq_false_iff.mpr (mt isZero_iff.mp hm₀),
      Bool.eq_false_iff.mpr (mt m.isOne_iff.mp hm.ne')⟩
  obtain ⟨a₀, ha₀, hvalue⟩ := @rem_spec a m hm₀
  have hgcd : m.toNat.gcd a₀.toNat = a.toNat.gcd m.toNat := by
    rw [hvalue, Nat.gcd_comm, ← Nat.gcd_rec, Nat.gcd_comm]
  obtain ⟨g, u, hloop, hg, hu⟩ := @euclid_spec m.toNat a₀.toNat m a₀ .zero (.fromUint (fromU64 1))
    (by simp [Int.ModEq]) (by simp [Int.ModEq])
  obtain ⟨pos, hpos, hposvalue⟩ := @rem_spec u.mag m hm₀
  obtain ⟨x, hx, hlt, hmod⟩ := toRange_spec hm₀ hposvalue
  have hrun : invModFull a m =
      if a₀.isZero then some none else if !g.isOne then some none else some (some x) := by
    rw [invModFull, hguard, if_neg Bool.false_ne_true, Option.bind_eq_bind, bind_of_some ha₀]
    split_ifs with hzero hone
    · rfl
    · exact (bind_of_some hloop _).trans (if_pos hone)
    · exact (bind_of_some hloop _).trans ((if_neg hone).trans ((bind_of_some hpos _).trans hx))
  rw [hrun]
  constructor
  · intro hcop
    have hone : g.toNat = 1 := hg.trans (hgcd.trans hcop)
    have hzero : ¬ a₀.isZero = true := by
      intro h
      rw [isZero_iff.mp h, Nat.gcd_zero_right] at hgcd
      exact hm.ne' (hgcd.trans hcop)
    rw [if_neg hzero, g.isOne_iff.mpr hone, Bool.not_true, if_neg Bool.false_ne_true]
    have hinv : a.toNat * x.toNat ≡ 1 [MOD m.toNat] := by
      have ha : (a.toNat : ℤ) ≡ a₀.toNat [ZMOD m.toNat] := by
        rw [hvalue, Int.natCast_modEq_iff]
        exact (Nat.mod_modEq _ _).symm
      have h := (ha.mul hmod).trans (Int.ModEq.trans (by rw [mul_comm]) hu)
      rw [hone] at h
      exact (Int.natCast_modEq_iff).mp (by exact_mod_cast h)
    have hmul : a.toNat * x.toNat % m.toNat = 1 := Eq.trans hinv (Nat.mod_eq_of_lt hm)
    refine ⟨x, rfl, Nat.pos_of_ne_zero fun h₀ => ?_, hlt, hmul⟩
    rw [h₀, Nat.mul_zero, Nat.zero_mod] at hmul
    exact absurd hmul zero_ne_one
  · intro hcop
    have hone : ¬ g.isOne = true := fun h =>
      hcop (hgcd.symm.trans (hg.symm.trans (g.isOne_iff.mp h)))
    rw [Bool.eq_false_iff.mpr hone, Bool.not_false, if_pos rfl, ite_self]

/-- Modulo a number above one, powers, sums and differences of residues and inverses are the
exact ones, and every loop ends without a panic. -/
theorem modular_arithmetic (m : BigUint) (hm : 1 < m.toNat) :
    (∀ base exp, ∃ x, powMod base exp m = some x ∧
      x.toNat = base.toNat ^ exp.toNat % m.toNat) ∧
    (∀ a b : BigUint, a.toNat < m.toNat → b.toNat < m.toNat →
      (∃ x, addMod a b m = some x ∧ x.toNat = (a.toNat + b.toNat) % m.toNat) ∧
      ∃ x, subMod a b m = some x ∧ (x.toNat : ℤ) = ((a.toNat : ℤ) - b.toNat) % m.toNat) ∧
    ∀ a, (Nat.Coprime a.toNat m.toNat → ∃ x, invModFull a m = some (some x) ∧ 0 < x.toNat ∧
        x.toNat < m.toNat ∧ a.toNat * x.toNat % m.toNat = 1) ∧
      (¬ Nat.Coprime a.toNat m.toNat → invModFull a m = some none) :=
  ⟨fun _ _ => powMod_spec hm, fun _ _ ha hb => ⟨addMod_spec ha hb, subMod_spec ha hb⟩,
    fun a => invModFull_spec a hm⟩

/-- The inverse of three modulo ten, and five that has none. -/
theorem modular_arithmetic_ten :
    1 < (fromU64 10).toNat ∧
      (∃ x, invModFull (fromU64 3) (fromU64 10) = some (some x) ∧ 0 < x.toNat ∧
        x.toNat < (fromU64 10).toNat ∧ (fromU64 3).toNat * x.toNat % (fromU64 10).toNat = 1) ∧
      invModFull (fromU64 5) (fromU64 10) = some none :=
  have hm : 1 < (fromU64 10).toNat := by simp
  have h := (modular_arithmetic (fromU64 10) hm).2.2
  ⟨hm, (h (fromU64 3)).1 (by rw [toNat_fromU64, toNat_fromU64]; decide),
    (h (fromU64 5)).2 (by rw [toNat_fromU64, toNat_fromU64]; decide)⟩

end Conclave.Crypto
