import Conclave.Crypto.Octets
import Conclave.Crypto.Poly1305

/-! Poly1305 is its definition: the tag is the value of a polynomial at the clamped key, and no
step overflows. -/

namespace Conclave.Crypto

open Conclave.Lib

variable {h q r : Limbs} {block : Bytes} {s : Fin 4 → ℕ}

/-! ### The definition -/

/-- The prime of the field. -/
def polyPrime : ℕ := 2 ^ 130 - 5

/-- The number of a block: its bytes, and a one behind them. -/
def coefficient (b : Bytes) : ℕ := leNat b + 2 ^ (8 * b.length)

/-- The blocks of a message, of which the last one may be shorter. -/
def polyBlocks (msg : Bytes) : List Bytes :=
  fullBlocks 16 msg ++ if blockRest 16 msg = [] then [] else [blockRest 16 msg]

/-- The coefficients times the powers, of which the last is the first one. -/
def polySum (r : ℕ) (cs : List ℕ) : ℕ :=
  ∑ i ∈ Finset.range cs.length, cs.getD i 0 * r ^ (cs.length - i)

/-- The first half of the key without the bits that are cleared. -/
def clamped (key : PolyKey) : ℕ := leNat (key.toList.take 16) &&& 0x0ffffffc0ffffffc0ffffffc0fffffff

def secret (key : PolyKey) : ℕ := leNat (key.toList.drop 16)

/-! ### Bits and numbers -/

theorem checked_of_lt {bits n : ℕ} (h : n < 2 ^ bits) : checked bits n = some n := if_pos h

theorem and_mask44 (n : ℕ) : n &&& mask44 = n % 2 ^ 44 := Nat.and_two_pow_sub_one_eq_mod n 44

theorem and_mask42 (n : ℕ) : n &&& mask42 = n % 2 ^ 42 := Nat.and_two_pow_sub_one_eq_mod n 42

theorem shl64_eq {a k : ℕ} (h : a * 2 ^ k < 2 ^ 64) : shl64 a k = a * 2 ^ k := by
  rw [shl64, Nat.shiftLeft_eq, Nat.mod_eq_of_lt h]

/-- Parts that do not overlap. -/
theorem or_mul_pow {a b k : ℕ} (h : a < 2 ^ k) : a ||| b * 2 ^ k = a + b * 2 ^ k := by
  rw [Nat.lor_comm, ← Nat.shiftLeft_eq, ← Nat.shiftLeft_add_eq_or_of_lt h, Nat.add_comm]

theorem leNat_append (a b : Bytes) : leNat (a ++ b) = leNat a + 2 ^ (8 * a.length) * leNat b := by
  rw [leNat, List.reverse_append, beNat_append, List.length_reverse, Nat.add_comm, Nat.mul_comm]
  rfl

theorem toLe_append (m k n : ℕ) : toLe (m + k) n = toLe m n ++ toLe k (n / 2 ^ (8 * m)) := by
  rw [toLe, Nat.add_comm, toBe_add, List.reverse_append]
  rfl

theorem leNat_cons (x : UInt8) (a : Bytes) : leNat (x :: a) = x.toNat + 2 ^ 8 * leNat a :=
  (leNat_append [x] a).trans (by simp [leNat, beNat])

theorem leNat_replicate_zero (k : ℕ) : leNat (List.replicate k 0) = 0 := by
  rw [leNat, List.reverse_replicate, beNat_replicate_zero]

theorem word_lt (block : Bytes) (i : ℕ) : word block i < 2 ^ 32 := by
  have hlt := leNat_lt ((block.drop (4 * i)).take 4)
  have hlen : ((block.drop (4 * i)).take 4).length ≤ 4 := List.length_take_le _ _
  exact hlt.trans_le (Nat.pow_le_pow_right (by omega) (by omega))

/-- A block is its four words. -/
theorem words_eq (hlen : block.length = 16) :
    word block 0 + 2 ^ 32 * word block 1 + 2 ^ 64 * word block 2 + 2 ^ 96 * word block 3 =
      leNat block := by
  have hcut : ∀ t : Bytes, 4 ≤ t.length → leNat t = leNat (t.take 4) + 2 ^ 32 * leNat (t.drop 4) := by
    intro t ht
    have happend := leNat_append (t.take 4) (t.drop 4)
    rwa [List.take_append_drop, List.length_take, Nat.min_eq_left ht] at happend
  have h0 := hcut block (by omega)
  have h1 := hcut (block.drop 4) (by rw [List.length_drop]; omega)
  have h2 := hcut (block.drop 8) (by rw [List.length_drop]; omega)
  rw [List.drop_drop] at h1 h2
  have h3 : word block 3 = leNat (block.drop 12) := by
    rw [word, List.take_of_length_le (by rw [List.length_drop]; omega)]
  rw [h3]
  unfold word
  rw [h0, h1, h2, Nat.mul_zero, List.drop_zero]
  ring

/-- Four words as three limbs. -/
theorem limbs_eq {t0 t1 t2 t3 : ℕ} (h0 : t0 < 2 ^ 32) (h1 : t1 < 2 ^ 32) (h2 : t2 < 2 ^ 32)
    (h3 : t3 < 2 ^ 32) :
    ((t0 ||| shl64 t1 32) &&& mask44) + 2 ^ 44 * (((t1 >>> 12) ||| shl64 t2 20) &&& mask44) +
        2 ^ 88 * ((t2 >>> 24) ||| shl64 t3 8) = t0 + 2 ^ 32 * t1 + 2 ^ 64 * t2 + 2 ^ 96 * t3 ∧
      ((t2 >>> 24) ||| shl64 t3 8) < 2 ^ 40 := by
  have h12 : t1 >>> 12 < 2 ^ 20 := by
    rw [Nat.shiftRight_eq_div_pow]
    omega
  have h24 : t2 >>> 24 < 2 ^ 8 := by
    rw [Nat.shiftRight_eq_div_pow]
    omega
  rw [shl64_eq (by omega), shl64_eq (by omega), shl64_eq (by omega), or_mul_pow h0, or_mul_pow h12,
    or_mul_pow h24, and_mask44, and_mask44, Nat.shiftRight_eq_div_pow, Nat.shiftRight_eq_div_pow]
  omega

/-! ### A block -/

def Limbs.value (h : Limbs) : ℕ := h.l0 + 2 ^ 44 * h.l1 + 2 ^ 88 * h.l2

/-- What the accumulator is between blocks. -/
structure Limbs.Reduced (h : Limbs) : Prop where
  l0 : h.l0 < 2 ^ 44
  l1 : h.l1 < 2 ^ 44 + 2 ^ 9
  l2 : h.l2 < 2 ^ 42

/-- Limbs of their own sizes. -/
structure Limbs.Tight (h : Limbs) : Prop where
  l0 : h.l0 < 2 ^ 44
  l1 : h.l1 < 2 ^ 44
  l2 : h.l2 < 2 ^ 42

/-- What the accumulator is with a block added. -/
structure Limbs.Loose (h : Limbs) : Prop where
  l0 : h.l0 < 2 ^ 45
  l1 : h.l1 < 2 ^ 46
  l2 : h.l2 < 2 ^ 43

theorem Limbs.Tight.reduced (hh : h.Tight) : h.Reduced :=
  ⟨hh.l0, hh.l1.trans (by norm_num), hh.l2⟩

namespace Poly1305

theorem addBlock_spec (hh : h.Reduced) (hlen : block.length = 16) {hibit : ℕ} (hbit : hibit ≤ 1) :
    ∃ q, addBlock h block hibit = some q ∧ q.Loose ∧
      q.value = h.value + (leNat block + 2 ^ 128 * hibit) := by
  obtain ⟨hsum, htop⟩ := limbs_eq (word_lt block 0) (word_lt block 1) (word_lt block 2)
    (word_lt block 3)
  rw [words_eq hlen] at hsum
  have hor : ((word block 2 >>> 24) ||| shl64 (word block 3) 8) ||| shl64 hibit 40 =
      ((word block 2 >>> 24) ||| shl64 (word block 3) 8) + hibit * 2 ^ 40 := by
    rw [@shl64_eq hibit 40 (by omega), or_mul_pow htop]
  have hlow : (word block 0 ||| shl64 (word block 1) 32) &&& mask44 < 2 ^ 44 := by
    rw [and_mask44]
    exact Nat.mod_lt _ (by norm_num)
  have hmid : ((word block 1 >>> 12) ||| shl64 (word block 2) 20) &&& mask44 < 2 ^ 44 := by
    rw [and_mask44]
    exact Nat.mod_lt _ (by norm_num)
  obtain ⟨hb0, hb1, hb2⟩ := hh
  unfold addBlock
  dsimp only
  rw [hor]
  generalize (word block 0 ||| shl64 (word block 1) 32) &&& mask44 = m0 at *
  generalize ((word block 1 >>> 12) ||| shl64 (word block 2) 20) &&& mask44 = m1 at *
  generalize (word block 2 >>> 24) ||| shl64 (word block 3) 8 = m2 at *
  refine ⟨⟨h.l0 + m0, h.l1 + m1, h.l2 + (m2 + hibit * 2 ^ 40)⟩, ?_, ⟨?_, ?_, ?_⟩, ?_⟩
  · simp only [bind, checked_of_lt (show h.l0 + m0 < 2 ^ 64 by omega),
      checked_of_lt (show h.l1 + m1 < 2 ^ 64 by omega),
      checked_of_lt (show h.l2 + (m2 + hibit * 2 ^ 40) < 2 ^ 64 by omega), Option.bind_some]
    rfl
  · show h.l0 + m0 < 2 ^ 45
    omega
  · show h.l1 + m1 < 2 ^ 46
    omega
  · show h.l2 + (m2 + hibit * 2 ^ 40) < 2 ^ 43
    omega
  · simp only [Limbs.value]
    omega

theorem products_spec (hq : q.Loose) (hr : r.Tight) :
    ∃ d0 d1 d2, products q r = some (d0, d1, d2) ∧ d0 < 2 ^ 97 ∧ d1 < 2 ^ 97 ∧ d2 < 2 ^ 92 ∧
      d0 + 2 ^ 44 * d1 + 2 ^ 88 * d2 ≡ q.value * r.value [MOD polyPrime] := by
  obtain ⟨hq0, hq1, hq2⟩ := hq
  obtain ⟨hr0, hr1, hr2⟩ := hr
  have hs1 : r.l1 * (5 <<< 2) % 2 ^ 64 = 20 * r.l1 := by
    rw [show 5 <<< 2 = 20 from rfl]
    omega
  have hs2 : r.l2 * (5 <<< 2) % 2 ^ 64 = 20 * r.l2 := by
    rw [show 5 <<< 2 = 20 from rfl]
    omega
  have h00 : q.l0 * r.l0 < 2 ^ 45 * 2 ^ 44 := Nat.mul_lt_mul'' hq0 hr0
  have h01 : q.l0 * r.l1 < 2 ^ 45 * 2 ^ 44 := Nat.mul_lt_mul'' hq0 hr1
  have h02 : q.l0 * r.l2 < 2 ^ 45 * 2 ^ 42 := Nat.mul_lt_mul'' hq0 hr2
  have h10 : q.l1 * r.l0 < 2 ^ 46 * 2 ^ 44 := Nat.mul_lt_mul'' hq1 hr0
  have h11 : q.l1 * r.l1 < 2 ^ 46 * 2 ^ 44 := Nat.mul_lt_mul'' hq1 hr1
  have h12 : q.l1 * (20 * r.l2) < 2 ^ 46 * 2 ^ 47 := Nat.mul_lt_mul'' hq1 (by omega)
  have h20 : q.l2 * r.l0 < 2 ^ 43 * 2 ^ 44 := Nat.mul_lt_mul'' hq2 hr0
  have h21 : q.l2 * (20 * r.l1) < 2 ^ 43 * 2 ^ 49 := Nat.mul_lt_mul'' hq2 (by omega)
  have h22 : q.l2 * (20 * r.l2) < 2 ^ 43 * 2 ^ 47 := Nat.mul_lt_mul'' hq2 (by omega)
  refine ⟨q.l0 * r.l0 + q.l1 * (20 * r.l2) + q.l2 * (20 * r.l1),
    q.l0 * r.l1 + q.l1 * r.l0 + q.l2 * (20 * r.l2), q.l0 * r.l2 + q.l1 * r.l1 + q.l2 * r.l0, ?_,
    by omega, by omega, by omega, ?_⟩
  · unfold products
    rw [hs1, hs2]
    simp only [bind, checked_of_lt (show q.l0 * r.l0 < 2 ^ 128 by omega),
      checked_of_lt (show q.l0 * r.l1 < 2 ^ 128 by omega),
      checked_of_lt (show q.l0 * r.l2 < 2 ^ 128 by omega),
      checked_of_lt (show q.l1 * r.l0 < 2 ^ 128 by omega),
      checked_of_lt (show q.l1 * r.l1 < 2 ^ 128 by omega),
      checked_of_lt (show q.l1 * (20 * r.l2) < 2 ^ 128 by omega),
      checked_of_lt (show q.l2 * r.l0 < 2 ^ 128 by omega),
      checked_of_lt (show q.l2 * (20 * r.l1) < 2 ^ 128 by omega),
      checked_of_lt (show q.l2 * (20 * r.l2) < 2 ^ 128 by omega),
      checked_of_lt (show q.l0 * r.l0 + q.l1 * (20 * r.l2) < 2 ^ 128 by omega),
      checked_of_lt (show q.l0 * r.l0 + q.l1 * (20 * r.l2) + q.l2 * (20 * r.l1) < 2 ^ 128 by omega),
      checked_of_lt (show q.l0 * r.l1 + q.l1 * r.l0 < 2 ^ 128 by omega),
      checked_of_lt (show q.l0 * r.l1 + q.l1 * r.l0 + q.l2 * (20 * r.l2) < 2 ^ 128 by omega),
      checked_of_lt (show q.l0 * r.l2 + q.l1 * r.l1 < 2 ^ 128 by omega),
      checked_of_lt (show q.l0 * r.l2 + q.l1 * r.l1 + q.l2 * r.l0 < 2 ^ 128 by omega),
      Option.bind_some]
    rfl
  · -- what lies past `2 ^ 130` comes back five times, and the limbs there are shifted by two
    have hwrap : q.value * r.value = q.l0 * r.l0 + q.l1 * (20 * r.l2) + q.l2 * (20 * r.l1) +
        2 ^ 44 * (q.l0 * r.l1 + q.l1 * r.l0 + q.l2 * (20 * r.l2)) +
        2 ^ 88 * (q.l0 * r.l2 + q.l1 * r.l1 + q.l2 * r.l0) +
        polyPrime * (4 * (q.l1 * r.l2 + q.l2 * r.l1 + 2 ^ 44 * (q.l2 * r.l2))) := by
      rw [Limbs.value, Limbs.value, show polyPrime = 1361129467683753853853498429727072845819 from rfl]
      ring
    rw [hwrap]
    exact (Nat.add_mul_mod_self_left _ _ _).symm

theorem carry_spec {d0 d1 d2 : ℕ} (h0 : d0 < 2 ^ 97) (h1 : d1 < 2 ^ 97) (h2 : d2 < 2 ^ 92) :
    ∃ q, carry d0 d1 d2 = some q ∧ q.Reduced ∧
      q.value ≡ d0 + 2 ^ 44 * d1 + 2 ^ 88 * d2 [MOD polyPrime] := by
  have hlow : ∀ d k : ℕ, k ≤ 64 → d % 2 ^ 64 % 2 ^ k = d % 2 ^ k := fun d k hk =>
    Nat.mod_mod_of_dvd d (Nat.pow_dvd_pow 2 hk)
  unfold carry
  simp only [Nat.shiftRight_eq_div_pow, and_mask44, and_mask42, hlow _ 44 (by omega),
    hlow _ 42 (by omega)]
  generalize hd1 : d1 + d0 / 2 ^ 44 = e1
  generalize hd2 : d2 + e1 / 2 ^ 44 = e2
  generalize hc : e2 / 2 ^ 42 = c
  have hclt : c < 2 ^ 52 := by omega
  have hcmod : c % 2 ^ 64 = c := Nat.mod_eq_of_lt (hclt.trans (by norm_num))
  refine ⟨⟨(d0 % 2 ^ 44 + c * 5) % 2 ^ 44, e1 % 2 ^ 44 + (d0 % 2 ^ 44 + c * 5) / 2 ^ 44,
    e2 % 2 ^ 42⟩, ?_, ⟨?_, ?_, ?_⟩, ?_⟩
  · simp only [bind, checked_of_lt (show e1 < 2 ^ 128 by omega), hd2, hc, hcmod,
      checked_of_lt (show e2 < 2 ^ 128 by omega), checked_of_lt (show c * 5 < 2 ^ 64 by omega),
      checked_of_lt (show d0 % 2 ^ 44 + c * 5 < 2 ^ 64 by omega),
      checked_of_lt (show e1 % 2 ^ 44 + (d0 % 2 ^ 44 + c * 5) / 2 ^ 44 < 2 ^ 64 by omega),
      Option.bind_some]
    rfl
  · exact Nat.mod_lt _ (by norm_num)
  · show e1 % 2 ^ 44 + (d0 % 2 ^ 44 + c * 5) / 2 ^ 44 < 2 ^ 44 + 2 ^ 9
    omega
  · exact Nat.mod_lt _ (by norm_num)
  · have hvalue : d0 + 2 ^ 44 * d1 + 2 ^ 88 * d2 =
        Limbs.value ⟨(d0 % 2 ^ 44 + c * 5) % 2 ^ 44, e1 % 2 ^ 44 + (d0 % 2 ^ 44 + c * 5) / 2 ^ 44,
          e2 % 2 ^ 42⟩ + polyPrime * c := by
      rw [Limbs.value, show polyPrime = 1361129467683753853853498429727072845819 from rfl]
      dsimp only
      omega
    rw [hvalue]
    exact (Nat.add_mul_mod_self_left _ _ _).symm

/-- A block is added, and the sum is multiplied by the key. -/
theorem processBlock_spec {p : Poly1305} (hh : p.h.Reduced) (hr : p.r.Tight)
    (hlen : block.length = 16) {hibit : ℕ} (hbit : hibit ≤ 1) :
    ∃ q, p.processBlock block hibit = some { p with h := q } ∧ q.Reduced ∧
      q.value ≡ (p.h.value + (leNat block + 2 ^ 128 * hibit)) * p.r.value [MOD polyPrime] := by
  obtain ⟨a, hadd, hloose, hvalue⟩ := addBlock_spec hh hlen hbit
  obtain ⟨d0, d1, d2, hmul, h0, h1, h2, hprod⟩ := products_spec hloose hr
  obtain ⟨q, hcarry, hreduced, hq⟩ := carry_spec h0 h1 h2
  refine ⟨q, ?_, hreduced, ?_⟩
  · simp only [processBlock, bind, hadd, Option.bind_some, hmul, hcarry]
    rfl
  · rw [← hvalue]
    exact hq.trans hprod

/-! ### The end -/

/-- One pass makes the limbs tight, and they stay so. -/
theorem propagate_spec (hh : h.Reduced) :
    ∃ q, propagate h = some q ∧ q.Tight ∧ q.value ≡ h.value [MOD polyPrime] := by
  obtain ⟨h0, h1, h2⟩ := hh
  unfold propagate
  simp only [Nat.shiftRight_eq_div_pow, and_mask44, and_mask42]
  generalize hd2 : h.l2 + h.l1 / 2 ^ 44 = e2
  generalize hd0 : h.l0 + e2 / 2 ^ 42 * 5 = e0
  refine ⟨⟨e0 % 2 ^ 44, h.l1 % 2 ^ 44 + e0 / 2 ^ 44, e2 % 2 ^ 42⟩, ?_, ⟨?_, ?_, ?_⟩, ?_⟩
  · simp only [bind, checked_of_lt (show e2 < 2 ^ 64 by omega),
      checked_of_lt (show e2 / 2 ^ 42 * 5 < 2 ^ 64 by omega),
      checked_of_lt (show e0 < 2 ^ 64 by omega),
      checked_of_lt (show h.l1 % 2 ^ 44 + e0 / 2 ^ 44 < 2 ^ 64 by omega), hd0, Option.bind_some]
    rfl
  · exact Nat.mod_lt _ (by norm_num)
  · -- the third limb carries only when the second one did, and then that is small
    show h.l1 % 2 ^ 44 + e0 / 2 ^ 44 < 2 ^ 44
    omega
  · exact Nat.mod_lt _ (by norm_num)
  · have hvalue : h.value = Limbs.value ⟨e0 % 2 ^ 44, h.l1 % 2 ^ 44 + e0 / 2 ^ 44, e2 % 2 ^ 42⟩ +
        polyPrime * (e2 / 2 ^ 42) := by
      rw [Limbs.value, Limbs.value,
        show polyPrime = 1361129467683753853853498429727072845819 from rfl]
      dsimp only
      omega
    rw [hvalue]
    exact (Nat.add_mul_mod_self_left _ _ _).symm

theorem and_ones {n : ℕ} (h : n < 2 ^ 64) : n &&& (2 ^ 64 - 1) = n := by
  rw [Nat.and_two_pow_sub_one_eq_mod, Nat.mod_eq_of_lt h]

/-- What is selected is the residue. -/
theorem select_spec (hh : h.Tight) :
    ∃ q, select h = some q ∧ q.Tight ∧ q.value = h.value % polyPrime := by
  obtain ⟨h0, h1, h2⟩ := hh
  unfold select
  simp only [Nat.shiftRight_eq_div_pow, and_mask44]
  generalize hg0 : h.l0 + 5 = e0
  generalize hg1 : h.l1 + e0 / 2 ^ 44 = e1
  generalize hg2 : h.l2 + e1 / 2 ^ 44 = e2
  have hvalue : h.value + 5 = e0 % 2 ^ 44 + 2 ^ 44 * (e1 % 2 ^ 44) + 2 ^ 88 * e2 := by
    rw [Limbs.value]
    omega
  have hprime : polyPrime = 1361129467683753853853498429727072845819 := rfl
  by_cases hlt : e2 < 2 ^ 42
  · -- below the prime: the top bit of the difference is set
    have hg : (e2 + 2 ^ 64 - 2 ^ 42) % 2 ^ 64 / 2 ^ 63 = 1 := by omega
    refine ⟨h, ?_, ⟨h0, h1, h2⟩, ?_⟩
    · simp only [bind, checked_of_lt (show e0 < 2 ^ 64 by omega), hg1,
        checked_of_lt (show e1 < 2 ^ 64 by omega), hg2, checked_of_lt (show e2 < 2 ^ 64 by omega),
        Option.bind_some, hg, show (1 + 2 ^ 64 - 1) % 2 ^ 64 = 0 from rfl, Nat.sub_zero,
        and_ones (show h.l0 < 2 ^ 64 by omega), and_ones (show h.l1 < 2 ^ 64 by omega),
        and_ones (show h.l2 < 2 ^ 64 by omega), Nat.and_zero, Nat.or_zero]
      rfl
    · rw [Nat.mod_eq_of_lt]
      omega
  · have he2 : e2 = 2 ^ 42 := by omega
    subst he2
    refine ⟨⟨e0 % 2 ^ 44, e1 % 2 ^ 44, 0⟩, ?_, ⟨?_, ?_, ?_⟩, ?_⟩
    · simp only [bind, checked_of_lt (show e0 < 2 ^ 64 by omega), hg1,
        checked_of_lt (show e1 < 2 ^ 64 by omega), hg2,
        checked_of_lt (show (2 ^ 42 : ℕ) < 2 ^ 64 by norm_num), Option.bind_some,
        show (2 ^ 42 + 2 ^ 64 - 2 ^ 42) % 2 ^ 64 = 0 from rfl, Nat.zero_div,
        show (0 + 2 ^ 64 - 1) % 2 ^ 64 = 2 ^ 64 - 1 from rfl, Nat.sub_self, Nat.and_zero,
        and_ones (show e0 % 2 ^ 44 < 2 ^ 64 by omega), and_ones (show e1 % 2 ^ 44 < 2 ^ 64 by omega),
        Nat.zero_or, Nat.zero_and]
      rfl
    · exact Nat.mod_lt _ (by norm_num)
    · exact Nat.mod_lt _ (by norm_num)
    · norm_num
    · have hlow : Limbs.value ⟨e0 % 2 ^ 44, e1 % 2 ^ 44, 0⟩ + polyPrime = h.value := by
        rw [Limbs.value]
        dsimp only
        omega
      have hsmall : Limbs.value ⟨e0 % 2 ^ 44, e1 % 2 ^ 44, 0⟩ < polyPrime := by
        rw [Limbs.value]
        dsimp only
        omega
      rw [← hlow, Nat.add_mod_right]
      exact (Nat.mod_eq_of_lt hsmall).symm

/-- Sixteen bytes are four words. -/
theorem toLe_words (n : ℕ) : toLe 16 n = toLe 4 (n % 2 ^ 32) ++ toLe 4 (n / 2 ^ 32 % 2 ^ 32) ++
    toLe 4 (n / 2 ^ 64 % 2 ^ 32) ++ toLe 4 (n / 2 ^ 96 % 2 ^ 32) := by
  have hlow : ∀ n, toLe 4 (n % 2 ^ 32) = toLe 4 n := by
    intro n
    have h := toBe_add_mul 4 (n % 2 ^ 32) (n / 2 ^ 32)
    rw [show 8 * 4 = 32 from rfl, Nat.mod_add_div] at h
    rw [toLe, toLe, h]
  rw [hlow, hlow, hlow, hlow, show 16 = 4 + (4 + (4 + 4)) from rfl, toLe_append, toLe_append,
    toLe_append, Nat.div_div_eq_div_mul, Nat.div_div_eq_div_mul, List.append_assoc,
    List.append_assoc]
  rfl

theorem limbs_words {l0 l1 l2 : ℕ} (h0 : l0 < 2 ^ 44) (h1 : l1 < 2 ^ 44) :
    (l0 + 2 ^ 44 * l1 + 2 ^ 88 * l2) % 2 ^ 128 =
      l0 % 2 ^ 32 + 2 ^ 32 * ((l0 / 2 ^ 32 + l1 * 2 ^ 12) % 2 ^ 32) +
        2 ^ 64 * ((l1 / 2 ^ 20 + l2 % 2 ^ 40 * 2 ^ 24) % 2 ^ 32) + 2 ^ 96 * (l2 / 2 ^ 8 % 2 ^ 32) := by
  omega

/-- The words of a sum, with the carries from word to word. -/
theorem sum_words {w0 w1 w2 w3 s0 s1 s2 s3 r0 r1 r2 r3 : ℕ} (h0 : w0 + s0 = r0)
    (h1 : w1 + s1 + r0 / 2 ^ 32 = r1) (h2 : w2 + s2 + r1 / 2 ^ 32 = r2)
    (h3 : w3 + s3 + r2 / 2 ^ 32 = r3) :
    (w0 + 2 ^ 32 * w1 + 2 ^ 64 * w2 + 2 ^ 96 * w3 +
        (s0 + 2 ^ 32 * s1 + 2 ^ 64 * s2 + 2 ^ 96 * s3)) % 2 ^ 128 =
      r0 % 2 ^ 32 + 2 ^ 32 * (r1 % 2 ^ 32) + 2 ^ 64 * (r2 % 2 ^ 32) + 2 ^ 96 * (r3 % 2 ^ 32) := by
  omega

theorem sum_lt {w s r : ℕ} (hw : w < 2 ^ 32) (hs : s < 2 ^ 32) (hr : r < 2 ^ 34) :
    w + s < 2 ^ 33 ∧ w + s + r / 2 ^ 32 < 2 ^ 34 := by
  omega

/-- Four words after another, as bytes. -/
theorem toLe_four {a b c d : ℕ} (ha : a < 2 ^ 32) (hb : b < 2 ^ 32) (hc : c < 2 ^ 32)
    (hd : d < 2 ^ 32) : toLe 16 (a + 2 ^ 32 * b + 2 ^ 64 * c + 2 ^ 96 * d) =
      toLe 4 a ++ toLe 4 b ++ toLe 4 c ++ toLe 4 d := by
  have h0 : (a + 2 ^ 32 * b + 2 ^ 64 * c + 2 ^ 96 * d) % 2 ^ 32 = a := by omega
  have h1 : (a + 2 ^ 32 * b + 2 ^ 64 * c + 2 ^ 96 * d) / 2 ^ 32 % 2 ^ 32 = b := by omega
  have h2 : (a + 2 ^ 32 * b + 2 ^ 64 * c + 2 ^ 96 * d) / 2 ^ 64 % 2 ^ 32 = c := by omega
  have h3 : (a + 2 ^ 32 * b + 2 ^ 64 * c + 2 ^ 96 * d) / 2 ^ 96 % 2 ^ 32 = d := by omega
  rw [toLe_words, h0, h1, h2, h3]

/-- The words of the limbs, and the sum with the other half of the key. -/
theorem repack_spec (hh : h.Tight) (hs : ∀ i, s i < 2 ^ 32) :
    repack h s = some (toLe 16 ((h.value + (s 0 + 2 ^ 32 * s 1 + 2 ^ 64 * s 2 + 2 ^ 96 * s 3)) %
      2 ^ 128)) := by
  obtain ⟨h0, h1, h2⟩ := hh
  have hw1 : h.l0 >>> 32 ||| shl64 h.l1 12 = h.l0 / 2 ^ 32 + h.l1 * 2 ^ 12 := by
    rw [shl64_eq (by omega), or_mul_pow (by rw [Nat.shiftRight_eq_div_pow]; omega),
      Nat.shiftRight_eq_div_pow]
  have hw2 : h.l1 >>> 20 ||| shl64 h.l2 24 = h.l1 / 2 ^ 20 + h.l2 % 2 ^ 40 * 2 ^ 24 := by
    have hshl : shl64 h.l2 24 = h.l2 % 2 ^ 40 * 2 ^ 24 := by
      rw [shl64, Nat.shiftLeft_eq]
      omega
    rw [hshl, or_mul_pow (by rw [Nat.shiftRight_eq_div_pow]; omega), Nat.shiftRight_eq_div_pow]
  have hlt : ∀ n : ℕ, n % 2 ^ 32 < 2 ^ 32 := fun n => Nat.mod_lt n (by norm_num)
  rw [← Nat.mod_add_mod, Limbs.value, limbs_words h0 h1]
  unfold repack
  dsimp only
  rw [hw1, hw2, Nat.shiftRight_eq_div_pow]
  clear hw1 hw2
  have hb0 := hlt h.l0
  have hb1 := hlt (h.l0 / 2 ^ 32 + h.l1 * 2 ^ 12)
  have hb2 := hlt (h.l1 / 2 ^ 20 + h.l2 % 2 ^ 40 * 2 ^ 24)
  have hb3 := hlt (h.l2 / 2 ^ 8)
  generalize h.l0 % 2 ^ 32 = w0 at *
  generalize (h.l0 / 2 ^ 32 + h.l1 * 2 ^ 12) % 2 ^ 32 = w1 at *
  generalize (h.l1 / 2 ^ 20 + h.l2 % 2 ^ 40 * 2 ^ 24) % 2 ^ 32 = w2 at *
  generalize h.l2 / 2 ^ 8 % 2 ^ 32 = w3 at *
  clear h0 h1 h2
  have hs0 := hs 0
  have hs1 := hs 1
  have hs2 := hs 2
  have hs3 := hs 3
  simp only [Nat.shiftRight_eq_div_pow]
  generalize hr0 : w0 + s 0 = r0
  generalize hr1 : w1 + s 1 + r0 / 2 ^ 32 = r1
  generalize hr2 : w2 + s 2 + r1 / 2 ^ 32 = r2
  generalize hr3 : w3 + s 3 + r2 / 2 ^ 32 = r3
  have h0 : r0 < 2 ^ 34 := hr0 ▸ (sum_lt hb0 hs0 (Nat.two_pow_pos _)).1.trans (by norm_num)
  have h1 : r1 < 2 ^ 34 := hr1 ▸ (sum_lt hb1 hs1 h0).2
  have h2 : r2 < 2 ^ 34 := hr2 ▸ (sum_lt hb2 hs2 h1).2
  have h3 : r3 < 2 ^ 34 := hr3 ▸ (sum_lt hb3 hs3 h2).2
  have hfit : ∀ n : ℕ, n < 2 ^ 34 → checked 64 n = some n := fun n hn =>
    checked_of_lt (hn.trans (by norm_num))
  have hfit1 : checked 64 (w1 + s 1) = some (w1 + s 1) :=
    hfit _ ((sum_lt hb1 hs1 h0).1.trans (by norm_num))
  have hfit2 : checked 64 (w2 + s 2) = some (w2 + s 2) :=
    hfit _ ((sum_lt hb2 hs2 h1).1.trans (by norm_num))
  have hfit3 : checked 64 (w3 + s 3) = some (w3 + s 3) :=
    hfit _ ((sum_lt hb3 hs3 h2).1.trans (by norm_num))
  rw [sum_words hr0 hr1 hr2 hr3, toLe_four (hlt r0) (hlt r1) (hlt r2) (hlt r3)]
  refine Option.bind_eq_some_iff.mpr ⟨r0, hfit r0 h0, ?_⟩
  refine Option.bind_eq_some_iff.mpr ⟨_, hfit1, ?_⟩
  refine Option.bind_eq_some_iff.mpr ⟨r1, hr1 ▸ hfit _ (hr1 ▸ h1), ?_⟩
  refine Option.bind_eq_some_iff.mpr ⟨_, hfit2, ?_⟩
  refine Option.bind_eq_some_iff.mpr ⟨r2, hr2 ▸ hfit _ (hr2 ▸ h2), ?_⟩
  refine Option.bind_eq_some_iff.mpr ⟨_, hfit3, ?_⟩
  refine Option.bind_eq_some_iff.mpr ⟨r3, hr3 ▸ hfit _ (hr3 ▸ h3), ?_⟩
  rfl

theorem lastBlock_length {buffer : Bytes} (hlen : buffer.length < 16) :
    (lastBlock buffer).length = 16 := by
  rw [lastBlock, List.length_take, List.length_append, List.length_cons, List.length_replicate]
  omega

/-- The last block has the number of what is buffered. -/
theorem leNat_lastBlock {buffer : Bytes} (hlen : buffer.length < 16) :
    leNat (lastBlock buffer) = coefficient buffer := by
  have htake : lastBlock buffer = buffer ++ 1 :: List.replicate (15 - buffer.length) 0 := by
    rw [lastBlock, List.take_append, List.take_of_length_le hlen.le]
    have hrest : 16 - buffer.length = (15 - buffer.length) + 1 := by omega
    rw [hrest, List.take_succ_cons, List.take_replicate]
    congr 3
    omega
  rw [htake, leNat_append, leNat_cons, leNat_replicate_zero, coefficient, UInt8.toNat_one,
    Nat.mul_zero, Nat.mul_one]

/-! ### The tag -/

/-- The accumulator over blocks, by the rule of Horner. -/
def horner (r : ℕ) (acc : ℕ) (cs : List ℕ) : ℕ := cs.foldl (fun acc c => (acc + c) * r) acc

theorem horner_eq (r acc : ℕ) (cs : List ℕ) :
    horner r acc cs = acc * r ^ cs.length + polySum r cs := by
  induction cs generalizing acc with
  | nil => simp [horner, polySum]
  | cons c cs ih =>
    have hsum : polySum r (c :: cs) = c * r ^ (cs.length + 1) + polySum r cs := by
      rw [polySum, polySum, List.length_cons, Finset.sum_range_succ']
      simp only [List.getD_cons_succ, List.getD_cons_zero, Nat.add_sub_add_right, Nat.sub_zero]
      ring
    rw [horner, List.foldl_cons, ← horner, ih, hsum, List.length_cons]
    ring

theorem horner_append (r acc : ℕ) (cs cs' : List ℕ) :
    horner r acc (cs ++ cs') = horner r (horner r acc cs) cs' := List.foldl_append

/-- Blocks are processed without overflow, and the accumulator is that of the rule. -/
theorem foldlM_processBlock {p : Poly1305} (hh : p.h.Reduced) (hr : p.r.Tight) {blocks : List Bytes}
    (hblocks : ∀ b ∈ blocks, b.length = 16) :
    ∃ q, blocks.foldlM (fun p block => processBlock p block 1) p = some { p with h := q } ∧
      q.Reduced ∧
      q.value ≡ horner p.r.value p.h.value (blocks.map coefficient) [MOD polyPrime] := by
  induction blocks generalizing p with
  | nil => exact ⟨p.h, rfl, hh, Nat.ModEq.refl _⟩
  | cons b blocks ih =>
    have hlen := hblocks b List.mem_cons_self
    obtain ⟨q, hstep, hq, hvalue⟩ := processBlock_spec hh hr hlen le_rfl
    obtain ⟨q', hrun, hq', hvalue'⟩ :=
      @ih { p with h := q } hq hr fun b hb => hblocks b (List.mem_cons_of_mem _ hb)
    refine ⟨q', ?_, hq', hvalue'.trans ?_⟩
    · rw [List.foldlM_cons, hstep]
      exact hrun
    · rw [List.map_cons, horner_eq, horner, List.foldl_cons, ← horner, horner_eq]
      refine Nat.ModEq.add_right _ (Nat.ModEq.mul_right _ (hvalue.trans ?_))
      rw [coefficient, hlen, Nat.mul_one]

/-- What is left after the whole message, padded and added. -/
theorem finalize_spec {p : Poly1305} (hh : p.h.Reduced) (hr : p.r.Tight) (hs : ∀ i, p.s i < 2 ^ 32)
    {buffer : Bytes} (hlen : buffer.length < 16) :
    finalize ⟨p, buffer⟩ = some (toLe 16 ((horner p.r.value p.h.value
      ((if buffer = [] then [] else [buffer]).map coefficient) % polyPrime +
        (p.s 0 + 2 ^ 32 * p.s 1 + 2 ^ 64 * p.s 2 + 2 ^ 96 * p.s 3)) % 2 ^ 128)) := by
  have hend : ∀ q : Limbs, q.Reduced → ((propagate q).bind fun h => (propagate h).bind fun h =>
      (select h).bind fun h => repack h p.s) = some (toLe 16 ((q.value % polyPrime +
        (p.s 0 + 2 ^ 32 * p.s 1 + 2 ^ 64 * p.s 2 + 2 ^ 96 * p.s 3)) % 2 ^ 128)) := by
    intro q hq
    obtain ⟨q₁, h₁, ht₁, hv₁⟩ := propagate_spec hq
    obtain ⟨q₂, h₂, ht₂, hv₂⟩ := propagate_spec ht₁.reduced
    obtain ⟨q₃, h₃, ht₃, hv₃⟩ := select_spec ht₂
    have hvalue : q₃.value = q.value % polyPrime := hv₃.trans (hv₂.trans hv₁)
    rw [h₁, Option.bind_some, h₂, Option.bind_some, h₃, Option.bind_some, repack_spec ht₃ hs, hvalue]
  unfold finalize
  by_cases hempty : buffer = []
  · subst hempty
    exact hend p.h hh
  · obtain ⟨q, hstep, hq, hvalue⟩ := processBlock_spec hh hr (lastBlock_length hlen) zero_le_one
    rw [Nat.mul_zero, Nat.add_zero, leNat_lastBlock hlen] at hvalue
    dsimp only
    rw [if_neg hempty, if_neg hempty, hstep, List.map_singleton, horner, List.foldl_cons,
      List.foldl_nil, ← hvalue]
    exact hend q hq

theorem and_split {x y a b : ℕ} (hx : x < 2 ^ 8) (hy : y < 2 ^ 8) :
    (x + 2 ^ 8 * a) &&& (y + 2 ^ 8 * b) = (x &&& y) + 2 ^ 8 * (a &&& b) := by
  have hmod := Nat.and_mod_two_pow (a := x + 2 ^ 8 * a) (b := y + 2 ^ 8 * b) (n := 8)
  have hdiv := Nat.and_div_two_pow (a := x + 2 ^ 8 * a) (b := y + 2 ^ 8 * b) (n := 8)
  rw [Nat.add_mul_mod_self_left, Nat.add_mul_mod_self_left, Nat.mod_eq_of_lt hx,
    Nat.mod_eq_of_lt hy] at hmod
  rw [Nat.add_mul_div_left _ _ (by norm_num), Nat.add_mul_div_left _ _ (by norm_num),
    Nat.div_eq_of_lt hx, Nat.div_eq_of_lt hy, Nat.zero_add, Nat.zero_add] at hdiv
  rw [← hmod, ← hdiv, Nat.mod_add_div]

theorem leNat_zipWith_and {a m : Bytes} (hlen : a.length = m.length) :
    leNat (List.zipWith (· &&& ·) a m) = leNat a &&& leNat m := by
  induction a generalizing m with
  | nil =>
    obtain rfl := List.eq_nil_of_length_eq_zero hlen.symm
    rfl
  | cons x a ih =>
    obtain ⟨y, m, rfl⟩ := List.exists_cons_of_length_pos
      (show 0 < m.length by rw [← hlen]; exact Nat.succ_pos _)
    have hx := x.toNat_lt
    have hy := y.toNat_lt
    rw [List.zipWith_cons_cons, leNat_cons, leNat_cons, leNat_cons, ih (Nat.succ.inj hlen),
      UInt8.toNat_and]
    exact (and_split hx hy).symm

/-- The bits that clamping keeps, byte by byte. -/
def clampMask : Bytes := [255, 255, 255, 15, 252, 255, 255, 15, 252, 255, 255, 15, 252, 255, 255, 15]

theorem clampBytes_eq {key : Bytes} (hlen : 16 ≤ key.length) :
    clampBytes key = List.zipWith (· &&& ·) (key.take 16) clampMask := by
  have hall : ∀ x : UInt8, x &&& 255 = x := fun x => UInt8.and_neg_one
  have htake : (key.take 16).length = 16 := by
    rw [List.length_take]
    omega
  unfold clampBytes
  generalize key.take 16 = t at *
  match t, htake with
  | [a0, a1, a2, a3, a4, a5, a6, a7, a8, a9, a10, a11, a12, a13, a14, a15], _ =>
    simp [clampMask, hall]

theorem new_spec (key : PolyKey) : (new key).state.r.Tight ∧
    (new key).state.r.value = clamped key ∧ (∀ i, (new key).state.s i < 2 ^ 32) ∧
    (new key).state.s 0 + 2 ^ 32 * (new key).state.s 1 + 2 ^ 64 * (new key).state.s 2 +
      2 ^ 96 * (new key).state.s 3 = secret key := by
  have hkey : key.toList.length = 32 := by simp
  have hlen : (clampBytes key.toList).length = 16 := by
    rw [clampBytes_eq (by omega), List.length_zipWith, List.length_take, hkey]
    rfl
  have hclamped : leNat (clampBytes key.toList) = clamped key := by
    have hmask : (key.toList.take 16).length = clampMask.length := by
      rw [List.length_take, hkey]
      rfl
    rw [clampBytes_eq (by omega), leNat_zipWith_and hmask, clamped]
    rfl
  have hdrop : (key.toList.drop 16).length = 16 := by
    rw [List.length_drop, hkey]
  have hvalue := words_eq hlen
  generalize hr : clampBytes key.toList = bytes at *
  have hw0 := word_lt bytes 0
  obtain ⟨hsum, htop⟩ := limbs_eq hw0 (word_lt bytes 1) (word_lt bytes 2) (word_lt bytes 3)
  have h0 : word bytes 0 ||| (shl64 (word bytes 1) 32 &&& mask44) =
      (word bytes 0 ||| shl64 (word bytes 1) 32) &&& mask44 := by
    rw [Nat.and_or_distrib_right, and_mask44 (word bytes 0), Nat.mod_eq_of_lt (by omega)]
  have h2 : (word bytes 2 >>> 24 ||| shl64 (word bytes 3) 8) &&& mask42 =
      word bytes 2 >>> 24 ||| shl64 (word bytes 3) 8 := by
    rw [and_mask42, Nat.mod_eq_of_lt (by omega)]
  refine ⟨⟨?_, ?_, ?_⟩, ?_, fun i => word_lt _ i, words_eq hdrop⟩
  · show word (clampBytes key.toList) 0 ||| (shl64 (word (clampBytes key.toList) 1) 32 &&& mask44) < 2 ^ 44
    rw [hr, h0, and_mask44]
    exact Nat.mod_lt _ (by norm_num)
  · show _ &&& mask44 < 2 ^ 44
    rw [and_mask44]
    exact Nat.mod_lt _ (by norm_num)
  · show _ &&& mask42 < 2 ^ 42
    rw [and_mask42]
    exact Nat.mod_lt _ (by norm_num)
  · rw [← hclamped, ← hvalue, ← hsum, Limbs.value]
    show (word (clampBytes key.toList) 0 ||| (shl64 (word (clampBytes key.toList) 1) 32 &&& mask44)) +
      2 ^ 44 * (((word (clampBytes key.toList) 1 >>> 12) ||| shl64 (word (clampBytes key.toList) 2) 20) &&&
        mask44) + 2 ^ 88 * (((word (clampBytes key.toList) 2 >>> 24) |||
          shl64 (word (clampBytes key.toList) 3) 8) &&& mask42) = _
    rw [hr, h0, h2]

/-- However a message is cut, its tag is the polynomial over its blocks at the clamped key,
plus the other half of the key, and nothing overflows. -/
theorem tag_exact (key : PolyKey) (pieces : List Bytes) :
    tag key pieces = some (toLe 16 ((polySum (clamped key)
      ((polyBlocks pieces.flatten).map coefficient) % polyPrime + secret key) % 2 ^ 128)) := by
  obtain ⟨hr, hvalue, hs, hsecret⟩ := new_spec key
  have hzero : (new key).state.h.Reduced := ⟨Nat.two_pow_pos 44, Nat.add_pos_left (Nat.two_pow_pos 44) _, Nat.two_pow_pos 42⟩
  obtain ⟨q, hrun, hq, hhorner⟩ := @foldlM_processBlock (new key).state hzero hr
    (fullBlocks 16 pieces.flatten) fun b hb => length_of_mem_fullBlocks (by norm_num) hb
  have htake : pieces.foldlM update (new key) =
      some ⟨{ (new key).state with h := q }, blockRest 16 pieces.flatten⟩ := by
    have hpieces := @foldlM_takeIn _ _ 16 Option _ (fun p block => processBlock p block 1) _
      (by norm_num) (new key).state [] (by norm_num) pieces
    rw [List.nil_append, hrun] at hpieces
    exact hpieces
  rw [tag, htake]
  refine (@finalize_spec { (new key).state with h := q } hq hr hs _
    (length_blockRest (by norm_num) _)).trans ?_
  dsimp only
  have hstart : (new key).state.h.value = 0 := rfl
  rw [hvalue, hstart] at hhorner
  have hsum : horner (clamped key) q.value
      ((if blockRest 16 pieces.flatten = [] then [] else [blockRest 16 pieces.flatten]).map
        coefficient) ≡
      polySum (clamped key) ((polyBlocks pieces.flatten).map coefficient) [MOD polyPrime] := by
    have hwhole : polySum (clamped key) ((polyBlocks pieces.flatten).map coefficient) =
        horner (clamped key) 0 ((polyBlocks pieces.flatten).map coefficient) := by
      rw [horner_eq, Nat.zero_mul, Nat.zero_add]
    rw [hwhole, polyBlocks, List.map_append, horner_append, horner_eq, horner_eq _ (horner _ _ _)]
    exact Nat.ModEq.add_right _ (Nat.ModEq.mul_right _ hhorner)
  rw [hvalue, hsecret, hsum]

end Poly1305

end Conclave.Crypto
