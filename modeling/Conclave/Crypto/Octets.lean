import Conclave.Crypto.Limbwise
import Conclave.Lib.Codec

/-! Numbers as big-endian octet strings. -/

namespace Conclave.Crypto

open Conclave.Lib

/-- Zeros on the left up to a multiple of eight. -/
def padded (bytes : Bytes) : Bytes := List.replicate ((8 - bytes.length % 8) % 8) 0 ++ bytes

/-- Limb `i` of a padded string, counted from its end. -/
def limbOf (bytes : Bytes) (i : ℕ) : UInt64 :=
  UInt64.ofNat (beNat ((bytes.drop (bytes.length - (i + 1) * 8)).take 8))

/-- The limbs from the `i`th on, written into `out` from its end. -/
def placeLimbs (len : ℕ) : ℕ → List UInt64 → Bytes → Bytes
  | _, [], out => out
  | i, lm :: limbs, out =>
    let stop := len - i * 8
    let start := len - (i + 1) * 8
    let out := out.take start ++ (toBe 8 lm.toNat).drop (8 - (stop - start)) ++ out.drop stop
    if stop ≤ 8 ∧ len < i * 8 + 8 then out else placeLimbs len (i + 1) limbs out

namespace BigUint

def fromBeBytes (bytes : Bytes) : BigUint :=
  ofLimbs ((List.range ((padded bytes).length / 8)).map (limbOf (padded bytes)))

def toBeBytes (a : BigUint) (len : ℕ) : Bytes := placeLimbs len 0 a.limbs (List.replicate len 0)

end BigUint

section Strings

theorem beNat_append (a b : Bytes) : beNat (a ++ b) = beNat a * 2 ^ (8 * b.length) + beNat b := by
  induction a with
  | nil => simp [beNat]
  | cons x a ih =>
    rw [List.cons_append, beNat, beNat, ih, List.length_append, Nat.mul_add, pow_add]
    ring

@[simp] theorem beNat_replicate_zero (k : ℕ) : beNat (List.replicate k 0) = 0 := by
  induction k with
  | zero => rfl
  | succ k ih => simp [List.replicate_succ, beNat, ih]

theorem toBe_add (m k n : ℕ) : toBe (m + k) n = toBe m (n / 2 ^ (8 * k)) ++ toBe k n := by
  induction m with
  | zero => simp [toBe]
  | succ m ih =>
    rw [Nat.succ_add, toBe, ih, toBe, List.cons_append, Nat.mul_add, Nat.add_comm (8 * m), pow_add,
      Nat.div_div_eq_div_mul]

@[simp] theorem toBe_zero (k : ℕ) : toBe k 0 = List.replicate k 0 := by
  induction k with
  | zero => rfl
  | succ k ih => simp [toBe, ih, List.replicate_succ]

/-- The bytes of a number are those of its low part. -/
theorem toBe_add_mul (k n c : ℕ) : toBe k (n + 2 ^ (8 * k) * c) = toBe k n := by
  induction k generalizing c with
  | zero => rfl
  | succ k ih =>
    have hlow : n + 2 ^ (8 * (k + 1)) * c = n + 2 ^ (8 * k) * (2 ^ 8 * c) := by
      rw [Nat.mul_add, pow_add]
      ring
    rw [toBe, toBe, hlow, ih, Nat.add_mul_div_left _ _ (Nat.two_pow_pos _)]
    congr 1
    apply UInt8.toNat_inj.mp
    rw [UInt8.toNat_ofNat', UInt8.toNat_ofNat', Nat.add_mul_mod_self_left]

end Strings

theorem length_padded (bytes : Bytes) : (padded bytes).length % 8 = 0 := by
  rw [padded, List.length_append, List.length_replicate]
  omega

theorem beNat_padded (bytes : Bytes) : beNat (padded bytes) = beNat bytes := by
  rw [padded, beNat_append, beNat_replicate_zero]
  omega

/-- The limbs below `i` are the last `8 * i` bytes. -/
theorem segment_limbOf {bytes : Bytes} {n i : ℕ} (hlen : bytes.length = 8 * n) (hi : i ≤ n) :
    segment ((List.range n).map (limbOf bytes)) 0 i = beNat (bytes.drop (8 * n - 8 * i)) := by
  induction i with
  | zero => simp [← hlen, beNat]
  | succ i ih =>
    have hlimb : limbAt ((List.range n).map (limbOf bytes)) i =
        beNat ((bytes.drop (8 * n - 8 * (i + 1))).take 8) := by
      have hlt := beNat_lt ((bytes.drop (8 * n - 8 * (i + 1))).take 8)
      have hbytes : ((bytes.drop (8 * n - 8 * (i + 1))).take 8).length = 8 := by
        rw [List.length_take, List.length_drop]
        omega
      rw [hbytes] at hlt
      have hget : ((List.range n).map (limbOf bytes))[i]? = some (limbOf bytes i) := by
        rw [List.getElem?_map, List.getElem?_range hi]
        rfl
      rw [limbAt, List.getD_eq_getElem?_getD, hget, Option.getD_some, limbOf, hlen,
        Nat.mul_comm (i + 1)]
      exact UInt64.toNat_ofNat_of_lt hlt
    have hsplit : bytes.drop (8 * n - 8 * (i + 1)) =
        (bytes.drop (8 * n - 8 * (i + 1))).take 8 ++ bytes.drop (8 * n - 8 * i) := by
      have h := List.take_append_drop 8 (bytes.drop (8 * n - 8 * (i + 1)))
      rw [List.drop_drop, show 8 * n - 8 * (i + 1) + 8 = 8 * n - 8 * i by omega] at h
      exact h.symm
    have hrest : (bytes.drop (8 * n - 8 * i)).length = 8 * i := by
      rw [List.length_drop]
      omega
    rw [segment_succ, ih (by omega), Nat.zero_add, hlimb, hsplit, beNat_append, hrest]
    have hradix : radix ^ i = 2 ^ (8 * (8 * i)) := by
      rw [radix, ← pow_mul, ← Nat.mul_assoc]
    rw [hradix, ← hsplit]
    omega

@[simp] theorem toNat_fromBeBytes (bytes : Bytes) :
    (BigUint.fromBeBytes bytes).toNat = beNat bytes := by
  obtain ⟨n, hn⟩ := Nat.dvd_of_mod_eq_zero (length_padded bytes)
  have hlen : (padded bytes).length / 8 = n := by omega
  have hvalue := segment_limbOf hn le_rfl
  rw [BigUint.fromBeBytes, BigUint.toNat_ofLimbs, hlen, ← beNat_padded bytes]
  rw [Nat.sub_self, List.drop_zero] at hvalue
  rw [← hvalue, segment_of_length_le (by simp)]

/-- What is written is the number's low octets, above those already there. -/
theorem placeLimbs_spec (len i : ℕ) (limbs : List UInt64) (tail : Bytes) (hi : 8 * i ≤ len)
    (htail : tail.length = 8 * i) :
    placeLimbs len i limbs (List.replicate (len - 8 * i) 0 ++ tail) =
      toBe (len - 8 * i) (value limbs) ++ tail := by
  induction limbs generalizing i tail with
  | nil => simp [placeLimbs]
  | cons lm limbs ih =>
    have hdrop : (List.replicate (len - 8 * i) (0 : UInt8) ++ tail).drop (len - i * 8) = tail := by
      rw [Nat.mul_comm i, List.drop_left' List.length_replicate]
    rw [placeLimbs, hdrop, value_cons]
    by_cases hfull : len < 8 * i + 8
    · have hbreak : len - i * 8 ≤ 8 ∧ len < i * 8 + 8 := by omega
      have hstart : len - (i + 1) * 8 = 0 := by omega
      rw [if_pos hbreak, hstart, List.take_zero, List.nil_append, Nat.sub_zero]
      congr 1
      have hsplit := toBe_add (8 - (len - 8 * i)) (len - 8 * i) lm.toNat
      have hradix : radix = 2 ^ (8 * (len - 8 * i)) * 2 ^ (64 - 8 * (len - 8 * i)) := by
        rw [← pow_add, show 8 * (len - 8 * i) + (64 - 8 * (len - 8 * i)) = 64 by omega]
        rfl
      rw [Nat.sub_add_cancel (by omega)] at hsplit
      rw [hradix, Nat.mul_assoc, toBe_add_mul, hsplit, Nat.mul_comm i,
        List.drop_left' (toBe_length _ _)]
    · have hgo : ¬ (len - i * 8 ≤ 8 ∧ len < i * 8 + 8) := by omega
      have htake : (List.replicate (len - 8 * i) (0 : UInt8) ++ tail).take (len - (i + 1) * 8) =
          List.replicate (len - 8 * (i + 1)) 0 := by
        rw [List.take_append_of_le_length (by rw [List.length_replicate]; omega),
          List.take_replicate]
        congr 1
        omega
      have hwhole : 8 - (len - i * 8 - (len - (i + 1) * 8)) = 0 := by omega
      rw [if_neg hgo, htake, hwhole, List.drop_zero, List.append_assoc,
        ih (i + 1) _ (by omega) (by rw [List.length_append, toBe_length, htail]; omega),
        ← List.append_assoc]
      congr 1
      have hsplit := toBe_add (len - 8 * (i + 1)) 8 (lm.toNat + radix * value limbs)
      have hlm : lm.toNat < radix := lm.toNat_lt
      have hdiv : (lm.toNat + radix * value limbs) / 2 ^ (8 * 8) = value limbs := by
        rw [show 2 ^ (8 * 8) = radix from rfl, Nat.add_mul_div_left _ _ radix_pos,
          Nat.div_eq_of_lt hlm, Nat.zero_add]
      rw [hdiv, show radix = 2 ^ (8 * 8) from rfl, toBe_add_mul,
        show len - 8 * (i + 1) + 8 = len - 8 * i by omega] at hsplit
      exact hsplit.symm

@[simp] theorem toBeBytes_eq (a : BigUint) (len : ℕ) : a.toBeBytes len = toBe len a.toNat := by
  have h := placeLimbs_spec len 0 a.limbs [] (Nat.zero_le _) rfl
  rwa [Nat.mul_zero, Nat.sub_zero, List.append_nil, List.append_nil] at h

end Conclave.Crypto
