import Mathlib

/-! Byte strings and their big-endian integers. -/

namespace Conclave.Lib

abbrev Bytes := List UInt8

/-- Big-endian value of two bytes. -/
def be16 (a b : UInt8) : ℕ := a.toNat * 2 ^ 8 + b.toNat

/-- Big-endian value of three bytes. -/
def be24 (a b c : UInt8) : ℕ := a.toNat * 2 ^ 16 + b.toNat * 2 ^ 8 + c.toNat

/-- Big-endian encoding of the low `8 * k` bits of `n`, most significant byte first. -/
def toBe : (k n : ℕ) → Bytes
  | 0, _ => []
  | k + 1, n => UInt8.ofNat (n / 2 ^ (8 * k)) :: toBe k n

@[simp] theorem toBe_length (k n : ℕ) : (toBe k n).length = k := by
  induction k with
  | zero => rfl
  | succ k ih => simp [toBe, ih]

/-- Value of a big-endian byte string. -/
def beNat : Bytes → ℕ
  | [] => 0
  | b :: bs => b.toNat * 2 ^ (8 * bs.length) + beNat bs

theorem beNat_toBe (k n : ℕ) : beNat (toBe k n) = n % 2 ^ (8 * k) := by
  induction k with
  | zero => simp [toBe, beNat, Nat.mod_one]
  | succ k ih =>
    rw [toBe, beNat, ih, toBe_length, UInt8.toNat_ofNat', Nat.mul_succ, Nat.pow_add,
      Nat.mod_mul, Nat.mul_comm]
    omega

theorem toBe_injective {k m n : ℕ} (hm : m < 2 ^ (8 * k)) (hn : n < 2 ^ (8 * k))
    (h : toBe k m = toBe k n) : m = n := by
  have h' := congrArg beNat h
  rwa [beNat_toBe, beNat_toBe, Nat.mod_eq_of_lt hm, Nat.mod_eq_of_lt hn] at h'

theorem be24_lt (a b c : UInt8) : be24 a b c < 2 ^ 24 := by
  have ha := a.toNat_lt
  have hb := b.toNat_lt
  have hc := c.toNat_lt
  unfold be24
  omega

theorem toBe_two (n : ℕ) : toBe 2 n = [UInt8.ofNat (n / 2 ^ 8), UInt8.ofNat n] := by
  simp [toBe]

theorem toBe_three (n : ℕ) :
    toBe 3 n = [UInt8.ofNat (n / 2 ^ 16), UInt8.ofNat (n / 2 ^ 8), UInt8.ofNat n] := by
  simp [toBe]

theorem be24_ofNat {n : ℕ} (h : n < 2 ^ 24) :
    be24 (UInt8.ofNat (n / 2 ^ 16)) (UInt8.ofNat (n / 2 ^ 8)) (UInt8.ofNat n) = n := by
  simp only [be24, UInt8.toNat_ofNat']
  omega

theorem toBe_be16 (a b : UInt8) : toBe 2 (be16 a b) = [a, b] := by
  have ha := a.toNat_lt
  have hb := b.toNat_lt
  simp only [toBe_two, be16, List.cons.injEq, and_true]
  constructor <;> (apply UInt8.toNat_inj.mp; rw [UInt8.toNat_ofNat']; omega)

theorem toBe_be24 (a b c : UInt8) : toBe 3 (be24 a b c) = [a, b, c] := by
  have ha := a.toNat_lt
  have hb := b.toNat_lt
  have hc := c.toNat_lt
  simp only [toBe_three, be24, List.cons.injEq, and_true]
  refine ⟨?_, ?_, ?_⟩ <;> (apply UInt8.toNat_inj.mp; rw [UInt8.toNat_ofNat']; omega)

end Conclave.Lib
