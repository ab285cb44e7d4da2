import Conclave.Lib.PrefixCode

/-! Canonical codes. The words of each length are consecutive numbers, and those of the next
length begin where these end, one bit longer. -/

namespace Conclave.Lib

/-- The number of the first word of each length, by how many there are of the shorter ones. -/
def firstCode (count : ℕ → ℕ) : ℕ → ℕ
  | 0 => 0
  | len + 1 => 2 * (firstCode count len + count len)

/-- What Kraft's inequality leaves free at each length. -/
def kraftLeft (count : ℕ → ℕ) : ℕ → ℤ
  | 0 => 1
  | len + 1 => 2 * kraftLeft count len - count (len + 1)

variable {count : ℕ → ℕ} {m n : ℕ}

theorem kraftLeft_eq (h : count 0 = 0) (n : ℕ) :
    kraftLeft count n = 2 ^ n - ((firstCode count n + count n : ℕ) : ℤ) := by
  induction n with
  | zero => simp [kraftLeft, firstCode, h]
  | succ n ih =>
    rw [kraftLeft, ih, firstCode]
    push_cast
    ring

/-- Where the words of a length end, every longer word begins. -/
theorem end_le_firstCode (h : m < n) :
    2 ^ (n - m) * (firstCode count m + count m) ≤ firstCode count n := by
  obtain ⟨k, rfl⟩ := Nat.exists_eq_add_of_lt h
  clear h
  have hk : m + k + 1 - m = k + 1 := by omega
  rw [hk]
  induction k with
  | zero => simp [firstCode]
  | succ k ih =>
    rw [show m + (k + 1) + 1 = m + k + 1 + 1 by omega, firstCode, pow_succ]
    have hle : 2 ^ (k + 1) * (firstCode count m + count m) ≤
        firstCode count (m + k + 1) + count (m + k + 1) := by omega
    calc 2 ^ (k + 1) * 2 * (firstCode count m + count m)
        = 2 * (2 ^ (k + 1) * (firstCode count m + count m)) := by ring
      _ ≤ 2 * (firstCode count (m + k + 1) + count (m + k + 1)) := Nat.mul_le_mul_left 2 hle

end Conclave.Lib
