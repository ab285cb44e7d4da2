import Mathlib

/-! The trial digit of long division. `U` and `V` are a window of the dividend and the
divisor, `P` the power of the base below the digits that the test looks at. -/

namespace Conclave.Lib

variable {B P N v₁ v₀ vl u₀ ul q r U V : ℕ}

/-- A trial digit that fails the test is too large. -/
theorem lt_mul_of_test (hU : U = (N * B + u₀) * P + ul) (hul : ul < P)
    (hV : V = (v₁ * B + v₀) * P + vl) (hN : q * v₁ + r = N) (htest : r * B + u₀ < q * v₀) :
    U < q * V := by
  have hle : N * B + u₀ + 1 ≤ q * (v₁ * B + v₀) := by
    calc N * B + u₀ + 1 = q * v₁ * B + (r * B + u₀ + 1) := by rw [← hN]; ring
      _ ≤ q * v₁ * B + q * v₀ := Nat.add_le_add_left htest _
      _ = q * (v₁ * B + v₀) := by ring
  calc U < (N * B + u₀ + 1) * P := by rw [hU, Nat.succ_mul]; omega
    _ ≤ q * (v₁ * B + v₀) * P := Nat.mul_le_mul_right _ hle
    _ ≤ q * V := by rw [hV, Nat.mul_assoc]; exact Nat.mul_le_mul_left _ (Nat.le_add_right _ _)

/-- A trial digit that passes it is at most one too large. -/
theorem mul_lt_of_not_test (hU : U = (N * B + u₀) * P + ul)
    (hV : V = (v₁ * B + v₀) * P + vl) (hvl : vl < P) (hN : q * v₁ + r = N)
    (htest : q * v₀ ≤ r * B + u₀) (hv₁ : 0 < v₁) (hq : q < B) : q * V < U + V := by
  have hlow : q * vl < v₁ * B * P := by
    calc q * vl < B * P := Nat.mul_lt_mul'' hq hvl
      _ ≤ v₁ * B * P := Nat.mul_le_mul_right _ (Nat.le_mul_of_pos_left _ hv₁)
  have hhigh : q * (v₁ * B + v₀) ≤ N * B + u₀ := by
    calc q * (v₁ * B + v₀) = q * v₁ * B + q * v₀ := by ring
      _ ≤ q * v₁ * B + (r * B + u₀) := Nat.add_le_add_left htest _
      _ = N * B + u₀ := by rw [← hN]; ring
  calc q * V = q * (v₁ * B + v₀) * P + q * vl := by rw [hV]; ring
    _ < (N * B + u₀) * P + v₁ * B * P :=
        Nat.add_lt_add_of_le_of_lt (Nat.mul_le_mul_right _ hhigh) hlow
    _ ≤ U + V := by
        have hle := Nat.mul_le_mul_right P (Nat.le_add_right (v₁ * B) v₀)
        omega

/-- The two top digits of a window that one digit of the quotient is enough for. -/
theorem lt_of_lt_mul (hP : 0 < B * P) (hU : N * (B * P) ≤ U) (hV : V ≤ (v₁ + 1) * (B * P))
    (hUV : U < B * V) : N < (v₁ + 1) * B := by
  have hlt : N * (B * P) < (v₁ + 1) * B * (B * P) := by
    calc N * (B * P) ≤ U := hU
      _ < B * V := hUV
      _ ≤ B * ((v₁ + 1) * (B * P)) := Nat.mul_le_mul_left _ hV
      _ = (v₁ + 1) * B * (B * P) := by ring
  exact Nat.lt_of_mul_lt_mul_right hlt

/-- The first trial digit is not too small. -/
theorem lt_first_trial (hv₁ : 0 < v₁) (hU : U < (N + 1) * (B * P)) (hV : v₁ * (B * P) ≤ V) :
    U < (N / v₁ + 1) * V := by
  have hN : N < (N / v₁ + 1) * v₁ := by
    have hmod := Nat.mod_lt N hv₁
    have hdm := Nat.div_add_mod' N v₁
    rw [Nat.succ_mul]
    omega
  calc U < (N + 1) * (B * P) := hU
    _ ≤ (N / v₁ + 1) * v₁ * (B * P) := Nat.mul_le_mul_right _ hN
    _ ≤ (N / v₁ + 1) * V := by rw [Nat.mul_assoc]; exact Nat.mul_le_mul_left _ hV

/-- The digit between the two bounds. -/
theorem div_eq_of_bounds (hlt : U < (q + 1) * V) (hle : q * V ≤ U) : U / V = q :=
  Nat.div_eq_of_lt_le hle hlt

/-- The remainder of a window below the next digit of the dividend. -/
theorem lt_radix_mul {R u : ℕ} (hR : R < V) (hu : u < B) : u + B * R < B * V := by
  calc u + B * R < B + B * R := Nat.add_lt_add_right hu _
    _ = B * (R + 1) := by ring
    _ ≤ B * V := Nat.mul_le_mul_left _ hR

/-- What a digit too large by one leaves, when the divisor is added back modulo `M`. -/
theorem add_back_mod {W Q M : ℕ} (hM : V ≤ M) (hQ : U < (Q + 1) * V) (hQ' : Q * V ≤ U)
    (hW : (W : ℤ) = U - (Q + 1 : ℕ) * V + M) : (W + V) % M = U % V := by
  have hdiv : U / V = Q := div_eq_of_bounds hQ hQ'
  have hW' : W + V = U - Q * V + M := by
    zify [hQ']
    push_cast at hW
    linear_combination hW
  rw [Nat.succ_mul] at hQ
  rw [hW', Nat.add_mod_right, Nat.mod_eq_of_lt (by omega), Nat.mod_eq_sub_mul_div, hdiv,
    Nat.mul_comm V]

/-- What the right digit leaves. -/
theorem sub_eq_mod {W : ℕ} (hq : U < (q + 1) * V) (hq' : q * V ≤ U) (hW : (W : ℤ) = U - q * V) :
    W = U % V := by
  have hdiv : U / V = q := div_eq_of_bounds hq hq'
  rw [Nat.mod_eq_sub_mul_div, hdiv, Nat.mul_comm V]
  omega

end Conclave.Lib
