import Conclave.Lib.Text

/-! Decimal numerals: what is printed is parsed. -/

namespace Conclave.Lib.Text

/-- The digits of a number give it back, after any number before them. -/
theorem foldl_toDigits (n a : ℕ) :
    (Nat.toDigits 10 n).foldl (fun n c => 10 * n + (c.toNat - '0'.toNat)) a =
      a * 10 ^ (Nat.toDigits 10 n).length + n := by
  have hdigit : ∀ d < 10, (Nat.digitChar d).toNat - '0'.toNat = d := by decide
  induction n using Nat.strong_induction_on with
  | h n ih =>
    rw [Nat.toDigits_eq_if (by omega)]
    split_ifs with hlt
    · rw [List.foldl_cons, List.foldl_nil, hdigit n hlt, List.length_singleton]
      omega
    · have hmod := Nat.div_add_mod n 10
      rw [List.foldl_append, ih (n / 10) (by omega), List.foldl_cons, List.foldl_nil,
        hdigit _ (Nat.mod_lt n (by omega)), List.length_append, List.length_singleton, pow_succ]
      calc 10 * (a * 10 ^ (Nat.toDigits 10 (n / 10)).length + n / 10) + n % 10
          = a * (10 ^ (Nat.toDigits 10 (n / 10)).length * 10) + (10 * (n / 10) + n % 10) := by ring
        _ = a * (10 ^ (Nat.toDigits 10 (n / 10)).length * 10) + n := by rw [hmod]

theorem isDigit_of_mem_repr {n : ℕ} {c : Char} (h : c ∈ (toString n).toList) : c.isDigit := by
  rw [show (toString n).toList = Nat.toDigits 10 n from Nat.toList_repr] at h
  exact Nat.isDigit_of_mem_toDigits (by omega) (by omega) h

theorem repr_ne_nil (n : ℕ) : (toString n).toList ≠ [] := by
  rw [show (toString n).toList = Nat.toDigits 10 n from Nat.toList_repr]
  exact Nat.toDigits_ne_nil

theorem parseUnsigned_repr {bits n : ℕ} (h : n < 2 ^ bits) :
    parseUnsigned bits (toString n).toList = some n := by
  have hplus : (toString n).toList.head? ≠ some '+' := by
    intro hhead
    exact absurd (isDigit_of_mem_repr (List.mem_of_head? hhead)) (by decide)
  have hvalue : (toString n).toList.foldl (fun n c => 10 * n + (c.toNat - '0'.toNat)) 0 = n := by
    rw [show (toString n).toList = Nat.toDigits 10 n from Nat.toList_repr, foldl_toDigits,
      Nat.zero_mul, Nat.zero_add]
  rw [parseUnsigned, if_neg hplus, hvalue, if_pos]
  exact ⟨repr_ne_nil n, List.all_eq_true.mpr fun c hc => isDigit_of_mem_repr hc, h⟩

end Conclave.Lib.Text
