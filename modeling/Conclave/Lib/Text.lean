import Mathlib

/-! Text as a list of characters, with the operations that a string type has for it. -/

namespace Conclave.Lib

abbrev Text := List Char

namespace Text

/-- The white space of Unicode. -/
def isWhitespace (c : Char) : Bool :=
  (0x9 ≤ c.toNat ∧ c.toNat ≤ 0xd) ∨ (0x2000 ≤ c.toNat ∧ c.toNat ≤ 0x200a) ∨
    c.toNat ∈ [0x20, 0x85, 0xa0, 0x1680, 0x2028, 0x2029, 0x202f, 0x205f, 0x3000]

def trimMatches (p : Char → Bool) (t : Text) : Text := (t.dropWhile p).rdropWhile p

def trim (t : Text) : Text := t.trimMatches isWhitespace

def toAsciiLowercase (t : Text) : Text := t.map Char.toLower

def stripPrefix (p t : Text) : Option Text :=
  if p <+: t then some (t.drop p.length) else none

/-- An unsigned number of so many bits: digits, after a plus sign at most. -/
def parseUnsigned (bits : ℕ) (t : Text) : Option ℕ :=
  let digits := if t.head? = some '+' then t.tail else t
  let n := digits.foldl (fun n c => 10 * n + (c.toNat - '0'.toNat)) 0
  if digits ≠ [] ∧ digits.all Char.isDigit ∧ n < 2 ^ bits then some n else none

/-! ### Case -/

/-- The capital letters move by 32, and nothing else changes. -/
theorem toLower_cases (c : Char) :
    (65 ≤ c.toNat ∧ c.toNat ≤ 90) ∧ c.toLower.toNat = c.toNat + 32 ∨
      ¬ (65 ≤ c.toNat ∧ c.toNat ≤ 90) ∧ c.toLower = c := by
  by_cases h : 65 ≤ c.toNat ∧ c.toNat ≤ 90
  · have hc : c.val ≥ 'A'.val ∧ c.val ≤ 'Z'.val :=
      ⟨UInt32.le_iff_toNat_le.mpr h.1, UInt32.le_iff_toNat_le.mpr h.2⟩
    refine .inl ⟨h, ?_⟩
    unfold Char.toLower
    rw [dif_pos hc]
    show (c.val + ('a'.val - 'A'.val)).toNat = c.toNat + 32
    rw [UInt32.toNat_add]
    have hval : c.val.toNat = c.toNat := rfl
    have hdiff : ('a'.val - 'A'.val).toNat = 32 := rfl
    omega
  · refine .inr ⟨h, ?_⟩
    unfold Char.toLower
    rw [dif_neg]
    exact fun hc => h ⟨UInt32.le_iff_toNat_le.mp hc.1, UInt32.le_iff_toNat_le.mp hc.2⟩

/-- Only letters change their case. -/
theorem toLower_eq {d : Char} (hupper : d.isUpper = false) (hlower : d.isLower = false) (c : Char) :
    c.toLower = d ↔ c = d := by
  have hd : ¬ (65 ≤ d.toNat ∧ d.toNat ≤ 90) ∧ ¬ (97 ≤ d.toNat ∧ d.toNat ≤ 122) := by
    simp only [Char.isUpper, Char.isLower, Bool.and_eq_false_imp, decide_eq_true_eq,
      decide_eq_false_iff_not, ge_iff_le, UInt32.le_iff_toNat_le] at hupper hlower
    exact ⟨fun h => hupper ⟨h.1, h.2⟩, fun h => hlower h.1 h.2⟩
  cases toLower_cases c with
  | inl h =>
    constructor
    · rintro rfl
      omega
    · rintro rfl
      exact absurd h.1 hd.1
  | inr h => rw [h.2]

theorem toLower_toLower (c : Char) : c.toLower.toLower = c.toLower := by
  cases toLower_cases c with
  | inl h =>
    cases toLower_cases c.toLower with
    | inl h' => omega
    | inr h' => exact h'.2
  | inr h => rw [h.2, h.2]

end Text

end Conclave.Lib
