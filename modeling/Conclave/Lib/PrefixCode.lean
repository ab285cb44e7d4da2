import Mathlib

/-! Words of bits, their numbers, and lists of words none of which starts another. -/

namespace Conclave.Lib

/-! ### Words and numbers -/

/-- The number whose binary digits are the word, highest first. -/
def wordValue (w : List Bool) : ℕ := w.foldl (fun n b => n * 2 + b.toNat) 0

/-- The `len` lowest binary digits of a number, highest first. -/
def word (n len : ℕ) : List Bool := (List.range len).map fun i => n.testBit (len - 1 - i)

@[simp] theorem word_length (n len : ℕ) : (word n len).length = len := by simp [word]

theorem wordValue_snoc (w : List Bool) (b : Bool) :
    wordValue (w ++ [b]) = wordValue w * 2 + b.toNat := by simp [wordValue]

theorem wordValue_lt (w : List Bool) : wordValue w < 2 ^ w.length := by
  induction w using List.reverseRecOn with
  | nil => simp [wordValue]
  | append_singleton w b ih =>
    have hb := Bool.toNat_lt b
    rw [wordValue_snoc, List.length_append, List.length_singleton, pow_succ]
    omega

theorem word_succ (n len : ℕ) : word n (len + 1) = word (n / 2) len ++ [n.testBit 0] := by
  simp only [word, List.range_succ, List.map_append, List.map_singleton]
  congr 1
  · refine List.map_congr_left fun i hi => ?_
    have hlt := List.mem_range.mp hi
    rw [Nat.testBit_div_two]
    congr 1
    omega
  · simp

/-- A word is the word of its number. -/
theorem word_wordValue (w : List Bool) : word (wordValue w) w.length = w := by
  induction w using List.reverseRecOn with
  | nil => rfl
  | append_singleton w b ih =>
    have hb := Bool.toNat_lt b
    rw [wordValue_snoc, List.length_append, List.length_singleton, word_succ]
    congr 1
    · have hhalf : (wordValue w * 2 + b.toNat) / 2 = wordValue w := by omega
      rw [hhalf, ih]
    · have hbit : (wordValue w * 2 + b.toNat) % 2 = b.toNat := by omega
      rw [Nat.testBit_zero, hbit]
      cases b <;> rfl

theorem wordValue_word {n len : ℕ} (h : n < 2 ^ len) : wordValue (word n len) = n := by
  induction len generalizing n with
  | zero =>
    obtain rfl : n = 0 := by simpa using h
    rfl
  | succ len ih =>
    have hhalf : n / 2 < 2 ^ len := by
      rw [pow_succ] at h
      omega
    have hbit : (n.testBit 0).toNat = n % 2 := by simpa using Nat.toNat_testBit n 0
    rw [word_succ, wordValue_snoc, ih hhalf, hbit]
    omega

theorem wordValue_ones (len : ℕ) : wordValue (List.replicate len true) = 2 ^ len - 1 := by
  induction len with
  | zero => rfl
  | succ len ih =>
    have hpos := Nat.one_le_two_pow (n := len)
    rw [List.replicate_succ', wordValue_snoc, ih, pow_succ, Bool.toNat_true]
    omega

/-! ### Prefix-free lists -/

/-- The words that start with a bit, without it. -/
def after (b : Bool) (ws : List (List Bool)) : List (List Bool) :=
  ws.filterMap fun w =>
    match w with
    | [] => none
    | c :: w => if c = b then some w else none

/-- No word of the list starts another, by splitting it at the first bit, then at the
second and so on. -/
def prefixFree : ℕ → List (List Bool) → Bool
  | _, [] => true
  | _, [_] => true
  | 0, _ => false
  | n + 1, ws => !ws.contains [] && prefixFree n (after true ws) && prefixFree n (after false ws)

def Apart (v w : List Bool) : Prop := ¬ v <+: w ∧ ¬ w <+: v

theorem pairwise_of_prefixFree {n : ℕ} {ws : List (List Bool)} (h : prefixFree n ws = true) :
    ws.Pairwise Apart := by
  induction n, ws using prefixFree.induct with
  | case1 => exact .nil
  | case2 => exact List.pairwise_singleton _ _
  | case3 ws h₀ h₁ =>
    rw [prefixFree] at h
    · cases h
    · exact h₀
    · exact h₁
  | case4 n ws h₀ h₁ ih₁ ih₂ =>
    rw [prefixFree, Bool.and_eq_true, Bool.and_eq_true] at h
    · have ht := List.pairwise_filterMap.mp (ih₁ h.1.2)
      have hf := List.pairwise_filterMap.mp (ih₂ h.2)
      have hne : ∀ w ∈ ws, w ≠ [] := by
        intro w hw heq
        simp [heq ▸ hw] at h
      refine (ht.and hf).imp_of_mem fun {v w} hv hw hvw => ?_
      obtain ⟨b, v, rfl⟩ := List.exists_cons_of_ne_nil (hne v hv)
      obtain ⟨c, w, rfl⟩ := List.exists_cons_of_ne_nil (hne w hw)
      by_cases hbc : b = c
      · subst hbc
        have happart : Apart v w := by
          cases b with
          | true => exact hvw.1 v (by simp) w (by simp)
          | false => exact hvw.2 v (by simp) w (by simp)
        refine ⟨fun hp => happart.1 ?_, fun hp => happart.2 ?_⟩
        · exact (List.cons_prefix_cons.mp hp).2
        · exact (List.cons_prefix_cons.mp hp).2
      · refine ⟨fun hp => hbc ?_, fun hp => hbc ?_⟩
        · exact (List.cons_prefix_cons.mp hp).1
        · exact (List.cons_prefix_cons.mp hp).1.symm
    · exact h₀
    · exact h₁

/-- In a prefix-free list, two places with words that start the same bits are one. -/
theorem eq_of_prefixes {n : ℕ} {ws : List (List Bool)} (h : prefixFree n ws = true) {i j : ℕ}
    {v w bits : List Bool} (hi : ws[i]? = some v) (hj : ws[j]? = some w) (hv : v <+: bits)
    (hw : w <+: bits) : i = j := by
  obtain ⟨hi', rfl⟩ := List.getElem?_eq_some_iff.mp hi
  obtain ⟨hj', rfl⟩ := List.getElem?_eq_some_iff.mp hj
  have hapart := List.pairwise_iff_getElem.mp (pairwise_of_prefixFree h)
  have hone := List.prefix_or_prefix_of_prefix hv hw
  rcases Nat.lt_trichotomy i j with hlt | heq | hgt
  · exact absurd hone (not_or.mpr (hapart i j hi' hj' hlt))
  · exact heq
  · exact absurd hone.symm (not_or.mpr (hapart j i hj' hi' hgt))

end Conclave.Lib
