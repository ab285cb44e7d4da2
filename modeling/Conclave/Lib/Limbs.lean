import Mathlib

/-! Numbers written in 64-bit limbs, the least first. `limbAt` reads a limb, zero beyond
the end, and `segment` is the number in a window of them. -/

namespace Conclave.Lib

/-- The base of the limbs. -/
def radix : ℕ := 2 ^ 64

theorem radix_pos : 0 < radix := by decide

variable {l l' : List UInt64} {s n i k : ℕ} {x : UInt64}

def limbAt (l : List UInt64) (i : ℕ) : ℕ := (l.getD i 0).toNat

/-- The number in the limbs `s ..< s + n`. -/
def segment (l : List UInt64) (s n : ℕ) : ℕ := ∑ i ∈ Finset.range n, limbAt l (s + i) * radix ^ i

def value (l : List UInt64) : ℕ := segment l 0 l.length

theorem limbAt_lt (l : List UInt64) (i : ℕ) : limbAt l i < radix := UInt64.toNat_lt _

theorem limbAt_of_lt (h : i < l.length) : l[i]? = some l[i] ∧ limbAt l i = l[i].toNat := by
  simp [limbAt, h]

theorem limbAt_of_le (h : l.length ≤ i) : limbAt l i = 0 := by simp [limbAt, h]

theorem limbAt_set (h : i < l.length) :
    limbAt (l.set i x) k = if k = i then x.toNat else limbAt l k := by
  unfold limbAt
  split_ifs with hk
  · simp [hk, h]
  · simp [List.getD_eq_getElem?_getD, List.getElem?_set_ne (Ne.symm hk)]

theorem limbAt_set_self (h : i < l.length) : limbAt (l.set i x) i = x.toNat := by
  rw [limbAt_set h, if_pos rfl]

theorem limbAt_set_ne (h : k ≠ i) : limbAt (l.set i x) k = limbAt l k := by
  simp [limbAt, List.getD_eq_getElem?_getD, List.getElem?_set_ne h.symm]

theorem limbAt_take (h : k < n) : limbAt (l.take n) k = limbAt l k := by
  simp [limbAt, h]

@[simp] theorem limbAt_cons_zero : limbAt (x :: l) 0 = x.toNat := by simp [limbAt]

@[simp] theorem limbAt_cons_succ : limbAt (x :: l) (k + 1) = limbAt l k := by simp [limbAt]

@[simp] theorem segment_zero (l : List UInt64) (s : ℕ) : segment l s 0 = 0 := rfl

/-- One limb more at the top. -/
theorem segment_succ (l : List UInt64) (s n : ℕ) :
    segment l s (n + 1) = segment l s n + limbAt l (s + n) * radix ^ n :=
  Finset.sum_range_succ _ _

/-- One limb more at the bottom. -/
theorem segment_succ' (l : List UInt64) (s n : ℕ) :
    segment l s (n + 1) = limbAt l s + radix * segment l (s + 1) n := by
  unfold segment
  rw [Finset.sum_range_succ', Finset.mul_sum, Nat.add_comm]
  congr 1
  · simp
  · apply Finset.sum_congr rfl
    intro i _
    rw [show s + (i + 1) = s + 1 + i by omega, pow_succ]
    ring

theorem segment_add (l : List UInt64) (s m n : ℕ) :
    segment l s (m + n) = segment l s m + segment l (s + m) n * radix ^ m := by
  induction n with
  | zero => simp
  | succ n ih =>
    rw [← Nat.add_assoc, segment_succ, ih, segment_succ, Nat.add_assoc s m n, pow_add]
    ring

theorem segment_congr (h : ∀ i < n, limbAt l (s + i) = limbAt l' (k + i)) :
    segment l s n = segment l' k n :=
  Finset.sum_congr rfl fun i hi => by rw [h i (Finset.mem_range.mp hi)]

theorem segment_lt (l : List UInt64) (s n : ℕ) : segment l s n < radix ^ n := by
  induction n with
  | zero => simp
  | succ n ih =>
    have hlimb := limbAt_lt l (s + n)
    have hle : limbAt l (s + n) * radix ^ n + radix ^ n ≤ radix ^ (n + 1) := by
      rw [pow_succ, Nat.mul_comm _ radix, ← Nat.succ_mul]
      exact Nat.mul_le_mul_right _ hlimb
    rw [segment_succ]
    omega

/-- A limb written outside the window. -/
theorem segment_set_of_not_mem (h : i < s ∨ s + n ≤ i) :
    segment (l.set i x) s n = segment l s n := by
  apply segment_congr
  intro k hk
  exact limbAt_set_ne (by omega)

theorem segment_of_le (h : ∀ i < n, limbAt l (s + i) = 0) : segment l s n = 0 :=
  Finset.sum_eq_zero fun i hi => by rw [h i (Finset.mem_range.mp hi), Nat.zero_mul]

/-- The top limb of a window that holds less than its lower limbs can. -/
theorem limbAt_eq_zero_of_segment_lt (h : segment l s (n + 1) < radix ^ n) :
    limbAt l (s + n) = 0 := by
  rw [segment_succ] at h
  by_contra hne
  have hle : radix ^ n ≤ limbAt l (s + n) * radix ^ n :=
    Nat.le_mul_of_pos_left _ (Nat.pos_of_ne_zero hne)
  omega

theorem segment_eq_of_lt (h : segment l s (n + 1) < radix ^ n) :
    segment l s n = segment l s (n + 1) := by
  rw [segment_succ, limbAt_eq_zero_of_segment_lt h, Nat.zero_mul, Nat.add_zero]

@[simp] theorem value_nil : value [] = 0 := rfl

theorem value_cons (x : UInt64) (l : List UInt64) : value (x :: l) = x.toNat + radix * value l := by
  unfold value
  rw [List.length_cons, segment_succ', limbAt_cons_zero]
  congr 2
  apply segment_congr
  intro i _
  rw [Nat.add_comm (0 + 1), limbAt_cons_succ, Nat.zero_add]

theorem value_append (l l' : List UInt64) :
    value (l ++ l') = value l + value l' * radix ^ l.length := by
  induction l with
  | nil => simp
  | cons x l ih =>
    rw [List.cons_append, value_cons, value_cons, ih, List.length_cons, pow_succ]
    ring

theorem value_lt (l : List UInt64) : value l < radix ^ l.length := segment_lt l 0 l.length

/-- Limbs beyond the end are zero. -/
theorem segment_of_length_le (h : l.length ≤ n) : segment l 0 n = value l := by
  obtain ⟨d, rfl⟩ := Nat.exists_eq_add_of_le h
  rw [segment_add, segment_of_le (n := d) fun i _ => limbAt_of_le (by omega)]
  simp [value]

/-- A limb read off the number. -/
theorem value_div_radix_pow (l : List UInt64) (k : ℕ) :
    value l / radix ^ k % radix = limbAt l k := by
  have hlow := segment_lt l 0 k
  have hsplit : value l = segment l 0 k +
      radix ^ k * (limbAt l k + radix * segment l (k + 1) l.length) := by
    rw [← segment_of_length_le (show l.length ≤ k + (l.length + 1) by omega), segment_add,
      Nat.zero_add, segment_succ', Nat.mul_comm]
  rw [hsplit, Nat.add_mul_div_left _ _ (Nat.pow_pos radix_pos), Nat.div_eq_of_lt hlow,
    Nat.zero_add, Nat.add_mul_mod_self_left, Nat.mod_eq_of_lt (limbAt_lt l k)]

theorem value_take (l : List UInt64) (n : ℕ) (h : n ≤ l.length) :
    value (l.take n) = segment l 0 n := by
  unfold value
  rw [List.length_take, Nat.min_eq_left h]
  apply segment_congr
  intro i hi
  rw [Nat.zero_add, limbAt_take hi]

/-- The limbs without the zeros on top. -/
def trimmed (l : List UInt64) : List UInt64 := l.rdropWhile (· == 0)

@[simp] theorem value_trimmed (l : List UInt64) : value (trimmed l) = value l := by
  induction l using List.reverseRecOn with
  | nil => rfl
  | append_singleton l x ih =>
    unfold trimmed at ih ⊢
    by_cases hx : x = 0
    · rw [List.rdropWhile_concat_pos _ _ _ (by simp [hx]), ih, value_append, hx]
      simp [value_cons]
    · rw [List.rdropWhile_concat_neg _ _ _ (by simp [hx])]

theorem getLast?_trimmed (l : List UInt64) : (trimmed l).getLast? ≠ some 0 := by
  induction l using List.reverseRecOn with
  | nil => simp [trimmed]
  | append_singleton l x ih =>
    unfold trimmed at ih ⊢
    by_cases hx : x = 0
    · rwa [List.rdropWhile_concat_pos _ _ _ (by simp [hx])]
    · rw [List.rdropWhile_concat_neg _ _ _ (by simp [hx])]
      simpa using hx

/-- A number whose top limb is not zero needs all its limbs. -/
theorem radix_pow_le_value (h : l.getLast? ≠ some 0) (hne : l ≠ []) :
    radix ^ (l.length - 1) ≤ value l := by
  induction l using List.reverseRecOn with
  | nil => exact absurd rfl hne
  | append_singleton l x ih =>
    have hx : x.toNat ≠ 0 := by
      intro h0
      exact h (by simp [UInt64.toNat_inj.mp (h0.trans UInt64.toNat_zero.symm)])
    have hle : radix ^ l.length ≤ x.toNat * radix ^ l.length :=
      Nat.le_mul_of_pos_left _ (Nat.pos_of_ne_zero hx)
    rw [value_append, value_cons]
    simp only [List.length_append, List.length_cons, List.length_nil, value_nil]
    simp only [Nat.mul_zero, Nat.add_zero, Nat.zero_add, Nat.add_sub_cancel]
    omega

/-- Limbs with nothing to trim are the only ones with their value. -/
theorem eq_of_value_eq (hl : l.getLast? ≠ some 0) (hl' : l'.getLast? ≠ some 0)
    (h : value l = value l') : l = l' := by
  induction l generalizing l' with
  | nil =>
    by_contra hne
    have hle := radix_pow_le_value hl' (Ne.symm hne)
    have hpos : 0 < radix ^ (l'.length - 1) := Nat.pow_pos radix_pos
    rw [value_nil] at h
    omega
  | cons x l ih =>
    cases l' with
    | nil =>
      have hle := radix_pow_le_value hl (List.cons_ne_nil x l)
      have hpos : 0 < radix ^ ((x :: l).length - 1) := Nat.pow_pos radix_pos
      rw [value_nil] at h
      omega
    | cons y l' =>
      rw [value_cons, value_cons] at h
      have hx := UInt64.toNat_lt x
      have hy := UInt64.toNat_lt y
      unfold radix at h
      have htail : value l = value l' := by omega
      have hhead : x = y := UInt64.toNat_inj.mp (by omega)
      rw [hhead, @ih l' ?_ ?_ htail]
      · intro h0
        cases l with
        | nil => cases h0
        | cons z l => exact hl (by simpa using h0)
      · intro h0
        cases l' with
        | nil => cases h0
        | cons z l' => exact hl' (by simpa using h0)

end Conclave.Lib
