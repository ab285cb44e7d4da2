import Mathlib

/-! Bits as the coefficients of a polynomial over two elements, read in any ring of
characteristic two: addition is exclusive or, multiplication shifts and adds, and a
hash that adds a block and multiplies is the value of a polynomial. In the ring of
residues of a monic polynomial, so many bits as its degree are told apart. -/

namespace Conclave.Lib

section Ring

variable {R : Type*} [CommRing R] {x : R}

/-- The value at `x`, the constant coefficient first. -/
def bitsAt (x : R) (bits : List Bool) : R := bits.foldr (fun b v => (if b then 1 else 0) + x * v) 0

@[simp] theorem bitsAt_nil : bitsAt x [] = 0 := rfl

@[simp] theorem bitsAt_cons (b : Bool) (bits : List Bool) :
    bitsAt x (b :: bits) = (if b then 1 else 0) + x * bitsAt x bits := rfl

theorem bitsAt_append (a b : List Bool) :
    bitsAt x (a ++ b) = bitsAt x a + x ^ a.length * bitsAt x b := by
  induction a with
  | nil => simp
  | cons c a ih =>
    rw [List.cons_append, bitsAt_cons, bitsAt_cons, ih, List.length_cons, pow_succ]
    ring

theorem bitsAt_xor (h2 : (2 : R) = 0) {a b : List Bool} (hlen : a.length = b.length) :
    bitsAt x (List.zipWith xor a b) = bitsAt x a + bitsAt x b := by
  induction a generalizing b with
  | nil =>
    obtain rfl := List.eq_nil_of_length_eq_zero hlen.symm
    simp
  | cons c a ih =>
    obtain ⟨d, b, rfl⟩ := List.exists_cons_of_length_pos
      (show 0 < b.length by rw [← hlen]; exact Nat.succ_pos _)
    rw [List.zipWith_cons_cons, bitsAt_cons, bitsAt_cons, bitsAt_cons, ih (Nat.succ.inj hlen)]
    have hdigit : (if xor c d then (1 : R) else 0) = (if c then 1 else 0) + (if d then 1 else 0) := by
      cases c <;> cases d <;> simp
      linear_combination -h2
    rw [hdigit]
    ring

@[simp] theorem bitsAt_replicate_false (n : ℕ) : bitsAt x (List.replicate n false) = 0 := by
  induction n with
  | zero => rfl
  | succ n ih => rw [List.replicate_succ, bitsAt_cons, ih]; simp

theorem map_bitsAt {S : Type*} [CommRing S] (f : R →+* S) (bits : List Bool) :
    f (bitsAt x bits) = bitsAt (f x) bits := by
  induction bits with
  | nil => exact map_zero f
  | cons b bits ih =>
    rw [bitsAt_cons, bitsAt_cons, map_add, map_mul, ih]
    cases b <;> simp

/-! ### Multiplication and hashing -/

/-- Shift and add: every bit of the one factor adds what the other has become. -/
theorem shift_add {V : Type*} {value : V → R} {add : V → V → V} {shift : V → V}
    (hadd : ∀ z v, value (add z v) = value z + value v) (hshift : ∀ v, value (shift v) = x * value v)
    (bits : List Bool) (z v : V) :
    value (bits.foldl (fun s b => (if b then add s.1 s.2 else s.1, shift s.2)) (z, v)).1 =
      value z + bitsAt x bits * value v := by
  induction bits generalizing z v with
  | nil => simp
  | cons b bits ih =>
    rw [List.foldl_cons, ih, hshift, bitsAt_cons]
    cases b
    · simp only [Bool.false_eq_true, if_false]
      ring
    · simp only [if_true, hadd]
      ring

/-- Adding and multiplying in turn: the powers fall from the number of values to one. -/
theorem foldl_horner (h : R) (values : List R) (s : R) :
    values.foldl (fun s v => (s + v) * h) s = s * h ^ values.length +
      ∑ i : Fin values.length, values.get i * h ^ (values.length - i) := by
  induction values generalizing s with
  | nil => simp
  | cons v values ih =>
    have hsum : ∑ i : Fin (v :: values).length,
        (v :: values).get i * h ^ ((v :: values).length - i) =
        v * h ^ (values.length + 1) +
          ∑ i : Fin values.length, values.get i * h ^ (values.length - i) := by
      refine (Fin.sum_univ_succ (n := values.length) _).trans ?_
      simp
    rw [List.foldl_cons, ih, hsum, List.length_cons]
    ring

end Ring

/-! ### Residues of a polynomial -/

open Polynomial

theorem bitsAt_coeff (bits : List Bool) (i : ℕ) :
    (bitsAt (X : (ZMod 2)[X]) bits).coeff i = if bits.getD i false then 1 else 0 := by
  induction bits generalizing i with
  | nil => simp
  | cons b bits ih =>
    rw [bitsAt_cons, coeff_add]
    cases i with
    | zero => cases b <;> simp
    | succ i =>
      rw [coeff_X_mul, ih, List.getD_cons_succ]
      cases b <;> simp [coeff_one]

theorem bitsAt_degree_lt (bits : List Bool) :
    (bitsAt (X : (ZMod 2)[X]) bits).degree < bits.length := by
  rw [degree_lt_iff_coeff_zero]
  intro i hi
  rw [bitsAt_coeff, List.getD_eq_default _ _ hi]
  rfl

/-- As many bits as the degree are told apart by their residue. -/
theorem bitsAt_root_injective {P : (ZMod 2)[X]} (hP : P.Monic) {a b : List Bool}
    (ha : a.length = P.natDegree) (hb : b.length = P.natDegree)
    (h : bitsAt (AdjoinRoot.root P) a = bitsAt (AdjoinRoot.root P) b) : a = b := by
  have hmk : ∀ bits, bitsAt (AdjoinRoot.root P) bits = AdjoinRoot.mk P (bitsAt X bits) := by
    intro bits
    rw [map_bitsAt, AdjoinRoot.mk_X]
  have hdegree : ∀ bits : List Bool, bits.length = P.natDegree →
      (bitsAt (X : (ZMod 2)[X]) bits).degree < P.degree := by
    intro bits hlen
    rw [degree_eq_natDegree hP.ne_zero, ← hlen]
    exact bitsAt_degree_lt bits
  rw [hmk, hmk, AdjoinRoot.mk_eq_mk] at h
  have hzero := eq_zero_of_dvd_of_degree_lt h
    ((degree_sub_le _ _).trans_lt (max_lt (hdegree a ha) (hdegree b hb)))
  apply List.ext_getElem (ha.trans hb.symm)
  intro i hi hi'
  have hcoeff := congrArg (fun p => p.coeff i) (sub_eq_zero.mp hzero)
  simp only [bitsAt_coeff, List.getD_eq_getElem _ _ hi, List.getD_eq_getElem _ _ hi'] at hcoeff
  cases hai : a[i] <;> cases hbi : b[i] <;> simp_all

end Conclave.Lib
