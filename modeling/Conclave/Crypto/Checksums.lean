import Conclave.Lib.Bytes
import Mathlib

/-! CRC-32 through a table of bytes, and Adler-32 with sums that are reduced once in a chunk.
Both are those of their definitions, however the data is cut. -/

namespace Conclave.Crypto

open Conclave.Lib

/-! ### CRC-32 -/

/-- The polynomial, its bits reversed. -/
def crc32Poly : ℕ := 0xEDB88320

def crcShift (c : ℕ) : ℕ := if c % 2 = 1 then crc32Poly ^^^ (c / 2) else c / 2

/-- The table's entry for a byte. -/
def crc32Table (i : ℕ) : ℕ := crcShift^[8] i

namespace Crc32

def new : ℕ := 0xFFFFFFFF

def update (state : ℕ) (data : Bytes) : ℕ :=
  data.foldl (fun c b => crc32Table ((c ^^^ b.toNat) % 2 ^ 8) ^^^ (c / 2 ^ 8)) state

def finalize (state : ℕ) : ℕ := state ^^^ 0xFFFFFFFF

end Crc32

/-- A bit goes into the register. -/
def crcBit (c : ℕ) (bit : Bool) : ℕ :=
  if (c + bit.toNat) % 2 = 1 then crc32Poly ^^^ (c / 2) else c / 2

/-- The bits of a byte, the lowest first. -/
def lowBits : ℕ → ℕ → List Bool
  | 0, _ => []
  | k + 1, b => (b % 2 = 1) :: lowBits k (b / 2)

theorem crcShift_xor (u v : ℕ) : crcShift (u ^^^ v) = crcShift u ^^^ crcShift v := by
  have hdiv : (u ^^^ v) / 2 = u / 2 ^^^ v / 2 := Nat.xor_div_two
  have hmod : (u ^^^ v) % 2 = (u + v) % 2 := Nat.xor_mod_two_eq
  have hsum := Nat.add_mod u v 2
  unfold crcShift
  rw [hdiv, hmod]
  rcases Nat.mod_two_eq_zero_or_one u with hu | hu <;>
    rcases Nat.mod_two_eq_zero_or_one v with hv | hv <;> rw [hu, hv] at hsum <;> rw [hsum, hu, hv]
  · rfl
  · exact Nat.xor_left_comm ..
  · exact (Nat.xor_assoc ..).symm
  · calc u / 2 ^^^ v / 2
        = crc32Poly ^^^ crc32Poly ^^^ (u / 2 ^^^ v / 2) := by rw [Nat.xor_self, Nat.zero_xor]
      _ = (crc32Poly ^^^ u / 2) ^^^ (crc32Poly ^^^ v / 2) := by
        rw [Nat.xor_assoc, Nat.xor_assoc, Nat.xor_left_comm (u / 2)]

theorem crcShift_iterate_xor (k u v : ℕ) :
    crcShift^[k] (u ^^^ v) = crcShift^[k] u ^^^ crcShift^[k] v := by
  induction k generalizing u v with
  | zero => rfl
  | succ k ih => rw [Function.iterate_succ_apply, Function.iterate_succ_apply,
      Function.iterate_succ_apply, crcShift_xor, ih]

/-- What is above the bits that leave comes down as it is. -/
theorem crcShift_iterate_add (k q : ℕ) {r : ℕ} (hr : r < 2 ^ k) :
    crcShift^[k] (2 ^ k * q + r) = crcShift^[k] r ^^^ q := by
  induction k generalizing r with
  | zero =>
    obtain rfl := Nat.lt_one_iff.mp hr
    rw [Function.iterate_zero, id_eq, id_eq, pow_zero, one_mul, add_zero, Nat.zero_xor]
  | succ k ih =>
    have hhalf : r / 2 < 2 ^ k := by omega
    have hmod : (2 ^ (k + 1) * q + r) % 2 = r % 2 := by
      rw [pow_succ', mul_assoc, Nat.mul_add_mod]
    have hdiv : (2 ^ (k + 1) * q + r) / 2 = 2 ^ k * q + r / 2 := by
      rw [pow_succ', mul_assoc, Nat.mul_add_div (by norm_num)]
    rw [Function.iterate_succ_apply, Function.iterate_succ_apply, crcShift, crcShift, hmod, hdiv]
    split_ifs
    · rw [crcShift_iterate_xor, ih hhalf, crcShift_iterate_xor, Nat.xor_assoc]
    · exact ih hhalf

/-- A byte through the table is its eight bits one by one. -/
theorem crc32Table_byte (c : ℕ) (b : UInt8) :
    crc32Table ((c ^^^ b.toNat) % 2 ^ 8) ^^^ (c / 2 ^ 8) = crcShift^[8] (c ^^^ b.toNat) := by
  have hhigh : (c ^^^ b.toNat) / 2 ^ 8 = c / 2 ^ 8 := by
    rw [Nat.xor_div_two_pow, Nat.div_eq_of_lt b.toNat_lt, Nat.xor_zero]
  conv_rhs => rw [← Nat.div_add_mod (c ^^^ b.toNat) (2 ^ 8), hhigh,
    crcShift_iterate_add 8 _ (Nat.mod_lt _ (by norm_num))]
  rfl

theorem foldl_lowBits (k c b : ℕ) (hb : b < 2 ^ k) :
    (lowBits k b).foldl crcBit c = crcShift^[k] (c ^^^ b) := by
  induction k generalizing c b with
  | zero =>
    obtain rfl := Nat.lt_one_iff.mp hb
    rw [Nat.xor_zero]
    rfl
  | succ k ih =>
    have hbit : crcBit c (b % 2 = 1) ^^^ (b / 2) = crcShift (c ^^^ b) := by
      have hdiv : (c ^^^ b) / 2 = c / 2 ^^^ b / 2 := Nat.xor_div_two
      have hmod : (c ^^^ b) % 2 = (c + b) % 2 := Nat.xor_mod_two_eq
      have hsum : (c + (decide (b % 2 = 1)).toNat) % 2 = (c + b) % 2 := by
        rcases Nat.mod_two_eq_zero_or_one b with h | h
        · rw [decide_eq_false (by omega), Bool.toNat_false]
          omega
        · rw [decide_eq_true h, Bool.toNat_true]
          omega
      rw [crcBit, crcShift, hdiv, hmod, hsum]
      split_ifs
      · rw [Nat.xor_assoc]
      · rfl
    rw [lowBits, List.foldl_cons, ih _ _ (by omega), Function.iterate_succ_apply, hbit]

/-- The table takes the bytes as the register takes their bits. -/
theorem Crc32.update_bits (c : ℕ) (data : Bytes) :
    Crc32.update c data = (data.flatMap fun b => lowBits 8 b.toNat).foldl crcBit c := by
  induction data generalizing c with
  | nil => rfl
  | cons b data ih =>
    rw [Crc32.update, List.foldl_cons, crc32Table_byte, ← foldl_lowBits 8 c _ b.toNat_lt,
      List.flatMap_cons, List.foldl_append]
    exact ih _

theorem Crc32.foldl_update (pieces : List Bytes) (c : ℕ) :
    pieces.foldl Crc32.update c = Crc32.update c pieces.flatten := by
  induction pieces generalizing c with
  | nil => rfl
  | cons piece pieces ih =>
    rw [List.foldl_cons, ih, List.flatten_cons, Crc32.update, Crc32.update, Crc32.update,
      List.foldl_append]

/-! ### Adler-32 -/

structure Adler32 where
  a : ℕ
  b : ℕ

namespace Adler32

def new : Adler32 := ⟨1, 0⟩

/-- The sums of 32 bits take a byte. -/
def add (h : Adler32) (x : UInt8) : Adler32 :=
  let a := (h.a + x.toNat) % 2 ^ 32
  ⟨a, (h.b + a) % 2 ^ 32⟩

def chunk (h : Adler32) (data : Bytes) : Adler32 :=
  let s := data.foldl add h
  ⟨s.a % 65521, s.b % 65521⟩

def update (h : Adler32) (data : Bytes) : Adler32 :=
  if data = [] then h else update (h.chunk (data.take 5552)) (data.drop 5552)
termination_by data.length
decreasing_by
  have := List.length_pos_iff.mpr ‹data ≠ []›
  rw [List.length_drop]
  omega

def finalize (h : Adler32) : ℕ := h.b * 2 ^ 16 % 2 ^ 32 ||| h.a

end Adler32

/-- The sums as they are defined, of any size. -/
def adlerSums (s : ℕ × ℕ) (data : Bytes) : ℕ × ℕ :=
  data.foldl (fun s x => (s.1 + x.toNat, s.2 + (s.1 + x.toNat))) s

theorem adlerSums_append (s : ℕ × ℕ) (data rest : Bytes) :
    adlerSums s (data ++ rest) = adlerSums (adlerSums s data) rest := List.foldl_append

/-- The sums after `i` bytes of a chunk. -/
def AdlerBound (i : ℕ) (h : Adler32) : Prop :=
  h.a ≤ 65520 + 255 * i ∧ 2 * h.b ≤ 131040 * (i + 1) + 255 * (i * (i + 1))

/-- No sum overflows in a chunk. -/
theorem Adler32.foldl_add {i : ℕ} {h : Adler32} {data : Bytes} (hb : AdlerBound i h)
    (hlen : i + data.length ≤ 5552) :
    data.foldl Adler32.add h = ⟨(adlerSums (h.a, h.b) data).1, (adlerSums (h.a, h.b) data).2⟩ := by
  induction data generalizing i h with
  | nil => rfl
  | cons x data ih =>
    rw [List.length_cons] at hlen
    have hx := x.toNat_lt
    have hsq : (i + 1) * (i + 1 + 1) = i * (i + 1) + 2 * (i + 1) := by ring
    have htop : (i + 1) * (i + 1 + 1) ≤ 5552 * 5553 := Nat.mul_le_mul (by omega) (by omega)
    obtain ⟨ha, hb⟩ := hb
    have hadd : h.add x = ⟨h.a + x.toNat, h.b + (h.a + x.toNat)⟩ := by
      rw [Adler32.add, Nat.mod_eq_of_lt (by omega), Nat.mod_eq_of_lt (by omega)]
    have hnext : AdlerBound (i + 1) (h.add x) := by
      rw [hadd]
      constructor <;> dsimp only <;> omega
    rw [List.foldl_cons, ih hnext (by omega), hadd]
    rfl

/-- The sums are the same up to the modulus from equal starts. -/
theorem adlerSums_modEq {s s' : ℕ × ℕ} (h₁ : s.1 ≡ s'.1 [MOD 65521]) (h₂ : s.2 ≡ s'.2 [MOD 65521])
    (data : Bytes) : (adlerSums s data).1 ≡ (adlerSums s' data).1 [MOD 65521] ∧
      (adlerSums s data).2 ≡ (adlerSums s' data).2 [MOD 65521] := by
  induction data generalizing s s' with
  | nil => exact ⟨h₁, h₂⟩
  | cons x data ih =>
    have ha := h₁.add_right x.toNat
    exact ih ha (h₂.add ha)

theorem Adler32.update_sums {h : Adler32} {s : ℕ × ℕ} (ha : h.a = s.1 % 65521) (hb : h.b = s.2 % 65521)
    (data : Bytes) : (h.update data).a = (adlerSums s data).1 % 65521 ∧
      (h.update data).b = (adlerSums s data).2 % 65521 := by
  induction hlen : data.length using Nat.strong_induction_on generalizing h s data with
  | h n ih =>
    rw [Adler32.update]
    split_ifs with hnil
    · rw [hnil]
      exact ⟨ha, hb⟩
    · have hpos := List.length_pos_iff.mpr hnil
      have hbound : AdlerBound 0 h := by
        constructor <;> omega
      have hfold := @Adler32.foldl_add 0 h (data.take 5552) hbound (by rw [List.length_take]; omega)
      obtain ⟨h₁, h₂⟩ := @adlerSums_modEq (h.a, h.b) s (by rw [ha]; exact Nat.mod_modEq _ _)
        (by rw [hb]; exact Nat.mod_modEq _ _) (data.take 5552)
      have hrest := @ih (data.length - 5552) (by omega) (h.chunk (data.take 5552))
        (adlerSums s (data.take 5552)) (by rw [Adler32.chunk, hfold]; exact h₁)
        (by rw [Adler32.chunk, hfold]; exact h₂) (data.drop 5552) (List.length_drop ..)
      rwa [← adlerSums_append, List.take_append_drop] at hrest

theorem Adler32.foldl_update_sums (pieces : List Bytes) {h : Adler32} {s : ℕ × ℕ} (ha : h.a = s.1 % 65521)
    (hb : h.b = s.2 % 65521) :
    (pieces.foldl Adler32.update h).a = (adlerSums s pieces.flatten).1 % 65521 ∧
      (pieces.foldl Adler32.update h).b = (adlerSums s pieces.flatten).2 % 65521 := by
  induction pieces generalizing h s with
  | nil => exact ⟨ha, hb⟩
  | cons piece pieces ih =>
    obtain ⟨ha', hb'⟩ := Adler32.update_sums ha hb piece
    rw [List.foldl_cons, List.flatten_cons, adlerSums_append]
    exact ih ha' hb'

/-- The table stands for eight steps of one bit, and the deferred reductions for sums of any
size: both checksums of data in pieces are those of the whole by definition. -/
theorem checksums_exact (pieces : List Bytes) :
    Crc32.finalize (pieces.foldl Crc32.update Crc32.new) =
      (pieces.flatten.flatMap fun b => lowBits 8 b.toNat).foldl crcBit 0xFFFFFFFF ^^^ 0xFFFFFFFF ∧
    (pieces.foldl Adler32.update Adler32.new).finalize =
      (adlerSums (1, 0) pieces.flatten).2 % 65521 * 2 ^ 16 +
        (adlerSums (1, 0) pieces.flatten).1 % 65521 := by
  constructor
  · rw [Crc32.foldl_update, Crc32.update_bits]
    rfl
  · obtain ⟨ha, hb⟩ := @Adler32.foldl_update_sums pieces .new (1, 0) rfl rfl
    have hlt : (adlerSums (1, 0) pieces.flatten).1 % 65521 < 2 ^ 16 :=
      (Nat.mod_lt _ (by norm_num)).trans (by norm_num)
    have hhigh : (adlerSums (1, 0) pieces.flatten).2 % 65521 * 2 ^ 16 < 2 ^ 32 := by
      have := Nat.mod_lt (adlerSums (1, 0) pieces.flatten).2 (show 0 < 65521 by norm_num)
      omega
    rw [Adler32.finalize, ha, hb, Nat.mod_eq_of_lt hhigh, mul_comm,
      Nat.two_pow_add_eq_or_of_lt hlt]

end Conclave.Crypto
