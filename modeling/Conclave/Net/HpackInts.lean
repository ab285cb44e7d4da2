import Conclave.Net.HpackBlocks

/-! HPACK integers against the standard. A number below 2^32 is read exactly; of a larger one
the bits above are lost, and nothing tells. -/

namespace Conclave.Net.Hpack

open Lib

/-- The number in bytes of seven bits each, the low ones first. -/
def sevenBits : Bytes → ℕ
  | [] => 0
  | b :: w => b.toNat % 128 + 128 * sevenBits w

/-- The number that the bytes stand for (RFC 7541, 5.1), however large. -/
def intValue (prefixBits : ℕ) : Bytes → ℕ
  | [] => 0
  | b :: w => b.toNat % 2 ^ prefixBits + sevenBits w

/-- Every byte but the last says that one follows. -/
def Continued (w : Bytes) : Prop :=
  ∃ front last, w = front ++ [last] ∧ (∀ b ∈ front, 128 ≤ b.toNat) ∧ last.toNat < 128

/-- One integer: a prefix alone, or a full one and the bytes after it. -/
def IsInt (prefixBits : ℕ) (w : Bytes) : Prop :=
  ∃ b rest, w = b :: rest ∧
    if b.toNat % 2 ^ prefixBits < 2 ^ prefixBits - 1 then rest = [] else Continued rest

/-- No sum on the way is too large for 32 bits, nor a part of it. -/
def StepsFit : Bytes → ℕ → ℕ → Prop
  | [], value, _ => value < 2 ^ 32
  | b :: w, value, m => value + b.toNat % 128 * 2 ^ m < 2 ^ 32 ∧
      StepsFit w (value + b.toNat % 128 * 2 ^ m) (m + 7)

def IntFits (prefixBits : ℕ) : Bytes → Prop
  | [] => True
  | b :: w => StepsFit w (b.toNat % 2 ^ prefixBits) 0

variable {buf rest : Bytes} {value m v prefixBits : ℕ}

theorem stepsFit_iff (w : Bytes) (value m : ℕ) :
    StepsFit w value m ↔ value + sevenBits w * 2 ^ m < 2 ^ 32 := by
  induction w generalizing value m with
  | nil => simp [StepsFit, sevenBits]
  | cons b w ih =>
    have hsum : value + sevenBits (b :: w) * 2 ^ m =
        value + b.toNat % 128 * 2 ^ m + sevenBits w * 2 ^ (m + 7) := by
      rw [sevenBits, pow_add]
      ring
    rw [StepsFit, ih, hsum]
    omega

/-- What is read of the bytes after the prefix, up to a multiple of 2^32. -/
theorem decodeRem_some (h : decodeRem buf value m = some (v, rest)) :
    ∃ w, buf = w ++ rest ∧ Continued w ∧ v = (value + sevenBits w * 2 ^ m) % 2 ^ 32 := by
  induction buf generalizing value m with
  | nil => cases h
  | cons b buf ih =>
    unfold decodeRem at h
    dsimp only at h
    split_ifs at h with hlast hfar
    · obtain ⟨rfl, rfl⟩ := Prod.mk.inj (Option.some.inj h)
      refine ⟨[b], rfl, ⟨[], b, rfl, fun c hc => absurd hc List.not_mem_nil, hlast⟩, ?_⟩
      rw [Nat.add_mod_mod]
      rfl
    · obtain ⟨w, rfl, ⟨front, last, rfl, hfront, hlast'⟩, hv⟩ := ih h
      refine ⟨b :: (front ++ [last]), rfl, ⟨b :: front, last, rfl, ?_, hlast'⟩, ?_⟩
      · intro c hc
        obtain rfl | hc := List.mem_cons.mp hc
        · exact not_lt.mp hlast
        · exact hfront c hc
      · rw [hv, Nat.add_mod_mod, Nat.mod_add_mod, sevenBits, pow_add]
        congr 1
        ring

/-- An integer is read off the buffer, up to a multiple of 2^32. -/
theorem decodeInt_some (hbits : prefixBits ≤ 8)
    (h : hpackDecodeInt buf prefixBits = some (v, rest)) :
    ∃ w, buf = w ++ rest ∧ IsInt prefixBits w ∧ v = intValue prefixBits w % 2 ^ 32 := by
  cases buf with
  | nil => cases h
  | cons b buf =>
    have hpos := Nat.two_pow_pos prefixBits
    have hlow := Nat.mod_lt b.toNat hpos
    have hpow : 2 ^ prefixBits ≤ 2 ^ 8 := Nat.pow_le_pow_right (by norm_num) hbits
    unfold hpackDecodeInt at h
    dsimp only at h
    split_ifs at h with hsmall
    · obtain ⟨rfl, rfl⟩ := Prod.mk.inj (Option.some.inj h)
      refine ⟨[b], rfl, ⟨b, [], rfl, if_pos hsmall ▸ rfl⟩, ?_⟩
      rw [intValue, sevenBits, Nat.add_zero]
      exact (Nat.mod_eq_of_lt (by omega)).symm
    · obtain ⟨w, rfl, hw, hv⟩ := decodeRem_some h
      refine ⟨b :: w, rfl, ⟨b, w, rfl, by rwa [if_neg hsmall]⟩, ?_⟩
      rw [hv, pow_zero, Nat.mul_one]
      rfl

/-- The number read is the one that is meant, and no step has gone over, exactly when it is
below 2^32; and what is written is read back. -/
theorem integers_exact (prefixBits : ℕ) :
    (∀ buf v rest, 1 ≤ prefixBits → prefixBits ≤ 8 →
      hpackDecodeInt buf prefixBits = some (v, rest) →
      ∃ w, buf = w ++ rest ∧ IsInt prefixBits w ∧
        (v = intValue prefixBits w ∧ IntFits prefixBits w ↔ intValue prefixBits w < 2 ^ 32)) ∧
      ∀ value fb suffix, 1 ≤ prefixBits → prefixBits ≤ 8 →
        fb.toNat % 2 ^ prefixBits = 0 → value < 2 ^ 32 →
        hpackDecodeInt (encodeInt value prefixBits fb ++ suffix) prefixBits =
          some (value, suffix) := by
  constructor
  · intro buf v rest _ hbits h
    obtain ⟨w, hbuf, hint, hv⟩ := decodeInt_some hbits h
    refine ⟨w, hbuf, hint, ?_⟩
    obtain ⟨b, w, rfl, -⟩ := hint
    have hfits : IntFits prefixBits (b :: w) ↔ intValue prefixBits (b :: w) < 2 ^ 32 := by
      rw [IntFits, stepsFit_iff, pow_zero, Nat.mul_one, intValue]
    rw [hfits]
    constructor
    · exact And.right
    · intro hlt
      exact ⟨hv.trans (Nat.mod_eq_of_lt hlt), hlt⟩
  · intro value fb suffix _ hbits hfb hvalue
    exact (decodeInt_encodeInt prefixBits fb hbits hfb hvalue suffix).1

theorem integers_exact_sample :
    (∃ w, [0x1f, 0x9a, 0x0a, 0x2a] = w ++ [0x2a] ∧ IsInt 5 w ∧
      (1337 = intValue 5 w ∧ IntFits 5 w ↔ intValue 5 w < 2 ^ 32)) ∧
      hpackDecodeInt (encodeInt 1337 5 0x20 ++ [0x2a]) 5 = some (1337, [0x2a]) :=
  ⟨(integers_exact 5).1 [0x1f, 0x9a, 0x0a, 0x2a] 1337 [0x2a] (by decide) (by decide) (by decide),
    (integers_exact 5).2 1337 0x20 [0x2a] (by decide) (by decide) (by decide) (by decide)⟩

/-- Six bytes say 34359738398, and 30 is read. -/
theorem integers_wrap : ∃ buf prefixBits v rest, hpackDecodeInt buf prefixBits = some (v, rest) ∧
    ∀ w, buf = w ++ rest → v ≠ intValue prefixBits w := by
  refine ⟨[0x1f, 0xff, 0xff, 0xff, 0xff, 0x7f], 5, 30, [], by decide, fun w hw => ?_⟩
  rw [List.append_nil] at hw
  subst hw
  decide

end Conclave.Net.Hpack
