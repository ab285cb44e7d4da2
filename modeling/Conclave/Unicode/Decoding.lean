import Conclave.Unicode.Encoding

/-! The legacy decoders against those of the Encoding Standard. -/

namespace Conclave.Unicode

open Lib Encodings Decoder

/-! ### Characters -/

theorem charFromU32_valid {n : ℕ} (h : n.isValidChar) : charFromU32 n = some (Char.ofNat n) :=
  if_pos h

theorem charOrReplacement_valid {n : ℕ} (h : n.isValidChar) :
    charOrReplacement n = Char.ofNat n := by
  rw [charOrReplacement, charFromU32_valid h]
  rfl

theorem between_iff {low high : ℕ} {b : UInt8} :
    between low high b ↔ low ≤ b.toNat ∧ b.toNat ≤ high := by
  simp [between]

theorem ascii_iff {b : UInt8} : ascii b ↔ b < 0x80 := by
  rw [UInt8.lt_iff_toNat_lt]
  exact decide_eq_true_iff

theorem charOrReplacement_katakana {b : UInt8} (h : between 0xA1 0xDF b) :
    charOrReplacement (0xFF61 - 0xA1 + b.toNat) = katakana b := by
  have hb := between_iff.mp h
  exact charOrReplacement_valid (.inr ⟨by omega, by omega⟩)

theorem stepBack_eq (b : UInt8) : stepBack b = putBack b := by
  unfold stepBack putBack
  simp only [ascii_iff]

/-! ### Single bytes -/

theorem decodeSingleByte_eq (bytes : Bytes) (table : Table) :
    decodeSingleByte bytes table = (singleByte (indexCodePoint table)).decode bytes := by
  induction bytes with
  | nil => exact (run_nil (singleByte (indexCodePoint table)) ()).symm
  | cons b bytes ih =>
    have hchar : (singleByte (indexCodePoint table)).run () (b :: bytes) =
        (if ascii b then [Char.ofNat b.toNat]
          else orReplacement (indexCodePoint table (b.toNat - 0x80))) ++
          (singleByte (indexCodePoint table)).run () bytes := run_cons _ _ _ _
    show _ = (singleByte (indexCodePoint table)).run () (b :: bytes)
    rw [hchar]
    have hrest : (singleByte (indexCodePoint table)).run () bytes = decodeSingleByte bytes table :=
      ih.symm
    rw [hrest]
    simp only [decodeSingleByte, List.map_cons, ascii_iff, indexCodePoint, charOrReplacement,
      orReplacement]
    split_ifs <;> rfl

/-! ### Lead bytes -/

section Lead

variable {single : UInt8 → Option Char} {isLead : UInt8 → Bool}
  {pair : UInt8 → UInt8 → Option Text}

/-- Zero for no lead byte. -/
def leadOf (lead : UInt8) : Option UInt8 := if lead = 0 then none else some lead

theorem leadOf_of_ne {lead : UInt8} (h : lead ≠ 0) : leadOf lead = some lead := if_neg h

theorem leadNext_matches (hzero : isLead 0 = false) (lead b : UInt8) :
    Matches (fun lead lead' => lead' = leadOf lead) (leadNext single isLead pair lead b)
      (twoByteNext single isLead pair (leadOf lead) b) := by
  by_cases h : lead = 0
  · subst h
    cases hsingle : single b with
    | some c =>
      simp only [leadNext, twoByteNext, leadOf, ne_eq, not_true_eq_false, if_false, if_true, hsingle]
      exact ⟨rfl, rfl, rfl⟩
    | none =>
      simp only [leadNext, twoByteNext, leadOf, ne_eq, not_true_eq_false, if_false, if_true, hsingle]
      split
      · next hlead =>
        have hb : b ≠ 0 := by
          rintro rfl
          exact absurd (hzero.symm.trans hlead) Bool.false_ne_true
        exact ⟨rfl, rfl, (if_neg hb).symm⟩
      · exact ⟨rfl, rfl, rfl⟩
  · rw [leadOf_of_ne h]
    cases hpair : pair lead b with
    | some text =>
      simp only [leadNext, twoByteNext, ne_eq, h, not_false_eq_true, if_true, hpair]
      exact ⟨rfl, rfl, rfl⟩
    | none =>
      simp only [leadNext, twoByteNext, ne_eq, h, not_false_eq_true, if_true, hpair]
      exact ⟨rfl, stepBack_eq b, rfl⟩

theorem atEnd_lead (lead : UInt8) : (if lead ≠ 0 then [replacement] else []) =
    if (leadOf lead).isSome then [replacement] else [] := by
  by_cases h : lead = 0
  · simp [leadOf, h]
  · simp [leadOf_of_ne h, h]

theorem leadDecoder_simulates (hzero : isLead 0 = false) :
    Simulates (leadDecoder single isLead pair) (twoByte single isLead pair)
      (fun lead lead' => lead' = leadOf lead) fun _ _ => True where
  start := rfl
  atEnd lead _ h := h ▸ atEnd_lead lead
  next lead _ b h _ := h ▸ leadNext_matches hzero lead b

theorem leadDecoder_decode (hzero : isLead 0 = false) (bytes : Bytes) :
    (leadDecoder single isLead pair).decode bytes = (twoByte single isLead pair).decode bytes :=
  (leadDecoder_simulates hzero).run_eq rfl (meets_of_forall (fun _ _ => trivial) _ _)

end Lead

theorem asciiByte_eq : asciiByte = asciiChar := by
  funext b
  simp only [asciiByte, asciiChar, ascii_iff]

theorem decodeShiftJis_eq (table : Table) (bytes : Bytes) :
    (decodeShiftJis table).decode bytes = (shiftJis (indexCodePoint table)).decode bytes := by
  refine Eq.trans (congrArg (fun d : Decoder UInt8 => d.decode bytes) ?_)
    (leadDecoder_decode rfl bytes)
  unfold decodeShiftJis
  congr 1
  · funext b
    simp only [ascii_iff, Bool.or_eq_true, beq_iff_eq]
    split_ifs with h₁ h₂
    · rfl
    · rw [charOrReplacement_katakana h₂]
    · rfl
  · funext b
    simp
  · funext lead b
    simp only [Bool.or_eq_true]
    generalize (lead.toNat - if lead < 0xA0 then 0x81 else 0xC1) * 188 + b.toNat -
      (if b < 0x7F then 0x40 else 0x41) = p
    split_ifs with hbyte hrange
    · rw [charOrReplacement_valid (.inr ⟨by omega, by omega⟩)]
    · rfl
    · rfl

theorem decodeEucKr_eq (table : Table) (bytes : Bytes) :
    (decodeEucKr table).decode bytes = (eucKr (indexCodePoint table)).decode bytes := by
  have hpair : decodeEucKr table = leadDecoder asciiChar (between 0x81 0xFE) fun lead b =>
      if between 0x41 0xFE b then
        (indexCodePoint table ((lead.toNat - 0x81) * 190 + (b.toNat - 0x41))).map fun c => [c]
      else none := by
    unfold decodeEucKr
    rw [asciiByte_eq]
    congr 1
    funext lead b
    split
    · next h => rw [Nat.add_sub_assoc (between_iff.mp h).1]
    · rfl
  rw [hpair]
  exact leadDecoder_decode rfl bytes

/-- The offset of a second byte in the two ranges of an encoding. -/
theorem offset_le {low high offset : ℕ} {b : UInt8} (hlow : 0x40 ≤ low) (hoffset : offset ≤ low)
    (h : between 0x40 0x7E b ∨ between low high b) :
    (if b < 0x7F then 0x40 else offset) ≤ b.toNat := by
  simp only [between_iff] at h
  split
  · omega
  · next hb =>
    rw [UInt8.lt_iff_toNat_lt] at hb
    have hvalue : (0x7F : UInt8).toNat = 0x7F := rfl
    omega

theorem decodeBig5_eq (table : Table) (bytes : Bytes) :
    (decodeBig5 table).decode bytes = (big5 (indexCodePoint table)).decode bytes := by
  refine Eq.trans (congrArg (fun d : Decoder UInt8 => d.decode bytes) ?_)
    (leadDecoder_decode rfl bytes)
  unfold decodeBig5
  rw [asciiByte_eq]
  congr 1
  funext lead b
  simp only [Bool.or_eq_true]
  split
  · next hrange =>
    rw [Nat.add_sub_assoc (offset_le (by decide) (by decide) hrange)]
    generalize (lead.toNat - 0x81) * 157 + (b.toNat - if b < 0x7F then 0x40 else 0x62) = p
    unfold big5Pair
    split <;> simp
  · rfl

/-! ### EUC-JP -/

section EucJp

variable (jis0208 : Table) (jis0212 : Index)

/-- The byte does not end a character of three bytes that the index has. -/
def Untabled (s : EucJpLoop) (byte : UInt8) : Prop :=
  s.jis0212 → between 0xA1 0xFE s.lead → between 0xA1 0xFE byte →
    jis0212 ((s.lead.toNat - 0xA1) * 94 + byte.toNat - 0xA1) = none

def eucJpState (s : EucJpLoop) : EucJpState := ⟨leadOf s.lead, s.jis0212⟩

theorem putBack_between {low : ℕ} {b : UInt8} (hlow : 0x80 ≤ low) {high : ℕ}
    (h : between low high b) : putBack b = [] := by
  have hb := between_iff.mp h
  unfold putBack
  rw [if_neg]
  intro hascii
  have hlt : b.toNat < 0x80 := of_decide_eq_true hascii
  omega

theorem leadOf_eq_some {lead b : UInt8} (hb : b ≠ 0) : leadOf lead = some b ↔ lead = b := by
  unfold leadOf
  split
  · next h => simp [h, hb.symm]
  · simp

theorem eucJpCodePoint_eq {s : EucJpLoop} {b : UInt8} (hok : Untabled jis0212 s b)
    (hlead : between 0xA1 0xFE s.lead) (hb : between 0xA1 0xFE b) :
    Encodings.eucJpCodePoint (indexCodePoint jis0208) jis0212 s.jis0212 s.lead b =
      eucJpCodePoint jis0208 s b := by
  unfold Encodings.eucJpCodePoint eucJpCodePoint
  rw [if_pos (by rw [hlead, hb]; rfl)]
  cases hthree : s.jis0212 with
  | true => exact hok hthree hlead hb
  | false => rfl

theorem eucJpNext_matches (s : EucJpLoop) (b : UInt8) (hok : Untabled jis0212 s b) :
    Matches (fun s t => t = eucJpState s) (eucJpNext jis0208 s b)
      (Encodings.eucJpNext (indexCodePoint jis0208) jis0212 (eucJpState s) b) := by
  unfold eucJpNext Encodings.eucJpNext eucJpState
  simp only [leadOf_eq_some (show (0x8E : UInt8) ≠ 0 by decide),
    leadOf_eq_some (show (0x8F : UInt8) ≠ 0 by decide)]
  split
  · next h => exact ⟨by rw [charOrReplacement_katakana h.2], rfl, rfl⟩
  · split
    · next h =>
      have hb : b ≠ 0 := by
        rintro rfl
        exact absurd h.2 (by decide)
      exact ⟨rfl, rfl, by rw [leadOf_of_ne hb]⟩
    · by_cases hlead : s.lead = 0
      · rw [if_neg (not_not.mpr hlead), hlead]
        simp only [leadOf, if_true, ascii_iff, Bool.or_eq_true, beq_iff_eq, or_assoc]
        split
        · exact ⟨rfl, rfl, by rw [hlead]; rfl⟩
        · split
          · next hb =>
            have hne : b ≠ 0 := by
              rintro rfl
              exact absurd hb (by decide)
            exact ⟨rfl, rfl, by rw [if_neg hne]⟩
          · exact ⟨rfl, rfl, by rw [hlead]; rfl⟩
      · rw [if_pos hlead, leadOf_of_ne hlead]
        split
        · next hboth =>
          simp only [eucJpCodePoint_eq jis0208 jis0212 hok hboth.1 hboth.2]
          cases eucJpCodePoint jis0208 s b with
          | some c => exact ⟨rfl, rfl, rfl⟩
          | none => exact ⟨rfl, (putBack_between (by decide) hboth.2).symm, rfl⟩
        · next hnot =>
          have hnone : Encodings.eucJpCodePoint (indexCodePoint jis0208) jis0212 s.jis0212 s.lead b =
              none := by
            unfold Encodings.eucJpCodePoint
            rw [if_neg]
            rwa [Bool.and_eq_true]
          simp only [hnone]
          exact ⟨rfl, stepBack_eq b, rfl⟩

theorem decodeEucJp_simulates :
    Simulates (decodeEucJp jis0208) (eucJp (indexCodePoint jis0208) jis0212)
      (fun s t => t = eucJpState s) (Untabled jis0212) where
  start := rfl
  atEnd s _ h := h ▸ atEnd_lead s.lead
  next s _ b h hok := h ▸ eucJpNext_matches jis0208 jis0212 s b hok

/-- Where the index has a character, the texts part. -/
theorem eucJpNext_of_tabled (hindex : ∀ p, jis0212 p ≠ some replacement) {s : EucJpLoop}
    {b : UInt8} (hok : ¬ Untabled jis0212 s b) (text text' : Text) :
    (eucJpNext jis0208 s b).out ++ text ≠
      (Encodings.eucJpNext (indexCodePoint jis0208) jis0212 (eucJpState s) b).out ++ text' := by
  unfold Untabled at hok
  push Not at hok
  obtain ⟨hthree, hlead, hb, hsome⟩ := hok
  obtain ⟨c, hc⟩ := Option.ne_none_iff_exists'.mp hsome
  have hne : s.lead ≠ 0 := by
    intro h
    exact absurd (h ▸ hlead) (by decide)
  have h8E : s.lead ≠ 0x8E := by
    intro h
    exact absurd (h ▸ hlead) (by decide)
  have h8F : s.lead ≠ 0x8F := by
    intro h
    exact absurd (h ▸ hlead) (by decide)
  have hcode : (eucJpNext jis0208 s b).out = [replacement] := by
    simp [eucJpNext, h8E, h8F, hne, hlead, hb, eucJpCodePoint, hthree]
  have hstandard : (Encodings.eucJpNext (indexCodePoint jis0208) jis0212 (eucJpState s) b).out =
      [c] := by
    simp [Encodings.eucJpNext, eucJpState, leadOf_of_ne hne, h8E, h8F, Encodings.eucJpCodePoint,
      hlead, hb, hthree, hc]
  rw [hcode, hstandard]
  intro heq
  exact hindex _ (hc.trans (congrArg some (List.cons.inj heq).1.symm))

theorem decodeEucJp_iff (hindex : ∀ p, jis0212 p ≠ some replacement) (bytes : Bytes) :
    (decodeEucJp jis0208).decode bytes = (eucJp (indexCodePoint jis0208) jis0212).decode bytes ↔
      (decodeEucJp jis0208).Meets (Untabled jis0212) (decodeEucJp jis0208).start bytes := by
  have hsim := decodeEucJp_simulates jis0208 jis0212
  constructor
  · exact hsim.meets_of_run_eq (fun s t b h hnot => h ▸ eucJpNext_of_tabled _ _ hindex hnot) rfl
  · exact hsim.run_eq rfl

end EucJp

end Conclave.Unicode
