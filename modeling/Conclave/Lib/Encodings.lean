import Conclave.Lib.Decoder
import Conclave.Lib.Utf8

/-! The decoders of the Encoding Standard in its replacement mode, over indexes that are
given. -/

namespace Conclave.Lib.Encodings

/-- The code point for a pointer. -/
abbrev Index := ℕ → Option Char

def ascii (b : UInt8) : Bool := b.toNat < 0x80

def between (low high : ℕ) (b : UInt8) : Bool := low ≤ b.toNat && b.toNat ≤ high

/-- A code point that is a character. -/
def charFromU32 (n : ℕ) : Option Char := if n.isValidChar then some (Char.ofNat n) else none

def orReplacement (c : Option Char) : Text := [c.getD replacement]

/-- The decoder of an encoding with one byte a character. -/
def singleByte (index : Index) : Decoder Unit where
  start := ()
  next _ b :=
    { out := if ascii b then [Char.ofNat b.toNat] else orReplacement (index (b.toNat - 0x80))
      state := () }
  atEnd _ := []
  held _ := 0
  shrinks _ _ := Nat.zero_lt_succ 4

/-! ### Lead bytes -/

def heldLead (lead : Option UInt8) : ℕ := if lead.isSome then 1 else 0

/-- An ASCII byte that no lead byte takes is put back. -/
def putBack (b : UInt8) : Bytes := if ascii b then [b] else []

theorem putBack_length_le (b : UInt8) : (putBack b).length ≤ 1 := by
  unfold putBack
  split <;> simp

def twoByteNext (single : UInt8 → Option Char) (isLead : UInt8 → Bool)
    (pair : UInt8 → UInt8 → Option Text) : Option UInt8 → UInt8 → Reading (Option UInt8)
  | some lead, b =>
    match pair lead b with
    | some text => { out := text, state := none }
    | none => { out := [replacement], state := none, restored := putBack b }
  | none, b =>
    match single b with
    | some c => { out := [c], state := none }
    | none =>
      if isLead b then { out := [], state := some b } else { out := [replacement], state := none }

/-- The decoders with at most one lead byte. -/
def twoByte (single : UInt8 → Option Char) (isLead : UInt8 → Bool)
    (pair : UInt8 → UInt8 → Option Text) : Decoder (Option UInt8) where
  start := none
  next := twoByteNext single isLead pair
  atEnd lead := if lead.isSome then [replacement] else []
  held := heldLead
  shrinks lead b := by
    have hback := putBack_length_le b
    unfold twoByteNext
    cases lead with
    | some lead =>
      dsimp only
      split
      · simp [heldLead]
      · simp only [heldLead, Option.isSome_none, Option.isSome_some, if_true, Bool.false_eq_true, if_false]
        omega
    | none =>
      dsimp only
      split
      · simp [heldLead]
      · split <;> simp [heldLead]

def asciiChar (b : UInt8) : Option Char := if ascii b then some (Char.ofNat b.toNat) else none

def katakana (b : UInt8) : Char := Char.ofNat (0xFF61 - 0xA1 + b.toNat)

def shiftJis (jis0208 : Index) : Decoder (Option UInt8) :=
  twoByte
    (fun b =>
      if ascii b || b == 0x80 then some (Char.ofNat b.toNat)
      else if between 0xA1 0xDF b then some (katakana b)
      else none)
    (fun b => between 0x81 0x9F b || between 0xE0 0xFC b)
    fun lead b =>
      if between 0x40 0x7E b || between 0x80 0xFC b then
        let offset := if b < 0x7F then 0x40 else 0x41
        let leadOffset := if lead < 0xA0 then 0x81 else 0xC1
        let pointer := (lead.toNat - leadOffset) * 188 + b.toNat - offset
        if 8836 ≤ pointer ∧ pointer ≤ 10715 then some [Char.ofNat (0xE000 - 8836 + pointer)]
        else (jis0208 pointer).map fun c => [c]
      else none

def eucKr (index : Index) : Decoder (Option UInt8) :=
  twoByte asciiChar (between 0x81 0xFE) fun lead b =>
    if between 0x41 0xFE b then
      (index ((lead.toNat - 0x81) * 190 + (b.toNat - 0x41))).map fun c => [c]
    else none

/-- The pointers that stand for two code points. -/
def big5Pair : ℕ → Option Text
  | 1133 => some ['\u00CA', '\u0304']
  | 1135 => some ['\u00CA', '\u030C']
  | 1164 => some ['\u00EA', '\u0304']
  | 1166 => some ['\u00EA', '\u030C']
  | _ => none

def big5 (index : Index) : Decoder (Option UInt8) :=
  twoByte asciiChar (between 0x81 0xFE) fun lead b =>
    if between 0x40 0x7E b || between 0xA1 0xFE b then
      let offset := if b < 0x7F then 0x40 else 0x62
      let pointer := (lead.toNat - 0x81) * 157 + (b.toNat - offset)
      (big5Pair pointer).or ((index pointer).map fun c => [c])
    else none

/-! ### EUC-JP -/

structure EucJpState where
  lead : Option UInt8
  jis0212 : Bool

def eucJpCodePoint (jis0208 jis0212 : Index) (three : Bool) (lead b : UInt8) : Option Char :=
  if between 0xA1 0xFE lead && between 0xA1 0xFE b then
    (if three then jis0212 else jis0208) ((lead.toNat - 0xA1) * 94 + b.toNat - 0xA1)
  else none

def eucJpNext (jis0208 jis0212 : Index) (s : EucJpState) (b : UInt8) : Reading EucJpState :=
  if s.lead = some 0x8E ∧ between 0xA1 0xDF b then
    { out := [katakana b], state := { s with lead := none } }
  else if s.lead = some 0x8F ∧ between 0xA1 0xFE b then
    { out := [], state := ⟨some b, true⟩ }
  else match s.lead with
    | some lead =>
      match eucJpCodePoint jis0208 jis0212 s.jis0212 lead b with
      | some c => { out := [c], state := ⟨none, false⟩ }
      | none =>
        { out := [replacement], state := ⟨none, false⟩, restored := putBack b }
    | none =>
      if ascii b then { out := [Char.ofNat b.toNat], state := s }
      else if b == 0x8E || b == 0x8F || between 0xA1 0xFE b then
        { out := [], state := { s with lead := some b } }
      else { out := [replacement], state := s }

def eucJp (jis0208 jis0212 : Index) : Decoder EucJpState where
  start := ⟨none, false⟩
  next := eucJpNext jis0208 jis0212
  atEnd s := if s.lead.isSome then [replacement] else []
  held s := heldLead s.lead
  shrinks s b := by
    have hback := putBack_length_le b
    obtain ⟨lead, jis⟩ := s
    unfold eucJpNext
    cases lead with
    | some lead =>
      dsimp only
      split
      · simp [heldLead]
      · split
        · simp [heldLead]
        · split
          · simp [heldLead]
          · simp only [heldLead, Option.isSome_none, Option.isSome_some, if_true, Bool.false_eq_true, if_false]
            omega
    | none =>
      simp only [reduceCtorEq, false_and, if_false]
      split
      · simp [heldLead]
      · split <;> simp [heldLead]

/-! ### gb18030 -/

/-- The bytes of a character that have been read. -/
inductive Gb18030State where
  | none
  | one (first : UInt8)
  | two (first second : UInt8)
  | three (first second third : UInt8)

def gb18030Pointer (lead b : UInt8) : Option ℕ :=
  if between 0x40 0x7E b || between 0x80 0xFE b then
    let offset := if b < 0x7F then 0x40 else 0x41
    some ((lead.toNat - 0x81) * 190 + (b.toNat - offset))
  else .none

def rangesPointer (first second third b : UInt8) : ℕ :=
  (first.toNat - 0x81) * (10 * 126 * 10) + (second.toNat - 0x30) * (10 * 126) +
    (third.toNat - 0x81) * 10 + (b.toNat - 0x30)

/-- The index of the characters of four bytes: ranges of code points, by the pointer that each
begins at. -/
def rangesIndex (entries : List (ℕ × ℕ)) : Index := fun pointer =>
  if 39419 < pointer ∧ pointer < 189000 ∨ 1237575 < pointer then .none
  else if pointer = 7457 then charFromU32 0xE7C7
  else (entries.filter (·.1 ≤ pointer)).getLast?.bind fun entry =>
    charFromU32 (entry.2 + (pointer - entry.1))

def gb18030Next (index ranges : Index) : Gb18030State → UInt8 → Reading Gb18030State
  | .three first second third, b =>
    if between 0x30 0x39 b then
      { out := orReplacement (ranges (rangesPointer first second third b)), state := .none }
    else { out := [replacement], state := .none, restored := [second, third, b] }
  | .two first second, b =>
    if between 0x81 0xFE b then { out := [], state := .three first second b }
    else { out := [replacement], state := .none, restored := [second, b] }
  | .one first, b =>
    if between 0x30 0x39 b then { out := [], state := .two first b }
    else match (gb18030Pointer first b).bind index with
      | some c => { out := [c], state := .none }
      | .none =>
        { out := [replacement], state := .none, restored := putBack b }
  | .none, b =>
    if ascii b then { out := [Char.ofNat b.toNat], state := .none }
    else if b = 0x80 then { out := ['€'], state := .none }
    else if between 0x81 0xFE b then { out := [], state := .one b }
    else { out := [replacement], state := .none }

def Gb18030State.held : Gb18030State → ℕ
  | none => 0
  | one _ => 1
  | two _ _ => 2
  | three _ _ _ => 3

def gb18030 (index ranges : Index) : Decoder Gb18030State where
  start := .none
  next := gb18030Next index ranges
  atEnd
    | .none => []
    | _ => [replacement]
  held := Gb18030State.held
  shrinks s b := by
    have hback := putBack_length_le b
    cases s with
    | three first second third =>
      simp only [gb18030Next]
      split <;> simp [Gb18030State.held]
    | two first second =>
      simp only [gb18030Next]
      split <;> simp [Gb18030State.held]
    | one first =>
      simp only [gb18030Next]
      split
      · simp [Gb18030State.held]
      · split
        · simp [Gb18030State.held]
        · simp only [Gb18030State.held]
          omega
    | none =>
      simp only [gb18030Next]
      split_ifs <;> simp [Gb18030State.held]

/-! ### UTF-16 -/

structure Utf16State where
  leadByte : Option UInt8
  leadSurrogate : Option ℕ

def codeUnit (bigEndian : Bool) (b b' : UInt8) : ℕ := if bigEndian then be16 b b' else be16 b' b

def isLeadSurrogate (unit : ℕ) : Bool := 0xD800 ≤ unit && unit ≤ 0xDBFF

def isTrailSurrogate (unit : ℕ) : Bool := 0xDC00 ≤ unit && unit ≤ 0xDFFF

def surrogatePair (lead trail : ℕ) : Char :=
  Char.ofNat (0x10000 + (lead - 0xD800) * 2 ^ 10 + (trail - 0xDC00))

def utf16Next (bigEndian : Bool) (s : Utf16State) (b : UInt8) : Reading Utf16State :=
  match s.leadByte with
  | none => { out := [], state := { s with leadByte := some b } }
  | some lead =>
    let unit := codeUnit bigEndian lead b
    match s.leadSurrogate with
    | some surrogate =>
      if isTrailSurrogate unit then
        { out := [surrogatePair surrogate unit], state := ⟨none, none⟩ }
      else { out := [replacement], state := ⟨none, none⟩, restored := [lead, b] }
    | none =>
      if isLeadSurrogate unit then { out := [], state := ⟨none, some unit⟩ }
      else if isTrailSurrogate unit then { out := [replacement], state := ⟨none, none⟩ }
      else { out := [Char.ofNat unit], state := ⟨none, none⟩ }

def utf16 (bigEndian : Bool) : Decoder Utf16State where
  start := ⟨none, none⟩
  next := utf16Next bigEndian
  atEnd s := if s.leadByte.isSome || s.leadSurrogate.isSome then [replacement] else []
  held s := heldLead s.leadByte + if s.leadSurrogate.isSome then 2 else 0
  shrinks s b := by
    obtain ⟨lead, surrogate⟩ := s
    unfold utf16Next
    cases lead with
    | none => cases surrogate <;> simp [heldLead]
    | some lead =>
      cases surrogate with
      | some surrogate =>
        dsimp only
        split <;> simp [heldLead]
      | none =>
        dsimp only
        split
        · simp [heldLead]
        · split <;> simp [heldLead]

/-! ### UTF-8 -/

structure Utf8Progress where
  codePoint : ℕ
  seen : ℕ
  needed : ℕ
  lower : ℕ
  upper : ℕ

namespace Utf8Progress

def start : Utf8Progress := ⟨0, 0, 0, 0x80, 0xBF⟩

def next (s : Utf8Progress) (b : UInt8) : Reading Utf8Progress :=
  if s.needed = 0 then
    if ascii b then { out := [Char.ofNat b.toNat], state := s }
    else if between 0xC2 0xDF b then
      { out := [], state := { s with needed := 1, codePoint := b.toNat % 2 ^ 5 } }
    else if between 0xE0 0xEF b then
      let lower := if b = 0xE0 then 0xA0 else s.lower
      let upper := if b = 0xED then 0x9F else s.upper
      { out := []
        state := { s with needed := 2, lower := lower, upper := upper, codePoint := b.toNat % 2 ^ 4 } }
    else if between 0xF0 0xF4 b then
      let lower := if b = 0xF0 then 0x90 else s.lower
      let upper := if b = 0xF4 then 0x8F else s.upper
      { out := []
        state := { s with needed := 3, lower := lower, upper := upper, codePoint := b.toNat % 2 ^ 3 } }
    else { out := [replacement], state := s }
  else if between s.lower s.upper b then
    let codePoint := s.codePoint * 2 ^ 6 + b.toNat % 2 ^ 6
    if s.seen + 1 = s.needed then { out := [Char.ofNat codePoint], state := start }
    else { out := [], state := ⟨codePoint, s.seen + 1, s.needed, 0x80, 0xBF⟩ }
  else { out := [replacement], state := start, restored := [b] }

def held (s : Utf8Progress) : ℕ := if s.needed = 0 then 0 else 1

end Utf8Progress

def utf8 : Decoder Utf8Progress where
  start := .start
  next := Utf8Progress.next
  atEnd s := if s.needed = 0 then [] else [replacement]
  held := Utf8Progress.held
  shrinks s b := by
    unfold Utf8Progress.next
    by_cases hneeded : s.needed = 0
    · rw [if_pos hneeded]
      split_ifs <;> simp [Utf8Progress.held, hneeded]
    · rw [if_neg hneeded]
      split_ifs <;> simp [Utf8Progress.held, Utf8Progress.start, hneeded]

end Conclave.Lib.Encodings
