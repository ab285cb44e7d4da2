import Conclave.Lib.Encodings

/-! The decoders of legacy encodings. A loop over the bytes that steps back over the last one
is a decoder that puts it back. -/

namespace Conclave.Unicode

open Lib Encodings

inductive Encoding where
  | utf8
  | utf16Le
  | utf16Be
  | windows1252
  | iso8859_2
  | iso8859_15
  | shiftJis
  | eucJp
  | gbk
  | gb18030
  | eucKr
  | big5
  deriving DecidableEq, Repr

/-- The entry at a pointer; zero is none, and so is what lies past the end. -/
abbrev Table := ℕ → ℕ

/-- The index tables, and the sorted ranges of the characters of four bytes. -/
structure Tables where
  windows1252 : Table
  iso8859_2 : Table
  iso8859_15 : Table
  jis0208 : Table
  eucKr : Table
  big5 : Table
  gb18030 : Table
  rangesPtr : List ℕ
  rangesCp : List ℕ
  ranges_length : rangesCp.length = rangesPtr.length
  ranges_sorted : rangesPtr.Pairwise (· < ·)

def indexCodePoint (table : Table) (pointer : ℕ) : Option Char :=
  if table pointer = 0 then none else charFromU32 (table pointer)

def charOrReplacement (n : ℕ) : Char := (charFromU32 n).getD replacement

/-! ### UTF-16 -/

def decodeUtf16Loop (bigEndian : Bool) (pendingLead : Option ℕ) : Bytes → Text
  | b :: b' :: rest =>
    let unit := codeUnit bigEndian b b'
    match pendingLead with
    | some lead =>
      if 0xDC00 ≤ unit ∧ unit ≤ 0xDFFF then
        charOrReplacement (0x10000 + (lead - 0xD800) * 2 ^ 10 + (unit - 0xDC00)) ::
          decodeUtf16Loop bigEndian none rest
      else replacement :: decodeUtf16Loop bigEndian none (b :: b' :: rest)
    | none =>
      if 0xD800 ≤ unit ∧ unit ≤ 0xDBFF then decodeUtf16Loop bigEndian (some unit) rest
      else if 0xDC00 ≤ unit ∧ unit ≤ 0xDFFF then
        replacement :: decodeUtf16Loop bigEndian none rest
      else charOrReplacement unit :: decodeUtf16Loop bigEndian none rest
  | rest =>
    (if pendingLead.isSome then [replacement] else []) ++
      if rest = [] then [] else [replacement]
termination_by bytes => 2 * bytes.length + if pendingLead.isSome then 1 else 0

def decodeUtf16 (bytes : Bytes) (bigEndian : Bool) : Text := decodeUtf16Loop bigEndian none bytes

/-! ### Single bytes -/

def decodeSingleByte (bytes : Bytes) (table : Table) : Text :=
  bytes.map fun b =>
    if b < 0x80 then Char.ofNat b.toNat
    else
      let cp := table (b.toNat - 0x80)
      if cp = 0 then replacement else charOrReplacement cp

/-! ### Lead bytes -/

/-- An ASCII byte that ends a sequence is read again. -/
def stepBack (byte : UInt8) : Bytes := if byte < 0x80 then [byte] else []

theorem stepBack_length_le (byte : UInt8) : (stepBack byte).length ≤ 1 := by
  unfold stepBack
  split <;> simp

/-- One byte of the loops over lead bytes, where zero is no lead byte. -/
def leadNext (single : UInt8 → Option Char) (isLead : UInt8 → Bool)
    (pair : UInt8 → UInt8 → Option Text) (lead byte : UInt8) : Reading UInt8 :=
  if lead ≠ 0 then
    match pair lead byte with
    | some text => { out := text, state := 0 }
    | none => { out := [replacement], state := 0, restored := stepBack byte }
  else
    match single byte with
    | some c => { out := [c], state := 0 }
    | none =>
      if isLead byte then { out := [], state := byte } else { out := [replacement], state := 0 }

def heldLead (lead : UInt8) : ℕ := if lead = 0 then 0 else 1

theorem heldLead_of_ne {lead : UInt8} (h : lead ≠ 0) : heldLead lead = 1 := if_neg h

theorem heldLead_le (lead : UInt8) : heldLead lead ≤ 1 := by
  unfold heldLead
  split <;> decide

def leadDecoder (single : UInt8 → Option Char) (isLead : UInt8 → Bool)
    (pair : UInt8 → UInt8 → Option Text) : Decoder UInt8 where
  start := 0
  next := leadNext single isLead pair
  atEnd lead := if lead ≠ 0 then [replacement] else []
  held := heldLead
  shrinks lead byte := by
    have hback := stepBack_length_le byte
    have hheld := heldLead_le byte
    unfold leadNext
    split
    · next hlead =>
      rw [heldLead, heldLead, if_neg hlead]
      split
      · simp
      · simp only [if_true]
        omega
    · split
      · simp [heldLead]
      · split
        · simp only [List.length_nil]
          omega
        · simp [heldLead]

def asciiByte (byte : UInt8) : Option Char :=
  if byte < 0x80 then some (Char.ofNat byte.toNat) else none

def decodeShiftJis (jis0208 : Table) : Decoder UInt8 :=
  leadDecoder
    (fun byte =>
      if byte < 0x80 ∨ byte = 0x80 then some (Char.ofNat byte.toNat)
      else if between 0xA1 0xDF byte then
        some (charOrReplacement (0xFF61 - 0xA1 + byte.toNat))
      else none)
    (fun byte => between 0x81 0x9F byte ∨ between 0xE0 0xFC byte)
    fun leading byte =>
      let offset := if byte < 0x7F then 0x40 else 0x41
      let leadingOffset := if leading < 0xA0 then 0x81 else 0xC1
      if between 0x40 0x7E byte ∨ between 0x80 0xFC byte then
        let p := (leading.toNat - leadingOffset) * 188 + byte.toNat - offset
        if 8836 ≤ p ∧ p ≤ 10715 then some [charOrReplacement (0xE000 - 8836 + p)]
        else (indexCodePoint jis0208 p).map fun c => [c]
      else none

def decodeEucKr (table : Table) : Decoder UInt8 :=
  leadDecoder asciiByte (between 0x81 0xFE) fun leading byte =>
    if between 0x41 0xFE byte then
      let p := (leading.toNat - 0x81) * 190 + byte.toNat - 0x41
      (indexCodePoint table p).map fun c => [c]
    else none

def decodeBig5 (table : Table) : Decoder UInt8 :=
  leadDecoder asciiByte (between 0x81 0xFE) fun leading byte =>
    let offset := if byte < 0x7F then 0x40 else 0x62
    if between 0x40 0x7E byte ∨ between 0xA1 0xFE byte then
      let p := (leading.toNat - 0x81) * 157 + byte.toNat - offset
      match p with
      | 1133 => some ['\u00CA', '\u0304']
      | 1135 => some ['\u00CA', '\u030C']
      | 1164 => some ['\u00EA', '\u0304']
      | 1166 => some ['\u00EA', '\u030C']
      | _ => (indexCodePoint table p).map fun c => [c]
    else none

/-! ### EUC-JP -/

structure EucJpLoop where
  lead : UInt8
  jis0212 : Bool

/-- There is no table of JIS X 0212. -/
def eucJpCodePoint (jis0208 : Table) (s : EucJpLoop) (byte : UInt8) : Option Char :=
  let p := (s.lead.toNat - 0xA1) * 94 + byte.toNat - 0xA1
  if s.jis0212 then none else indexCodePoint jis0208 p

def eucJpNext (jis0208 : Table) (s : EucJpLoop) (byte : UInt8) : Reading EucJpLoop :=
  if s.lead = 0x8E ∧ between 0xA1 0xDF byte then
    { out := [charOrReplacement (0xFF61 - 0xA1 + byte.toNat)], state := { s with lead := 0 } }
  else if s.lead = 0x8F ∧ between 0xA1 0xFE byte then
    { out := [], state := ⟨byte, true⟩ }
  else if s.lead ≠ 0 then
    if between 0xA1 0xFE s.lead ∧ between 0xA1 0xFE byte then
      match eucJpCodePoint jis0208 s byte with
      | some c => { out := [c], state := ⟨0, false⟩ }
      | none => { out := [replacement], state := ⟨0, false⟩ }
    else { out := [replacement], state := ⟨0, false⟩, restored := stepBack byte }
  else if byte < 0x80 then { out := [Char.ofNat byte.toNat], state := s }
  else if byte = 0x8E ∨ byte = 0x8F ∨ between 0xA1 0xFE byte then
    { out := [], state := { s with lead := byte } }
  else { out := [replacement], state := s }

def decodeEucJp (jis0208 : Table) : Decoder EucJpLoop where
  start := ⟨0, false⟩
  next := eucJpNext jis0208
  atEnd s := if s.lead ≠ 0 then [replacement] else []
  held s := heldLead s.lead
  shrinks s byte := by
    have hback := stepBack_length_le byte
    have hheld := heldLead_le byte
    have hzero : heldLead 0 = 0 := rfl
    have hone : s.lead ≠ 0 → heldLead s.lead = 1 := heldLead_of_ne
    unfold eucJpNext
    split
    · simp only [hzero, List.length_nil]
      omega
    · split
      · next h =>
        have hlead : s.lead ≠ 0 := by rw [h.1]; decide
        simp only [hone hlead, List.length_nil]
        omega
      · split
        · next hlead =>
          rw [hone hlead]
          split
          · split <;> simp [hzero]
          · simp only [hzero]
            omega
        · next hlead =>
          split_ifs <;> simp only [List.length_nil] <;> omega

/-! ### gb18030 -/

/-- The search for the first place with a larger pointer. -/
def searchRanges (ptrs : List ℕ) (pointer : ℕ) : ℕ → ℕ → ℕ → ℕ
  | 0, lo, _ => lo
  | fuel + 1, lo, hi =>
    if lo < hi then
      let mid := (lo + hi) / 2
      if (ptrs[mid]?).getD 0 ≤ pointer then searchRanges ptrs pointer fuel (mid + 1) hi
      else searchRanges ptrs pointer fuel lo mid
    else lo

def gb18030RangesCodePoint (tables : Tables) (pointer : ℕ) : Option Char :=
  if 39419 < pointer ∧ pointer < 189000 ∨ 1237575 < pointer then none
  else if pointer = 7457 then charFromU32 0xE7C7
  else
    let ptrs := tables.rangesPtr
    let lo := searchRanges ptrs pointer ptrs.length 0 ptrs.length
    if lo = 0 then none
    else
      let offsetPointer := (ptrs[lo - 1]?).getD 0
      let codePointOffset := (tables.rangesCp[lo - 1]?).getD 0
      charFromU32 (codePointOffset + (pointer - offsetPointer))

structure Gb18030Loop where
  first : UInt8
  second : UInt8
  third : UInt8
  deriving DecidableEq

def gb18030Next (tables : Tables) (s : Gb18030Loop) (byte : UInt8) : Reading Gb18030Loop :=
  if s.third ≠ 0 then
    if between 0x30 0x39 byte then
      let pointer := (s.first.toNat - 0x81) * 12600 + (s.second.toNat - 0x30) * 1260 +
        (s.third.toNat - 0x81) * 10 + (byte.toNat - 0x30)
      { out := [(gb18030RangesCodePoint tables pointer).getD replacement], state := ⟨0, 0, 0⟩ }
    else
      -- The two bytes that were saved are written as they stand, and the last one read again.
      { out := replacement :: [s.second, s.third].map fun b =>
          if b < 0x80 then Char.ofNat b.toNat else replacement
        state := ⟨0, 0, 0⟩
        restored := [byte] }
  else if s.second ≠ 0 then
    if between 0x81 0xFE byte then { out := [], state := { s with third := byte } }
    else
      { out := [replacement, if s.second < 0x80 then Char.ofNat s.second.toNat else replacement]
        state := ⟨0, 0, s.third⟩
        restored := [byte] }
  else if s.first ≠ 0 then
    if between 0x30 0x39 byte then { out := [], state := { s with second := byte } }
    else
      let offset := if byte < 0x7F then 0x40 else 0x41
      let pointer :=
        if between 0x40 0x7E byte ∨ between 0x80 0xFE byte then
          some ((s.first.toNat - 0x81) * 190 + byte.toNat - offset)
        else none
      match pointer.bind (indexCodePoint tables.gb18030) with
      | some c => { out := [c], state := { s with first := 0 } }
      | none => { out := [replacement], state := { s with first := 0 }, restored := stepBack byte }
  else if byte < 0x80 then { out := [Char.ofNat byte.toNat], state := s }
  else if byte = 0x80 then { out := [replacement], state := s }
  else if between 0x81 0xFE byte then { out := [], state := { s with first := byte } }
  else { out := [replacement], state := s }

def decodeGb18030 (tables : Tables) : Decoder Gb18030Loop where
  start := ⟨0, 0, 0⟩
  next := gb18030Next tables
  atEnd s := if s.first ≠ 0 ∨ s.second ≠ 0 ∨ s.third ≠ 0 then [replacement] else []
  held s := heldLead s.first + heldLead s.second + heldLead s.third
  shrinks s byte := by
    have hback := stepBack_length_le byte
    have hheld := heldLead_le byte
    have hzero : heldLead 0 = 0 := rfl
    have hone : ∀ lead ≠ 0, heldLead lead = 1 := fun lead => heldLead_of_ne
    unfold gb18030Next
    split
    · next hthird =>
      rw [hone _ hthird]
      split <;> simp only [hzero, List.length_cons, List.length_nil] <;> omega
    · next hthird =>
      have hthird' : heldLead s.third = 0 := by rw [not_not.mp hthird, hzero]
      split
      · next hsecond =>
        rw [hone _ hsecond]
        split <;> simp only [hzero, hone _ hsecond, List.length_cons, List.length_nil] <;> omega
      · next hsecond =>
        have hsecond' : heldLead s.second = 0 := by rw [not_not.mp hsecond, hzero]
        split
        · next hfirst =>
          rw [hone _ hfirst]
          split
          · simp only [hone _ hfirst, List.length_nil]
            omega
          · dsimp only
            split <;> simp only [hzero, List.length_nil] <;> omega
        · split_ifs <;> simp only [List.length_nil] <;> omega

/-! ### All of them -/

def stripBom (bytes : Bytes) (enc : Encoding) : Bytes :=
  if enc = .utf8 ∧ [0xEF, 0xBB, 0xBF] <+: bytes then bytes.drop 3
  else if enc = .utf16Be ∧ [0xFE, 0xFF] <+: bytes then bytes.drop 2
  else if enc = .utf16Le ∧ [0xFF, 0xFE] <+: bytes then bytes.drop 2
  else bytes

def decode (tables : Tables) (bytes : Bytes) (enc : Encoding) : Text :=
  let body := stripBom bytes enc
  match enc with
  | .utf8 => fromUtf8Lossy body
  | .utf16Le => decodeUtf16 body false
  | .utf16Be => decodeUtf16 body true
  | .windows1252 => decodeSingleByte body tables.windows1252
  | .iso8859_2 => decodeSingleByte body tables.iso8859_2
  | .iso8859_15 => decodeSingleByte body tables.iso8859_15
  | .shiftJis => (decodeShiftJis tables.jis0208).decode body
  | .eucJp => (decodeEucJp tables.jis0208).decode body
  | .gbk | .gb18030 => (decodeGb18030 tables).decode body
  | .eucKr => (decodeEucKr tables.eucKr).decode body
  | .big5 => (decodeBig5 tables.big5).decode body

end Conclave.Unicode
