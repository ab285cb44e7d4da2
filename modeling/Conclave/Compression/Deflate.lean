import Conclave.Lib.Bytes
import Conclave.Lib.CanonicalCode

/-! The bits of a DEFLATE stream and its Huffman codes. -/

namespace Conclave.Compression

open Lib

inductive InflateError where
  | truncated
  | badCodeLengths
  | badHuffmanCode
  deriving DecidableEq, Repr

/-! ### Bits -/

/-- Pulls bits from the bytes, the lowest of each byte first. The buffer holds as many as
the count says. -/
structure BitReader where
  bytes : Bytes
  pos : ℕ
  bitBuf : ℕ
  bitCount : ℕ
  fits : bitBuf < 2 ^ bitCount

namespace BitReader

def new (bytes : Bytes) : BitReader := ⟨bytes, 0, 0, 0, Nat.one_pos⟩

theorem or_shift_lt {buf count : ℕ} (h : buf < 2 ^ count) (b : UInt8) :
    buf ||| b.toNat * 2 ^ count % 2 ^ 32 < 2 ^ (count + 8) := by
  have hb := b.toNat_lt
  have hpow := Nat.two_pow_pos count
  apply Nat.or_lt_two_pow
  · exact h.trans_le (Nat.pow_le_pow_right (by norm_num) (by omega))
  · calc b.toNat * 2 ^ count % 2 ^ 32 ≤ b.toNat * 2 ^ count := Nat.mod_le _ _
      _ < 2 ^ 8 * 2 ^ count := Nat.mul_lt_mul_of_pos_right hb hpow
      _ = 2 ^ (count + 8) := by ring

/-- The next byte goes above the bits that are there. -/
def load (br : BitReader) (b : UInt8) : BitReader where
  bytes := br.bytes
  pos := br.pos + 1
  bitBuf := br.bitBuf ||| b.toNat * 2 ^ br.bitCount % 2 ^ 32
  bitCount := br.bitCount + 8
  fits := or_shift_lt br.fits b

def drop (br : BitReader) (n : ℕ) (h : n ≤ br.bitCount) : BitReader where
  bytes := br.bytes
  pos := br.pos
  bitBuf := br.bitBuf / 2 ^ n
  bitCount := br.bitCount - n
  fits := by
    have hfits := br.fits
    rw [← Nat.add_sub_of_le h, pow_add] at hfits
    exact Nat.div_lt_of_lt_mul hfits

def readBits (n : ℕ) (br : BitReader) : Except InflateError (ℕ × BitReader) :=
  if h : br.bitCount < n then
    match br.bytes[br.pos]? with
    | none => .error .truncated
    | some b => readBits n (br.load b)
  else .ok (br.bitBuf % 2 ^ n, br.drop n (not_lt.mp h))
termination_by n - br.bitCount
decreasing_by
  show n - (br.bitCount + 8) < n - br.bitCount
  omega

end BitReader

/-! ### Huffman codes -/

def maxBits : ℕ := 15

/-- How many symbols have each length, and the symbols by length and then by number. -/
structure Huffman where
  counts : List ℕ
  symbols : List ℕ
  deriving DecidableEq, Repr

/-- There are far fewer lengths than a counter can count. -/
def countLengths (lengths : List ℕ) : List ℕ :=
  (lengths.foldl (fun counts l => counts.modify l (· + 1)) (List.replicate (maxBits + 1) 0)).set 0 0

/-- Validate the code is at most full per Kraft inequality. -/
def leftOver : List ℕ → ℤ → Except InflateError ℤ
  | [], left => .ok left
  | count :: counts, left =>
    if 2 * left - count < 0 then .error .badCodeLengths else leftOver counts (2 * left - count)

/-- Where the symbols of each length start. -/
def offsetsOf (counts : List ℕ) : List ℕ := 0 :: counts.tail.scanl (· + ·) 0

/-- One symbol into its place; none for an index out of range. -/
def placeSymbol (s : List ℕ × List ℕ) (entry : ℕ × ℕ) : Option (List ℕ × List ℕ) :=
  let (cursor, symbols) := s
  let (l, sym) := entry
  if l = 0 then some (cursor, symbols)
  else do
    let slot ← cursor[l]?
    if slot < symbols.length then some (cursor.modify l (· + 1), symbols.set slot sym) else none

namespace Huffman

/-- None for an index out of range. -/
def fromLengths (lengths : List ℕ) : Option (Except InflateError Huffman) :=
  if lengths.any (maxBits < ·) then some (.error .badCodeLengths)
  else
    let counts := countLengths lengths
    match leftOver counts.tail 1 with
    | .error e => some (.error e)
    | .ok _ => do
      let offsets := offsetsOf counts
      let total ← offsets[maxBits + 1]?
      let (_, symbols) ← lengths.zipIdx.foldlM placeSymbol (offsets, List.replicate total 0)
      return .ok ⟨counts, symbols⟩

/-- The rounds that are left, from the one for the length `len`. -/
def decodeLoop (h : Huffman) : ℕ → ℕ → ℕ → ℕ → ℕ → BitReader →
    Option (Except InflateError (ℕ × BitReader))
  | 0, _, _, _, _, _ => some (.error .badHuffmanCode)
  | rounds + 1, len, code, first, index, br =>
    match br.readBits 1 with
    | .error e => some (.error e)
    | .ok (bit, br) => do
      let code := code * 2 ||| bit
      let count ← h.counts[len]?
      if code < first + count then
        if code < first then none
        else do
          let sym ← h.symbols[index + (code - first)]?
          return .ok (sym, br)
      else decodeLoop h rounds (len + 1) code ((first + count) * 2) (index + count) br

/-- None for an index out of range, or a difference below zero. -/
def decode (h : Huffman) (br : BitReader) : Option (Except InflateError (ℕ × BitReader)) :=
  h.decodeLoop maxBits 1 0 0 0 br

end Huffman

end Conclave.Compression
