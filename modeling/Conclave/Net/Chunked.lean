import Conclave.Lib.Ascii
import Conclave.Net.Sse

/-! Chunked bodies: the scanner that says when one is complete, the decoder of a complete one,
and the grammar of both. -/

namespace Conclave.Net.Chunked

open Lib Text

def crlf : Bytes := [0x0d, 0x0a]

/-! ### The scanner -/

/-- The front of a size line, up to a semicolon, a space or a tab. -/
def sizeStr (line : Bytes) : Text :=
  (fromUtf8 (line.takeWhile fun b => b ≠ 0x3b ∧ b ≠ 0x20 ∧ b ≠ 0x09)).elim [] String.toList

def scanSize (line : Bytes) : Option ℕ := Sse.fromStrRadix16 (trim (sizeStr line))

/-- Lines up to an empty one. -/
def trailersEnd (buf : Bytes) : Bool :=
  if buf.length < 2 then false
  else if buf.take 2 = crlf then true
  else
    match h : Sse.findCrlf buf with
    | none => false
    | some p => have := Sse.findCrlf_lt h; trailersEnd (buf.drop (p + 2))
termination_by buf.length

/-- From the index `i` on, where `buf` begins. None when an index goes over 64 bits. -/
def scanFrom (i : ℕ) (buf : Bytes) : Option Bool :=
  match h : Sse.findCrlf buf with
  | none => some false
  | some p =>
    have := Sse.findCrlf_lt h
    let rest := buf.drop (p + 2)
    match scanSize (buf.take p) with
    | none => some false
    | some n =>
      if n = 0 then some (trailersEnd rest)
      else if 2 ^ 64 ≤ i + (p + 2) + n + 2 then none
      else if rest.length < n + 2 then some false
      else scanFrom (i + (p + 2) + n + 2) (rest.drop (n + 2))
termination_by buf.length
decreasing_by
  have hlt : rest.length < buf.length := Sse.findCrlf_lt h
  rw [List.length_drop]
  omega

def chunkedBodyIsComplete (buf : Bytes) : Option Bool := scanFrom 0 buf

/-! ### The decoder -/

inductive ChunkError where
  | chunkSizeEof
  | nonUtf8Size
  | badChunkSize (field : Text)
  | chunkBodyShort
  | chunkNotCrlfTerminated
  deriving DecidableEq, Repr

/-- What the error says, with how a text is shown. -/
def ChunkError.message (debug : Text → String) : ChunkError → String
  | chunkSizeEof => "chunk size eof"
  | nonUtf8Size => "non-utf8 size"
  | badChunkSize field => "bad chunk size: " ++ debug field
  | chunkBodyShort => "chunk body short"
  | chunkNotCrlfTerminated => "chunk not crlf-terminated"

def sizeField (sizeLine : String) : Text := trim (sizeLine.toList.takeWhile (· ≠ ';'))

/-- None when a size goes over 64 bits. -/
def decodeFrom (out raw : Bytes) : Option (Except ChunkError Bytes) :=
  match h : Sse.findCrlf raw with
  | none => some (.error .chunkSizeEof)
  | some lineEnd =>
    have := Sse.findCrlf_lt h
    let rest := raw.drop (lineEnd + 2)
    match fromUtf8 (raw.take lineEnd) with
    | none => some (.error .nonUtf8Size)
    | some sizeLine =>
      match Sse.fromStrRadix16 (sizeField sizeLine) with
      | none => some (.error (.badChunkSize (sizeField sizeLine)))
      | some size =>
        if size = 0 then some (.ok out)
        else if 2 ^ 64 ≤ size + 2 then none
        else if rest.length < size + 2 then some (.error .chunkBodyShort)
        else if (rest.drop size).take 2 ≠ crlf then some (.error .chunkNotCrlfTerminated)
        else decodeFrom (out ++ rest.take size) (rest.drop (size + 2))
termination_by raw.length
decreasing_by
  have hlt : rest.length < raw.length := Sse.findCrlf_lt h
  rw [List.length_drop]
  omega

def decodeChunked (raw : Bytes) : Option (Except ChunkError Bytes) := decodeFrom [] raw

/-! ### The grammar -/

/-- No line break in it, and none begins at its end. -/
def IsLine (line : Bytes) : Prop := Sse.findCrlf (line ++ crlf) = some line.length

/-- A size line, the data, and what stands behind the data. -/
structure Chunk where
  line : Bytes
  data : Bytes
  sep : Bytes

structure Body where
  chunks : List Chunk
  last : Bytes
  trailers : List Bytes

def Chunk.bytes (c : Chunk) : Bytes := c.line ++ crlf ++ c.data ++ c.sep

def Body.bytes (B : Body) : Bytes :=
  B.chunks.flatMap Chunk.bytes ++ B.last ++ crlf ++ B.trailers.flatMap (· ++ crlf) ++ crlf

def Body.data (B : Body) : Bytes := B.chunks.flatMap Chunk.data

/-- Which lines give which size, what may stand behind the data, and which lines may follow the
last chunk. -/
structure Grammar where
  size : Bytes → ℕ → Prop
  sep : Bytes → Prop
  trailer : Bytes → Prop

structure Chunk.Ok (G : Grammar) (c : Chunk) : Prop where
  line : IsLine c.line
  size : G.size c.line c.data.length
  data : c.data ≠ []
  length : c.sep.length = 2
  sep : G.sep c.sep

structure Body.Ok (G : Grammar) (B : Body) : Prop where
  chunks : ∀ c ∈ B.chunks, c.Ok G
  line : IsLine B.last
  size : G.size B.last 0
  trailers : ∀ t ∈ B.trailers, IsLine t ∧ G.trailer t

/-! ### The grammar of the standard -/

def isTchar (b : UInt8) : Bool :=
  (0x30 ≤ b ∧ b ≤ 0x39) ∨ (0x41 ≤ b ∧ b ≤ 0x5a) ∨ (0x61 ≤ b ∧ b ≤ 0x7a) ∨
    b ∈ [0x21, 0x23, 0x24, 0x25, 0x26, 0x27, 0x2a, 0x2b, 0x2d, 0x2e, 0x5e, 0x5f, 0x60, 0x7c, 0x7e]

def isHexdig (b : UInt8) : Bool :=
  (0x30 ≤ b ∧ b ≤ 0x39) ∨ (0x41 ≤ b ∧ b ≤ 0x46) ∨ (0x61 ≤ b ∧ b ≤ 0x66)

/-- Space, tab, visible characters and bytes from 128 on. -/
def isFieldByte (b : UInt8) : Bool := b = 0x09 ∨ (0x20 ≤ b ∧ b ≤ 0x7e) ∨ 0x80 ≤ b

def isQdtext (b : UInt8) : Bool := isFieldByte b && b ≠ 0x22 && b ≠ 0x5c

def IsBws (w : Bytes) : Prop := ∀ b ∈ w, b = 0x20 ∨ b = 0x09

def IsToken (w : Bytes) : Prop := w ≠ [] ∧ ∀ b ∈ w, isTchar b

inductive QuotedText : Bytes → Prop
  | nil : QuotedText []
  | qdtext (b : UInt8) (w : Bytes) : isQdtext b → QuotedText w → QuotedText (b :: w)
  | quotedPair (b : UInt8) (w : Bytes) : isFieldByte b → QuotedText w → QuotedText (0x5c :: b :: w)

def IsQuotedString (w : Bytes) : Prop := ∃ t, QuotedText t ∧ w = 0x22 :: (t ++ [0x22])

inductive ChunkExt : Bytes → Prop
  | nil : ChunkExt []
  | name (w₁ w₂ name rest : Bytes) : IsBws w₁ → IsBws w₂ → IsToken name → ChunkExt rest →
      ChunkExt (w₁ ++ 0x3b :: (w₂ ++ (name ++ rest)))
  | val (w₁ w₂ name w₃ w₄ val rest : Bytes) : IsBws w₁ → IsBws w₂ → IsToken name → IsBws w₃ →
      IsBws w₄ → IsToken val ∨ IsQuotedString val → ChunkExt rest →
      ChunkExt (w₁ ++ 0x3b :: (w₂ ++ (name ++ (w₃ ++ 0x3d :: (w₄ ++ (val ++ rest))))))

def hexValue (digits : Bytes) : ℕ :=
  digits.foldl (fun n b => 16 * n + ((Sse.hexDigit (Char.ofNat b.toNat)).getD 0)) 0

def IsSizeLine (line : Bytes) (n : ℕ) : Prop :=
  ∃ digits ext, line = digits ++ ext ∧ digits ≠ [] ∧ (∀ b ∈ digits, isHexdig b) ∧ ChunkExt ext ∧
    n = hexValue digits

def IsFieldLine (line : Bytes) : Prop :=
  ∃ name value, line = name ++ 0x3a :: value ∧ IsToken name ∧ ∀ b ∈ value, isFieldByte b

def rfc9112 : Grammar := ⟨IsSizeLine, (· = crlf), IsFieldLine⟩

/-! ### Bodies of the grammar -/

/-- The bytes of a slice: its length fits 63 bits. -/
abbrev Slice := { b : Bytes // b.length < 2 ^ 63 }

/-- The scanner says whether the bytes start with a complete body, the decoder gives the data of
the first one, and no shorter piece is said to be complete. -/
def Agrees (b : Bytes) : Prop :=
  ∃ complete, chunkedBodyIsComplete b = some complete ∧
    (complete = true ↔ ∃ B rest, b = Body.bytes B ++ rest ∧ B.Ok rfc9112) ∧
    (complete = true → ∃ B rest, b = Body.bytes B ++ rest ∧ B.Ok rfc9112 ∧
      (∀ B' rest', b = Body.bytes B' ++ rest' → B'.Ok rfc9112 →
        B.bytes.length ≤ B'.bytes.length) ∧
      decodeChunked b = some (.ok B.data) ∧
      ∀ p, p <+: b → p.length < B.bytes.length → chunkedBodyIsComplete p = some false)

/-- Lines that start with a hexadecimal number, as many bytes as it says and two more. -/
def loose : Grammar := ⟨fun line n => scanSize line = some n, fun _ => True, (· ≠ [])⟩

/-- The grammar of the standard, with size lines in UTF-8. -/
def strict : Grammar :=
  { rfc9112 with size := fun line n => IsSizeLine line n ∧ (fromUtf8 line).isSome }

/-- Behind loose chunks no size reaches over 64 bits, and a body in the loose grammar is one of
the strict grammar. -/
def Sound (b : Bytes) : Prop :=
  (∀ chunks line rest n, b = List.flatMap Chunk.bytes chunks ++ line ++ crlf ++ rest →
    (∀ c ∈ chunks, c.Ok loose) → IsLine line → scanSize line = some n →
    (List.flatMap Chunk.bytes chunks).length + (line.length + 2) + n + 2 < 2 ^ 64) ∧
  ∀ B rest, b = Body.bytes B ++ rest → B.Ok loose → B.Ok strict

end Conclave.Net.Chunked
