import Conclave.Lib.Codec

/-! HPACK: prefix integers, strings in the raw or the Huffman form whichever is shorter,
the table of entries both ends keep, and header blocks. -/

namespace Conclave.Net.Hpack

open Lib

abbrev Header := String × String

def hpackStaticTable : List Header := [
  (":authority", ""), (":method", "GET"), (":method", "POST"), (":path", "/"),
  (":path", "/index.html"), (":scheme", "http"), (":scheme", "https"), (":status", "200"),
  (":status", "204"), (":status", "206"), (":status", "304"), (":status", "400"),
  (":status", "404"), (":status", "500"), ("accept-charset", ""),
  ("accept-encoding", "gzip, deflate"), ("accept-language", ""), ("accept-ranges", ""),
  ("accept", ""), ("access-control-allow-origin", ""), ("age", ""), ("allow", ""),
  ("authorization", ""), ("cache-control", ""), ("content-disposition", ""),
  ("content-encoding", ""), ("content-language", ""), ("content-length", ""),
  ("content-location", ""), ("content-range", ""), ("content-type", ""), ("cookie", ""),
  ("date", ""), ("etag", ""), ("expect", ""), ("expires", ""), ("from", ""), ("host", ""),
  ("if-match", ""), ("if-modified-since", ""), ("if-none-match", ""), ("if-range", ""),
  ("if-unmodified-since", ""), ("last-modified", ""), ("link", ""), ("location", ""),
  ("max-forwards", ""), ("proxy-authenticate", ""), ("proxy-authorization", ""), ("range", ""),
  ("referer", ""), ("refresh", ""), ("retry-after", ""), ("server", ""), ("set-cookie", ""),
  ("strict-transport-security", ""), ("transfer-encoding", ""), ("user-agent", ""), ("vary", ""),
  ("via", ""), ("www-authenticate", "")]

/-- Code and length in bits for each byte, and for the end of the string at 256. -/
def huffmanCodes : List (ℕ × ℕ) := [
  (0x1ff8, 13), (0x7fffd8, 23), (0xfffffe2, 28), (0xfffffe3, 28), (0xfffffe4, 28),
  (0xfffffe5, 28), (0xfffffe6, 28), (0xfffffe7, 28), (0xfffffe8, 28), (0xffffea, 24),
  (0x3ffffffc, 30), (0xfffffe9, 28), (0xfffffea, 28), (0x3ffffffd, 30), (0xfffffeb, 28),
  (0xfffffec, 28), (0xfffffed, 28), (0xfffffee, 28), (0xfffffef, 28), (0xffffff0, 28),
  (0xffffff1, 28), (0xffffff2, 28), (0x3ffffffe, 30), (0xffffff3, 28), (0xffffff4, 28),
  (0xffffff5, 28), (0xffffff6, 28), (0xffffff7, 28), (0xffffff8, 28), (0xffffff9, 28),
  (0xffffffa, 28), (0xffffffb, 28), (0x14, 6), (0x3f8, 10), (0x3f9, 10), (0xffa, 12),
  (0x1ff9, 13), (0x15, 6), (0xf8, 8), (0x7fa, 11), (0x3fa, 10), (0x3fb, 10), (0xf9, 8),
  (0x7fb, 11), (0xfa, 8), (0x16, 6), (0x17, 6), (0x18, 6), (0x0, 5), (0x1, 5), (0x2, 5),
  (0x19, 6), (0x1a, 6), (0x1b, 6), (0x1c, 6), (0x1d, 6), (0x1e, 6), (0x1f, 6), (0x5c, 7),
  (0xfb, 8), (0x7ffc, 15), (0x20, 6), (0xffb, 12), (0x3fc, 10), (0x1ffa, 13), (0x21, 6),
  (0x5d, 7), (0x5e, 7), (0x5f, 7), (0x60, 7), (0x61, 7), (0x62, 7), (0x63, 7), (0x64, 7),
  (0x65, 7), (0x66, 7), (0x67, 7), (0x68, 7), (0x69, 7), (0x6a, 7), (0x6b, 7), (0x6c, 7),
  (0x6d, 7), (0x6e, 7), (0x6f, 7), (0x70, 7), (0x71, 7), (0x72, 7), (0xfc, 8), (0x73, 7),
  (0xfd, 8), (0x1ffb, 13), (0x7fff0, 19), (0x1ffc, 13), (0x3ffc, 14), (0x22, 6), (0x7ffd, 15),
  (0x3, 5), (0x23, 6), (0x4, 5), (0x24, 6), (0x5, 5), (0x25, 6), (0x26, 6), (0x27, 6), (0x6, 5),
  (0x74, 7), (0x75, 7), (0x28, 6), (0x29, 6), (0x2a, 6), (0x7, 5), (0x2b, 6), (0x76, 7),
  (0x2c, 6), (0x8, 5), (0x9, 5), (0x2d, 6), (0x77, 7), (0x78, 7), (0x79, 7), (0x7a, 7), (0x7b, 7),
  (0x7ffe, 15), (0x7fc, 11), (0x3ffd, 14), (0x1ffd, 13), (0xffffffc, 28), (0xfffe6, 20),
  (0x3fffd2, 22), (0xfffe7, 20), (0xfffe8, 20), (0x3fffd3, 22), (0x3fffd4, 22), (0x3fffd5, 22),
  (0x7fffd9, 23), (0x3fffd6, 22), (0x7fffda, 23), (0x7fffdb, 23), (0x7fffdc, 23), (0x7fffdd, 23),
  (0x7fffde, 23), (0xffffeb, 24), (0x7fffdf, 23), (0xffffec, 24), (0xffffed, 24), (0x3fffd7, 22),
  (0x7fffe0, 23), (0xffffee, 24), (0x7fffe1, 23), (0x7fffe2, 23), (0x7fffe3, 23), (0x7fffe4, 23),
  (0x1fffdc, 21), (0x3fffd8, 22), (0x7fffe5, 23), (0x3fffd9, 22), (0x7fffe6, 23), (0x7fffe7, 23),
  (0xffffef, 24), (0x3fffda, 22), (0x1fffdd, 21), (0xfffe9, 20), (0x3fffdb, 22), (0x3fffdc, 22),
  (0x7fffe8, 23), (0x7fffe9, 23), (0x1fffde, 21), (0x7fffea, 23), (0x3fffdd, 22), (0x3fffde, 22),
  (0xfffff0, 24), (0x1fffdf, 21), (0x3fffdf, 22), (0x7fffeb, 23), (0x7fffec, 23), (0x1fffe0, 21),
  (0x1fffe1, 21), (0x3fffe0, 22), (0x1fffe2, 21), (0x7fffed, 23), (0x3fffe1, 22), (0x7fffee, 23),
  (0x7fffef, 23), (0xfffea, 20), (0x3fffe2, 22), (0x3fffe3, 22), (0x3fffe4, 22), (0x7ffff0, 23),
  (0x3fffe5, 22), (0x3fffe6, 22), (0x7ffff1, 23), (0x3ffffe0, 26), (0x3ffffe1, 26), (0xfffeb, 20),
  (0x7fff1, 19), (0x3fffe7, 22), (0x7ffff2, 23), (0x3fffe8, 22), (0x1ffffec, 25), (0x3ffffe2, 26),
  (0x3ffffe3, 26), (0x3ffffe4, 26), (0x7ffffde, 27), (0x7ffffdf, 27), (0x3ffffe5, 26),
  (0xfffff1, 24), (0x1ffffed, 25), (0x7fff2, 19), (0x1fffe3, 21), (0x3ffffe6, 26),
  (0x7ffffe0, 27), (0x7ffffe1, 27), (0x3ffffe7, 26), (0x7ffffe2, 27), (0xfffff2, 24),
  (0x1fffe4, 21), (0x1fffe5, 21), (0x3ffffe8, 26), (0x3ffffe9, 26), (0xffffffd, 28),
  (0x7ffffe3, 27), (0x7ffffe4, 27), (0x7ffffe5, 27), (0xfffec, 20), (0xfffff3, 24), (0xfffed, 20),
  (0x1fffe6, 21), (0x3fffe9, 22), (0x1fffe7, 21), (0x1fffe8, 21), (0x7ffff3, 23), (0x3fffea, 22),
  (0x3fffeb, 22), (0x1ffffee, 25), (0x1ffffef, 25), (0xfffff4, 24), (0xfffff5, 24),
  (0x3ffffea, 26), (0x7ffff4, 23), (0x3ffffeb, 26), (0x7ffffe6, 27), (0x3ffffec, 26),
  (0x3ffffed, 26), (0x7ffffe7, 27), (0x7ffffe8, 27), (0x7ffffe9, 27), (0x7ffffea, 27),
  (0x7ffffeb, 27), (0xffffffe, 28), (0x7ffffec, 27), (0x7ffffed, 27), (0x7ffffee, 27),
  (0x7ffffef, 27), (0x7fffff0, 27), (0x3ffffee, 26), (0x3fffffff, 30)]

/-! ### Integers -/

/-- The bytes of seven bits each, low ones first, that follow a full prefix. -/
def encodeRem (rem : ℕ) : Bytes :=
  if 128 ≤ rem then UInt8.ofNat (rem % 128 + 128) :: encodeRem (rem / 128)
  else [UInt8.ofNat rem]
termination_by rem

/-- `firstByte` has its low `prefixBits` bits clear. -/
def encodeInt (value prefixBits : ℕ) (firstByte : UInt8) : Bytes :=
  let maxPrefix := 2 ^ prefixBits - 1
  if value < maxPrefix then [firstByte ||| UInt8.ofNat value]
  else (firstByte ||| UInt8.ofNat maxPrefix) :: encodeRem (value - maxPrefix)

/-- The sum is a `u32`, and so is each shifted part of it. -/
def decodeRem : Bytes → ℕ → ℕ → Option (ℕ × Bytes)
  | [], _, _ => none
  | b :: buf, value, m =>
    let value := (value + b.toNat % 128 * 2 ^ m % 2 ^ 32) % 2 ^ 32
    if b.toNat < 128 then some (value, buf)
    else if 28 < m + 7 then none
    else decodeRem buf value (m + 7)

/-- The value and the buffer after it. -/
def hpackDecodeInt (buf : Bytes) (prefixBits : ℕ) : Option (ℕ × Bytes) :=
  match buf with
  | [] => none
  | b :: buf =>
    let mask := 2 ^ prefixBits - 1
    let value := b.toNat % 2 ^ prefixBits
    if value < mask then some (value, buf) else decodeRem buf value 0

/-! ### Huffman strings -/

def codeOf (b : UInt8) : ℕ × ℕ := huffmanCodes.getD b.toNat (0, 0)

/-- The bit at a position, the first bit of a byte being its highest. -/
def bitAt (buf : Bytes) (pos : ℕ) : Bool := (buf.getD (pos / 8) 0).toNat.testBit (7 - pos % 8)

def orAt (out : Bytes) (i : ℕ) (bits : ℕ) : Bytes := out.modify i (· ||| UInt8.ofNat bits)

/-- One byte's code, highest bit first, at the position where the last one ended. -/
def writeCode (s : Bytes × ℕ) (b : UInt8) : Bytes × ℕ :=
  let (code, len) := codeOf b
  (List.range len).foldl (fun (out, bitPos) i =>
    let bit := code / 2 ^ (len - 1 - i) % 2
    (orAt out (bitPos / 8) (bit * 2 ^ (7 - bitPos % 8)), bitPos + 1)) s

def hpackHuffmanEncode (input : Bytes) : Bytes :=
  let totalBits := (input.map fun b => (codeOf b).2).sum
  let (out, bitPos) := input.foldl writeCode (List.replicate ((totalBits + 7) / 8) 0, 0)
  if bitPos % 8 ≠ 0 then orAt out (bitPos / 8) (2 ^ (8 - bitPos % 8) - 1) else out

def bitsAt (buf : Bytes) (pos len : ℕ) : ℕ :=
  (List.range len).foldl (fun out i => out * 2 + (bitAt buf (pos + i)).toNat) 0

def lookupHuffman (window len : ℕ) : Option ℕ := huffmanCodes.findIdx? (· = (window, len))

/-- The shortest code that starts at a position, with its length. -/
def matchAt (input : Bytes) (bitPos : ℕ) : Option (ℕ × ℕ) :=
  (List.range' 5 26).findSome? fun len =>
    if input.length * 8 < bitPos + len then none
    else (lookupHuffman (bitsAt input bitPos len) len).map (·, len)

theorem matchAt_len {input : Bytes} {bitPos sym len : ℕ}
    (h : matchAt input bitPos = some (sym, len)) :
    5 ≤ len ∧ bitPos + len ≤ input.length * 8 ∧
      lookupHuffman (bitsAt input bitPos len) len = some sym := by
  obtain ⟨len', hmem, hl⟩ := List.exists_of_findSome?_eq_some h
  split_ifs at hl with hfit
  obtain ⟨sym', hsym, heq⟩ := Option.map_eq_some_iff.mp hl
  obtain ⟨rfl, rfl⟩ := Prod.mk.inj heq
  exact ⟨(List.mem_range'_1.mp hmem).1, Nat.not_lt.mp hfit, hsym⟩

/-- Up to seven bits of padding may follow the last code, all of them set. -/
def huffmanDecodeFrom (input : Bytes) (bitPos : ℕ) (out : Bytes) : Option Bytes :=
  if bitPos < input.length * 8 then
    match h : matchAt input bitPos with
    | some (sym, len) =>
      if sym = 256 then some out
      else huffmanDecodeFrom input (bitPos + len) (out ++ [UInt8.ofNat sym])
    | none =>
      let pad := input.length * 8 - bitPos
      if pad ≤ 7 ∧ bitsAt input bitPos pad = 2 ^ pad - 1 then some out else none
  else some out
termination_by input.length * 8 - bitPos
decreasing_by
  have := matchAt_len h
  omega

def hpackHuffmanDecode (input : Bytes) : Option Bytes := huffmanDecodeFrom input 0 []

/-! ### Strings -/

def encodeLiteralString (s : String) : Bytes :=
  let huff := hpackHuffmanEncode (utf8 s)
  if huff.length < (utf8 s).length then encodeInt (huff.length % 2 ^ 32) 7 0x80 ++ huff
  else encodeInt ((utf8 s).length % 2 ^ 32) 7 0x00 ++ utf8 s

def literalBytes (huff : Bool) (raw : Bytes) : Option Bytes :=
  if huff then hpackHuffmanDecode raw else some raw

/-- The string and the buffer after it. -/
def hpackDecodeString (buf : Bytes) : Option (String × Bytes) :=
  match hpackDecodeInt buf 7 with
  | none => none
  | some (len, rest) =>
    if rest.length < len then none
    else do
      let bytes ← literalBytes (128 ≤ (buf.headD 0).toNat) (rest.take len)
      let s ← fromUtf8 bytes
      return (s, rest.drop len)

/-! ### The dynamic table -/

structure HpackDynamicTable where
  maxBytes : ℕ
  entries : List Header
  deriving DecidableEq, Repr

def entriesBytes (entries : List Header) : ℕ :=
  (entries.map fun e => (utf8 e.1).length + (utf8 e.2).length + 32).sum

/-- The oldest entries go until the others fit. -/
def evict (maxBytes : ℕ) (entries : List Header) : List Header :=
  if maxBytes < entriesBytes entries ∧ entries ≠ [] then evict maxBytes entries.dropLast
  else entries
termination_by entries.length
decreasing_by
  rename_i h
  have := List.length_pos_iff.mpr h.2
  rw [List.length_dropLast]
  omega

namespace HpackDynamicTable

def new : HpackDynamicTable := ⟨4096, []⟩

def bytes (t : HpackDynamicTable) : ℕ := entriesBytes t.entries

def insert (t : HpackDynamicTable) (name value : String) : HpackDynamicTable :=
  { t with entries := evict t.maxBytes ((name, value) :: t.entries) }

def resize (t : HpackDynamicTable) (newSize : ℕ) : HpackDynamicTable :=
  ⟨newSize, evict newSize t.entries⟩

end HpackDynamicTable

/-- Index 1 is the first static entry, and the newest dynamic one follows the last. -/
def hpackLookup (idx : ℕ) (t : HpackDynamicTable) : Option Header :=
  if idx = 0 then none
  else if idx ≤ hpackStaticTable.length then hpackStaticTable[idx - 1]?
  else t.entries[idx - hpackStaticTable.length - 1]?

/-! ### Blocks -/

def toAsciiLowercase (s : String) : String := s.map Char.toLower

/-- A static entry by its index, or a literal to be indexed with its name by the first
static entry that has it, or a literal with both. -/
def hpackEncodeHeader (name value : String) : Bytes :=
  let lc := toAsciiLowercase name
  match hpackStaticTable.findIdx? (· = (lc, value)) with
  | some i => encodeInt (i + 1) 7 0x80
  | none =>
    match hpackStaticTable.findIdx? (·.1 = lc) with
    | some i => encodeInt (i + 1) 6 0x40 ++ encodeLiteralString value
    | none => 0x40 :: (encodeLiteralString lc ++ encodeLiteralString value)

def hpackEncodeBlock (headers : List Header) : Bytes :=
  headers.flatMap fun h => hpackEncodeHeader h.1 h.2

/-- The name of a literal field, by index or written out. -/
def decodeName (idx : ℕ) (buf : Bytes) (t : HpackDynamicTable) : Option (String × Bytes) :=
  if idx = 0 then hpackDecodeString buf else (hpackLookup idx t).map fun e => (e.1, buf)

/-- A literal field after the tag bits, and the buffer after it. -/
def decodeLiteral (prefixBits : ℕ) (buf : Bytes) (t : HpackDynamicTable) :
    Option (Header × Bytes) := do
  let (idx, rest) ← hpackDecodeInt buf prefixBits
  let (name, rest) ← decodeName idx rest t
  let (value, rest) ← hpackDecodeString rest
  return ((name, value), rest)

/-- One representation: the header it gives if any, the buffer after it, the table. -/
def decodeField (buf : Bytes) (t : HpackDynamicTable) :
    Option (Option Header × Bytes × HpackDynamicTable) :=
  if 128 ≤ (buf.headD 0).toNat then do
    let (idx, rest) ← hpackDecodeInt buf 7
    let h ← hpackLookup idx t
    return (some h, rest, t)
  else if 64 ≤ (buf.headD 0).toNat then do
    let (h, rest) ← decodeLiteral 6 buf t
    return (some h, rest, t.insert h.1 h.2)
  else if 32 ≤ (buf.headD 0).toNat then do
    let (newSize, rest) ← hpackDecodeInt buf 5
    return (none, rest, t.resize newSize)
  else do
    let (h, rest) ← decodeLiteral 4 buf t
    return (some h, rest, t)

theorem decodeRem_shorter {buf rest : Bytes} {value m v : ℕ}
    (h : decodeRem buf value m = some (v, rest)) : rest.length < buf.length := by
  induction buf generalizing value m with
  | nil => cases h
  | cons b buf ih =>
    simp only [decodeRem] at h
    split_ifs at h
    · obtain ⟨-, rfl⟩ := Prod.mk.inj (Option.some.inj h)
      exact Nat.lt_succ_self _
    · exact (ih h).trans (Nat.lt_succ_self _)

theorem hpackDecodeInt_shorter {buf rest : Bytes} {prefixBits v : ℕ}
    (h : hpackDecodeInt buf prefixBits = some (v, rest)) : rest.length < buf.length := by
  cases buf with
  | nil => cases h
  | cons b buf =>
    simp only [hpackDecodeInt] at h
    split_ifs at h
    · obtain ⟨-, rfl⟩ := Prod.mk.inj (Option.some.inj h)
      exact Nat.lt_succ_self _
    · exact (decodeRem_shorter h).trans (Nat.lt_succ_self _)

theorem hpackDecodeString_some {buf rest : Bytes} {s : String}
    (h : hpackDecodeString buf = some (s, rest)) :
    ∃ len rest₁ bytes, hpackDecodeInt buf 7 = some (len, rest₁) ∧ len ≤ rest₁.length ∧
      literalBytes (128 ≤ (buf.headD 0).toNat) (rest₁.take len) = some bytes ∧
      fromUtf8 bytes = some s ∧ rest = rest₁.drop len := by
  unfold hpackDecodeString at h
  split at h
  · cases h
  · rename_i len rest₁ hint
    split_ifs at h with hshort
    obtain ⟨bytes, hbytes, h⟩ := Option.bind_eq_some_iff.mp h
    obtain ⟨s', hs', h⟩ := Option.bind_eq_some_iff.mp h
    obtain ⟨rfl, rfl⟩ := Prod.mk.inj (Option.some.inj h)
    exact ⟨len, rest₁, bytes, hint, Nat.not_lt.mp hshort, hbytes, hs', rfl⟩

theorem hpackDecodeString_shorter {buf rest : Bytes} {s : String}
    (h : hpackDecodeString buf = some (s, rest)) : rest.length < buf.length := by
  obtain ⟨len, rest₁, _, hint, -, -, -, rfl⟩ := hpackDecodeString_some h
  have := hpackDecodeInt_shorter hint
  rw [List.length_drop]
  omega

theorem decodeName_length {idx : ℕ} {buf rest : Bytes} {t : HpackDynamicTable} {name : String}
    (h : decodeName idx buf t = some (name, rest)) : rest.length ≤ buf.length := by
  unfold decodeName at h
  split_ifs at h
  · exact (hpackDecodeString_shorter h).le
  · obtain ⟨e, -, he⟩ := Option.map_eq_some_iff.mp h
    exact (Prod.mk.inj he).2 ▸ le_rfl

theorem decodeLiteral_shorter {buf rest : Bytes} {bits : ℕ} {t : HpackDynamicTable}
    {e : Header} (h : decodeLiteral bits buf t = some (e, rest)) : rest.length < buf.length := by
  obtain ⟨⟨idx, rest₁⟩, hint, h⟩ := Option.bind_eq_some_iff.mp h
  obtain ⟨⟨name, rest₂⟩, hname, h⟩ := Option.bind_eq_some_iff.mp h
  obtain ⟨⟨value, rest₃⟩, hvalue, h⟩ := Option.bind_eq_some_iff.mp h
  obtain ⟨-, rfl⟩ := Prod.mk.inj (Option.some.inj h)
  have h₁ := hpackDecodeInt_shorter hint
  have h₂ := decodeName_length hname
  have h₃ := hpackDecodeString_shorter hvalue
  omega

theorem decodeField_shorter {buf rest : Bytes} {t t' : HpackDynamicTable}
    {field : Option Header} (h : decodeField buf t = some (field, rest, t')) :
    rest.length < buf.length := by
  unfold decodeField at h
  split_ifs at h
  · obtain ⟨⟨idx, rest₁⟩, hint, h⟩ := Option.bind_eq_some_iff.mp h
    obtain ⟨e, -, h⟩ := Option.bind_eq_some_iff.mp h
    obtain ⟨-, hrest⟩ := Prod.mk.inj (Option.some.inj h)
    obtain ⟨rfl, -⟩ := Prod.mk.inj hrest
    exact hpackDecodeInt_shorter hint
  · obtain ⟨⟨e, rest₁⟩, hlit, h⟩ := Option.bind_eq_some_iff.mp h
    obtain ⟨-, hrest⟩ := Prod.mk.inj (Option.some.inj h)
    obtain ⟨rfl, -⟩ := Prod.mk.inj hrest
    exact decodeLiteral_shorter hlit
  · obtain ⟨⟨newSize, rest₁⟩, hint, h⟩ := Option.bind_eq_some_iff.mp h
    obtain ⟨-, hrest⟩ := Prod.mk.inj (Option.some.inj h)
    obtain ⟨rfl, -⟩ := Prod.mk.inj hrest
    exact hpackDecodeInt_shorter hint
  · obtain ⟨⟨e, rest₁⟩, hlit, h⟩ := Option.bind_eq_some_iff.mp h
    obtain ⟨-, hrest⟩ := Prod.mk.inj (Option.some.inj h)
    obtain ⟨rfl, -⟩ := Prod.mk.inj hrest
    exact decodeLiteral_shorter hlit

/-- The headers of the rest of a block after those in `out`. A malformed block leaves the
table as its good part made it. -/
def decodeBlockFrom (buf : Bytes) (t : HpackDynamicTable) (out : List Header) :
    Option (List Header) × HpackDynamicTable :=
  if buf = [] then (some out, t)
  else
    match _h : decodeField buf t with
    | none => (none, t)
    | some (field, rest, t) => decodeBlockFrom rest t (out ++ field.toList)
termination_by buf.length
decreasing_by
  have := decodeField_shorter _h
  omega

def hpackDecodeBlock (buf : Bytes) (t : HpackDynamicTable) :
    Option (List Header) × HpackDynamicTable := decodeBlockFrom buf t []

end Conclave.Net.Hpack
