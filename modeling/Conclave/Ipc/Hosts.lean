import Conclave.Lib.Text

/-! The hosts of URLs: numeric addresses, Punycode, and the normal form of a host. -/

namespace Conclave.Ipc

open Lib

inductive UrlError where
  | empty
  | invalidScheme
  | missingHost
  | invalidPort
  | invalidHost
  deriving DecidableEq, Repr

def isAscii (c : Char) : Bool := c.toNat < 128

/-- `str::split_once`: what stands before the first occurrence, and after it. -/
def splitOnce (sep : Text) : Text → Option (Text × Text)
  | [] => if sep = [] then some ([], []) else none
  | c :: s =>
    if sep <+: c :: s then some ([], (c :: s).drop sep.length)
    else (splitOnce sep s).map fun r => (c :: r.1, r.2)

def contains (sep s : Text) : Bool := (splitOnce sep s).isSome

/-! ### IPv4 -/

def isHexDigit (c : Char) : Bool :=
  c.isDigit || ('a'.toNat ≤ c.toNat && c.toNat ≤ 'f'.toNat) ||
    ('A'.toNat ≤ c.toNat && c.toNat ≤ 'F'.toNat)

def digitValue (c : Char) : ℕ :=
  if c.isDigit then c.toNat - '0'.toNat else c.toLower.toNat - 'a'.toNat + 10

/-- `u32::from_str_radix` on digits. -/
def fromRadix (radix : ℕ) (digits : Text) : Except UrlError ℕ :=
  let n := digits.foldl (fun n c => radix * n + digitValue c) 0
  if digits ≠ [] ∧ digits.all (fun c => isHexDigit c && digitValue c < radix) ∧ n < 2 ^ 32 then .ok n
  else .error .invalidHost

def stripHex (p : Text) : Option Text :=
  (Text.stripPrefix "0x".toList p).or (Text.stripPrefix "0X".toList p)

def looksNumeric (p : Text) : Bool :=
  match stripHex p with
  | some hex => hex != [] && hex.all isHexDigit
  | none => p != [] && p.all Char.isDigit

def parsePart (p : Text) : Except UrlError ℕ :=
  match stripHex p with
  | some hex => fromRadix 16 hex
  | none => if 1 < p.length ∧ p.head? = some '0' then fromRadix 8 p else fromRadix 10 p

/-- The parts as an address: the last one takes the octets that are left. -/
def combine : List ℕ → Except UrlError (Option ℕ)
  | [a] => if 0xFFFFFFFF < a then .error .invalidHost else .ok (some a)
  | [a, b] =>
    if 0xFF < a ∨ 0xFFFFFF < b then .error .invalidHost else .ok (some (a * 2 ^ 24 + b))
  | [a, b, c] =>
    if 0xFF < a ∨ 0xFF < b ∨ 0xFFFF < c then .error .invalidHost
    else .ok (some (a * 2 ^ 24 + b * 2 ^ 16 + c))
  | [a, b, c, d] =>
    if 0xFF < a ∨ 0xFF < b ∨ 0xFF < c ∨ 0xFF < d then .error .invalidHost
    else .ok (some (a * 2 ^ 24 + b * 2 ^ 16 + c * 2 ^ 8 + d))
  | _ => .ok none

def decimal (n : ℕ) : Text := (toString n).toList

def dotted (addr : ℕ) : Text :=
  decimal (addr / 2 ^ 24 % 256) ++ '.' :: decimal (addr / 2 ^ 16 % 256) ++
    '.' :: decimal (addr / 2 ^ 8 % 256) ++ '.' :: decimal (addr % 256)

/-- The dotted text of a numeric address; none of what does not look like one. -/
def tryParseIpv4 (s : Text) : Except UrlError (Option Text) :=
  if !s.all fun c => c.isAlphanum || c == '.' then .ok none
  else if 4 < (s.splitOn '.').length then .ok none
  else if !(s.splitOn '.').all looksNumeric then .ok none
  else do return (← combine (← (s.splitOn '.').mapM parsePart)).map dotted

/-! ### IPv6 -/

def parseIpv6Piece (s : Text) : Except UrlError ℕ :=
  if s = [] ∨ 4 < s.length ∨ ¬ s.all isHexDigit then .error .invalidHost else fromRadix 16 s

/-- The pieces on the right of the double colon, from the last one: `ridx` is the place of
the next one, and `idx` the number of those on the left. -/
def fillRight (idx : ℕ) : ℕ → List Text → List ℕ → Except UrlError (List ℕ)
  | _, [], filled => .ok filled
  | ridx, part :: parts, filled =>
    if ridx < idx then .error .invalidHost
    else do
      let piece ← parseIpv6Piece part
      match ridx with
      | 0 => return piece :: filled
      | ridx + 1 => fillRight idx ridx parts (piece :: filled)

def colonParts (s : Text) : List Text := if s = [] then [] else s.splitOn ':'

structure ZeroRun where
  bestStart : ℕ
  bestLen : ℕ
  curStart : ℕ
  curLen : ℕ

/-- One group at the place `i` of the search for the longest run of zeros. -/
def ZeroRun.next (r : ZeroRun) (g i : ℕ) : ZeroRun :=
  if g = 0 then
    let start := if r.curLen = 0 then i else r.curStart
    let len := r.curLen + 1
    if r.bestLen < len then ⟨start, len, start, len⟩ else { r with curStart := start, curLen := len }
  else { r with curLen := 0 }

def hex (n : ℕ) : Text := Nat.toDigits 16 n

/-- The text after the group at the place `i`; only the first group of the run that is left
out writes its colons. -/
def serializeGroup (skipped : ZeroRun) (out : Text) (g i : ℕ) : Text :=
  if 2 ≤ skipped.bestLen ∧ i = skipped.bestStart then out ++ "::".toList
  else if 2 ≤ skipped.bestLen ∧ skipped.bestStart < i ∧ i < skipped.bestStart + skipped.bestLen then
    out
  else if out ≠ [] ∧ ¬ "::".toList <:+ out then out ++ ':' :: hex g
  else out ++ hex g

def serializeIpv6 (groups : List ℕ) : Text :=
  let zeros := groups.zipIdx.foldl (fun r g => r.next g.1 g.2) ⟨0, 0, 0, 0⟩
  groups.zipIdx.foldl (fun out g => serializeGroup zeros out g.1 g.2) []

def parseIpv6 (inner : Text) : Except UrlError Text :=
  match splitOnce "::".toList inner with
  | some (before, after) =>
    if contains "::".toList after then .error .invalidHost
    else do
      if 8 < (colonParts before).length then throw .invalidHost
      let left ← (colonParts before).mapM parseIpv6Piece
      let right ← fillRight left.length 7 (colonParts after).reverse []
      return serializeIpv6 (left ++ List.replicate (8 - left.length - right.length) 0 ++ right)
  | none =>
    if (inner.splitOn ':').length ≠ 8 then .error .invalidHost
    else do return serializeIpv6 (← (inner.splitOn ':').mapM parseIpv6Piece)

/-! ### Punycode -/

def digitToChar (d : ℕ) : Char :=
  if d < 26 then Char.ofNat ('a'.toNat + d) else Char.ofNat ('0'.toNat + (d - 26))

/-- The loop that makes a delta small, with the number of its rounds times the base. -/
def adaptLoop : ℕ → ℕ → ℕ → ℕ × ℕ
  | 0, delta, k => (delta, k)
  | fuel + 1, delta, k => if 455 < delta then adaptLoop fuel (delta / 35) (k + 36) else (delta, k)

def adapt (delta numPoints : ℕ) (firstTime : Bool) : ℕ :=
  let delta := if firstTime then delta / 700 else delta / 2
  let delta := delta + delta / numPoints
  let (delta, k) := adaptLoop delta delta 0
  k + 36 * delta / (delta + 38)

/-- A delta as digits, the last one first below its threshold. -/
def variableLength (bias : ℕ) : ℕ → ℕ → ℕ → Text
  | 0, _, q => [digitToChar q]
  | fuel + 1, k, q =>
    let t := if k ≤ bias + 1 then 1 else if bias + 26 ≤ k then 26 else k - bias
    if q < t then [digitToChar q]
    else digitToChar (t + (q - t) % (36 - t)) ::
      variableLength bias fuel (k + 36) ((q - t) / (36 - t))

structure Encoder where
  output : Text
  delta : ℕ
  bias : ℕ
  handled : ℕ

def saturating (n : ℕ) : ℕ := min n (2 ^ 32 - 1)

/-- One code point of a pass at `n`; `basic` of them are ASCII. -/
def Encoder.next (basic n : ℕ) (e : Encoder) (cp : ℕ) : Encoder :=
  let delta := if cp < n then saturating (e.delta + 1) else e.delta
  if cp = n then
    { output := e.output ++ variableLength e.bias (delta + 1) 36 delta
      delta := 0
      bias := adapt delta (e.handled + 1) (e.handled = basic)
      handled := e.handled + 1 }
  else { e with delta := delta }

/-- Pass after pass, as long as there are code points not yet handled. -/
def encodePasses (codePoints : List ℕ) (basic : ℕ) : ℕ → ℕ → Encoder → Text
  | 0, _, e => e.output
  | fuel + 1, n, e =>
    if e.handled < codePoints.length then
      let m := ((codePoints.filter (n ≤ ·)).min?).getD n
      let delta := saturating (e.delta + saturating ((m - n) * (e.handled + 1)))
      let e := codePoints.foldl (Encoder.next basic m) { e with delta := delta }
      encodePasses codePoints basic fuel (m + 1) { e with delta := e.delta + 1 }
    else e.output

def punycodeEncode (input : Text) : Text :=
  let output := input.filter isAscii
  let basic := output.length
  let output := if 0 < basic then output ++ ['-'] else output
  -- Every pass handles a code point at least.
  encodePasses (input.map Char.toNat) basic input.length 128 ⟨output, 0, 72, basic⟩

/-! ### Normal forms -/

def isForbiddenHostChar (c : Char) : Bool :=
  c ∈ ['\x00', '\t', '\n', '\r', ' ', '#', '/', ':', '?', '@', '[', '\\', ']']

/-- The lower case of a text in Unicode: the tables of the language. -/
structure Casing where
  toLowercase : Text → Text
  toLowercase_ascii : ∀ t, toLowercase (Text.toAsciiLowercase t) = toLowercase t
  ascii_mem : ∀ t, ∀ c ∈ toLowercase t, isAscii c → c.isAlphanum ∨ c ∈ t

variable (casing : Casing)

def normalizeLabel (label : Text) : Text :=
  if label.all isAscii then Text.toAsciiLowercase label
  else "xn--".toList ++ punycodeEncode (casing.toLowercase label)

def normalizeHost (s : Text) : Except UrlError Text :=
  if s = [] then .error .invalidHost
  else if s.any isForbiddenHostChar then .error .invalidHost
  else if s.all isAscii then do
    match ← tryParseIpv4 (Text.toAsciiLowercase s) with
    | some ipv4 => return ipv4
    | none => return Text.toAsciiLowercase s
  else .ok (['.'].intercalate ((s.splitOn '.').map (normalizeLabel casing)))

end Conclave.Ipc
