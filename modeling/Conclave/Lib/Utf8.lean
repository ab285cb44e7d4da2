import Conclave.Lib.Bytes
import Conclave.Lib.Text
import Conclave.Lib.Transducer

/-! UTF-8 read byte by byte, where U+FFFD stands for each longest part of a character that
cannot be completed. -/

namespace Conclave.Lib

inductive Utf8State where
  | ground
  /-- So many bytes are missing, the next one between two bounds, after a value. -/
  | partway (missing lower upper value : ℕ)
  deriving DecidableEq, Repr

def replacement : Char := '\uFFFD'

/-- The first byte of a character. -/
def utf8First (b : ℕ) : Utf8State × Text :=
  if b < 0x80 then (.ground, [Char.ofNat b])
  else if 0xc2 ≤ b ∧ b < 0xe0 then (.partway 1 0x80 0xbf (b - 0xc0), [])
  else if 0xe0 ≤ b ∧ b < 0xf0 then
    (.partway 2 (if b = 0xe0 then 0xa0 else 0x80) (if b = 0xed then 0x9f else 0xbf) (b - 0xe0), [])
  else if 0xf0 ≤ b ∧ b < 0xf5 then
    (.partway 3 (if b = 0xf0 then 0x90 else 0x80) (if b = 0xf4 then 0x8f else 0xbf) (b - 0xf0), [])
  else (.ground, [replacement])

def utf8Step : Utf8State → UInt8 → Utf8State × Text
  | .ground, b => utf8First b.toNat
  | .partway missing lower upper value, b =>
    if lower ≤ b.toNat ∧ b.toNat ≤ upper then
      let value := 64 * value + (b.toNat - 0x80)
      if missing ≤ 1 then (.ground, [Char.ofNat value])
      else (.partway (missing - 1) 0x80 0xbf value, [])
    else
      let next := utf8First b.toNat
      (next.1, replacement :: next.2)

/-- A character that is cut off at the end is replaced too. -/
def fromUtf8Lossy (bytes : Bytes) : Text :=
  let next := transduce utf8Step .ground bytes
  next.2 ++ if next.1 = .ground then [] else [replacement]

example : fromUtf8Lossy [0x61, 0xe2, 0x82, 0xac, 0xe2, 0x82, 0x62, 0xff] =
    ['a', '€', '\uFFFD', 'b', '\uFFFD'] := by decide

theorem fromUtf8Lossy_of_ground {bytes : Bytes}
    (h : (transduce utf8Step .ground bytes).1 = .ground) :
    fromUtf8Lossy bytes = (transduce utf8Step .ground bytes).2 := by
  simp [fromUtf8Lossy, h]

end Conclave.Lib
