import Conclave.Crypto.Modular
import Conclave.Crypto.Octets

/-! Verification of RSA signatures: the functions of the code, and what RFC 8017 has them do.
A subtraction below zero, a shift by the width of its type or an index out of bounds gives
`none`. -/

namespace Conclave.Crypto

open Conclave.Lib
open BigUint

inductive CryptoError where
  | badLength
  | badTag
  deriving DecidableEq

inductive Hash where
  | sha1
  | sha256
  | sha384
  | sha512
  deriving DecidableEq

namespace Hash

def digestInfoPrefix : Hash → Bytes
  | sha1 => [0x30, 0x21, 0x30, 0x09, 0x06, 0x05, 0x2b, 0x0e, 0x03, 0x02, 0x1a, 0x05, 0x00, 0x04, 0x14]
  | sha256 => [0x30, 0x31, 0x30, 0x0d, 0x06, 0x09, 0x60, 0x86, 0x48, 0x01, 0x65, 0x03, 0x04, 0x02,
      0x01, 0x05, 0x00, 0x04, 0x20]
  | sha384 => [0x30, 0x41, 0x30, 0x0d, 0x06, 0x09, 0x60, 0x86, 0x48, 0x01, 0x65, 0x03, 0x04, 0x02,
      0x02, 0x05, 0x00, 0x04, 0x30]
  | sha512 => [0x30, 0x51, 0x30, 0x0d, 0x06, 0x09, 0x60, 0x86, 0x48, 0x01, 0x65, 0x03, 0x04, 0x02,
      0x03, 0x05, 0x00, 0x04, 0x40]

def digestLen : Hash → ℕ
  | sha1 => 20
  | sha256 => 32
  | sha384 => 48
  | sha512 => 64

end Hash

/-- The hash functions. -/
abbrev Digest := (hash : Hash) → Bytes → Vector UInt8 hash.digestLen

structure RsaPublicKey where
  n : BigUint
  e : BigUint
  nByteLen : ℕ

/-- The last byte stays, whatever it is. -/
def stripLeadingZero : Bytes → Bytes
  | a :: b :: bytes => if a = 0 then stripLeadingZero (b :: bytes) else a :: b :: bytes
  | bytes => bytes

def RsaPublicKey.fromComponents (nBe eBe : Bytes) : RsaPublicKey where
  nByteLen := (stripLeadingZero nBe).length
  n := fromBeBytes (stripLeadingZero nBe)
  e := fromBeBytes (stripLeadingZero eBe)

/-- `&bytes[start..stop]` -/
def slice (bytes : Bytes) (start stop : ℕ) : Option Bytes :=
  if start ≤ stop ∧ stop ≤ bytes.length then some ((bytes.take stop).drop start) else none

def mgf1 (digest : Digest) (hash : Hash) (seed : Bytes) (maskLen : ℕ) : Bytes :=
  ((List.range ((maskLen + hash.digestLen - 1) / hash.digestLen)).flatMap fun counter =>
    (digest hash (seed ++ toBe 4 (counter % 2 ^ 32))).toList).take maskLen

/-- `db[0] &= 0xFF >> bits` for `bits > 0`, on bytes. -/
def zeroTop (bits : ℕ) (db : Bytes) : Option Bytes :=
  if bits = 0 then some db
  else if bits < 8 then db.head?.map fun b => (b &&& 0xff >>> UInt8.ofNat bits) :: db.tail
  else none

def ctEq (a b : Bytes) : Bool :=
  a.length == b.length && (List.zipWith (· ^^^ ·) a b).foldl (· ||| ·) 0 == 0

/-- The second half of `verify_pss`: the data block, its padding and the hash. -/
def checkDb (digest : Digest) (hash : Hash) (msg em : Bytes) (emLen emBits : ℕ) :
    Option (Except CryptoError Unit) := do
  let hLen := hash.digestLen
  let sLen := hLen
  let dbLen := emLen - hLen - 1
  let maskedDb ← slice em 0 dbLen
  let h ← slice em dbLen (emLen - 1)
  let db := List.zipWith (· ^^^ ·) maskedDb (mgf1 digest hash h dbLen)
  let db ← zeroTop (8 * emLen - emBits) db
  let psLen := dbLen - sLen - 1
  if (← slice db 0 psLen).any (· ≠ 0) then return .error .badTag
  if (← db[psLen]?) ≠ 1 then return .error .badTag
  let salt ← slice db (psLen + 1) db.length
  let mprime := List.replicate 8 0 ++ (digest hash msg).toList ++ salt
  if !ctEq h (digest hash mprime).toList then return .error .badTag
  return .ok ()

def verifyPss (digest : Digest) (key : RsaPublicKey) (hash : Hash) (msg signature : Bytes) :
    Option (Except CryptoError Unit) := do
  let modBits := key.n.bitLen
  let emLen := (modBits + 7) / 8
  if modBits = 0 then none
  let emBits := modBits - 1
  if signature.length ≠ emLen then return .error .badLength
  let em := (← powMod (fromBeBytes signature) key.e key.n).toBeBytes emLen
  if emLen < hash.digestLen + hash.digestLen + 2 then return .error .badLength
  if (← em[emLen - 1]?) ≠ 0xbc then return .error .badTag
  checkDb digest hash msg em emLen emBits

def verifyPkcs1V15 (digest : Digest) (key : RsaPublicKey) (hash : Hash) (msg signature : Bytes) :
    Option (Except CryptoError Unit) := do
  let k := key.nByteLen
  if signature.length ≠ k then return .error .badLength
  let em := (← powMod (fromBeBytes signature) key.e key.n).toBeBytes k
  let tPrefix := hash.digestInfoPrefix
  let d := (digest hash msg).toList
  let tLen := tPrefix.length + d.length
  if k < tLen + 11 then return .error .badLength
  if (← em[0]?) ≠ 0 || (← em[1]?) ≠ 1 then return .error .badTag
  let psEnd := k - tLen - 1
  if (← slice em 2 psEnd).any (· ≠ 0xff) then return .error .badTag
  if (← em[psEnd]?) ≠ 0 then return .error .badTag
  let tField ← slice em (psEnd + 1) em.length
  if (← slice tField 0 tPrefix.length) ≠ tPrefix then return .error .badTag
  if (← slice tField tPrefix.length tField.length) ≠ d then return .error .badTag
  return .ok ()

section Rfc

variable (digest : Digest) (hash : Hash) (msg : Bytes)

/-- The length of a number in octets. -/
def octets (n : ℕ) : ℕ := (n.size + 7) / 8

/-- What EMSA-PKCS1-v1_5 encodes a message as, if there is room for it. -/
def emsaPkcs1 (emLen : ℕ) : Option Bytes :=
  let t := hash.digestInfoPrefix ++ (digest hash msg).toList
  if emLen < t.length + 11 then none
  else some (0 :: 1 :: (List.replicate (emLen - t.length - 3) 0xff ++ 0 :: t))

/-- RSASSA-PKCS1-v1_5-VERIFY. -/
def ValidPkcs1 (n e : ℕ) (signature : Bytes) : Prop :=
  signature.length = octets n ∧ beNat signature < n ∧
    emsaPkcs1 digest hash msg (octets n) = some (toBe (octets n) (beNat signature ^ e % n))

/-- The leading `maskLen` octets of the hashes that MGF1 puts together. -/
def maskOf (seed : Bytes) (maskLen : ℕ) : Bytes :=
  ((List.range ((maskLen + hash.digestLen - 1) / hash.digestLen)).flatMap fun counter =>
    (digest hash (seed ++ toBe 4 counter)).toList).take maskLen

/-- A data block with its leading `bits` bits set to zero. -/
def cleared (bits : ℕ) (db : Bytes) : Bytes :=
  match db with
  | [] => []
  | b :: db => UInt8.ofNat (b.toNat % 2 ^ (8 - bits)) :: db

/-- The form of an encoded message that EMSA-PSS-VERIFY asks for, apart from the leading bits of
the masked data block and the limit of MGF1. The salt is as long as the hash. -/
def PssForm (em : Bytes) (emBits : ℕ) : Prop :=
  let emLen := (emBits + 7) / 8
  let hLen := hash.digestLen
  em.length = emLen ∧ hLen + hLen + 2 ≤ emLen ∧
    ∃ maskedDb salt : Bytes, ∃ h : Vector UInt8 hLen,
      em = maskedDb ++ h.toList ++ [0xbc] ∧ salt.length = hLen ∧
      cleared (8 * emLen - emBits)
          (List.zipWith (· ^^^ ·) maskedDb (maskOf digest hash h.toList maskedDb.length)) =
        List.replicate (emLen - hLen - hLen - 2) 0 ++ 1 :: salt ∧
      h = digest hash (List.replicate 8 0 ++ (digest hash msg).toList ++ salt)

/-- EMSA-PSS-VERIFY. -/
def Consistent (em : Bytes) (emBits : ℕ) : Prop :=
  PssForm digest hash msg em emBits ∧ beNat em < 2 ^ emBits ∧
    em.length - hash.digestLen - 1 ≤ 2 ^ 32 * hash.digestLen

/-- RSASSA-PSS-VERIFY. -/
def ValidPss (n e : ℕ) (signature : Bytes) : Prop :=
  let emBits := n.size - 1
  let emLen := (emBits + 7) / 8
  signature.length = octets n ∧ beNat signature < n ∧
    beNat signature ^ e % n < 2 ^ (8 * emLen) ∧
      Consistent digest hash msg (toBe emLen (beNat signature ^ e % n)) emBits

end Rfc

end Conclave.Crypto
