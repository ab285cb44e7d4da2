import Conclave.Tls.Record

/-! The TLS 1.3 key schedule over given hash functions. -/

namespace Conclave.Tls

open Lib

inductive HashAlg where
  | sha256 | sha384
  deriving DecidableEq, Repr

def HashAlg.outputLen : HashAlg → ℕ
  | .sha256 => 32
  | .sha384 => 48

/-- The hash primitives. Expansion fills a buffer of the requested length. -/
structure HashFns where
  hash : HashAlg → Bytes → Bytes
  hmac : HashAlg → Bytes → Bytes → Bytes
  hkdfExtract : HashAlg → Bytes → Bytes → Bytes
  hkdfExpand : HashAlg → Bytes → Bytes → ℕ → Bytes
  expand_length : ∀ a secret info n, (hkdfExpand a secret info n).length = n

/-- The bytes of an ASCII label. -/
def ascii (s : String) : Bytes := s.toList.map fun c => UInt8.ofNat c.toNat

variable (H : HashFns)

def hkdfExpandLabel (alg : HashAlg) (secret label context : Bytes) (length : ℕ) : Bytes :=
  let fullLabel := ascii "tls13 " ++ label
  let info := toBe 2 length ++ UInt8.ofNat fullLabel.length :: fullLabel ++
    UInt8.ofNat context.length :: context
  H.hkdfExpand alg secret info length

def deriveSecret (alg : HashAlg) (secret label transcript : Bytes) : Bytes :=
  hkdfExpandLabel H alg secret label (H.hash alg transcript) alg.outputLen

def zeroIkm (alg : HashAlg) : Bytes := List.replicate alg.outputLen 0

structure KeySchedule where
  alg : HashAlg
  earlySecret : Bytes
  handshakeSecret : Bytes
  masterSecret : Bytes
  deriving DecidableEq

namespace KeySchedule

def newNoPsk (alg : HashAlg) : KeySchedule :=
  ⟨alg, H.hkdfExtract alg (zeroIkm alg) (zeroIkm alg), [], []⟩

def advanceToHandshake (ks : KeySchedule) (ecdheShared : Bytes) : KeySchedule :=
  let salt := deriveSecret H ks.alg ks.earlySecret (ascii "derived") []
  { ks with handshakeSecret := H.hkdfExtract ks.alg salt ecdheShared }

def advanceToMaster (ks : KeySchedule) : KeySchedule :=
  let salt := deriveSecret H ks.alg ks.handshakeSecret (ascii "derived") []
  { ks with masterSecret := H.hkdfExtract ks.alg salt (zeroIkm ks.alg) }

def clientHandshakeTrafficSecret (ks : KeySchedule) (transcript : Bytes) : Bytes :=
  deriveSecret H ks.alg ks.handshakeSecret (ascii "c hs traffic") transcript

def serverHandshakeTrafficSecret (ks : KeySchedule) (transcript : Bytes) : Bytes :=
  deriveSecret H ks.alg ks.handshakeSecret (ascii "s hs traffic") transcript

def clientApplicationTrafficSecret (ks : KeySchedule) (transcript : Bytes) : Bytes :=
  deriveSecret H ks.alg ks.masterSecret (ascii "c ap traffic") transcript

def serverApplicationTrafficSecret (ks : KeySchedule) (transcript : Bytes) : Bytes :=
  deriveSecret H ks.alg ks.masterSecret (ascii "s ap traffic") transcript

end KeySchedule

/-- The record key of a traffic secret: `traffic_keys`, then `AeadKey::new`, whose
length assertions hold because expansion returns the length it is asked for. -/
def trafficKey (alg : HashAlg) (aead : Aead) (secret : Bytes) : AeadKey :=
  AeadKey.new aead (hkdfExpandLabel H alg secret (ascii "key") [] aead.keyLen)
    (hkdfExpandLabel H alg secret (ascii "iv") [] aead.ivLen)
    (H.expand_length _ _ _ _) (H.expand_length _ _ _ _)

end Conclave.Tls
