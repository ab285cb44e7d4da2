import Conclave.Crypto.GcmExact

/-! QUIC packets before the handshake: variable-length integers, long headers, the keys of
Initial packets, and the Initial packet of a client. The key derivation function and AES
are parameters; `none` where the code panics. -/

namespace Conclave.Net.Quic

open Lib Crypto

/-! ### Integers and headers -/

def encodeVarint (v : ℕ) : Option Bytes :=
  if v < 2 ^ 6 then some [UInt8.ofNat v]
  else if v < 2 ^ 14 then some ((toBe 2 v).modifyHead (· ||| 0x40))
  else if v < 2 ^ 30 then some ((toBe 4 v).modifyHead (· ||| 0x80))
  else if v < 2 ^ 62 then some ((toBe 8 v).modifyHead (· ||| 0xc0))
  else none

def decodeVarint (buf : Bytes) : Option (ℕ × ℕ) :=
  match buf with
  | [] => none
  | b :: _ =>
    let len := 2 ^ (b >>> 6).toNat
    if buf.length < len then none
    else some (beNat ((buf.take len).modifyHead (· &&& 0x3f)), len)

inductive LongPacketType where
  | initial
  | zeroRtt
  | handshake
  | retry
  deriving DecidableEq, Repr

def LongPacketType.fromBits (b : UInt8) : LongPacketType :=
  if b &&& 3 = 0 then initial else if b &&& 3 = 1 then zeroRtt
  else if b &&& 3 = 2 then handshake else retry

structure LongHeader where
  packetType : LongPacketType
  version : ℕ
  dcid : Bytes
  scid : Bytes
  payloadOffset : ℕ
  deriving DecidableEq, Repr

def parseLongHeader (buf : Bytes) : Option LongHeader :=
  if buf.length < 7 then none
  else if buf.getD 0 0 &&& 0x80 = 0 then none
  else
    let dcidLen := (buf.getD 5 0).toNat
    if buf.length < 6 + dcidLen + 1 then none
    else
      let scidOff := 6 + dcidLen
      let scidLen := (buf.getD scidOff 0).toNat
      if buf.length < scidOff + 1 + scidLen then none
      else some
        { packetType := .fromBits (buf.getD 0 0 >>> 4)
          version := beNat ((buf.drop 1).take 4)
          dcid := (buf.drop 6).take dcidLen
          scid := (buf.drop (scidOff + 1)).take scidLen
          payloadOffset := scidOff + 1 + scidLen }

/-! ### Keys -/

/-- HKDF over SHA-256. -/
structure Hkdf where
  extract : Bytes → Bytes → Bytes
  expand : Bytes → Bytes → (n : ℕ) → Vector UInt8 n

def initialSaltV1 : Bytes := [0x38, 0x76, 0x2c, 0xf7, 0xf5, 0x59, 0x34, 0xb3, 0x4d, 0x17, 0x9a,
  0xe6, 0xa4, 0xc8, 0x0c, 0xad, 0xcc, 0xbb, 0x7f, 0x0a]

def hkdfExpandLabel (hkdf : Hkdf) (secret label context : Bytes) (outLen : ℕ) : Vector UInt8 outLen :=
  hkdf.expand secret (toBe 2 outLen ++ [UInt8.ofNat (6 + label.length)] ++ utf8 "tls13 " ++ label ++
    [UInt8.ofNat context.length] ++ context) outLen

structure InitialKeys where
  key : Block
  iv : Nonce
  hp : Block

def deriveClientInitialKeys (hkdf : Hkdf) (dcid : Bytes) : InitialKeys :=
  let initialSecret := hkdf.extract initialSaltV1 dcid
  let clientSecret := (hkdfExpandLabel hkdf initialSecret (utf8 "client in") [] 32).toList
  { key := ⟨(hkdfExpandLabel hkdf clientSecret (utf8 "quic key") [] 16).toList, by simp⟩
    iv := ⟨(hkdfExpandLabel hkdf clientSecret (utf8 "quic iv") [] 12).toList, by simp⟩
    hp := ⟨(hkdfExpandLabel hkdf clientSecret (utf8 "quic hp") [] 16).toList, by simp⟩ }

/-- The packet number into the last eight bytes. -/
def buildNonce (iv : Nonce) (packetNumber : ℕ) : Nonce :=
  ⟨List.zipWith (· ^^^ ·) iv.bytes (List.replicate 4 0 ++ toBe 8 packetNumber), by
    rw [List.length_zipWith, iv.length, List.length_append, toBe_length]; rfl⟩

def encryptPayload (aes : Block → Block → Block) (key : Block) (iv : Nonce) (packetNumber : ℕ)
    (aad payload : Bytes) : Bytes :=
  gcmSeal (aes key) (buildNonce iv packetNumber) aad payload

def decryptPayload (aes : Block → Block → Block) (key : Block) (iv : Nonce) (packetNumber : ℕ)
    (aad ciphertext : Bytes) : Option Bytes :=
  (gcmOpen (aes key) (buildNonce iv packetNumber) aad ciphertext).toOption

/-! ### The Initial packet -/

/-- Eight random bytes. -/
structure ConnectionId where
  bytes : Bytes
  length : bytes.length = 8

def applyHeaderProtection (aes : Block → Block → Block) (packet : Bytes) (hp : Block)
    (pnOffset pnLen : ℕ) : Bytes :=
  if packet.length < pnOffset + 4 + 16 then packet
  else
    let mask := (aes hp (.overwrite ((packet.drop (pnOffset + 4)).take 16))).bytes
    (List.range pnLen).foldl (fun p i => p.modify (pnOffset + i) (· ^^^ mask.getD (1 + i) 0))
      (packet.modify 0 (· ^^^ (mask.getD 0 0 &&& 0x0f)))

/-- The CRYPTO frame of a payload, at the offset 0. -/
def cryptoFrame (payload : Bytes) : Option Bytes := do
  return 0x06 :: (← encodeVarint 0) ++ (← encodeVarint payload.length) ++ payload

/-- The long header up to the packet number. -/
def initialHeader (scid dcid : ConnectionId) (lengthField : ℕ) : Option Bytes := do
  return [0xc0] ++ toBe 4 1 ++ [8] ++ dcid.bytes ++ [8] ++ scid.bytes ++ (← encodeVarint 0) ++
    (← encodeVarint lengthField)

/-- The datagram; the connection ids are the random ones, and the packet number is 0, in a
byte. -/
def buildInitialPacket (hkdf : Hkdf) (aes : Block → Block → Block) (scid dcid : ConnectionId)
    (payload : Bytes) : Option Bytes := do
  let keys := deriveClientInitialKeys hkdf dcid.bytes
  let frames ← cryptoFrame payload
  let start ← initialHeader scid dcid (1 + frames.length + 16)
  let header := start ++ [0]
  let packet := header ++ encryptPayload aes keys.key keys.iv 0 header frames
  let packet := applyHeaderProtection aes packet keys.hp start.length 1
  return if packet.length < 1200 then packet ++ List.replicate (1200 - packet.length) 0 else packet

end Conclave.Net.Quic
