import Conclave.Crypto.Rsa

/-! AES-GCM: the hash, the counter stream, sealing and opening. The block cipher under its
key is a parameter. -/

namespace Conclave.Crypto

open Conclave.Lib

/-- `[u8; 16]` -/
structure Block where
  bytes : Bytes
  length : bytes.length = 16
  deriving DecidableEq

/-- `[u8; 12]` -/
structure Nonce where
  bytes : Bytes
  length : bytes.length = 12

namespace Block

def zero : Block := ⟨List.replicate 16 0, rfl⟩

def xor (a b : Block) : Block :=
  ⟨List.zipWith (· ^^^ ·) a.bytes b.bytes, by rw [List.length_zipWith, a.length, b.length]; rfl⟩

/-- `v[i] & mask` for each byte. -/
def mask (v : Block) (m : UInt8) : Block :=
  ⟨v.bytes.map (· &&& m), by rw [List.length_map, v.length]⟩

/-- The first bytes of a block of zeros, overwritten. -/
def overwrite (part : Bytes) : Block :=
  ⟨(part ++ List.replicate 16 0).take 16, by
    rw [List.length_take, List.length_append, List.length_replicate]
    omega⟩

end Block

/-! ### The hash -/

/-- A shift of bytes by one bit: what came out of the byte before goes in at the top. -/
def shiftBytes : UInt8 → Bytes → UInt8 × Bytes
  | carry, [] => (carry, [])
  | carry, byte :: bytes =>
    let r := shiftBytes (byte &&& 1) bytes
    (r.1, (byte >>> 1 ||| carry <<< 7) :: r.2)

theorem shiftBytes_length (carry : UInt8) (bytes : Bytes) :
    (shiftBytes carry bytes).2.length = bytes.length := by
  induction bytes generalizing carry with
  | nil => rfl
  | cons byte bytes ih => rw [shiftBytes, List.length_cons, ih, List.length_cons]

def gfShiftRight (v : Block) : Block :=
  let r := shiftBytes 0 v.bytes
  ⟨if r.1 ≠ 0 then r.2.modifyHead (· ^^^ 0xe1) else r.2, by
    have hlen : r.2.length = 16 := (shiftBytes_length 0 v.bytes).trans v.length
    split_ifs
    · rw [List.length_modifyHead, hlen]
    · exact hlen⟩

/-- The masks of a byte, from its top bit on. -/
def bitMasks (byte : UInt8) : List UInt8 :=
  ([7, 6, 5, 4, 3, 2, 1, 0] : List UInt8).map fun bit =>
    (0 : UInt8) - (byte >>> bit &&& 1)

def ghashMul (y h : Block) : Block :=
  ((y.bytes.flatMap bitMasks).foldl
    (fun s mask => (s.1.xor (s.2.mask mask), gfShiftRight s.2)) (Block.zero, h)).1

def ghashUpdate (h state block : Block) : Block := ghashMul (state.xor block) h

def ghashPad (h state : Block) (data : Bytes) : Block :=
  let full := data.length / 16
  let state := (List.range full).foldl
    (fun state i => ghashUpdate h state (.overwrite ((data.drop (i * 16)).take 16))) state
  if data.length % 16 ≠ 0 then ghashUpdate h state (.overwrite (data.drop (full * 16))) else state

/-- The lengths in bits, as integers of 64 bits. -/
def lengths (aad ct : Bytes) : Block :=
  ⟨toBe 8 (aad.length * 8) ++ toBe 8 (ct.length * 8), by
    rw [List.length_append, toBe_length, toBe_length]⟩

def ghash (h : Block) (aad ct : Bytes) : Block :=
  ghashUpdate h (ghashPad h (ghashPad h .zero aad) ct) (lengths aad ct)

/-! ### The counter stream -/

/-- `inc32`: the last four bytes count, and wrap. -/
def inc32 (block : Block) : Block :=
  ⟨block.bytes.take 12 ++ toBe 4 (beNat (block.bytes.drop 12) + 1), by
    rw [List.length_append, toBe_length, List.length_take, block.length]; rfl⟩

/-- A turn for every block of the input, each with its own counter. -/
def ctrLoop (encrypt : Block → Block) : ℕ → Block → Bytes → Bytes
  | 0, _, _ => []
  | fuel + 1, counter, input =>
    if input = [] then []
    else List.zipWith (· ^^^ ·) input (encrypt counter).bytes ++
      ctrLoop encrypt fuel (inc32 counter) (input.drop 16)

/-- Every turn takes a byte at least. -/
def ctrXor (encrypt : Block → Block) (j0 : Block) (input : Bytes) : Bytes :=
  ctrLoop encrypt input.length (inc32 j0) input

/-! ### Sealing and opening -/

def j0 (nonce : Nonce) : Block :=
  ⟨nonce.bytes ++ [0, 0, 0, 1], by rw [List.length_append, nonce.length]; rfl⟩

def gcmTag (encrypt : Block → Block) (nonce : Nonce) (aad ct : Bytes) : Block :=
  (encrypt (j0 nonce)).xor (ghash (encrypt .zero) aad ct)

def gcmSeal (encrypt : Block → Block) (nonce : Nonce) (aad plaintext : Bytes) : Bytes :=
  let ct := ctrXor encrypt (j0 nonce) plaintext
  ct ++ (gcmTag encrypt nonce aad ct).bytes

def gcmOpen (encrypt : Block → Block) (nonce : Nonce) (aad sealed : Bytes) :
    Except CryptoError Bytes :=
  if sealed.length < 16 then .error .badLength
  else
    let ct := sealed.take (sealed.length - 16)
    if !ctEq (gcmTag encrypt nonce aad ct).bytes (sealed.drop (sealed.length - 16)) then
      .error .badTag
    else .ok (ctrXor encrypt (j0 nonce) ct)

end Conclave.Crypto
