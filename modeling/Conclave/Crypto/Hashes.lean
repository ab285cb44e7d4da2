import Conclave.Lib.MerkleDamgard

/-! The hashes. A message comes in pieces, and the digest is that of the padded message. -/

namespace Conclave.Crypto

open Conclave.Lib

/-- What has been compressed, what waits for the rest of its block, and the bits of both. -/
structure Hasher (σ : Type) where
  core : Buffered σ UInt8
  lengthBits : ℕ

namespace Hasher

variable {σ : Type}

def new (init : σ) : Hasher σ := ⟨⟨init, []⟩, 0⟩

/-- The count of bits has `width` of them. -/
def update (compress : σ → Bytes → σ) (n width : ℕ) (h : Hasher σ) (data : Bytes) : Hasher σ :=
  ⟨h.core.absorb compress n data, (h.lengthBits + data.length * 8) % 2 ^ width⟩

/-- What is added is a piece like any other. -/
def finish (compress : σ → Bytes → σ) (n width : ℕ) (encode : ℕ → Bytes) (h : Hasher σ) : σ :=
  let length := encode h.lengthBits
  let pad := padPiece n length.length h.core.buffer.length
  ((h.update compress n width pad).update compress n width length).core.state

/-- What is added is written into the buffer. -/
def finishInPlace (compress : σ → Bytes → σ) (n : ℕ) (encode : ℕ → Bytes) (h : Hasher σ) : σ :=
  h.core.close compress n (encode h.lengthBits)

end Hasher

/-- The words of a block. -/
def words32 (toNat : Bytes → ℕ) (block : Bytes) : Array UInt32 :=
  Array.ofFn fun i : Fin 16 => UInt32.ofNat (toNat ((block.drop (i * 4)).take 4))

def words64 (block : Bytes) : Array UInt64 :=
  Array.ofFn fun i : Fin 16 => UInt64.ofNat (beNat ((block.drop (i * 8)).take 8))

def rotateLeft (x k : UInt32) : UInt32 := x <<< k ||| x >>> (32 - k)

def rotateRight (x k : UInt32) : UInt32 := x >>> k ||| x <<< (32 - k)

def rotateRight64 (x k : UInt64) : UInt64 := x >>> k ||| x <<< (64 - k)

/-! ### MD5 -/

namespace Md5

def S : Array UInt32 := #[
  7, 12, 17, 22, 7, 12, 17, 22, 7, 12, 17, 22, 7, 12, 17, 22, 5, 9, 14, 20, 5, 9, 14, 20, 5, 9, 14,
  20, 5, 9, 14, 20, 4, 11, 16, 23, 4, 11, 16, 23, 4, 11, 16, 23, 4, 11, 16, 23, 6, 10, 15, 21, 6,
  10, 15, 21, 6, 10, 15, 21, 6, 10, 15, 21]

def K : Array UInt32 := #[
  0xd76aa478, 0xe8c7b756, 0x242070db, 0xc1bdceee, 0xf57c0faf, 0x4787c62a, 0xa8304613, 0xfd469501,
  0x698098d8, 0x8b44f7af, 0xffff5bb1, 0x895cd7be, 0x6b901122, 0xfd987193, 0xa679438e, 0x49b40821,
  0xf61e2562, 0xc040b340, 0x265e5a51, 0xe9b6c7aa, 0xd62f105d, 0x02441453, 0xd8a1e681, 0xe7d3fbc8,
  0x21e1cde6, 0xc33707d6, 0xf4d50d87, 0x455a14ed, 0xa9e3e905, 0xfcefa3f8, 0x676f02d9, 0x8d2a4c8a,
  0xfffa3942, 0x8771f681, 0x6d9d6122, 0xfde5380c, 0xa4beea44, 0x4bdecfa9, 0xf6bb4b60, 0xbebfbc70,
  0x289b7ec6, 0xeaa127fa, 0xd4ef3085, 0x04881d05, 0xd9d4d039, 0xe6db99e5, 0x1fa27cf8, 0xc4ac5665,
  0xf4292244, 0x432aff97, 0xab9423a7, 0xfc93a039, 0x655b59c3, 0x8f0ccc92, 0xffeff47d, 0x85845dd1,
  0x6fa87e4f, 0xfe2ce6e0, 0xa3014314, 0x4e0811a1, 0xf7537e82, 0xbd3af235, 0x2ad7d2bb, 0xeb86d391]

def init : Vector UInt32 4 := #v[0x67452301, 0xefcdab89, 0x98badcfe, 0x10325476]

def round (m : Array UInt32) (s : Vector UInt32 4) (i : ℕ) : Vector UInt32 4 :=
  let a := s[0]
  let b := s[1]
  let c := s[2]
  let d := s[3]
  let fg : UInt32 × ℕ :=
    if i < 16 then (b &&& c ||| ~~~b &&& d, i)
    else if i < 32 then (d &&& b ||| ~~~d &&& c, (5 * i + 1) % 16)
    else if i < 48 then (b ^^^ c ^^^ d, (3 * i + 5) % 16)
    else (c ^^^ (b ||| ~~~d), 7 * i % 16)
  #v[d, b + rotateLeft (a + fg.1 + K.getD i 0 + m.getD fg.2 0) (S.getD i 0), b, c]

def compress (h : Vector UInt32 4) (block : Bytes) : Vector UInt32 4 :=
  h.zipWith (· + ·) ((List.range 64).foldl (round (words32 leNat block)) h)

def new : Hasher (Vector UInt32 4) := .new init

def update (h : Hasher (Vector UInt32 4)) (data : Bytes) : Hasher (Vector UInt32 4) :=
  h.update compress 64 64 data

def finalize (h : Hasher (Vector UInt32 4)) : Bytes :=
  (h.finish compress 64 64 (toLe 8)).toList.flatMap fun w => toLe 4 w.toNat

end Md5

/-! ### SHA-1 -/

namespace Sha1

def init : Vector UInt32 5 := #v[0x67452301, 0xEFCDAB89, 0x98BADCFE, 0x10325476, 0xC3D2E1F0]

def schedule (block : Bytes) : Array UInt32 :=
  (List.range' 16 64).foldl (fun w i => w.push (rotateLeft
    (w.getD (i - 3) 0 ^^^ w.getD (i - 8) 0 ^^^ w.getD (i - 14) 0 ^^^ w.getD (i - 16) 0) 1))
    (words32 beNat block)

def round (w : Array UInt32) (s : Vector UInt32 5) (i : ℕ) : Vector UInt32 5 :=
  let a := s[0]
  let b := s[1]
  let c := s[2]
  let d := s[3]
  let e := s[4]
  let fk : UInt32 × UInt32 :=
    if i < 20 then (b &&& c ||| ~~~b &&& d, 0x5A827999)
    else if i < 40 then (b ^^^ c ^^^ d, 0x6ED9EBA1)
    else if i < 60 then (b &&& c ||| b &&& d ||| c &&& d, 0x8F1BBCDC)
    else (b ^^^ c ^^^ d, 0xCA62C1D6)
  #v[rotateLeft a 5 + fk.1 + e + fk.2 + w.getD i 0, a, rotateLeft b 30, c, d]

def compress (h : Vector UInt32 5) (block : Bytes) : Vector UInt32 5 :=
  h.zipWith (· + ·) ((List.range 80).foldl (round (schedule block)) h)

def new : Hasher (Vector UInt32 5) := .new init

def update (h : Hasher (Vector UInt32 5)) (data : Bytes) : Hasher (Vector UInt32 5) :=
  h.update compress 64 64 data

def finalize (h : Hasher (Vector UInt32 5)) : Bytes :=
  (h.finish compress 64 64 (toBe 8)).toList.flatMap fun w => toBe 4 w.toNat

end Sha1

/-! ### RIPEMD-160 -/

namespace Ripemd160

def init : Vector UInt32 5 := #v[0x67452301, 0xEFCDAB89, 0x98BADCFE, 0x10325476, 0xC3D2E1F0]

def RL : Array ℕ := #[
  0, 1, 2, 3, 4, 5, 6, 7, 8, 9, 10, 11, 12, 13, 14, 15, 7, 4, 13, 1, 10, 6, 15, 3, 12, 0, 9, 5, 2,
  14, 11, 8, 3, 10, 14, 4, 9, 15, 8, 1, 2, 7, 0, 6, 13, 11, 5, 12, 1, 9, 11, 10, 0, 8, 12, 4, 13, 3,
  7, 15, 14, 5, 6, 2, 4, 0, 5, 9, 7, 12, 2, 10, 14, 1, 3, 8, 11, 6, 15, 13]

def RR : Array ℕ := #[
  5, 14, 7, 0, 9, 2, 11, 4, 13, 6, 15, 8, 1, 10, 3, 12, 6, 11, 3, 7, 0, 13, 5, 10, 14, 15, 8, 12, 4,
  9, 1, 2, 15, 5, 1, 3, 7, 14, 6, 9, 11, 8, 12, 2, 10, 0, 4, 13, 8, 6, 4, 1, 3, 11, 15, 0, 5, 12, 2,
  13, 9, 7, 10, 14, 12, 15, 10, 4, 1, 5, 8, 7, 6, 2, 13, 14, 0, 3, 9, 11]

def SL : Array UInt32 := #[
  11, 14, 15, 12, 5, 8, 7, 9, 11, 13, 14, 15, 6, 7, 9, 8, 7, 6, 8, 13, 11, 9, 7, 15, 7, 12, 15, 9,
  11, 7, 13, 12, 11, 13, 6, 7, 14, 9, 13, 15, 14, 8, 13, 6, 5, 12, 7, 5, 11, 12, 14, 15, 14, 15, 9,
  8, 9, 14, 5, 6, 8, 6, 5, 12, 9, 15, 5, 11, 6, 8, 13, 12, 5, 12, 13, 14, 11, 8, 5, 6]

def SR : Array UInt32 := #[
  8, 9, 9, 11, 13, 15, 15, 5, 7, 7, 8, 11, 14, 14, 12, 6, 9, 13, 15, 7, 12, 8, 9, 11, 7, 7, 12, 7,
  6, 15, 13, 11, 9, 7, 15, 11, 8, 6, 6, 14, 12, 13, 5, 14, 13, 13, 7, 5, 15, 5, 8, 11, 14, 14, 6,
  14, 6, 9, 12, 9, 12, 5, 15, 8, 8, 5, 12, 9, 12, 5, 14, 6, 8, 13, 6, 5, 15, 13, 11, 11]

def KL : Array UInt32 := #[0x00000000, 0x5A827999, 0x6ED9EBA1, 0x8F1BBCDC, 0xA953FD4E]

def KR : Array UInt32 := #[0x50A28BE6, 0x5C4DD124, 0x6D703EF3, 0x7A6D76E9, 0x00000000]

def f (j : ℕ) (x y z : UInt32) : UInt32 :=
  if j < 16 then x ^^^ y ^^^ z
  else if j < 32 then x &&& y ||| ~~~x &&& z
  else if j < 48 then (x ||| ~~~y) ^^^ z
  else if j < 64 then x &&& z ||| y &&& ~~~z
  else x ^^^ (y ||| ~~~z)

/-- A step of one line: the function, the word, the constant and the rotation are its own. -/
def line (j : ℕ) (x k r : UInt32) (s : Vector UInt32 5) : Vector UInt32 5 :=
  #v[s[4], rotateLeft (s[0] + f j s[1] s[2] s[3] + x + k) r + s[4], s[1], rotateLeft s[2] 10, s[3]]

def round (x : Array UInt32) (s : Vector UInt32 5 × Vector UInt32 5) (j : ℕ) :
    Vector UInt32 5 × Vector UInt32 5 :=
  let group := j / 16
  (line j (x.getD (RL.getD j 0) 0) (KL.getD group 0) (SL.getD j 0) s.1,
    line ((4 - group) * 16 + j % 16) (x.getD (RR.getD j 0) 0) (KR.getD group 0) (SR.getD j 0) s.2)

def compress (h : Vector UInt32 5) (block : Bytes) : Vector UInt32 5 :=
  let s := (List.range 80).foldl (round (words32 leNat block)) (h, h)
  let l := s.1
  let r := s.2
  #v[h[1] + l[2] + r[3], h[2] + l[3] + r[4], h[3] + l[4] + r[0], h[4] + l[0] + r[1],
    h[0] + l[1] + r[2]]

def new : Hasher (Vector UInt32 5) := .new init

def update (h : Hasher (Vector UInt32 5)) (data : Bytes) : Hasher (Vector UInt32 5) :=
  h.update compress 64 64 data

def finalize (h : Hasher (Vector UInt32 5)) : Bytes :=
  (h.finish compress 64 64 (toLe 8)).toList.flatMap fun w => toLe 4 w.toNat

end Ripemd160

/-! ### SHA-256 -/

namespace Sha256

def K : Array UInt32 := #[
  0x428a2f98, 0x71374491, 0xb5c0fbcf, 0xe9b5dba5, 0x3956c25b, 0x59f111f1, 0x923f82a4, 0xab1c5ed5,
  0xd807aa98, 0x12835b01, 0x243185be, 0x550c7dc3, 0x72be5d74, 0x80deb1fe, 0x9bdc06a7, 0xc19bf174,
  0xe49b69c1, 0xefbe4786, 0x0fc19dc6, 0x240ca1cc, 0x2de92c6f, 0x4a7484aa, 0x5cb0a9dc, 0x76f988da,
  0x983e5152, 0xa831c66d, 0xb00327c8, 0xbf597fc7, 0xc6e00bf3, 0xd5a79147, 0x06ca6351, 0x14292967,
  0x27b70a85, 0x2e1b2138, 0x4d2c6dfc, 0x53380d13, 0x650a7354, 0x766a0abb, 0x81c2c92e, 0x92722c85,
  0xa2bfe8a1, 0xa81a664b, 0xc24b8b70, 0xc76c51a3, 0xd192e819, 0xd6990624, 0xf40e3585, 0x106aa070,
  0x19a4c116, 0x1e376c08, 0x2748774c, 0x34b0bcb5, 0x391c0cb3, 0x4ed8aa4a, 0x5b9cca4f, 0x682e6ff3,
  0x748f82ee, 0x78a5636f, 0x84c87814, 0x8cc70208, 0x90befffa, 0xa4506ceb, 0xbef9a3f7, 0xc67178f2]

def H0 : Vector UInt32 8 := #v[
  0x6a09e667, 0xbb67ae85, 0x3c6ef372, 0xa54ff53a, 0x510e527f, 0x9b05688c, 0x1f83d9ab, 0x5be0cd19]

def schedule (block : Bytes) : Array UInt32 :=
  (List.range' 16 48).foldl (fun w i =>
    let x := w.getD (i - 15) 0
    let y := w.getD (i - 2) 0
    let s0 := rotateRight x 7 ^^^ rotateRight x 18 ^^^ x >>> 3
    let s1 := rotateRight y 17 ^^^ rotateRight y 19 ^^^ y >>> 10
    w.push (w.getD (i - 16) 0 + s0 + w.getD (i - 7) 0 + s1)) (words32 beNat block)

def round (w : Array UInt32) (s : Vector UInt32 8) (i : ℕ) : Vector UInt32 8 :=
  let a := s[0]
  let b := s[1]
  let c := s[2]
  let e := s[4]
  let f := s[5]
  let g := s[6]
  let s1 := rotateRight e 6 ^^^ rotateRight e 11 ^^^ rotateRight e 25
  let ch := e &&& f ^^^ ~~~e &&& g
  let t1 := s[7] + s1 + ch + K.getD i 0 + w.getD i 0
  let s0 := rotateRight a 2 ^^^ rotateRight a 13 ^^^ rotateRight a 22
  let mj := a &&& b ^^^ a &&& c ^^^ b &&& c
  #v[t1 + (s0 + mj), a, b, c, s[3] + t1, e, f, g]

def compress (state : Vector UInt32 8) (block : Bytes) : Vector UInt32 8 :=
  state.zipWith (· + ·) ((List.range 64).foldl (round (schedule block)) state)

def new : Hasher (Vector UInt32 8) := .new H0

def update (h : Hasher (Vector UInt32 8)) (data : Bytes) : Hasher (Vector UInt32 8) :=
  h.update compress 64 64 data

def finalize (h : Hasher (Vector UInt32 8)) : Bytes :=
  (h.finishInPlace compress 64 (toBe 8)).toList.flatMap fun w => toBe 4 w.toNat

end Sha256

/-! ### SHA-512 and SHA-384 -/

namespace Sha512

def K : Array UInt64 := #[
  0x428a2f98d728ae22, 0x7137449123ef65cd, 0xb5c0fbcfec4d3b2f, 0xe9b5dba58189dbbc,
  0x3956c25bf348b538, 0x59f111f1b605d019, 0x923f82a4af194f9b, 0xab1c5ed5da6d8118,
  0xd807aa98a3030242, 0x12835b0145706fbe, 0x243185be4ee4b28c, 0x550c7dc3d5ffb4e2,
  0x72be5d74f27b896f, 0x80deb1fe3b1696b1, 0x9bdc06a725c71235, 0xc19bf174cf692694,
  0xe49b69c19ef14ad2, 0xefbe4786384f25e3, 0x0fc19dc68b8cd5b5, 0x240ca1cc77ac9c65,
  0x2de92c6f592b0275, 0x4a7484aa6ea6e483, 0x5cb0a9dcbd41fbd4, 0x76f988da831153b5,
  0x983e5152ee66dfab, 0xa831c66d2db43210, 0xb00327c898fb213f, 0xbf597fc7beef0ee4,
  0xc6e00bf33da88fc2, 0xd5a79147930aa725, 0x06ca6351e003826f, 0x142929670a0e6e70,
  0x27b70a8546d22ffc, 0x2e1b21385c26c926, 0x4d2c6dfc5ac42aed, 0x53380d139d95b3df,
  0x650a73548baf63de, 0x766a0abb3c77b2a8, 0x81c2c92e47edaee6, 0x92722c851482353b,
  0xa2bfe8a14cf10364, 0xa81a664bbc423001, 0xc24b8b70d0f89791, 0xc76c51a30654be30,
  0xd192e819d6ef5218, 0xd69906245565a910, 0xf40e35855771202a, 0x106aa07032bbd1b8,
  0x19a4c116b8d2d0c8, 0x1e376c085141ab53, 0x2748774cdf8eeb99, 0x34b0bcb5e19b48a8,
  0x391c0cb3c5c95a63, 0x4ed8aa4ae3418acb, 0x5b9cca4f7763e373, 0x682e6ff3d6b2b8a3,
  0x748f82ee5defb2fc, 0x78a5636f43172f60, 0x84c87814a1f0ab72, 0x8cc702081a6439ec,
  0x90befffa23631e28, 0xa4506cebde82bde9, 0xbef9a3f7b2c67915, 0xc67178f2e372532b,
  0xca273eceea26619c, 0xd186b8c721c0c207, 0xeada7dd6cde0eb1e, 0xf57d4f7fee6ed178,
  0x06f067aa72176fba, 0x0a637dc5a2c898a6, 0x113f9804bef90dae, 0x1b710b35131c471b,
  0x28db77f523047d84, 0x32caab7b40c72493, 0x3c9ebe0a15c9bebc, 0x431d67c49c100d4c,
  0x4cc5d4becb3e42b6, 0x597f299cfc657e2a, 0x5fcb6fab3ad6faec, 0x6c44198c4a475817]

def init : Vector UInt64 8 := #v[
  0x6a09e667f3bcc908, 0xbb67ae8584caa73b, 0x3c6ef372fe94f82b, 0xa54ff53a5f1d36f1,
  0x510e527fade682d1, 0x9b05688c2b3e6c1f, 0x1f83d9abfb41bd6b, 0x5be0cd19137e2179]

def schedule (block : Bytes) : Array UInt64 :=
  (List.range' 16 64).foldl (fun w i =>
    let x := w.getD (i - 15) 0
    let y := w.getD (i - 2) 0
    let s0 := rotateRight64 x 1 ^^^ rotateRight64 x 8 ^^^ x >>> 7
    let s1 := rotateRight64 y 19 ^^^ rotateRight64 y 61 ^^^ y >>> 6
    w.push (w.getD (i - 16) 0 + s0 + w.getD (i - 7) 0 + s1)) (words64 block)

def round (w : Array UInt64) (s : Vector UInt64 8) (i : ℕ) : Vector UInt64 8 :=
  let a := s[0]
  let b := s[1]
  let c := s[2]
  let e := s[4]
  let f := s[5]
  let g := s[6]
  let s1 := rotateRight64 e 14 ^^^ rotateRight64 e 18 ^^^ rotateRight64 e 41
  let ch := e &&& f ^^^ ~~~e &&& g
  let t1 := s[7] + s1 + ch + K.getD i 0 + w.getD i 0
  let s0 := rotateRight64 a 28 ^^^ rotateRight64 a 34 ^^^ rotateRight64 a 39
  let maj := a &&& b ^^^ a &&& c ^^^ b &&& c
  #v[t1 + (s0 + maj), a, b, c, s[3] + t1, e, f, g]

def compress (h : Vector UInt64 8) (block : Bytes) : Vector UInt64 8 :=
  h.zipWith (· + ·) ((List.range 80).foldl (round (schedule block)) h)

end Sha512

/-- The count of bits is in two words. -/
structure Sha512 where
  core : Buffered (Vector UInt64 8) UInt8
  msgLenLow : UInt64
  msgLenHigh : UInt64

namespace Sha512

def new : Sha512 := ⟨⟨init, []⟩, 0, 0⟩

def update (h : Sha512) (data : Bytes) : Sha512 :=
  let bits := data.length * 8
  let newLow := h.msgLenLow + UInt64.ofNat bits
  let carried := if newLow < h.msgLenLow then h.msgLenHigh + 1 else h.msgLenHigh
  ⟨h.core.absorb compress 128 data, newLow, carried + UInt64.ofNat (bits >>> 64)⟩

def finalize (h : Sha512) : Bytes :=
  let pad := padPiece 128 16 h.core.buffer.length
  let closed := ((h.update pad).update (toBe 8 h.msgLenHigh.toNat)).update (toBe 8 h.msgLenLow.toNat)
  closed.core.state.toList.flatMap fun w => toBe 8 w.toNat

end Sha512

namespace Sha384

def H0 : Vector UInt64 8 := #v[
  0xcbbb9d5dc1059ed8, 0x629a292a367cd507, 0x9159015a3070dd17, 0x152fecd8f70e5939,
  0x67332667ffc00b31, 0x8eb44a8768581511, 0xdb0c2e0d64f98fa7, 0x47b5481dbefa4fa4]

/-- The tables and the rounds are those of SHA-512. -/
def compress : Vector UInt64 8 → Bytes → Vector UInt64 8 := Sha512.compress

def new : Hasher (Vector UInt64 8) := .new H0

def update (h : Hasher (Vector UInt64 8)) (data : Bytes) : Hasher (Vector UInt64 8) :=
  h.update compress 128 128 data

def finalize (h : Hasher (Vector UInt64 8)) : Bytes :=
  ((h.finishInPlace compress 128 (toBe 16)).toList.take 6).flatMap fun w => toBe 8 w.toNat

end Sha384

end Conclave.Crypto
