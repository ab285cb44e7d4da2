import Conclave.Lib.Blocks
import Conclave.Lib.Codec

/-! Poly1305 on three limbs of 44, 44 and 42 bits. A sum or a product that does not fit its
integer type gives nothing. -/

namespace Conclave.Crypto

open Conclave.Lib

/-- `[u8; 32]` -/
abbrev PolyKey := Vector UInt8 32

/-- A result of checked arithmetic on integers of so many bits. -/
def checked (bits n : ℕ) : Option ℕ := if n < 2 ^ bits then some n else none

/-- The bits that are left of `a << k` in 64. -/
def shl64 (a k : ℕ) : ℕ := (a <<< k) % 2 ^ 64

/-- The last 44 bits. -/
def mask44 : ℕ := 2 ^ 44 - 1

def mask42 : ℕ := 2 ^ 42 - 1

structure Limbs where
  l0 : ℕ
  l1 : ℕ
  l2 : ℕ
  deriving DecidableEq

/-- The key in its two halves, and the accumulator. -/
structure Poly1305 where
  r : Limbs
  s : Fin 4 → ℕ
  h : Limbs

/-- `u32::from_le_bytes` of four bytes of a block. -/
def word (block : Bytes) (i : ℕ) : ℕ := leNat ((block.drop (4 * i)).take 4)

def clampBytes (key : Bytes) : Bytes :=
  (((((((key.take 16).modify 3 (· &&& 15)).modify 7 (· &&& 15)).modify 11 (· &&& 15)).modify 15
    (· &&& 15)).modify 4 (· &&& 252)).modify 8 (· &&& 252)).modify 12 (· &&& 252)

namespace Poly1305

def new (key : PolyKey) : Buffered Poly1305 UInt8 :=
  let rBytes := clampBytes key.toList
  let r0 := word rBytes 0
  let r1 := word rBytes 1
  let r2 := word rBytes 2
  let r3 := word rBytes 3
  { state :=
      { r :=
          { l0 := r0 ||| (shl64 r1 32 &&& mask44)
            l1 := ((r1 >>> 12) ||| shl64 r2 20) &&& mask44
            l2 := ((r2 >>> 24) ||| shl64 r3 8) &&& mask42 }
        s := fun i => word (key.toList.drop 16) i
        h := ⟨0, 0, 0⟩ }
    buffer := [] }

/-- The products of the limbs, where the ones past the top come back twenty times. -/
def products (h r : Limbs) : Option (ℕ × ℕ × ℕ) := do
  let s1 := r.l1 * (5 <<< 2) % 2 ^ 64
  let s2 := r.l2 * (5 <<< 2) % 2 ^ 64
  let d0 ← checked 128 ((← checked 128 ((← checked 128 (h.l0 * r.l0)) +
    (← checked 128 (h.l1 * s2)))) + (← checked 128 (h.l2 * s1)))
  let d1 ← checked 128 ((← checked 128 ((← checked 128 (h.l0 * r.l1)) +
    (← checked 128 (h.l1 * r.l0)))) + (← checked 128 (h.l2 * s2)))
  let d2 ← checked 128 ((← checked 128 ((← checked 128 (h.l0 * r.l2)) +
    (← checked 128 (h.l1 * r.l1)))) + (← checked 128 (h.l2 * r.l0)))
  return (d0, d1, d2)

/-- The carries of the products, the last one five times into the first limb. -/
def carry (d0 d1 d2 : ℕ) : Option Limbs := do
  let c0 := d0 >>> 44
  let h0 := d0 % 2 ^ 64 &&& mask44
  let d1 ← checked 128 (d1 + c0)
  let c0 := d1 >>> 44
  let h1 := d1 % 2 ^ 64 &&& mask44
  let d2 ← checked 128 (d2 + c0)
  let c0 := d2 >>> 42
  let h2 := d2 % 2 ^ 64 &&& mask42
  let h0 ← checked 64 (h0 + (← checked 64 (c0 % 2 ^ 64 * 5)))
  let c := h0 >>> 44
  let h0 := h0 &&& mask44
  let h1 ← checked 64 (h1 + c)
  return ⟨h0, h1, h2⟩

/-- The accumulator with a block added. -/
def addBlock (h : Limbs) (block : Bytes) (hibit : ℕ) : Option Limbs := do
  let t0 := word block 0
  let t1 := word block 1
  let t2 := word block 2
  let t3 := word block 3
  let h0 ← checked 64 (h.l0 + ((t0 ||| shl64 t1 32) &&& mask44))
  let h1 ← checked 64 (h.l1 + (((t1 >>> 12) ||| shl64 t2 20) &&& mask44))
  let h2 ← checked 64 (h.l2 + (((t2 >>> 24) ||| shl64 t3 8) ||| shl64 hibit 40))
  return ⟨h0, h1, h2⟩

def processBlock (p : Poly1305) (block : Bytes) (hibit : ℕ) : Option Poly1305 := do
  let h ← addBlock p.h block hibit
  let d ← products h p.r
  let h ← carry d.1 d.2.1 d.2.2
  return { p with h := h }

def update (p : Buffered Poly1305 UInt8) (data : Bytes) : Option (Buffered Poly1305 UInt8) :=
  p.takeIn (fun p block => p.processBlock block 1) 16 data

/-- One pass of carries through the limbs, from the second to the first. -/
def propagate (h : Limbs) : Option Limbs := do
  let c := h.l1 >>> 44
  let h1 := h.l1 &&& mask44
  let h2 ← checked 64 (h.l2 + c)
  let c := h2 >>> 42
  let h2 := h2 &&& mask42
  let h0 ← checked 64 (h.l0 + (← checked 64 (c * 5)))
  let c := h0 >>> 44
  let h0 := h0 &&& mask44
  let h1 ← checked 64 (h1 + c)
  return ⟨h0, h1, h2⟩

/-- The accumulator, or what is left of it after the prime. -/
def select (h : Limbs) : Option Limbs := do
  let g0 ← checked 64 (h.l0 + 5)
  let c := g0 >>> 44
  let g0 := g0 &&& mask44
  let g1 ← checked 64 (h.l1 + c)
  let c := g1 >>> 44
  let g1 := g1 &&& mask44
  let g2 := ((← checked 64 (h.l2 + c)) + 2 ^ 64 - 2 ^ 42) % 2 ^ 64
  let selectG := ((g2 >>> 63) + 2 ^ 64 - 1) % 2 ^ 64
  let keep := 2 ^ 64 - 1 - selectG
  return ⟨(h.l0 &&& keep) ||| (g0 &&& selectG), (h.l1 &&& keep) ||| (g1 &&& selectG),
    (h.l2 &&& keep) ||| (g2 &&& selectG)⟩

/-- The limbs as words of 32 bits, the sums with the other half of the key, and their bytes. -/
def repack (h : Limbs) (s : Fin 4 → ℕ) : Option Bytes := do
  let w0 := h.l0 % 2 ^ 32
  let w1 := ((h.l0 >>> 32) ||| shl64 h.l1 12) % 2 ^ 32
  let w2 := ((h.l1 >>> 20) ||| shl64 h.l2 24) % 2 ^ 32
  let w3 := (h.l2 >>> 8) % 2 ^ 32
  let r0 ← checked 64 (w0 + s 0)
  let r1 ← checked 64 ((← checked 64 (w1 + s 1)) + (r0 >>> 32))
  let r2 ← checked 64 ((← checked 64 (w2 + s 2)) + (r1 >>> 32))
  let r3 ← checked 64 ((← checked 64 (w3 + s 3)) + (r2 >>> 32))
  return toLe 4 (r0 % 2 ^ 32) ++ toLe 4 (r1 % 2 ^ 32) ++ toLe 4 (r2 % 2 ^ 32) ++ toLe 4 (r3 % 2 ^ 32)

/-- What is buffered, a one and zeros. -/
def lastBlock (buffer : Bytes) : Bytes := (buffer ++ 1 :: List.replicate 16 0).take 16

def finalize (p : Buffered Poly1305 UInt8) : Option Bytes := do
  let q ← if p.buffer = [] then some p.state else p.state.processBlock (lastBlock p.buffer) 0
  let h ← propagate (← propagate q.h)
  repack (← select h) q.s

/-- The tag of a message that comes in pieces. -/
def tag (key : PolyKey) (pieces : List Bytes) : Option Bytes := do
  finalize (← pieces.foldlM update (new key))

def oneshot (key : PolyKey) (msg : Bytes) : Option Bytes := tag key [msg]

end Poly1305

end Conclave.Crypto
