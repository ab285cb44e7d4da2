import Conclave.Lib.Bytes
import Conclave.Lib.Limbs
import Conclave.Lib.Loops

/-! Unsigned integers in 64-bit limbs: schoolbook multiplication and the long division of
Knuth's Algorithm D. A step that would panic, or overflow its 128-bit intermediate, gives
`none`. -/

namespace Conclave.Crypto

open Conclave.Lib

/-- Little-endian limbs. Every function that builds one trims the zeros on top. -/
@[ext]
structure BigUint where
  limbs : List UInt64
  normal : limbs.getLast? ≠ some 0

/-- A `u128` computation that stays in its type. -/
def u128 (n : ℕ) : Option ℕ := if n < 2 ^ 128 then some n else none

/-- An `i128` computation that stays in its type. -/
def i128 (z : ℤ) : Option ℤ := if -2 ^ 127 ≤ z ∧ z < 2 ^ 127 then some z else none

/-- A `u128` `as u64`. -/
def low (n : ℕ) : UInt64 := UInt64.ofNat n

/-- An `i128` `as u64`. -/
def lowInt (z : ℤ) : UInt64 := UInt64.ofNat (z % radix).toNat

/-- `hi << 64 | lo` on `u128`. -/
def wide (hi lo : ℕ) : ℕ := hi * radix % 2 ^ 128 ||| lo

/-- `xs[i] = x` -/
def store (xs : List UInt64) (i : ℕ) (x : UInt64) : Option (List UInt64) :=
  if i < xs.length then some (xs.set i x) else none

/-- `rposition(|&l| l != 0)` -/
def rposition (limbs : List UInt64) : Option ℕ :=
  (List.range limbs.length).reverse.find? fun i => limbs.getD i 0 != 0

def leadingZeros (l : UInt64) : UInt64 := if l = 0 then 64 else UInt64.ofNat (63 - l.toNat.log2)

namespace BigUint

def zero : BigUint := ⟨[], by simp⟩

/-- `normalize` -/
def ofLimbs (limbs : List UInt64) : BigUint := ⟨trimmed limbs, getLast?_trimmed limbs⟩

def toNat (a : BigUint) : ℕ := value a.limbs

def fromU64 (v : UInt64) : BigUint := ofLimbs [v]

def isZero (a : BigUint) : Bool := a.limbs.all (· == 0)

/-- The limbs below `i` compared, from the top. -/
def cmpBelow (a b : List UInt64) : ℕ → Option Ordering
  | 0 => some .eq
  | i + 1 => do
    match compare (← a[i]?) (← b[i]?) with
    | .eq => cmpBelow a b i
    | o => some o

def cmp (a b : BigUint) : Option Ordering :=
  match rposition a.limbs, rposition b.limbs with
  | none, none => some .eq
  | none, some _ => some .lt
  | some _, none => some .gt
  | some i, some j => if i ≠ j then some (compare i j) else cmpBelow a.limbs b.limbs (i + 1)

end BigUint

open BigUint

/-- One product of a row, added to what the row has. -/
def mulStep (ai : ℕ) (b : List UInt64) (i j : ℕ) (out : List UInt64) (carry : ℕ) :
    Option (List UInt64 × ℕ) := do
  let prod ← u128 (ai * (← b[j]?).toNat + (← out[i + j]?).toNat + carry)
  some (← store out (i + j) (low prod), prod / radix)

def mulRow (a b : List UInt64) (i : ℕ) (out : List UInt64) : Option (List UInt64) := do
  let ai := (← a[i]?).toNat
  let (out, carry) ← upTo b.length (fun j s => mulStep ai b i j s.1 s.2) (out, 0)
  store out (i + b.length) (low carry)

def mulFull (a b : BigUint) : Option BigUint :=
  if a.isZero || b.isZero then some zero
  else (upTo a.limbs.length (mulRow a.limbs b.limbs)
    (List.replicate (a.limbs.length + b.limbs.length) 0)).map ofLimbs

def shlFrom (shift : UInt64) : UInt64 → List UInt64 → List UInt64
  | carry, [] => if carry ≠ 0 then [carry] else []
  | carry, l :: limbs => (l <<< shift ||| carry) :: shlFrom shift (l >>> (64 - shift)) limbs

def shlLimbs (limbs : List UInt64) (shift : UInt64) : List UInt64 :=
  if shift = 0 then limbs else shlFrom shift 0 limbs

/-- The shifted limbs and the carry into the limb below them. -/
def shrFrom (shift : UInt64) : List UInt64 → List UInt64 × UInt64
  | [] => ([], 0)
  | l :: limbs =>
    let (out, carry) := shrFrom shift limbs
    ((l >>> shift ||| carry) :: out, l <<< (64 - shift))

def shrLimbs (limbs : List UInt64) (shift : UInt64) : List UInt64 :=
  if shift = 0 then limbs else (shrFrom shift limbs).1

/-- One limb of the division by a single limb `d`. -/
def shortStep (u : List UInt64) (d i : ℕ) (q : List UInt64) (r : ℕ) :
    Option (List UInt64 × ℕ) := do
  let cur := wide r (← u[i]?).toNat
  some (← store q i (low (cur / d)), cur % d)

/-- The test on a trial digit. -/
def tooLarge (v₀ u₀ qhat rhat : ℕ) : Option Bool :=
  if radix ≤ qhat then some true
  else (u128 (qhat * v₀)).map fun p => decide (wide rhat 0 + u₀ < p)

/-- The trial digit, lowered as long as the test with the next limbs fails. -/
def correct (v₁ v₀ u₀ qhat rhat : ℕ) : Option ℕ := do
  if ← tooLarge v₀ u₀ qhat rhat then
    match qhat with
    | 0 => none
    | qhat + 1 =>
      let rhat ← u128 (rhat + v₁)
      if rhat < radix then correct v₁ v₀ u₀ qhat rhat else some qhat
  else some qhat

/-- D3: the digit estimated from the top limbs. -/
def estimate (vn : List UInt64) (n j : ℕ) (un : List UInt64) : Option ℕ := do
  let v₁ := (← vn[n - 1]?).toNat
  let num := wide (← un[j + n]?).toNat (← un[j + n - 1]?).toNat
  if v₁ = 0 then none
  else correct v₁ (← vn[n - 2]?).toNat (← un[j + n - 2]?).toNat (num / v₁) (num % v₁)

/-- One limb of D4: `un[j ..= j + n] -= qhat * v` with a signed borrow `k`. -/
def mulSubStep (qhat : ℕ) (vn : List UInt64) (j i : ℕ) (un : List UInt64) (k : ℤ) :
    Option (List UInt64 × ℤ) := do
  let p ← u128 (qhat * (← vn[i]?).toNat)
  let t ← i128 ((← i128 ((← un[j + i]?).toNat + k)) - (p % radix : ℕ))
  some (← store un (j + i) (lowInt t), ← i128 (t / radix - (p / radix : ℕ)))

/-- D4, and the sign of what it leaves. -/
def subtract (qhat : ℕ) (vn : List UInt64) (n j : ℕ) (un : List UInt64) :
    Option (List UInt64 × ℤ) := do
  let (un, k) ← upTo n (fun i s => mulSubStep qhat vn j i s.1 s.2) (un, 0)
  let t ← i128 ((← un[j + n]?).toNat + k)
  some (← store un (j + n) (lowInt t), t)

/-- One limb of D6. -/
def addBackStep (vn : List UInt64) (j i : ℕ) (un : List UInt64) (carry : ℕ) :
    Option (List UInt64 × ℕ) := do
  let s ← u128 ((← un[j + i]?).toNat + (← vn[i]?).toNat + carry)
  some (← store un (j + i) (low s), s / radix)

/-- D6: the divisor added back. -/
def addBack (vn : List UInt64) (n j : ℕ) (un : List UInt64) : Option (List UInt64) := do
  let (un, carry) ← upTo n (fun i s => addBackStep vn j i s.1 s.2) (un, 0)
  store un (j + n) (low (← u128 ((← un[j + n]?).toNat + carry)))

/-- D3 to D6 for one digit of the quotient. -/
def digitStep (vn : List UInt64) (n j : ℕ) (un q : List UInt64) :
    Option (List UInt64 × List UInt64) := do
  let qhat ← estimate vn n j un
  let (un, t) ← subtract qhat vn n j un
  if t < 0 then some (← addBack vn n j un, ← store q j (low qhat - 1))
  else some (un, ← store q j (low qhat))

def divmod (u v : BigUint) : Option (BigUint × BigUint) := do
  let n := (rposition v.limbs).elim 0 (· + 1)
  if n = 0 then none
  else if (← u.cmp v) = .lt then some (zero, u)
  else
    let len := (rposition u.limbs).elim 0 (· + 1)
    if n = 1 then
      let d := (← v.limbs[0]?).toNat
      let (q, r) ← downTo len (fun i s => shortStep u.limbs d i s.1 s.2) (List.replicate len 0, 0)
      some (ofLimbs q, ofLimbs [low r])
    else if len < n then none
    else
      let m := len - n
      -- D1: the top limb of the divisor gets its high bit
      let shift := leadingZeros (← v.limbs[n - 1]?)
      let vn := shlLimbs (v.limbs.take n) shift
      let un := shlLimbs (u.limbs.take len) shift
      let un := if un.length = len then un ++ [0] else un
      if un.length ≠ m + n + 1 then none
      else
        let (un, q) ← downTo (m + 1) (fun j s => digitStep vn n j s.1 s.2)
          (un, List.replicate (m + 1) 0)
        -- D8
        some (ofLimbs q, ofLimbs (shrLimbs (un.take n) shift))

end Conclave.Crypto
