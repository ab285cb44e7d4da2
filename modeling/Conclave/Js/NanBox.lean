import Mathlib

/-! Values of the engine in one word: doubles are themselves, and everything else lies in the part
of the negative quiet NaNs that no stored double is in. -/

namespace Conclave.Js.NanBox

/-! ### The code -/

def QNAN_MASK : BitVec 64 := 0xFFF8000000000000
def QNAN_BITS : BitVec 64 := 0xFFF8000000000000
def CANONICAL_NAN : BitVec 64 := 0x7FF8000000000000
def TAG_SHIFT : ℕ := 48
def TAG_MASK : BitVec 64 := 0x7
def PAYLOAD_MASK : BitVec 64 := 0x0000FFFFFFFFFFFF

def TAG_OBJECT : BitVec 64 := 0
def TAG_ARRAY : BitVec 64 := 1
def TAG_FUNCTION : BitVec 64 := 2
def TAG_NATIVE : BitVec 64 := 3
def TAG_BCCLOSURE : BitVec 64 := 4
def TAG_INT32 : BitVec 64 := 5
def TAG_SINGLETON : BitVec 64 := 6
def TAG_STRBIG : BitVec 64 := 7
def STRBIG_IS_STRING : BitVec 64 := 1 <<< 47

def SINGLE_UNDEFINED : BitVec 64 := 0
def SINGLE_NULL : BitVec 64 := 1
def SINGLE_FALSE : BitVec 64 := 2
def SINGLE_TRUE : BitVec 64 := 3
def SINGLE_HOLE : BitVec 64 := 4

/-- A NaN, of any sign and payload: the exponent is all ones and the fraction is not zero. -/
def isNan (n : BitVec 64) : Bool := 0x7FF0000000000000 < (n &&& 0x7FFFFFFFFFFFFFFF).toNat

/-- The double that an integer is converted to. -/
def f64OfI32 (n : BitVec 32) : BitVec 64 :=
  let size := n.toInt.natAbs
  if size = 0 then 0
  else
    let sign := if n.toInt < 0 then 2 ^ 63 else 0
    .ofNat 64 (sign + (1023 + size.log2) * 2 ^ 52 + (size * 2 ^ (52 - size.log2) - 2 ^ 52))

structure JsVal where
  bits : BitVec 64
  deriving DecidableEq, Repr

/-- What a word decodes to; heap values are given by their addresses. -/
inductive Value where
  | undefined
  | null
  | hole
  | bool (b : Bool)
  | number (n : BitVec 64)
  | object (p : BitVec 64)
  | array (p : BitVec 64)
  | function (p : BitVec 64)
  | nativeFunction (p : BitVec 64)
  | bcClosure (p : BitVec 64)
  | bigInt (p : BitVec 64)
  | string (p : BitVec 64)
  deriving DecidableEq, Repr

namespace JsVal

def boxed (tag payload : BitVec 64) : JsVal :=
  ⟨QNAN_BITS ||| (tag <<< TAG_SHIFT) ||| (payload &&& PAYLOAD_MASK)⟩

def tag (v : JsVal) : BitVec 64 := (v.bits >>> TAG_SHIFT) &&& TAG_MASK

def payload (v : JsVal) : BitVec 64 := v.bits &&& PAYLOAD_MASK

def isBoxed (v : JsVal) : Bool := v.bits &&& QNAN_MASK == QNAN_BITS

def number (n : BitVec 64) : JsVal := if isNan n then ⟨CANONICAL_NAN⟩ else ⟨n⟩

def isNumber (v : JsVal) : Bool := !v.isBoxed

def asF64 (v : JsVal) : Option (BitVec 64) := if v.isNumber then some v.bits else none

def int32 (n : BitVec 32) : JsVal := boxed TAG_INT32 (n.setWidth 64)

def isInt32 (v : JsVal) : Bool := v.isBoxed && v.tag == TAG_INT32

def asInt32 (v : JsVal) : Option (BitVec 32) :=
  if v.isInt32 then some (v.payload.setWidth 32) else none

def toF64 (v : JsVal) : Option (BitVec 64) := v.asF64.or (v.asInt32.map f64OfI32)

def undefined : JsVal := boxed TAG_SINGLETON SINGLE_UNDEFINED
def null : JsVal := boxed TAG_SINGLETON SINGLE_NULL
def hole : JsVal := boxed TAG_SINGLETON SINGLE_HOLE
def boolean (b : Bool) : JsVal := boxed TAG_SINGLETON (if b then SINGLE_TRUE else SINGLE_FALSE)

def isUndefined (v : JsVal) : Bool := v.bits == undefined.bits
def isNull (v : JsVal) : Bool := v.bits == null.bits
def isHole (v : JsVal) : Bool := v.bits == hole.bits
def isBool (v : JsVal) : Bool := v.bits == (boolean true).bits || v.bits == (boolean false).bits

def asBool (v : JsVal) : Option Bool :=
  if v.bits = (boolean true).bits then some true
  else if v.bits = (boolean false).bits then some false
  else none

def ptrBox (tag p : BitVec 64) : JsVal := boxed tag p

def object (p : BitVec 64) : JsVal := ptrBox TAG_OBJECT p
def array (p : BitVec 64) : JsVal := ptrBox TAG_ARRAY p
def function (p : BitVec 64) : JsVal := ptrBox TAG_FUNCTION p
def native (p : BitVec 64) : JsVal := ptrBox TAG_NATIVE p
def bcclosure (p : BitVec 64) : JsVal := ptrBox TAG_BCCLOSURE p
def bigint (p : BitVec 64) : JsVal := boxed TAG_STRBIG p
def string (p : BitVec 64) : JsVal := boxed TAG_STRBIG (p ||| STRBIG_IS_STRING)

def isBigint (v : JsVal) : Bool :=
  v.isBoxed && v.tag == TAG_STRBIG && (v.payload &&& STRBIG_IS_STRING) == 0

def isString (v : JsVal) : Bool :=
  v.isBoxed && v.tag == TAG_STRBIG && (v.payload &&& STRBIG_IS_STRING) != 0

/-- One of the five lanes with nothing but an address in the payload. -/
def isTagged (tag : BitVec 64) (v : JsVal) : Bool := v.isBoxed && v.tag == tag

def isObject (v : JsVal) : Bool := isTagged TAG_OBJECT v
def isArray (v : JsVal) : Bool := isTagged TAG_ARRAY v
def isFunction (v : JsVal) : Bool := isTagged TAG_FUNCTION v
def isNative (v : JsVal) : Bool := isTagged TAG_NATIVE v
def isBcclosure (v : JsVal) : Bool := isTagged TAG_BCCLOSURE v

def isPointer (v : JsVal) : Bool :=
  v.isBoxed && (decide (v.tag ≤ TAG_BCCLOSURE) || v.tag == TAG_STRBIG)

def asPtrUsize (v : JsVal) : Option (BitVec 64) :=
  if v.isBoxed && decide (v.tag ≤ TAG_BCCLOSURE) then some v.payload
  else if v.isBoxed && v.tag == TAG_STRBIG then some (v.payload &&& ~~~STRBIG_IS_STRING)
  else none

def asTagged (tag : BitVec 64) (v : JsVal) : Option (BitVec 64) :=
  if isTagged tag v then some v.payload else none

def asObject (v : JsVal) : Option (BitVec 64) := asTagged TAG_OBJECT v
def asArray (v : JsVal) : Option (BitVec 64) := asTagged TAG_ARRAY v
def asFunction (v : JsVal) : Option (BitVec 64) := asTagged TAG_FUNCTION v
def asNative (v : JsVal) : Option (BitVec 64) := asTagged TAG_NATIVE v
def asBcclosure (v : JsVal) : Option (BitVec 64) := asTagged TAG_BCCLOSURE v

def asString (v : JsVal) : Option (BitVec 64) :=
  if v.isString then some (v.payload &&& ~~~STRBIG_IS_STRING) else none

def asBigint (v : JsVal) : Option (BitVec 64) :=
  if v.isBigint then some (v.payload &&& ~~~STRBIG_IS_STRING) else none

/-- None where the source has no arm. -/
def toValue (v : JsVal) : Option Value :=
  if v.isNumber then some (.number v.bits)
  else if v.tag = TAG_OBJECT then some (.object v.payload)
  else if v.tag = TAG_ARRAY then some (.array v.payload)
  else if v.tag = TAG_FUNCTION then some (.function v.payload)
  else if v.tag = TAG_NATIVE then some (.nativeFunction v.payload)
  else if v.tag = TAG_BCCLOSURE then some (.bcClosure v.payload)
  else if v.tag = TAG_INT32 then some (.number (f64OfI32 (v.payload.setWidth 32)))
  else if v.tag = TAG_SINGLETON then
    if v.payload = SINGLE_UNDEFINED then some .undefined
    else if v.payload = SINGLE_NULL then some .null
    else if v.payload = SINGLE_FALSE then some (.bool false)
    else if v.payload = SINGLE_TRUE then some (.bool true)
    else if v.payload = SINGLE_HOLE then some .hole
    else none
  else if v.tag = TAG_STRBIG then
    if v.isString then v.asString.map .string else v.asBigint.map .bigInt
  else none

def tryFromValue : Value → JsVal
  | .undefined => undefined
  | .null => null
  | .hole => hole
  | .bool b => boolean b
  | .number n => number n
  | .object p => object p
  | .array p => array p
  | .function p => function p
  | .nativeFunction p => native p
  | .bcClosure p => bcclosure p
  | .bigInt p => bigint p
  | .string p => string p

end JsVal

/-! ### The words as numbers -/

theorem and_low (x : BitVec 64) {n : ℕ} (hn : n < 64) :
    (x &&& .ofNat 64 (2 ^ n - 1)).toNat = x.toNat % 2 ^ n := by
  rw [BitVec.toNat_and, BitVec.toNat_ofNat, Nat.mod_eq_of_lt, Nat.and_two_pow_sub_one_eq_mod]
  have := Nat.pow_lt_pow_right (show 1 < 2 by decide) hn
  omega

theorem payload_toNat (v : JsVal) : v.payload.toNat = v.bits.toNat % 2 ^ 48 :=
  and_low v.bits (by decide : 48 < 64)

theorem tag_toNat (v : JsVal) : v.tag.toNat = v.bits.toNat / 2 ^ 48 % 8 := by
  rw [JsVal.tag, show TAG_MASK = .ofNat 64 (2 ^ 3 - 1) from rfl, and_low _ (by decide : 3 < 64),
    BitVec.toNat_ushiftRight, Nat.shiftRight_eq_div_pow]
  rfl

theorem and_high (x : BitVec 64) : (x &&& QNAN_MASK).toNat = x.toNat / 2 ^ 51 * 2 ^ 51 := by
  rw [BitVec.toNat_and, show QNAN_MASK.toNat = (2 ^ 13 - 1) <<< 51 by decide,
    ← Nat.shiftRight_eq_div_pow, ← Nat.shiftLeft_eq]
  apply Nat.eq_of_testBit_eq
  intro i
  simp only [Nat.testBit_and, Nat.testBit_shiftLeft, Nat.testBit_two_pow_sub_one,
    Nat.testBit_shiftRight]
  by_cases hi : 51 ≤ i
  · rw [Nat.add_sub_cancel' hi]
    by_cases hlast : i < 64
    · simp [hi, show i - 51 < 13 by omega]
    · have hx : x.toNat.testBit i = false :=
        Nat.testBit_lt_two_pow (x.isLt.trans_le (Nat.pow_le_pow_right (by decide) (by omega)))
      simp [hx]
  · simp [hi]

/-- A word is boxed when it is among the highest. -/
theorem isBoxed_iff (v : JsVal) : v.isBoxed = true ↔ 0xFFF8000000000000 ≤ v.bits.toNat := by
  have hv := v.bits.isLt
  rw [JsVal.isBoxed, beq_iff_eq, ← BitVec.toNat_inj, and_high,
    show QNAN_BITS.toNat = 0xFFF8000000000000 by decide]
  omega

theorem string_bit (v : JsVal) :
    v.payload &&& STRBIG_IS_STRING = 0 ↔ v.bits.toNat / 2 ^ 47 % 2 = 0 := by
  rw [← BitVec.toNat_inj, BitVec.toNat_and, show STRBIG_IS_STRING.toNat = 2 ^ 47 by decide,
    Nat.and_two_pow, payload_toNat, Nat.testBit_eq_decide_div_mod_eq,
    show (0 : BitVec 64).toNat = 0 from rfl]
  by_cases hbit : v.bits.toNat % 2 ^ 48 / 2 ^ 47 % 2 = 1
  · rw [decide_eq_true hbit]
    rw [Bool.toNat_true]
    omega
  · rw [decide_eq_false hbit]
    rw [Bool.toNat_false]
    omega

/-- The address in the lane of strings and big integers. -/
theorem masked_toNat (v : JsVal) :
    (v.payload &&& ~~~STRBIG_IS_STRING).toNat = v.bits.toNat % 2 ^ 47 := by
  apply Nat.eq_of_testBit_eq
  intro i
  have hmask : (~~~STRBIG_IS_STRING).toNat = 2 ^ 64 - (2 ^ 47 + 1) := by decide
  rw [BitVec.toNat_and, payload_toNat, hmask]
  simp only [Nat.testBit_and, Nat.testBit_mod_two_pow, Nat.testBit_two_pow_sub_succ
    (show 2 ^ 47 < 2 ^ 64 by decide), Nat.testBit_two_pow]
  by_cases hi : i < 47
  · simp [hi, show i < 48 by omega, show i < 64 by omega, show ¬ 47 = i by omega]
  · by_cases heq : i = 47
    · simp [heq]
    · simp [hi, show ¬ i < 48 by omega]

/-- The parts of a boxed word are side by side. -/
theorem boxed_toNat {tag payload : BitVec 64} (htag : tag.toNat < 8)
    (hpayload : payload.toNat < 2 ^ 48) : (JsVal.boxed tag payload).bits.toNat =
      0xFFF8000000000000 + tag.toNat * 2 ^ 48 + payload.toNat := by
  have hlow : (payload &&& PAYLOAD_MASK).toNat = payload.toNat := by
    rw [show PAYLOAD_MASK = .ofNat 64 (2 ^ 48 - 1) from rfl, and_low _ (by decide : 48 < 64),
      Nat.mod_eq_of_lt hpayload]
  have hshift : (tag <<< TAG_SHIFT).toNat = tag.toNat <<< 48 := by
    rw [BitVec.toNat_shiftLeft, Nat.mod_eq_of_lt]
    · rfl
    · rw [show TAG_SHIFT = 48 from rfl, Nat.shiftLeft_eq]
      omega
  have htop : (QNAN_BITS ||| tag <<< TAG_SHIFT).toNat = 0xFFF8000000000000 + tag.toNat * 2 ^ 48 := by
    rw [BitVec.toNat_or, hshift, show QNAN_BITS.toNat = 0x1FFF <<< 51 by decide,
      ← Nat.shiftLeft_add_eq_or_of_lt (by rw [Nat.shiftLeft_eq]; omega), Nat.shiftLeft_eq,
      Nat.shiftLeft_eq]
  have hword : 0xFFF8000000000000 + tag.toNat * 2 ^ 48 = (0xFFF8 + tag.toNat) <<< 48 := by
    rw [Nat.shiftLeft_eq]
    ring
  rw [JsVal.boxed, BitVec.toNat_or, hlow, htop, hword, ← Nat.shiftLeft_add_eq_or_of_lt hpayload]

theorem string_payload {p : BitVec 64} (hp : p.toNat < 2 ^ 47) :
    (p ||| STRBIG_IS_STRING).toNat = 2 ^ 47 + p.toNat := by
  rw [BitVec.toNat_or, Nat.or_comm, show STRBIG_IS_STRING.toNat = 1 <<< 47 by decide,
    ← Nat.shiftLeft_add_eq_or_of_lt hp]
  rfl

/-! ### Lanes -/

inductive Lane where
  | number
  | int32
  | undefined
  | null
  | hole
  | bool
  | object
  | array
  | function
  | native
  | bcclosure
  | bigint
  | string
  deriving DecidableEq, Repr

/-- What the constructors are given. -/
inductive Given where
  | number (n : BitVec 64)
  | int32 (n : BitVec 32)
  | undefined
  | null
  | hole
  | boolean (b : Bool)
  | object (p : BitVec 64)
  | array (p : BitVec 64)
  | function (p : BitVec 64)
  | native (p : BitVec 64)
  | bcclosure (p : BitVec 64)
  | bigint (p : BitVec 64)
  | string (p : BitVec 64)
  deriving DecidableEq, Repr

namespace Lane

/-- The predicate of a lane. -/
def test : Lane → JsVal → Bool
  | number => JsVal.isNumber
  | int32 => JsVal.isInt32
  | undefined => JsVal.isUndefined
  | null => JsVal.isNull
  | hole => JsVal.isHole
  | bool => JsVal.isBool
  | object => JsVal.isObject
  | array => JsVal.isArray
  | function => JsVal.isFunction
  | native => JsVal.isNative
  | bcclosure => JsVal.isBcclosure
  | bigint => JsVal.isBigint
  | string => JsVal.isString

/-- The words of a lane are those from one number to another. -/
def bounds : Lane → ℕ × ℕ
  | number => (0, 0xFFF8000000000000)
  | object => (0xFFF8000000000000, 0xFFF9000000000000)
  | array => (0xFFF9000000000000, 0xFFFA000000000000)
  | function => (0xFFFA000000000000, 0xFFFB000000000000)
  | native => (0xFFFB000000000000, 0xFFFC000000000000)
  | bcclosure => (0xFFFC000000000000, 0xFFFD000000000000)
  | int32 => (0xFFFD000000000000, 0xFFFE000000000000)
  | undefined => (0xFFFE000000000000, 0xFFFE000000000001)
  | null => (0xFFFE000000000001, 0xFFFE000000000002)
  | bool => (0xFFFE000000000002, 0xFFFE000000000004)
  | hole => (0xFFFE000000000004, 0xFFFE000000000005)
  | bigint => (0xFFFF000000000000, 0xFFFF800000000000)
  | string => (0xFFFF800000000000, 0x10000000000000000)

theorem isTagged_iff (tag : BitVec 64) (v : JsVal) : JsVal.isTagged tag v = true ↔
    0xFFF8000000000000 ≤ v.bits.toNat ∧ v.bits.toNat / 2 ^ 48 % 8 = tag.toNat := by
  rw [JsVal.isTagged, Bool.and_eq_true, isBoxed_iff, beq_iff_eq, ← BitVec.toNat_inj, tag_toNat]

theorem test_iff (l : Lane) (v : JsVal) :
    l.test v = true ↔ l.bounds.1 ≤ v.bits.toNat ∧ v.bits.toNat < l.bounds.2 := by
  have hv := v.bits.isLt
  have htag := fun tag => isTagged_iff tag v
  have hsingle : ∀ w : JsVal, (v.bits == w.bits) = true ↔ v.bits.toNat = w.bits.toNat :=
    fun w => beq_iff_eq.trans BitVec.toNat_inj.symm
  cases l with
  | number =>
    have hboxed := isBoxed_iff v
    rw [test, JsVal.isNumber, Bool.not_eq_true', Bool.eq_false_iff, Ne, hboxed, bounds]
    omega
  | int32 =>
    refine (htag TAG_INT32).trans ?_
    rw [bounds, show TAG_INT32.toNat = 5 by decide]
    omega
  | undefined =>
    refine (hsingle JsVal.undefined).trans ?_
    rw [bounds, show JsVal.undefined.bits.toNat = 0xFFFE000000000000 by decide]
    omega
  | null =>
    refine (hsingle JsVal.null).trans ?_
    rw [bounds, show JsVal.null.bits.toNat = 0xFFFE000000000001 by decide]
    omega
  | hole =>
    refine (hsingle JsVal.hole).trans ?_
    rw [bounds, show JsVal.hole.bits.toNat = 0xFFFE000000000004 by decide]
    omega
  | bool =>
    rw [test, JsVal.isBool, Bool.or_eq_true, hsingle, hsingle, bounds,
      show (JsVal.boolean true).bits.toNat = 0xFFFE000000000003 by decide,
      show (JsVal.boolean false).bits.toNat = 0xFFFE000000000002 by decide]
    omega
  | object =>
    refine (htag TAG_OBJECT).trans ?_
    rw [bounds, show TAG_OBJECT.toNat = 0 by decide]
    omega
  | array =>
    refine (htag TAG_ARRAY).trans ?_
    rw [bounds, show TAG_ARRAY.toNat = 1 by decide]
    omega
  | function =>
    refine (htag TAG_FUNCTION).trans ?_
    rw [bounds, show TAG_FUNCTION.toNat = 2 by decide]
    omega
  | native =>
    refine (htag TAG_NATIVE).trans ?_
    rw [bounds, show TAG_NATIVE.toNat = 3 by decide]
    omega
  | bcclosure =>
    refine (htag TAG_BCCLOSURE).trans ?_
    rw [bounds, show TAG_BCCLOSURE.toNat = 4 by decide]
    omega
  | bigint =>
    rw [test, JsVal.isBigint, Bool.and_eq_true, beq_iff_eq, string_bit]
    refine (and_congr_left' (htag TAG_STRBIG)).trans ?_
    rw [bounds, show TAG_STRBIG.toNat = 7 by decide]
    omega
  | string =>
    rw [test, JsVal.isString, Bool.and_eq_true, bne_iff_ne, Ne, string_bit]
    refine (and_congr_left' (htag TAG_STRBIG)).trans ?_
    rw [bounds, show TAG_STRBIG.toNat = 7 by decide]
    omega

/-- No word is in two lanes. -/
theorem test_unique {l l' : Lane} {v : JsVal} (h : l.test v) (h' : l'.test v) : l = l' := by
  have hapart : ∀ l l' : Lane, l ≠ l' →
      l.bounds.2 ≤ l'.bounds.1 ∨ l'.bounds.2 ≤ l.bounds.1 := by
    intro l l'
    cases l <;> cases l' <;> decide
  by_contra hne
  have hl := (test_iff l v).mp h
  have hl' := (test_iff l' v).mp h'
  have := hapart l l' hne
  omega

end Lane

/-! ### Words that are written and read -/

namespace Given

def lane : Given → Lane
  | number _ => .number
  | int32 _ => .int32
  | undefined => .undefined
  | null => .null
  | hole => .hole
  | boolean _ => .bool
  | object _ => .object
  | array _ => .array
  | function _ => .function
  | native _ => .native
  | bcclosure _ => .bcclosure
  | bigint _ => .bigint
  | string _ => .string

def encode : Given → JsVal
  | number n => .number n
  | int32 n => .int32 n
  | undefined => .undefined
  | null => .null
  | hole => .hole
  | boolean b => .boolean b
  | object p => .object p
  | array p => .array p
  | function p => .function p
  | native p => .native p
  | bcclosure p => .bcclosure p
  | bigint p => .bigint p
  | string p => .string p

/-- The addresses are those of user space. -/
def Accepted : Given → Prop
  | object p | array p | function p | native p | bcclosure p | bigint p | string p =>
    p.toNat < 2 ^ 47
  | _ => True

/-- All NaNs become one. -/
def canonical : Given → Given
  | number n => number (if isNan n then CANONICAL_NAN else n)
  | g => g

/-- What the engine's values have for it. -/
def value : Given → Value
  | number n => .number (if isNan n then CANONICAL_NAN else n)
  | int32 n => .number (f64OfI32 n)
  | undefined => .undefined
  | null => .null
  | hole => .hole
  | boolean b => .bool b
  | object p => .object p
  | array p => .array p
  | function p => .function p
  | native p => .nativeFunction p
  | bcclosure p => .bcClosure p
  | bigint p => .bigInt p
  | string p => .string p

/-- The word as a number. -/
def word : Given → ℕ
  | number n => (if isNan n then CANONICAL_NAN else n).toNat
  | int32 n => 0xFFFD000000000000 + n.toNat
  | undefined => 0xFFFE000000000000
  | null => 0xFFFE000000000001
  | hole => 0xFFFE000000000004
  | boolean b => if b then 0xFFFE000000000003 else 0xFFFE000000000002
  | object p => 0xFFF8000000000000 + p.toNat
  | array p => 0xFFF9000000000000 + p.toNat
  | function p => 0xFFFA000000000000 + p.toNat
  | native p => 0xFFFB000000000000 + p.toNat
  | bcclosure p => 0xFFFC000000000000 + p.toNat
  | bigint p => 0xFFFF000000000000 + p.toNat
  | string p => 0xFFFF800000000000 + p.toNat

theorem encode_toNat {g : Given} (h : g.Accepted) : g.encode.bits.toNat = g.word := by
  have hptr : ∀ {tag p : BitVec 64}, tag.toNat < 8 → p.toNat < 2 ^ 47 →
      (JsVal.boxed tag p).bits.toNat = 0xFFF8000000000000 + tag.toNat * 2 ^ 48 + p.toNat :=
    fun htag hp => boxed_toNat htag (hp.trans (by decide))
  cases g with
  | number n =>
    rw [encode, JsVal.number, word]
    split_ifs <;> rfl
  | int32 n =>
    have hwidth : (n.setWidth 64).toNat = n.toNat :=
      BitVec.toNat_setWidth_of_le (by decide)
    refine (@boxed_toNat TAG_INT32 _ (by decide) ?_).trans ?_
    · rw [hwidth]
      exact n.isLt.trans (by decide)
    · rw [hwidth]
      rfl
  | undefined | null | hole => decide
  | boolean b => cases b <;> decide
  | string p =>
    refine (@boxed_toNat TAG_STRBIG _ (by decide) ?_).trans ?_
    · rw [string_payload h]
      have : p.toNat < 2 ^ 47 := h
      omega
    · rw [string_payload h, word, show TAG_STRBIG.toNat = 7 by decide]
      omega
  | object p | array p | function p | native p | bcclosure p | bigint p =>
    exact hptr (by decide) h

/-- No double but a NaN is among the highest words. -/
theorem canonical_lt (n : BitVec 64) :
    (if isNan n then CANONICAL_NAN else n).toNat < 0xFFF8000000000000 := by
  split_ifs with hnan
  · decide
  · rw [isNan, decide_eq_true_iff, show (0x7FFFFFFFFFFFFFFF : BitVec 64) = .ofNat 64 (2 ^ 63 - 1)
      from rfl, and_low n (by decide : 63 < 64)] at hnan
    have := n.isLt
    omega

theorem word_bounds {g : Given} (h : g.Accepted) :
    g.lane.bounds.1 ≤ g.word ∧ g.word < g.lane.bounds.2 := by
  cases g with
  | number n => exact ⟨Nat.zero_le _, canonical_lt n⟩
  | int32 n =>
    have := n.isLt
    simp only [lane, Lane.bounds, word]
    omega
  | undefined | null | hole => decide
  | boolean b => cases b <;> decide
  | object p | array p | function p | native p | bcclosure p | bigint p | string p =>
    have : p.toNat < 2 ^ 47 := h
    simp only [lane, Lane.bounds, word]
    omega

/-- The word is in the lane of its constructor and in no other. -/
theorem test_encode {g : Given} (h : g.Accepted) (l : Lane) :
    l.test g.encode = true ↔ l = g.lane := by
  have hown : g.lane.test g.encode = true := by
    rw [Lane.test_iff, encode_toNat h]
    exact word_bounds h
  exact ⟨fun hl => Lane.test_unique hl hown, fun hl => hl ▸ hown⟩

end Given

/-! ### Decoding -/

/-- What the accessor of a lane makes of a word. -/
def Lane.read (v : JsVal) : Lane → Option Given
  | number => v.asF64.map .number
  | int32 => v.asInt32.map .int32
  | undefined => if v.isUndefined then some .undefined else none
  | null => if v.isNull then some .null else none
  | hole => if v.isHole then some .hole else none
  | bool => v.asBool.map .boolean
  | object => v.asObject.map .object
  | array => v.asArray.map .array
  | function => v.asFunction.map .function
  | native => v.asNative.map .native
  | bcclosure => v.asBcclosure.map .bcclosure
  | bigint => v.asBigint.map .bigint
  | string => v.asString.map .string

namespace Given

/-- The parts of an encoded word. -/
theorem parts {g : Given} (h : g.Accepted) {t p : BitVec 64} (ht : t.toNat < 8)
    (hp : p.toNat < 2 ^ 48) (hword : g.word = (0xFFF8 + t.toNat) * 2 ^ 48 + p.toNat) :
    g.encode.tag = t ∧ g.encode.payload = p := by
  constructor <;> apply BitVec.eq_of_toNat_eq
  · rw [tag_toNat, encode_toNat h, hword]
    omega
  · rw [payload_toNat, encode_toNat h, hword]
    omega

theorem masked_eq {g : Given} (h : g.Accepted) {p : BitVec 64} (hp : g.word % 2 ^ 47 = p.toNat) :
    g.encode.payload &&& ~~~STRBIG_IS_STRING = p :=
  BitVec.eq_of_toNat_eq ((masked_toNat _).trans ((encode_toNat h).symm ▸ hp))

theorem int32_parts (n : BitVec 32) :
    (int32 n).encode.tag = TAG_INT32 ∧ (int32 n).encode.payload.setWidth 32 = n := by
  have hn := n.isLt
  have hwidth : (n.setWidth 64).toNat = n.toNat := BitVec.toNat_setWidth_of_le (by decide)
  obtain ⟨htag, hpayload⟩ := parts (g := int32 n) trivial (t := TAG_INT32) (p := n.setWidth 64)
    (by decide) (by omega) (by rw [hwidth]; rfl)
  refine ⟨htag, ?_⟩
  rw [hpayload]
  exact BitVec.eq_of_toNat_eq (by rw [BitVec.toNat_setWidth, hwidth, Nat.mod_eq_of_lt hn])

theorem bits_number (n : BitVec 64) :
    (number n).encode.bits = if isNan n then CANONICAL_NAN else n := by
  rw [encode, JsVal.number]
  split_ifs <;> rfl

/-- The five lanes with an address alone. -/
theorem pointer_parts {g : Given} (h : g.Accepted) {t p : BitVec 64} (ht : t.toNat < 8)
    (hp : p.toNat < 2 ^ 47) (hword : g.word = (0xFFF8 + t.toNat) * 2 ^ 48 + p.toNat) :
    JsVal.asTagged t g.encode = some p ∧ g.encode.tag = t ∧ g.encode.payload = p := by
  obtain ⟨htag, hpayload⟩ := parts h ht (hp.trans (by decide)) hword
  have htest : JsVal.isTagged t g.encode = true := by
    rw [Lane.isTagged_iff, encode_toNat h, hword]
    omega
  refine ⟨?_, htag, hpayload⟩
  rw [JsVal.asTagged, if_pos htest, hpayload]

/-- The lane of strings and of big integers. -/
theorem strbig_tag {g : Given} (h : g.Accepted) (hword : g.word / 2 ^ 48 % 8 = 7) :
    g.encode.tag = TAG_STRBIG :=
  BitVec.eq_of_toNat_eq ((tag_toNat _).trans ((encode_toNat h).symm ▸ hword))

theorem asBigint_encode {p : BitVec 64} (hp : p.toNat < 2 ^ 47) :
    (bigint p).encode.asBigint = some p := by
  have htest : (bigint p).encode.isBigint = true := (test_encode (g := bigint p) hp .bigint).mpr rfl
  rw [JsVal.asBigint, if_pos htest, masked_eq (g := bigint p) (p := p) hp (by rw [word]; omega)]

theorem asString_encode {p : BitVec 64} (hp : p.toNat < 2 ^ 47) :
    (string p).encode.asString = some p := by
  have htest : (string p).encode.isString = true := (test_encode (g := string p) hp .string).mpr rfl
  rw [JsVal.asString, if_pos htest, masked_eq (g := string p) (p := p) hp (by rw [word]; omega)]

/-- The accessor of the lane gives back what the constructor was given. -/
theorem read_encode {g : Given} (h : g.Accepted) :
    g.lane.read g.encode = some g.canonical := by
  have htest : g.lane.test g.encode = true := (test_encode h g.lane).mpr rfl
  cases g with
  | number n =>
    have hread : (number n).encode.asF64 = some (if isNan n then CANONICAL_NAN else n) :=
      (if_pos htest).trans (congrArg some (bits_number n))
    exact congrArg (Option.map Given.number) hread
  | int32 n =>
    have hread : (int32 n).encode.asInt32 = some n :=
      (if_pos htest).trans (congrArg some (int32_parts n).2)
    exact congrArg (Option.map Given.int32) hread
  | undefined | null | hole => rfl
  | boolean b => cases b <;> rfl
  | object p =>
    exact congrArg (Option.map Given.object)
      (pointer_parts (t := TAG_OBJECT) h (by decide) h rfl).1
  | array p =>
    exact congrArg (Option.map Given.array)
      (pointer_parts (t := TAG_ARRAY) h (by decide) h rfl).1
  | function p =>
    exact congrArg (Option.map Given.function)
      (pointer_parts (t := TAG_FUNCTION) h (by decide) h rfl).1
  | native p =>
    exact congrArg (Option.map Given.native)
      (pointer_parts (t := TAG_NATIVE) h (by decide) h rfl).1
  | bcclosure p =>
    exact congrArg (Option.map Given.bcclosure)
      (pointer_parts (t := TAG_BCCLOSURE) h (by decide) h rfl).1
  | bigint p => exact congrArg (Option.map Given.bigint) (asBigint_encode h)
  | string p => exact congrArg (Option.map Given.string) (asString_encode h)

theorem not_isNumber {g : Given} (h : g.Accepted) (hne : g.lane ≠ .number) :
    g.encode.isNumber = false := by
  rw [Bool.eq_false_iff]
  exact fun hnumber => hne ((test_encode h .number).mp hnumber).symm

/-- The arm of a tag. -/
theorem toValue_of_tag {v : JsVal} {t p : BitVec 64} (hnumber : v.isNumber = false)
    (htag : v.tag = t) (hpayload : v.payload = p) (ht : t.toNat ≤ 4) : v.toValue =
      if t = TAG_OBJECT then some (.object p)
      else if t = TAG_ARRAY then some (.array p)
      else if t = TAG_FUNCTION then some (.function p)
      else if t = TAG_NATIVE then some (.nativeFunction p)
      else some (.bcClosure p) := by
  have hcases : t = TAG_OBJECT ∨ t = TAG_ARRAY ∨ t = TAG_FUNCTION ∨ t = TAG_NATIVE ∨
      t = TAG_BCCLOSURE := by
    simp only [← BitVec.toNat_inj, show TAG_OBJECT.toNat = 0 from rfl,
      show TAG_ARRAY.toNat = 1 from rfl, show TAG_FUNCTION.toNat = 2 from rfl,
      show TAG_NATIVE.toNat = 3 from rfl, show TAG_BCCLOSURE.toNat = 4 from rfl]
    omega
  rw [JsVal.toValue, hnumber, htag, hpayload]
  rcases hcases with rfl | rfl | rfl | rfl | rfl <;> rfl

/-- Every accepted value comes back from its word. -/
theorem toValue_encode {g : Given} (h : g.Accepted) : g.encode.toValue = some g.value := by
  have htest : g.lane.test g.encode = true := (test_encode h g.lane).mpr rfl
  have hpointer : ∀ {t p : BitVec 64}, t.toNat ≤ 4 → g.lane ≠ .number → p.toNat < 2 ^ 47 →
      g.word = (0xFFF8 + t.toNat) * 2 ^ 48 + p.toNat → g.encode.toValue = _ :=
    fun {t p} ht hne hp hword =>
      toValue_of_tag (not_isNumber h hne) (pointer_parts h (by omega) hp hword).2.1
        (pointer_parts h (by omega) hp hword).2.2 ht
  cases g with
  | number n => exact (if_pos htest).trans (congrArg (some ∘ Value.number) (bits_number n))
  | int32 n =>
    rw [JsVal.toValue, not_isNumber h nofun, (int32_parts n).1, (int32_parts n).2]
    rfl
  | undefined | null | hole => rfl
  | boolean b => cases b <;> rfl
  | object p => exact hpointer (t := TAG_OBJECT) (by decide) nofun h rfl
  | array p => exact hpointer (t := TAG_ARRAY) (by decide) nofun h rfl
  | function p => exact hpointer (t := TAG_FUNCTION) (by decide) nofun h rfl
  | native p => exact hpointer (t := TAG_NATIVE) (by decide) nofun h rfl
  | bcclosure p => exact hpointer (t := TAG_BCCLOSURE) (by decide) nofun h rfl
  | bigint p =>
    have hp : p.toNat < 2 ^ 47 := h
    have hstring : (bigint p).encode.isString = false := by
      rw [Bool.eq_false_iff]
      exact fun hs => Lane.noConfusion ((test_encode h .string).mp hs)
    rw [JsVal.toValue, not_isNumber h nofun, hstring, asBigint_encode h,
      strbig_tag h (by rw [word]; omega)]
    rfl
  | string p =>
    have hp : p.toNat < 2 ^ 47 := h
    rw [JsVal.toValue, not_isNumber h nofun, show (string p).encode.isString = true from htest,
      asString_encode h, strbig_tag h (by rw [word]; omega)]
    rfl

/-- NaNs aside, no two values share a word. -/
theorem encode_inj {g g' : Given} (h : g.Accepted) (h' : g'.Accepted) :
    g.encode = g'.encode ↔ g.canonical = g'.canonical := by
  have hcanonical : ∀ g : Given, g.canonical.encode = g.encode := by
    intro g
    cases g with
    | number n =>
      rw [canonical, encode, encode, JsVal.number, JsVal.number]
      cases hnan : isNan n with
      | true => exact if_pos (show isNan CANONICAL_NAN = true by decide)
      | false => simp only [Bool.false_eq_true, if_false, hnan]
    | _ => rfl
  constructor
  · intro heq
    have hlane : g.lane = g'.lane :=
      (test_encode h' g.lane).mp (heq ▸ (test_encode h g.lane).mpr rfl)
    exact Option.some.inj ((read_encode h).symm.trans (by rw [hlane, heq, read_encode h']))
  · intro heq
    rw [← hcanonical g, heq, hcanonical]

/-- The address of a heap value. -/
def address : Given → Option (BitVec 64)
  | object p | array p | function p | native p | bcclosure p | bigint p | string p => some p
  | _ => none

/-- Heap values, and no others, have their addresses in the word. -/
theorem asPtrUsize_encode {g : Given} (h : g.Accepted) :
    g.encode.asPtrUsize = g.address ∧ g.encode.isPointer = g.address.isSome := by
  have hboxed : g.lane ≠ .number → g.encode.isBoxed = true := fun hne => by
    have hnumber := not_isNumber h hne
    rwa [JsVal.isNumber, Bool.not_eq_false'] at hnumber
  have hpointer : ∀ {t p : BitVec 64}, t.toNat ≤ 4 → g.lane ≠ .number → p.toNat < 2 ^ 47 →
      g.word = (0xFFF8 + t.toNat) * 2 ^ 48 + p.toNat →
      g.encode.asPtrUsize = some p ∧ g.encode.isPointer = true := by
    intro t p ht hne hp hword
    obtain ⟨-, htag, hpayload⟩ := pointer_parts h (by omega) hp hword
    have hle : decide (t ≤ TAG_BCCLOSURE) = true := decide_eq_true (BitVec.le_def.mpr ht)
    rw [JsVal.asPtrUsize, JsVal.isPointer, hboxed hne, htag, hpayload, hle]
    exact ⟨rfl, rfl⟩
  cases g with
  | number n =>
    have htest : (number n).encode.isNumber = true := (test_encode h .number).mpr rfl
    rw [JsVal.isNumber, Bool.not_eq_true'] at htest
    rw [JsVal.asPtrUsize, JsVal.isPointer, htest]
    exact ⟨rfl, rfl⟩
  | int32 n =>
    rw [JsVal.asPtrUsize, JsVal.isPointer, hboxed nofun, (int32_parts n).1]
    exact ⟨rfl, rfl⟩
  | undefined | null | hole => exact ⟨rfl, rfl⟩
  | boolean b => cases b <;> exact ⟨rfl, rfl⟩
  | object p => exact hpointer (t := TAG_OBJECT) (by decide) nofun h rfl
  | array p => exact hpointer (t := TAG_ARRAY) (by decide) nofun h rfl
  | function p => exact hpointer (t := TAG_FUNCTION) (by decide) nofun h rfl
  | native p => exact hpointer (t := TAG_NATIVE) (by decide) nofun h rfl
  | bcclosure p => exact hpointer (t := TAG_BCCLOSURE) (by decide) nofun h rfl
  | bigint p =>
    have hp : p.toNat < 2 ^ 47 := h
    rw [JsVal.asPtrUsize, JsVal.isPointer, hboxed nofun, strbig_tag h (by rw [word]; omega),
      masked_eq (g := bigint p) (p := p) h (by rw [word]; omega)]
    exact ⟨rfl, rfl⟩
  | string p =>
    have hp : p.toNat < 2 ^ 47 := h
    rw [JsVal.asPtrUsize, JsVal.isPointer, hboxed nofun, strbig_tag h (by rw [word]; omega),
      masked_eq (g := string p) (p := p) h (by rw [word]; omega)]
    exact ⟨rfl, rfl⟩

end Given

/-- What a value of the engine is to the constructors. -/
def Value.given : Value → Given
  | undefined => .undefined
  | null => .null
  | hole => .hole
  | bool b => .boolean b
  | number n => .number n
  | object p => .object p
  | array p => .array p
  | function p => .function p
  | nativeFunction p => .native p
  | bcClosure p => .bcclosure p
  | bigInt p => .bigint p
  | string p => .string p

/-- The bridge and back: only a NaN may be another one. -/
theorem toValue_tryFromValue {v : Value} (h : v.given.Accepted) :
    (JsVal.tryFromValue v).toValue = some v.given.value := by
  have hencode : JsVal.tryFromValue v = v.given.encode := by cases v <;> rfl
  rw [hencode, Given.toValue_encode h]

/-! ### Integers as doubles -/

/-- The number that a finite double stands for. -/
def f64Value (n : BitVec 64) : ℚ :=
  let sign : ℚ := if 2 ^ 63 ≤ n.toNat then -1 else 1
  let exponent : ℕ := n.toNat / 2 ^ 52 % 2 ^ 11
  let fraction : ℕ := n.toNat % 2 ^ 52
  if exponent = 0 then sign * fraction * 2 ^ (-1074 : ℤ)
  else sign * (2 ^ 52 + fraction) * 2 ^ ((exponent : ℤ) - 1075)

/-- The fields of a normal double. -/
theorem f64Value_normal (negative : Bool) (exponent fraction : ℕ) (hpos : 0 < exponent)
    (hexponent : exponent < 2 ^ 11) (hfraction : fraction < 2 ^ 52) :
    f64Value (.ofNat 64 ((if negative then 2 ^ 63 else 0) + exponent * 2 ^ 52 + fraction)) =
      (if negative then -1 else 1) * (2 ^ 52 + fraction) * 2 ^ ((exponent : ℤ) - 1075) := by
  have hlt : (if negative then 2 ^ 63 else 0) + exponent * 2 ^ 52 + fraction < 2 ^ 64 := by
    split_ifs <;> omega
  have hfields : ((if negative then 2 ^ 63 else 0) + exponent * 2 ^ 52 + fraction) / 2 ^ 52 %
        2 ^ 11 = exponent ∧
      ((if negative then 2 ^ 63 else 0) + exponent * 2 ^ 52 + fraction) % 2 ^ 52 = fraction ∧
      (2 ^ 63 ≤ (if negative then 2 ^ 63 else 0) + exponent * 2 ^ 52 + fraction ↔ negative) := by
    cases negative <;> simp only [Bool.false_eq_true, if_true, if_false, iff_true, iff_false] <;>
      omega
  obtain ⟨hexp, hfrac, hsign⟩ := hfields
  rw [f64Value, BitVec.toNat_ofNat, Nat.mod_eq_of_lt hlt, hexp, hfrac, if_neg (by omega)]
  simp only [hsign]

/-- A double holds every integer of the lane exactly. -/
theorem f64Value_f64OfI32 (n : BitVec 32) : f64Value (f64OfI32 n) = n.toInt := by
  rw [f64OfI32]
  dsimp only
  by_cases hzero : n.toInt.natAbs = 0
  · rw [if_pos hzero, Int.natAbs_eq_zero.mp hzero, f64Value,
      show (0 : BitVec 64).toNat = 0 from rfl]
    norm_num
  · rw [if_neg hzero]
    have hsize : n.toInt.natAbs < 2 ^ 32 := by
      have := BitVec.toInt_lt (x := n)
      have := BitVec.le_toInt n
      omega
    generalize hk : n.toInt.natAbs.log2 = k
    have hlow : 2 ^ k ≤ n.toInt.natAbs := hk ▸ Nat.log2_self_le hzero
    have hhigh : n.toInt.natAbs < 2 ^ (k + 1) := hk ▸ Nat.lt_log2_self
    have hk32 : k < 32 := (Nat.pow_lt_pow_iff_right (by decide)).mp (hlow.trans_lt hsize)
    have hpow : 2 ^ k * 2 ^ (52 - k) = 2 ^ 52 := by
      rw [← pow_add, Nat.add_sub_cancel' (by omega)]
    have hfrom : 2 ^ 52 ≤ n.toInt.natAbs * 2 ^ (52 - k) := by
      rw [← hpow]
      exact Nat.mul_le_mul_right _ hlow
    have hto : n.toInt.natAbs * 2 ^ (52 - k) < 2 ^ 53 := by
      have hdouble : 2 ^ (k + 1) * 2 ^ (52 - k) = 2 ^ 53 := by
        rw [← pow_add]
        congr 1
        omega
      rw [← hdouble]
      exact Nat.mul_lt_mul_of_pos_right hhigh (by positivity)
    have hvalue := f64Value_normal (decide (n.toInt < 0)) (1023 + k)
      (n.toInt.natAbs * 2 ^ (52 - k) - 2 ^ 52) (by omega) (by omega) (by omega)
    have hscale : (2 : ℚ) ^ (((1023 + k : ℕ) : ℤ) - 1075) = (2 ^ (52 - k))⁻¹ := by
      rw [← zpow_natCast, ← zpow_neg]
      congr 1
      omega
    have hsum : (2 : ℚ) ^ 52 + ((n.toInt.natAbs * 2 ^ (52 - k) - 2 ^ 52 : ℕ) : ℚ) =
        |(n.toInt : ℚ)| * 2 ^ (52 - k) := by
      rw [Nat.cast_sub hfrom, Nat.cast_mul, Nat.cast_natAbs, Int.cast_abs]
      push_cast
      ring
    simp only [decide_eq_true_eq] at hvalue
    rw [hvalue, hscale, hsum, mul_assoc, mul_assoc, mul_inv_cancel₀ (by positivity), mul_one]
    split_ifs with hneg
    · rw [abs_of_neg (by exact_mod_cast hneg)]
      ring
    · rw [abs_of_nonneg (by exact_mod_cast Int.not_lt.mp hneg)]
      ring

/-- A value has a word in the lane of its constructor alone, from which it is read back, and no
other value has that word. -/
theorem nan_boxing (g : Given) (h : g.Accepted) :
    (∀ l : Lane, l.test g.encode = true ↔ l = g.lane) ∧
      g.lane.read g.encode = some g.canonical ∧ g.encode.toValue = some g.value ∧
      ∀ g' : Given, g'.Accepted → (g.encode = g'.encode ↔ g.canonical = g'.canonical) :=
  ⟨g.test_encode h, g.read_encode h, g.toValue_encode h, fun _ h' => g.encode_inj h h'⟩

/-- A string at the highest address of user space. -/
theorem nan_boxing_sample :
    (∀ l : Lane, l.test (Given.string 0x7FFFFFFFFFFF).encode = true ↔ l = .string) ∧
      Lane.read (Given.string 0x7FFFFFFFFFFF).encode .string = some (.string 0x7FFFFFFFFFFF) ∧
      (Given.string 0x7FFFFFFFFFFF).encode.toValue = some (.string 0x7FFFFFFFFFFF) ∧
      ((Given.string 0x7FFFFFFFFFFF).encode = (Given.bigint 0x7FFFFFFFFFFF).encode ↔
        Given.string 0x7FFFFFFFFFFF = .bigint 0x7FFFFFFFFFFF) := by
  have haccepted : (Given.string 0x7FFFFFFFFFFF).Accepted :=
    show (0x7FFFFFFFFFFF : BitVec 64).toNat < 2 ^ 47 by decide
  obtain ⟨hlane, hread, hvalue, hword⟩ := nan_boxing (.string 0x7FFFFFFFFFFF) haccepted
  exact ⟨hlane, hread, hvalue, hword (.bigint 0x7FFFFFFFFFFF) haccepted⟩

end Conclave.Js.NanBox
