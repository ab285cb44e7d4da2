import Conclave.Js.Shapes

/-! Compiled scripts: the instructions of the register machine, the inline caches of their
property accesses, and functions with their constants. -/

namespace Conclave.Js

open Lib

/-- A constant. Only the first five kinds are ever written out. -/
inductive Value where
  | undefined
  | null
  | bool (b : Bool)
  | number (bits : UInt64)
  | string (s : String)
  | other
  deriving DecidableEq, Repr

/-- Registers, jump targets and indices have 16 bits, counts of arguments have 8. -/
inductive Op where
  | loadConst (dst k : UInt16)
  | loadTrue (dst : UInt16)
  | loadFalse (dst : UInt16)
  | loadNull (dst : UInt16)
  | loadUndef (dst : UInt16)
  | move (dst src : UInt16)
  | add (dst lhs rhs : UInt16)
  | sub (dst lhs rhs : UInt16)
  | mul (dst lhs rhs : UInt16)
  | div (dst lhs rhs : UInt16)
  | mod (dst lhs rhs : UInt16)
  | pow (dst lhs rhs : UInt16)
  | eq (dst lhs rhs : UInt16)
  | neq (dst lhs rhs : UInt16)
  | looseEq (dst lhs rhs : UInt16)
  | looseNeq (dst lhs rhs : UInt16)
  | lt (dst lhs rhs : UInt16)
  | le (dst lhs rhs : UInt16)
  | gt (dst lhs rhs : UInt16)
  | ge (dst lhs rhs : UInt16)
  | bitAnd (dst lhs rhs : UInt16)
  | bitOr (dst lhs rhs : UInt16)
  | bitXor (dst lhs rhs : UInt16)
  | shl (dst lhs rhs : UInt16)
  | shr (dst lhs rhs : UInt16)
  | ushr (dst lhs rhs : UInt16)
  | neg (dst src : UInt16)
  | not (dst src : UInt16)
  | bitNot (dst src : UInt16)
  | toNumber (dst src : UInt16)
  | typeof (dst src : UInt16)
  | toStr (dst src : UInt16)
  | isIn (dst lhs rhs : UInt16)
  | instanceof (dst lhs rhs : UInt16)
  | deleteProp (dst obj keyK : UInt16)
  | deleteIdx (dst obj key : UInt16)
  | makeRegex (dst sourceK flagsK : UInt16)
  | jmp (target : UInt16)
  | jmpIfFalse (cond target : UInt16)
  | jmpIfTrue (cond target : UInt16)
  | callFn (dst fnIdx firstArg : UInt16) (nArgs : UInt8)
  | loadGlobal (dst nameK : UInt16)
  | loadGlobalChecked (dst nameK : UInt16)
  | storeGlobal (nameK src : UInt16)
  | callValue (dst callee thisReg firstArg : UInt16) (nArgs : UInt8)
  | new (dst ctor firstArg : UInt16) (nArgs : UInt8)
  | loadThis (dst : UInt16)
  | loadSelf (dst : UInt16)
  | getProp (dst obj keyK : UInt16)
  | getIdx (dst obj key : UInt16)
  | setProp (obj keyK src : UInt16)
  | setIdx (obj key src : UInt16)
  | newArray (dst firstElem : UInt16) (nElems : UInt8)
  | arrayPush (arr val : UInt16)
  | arrayPushSpread (arr spread : UInt16)
  | newObject (dst : UInt16)
  | throw (src : UInt16)
  | tryEnter (catchTarget catchReg : UInt16)
  | tryExit
  | enumKeys (dst obj : UInt16)
  | makeClosure (dst fnIdx firstUpvalue : UInt16) (nUpvalues : UInt8)
  | loadUp (dst : UInt16) (slot : UInt8)
  | storeUp (src : UInt16) (slot : UInt8)
  | ret (src : UInt16)
  deriving DecidableEq

namespace Op

/-- The code of an instruction. -/
def tag : Op → ℕ
  | .loadConst .. => 0
  | .loadTrue .. => 1
  | .loadFalse .. => 2
  | .loadNull .. => 3
  | .loadUndef .. => 4
  | .move .. => 5
  | .add .. => 6
  | .sub .. => 7
  | .mul .. => 8
  | .div .. => 9
  | .mod .. => 10
  | .pow .. => 11
  | .eq .. => 12
  | .neq .. => 13
  | .looseEq .. => 14
  | .looseNeq .. => 15
  | .lt .. => 16
  | .le .. => 17
  | .gt .. => 18
  | .ge .. => 19
  | .bitAnd .. => 20
  | .bitOr .. => 21
  | .bitXor .. => 22
  | .shl .. => 23
  | .shr .. => 24
  | .ushr .. => 25
  | .neg .. => 26
  | .not .. => 27
  | .bitNot .. => 28
  | .toNumber .. => 29
  | .typeof .. => 30
  | .toStr .. => 63
  | .isIn .. => 31
  | .instanceof .. => 62
  | .deleteProp .. => 32
  | .deleteIdx .. => 33
  | .makeRegex .. => 34
  | .jmp .. => 35
  | .jmpIfFalse .. => 36
  | .jmpIfTrue .. => 37
  | .callFn .. => 38
  | .loadGlobal .. => 39
  | .loadGlobalChecked .. => 40
  | .storeGlobal .. => 41
  | .callValue .. => 42
  | .new .. => 43
  | .loadThis .. => 44
  | .loadSelf .. => 45
  | .getProp .. => 46
  | .getIdx .. => 47
  | .setProp .. => 48
  | .setIdx .. => 49
  | .newArray .. => 50
  | .arrayPush .. => 51
  | .arrayPushSpread .. => 52
  | .newObject .. => 53
  | .throw .. => 54
  | .tryEnter .. => 55
  | .tryExit => 56
  | .enumKeys .. => 57
  | .makeClosure .. => 58
  | .loadUp .. => 59
  | .storeUp .. => 60
  | .ret .. => 61

inductive Operand where
  | u16 (v : UInt16)
  | u8 (v : UInt8)

/-- The operands in the order of their declaration. -/
def operands : Op → List Operand
  | .loadConst dst k => [.u16 dst, .u16 k]
  | .loadTrue dst | .loadFalse dst | .loadNull dst | .loadUndef dst | .loadThis dst
  | .loadSelf dst | .newObject dst => [.u16 dst]
  | .move dst src | .neg dst src | .not dst src | .bitNot dst src | .toNumber dst src
  | .typeof dst src | .toStr dst src => [.u16 dst, .u16 src]
  | .add dst lhs rhs | .sub dst lhs rhs | .mul dst lhs rhs | .div dst lhs rhs | .mod dst lhs rhs
  | .pow dst lhs rhs | .eq dst lhs rhs | .neq dst lhs rhs | .looseEq dst lhs rhs
  | .looseNeq dst lhs rhs | .lt dst lhs rhs | .le dst lhs rhs | .gt dst lhs rhs | .ge dst lhs rhs
  | .bitAnd dst lhs rhs | .bitOr dst lhs rhs | .bitXor dst lhs rhs | .shl dst lhs rhs
  | .shr dst lhs rhs | .ushr dst lhs rhs | .isIn dst lhs rhs | .instanceof dst lhs rhs =>
    [.u16 dst, .u16 lhs, .u16 rhs]
  | .deleteProp dst obj keyK | .getProp dst obj keyK =>
    [.u16 dst, .u16 obj, .u16 keyK]
  | .deleteIdx dst obj key | .getIdx dst obj key => [.u16 dst, .u16 obj, .u16 key]
  | .makeRegex dst sourceK flagsK =>
    [.u16 dst, .u16 sourceK, .u16 flagsK]
  | .jmp target => [.u16 target]
  | .jmpIfFalse cond target | .jmpIfTrue cond target => [.u16 cond, .u16 target]
  | .callFn dst fnIdx firstArg nArgs =>
    [.u16 dst, .u16 fnIdx, .u16 firstArg, .u8 nArgs]
  | .loadGlobal dst nameK | .loadGlobalChecked dst nameK => [.u16 dst, .u16 nameK]
  | .storeGlobal nameK src => [.u16 nameK, .u16 src]
  | .callValue dst callee thisReg firstArg nArgs =>
    [.u16 dst, .u16 callee, .u16 thisReg, .u16 firstArg,
      .u8 nArgs]
  | .new dst ctor firstArg nArgs =>
    [.u16 dst, .u16 ctor, .u16 firstArg, .u8 nArgs]
  | .setProp obj keyK src => [.u16 obj, .u16 keyK, .u16 src]
  | .setIdx obj key src => [.u16 obj, .u16 key, .u16 src]
  | .newArray dst firstElem nElems =>
    [.u16 dst, .u16 firstElem, .u8 nElems]
  | .arrayPush arr val => [.u16 arr, .u16 val]
  | .arrayPushSpread arr spread => [.u16 arr, .u16 spread]
  | .throw src | .ret src => [.u16 src]
  | .tryEnter catchTarget catchReg => [.u16 catchTarget, .u16 catchReg]
  | .tryExit => []
  | .enumKeys dst obj => [.u16 dst, .u16 obj]
  | .makeClosure dst fnIdx firstUpvalue nUpvalues =>
    [.u16 dst, .u16 fnIdx, .u16 firstUpvalue,
      .u8 nUpvalues]
  | .loadUp dst slot => [.u16 dst, .u8 slot]
  | .storeUp src slot => [.u16 src, .u8 slot]

end Op

/-! ### Inline caches -/

def IC_POLY_CAP : ℕ := 4

/-- A slot that was never set. -/
def NO_SLOT : ℕ := 2 ^ 32 - 1

/-- An object of one shape inherits a property: the slot of its prototype, the prototype and its
shape, and the slot there. -/
structure ProtoIc where
  objShape : ℕ
  objProtoSlot : ℕ
  protoPtr : ℕ
  protoShape : ℕ
  keySlot : ℕ
  deriving DecidableEq, Repr

def ProtoIc.INVALID : ProtoIc := ⟨0, 0, 0, 0, NO_SLOT⟩

/-- Up to four shapes of objects seen at a property access, with the slot of the property
in each. A site that saw more is megamorphic. -/
structure PropIc where
  entries : List (ℕ × ℕ)
  mega : Bool
  proto : ProtoIc
  deriving DecidableEq, Repr

namespace PropIc

def INVALID : PropIc := ⟨[], false, .INVALID⟩

def lookup (ic : PropIc) (shape : ℕ) : Option ℕ :=
  if ic.mega then none else ic.entries.lookup shape

def record (ic : PropIc) (shape slot : ℕ) : PropIc :=
  if shape = DICT_SHAPE then ic
  else if ic.mega then ic
  else if shape ∈ Entries.keys ic.entries then
    { ic with entries := Entries.modify ic.entries shape fun _ => slot }
  else if ic.entries.length < IC_POLY_CAP then
    { ic with entries := ic.entries ++ [(shape, slot)] }
  else { ic with mega := true }

def protoLookup (ic : PropIc) (objShape : ℕ) : Option (ℕ × ℕ × ℕ × ℕ) :=
  if ic.proto.keySlot ≠ NO_SLOT ∧ ic.proto.objShape = objShape then
    some (ic.proto.objProtoSlot, ic.proto.protoPtr, ic.proto.protoShape, ic.proto.keySlot)
  else none

def protoRecord (ic : PropIc) (objShape protoSlot protoPtr protoShape keySlot : ℕ) : PropIc :=
  if objShape = DICT_SHAPE ∨ protoShape = DICT_SHAPE then ic
  else { ic with proto := ⟨objShape, protoSlot, protoPtr, protoShape, keySlot⟩ }

def serializeOwn (ic : PropIc) : List (ℕ × ℕ) × Bool := (ic.entries, ic.mega)

def hasFeedback (ic : PropIc) : Bool := 0 < ic.entries.length ∨ ic.mega

/-- The entries after those in `acc`. The cache of the prototype starts cold. -/
def restore (acc : List (ℕ × ℕ)) : List (ℕ × ℕ) → PropIc
  | [] => ⟨acc, false, .INVALID⟩
  | (sh, sl) :: entries =>
    if sl = NO_SLOT ∨ sh = DICT_SHAPE then restore acc entries
    else if IC_POLY_CAP ≤ acc.length then ⟨acc, true, .INVALID⟩
    else if sh ∈ Entries.keys acc then restore acc entries
    else restore (acc ++ [(sh, sl)]) entries

def fromSerializedOwn (entries : List (ℕ × ℕ)) (mega : Bool) : PropIc :=
  if mega then ⟨[], true, .INVALID⟩ else restore [] entries

end PropIc

/-! ### Functions -/

inductive TypeHint where
  | none | signedSmall | number | numberOrOddball | string | bigInt | any
  deriving DecidableEq, Repr

/-- The kinds of operands that an instruction has met, or the function that it has called. -/
structure TypeFeedback where
  binop : TypeHint
  callTarget : ℕ
  callMono : Bool
  deriving DecidableEq, Repr

/-- The inline caches are as many as the instructions, or none yet, and so is the feedback. -/
structure BcFunction where
  name : String
  nParams : UInt8
  restReg : Option UInt16
  nRegs : UInt16
  consts : List Value
  code : List Op
  ic : List PropIc
  feedback : List TypeFeedback
  strict : Bool
  deriving DecidableEq

structure Module where
  fns : List BcFunction
  scriptForinitSyncs : List (String × UInt16)
  deriving DecidableEq

end Conclave.Js
