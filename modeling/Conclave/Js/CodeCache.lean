import Conclave.Js.Bytecode
import Conclave.Lib.Codec

/-! The code cache: compiled scripts on disk under a key of the source, the engine's flags
and the shapes their inline caches were warmed with. Shapes are written as key sequences,
and interned again when the script is read. -/

namespace Conclave.Js

open Lib Reader

def ENGINE_VERSION : ℕ := 2

def CACHE_MAGIC : ℕ := 0x54424343

def FORMAT_VERSION : ℕ := 1

/-- The flag bits of the process, and the hook that leaves the shapes out of the key. -/
structure Engine where
  flagBits : ℕ
  forceStaleKey : Bool
  deriving DecidableEq, Repr

/-! ### Keys -/

/-- FNV-1a of 64 bits. -/
def fnv1a (bytes : Bytes) : UInt64 :=
  bytes.foldl (fun h b => (h ^^^ b.toUInt64) * 0x100000001b3) 0xcbf29ce484222325

/-- The warmed cache of one site, its shapes as key sequences. -/
structure Feedback where
  ip : ℕ
  descr : List (List String × ℕ)
  mega : Bool
  deriving DecidableEq, Repr

def descriptors (t : ShapeTable) (ic : PropIc) : List (List String × ℕ) :=
  (ic.serializeOwn.1.filter fun e => e.1 ≠ DICT_SHAPE ∧ e.2 ≠ NO_SLOT).map fun e =>
    ((t.shape e.1).properties, e.2)

/-- Nothing for a site without feedback, or none that outlives the process. -/
def siteFeedback (t : ShapeTable) (ic : PropIc) (ip : ℕ) : Option Feedback :=
  if !ic.hasFeedback then none
  else if descriptors t ic = [] ∧ !ic.serializeOwn.2 then none
  else some ⟨ip, descriptors t ic, ic.serializeOwn.2⟩

def portableFeedback (t : ShapeTable) (f : BcFunction) : List Feedback :=
  f.ic.zipIdx.filterMap fun (ic, ip) => siteFeedback t ic ip

def writeBool (b : Bool) : Bytes := [if b then 1 else 0]

def writeStr (s : String) : Bytes := toLe 4 (utf8 s).length ++ utf8 s

def writeDescriptor (d : List String × ℕ) : Bytes :=
  toLe 4 d.1.length ++ d.1.flatMap writeStr ++ toLe 4 d.2

/-- What the digest of the shape assumptions is taken of. -/
def shapeAssumptions (t : ShapeTable) (module : Module) : Bytes :=
  module.fns.zipIdx.flatMap fun (f, fi) => (portableFeedback t f).flatMap fun s =>
    toLe 4 fi ++ toLe 4 s.ip ++ writeBool s.mega ++ s.descr.flatMap writeDescriptor

def computeKey (engine : Engine) (source : String) (t : ShapeTable) (module : Module) : UInt64 :=
  fnv1a (utf8 "tbcc-key-v1" ++ toLe 4 ENGINE_VERSION ++ toLe 4 engine.flagBits ++
    toLe 8 (utf8 source).length ++ utf8 source ++
    if engine.forceStaleKey then [] else toLe 8 (fnv1a (shapeAssumptions t module)).toNat)

/-! ### Writing -/

/-- None for a constant that has no form on disk. -/
def writeConst : Value → Option Bytes
  | .undefined => some [0]
  | .null => some [1]
  | .bool b => some (2 :: writeBool b)
  | .number bits => some (3 :: toLe 8 bits.toNat)
  | .string s => some (4 :: writeStr s)
  | .other => none

def writeOperand : Op.Operand → Bytes
  | .u16 v => toLe 2 v.toNat
  | .u8 v => toLe 1 v.toNat

def writeOp (op : Op) : Bytes := toLe 1 op.tag ++ op.operands.flatMap writeOperand

def writeRestReg : Option UInt16 → Bytes
  | some r => 1 :: toLe 2 r.toNat
  | none => [0]

def writeFeedback (s : Feedback) : Bytes :=
  toLe 4 s.ip ++ writeBool s.mega ++ toLe 4 s.descr.length ++ s.descr.flatMap writeDescriptor

def writeFn (t : ShapeTable) (f : BcFunction) : Option Bytes := do
  let consts ← f.consts.mapM writeConst
  return writeStr f.name ++ toLe 1 f.nParams.toNat ++ writeBool f.strict ++
    writeRestReg f.restReg ++ toLe 2 f.nRegs.toNat ++ toLe 4 f.consts.length ++ consts.flatten ++
    toLe 4 f.code.length ++ f.code.flatMap writeOp ++
    toLe 4 (portableFeedback t f).length ++ (portableFeedback t f).flatMap writeFeedback

def writeSync (s : String × UInt16) : Bytes := writeStr s.1 ++ toLe 2 s.2.toNat

def writeHeader (key : UInt64) : Bytes :=
  toLe 4 CACHE_MAGIC ++ toLe 4 FORMAT_VERSION ++ toLe 4 ENGINE_VERSION ++ toLe 8 key.toNat

def serializeModule (engine : Engine) (source : String) (t : ShapeTable) (module : Module) :
    Option Bytes := do
  let fns ← module.fns.mapM (writeFn t)
  return writeHeader (computeKey engine source t module) ++ toLe 4 module.fns.length ++
    fns.flatten ++ toLe 4 module.scriptForinitSyncs.length ++
    module.scriptForinitSyncs.flatMap writeSync

/-! ### Reading -/

/-- The state of a reader is the shape table of the process. -/
abbrev CodeReader := Reader ShapeTable

namespace CodeReader

def bool : CodeReader Bool := do
  let b ← uint 1
  return b ≠ 0

def u8 : CodeReader UInt8 := do
  let n ← uint 1
  return UInt8.ofNat n

def u16 : CodeReader UInt16 := do
  let n ← uint 2
  return UInt16.ofNat n

def u64 : CodeReader UInt64 := do
  let n ← uint 8
  return UInt64.ofNat n

/-- A count and as many elements. -/
def counted {α : Type} (item : CodeReader α) : CodeReader (List α) := do
  let n ← uint 4
  times n item

/-- A count up to a limit and as many elements. -/
def limited {α : Type} (limit : ℕ) (item : CodeReader α) : CodeReader (List α) := do
  let n ← uint 4
  if limit < n then fail else times n item

/-! The operands of an instruction, by how many there are of each width. -/

def op0 (c : Op) : CodeReader Op := return c

def op1 (c : UInt16 → Op) : CodeReader Op := do
  let r₁ ← u16
  return c r₁

def op2 (c : UInt16 → UInt16 → Op) : CodeReader Op := do
  let r₁ ← u16
  op1 (c r₁)

def op3 (c : UInt16 → UInt16 → UInt16 → Op) : CodeReader Op := do
  let r₁ ← u16
  op2 (c r₁)

def op0b (c : UInt8 → Op) : CodeReader Op := do
  let n ← u8
  return c n

def op1b (c : UInt16 → UInt8 → Op) : CodeReader Op := do
  let r₁ ← u16
  op0b (c r₁)

def op2b (c : UInt16 → UInt16 → UInt8 → Op) : CodeReader Op := do
  let r₁ ← u16
  op1b (c r₁)

def op3b (c : UInt16 → UInt16 → UInt16 → UInt8 → Op) : CodeReader Op := do
  let r₁ ← u16
  op2b (c r₁)

def op4b (c : UInt16 → UInt16 → UInt16 → UInt16 → UInt8 → Op) : CodeReader Op := do
  let r₁ ← u16
  op3b (c r₁)

end CodeReader

open CodeReader

def readConst : CodeReader Value := do
  let tag ← uint 1
  match tag with
  | 0 => return .undefined
  | 1 => return .null
  | 2 => do
    let b ← CodeReader.bool
    return .bool b
  | 3 => do
    let bits ← u64
    return .number bits
  | 4 => do
    let s ← Reader.str
    return .string s
  | _ => fail

def readOperands : ℕ → CodeReader Op
  | 0 => op2 .loadConst
  | 1 => op1 .loadTrue
  | 2 => op1 .loadFalse
  | 3 => op1 .loadNull
  | 4 => op1 .loadUndef
  | 5 => op2 .move
  | 6 => op3 .add
  | 7 => op3 .sub
  | 8 => op3 .mul
  | 9 => op3 .div
  | 10 => op3 .mod
  | 11 => op3 .pow
  | 12 => op3 .eq
  | 13 => op3 .neq
  | 14 => op3 .looseEq
  | 15 => op3 .looseNeq
  | 16 => op3 .lt
  | 17 => op3 .le
  | 18 => op3 .gt
  | 19 => op3 .ge
  | 20 => op3 .bitAnd
  | 21 => op3 .bitOr
  | 22 => op3 .bitXor
  | 23 => op3 .shl
  | 24 => op3 .shr
  | 25 => op3 .ushr
  | 26 => op2 .neg
  | 27 => op2 .not
  | 28 => op2 .bitNot
  | 29 => op2 .toNumber
  | 30 => op2 .typeof
  | 31 => op3 .isIn
  | 32 => op3 .deleteProp
  | 33 => op3 .deleteIdx
  | 34 => op3 .makeRegex
  | 35 => op1 .jmp
  | 36 => op2 .jmpIfFalse
  | 37 => op2 .jmpIfTrue
  | 38 => op3b .callFn
  | 39 => op2 .loadGlobal
  | 40 => op2 .loadGlobalChecked
  | 41 => op2 .storeGlobal
  | 42 => op4b .callValue
  | 43 => op3b .new
  | 44 => op1 .loadThis
  | 45 => op1 .loadSelf
  | 46 => op3 .getProp
  | 47 => op3 .getIdx
  | 48 => op3 .setProp
  | 49 => op3 .setIdx
  | 50 => op2b .newArray
  | 51 => op2 .arrayPush
  | 52 => op2 .arrayPushSpread
  | 53 => op1 .newObject
  | 54 => op1 .throw
  | 55 => op2 .tryEnter
  | 56 => op0 .tryExit
  | 57 => op2 .enumKeys
  | 58 => op3b .makeClosure
  | 59 => op1b .loadUp
  | 60 => op1b .storeUp
  | 61 => op1 .ret
  | 62 => op3 .instanceof
  | 63 => op2 .toStr
  | _ => fail

def readOp : CodeReader Op := do
  let tag ← uint 1
  readOperands tag

def readRestReg : CodeReader (Option UInt16) := do
  let tag ← uint 1
  if tag = 0 then return none
  else if tag = 1 then do
    let r ← u16
    return some r
  else fail

/-- A key sequence as the shape it has in this process, and the slot. -/
def readDescriptor : CodeReader (ℕ × ℕ) := do
  let keys ← counted Reader.str
  let slot ← uint 4
  let shapeId ← state fun t => t.addProperties t.emptyId keys
  return (shapeId, slot)

/-- A site and its cache. -/
def readFeedback : CodeReader (ℕ × PropIc) := do
  let ip ← uint 4
  let mega ← CodeReader.bool
  let entries ← counted readDescriptor
  return (ip, PropIc.fromSerializedOwn entries mega)

/-- A site beyond the code is left out. -/
def warm (codeLen : ℕ) (sites : List (ℕ × PropIc)) : List PropIc :=
  if sites = [] then []
  else sites.foldl (fun ics s => ics.set s.1 s.2) (List.replicate codeLen PropIc.INVALID)

/-- The feedback of a function that was read is empty. -/
def readFn : CodeReader BcFunction := do
  let name ← Reader.str
  let nParams ← u8
  let strict ← CodeReader.bool
  let restReg ← readRestReg
  let nRegs ← u16
  let consts ← counted readConst
  let code ← counted readOp
  let sites ← counted readFeedback
  return ⟨name, nParams, restReg, nRegs, consts, code, warm code.length sites, [], strict⟩

def readSync : CodeReader (String × UInt16) := do
  let name ← Reader.str
  let reg ← u16
  return (name, reg)

/-- The key in the header. -/
def readHeader : CodeReader UInt64 := do
  let magic ← uint 4
  if magic ≠ CACHE_MAGIC then fail
  else do
    let format ← uint 4
    if format ≠ FORMAT_VERSION then fail
    else do
      let engine ← uint 4
      if engine ≠ ENGINE_VERSION then fail else u64

def deserializeModule (expectedKey : UInt64) : CodeReader Module := do
  let storedKey ← readHeader
  if storedKey ≠ expectedKey then fail
  else do
    let fns ← limited (2 ^ 20) readFn
    let syncs ← limited (2 ^ 16) readSync
    return ⟨fns, syncs⟩

/-- The key is computed again from what was read. -/
def validateAndDeserialize (engine : Engine) (source : String) (blob : Bytes) (t : ShapeTable) :
    Option Module × ShapeTable :=
  match readHeader blob t with
  | (none, _, t) => (none, t)
  | (some storedKey, _, t) =>
    match deserializeModule storedKey blob t with
    | (none, _, t) => (none, t)
    | (some module, _, t) =>
      if computeKey engine source t module ≠ storedKey then (none, t) else (some module, t)

end Conclave.Js
