import Conclave.Lib.Codec
import Conclave.Lib.Text

/-! The linear memory of a WebAssembly instance, and the opcodes of the interpreter that
work on it. Each computes its address in 32 bits, so that a base and an offset whose sum
does not fit come back to the start of the memory. -/

namespace Conclave.Wasm

open Lib

/-- A floating point value by its bits. -/
inductive Value where
  | i32 (v : BitVec 32)
  | i64 (v : BitVec 64)
  | f32 (bits : BitVec 32)
  | f64 (bits : BitVec 64)
  deriving DecidableEq, Repr

inductive WasmError where
  | unexpectedEof
  | stackUnderflow
  | typeMismatch
  | memoryOutOfBounds
  | integerOverflow
  | stackOverflow
  | trap (text : Text)
  deriving DecidableEq, Repr

def pageSize : ℕ := 65536

structure Memory where
  data : Bytes
  maxPages : Option (BitVec 32)
  deriving DecidableEq, Repr

/-- `Vec::resize` with zeros. -/
def resize (data : Bytes) (n : ℕ) : Bytes := data.take n ++ List.replicate (n - data.length) 0

namespace Memory

def new (minPages : BitVec 32) (maxPages : Option (BitVec 32)) : Memory :=
  ⟨List.replicate (minPages.toNat * pageSize) 0, maxPages⟩

def size (m : Memory) : ℕ := m.data.length

def pages (m : Memory) : BitVec 32 := BitVec.ofNat 32 (m.size / pageSize)

def grow (m : Memory) (deltaPages : BitVec 32) : BitVec 32 × Memory :=
  let new := min (m.pages.toNat + deltaPages.toNat) (2 ^ 32 - 1)
  if m.maxPages.any fun mx => mx.toNat < new then (-1, m)
  else if 2 ^ 32 - 1 < min (new * pageSize) (2 ^ 64 - 1) then (-1, m)
  else (m.pages, { m with data := resize m.data (new * pageSize) })

/-- Room for so many bytes at an address. -/
def check (m : Memory) (ea : BitVec 32) (len : ℕ) : Except WasmError Unit :=
  if m.size < ea.toNat + len then .error .memoryOutOfBounds else .ok ()

def read (m : Memory) (ea len : ℕ) : Bytes := (m.data.drop ea).take len

def write (m : Memory) (ea : ℕ) (bytes : Bytes) : Memory :=
  { m with data := m.data.take ea ++ bytes ++ m.data.drop (ea + bytes.length) }

end Memory

/-! ### The interpreter on its stack -/

def stackLimit : ℕ := 8 * 1024

/-- The last value pushed comes first. -/
structure Machine where
  stack : List Value
  memory : Option Memory
  pc : ℕ
  deriving DecidableEq, Repr

abbrev Exec := ExceptT WasmError (StateM Machine)

section

variable {α β : Type} {x : Exec α} {f : α → Exec β} {s s' : Machine}

theorem run_bind (x : Exec α) (f : α → Exec β) (s : Machine) :
    (x >>= f) s = match x s with
      | (.ok a, s') => f a s'
      | (.error e, s') => (.error e, s') := by
  change (match x s with | (r, s₁) => (ExceptT.bindCont f r) s₁) = _
  obtain ⟨r, s'⟩ := x s
  cases r <;> rfl

theorem run_ok {a : α} (h : x s = (.ok a, s')) : (x >>= f) s = f a s' := by
  rw [run_bind, h]

theorem run_error {e : WasmError} (h : x s = (.error e, s')) : (x >>= f) s = (.error e, s') := by
  rw [run_bind, h]

end

def push (v : Value) : Exec Unit := do
  let s ← get
  if stackLimit ≤ s.stack.length then throw .stackOverflow
  else set { s with stack := v :: s.stack }

def pop : Exec Value := do
  let s ← get
  match s.stack with
  | [] => throw .stackUnderflow
  | v :: rest =>
    set { s with stack := rest }
    return v

def popI32 : Exec (BitVec 32) := do
  match ← pop with
  | .i32 v => return v
  | _ => throw .typeMismatch

def memory : Exec Memory := do
  match (← get).memory with
  | some m => return m
  | none => throw (.trap "no mem".toList)

def setMemory (m : Memory) : Exec Unit := modify fun s => { s with memory := some m }

/-- A number in groups of seven bits, at most five of them, and how many there were. -/
def u32Leb : (k shift : ℕ) → BitVec 32 → Bytes → Except WasmError (BitVec 32 × ℕ)
  | 0, _, _, _ => .error .integerOverflow
  | _ + 1, _, _, [] => .error .unexpectedEof
  | k + 1, shift, result, b :: bs =>
    let result := result ||| BitVec.ofNat 32 (b &&& 0x7f).toNat <<< shift
    if b &&& 0x80 = 0 then .ok (result, 1)
    else (u32Leb k (shift + 7) result bs).map fun r => (r.1, r.2 + 1)

def readU32 (code : Bytes) : Exec (BitVec 32) := do
  let s ← get
  match u32Leb 5 0 0 (code.drop s.pc) with
  | .error e => throw e
  | .ok (v, n) =>
    set { s with pc := s.pc + n }
    return v

def readMemarg (code : Bytes) : Exec (BitVec 32 × BitVec 32) := do
  let a ← readU32 code
  let o ← readU32 code
  return (a, o)

/-! ### The opcodes -/

inductive LoadOp where
  | i32Load | i64Load | f32Load | f64Load
  | i32Load8S | i32Load8U | i32Load16S | i32Load16U
  | i64Load8S | i64Load8U | i64Load16S | i64Load16U | i64Load32S | i64Load32U
  deriving DecidableEq, Repr

inductive StoreOp where
  | i32Store | i64Store | f32Store | f64Store
  | i32Store8 | i32Store16 | i64Store8 | i64Store16 | i64Store32
  deriving DecidableEq, Repr

/-- The bytes as a number of `w` bits, the first the lowest. -/
def fromLe (w : ℕ) (b : Bytes) : BitVec w := BitVec.ofNat w (leNat b)

def LoadOp.width : LoadOp → ℕ
  | i32Load8S | i32Load8U | i64Load8S | i64Load8U => 1
  | i32Load16S | i32Load16U | i64Load16S | i64Load16U => 2
  | i32Load | f32Load | i64Load32S | i64Load32U => 4
  | i64Load | f64Load => 8

/-- The value that the bytes are pushed as. -/
def LoadOp.value (b : Bytes) : LoadOp → Value
  | i32Load => .i32 (fromLe 32 b)
  | i64Load => .i64 (fromLe 64 b)
  | f32Load => .f32 (fromLe 32 b)
  | f64Load => .f64 (fromLe 64 b)
  | i32Load8S => .i32 ((fromLe 8 b).signExtend 32)
  | i32Load8U => .i32 ((fromLe 8 b).setWidth 32)
  | i32Load16S => .i32 ((fromLe 16 b).signExtend 32)
  | i32Load16U => .i32 ((fromLe 16 b).setWidth 32)
  | i64Load8S => .i64 ((fromLe 8 b).signExtend 64)
  | i64Load8U => .i64 ((fromLe 8 b).setWidth 64)
  | i64Load16S => .i64 ((fromLe 16 b).signExtend 64)
  | i64Load16U => .i64 ((fromLe 16 b).setWidth 64)
  | i64Load32S => .i64 ((fromLe 32 b).signExtend 64)
  | i64Load32U => .i64 ((fromLe 32 b).setWidth 64)

def StoreOp.width : StoreOp → ℕ
  | i32Store8 | i64Store8 => 1
  | i32Store16 | i64Store16 => 2
  | i32Store | f32Store | i64Store32 => 4
  | i64Store | f64Store => 8

/-- The bytes that a value is stored as, if it is of the type that the opcode pops. -/
def StoreOp.bytes : StoreOp → Value → Option Bytes
  | i32Store, .i32 v => some (toLe 4 v.toNat)
  | i64Store, .i64 v => some (toLe 8 v.toNat)
  | f32Store, .f32 v => some (toLe 4 v.toNat)
  | f64Store, .f64 v => some (toLe 8 v.toNat)
  | i32Store8, .i32 v => some (toLe 1 (v.setWidth 8).toNat)
  | i32Store16, .i32 v => some (toLe 2 (v.setWidth 16).toNat)
  | i64Store8, .i64 v => some (toLe 1 (v.setWidth 8).toNat)
  | i64Store16, .i64 v => some (toLe 2 (v.setWidth 16).toNat)
  | i64Store32, .i64 v => some (toLe 4 (v.setWidth 32).toNat)
  | _, _ => none

/-- An arm of the interpreter that loads, from where its offset has been read. -/
def LoadOp.exec (op : LoadOp) (offset : BitVec 32) : Exec Unit := do
  let base ← popI32
  let m ← memory
  let ea := base + offset
  m.check ea op.width
  push (op.value (m.read ea.toNat op.width))

/-- An arm that stores. -/
def StoreOp.exec (op : StoreOp) (offset : BitVec 32) : Exec Unit := do
  match op.bytes (← pop) with
  | none => throw .typeMismatch
  | some bytes =>
    let base ← popI32
    let m ← memory
    let ea := base + offset
    m.check ea op.width
    setMemory (m.write ea.toNat bytes)

def memorySize : Exec Unit := do
  push (.i32 (((← get).memory.map Memory.pages).getD 0))

def memoryGrow : Exec Unit := do
  let n ← popI32
  match (← get).memory with
  | none => push (.i32 (-1))
  | some m =>
    setMemory (m.grow n).2
    push (.i32 (m.grow n).1)

inductive MemoryOp where
  | load (op : LoadOp)
  | store (op : StoreOp)
  | size
  | grow
  deriving DecidableEq, Repr

/-- The opcodes from `0x28` to `0x40`. -/
def MemoryOp.ofByte : UInt8 → Option MemoryOp
  | 0x28 => some (load .i32Load)
  | 0x29 => some (load .i64Load)
  | 0x2a => some (load .f32Load)
  | 0x2b => some (load .f64Load)
  | 0x2c => some (load .i32Load8S)
  | 0x2d => some (load .i32Load8U)
  | 0x2e => some (load .i32Load16S)
  | 0x2f => some (load .i32Load16U)
  | 0x30 => some (load .i64Load8S)
  | 0x31 => some (load .i64Load8U)
  | 0x32 => some (load .i64Load16S)
  | 0x33 => some (load .i64Load16U)
  | 0x34 => some (load .i64Load32S)
  | 0x35 => some (load .i64Load32U)
  | 0x36 => some (store .i32Store)
  | 0x37 => some (store .i64Store)
  | 0x38 => some (store .f32Store)
  | 0x39 => some (store .f64Store)
  | 0x3a => some (store .i32Store8)
  | 0x3b => some (store .i32Store16)
  | 0x3c => some (store .i64Store8)
  | 0x3d => some (store .i64Store16)
  | 0x3e => some (store .i64Store32)
  | 0x3f => some size
  | 0x40 => some grow
  | _ => none

/-- An arm of the interpreter's loop, with the program counter past the opcode. -/
def MemoryOp.exec (code : Bytes) : MemoryOp → Exec Unit
  | load op => do op.exec (← readMemarg code).2
  | store op => do op.exec (← readMemarg code).2
  | size => do
    let _ ← readU32 code
    memorySize
  | grow => do
    let _ ← readU32 code
    memoryGrow

end Conclave.Wasm
