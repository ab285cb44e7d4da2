import Conclave.Js.Bytecode
import Conclave.Lib.Lockstep

/-! Redundancy elimination on the instructions that work on numbers: what a register holds has
a class, registers of one class hold one value, and an expression over classes that is there
already is copied. -/

namespace Conclave.Js

open Lib

/-! ### The instructions as the pass sees them -/

inductive BinOp where
  | add | sub | mul | div | lt | le | gt | ge | eq | neq | looseEq | looseNeq
  deriving DecidableEq, Repr

def BinOp.tag : BinOp → ℕ
  | .add => 0
  | .sub => 1
  | .mul => 2
  | .div => 3
  | .lt => 4
  | .le => 5
  | .gt => 6
  | .ge => 7
  | .eq => 8
  | .neq => 9
  | .looseEq => 10
  | .looseNeq => 11

theorem BinOp.tag_injective : Function.Injective BinOp.tag := by
  intro b c h
  cases b <;> cases c <;> first | rfl | exact absurd h (by decide)

namespace Op

/-- The arithmetic and the comparisons: operation, destination and operands. -/
def binary : Op → Option (BinOp × UInt16 × UInt16 × UInt16)
  | .add dst lhs rhs => some (.add, dst, lhs, rhs)
  | .sub dst lhs rhs => some (.sub, dst, lhs, rhs)
  | .mul dst lhs rhs => some (.mul, dst, lhs, rhs)
  | .div dst lhs rhs => some (.div, dst, lhs, rhs)
  | .lt dst lhs rhs => some (.lt, dst, lhs, rhs)
  | .le dst lhs rhs => some (.le, dst, lhs, rhs)
  | .gt dst lhs rhs => some (.gt, dst, lhs, rhs)
  | .ge dst lhs rhs => some (.ge, dst, lhs, rhs)
  | .eq dst lhs rhs => some (.eq, dst, lhs, rhs)
  | .neq dst lhs rhs => some (.neq, dst, lhs, rhs)
  | .looseEq dst lhs rhs => some (.looseEq, dst, lhs, rhs)
  | .looseNeq dst lhs rhs => some (.looseNeq, dst, lhs, rhs)
  | _ => none

def defReg : Op → Option UInt16
  | .loadConst dst _ | .loadTrue dst | .loadFalse dst | .loadNull dst | .loadUndef dst
  | .move dst _ | .add dst _ _ | .sub dst _ _ | .mul dst _ _ | .div dst _ _ | .lt dst _ _
  | .le dst _ _ | .gt dst _ _ | .ge dst _ _ | .eq dst _ _ | .neq dst _ _ | .looseEq dst _ _
  | .looseNeq dst _ _ => some dst
  | _ => none

/-- The operation by its number, with the two operands. -/
def vnKey (op : Op) : Option (ℕ × UInt16 × UInt16) :=
  op.binary.map fun (b, _, lhs, rhs) => (b.tag, lhs, rhs)

def isMove : Op → Bool
  | .move .. => true
  | _ => false

def isTerminator : Op → Bool
  | .jmp _ | .jmpIfFalse .. | .jmpIfTrue .. | .ret _ => true
  | _ => false

def jumpTarget : Op → Option UInt16
  | .jmp target | .jmpIfFalse _ target | .jmpIfTrue _ target => some target
  | _ => none

/-- The registers an instruction of the subset reads. -/
def uses : Op → List UInt16
  | .move _ src | .ret src => [src]
  | .jmpIfFalse cond _ | .jmpIfTrue cond _ => [cond]
  | op => op.binary.elim [] fun (_, _, lhs, rhs) => [lhs, rhs]

/-- The same operation, on other operands. -/
def rebuild (sub : UInt16 → UInt16) : Op → Op
  | .move dst src => .move dst (sub src)
  | .add dst lhs rhs => .add dst (sub lhs) (sub rhs)
  | .sub dst lhs rhs => .sub dst (sub lhs) (sub rhs)
  | .mul dst lhs rhs => .mul dst (sub lhs) (sub rhs)
  | .div dst lhs rhs => .div dst (sub lhs) (sub rhs)
  | .lt dst lhs rhs => .lt dst (sub lhs) (sub rhs)
  | .le dst lhs rhs => .le dst (sub lhs) (sub rhs)
  | .gt dst lhs rhs => .gt dst (sub lhs) (sub rhs)
  | .ge dst lhs rhs => .ge dst (sub lhs) (sub rhs)
  | .eq dst lhs rhs => .eq dst (sub lhs) (sub rhs)
  | .neq dst lhs rhs => .neq dst (sub lhs) (sub rhs)
  | .looseEq dst lhs rhs => .looseEq dst (sub lhs) (sub rhs)
  | .looseNeq dst lhs rhs => .looseNeq dst (sub lhs) (sub rhs)
  | .jmpIfFalse cond target => .jmpIfFalse (sub cond) target
  | .jmpIfTrue cond target => .jmpIfTrue (sub cond) target
  | .ret src => .ret (sub src)
  | op => op

end Op

/-- Where a basic block starts: at the first instruction, at the target of a jump, and behind
an instruction that ends a block. -/
def blockStarts (code : List Op) : List Bool :=
  (List.range code.length).map fun i =>
    i = 0 || code.any (fun op => op.jumpTarget.any (·.toNat = i)) ||
      (code[i - 1]?).any Op.isTerminator

/-! ### The pass -/

inductive Allow where
  | always
  | onlyNumericOperands
  deriving DecidableEq, Repr

structure RedundancyStats where
  cseFolded : ℕ
  copiesForwarded : ℕ
  deriving DecidableEq, Repr

/-- The class of every register, the number of the next class, which register holds a class,
which expressions over classes are there and as which class, and which registers are known to
hold a number. -/
structure Numbering where
  classes : List ℕ
  nextClass : ℕ
  holder : ℕ → Option UInt16
  avail : ℕ × ℕ × ℕ → Option ℕ
  proven : List Bool
  stats : RedundancyStats

namespace Numbering

/-- Class numbers have 32 bits. -/
def bump (c : ℕ) : ℕ := (c + 1) % 2 ^ 32

def classOf (t : Numbering) (r : UInt16) : ℕ := t.classes[r.toNat]?.getD 0

/-- Every register gets a class of its own. -/
def resetClasses (nr : ℕ) (t : Numbering) : Numbering :=
  { t with
    classes := (List.range nr).map fun r => (t.nextClass + r) % 2 ^ 32
    nextClass := (t.nextClass + nr) % 2 ^ 32
    holder := (List.range nr).foldl
      (fun holder r => Function.update holder ((t.nextClass + r) % 2 ^ 32) (some (.ofNat r)))
      fun _ => none }

/-- At the start of a block nothing is known. -/
def startBlock (t : Numbering) : Numbering :=
  { t.resetClasses t.classes.length with
    avail := fun _ => none
    proven := t.proven.map fun _ => false }

/-- The register an operand is read from instead. -/
def sub (t : Numbering) (r : UInt16) : UInt16 := (t.holder (t.classOf r)).getD r

def rewriteUsesByClass (t : Numbering) (op : Op) : Op × ℕ :=
  (op.rebuild t.sub, (op.uses.filter fun r => t.sub r ≠ r).length)

def isProven (t : Numbering) (r : UInt16) : Bool := t.proven[r.toNat]?.getD false

/-- What an instruction does to the knowledge about numbers. -/
def transfer (t : Numbering) (isNumber : ℕ → Bool) (op : Op) : List Bool :=
  match op with
  | .loadConst dst k => t.proven.set dst.toNat (isNumber k.toNat)
  | .add dst _ _ | .sub dst _ _ | .mul dst _ _ | .div dst _ _ => t.proven.set dst.toNat true
  | .move dst src => t.proven.set dst.toNat (t.isProven src)
  | op => op.defReg.elim t.proven fun dst => t.proven.set dst.toNat false

/-- The class and the register an expression is to be copied from. -/
def lookup (t : Numbering) (allow : Allow) (op : Op) : Option UInt16 := do
  let (tag, lhs, rhs) ← op.vnKey
  let dst ← op.defReg
  let res ← t.avail (tag, t.classOf lhs, t.classOf rhs)
  let prev ← t.holder res
  if (allow = .always ∨ t.isProven lhs ∧ t.isProven rhs) ∧ prev ≠ dst then some prev else none

/-- The copy of an expression that is there, in its place. -/
def fold (t : Numbering) (allow : Allow) (op : Op) : Op × ℕ :=
  match t.lookup allow op, op.defReg with
  | some prev, some dst => (.move dst prev, 1)
  | _, _ => (op, 0)

/-- The register loses its class, and is no longer who holds it. -/
def drop (t : Numbering) (d : UInt16) : Numbering :=
  if t.holder (t.classOf d) = some d then
    { t with holder := Function.update t.holder (t.classOf d) none }
  else t

/-- The register gets a class. None for a register there is no room for. -/
def assign (t : Numbering) (d : UInt16) (c : ℕ) : Option Numbering :=
  if d.toNat < t.classes.length then
    some { t with
      classes := t.classes.set d.toNat c
      holder := if t.holder c = none then Function.update t.holder c (some d) else t.holder }
  else none

/-- The class of what an instruction writes: that of the source of a copy, else a new one. -/
def define (t : Numbering) (op : Op) : Numbering × ℕ :=
  match op with
  | .move _ src => (t, t.classOf src)
  | op =>
    ({ t with
      nextClass := bump t.nextClass
      avail := op.vnKey.elim t.avail fun (tag, lhs, rhs) =>
        Function.update t.avail (tag, t.classOf lhs, t.classOf rhs) (some t.nextClass) },
      t.nextClass)

/-- The numbering behind an instruction as it has been rewritten. -/
def update (t : Numbering) (op : Op) : Option Numbering :=
  match op.defReg with
  | none => some t
  | some d =>
    let (t, c) := (t.drop d).define op
    t.assign d c

/-- One instruction, with what it is rewritten to. -/
def visit (t : Numbering) (isNumber : ℕ → Bool) (allow : Allow) (op : Op) :
    Option (Op × Numbering) := do
  let (op, forwarded) := t.rewriteUsesByClass op
  let (op, folded) := t.fold allow op
  let t' ← t.update op
  return (op, { t' with
    proven := t.transfer isNumber op
    stats := ⟨t.stats.cseFolded + folded, t.stats.copiesForwarded + forwarded⟩ })

/-- The instructions from some point on, each with whether a block starts there. -/
def visitAll (isNumber : ℕ → Bool) (allow : Allow) :
    List (Op × Bool) → Numbering → Option (List Op × Numbering)
  | [], t => some ([], t)
  | (op, start) :: rest, t => do
    let (op, t) ← (if start then t.startBlock else t).visit isNumber allow op
    let (ops, t) ← visitAll isNumber allow rest t
    return (op :: ops, t)

def start (nRegs : ℕ) : Numbering :=
  resetClasses (nRegs + 1)
    ⟨[], 1, fun _ => none, fun _ => none, List.replicate (nRegs + 1) false, ⟨0, 0⟩⟩

end Numbering

variable {V : Type*}

/-- The instructions as they are rewritten. None when an index is out of range. -/
def redundancyEliminate (isNumber : V → Bool) (code : List Op) (nRegs : ℕ) (consts : List V)
    (allow : Allow) : Option (List Op × RedundancyStats) :=
  (Numbering.visitAll (fun k => consts[k]?.any isNumber) allow (code.zip (blockStarts code))
    (.start nRegs)).map fun (ops, t) => (ops, t.stats)

/-! ### The machine -/

/-- The values of the machine. Arithmetic and comparison are functions of the operands. -/
structure Values (V : Type*) where
  bool : Bool → V
  null : V
  undefined : V
  binary : BinOp → V → V → V
  toBool : V → Bool

inductive Effect (V : Type*) where
  | fall (regs : UInt16 → V)
  | jump (target : UInt16)
  | returned (v : V)

/-- What an instruction writes, and where. None for a constant that does not exist, and for an
instruction that writes nothing or is not of the subset. -/
def Op.writes (M : Values V) (consts : List V) (regs : UInt16 → V) : Op → Option (UInt16 × V)
  | .loadConst dst k => consts[k.toNat]?.map fun v => (dst, v)
  | .loadTrue dst => some (dst, M.bool true)
  | .loadFalse dst => some (dst, M.bool false)
  | .loadNull dst => some (dst, M.null)
  | .loadUndef dst => some (dst, M.undefined)
  | .move dst src => some (dst, regs src)
  | op => op.binary.map fun (b, dst, lhs, rhs) => (dst, M.binary b (regs lhs) (regs rhs))

def Op.effect (M : Values V) (consts : List V) (regs : UInt16 → V) : Op → Option (Effect V)
  | .jmp target => some (.jump target)
  | .jmpIfFalse cond target => some (if M.toBool (regs cond) then .fall regs else .jump target)
  | .jmpIfTrue cond target => some (if M.toBool (regs cond) then .jump target else .fall regs)
  | .ret src => some (.returned (regs src))
  | op => (op.writes M consts regs).map fun (dst, v) => .fall (Function.update regs dst v)

/-- The registers and the next instruction, or the value that is returned. -/
def Effect.next (s : (UInt16 → V) × ℕ) : Effect V → ((UInt16 → V) × ℕ) ⊕ V
  | .fall regs => .inl (regs, s.2 + 1)
  | .jump target => .inl (s.1, target.toNat)
  | .returned v => .inr v

def stepCode (M : Values V) (consts : List V) (code : List Op) (s : (UInt16 → V) × ℕ) :
    Option (((UInt16 → V) × ℕ) ⊕ V) :=
  code[s.2]?.bind fun op => (op.effect M consts s.1).map (·.next s)

end Conclave.Js
