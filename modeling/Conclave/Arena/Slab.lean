import Conclave.Lib.FreeList

/-! The generational slab. A handle is a slot index and a generation; a slot that is
freed keeps the generation its next occupant will get, and the free slots are linked
through it. A slot whose generations are used up is retired. -/

namespace Conclave.Arena

/-- A `u32` index and a nonzero `u32` generation. -/
@[ext]
structure Handle where
  index : ℕ
  generation : ℕ
  deriving DecidableEq, Repr

inductive Slot (T : Type) where
  | occupied (generation : ℕ) (value : T)
  | vacant (generation : ℕ) (nextFree : Option ℕ)
  deriving DecidableEq, Repr

namespace Slot

variable {T : Type}

def generation : Slot T → ℕ
  | occupied g _ => g
  | vacant g _ => g

def isOccupied : Slot T → Bool
  | occupied .. => true
  | vacant .. => false

end Slot

structure Slab (T : Type) where
  slots : List (Slot T)
  freeHead : Option ℕ
  len : ℕ

/-- The panics of `insert`: the arm marked unreachable, a free list that leaves the
slots, and the 2^32 slots that an index can name. -/
inductive Panic where
  | unreachable
  | outOfRange
  | exceeded
  deriving DecidableEq, Repr

namespace Slab

variable {T : Type}

def new : Slab T := ⟨[], none, 0⟩

def insert (s : Slab T) (value : T) : Except Panic (Handle × Slab T) :=
  match s.freeHead with
  | some index =>
    match s.slots[index]? with
    | some (.vacant generation nextFree) =>
      .ok (⟨index, generation⟩,
        ⟨s.slots.set index (.occupied generation value), nextFree, s.len + 1⟩)
    | some (.occupied ..) => .error .unreachable
    | none => .error .outOfRange
  | none =>
    if s.slots.length < 2 ^ 32 then
      .ok (⟨s.slots.length, 1⟩, ⟨s.slots ++ [.occupied 1 value], none, s.len + 1⟩)
    else .error .exceeded

def get (s : Slab T) (h : Handle) : Option T :=
  match s.slots[h.index]? with
  | some (.occupied generation value) => if generation = h.generation then some value else none
  | _ => none

def contains (s : Slab T) (h : Handle) : Bool := (s.get h).isSome

/-- A write through `get_mut`. -/
def modify (s : Slab T) (h : Handle) (f : T → T) : Slab T :=
  match s.slots[h.index]? with
  | some (.occupied generation value) =>
    if generation = h.generation then
      { s with slots := s.slots.set h.index (.occupied generation (f value)) }
    else s
  | _ => s

/-- A write to every value of `values_mut`. -/
def modifyAll (s : Slab T) (f : T → T) : Slab T :=
  { s with
    slots := s.slots.map fun
      | .occupied generation value => .occupied generation (f value)
      | vacant => vacant }

/-- The slot a removal leaves, and whether it goes on the free list. -/
def vacated (s : Slab T) (generation : ℕ) : Slot T × Bool :=
  if generation + 1 < 2 ^ 32 then (.vacant (generation + 1) s.freeHead, true)
  else (.vacant generation none, false)

def remove (s : Slab T) (h : Handle) : Option T × Slab T :=
  match s.slots[h.index]? with
  | some (.occupied generation value) =>
    if generation = h.generation then
      let (slot, reusable) := s.vacated generation
      (some value, ⟨s.slots.set h.index slot,
        if reusable then some h.index else s.freeHead, s.len - 1⟩)
    else (none, s)
  | _ => (none, s)

/-- The handle and value of an occupied slot. -/
def entryAt : Slot T × ℕ → Option (Handle × T)
  | (.occupied generation value, i) => some (⟨i, generation⟩, value)
  | (.vacant .., _) => none

/-- Live handles and values in slot order. -/
def iter (s : Slab T) : List (Handle × T) := s.slots.zipIdx.filterMap entryAt

end Slab

end Conclave.Arena
