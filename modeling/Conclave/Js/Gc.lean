import Conclave.Lib.Run
import Conclave.Lib.Tricolour

/-! The mark-and-sweep heap. A handle is a slot index and a generation; a slot that is
freed counts its generation up and goes on the free list. Indices and generations are
`u32`. A panic gives `none`, and so does a worklist that outruns the fuel. -/

namespace Conclave.Js.Gc

open Conclave.Lib

/-- The colours of the `mark` field: unmarked, in the worklist, live. -/
inductive Mark where
  | white
  | grey
  | black
  deriving DecidableEq, Repr

structure Slot (T : Type) where
  payload : Option T
  outgoing : List ℕ
  mark : Mark
  generation : ℕ
  deriving DecidableEq, Repr

structure Handle where
  slot : ℕ
  generation : ℕ
  deriving DecidableEq, Repr

/-- The end of the free list that `pop` takes from is the head of `freeList`. -/
structure Heap (T : Type) where
  slots : List (Slot T)
  freeList : List ℕ
  liveCount : ℕ
  deriving DecidableEq, Repr

/-- The callback of `collect`: it computes the edges of an object, or does nothing, which
is meant for edges that `set_outgoing` has given. -/
inductive Trace (T : Type) where
  | recompute (edges : T → List ℕ)
  | noop

/-- What the callback returns. -/
def Trace.run {T : Type} : Trace T → T → List ℕ
  | recompute edges, p => edges p
  | noop, _ => []

namespace Heap

variable {T : Type}

def new : Heap T := ⟨[], [], 0⟩

def alloc (s : Heap T) (payload : T) : Option (Handle × Heap T) :=
  match s.freeList with
  | idx :: freeList =>
    match s.slots[idx]? with
    | some slot =>
      some (⟨idx, slot.generation⟩,
        ⟨s.slots.set idx ⟨some payload, [], .white, slot.generation⟩, freeList, s.liveCount + 1⟩)
    | none => none
  | [] =>
    some (⟨s.slots.length % 2 ^ 32, 0⟩,
      ⟨s.slots ++ [⟨some payload, [], .white, 0⟩], [], s.liveCount + 1⟩)

def get (s : Heap T) (h : Handle) : Option T :=
  match s.slots[h.slot]? with
  | some slot => if slot.generation ≠ h.generation then none else slot.payload
  | none => none

/-- A write through `get_mut`. -/
def modify (s : Heap T) (h : Handle) (f : T → T) : Heap T :=
  match s.slots[h.slot]? with
  | some slot =>
    if slot.generation ≠ h.generation then s
    else { s with slots := s.slots.set h.slot { slot with payload := slot.payload.map f } }
  | none => s

def setOutgoing (s : Heap T) (h : Handle) (edges : List ℕ) : Heap T :=
  match s.slots[h.slot]? with
  | some slot =>
    if slot.generation = h.generation then
      { s with slots := s.slots.set h.slot { slot with outgoing := edges } }
    else s
  | none => s

/-- The roots that are valid and not seen yet turn grey. -/
def greyRoots : List Handle → List (Slot T) → List ℕ → List ℕ → List (Slot T) × List ℕ
  | [], slots, work, _ => (slots, work)
  | r :: roots, slots, work, seen =>
    match slots[r.slot]? with
    | some s =>
      if s.generation = r.generation ∧ s.payload.isSome ∧ r.slot ∉ seen then
        greyRoots roots (slots.set r.slot { s with mark := .grey }) (r.slot :: work)
          (r.slot :: seen)
      else greyRoots roots slots work seen
    | none => greyRoots roots slots work seen

/-- The white objects among the edges turn grey. -/
def greyChildren : List ℕ → List (Slot T) → List ℕ → List (Slot T) × List ℕ
  | [], slots, work => (slots, work)
  | o :: outgoing, slots, work =>
    match slots[o]? with
    | some child =>
      if child.payload.isSome ∧ child.mark = .white then
        greyChildren outgoing (slots.set o { child with mark := .grey }) (o :: work)
      else greyChildren outgoing slots work
    | none => greyChildren outgoing slots work

def drain (trace : T → List ℕ) : ℕ → List (Slot T) → List ℕ → Option (List (Slot T))
  | _, slots, [] => some slots
  | 0, _, _ :: _ => none
  | fuel + 1, slots, idx :: work =>
    match slots[idx]? with
    | none => none
    | some s =>
      if s.mark = .black then drain trace fuel slots work
      else
        match s.payload with
        | none => none
        | some p =>
          let (slots, work) := greyChildren (trace p)
            (slots.set idx { s with mark := .black, outgoing := trace p }) work
          drain trace fuel slots work

def freed (s : Slot T) : Slot T := ⟨none, [], s.mark, (s.generation + 1) % 2 ^ 32⟩

/-- The sweep from slot `i` on, with the free list so far, and how many it reclaimed. -/
def sweep : ℕ → List (Slot T) → List ℕ → List (Slot T) × List ℕ × ℕ
  | _, [], free => ([], free, 0)
  | i, s :: slots, free =>
    if s.payload.isSome ∧ s.mark = .white then
      let (slots, free, reclaimed) := sweep (i + 1) slots (i % 2 ^ 32 :: free)
      (freed s :: slots, free, reclaimed + 1)
    else
      let (slots, free, reclaimed) := sweep (i + 1) slots free
      (s :: slots, free, reclaimed)

def collect (s : Heap T) (roots : List Handle) (trace : T → List ℕ) : Option (ℕ × Heap T) :=
  let slots := s.slots.map fun s => { s with mark := .white }
  let (slots, work) := greyRoots roots slots [] []
  match drain trace slots.length slots work with
  | none => none
  | some slots =>
    let (slots, freeList, reclaimed) := sweep 0 slots s.freeList
    if s.liveCount < reclaimed then none
    else some (reclaimed, ⟨slots, freeList, s.liveCount - reclaimed⟩)

end Heap

inductive Act (T : Type) where
  | alloc (payload : T)
  | modify (h : Handle) (f : T → T)
  | setOutgoing (h : Handle) (edges : List ℕ)
  | collect (roots : List Handle) (trace : Trace T)

def step {T : Type} (s : Heap T) : Act T → Option (Heap T)
  | .alloc payload => (s.alloc payload).map Prod.snd
  | .modify h f => some (s.modify h f)
  | .setOutgoing h edges => some (s.setOutgoing h edges)
  | .collect roots trace => (s.collect roots trace.run).map Prod.snd

end Conclave.Js.Gc
