import Conclave.Js.Shapes

/-! The insertion-ordered map behind JavaScript objects, for string keys. A map is
stored as a shape with flat slots or as a dictionary; a shaped map falls back to a
dictionary, for good, on the first thing the flat layout cannot represent. The
shape table and the version counter are shared by all maps. -/

namespace Conclave.Js

open Lib

/-! ### Keys -/

def PROTO_KEY : String := "\u0001__proto__"

/-- `str::parse::<u32>`: an optional plus sign and decimal digits. -/
def parseU32 (k : String) : Option ℕ :=
  let digits := match k.toList with
    | '+' :: cs => cs
    | cs => cs
  if digits.isEmpty ∨ ¬ digits.all Char.isDigit then none
  else
    let n := digits.foldl (fun n c => 10 * n + (c.toNat - '0'.toNat)) 0
    if n < 2 ^ 32 then some n else none

def isArrayIndexKeyStr (k : String) : Bool :=
  if k.isEmpty ∨ (1 < k.utf8ByteSize ∧ k.toList.head? = some '0') then false
  else
    match parseU32 k with
    | some n => n ≠ 2 ^ 32 - 1
    | none => false

def isEngineSentinelKeyStr (k : String) : Bool :=
  k ∈ ["_isMap", "_isSet", "_isProxy", "_isPromise", "_isRegExp", "_isError", "_isGenerator",
    "_isAsyncIterator", "_isDate", "_isArrayBuffer", "_isDataView", "_isWasmGlobal",
    "_isWasmInstance", "_isWasmMemory", "_isWasmModule", "_isWasmTable", "_typedarray", "_entries",
    "__entries", "_items", "_target", "_handler", "_construct", "_errorClasses"]

/-- The keys that never enter a shape. -/
def stringKeyForcesDeopt (k : String) : Bool :=
  if isArrayIndexKeyStr k then true
  else if k.toList.head? = some '\u0001' then k ≠ PROTO_KEY
  else isEngineSentinelKeyStr k || k = "_bytes"

def SHAPED_SLOT_CAP : ℕ := 128

/-! ### The map -/

/-- The process-global state: the shape table and the source of structure versions.
The source is a `u64`, kept here without the wrap. -/
structure Globals where
  table : ShapeTable
  nextStructVer : ℕ

def Globals.init : Globals := ⟨.new, 1⟩

/-- `fetch_add` on a `u64`, which wraps. -/
def freshStructVer (g : Globals) : ℕ × Globals :=
  (g.nextStructVer % 2 ^ 64, { g with nextStructVer := g.nextStructVer + 1 })

inductive Store (V : Type) where
  | shaped (shape : ℕ) (slots : List V)
  | dict (entries : List (String × V)) (index : Index String)

/-- The lazily computed shape, the version it was computed at, and the inline header. -/
structure ShapeCache where
  ver : ℕ
  shape : ℕ
  header : ℕ
  deriving DecidableEq, Repr

/-- The header of a map that never was shaped. -/
def BORN_DICT_SHAPE : ℕ := 2 ^ 32 - 2

def ShapeCache.empty : ShapeCache := ⟨0, 0, BORN_DICT_SHAPE⟩

def ShapeCache.deopted (c : ShapeCache) : Bool := c.header = DICT_SHAPE

structure OrderedMap (V : Type) where
  store : Store V
  structVer : ℕ
  shapeCache : ShapeCache

namespace OrderedMap

variable {V : Type}

/-- `Default::default`: a dictionary. -/
def default (g : Globals) : OrderedMap V × Globals :=
  (⟨.dict [] Index.empty, (freshStructVer g).1, ShapeCache.empty⟩, (freshStructVer g).2)

/-- `new`, by the process-global flag. -/
def new (shapedObjEnabled : Bool) (g : Globals) : OrderedMap V × Globals :=
  if shapedObjEnabled then
    (⟨.shaped g.table.emptyId [], (freshStructVer g).1, ⟨0, 0, g.table.emptyId⟩⟩,
      (freshStructVer g).2)
  else default g

/-- `Some` of the stored shape, of `DICT_SHAPE` after a deopt; `None` for a map that
never was shaped. -/
def storedShapeId (m : OrderedMap V) : Option ℕ :=
  match m.store with
  | .shaped shape _ => some shape
  | .dict .. => if m.shapeCache.deopted then some DICT_SHAPE else none

def cachedShape (m : OrderedMap V) : ℕ × ℕ := (m.shapeCache.ver, m.shapeCache.shape)

def setCachedShape (m : OrderedMap V) (ver shape : ℕ) : OrderedMap V :=
  { m with shapeCache := ⟨ver, shape, m.shapeCache.header⟩ }

def resetShapeCache (m : OrderedMap V) : OrderedMap V :=
  { m with shapeCache := ⟨0, 0, m.shapeCache.header⟩ }

def markDeopted (m : OrderedMap V) : OrderedMap V := { m with shapeCache := ⟨0, 0, DICT_SHAPE⟩ }

def mirrorShapeHeader (m : OrderedMap V) : OrderedMap V :=
  match m.store with
  | .shaped shape _ => { m with shapeCache := { m.shapeCache with header := shape } }
  | .dict .. => m

def shapeHeader (m : OrderedMap V) : ℕ := m.shapeCache.header

def bumpStructVer (m : OrderedMap V) (g : Globals) : OrderedMap V × Globals :=
  ({ m with structVer := (freshStructVer g).1 }, (freshStructVer g).2)

/-! ### Reads -/

def slotOf (m : OrderedMap V) (g : Globals) (k : String) : Option ℕ :=
  match m.store with
  | .dict _ index => index k
  | .shaped shape _ => (g.table.shape shape).lookup k

def valueAtSlot (m : OrderedMap V) (slot : ℕ) : Option V :=
  match m.store with
  | .dict entries _ => entries[slot]?.map Prod.snd
  | .shaped _ slots => slots[slot]?

def get (m : OrderedMap V) (g : Globals) (k : String) : Option V :=
  match m.store with
  | .dict entries index => (index k).bind fun i => entries[i]?.map Prod.snd
  | .shaped shape slots => ((g.table.shape shape).lookup k).bind fun i => slots[i]?

def containsKey (m : OrderedMap V) (g : Globals) (k : String) : Bool :=
  match m.store with
  | .dict _ index => (index k).isSome
  | .shaped shape _ => ((g.table.shape shape).lookup k).isSome

def len (m : OrderedMap V) : ℕ :=
  match m.store with
  | .dict entries _ => entries.length
  | .shaped _ slots => slots.length

def keys (m : OrderedMap V) (g : Globals) : List String :=
  match m.store with
  | .dict entries _ => entries.map Prod.fst
  | .shaped shape _ => (g.table.shape shape).properties

def values (m : OrderedMap V) : List V :=
  match m.store with
  | .dict entries _ => entries.map Prod.snd
  | .shaped _ slots => slots

/-- Borrowed iteration: for a shaped map the slots, each with the key at its position.
There is a key for every slot of a map that is laid out well. -/
def iter (m : OrderedMap V) (g : Globals) : List (String × V) :=
  match m.store with
  | .dict entries _ => entries
  | .shaped shape slots => (g.table.shape shape).properties.zip slots

/-! ### Writes -/

def setAtSlot (m : OrderedMap V) (slot : ℕ) (v : V) : OrderedMap V :=
  match m.store with
  | .dict entries index => { m with store := .dict (entries.modify slot fun e => (e.1, v)) index }
  | .shaped shape slots => { m with store := .shaped shape (slots.set slot v) }

/-- `get_mut`: the value found, and the map after the caller changed it by `u`. -/
def getMut (m : OrderedMap V) (g : Globals) (k : String) (u : V → V) :
    Option V × OrderedMap V :=
  match m.store with
  | .dict entries index =>
    match index k with
    | none => (none, m)
    | some i => (entries[i]?.map Prod.snd,
        { m with store := .dict (entries.modify i fun e => (e.1, u e.2)) index })
  | .shaped shape slots =>
    match (g.table.shape shape).lookup k with
    | none => (none, m)
    | some i => (slots[i]?, { m with store := .shaped shape (slots.modify i u) })

/-- Rematerialize a shaped store as a dictionary. -/
def deoptToDict (m : OrderedMap V) (g : Globals) : OrderedMap V × Globals :=
  match m.store with
  | .dict .. => (m, g)
  | .shaped shape slots =>
    let entries := (g.table.shape shape).properties.zip slots
    let index := Index.empty.number 0 (entries.map Prod.fst)
    let (m, g) := { m with store := .dict entries index }.bumpStructVer g
    (m.markDeopted, g)

inductive ShapedSlot where
  | slot (i : ℕ)
  | deopted

/-- The slot of a key on a shaped store: found, or added to the shape with the value
left to push; or the store was deopted. -/
def shapedInternSlot (m : OrderedMap V) (g : Globals) (k : String) :
    ShapedSlot × OrderedMap V × Globals :=
  if stringKeyForcesDeopt k then (.deopted, m.deoptToDict g)
  else
    match m.store with
    | .dict .. => (.deopted, m, g)
    | .shaped shape slots =>
      match (g.table.shape shape).lookup k with
      | some i => (.slot i, m, g)
      | none =>
        if slots.length + 1 > SHAPED_SLOT_CAP then (.deopted, m.deoptToDict g)
        else
          let (newShape, table) := g.table.addProperty shape k
          (.slot slots.length,
            { m with store := .shaped newShape slots }.mirrorShapeHeader, { g with table := table })

def dictInsert (m : OrderedMap V) (g : Globals) (k : String) (v : V) :
    Option V × OrderedMap V × Globals :=
  match m.store with
  | .shaped .. => (none, m, g)
  | .dict entries index =>
    match index k with
    | some i => (entries[i]?.map Prod.snd,
        { m with store := .dict (entries.modify i fun e => (e.1, v)) index }, g)
    | none =>
      let index := index.insert k entries.length
      (none, { m with store := .dict (entries ++ [(k, v)]) index }.bumpStructVer g)

def insert (m : OrderedMap V) (g : Globals) (k : String) (v : V) :
    Option V × OrderedMap V × Globals :=
  match m.store with
  | .dict .. => m.dictInsert g k v
  | .shaped .. =>
    match m.shapedInternSlot g k with
    | (.deopted, m, g) => m.dictInsert g k v
    | (.slot i, m, g) =>
      match m.store with
      | .dict .. => (none, m, g)
      | .shaped shape slots =>
        if i < slots.length then
          (slots[i]?, { m with store := .shaped shape (slots.set i v) }, g)
        else (none, { m with store := .shaped shape (slots ++ [v]) }.bumpStructVer g)

/-- The dictionary half of `get_or_insert_with`: the value found or put there. -/
def dictGetOrInsertWith (m : OrderedMap V) (g : Globals) (k : String) (f : Unit → V) (u : V → V) :
    Option V × OrderedMap V × Globals :=
  match m.store with
  | .shaped .. => (none, m, g)
  | .dict entries index =>
    match index k with
    | some i => (entries[i]?.map Prod.snd,
        { m with store := .dict (entries.modify i fun e => (e.1, u e.2)) index }, g)
    | none =>
      let index := index.insert k entries.length
      (some (f ()), { m with store := .dict (entries ++ [(k, u (f ()))]) index }.bumpStructVer g)

/-- `get_or_insert_with`: the value behind the returned reference, and the map after
the caller changed it by `u`. -/
def getOrInsertWith (m : OrderedMap V) (g : Globals) (k : String) (f : Unit → V) (u : V → V) :
    Option V × OrderedMap V × Globals :=
  match m.store with
  | .dict .. => m.dictGetOrInsertWith g k f u
  | .shaped .. =>
    match m.shapedInternSlot g k with
    | (.deopted, m, g) => m.dictGetOrInsertWith g k f u
    | (.slot i, m, g) =>
      match m.store with
      | .dict .. => (none, m, g)
      | .shaped shape slots =>
        if i = slots.length then
          (some (f ()),
            { m with store := .shaped shape (slots ++ [u (f ())]) }.bumpStructVer g)
        else (slots[i]?, { m with store := .shaped shape (slots.modify i u) }, g)

def clear (m : OrderedMap V) (g : Globals) : OrderedMap V × Globals :=
  let m := match m.store with
    | .dict .. => { m with store := .dict [] Index.empty }
    | .shaped .. => { m with store := .dict [] Index.empty }.markDeopted
  let (m, g) := m.bumpStructVer g
  (m.resetShapeCache, g)

def dictRemove (m : OrderedMap V) (g : Globals) (k : String) : Option V × OrderedMap V × Globals :=
  match m.store with
  | .shaped .. => (none, m, g)
  | .dict entries index =>
    match index k with
    | none => (none, m, g)
    | some i =>
      let index := (index.erase k).mapValues fun j => if i < j then j - 1 else j
      let (m, g) := { m with store := .dict (entries.eraseIdx i) index }.bumpStructVer g
      (entries[i]?.map Prod.snd, m.resetShapeCache, g)

def remove (m : OrderedMap V) (g : Globals) (k : String) : Option V × OrderedMap V × Globals :=
  match m.store with
  | .dict .. => m.dictRemove g k
  | .shaped shape _ =>
    match (g.table.shape shape).lookup k with
    | none => (none, m, g)
    | some _ =>
      let (m, g) := m.deoptToDict g
      m.dictRemove g k

/-- `drain`: all entries, and the empty map. -/
def drain (m : OrderedMap V) (g : Globals) : List (String × V) × OrderedMap V × Globals :=
  let (m, g) := m.deoptToDict g
  let (m, g) := m.bumpStructVer g
  let m := m.resetShapeCache
  match m.store with
  | .dict entries _ => (entries, { m with store := .dict [] Index.empty }, g)
  | .shaped .. => ([], m, g)

/-- The closure of `retain`, which may remember the entries it was shown. -/
abbrev Keep (V : Type) := List (String × V) → String → V → Bool × V

def retainLoop (f : Keep V) : List (String × V) → List (String × V) → List (String × V)
  | _, [] => []
  | seen, (k, v) :: es =>
    let (keep, v') := f seen k v
    if keep then (k, v') :: retainLoop f (seen ++ [(k, v)]) es
    else retainLoop f (seen ++ [(k, v)]) es

def retain (m : OrderedMap V) (g : Globals) (f : Keep V) : OrderedMap V × Globals :=
  let (m, g) := m.deoptToDict g
  let m := match m.store with
    | .dict entries _ =>
      let kept := retainLoop f [] entries
      let index := Index.empty.number 0 (kept.map Prod.fst)
      { m with store := .dict kept index }
    | .shaped .. => m
  let (m, g) := m.bumpStructVer g
  (m.resetShapeCache, g)

def extend : List (String × V) → OrderedMap V → Globals → OrderedMap V × Globals
  | [], m, g => (m, g)
  | (k, v) :: es, m, g => extend es (m.insert g k v).2.1 (m.insert g k v).2.2

/-- Owned iteration, which consumes the map. -/
def intoIter (m : OrderedMap V) (g : Globals) : List (String × V) × Globals :=
  let (m, g) := m.deoptToDict g
  match m.store with
  | .dict entries _ => (entries, g)
  | .shaped .. => ([], g)

/-- The shape the inline caches key on: stored, or interned from the keys and cached
for the structure version. -/
def objectShapeId (m : OrderedMap V) (g : Globals) : ℕ × OrderedMap V × Globals :=
  match m.storedShapeId with
  | some stored => (stored, m, g)
  | none =>
    if m.cachedShape.1 = m.structVer then (m.cachedShape.2, m, g)
    else
      let (id, table) := g.table.addProperties g.table.emptyId (m.keys g)
      (id, m.setCachedShape m.structVer id, { g with table := table })

end OrderedMap

end Conclave.Js
