import Conclave.Arena.Slab
import Conclave.Lib.Forest
import Conclave.Lib.Text

/-! The DOM tree in its arena: records linked by handles, the index of ids, the dirty bits
of the render stages, and the queues of the mutation observers. An operation answers or
fails; it does neither when it panics or its loop does not end. -/

namespace Conclave.Dom

open Lib Arena

abbrev NodeId := Handle

inductive NodeKind where
  | document
  | documentType (name publicId systemId : Text)
  | documentFragment
  | element (tag : Text) (ns : Option Text)
  | text (data : Text)
  | comment (data : Text)
  | processingInstruction (target data : Text)
  | cdataSection (data : Text)
  deriving DecidableEq, Repr

def NodeKind.isElement : NodeKind → Bool
  | element .. => true
  | _ => false

def eqIgnoreAsciiCase (a b : Text) : Bool :=
  Text.toAsciiLowercase a == Text.toAsciiLowercase b

abbrev AttrMap := List (Text × Text)

namespace AttrMap

def get (m : AttrMap) (name : Text) : Option Text :=
  (m.find? fun kv => eqIgnoreAsciiCase kv.1 name).map Prod.snd

/-- The value goes to the first name alike, or else to the end. -/
def set (name value : Text) : AttrMap → Option Text × AttrMap
  | [] => (none, [(name, value)])
  | (k, v) :: rest =>
    if eqIgnoreAsciiCase k name then (some v, (k, value) :: rest)
    else ((set name value rest).1, (k, v) :: (set name value rest).2)

def remove (name : Text) : AttrMap → Option Text × AttrMap
  | [] => (none, [])
  | (k, v) :: rest =>
    if eqIgnoreAsciiCase k name then (some v, rest)
    else ((remove name rest).1, (k, v) :: (remove name rest).2)

end AttrMap

/-! ### Dirty bits -/

/-- A byte with a bit for the node and one for what is under it, for each stage. -/
abbrev StageMask := BitVec 8

namespace StageMask

def needsStyle : StageMask := 1#8 <<< 0
def needsLayout : StageMask := 1#8 <<< 1
def needsPaint : StageMask := 1#8 <<< 2
def childNeedsStyle : StageMask := 1#8 <<< 3
def childNeedsLayout : StageMask := 1#8 <<< 4
def childNeedsPaint : StageMask := 1#8 <<< 5

def selfAny : StageMask := needsStyle ||| needsLayout ||| needsPaint
def childAny : StageMask := childNeedsStyle ||| childNeedsLayout ||| childNeedsPaint

def isSet (m bit : StageMask) : Bool := m &&& bit != 0

def insert (m bit : StageMask) : StageMask := m ||| bit

def remove (m bit : StageMask) : StageMask := m &&& ~~~bit

end StageMask

inductive Stage where
  | style
  | layout
  | paint
  deriving DecidableEq, Repr

namespace Stage

def selfBit : Stage → StageMask
  | style => .needsStyle
  | layout => .needsLayout
  | paint => .needsPaint

/-- `child_bit_for`, which panics on a byte that is not a stage's own bit. -/
def childBit : Stage → StageMask
  | style => .childNeedsStyle
  | layout => .childNeedsLayout
  | paint => .childNeedsPaint

end Stage

/-! ### Observers -/

inductive MutationType where
  | attributes (name : Text) (ns oldValue newValue : Option Text)
  | characterData (oldValue newValue : Text)
  | childList (added removed : List NodeId) (previousSibling nextSibling : Option NodeId)
  deriving DecidableEq, Repr

structure MutationRecord where
  target : NodeId
  kind : MutationType
  deriving DecidableEq, Repr

structure ObserverInit where
  childList : Bool
  attributes : Bool
  characterData : Bool
  subtree : Bool
  attributeOldValue : Bool
  characterDataOldValue : Bool
  attributeFilter : Option (List Text)
  deriving DecidableEq, Repr

structure Registration where
  root : NodeId
  init : ObserverInit
  deriving DecidableEq, Repr

structure MutationObserver where
  registrations : List Registration
  pending : List MutationRecord
  deriving DecidableEq, Repr

namespace MutationObserver

/-- Observing a node again replaces its options. -/
def observeWith (o : MutationObserver) (root : NodeId) (init : ObserverInit) :
    MutationObserver :=
  { o with registrations := (o.registrations.filter fun r => r.root ≠ root) ++ [⟨root, init⟩] }

def roots (o : MutationObserver) : List NodeId := o.registrations.map Registration.root

/-- The record as the registration for `root` wants it, if it does. -/
def recordFor (o : MutationObserver) (root : NodeId) (distance : ℕ) (rec : MutationRecord) :
    Option MutationRecord :=
  match o.registrations.find? fun r => r.root = root with
  | none => none
  | some ⟨_, init⟩ =>
    if 0 < distance ∧ init.subtree = false then none
    else match rec.kind with
      | .attributes name ns oldValue newValue =>
        if init.attributes = false then none
        else if init.attributeFilter.any
            (fun filter => !filter.any fun f => eqIgnoreAsciiCase f name) then none
        else some ⟨rec.target, .attributes name ns
          (if init.attributeOldValue then oldValue else none) newValue⟩
      | .characterData oldValue newValue =>
        if init.characterData = false then none
        else some ⟨rec.target, .characterData
          (if init.characterDataOldValue then oldValue else []) newValue⟩
      | .childList .. => if init.childList = false then none else some rec

def enqueue (o : MutationObserver) (rec : MutationRecord) : MutationObserver :=
  { o with pending := o.pending ++ [rec] }

/-- What one observer gets of a record: the closest of the nodes on the way up from the
target that it has a registration for which admits the record. -/
def chosen (o : MutationObserver) (chain : List NodeId) (rec : MutationRecord) :
    Option MutationRecord :=
  chain.zipIdx.findSome? fun (node, d) =>
    if node ∈ o.roots then o.recordFor node d rec else none

end MutationObserver

/-! ### The document -/

structure NodeRecord where
  kind : NodeKind
  attrs : AttrMap
  parent : Option NodeId
  children : List NodeId
  elementIdCache : Option Text
  stage : StageMask
  deriving DecidableEq, Repr

structure Document where
  slab : Slab NodeRecord
  root : Option NodeId
  idIndex : Text → Option NodeId
  observers : List MutationObserver

inductive DomError where
  | notFound
  | hierarchyRequest
  | stale
  | invalidArgument (message : String)
  deriving DecidableEq, Repr

/-- Why an operation does not come back. -/
inductive Fault where
  | arena (p : Panic)
  | indexOutOfBounds
  | endless
  deriving DecidableEq, Repr

namespace Document

/-! The parameter of `rec_mut` and of the walks up, which meet each slot at most once. -/

def record (d : Document) (id : NodeId) : Option NodeRecord := d.slab.get id

def modify (d : Document) (id : NodeId) (f : NodeRecord → NodeRecord) : Document :=
  { d with slab := d.slab.modify id f }

def slots (d : Document) : ℕ := d.slab.slots.length

def alloc (d : Document) (kind : NodeKind) : Except Fault (NodeId × Document) :=
  match d.slab.insert ⟨kind, [], none, [], none, .selfAny ||| .childAny⟩ with
  | .ok (id, slab) => .ok (id, { d with slab := slab })
  | .error p => .error (.arena p)

def parent (d : Document) (id : NodeId) : Option NodeId := (d.record id).bind NodeRecord.parent

def children (d : Document) (id : NodeId) : List NodeId :=
  (d.record id).elim [] NodeRecord.children

def createElement (d : Document) (tag : Text) : Except Fault (NodeId × Document) :=
  d.alloc (.element tag none)

def createElementNs (d : Document) (ns tag : Text) : Except Fault (NodeId × Document) :=
  d.alloc (.element tag (some ns))

def createTextNode (d : Document) (data : Text) : Except Fault (NodeId × Document) :=
  d.alloc (.text data)

def createComment (d : Document) (data : Text) : Except Fault (NodeId × Document) :=
  d.alloc (.comment data)

def createDocumentFragment (d : Document) : Except Fault (NodeId × Document) :=
  d.alloc .documentFragment

/-! Dirty bits. -/

/-- Set a bit on the way up, to the first node that has it. -/
def flagUp (bit : StageMask) : ℕ → Option NodeId → Document → Document
  | _, none, d => d
  | 0, some _, d => d
  | n + 1, some p, d =>
    match d.record p with
    | some r =>
      if r.stage.isSet bit then d
      else
        let d := d.modify p fun r => { r with stage := r.stage.insert bit }
        flagUp bit n (d.parent p) d
    | none => d

def mark (d : Document) (id : NodeId) (stage : Stage) : Document :=
  match d.record id with
  | none => d
  | some r =>
    if r.stage.isSet stage.selfBit then d
    else
      let d := d.modify id fun r => { r with stage := r.stage.insert stage.selfBit }
      flagUp stage.childBit d.slots (d.parent id) d

def clearStage (d : Document) (id : NodeId) (stage : Stage) : Document :=
  d.modify id fun r => { r with stage := r.stage.remove stage.selfBit }

def markAllStyleDirty (d : Document) : Document :=
  { d with
    slab := d.slab.modifyAll fun r =>
      { r with stage := (r.stage.insert .needsStyle).insert .childNeedsStyle } }

def clearAllStyleDirty (d : Document) : Document :=
  { d with
    slab := d.slab.modifyAll fun r =>
      { r with stage := (r.stage.remove .needsStyle).remove .childNeedsStyle } }

/-- The loop over a stack of nodes, the last one pushed first. -/
def flagDown : ℕ → List NodeId → Document → Except Fault Document
  | _, [], d => .ok d
  | 0, _ :: _, _ => .error .endless
  | n + 1, id :: stack, d =>
    match d.record id with
    | some r =>
      flagDown n (r.children.reverse ++ stack) (d.modify id fun r =>
        { r with stage := (r.stage.insert .needsStyle).insert .childNeedsStyle })
    | none => flagDown n stack d

def markStyleDirtySubtree (d : Document) (id : NodeId) : Except Fault Document :=
  (flagDown d.slots [id] d).map fun d => flagUp .childNeedsStyle d.slots (d.parent id) d

/-! Ids. -/

def maybeRegisterId (d : Document) (id : NodeId) : Document :=
  match (d.record id).bind fun r => r.attrs.get "id".toList with
  | some s =>
    let d := d.modify id fun r => { r with elementIdCache := some s }
    { d with idIndex := Function.update d.idIndex s (some id) }
  | none => d

/-- Take a key out of the index when it leads to the node. -/
def dropId (d : Document) (key : Text) (id : NodeId) : Document :=
  if d.idIndex key = some id then { d with idIndex := Function.update d.idIndex key none } else d

def unregisterId (d : Document) (id : NodeId) : Document :=
  let cache := (d.record id).bind NodeRecord.elementIdCache
  let d := d.modify id fun r => { r with elementIdCache := none }
  match cache with
  | some v => d.dropId v id
  | none => d

def getElementById (d : Document) (id : Text) : Option NodeId := d.idIndex id

/-! The tree. -/

/-- The walk up from the parent, which must not meet the child. -/
def climbPast (d : Document) (child : NodeId) :
    ℕ → Option NodeId → Except Fault (Except DomError Unit)
  | _, none => .ok (.ok ())
  | 0, some _ => .error .endless
  | n + 1, some p =>
    if p = child then .ok (.error .hierarchyRequest) else d.climbPast child n (d.parent p)

def validateInsert (d : Document) (parent child : NodeId) :
    Except Fault (Except DomError Unit) :=
  if parent = child then .ok (.error .hierarchyRequest)
  else d.climbPast child d.slots (d.parent parent)

def detach (d : Document) (id : NodeId) : Document :=
  match d.parent id with
  | none => d
  | some p =>
    let d := d.modify p fun r => { r with children := r.children.filter (· ≠ id) }
    let d := d.modify id fun r => { r with parent := none }
    d.unregisterId id

def emitMutation (d : Document) (rec : MutationRecord) : Except Fault Document :=
  match Links.climb d.parent d.slots (some rec.target) with
  | none => .error .endless
  | some chain =>
    .ok { d with
      observers := d.observers.map fun o => (o.chosen chain rec).elim o o.enqueue }

/-- What an operation answers, with the document after it. -/
abbrev Answer (α : Type) := Except DomError α × Document

/-- The children of a record that is there. -/
def withChildren (d : Document) (id : NodeId) (f : List NodeId → Except Fault (List NodeId)) :
    Except Fault (Answer Unit) :=
  match d.record id with
  | none => .ok (.error .stale, d)
  | some r => do
    let kids ← f r.children
    return (.ok (), d.modify id fun r => { r with children := kids })

def withParent (d : Document) (id : NodeId) (parent : Option NodeId) : Answer Unit :=
  match d.record id with
  | none => (.error .stale, d)
  | some _ => (.ok (), d.modify id fun r => { r with parent := parent })

/-- What follows an answer that is not an error. -/
def andThen {α β : Type} (a : Answer α) (f : Document → Except Fault (Answer β)) :
    Except Fault (Answer β) :=
  match a with
  | (.error e, d) => .ok (.error e, d)
  | (.ok _, d) => f d

def vecInsert (kids : List NodeId) (i : ℕ) (x : NodeId) : Except Fault (List NodeId) :=
  if i ≤ kids.length then .ok (kids.insertIdx i x) else .error .indexOutOfBounds

def vecRemove (kids : List NodeId) (i : ℕ) : Except Fault (List NodeId) :=
  if i < kids.length then .ok (kids.eraseIdx i) else .error .indexOutOfBounds

def vecSet (kids : List NodeId) (i : ℕ) (x : NodeId) : Except Fault (List NodeId) :=
  if i < kids.length then .ok (kids.set i x) else .error .indexOutOfBounds

/-- The child before a place. -/
def before (kids : List NodeId) (i : ℕ) : Option NodeId := if i = 0 then none else kids[i - 1]?

def appendChild (d : Document) (parent child : NodeId) : Except Fault (Answer NodeId) := do
  match ← d.validateInsert parent child with
  | .error e => return (.error e, d)
  | .ok () =>
    let d := d.detach child
    let prev := (d.children parent).getLast?
    andThen (← d.withChildren parent fun kids => .ok (kids ++ [child])) fun d =>
      andThen (d.withParent child (some parent)) fun d => do
        let d := d.maybeRegisterId child
        let d ← d.emitMutation ⟨parent, .childList [child] [] prev none⟩
        return (.ok child, d)

def insertBefore (d : Document) (parent newNode : NodeId) (refNode : Option NodeId) :
    Except Fault (Answer NodeId) := do
  match ← d.validateInsert parent newNode with
  | .error e => return (.error e, d)
  | .ok () =>
    match refNode with
    | none => d.appendChild parent newNode
    | some r =>
      match (d.children parent).idxOf? r with
      | none => return (.error .notFound, d)
      | some refIdx =>
        let d := d.detach newNode
        let prev := before (d.children parent) refIdx
        andThen (← d.withChildren parent fun kids => vecInsert kids refIdx newNode) fun d =>
          andThen (d.withParent newNode (some parent)) fun d => do
            let d := d.maybeRegisterId newNode
            let d ← d.emitMutation ⟨parent, .childList [newNode] [] prev (some r)⟩
            return (.ok newNode, d)

def removeChild (d : Document) (parent child : NodeId) : Except Fault (Answer NodeId) := do
  let kids := d.children parent
  match kids.idxOf? child with
  | none => return (.error .notFound, d)
  | some idx =>
    let prev := before kids idx
    let next := kids[idx + 1]?
    andThen (← d.withChildren parent fun kids => vecRemove kids idx) fun d =>
      andThen (d.withParent child none) fun d => do
        let d := d.unregisterId child
        let d ← d.emitMutation ⟨parent, .childList [] [child] prev next⟩
        return (.ok child, d)

def replaceChild (d : Document) (parent newChild oldChild : NodeId) :
    Except Fault (Answer NodeId) := do
  let kids := d.children parent
  match kids.idxOf? oldChild with
  | none => return (.error .notFound, d)
  | some idx =>
    match ← d.validateInsert parent newChild with
    | .error e => return (.error e, d)
    | .ok () =>
      let d := (d.detach newChild).unregisterId oldChild
      let prev := before kids idx
      let next := kids[idx + 1]?
      andThen (← d.withChildren parent fun kids => vecSet kids idx newChild) fun d =>
        andThen (d.withParent newChild (some parent)) fun d =>
          andThen (d.withParent oldChild none) fun d => do
            let d := d.maybeRegisterId newChild
            let d ← d.emitMutation ⟨parent, .childList [newChild] [oldChild] prev next⟩
            return (.ok oldChild, d)

/-! Attributes and text. -/

def attrNamespace (name : Text) : Option Text :=
  let lower := Text.toAsciiLowercase name
  if lower = "xmlns".toList ∨ "xmlns:".toList <+: lower then
    some "http://www.w3.org/2000/xmlns/".toList
  else if "xml:".toList <+: lower then some "http://www.w3.org/XML/1998/namespace".toList
  else if "xlink:".toList <+: lower then some "http://www.w3.org/1999/xlink".toList
  else none

def setAttribute (d : Document) (id : NodeId) (name value : Text) : Except Fault Document :=
  let old := (d.record id).bind fun r => (r.attrs.set name value).1
  let d := d.modify id fun r => { r with attrs := (r.attrs.set name value).2 }
  let d := if eqIgnoreAsciiCase name "id".toList then
      let d := old.elim d fun prev => d.dropId prev id
      let d := { d with idIndex := Function.update d.idIndex value (some id) }
      d.modify id fun r => { r with elementIdCache := some value }
    else d
  d.emitMutation ⟨id, .attributes name (attrNamespace name) old (some value)⟩

def removeAttribute (d : Document) (id : NodeId) (name : Text) : Except Fault Document :=
  let old := (d.record id).bind fun r => (r.attrs.remove name).1
  let d := d.modify id fun r => { r with attrs := (r.attrs.remove name).2 }
  let d := if eqIgnoreAsciiCase name "id".toList then
      let d := old.elim d fun prev => d.dropId prev id
      d.modify id fun r => { r with elementIdCache := none }
    else d
  d.emitMutation ⟨id, .attributes name (attrNamespace name) old none⟩

/-- The data of the three kinds that have some, with a way to write it. -/
def NodeKind.characterData : NodeKind → Option (Text × (Text → NodeKind))
  | .text s => some (s, .text)
  | .comment s => some (s, .comment)
  | .cdataSection s => some (s, .cdataSection)
  | _ => none

def setTextData (d : Document) (id : NodeId) (data : Text) : Except Fault (Answer Text) :=
  match d.record id with
  | none => .ok (.error .stale, d)
  | some r =>
    match NodeKind.characterData r.kind with
    | none => .ok (.error (.invalidArgument "not a character-data node"), d)
    | some (old, write) => do
      let d := d.modify id fun r => { r with kind := write data }
      let d ← d.emitMutation ⟨id, .characterData old data⟩
      return (.ok old, d)

def setTextContent (d : Document) (id : NodeId) (text : Text) : Except Fault Document := do
  let d ← (d.children id).foldlM (fun d c => do return (← d.removeChild id c).2) d
  if text = [] then return d
  else
    let (tn, d) ← d.createTextNode text
    return (← d.appendChild id tn).2

/-- `Document::new`, with observers that are registered before anything else happens. -/
def new (observers : List MutationObserver) : Except Fault Document := do
  let (root, d) ← alloc ⟨.new, none, fun _ => none, observers⟩ .document
  return { d with root := some root }

end Document

/-! ### Operations -/

inductive Op where
  | createElement (tag : Text)
  | createElementNs (ns tag : Text)
  | createTextNode (data : Text)
  | createComment (data : Text)
  | createDocumentFragment
  | appendChild (parent child : NodeId)
  | insertBefore (parent newNode : NodeId) (refNode : Option NodeId)
  | removeChild (parent child : NodeId)
  | replaceChild (parent newChild oldChild : NodeId)
  | setTextContent (id : NodeId) (text : Text)
  | setTextData (id : NodeId) (data : Text)
  | setAttribute (id : NodeId) (name value : Text)
  | removeAttribute (id : NodeId) (name : Text)
  | mark (id : NodeId) (stage : Stage)
  | clearStage (id : NodeId) (stage : Stage)
  | markAllStyleDirty
  | clearAllStyleDirty
  | markStyleDirtySubtree (id : NodeId)
  deriving DecidableEq, Repr

namespace Op

/-- The nodes that an operation is called with. -/
def nodes : Op → List NodeId
  | createElement _ | createElementNs .. | createTextNode _ | createComment _
  | createDocumentFragment | markAllStyleDirty | clearAllStyleDirty => []
  | appendChild parent child | removeChild parent child => [parent, child]
  | insertBefore parent newNode refNode => parent :: newNode :: refNode.toList
  | replaceChild parent newChild oldChild => [parent, newChild, oldChild]
  | setTextContent id _ | setTextData id _ | setAttribute id .. | removeAttribute id _
  | mark id _ | clearStage id _ | markStyleDirtySubtree id => [id]

end Op

namespace Document

def created (r : Except Fault (NodeId × Document)) : Except Fault (Answer (Option NodeId)) :=
  r.map fun (id, d) => (.ok (some id), d)

def node (r : Except Fault (Answer NodeId)) : Except Fault (Answer (Option NodeId)) :=
  r.map fun (answer, d) => (answer.map some, d)

def done (r : Except Fault Document) : Except Fault (Answer (Option NodeId)) :=
  r.map fun d => (.ok none, d)

/-- An operation, with the node that it answers. -/
def perform (d : Document) : Op → Except Fault (Answer (Option NodeId))
  | .createElement tag => created (d.createElement tag)
  | .createElementNs ns tag => created (d.createElementNs ns tag)
  | .createTextNode data => created (d.createTextNode data)
  | .createComment data => created (d.createComment data)
  | .createDocumentFragment => created d.createDocumentFragment
  | .appendChild parent child => node (d.appendChild parent child)
  | .insertBefore parent newNode refNode => node (d.insertBefore parent newNode refNode)
  | .removeChild parent child => node (d.removeChild parent child)
  | .replaceChild parent newChild oldChild => node (d.replaceChild parent newChild oldChild)
  | .setTextContent id text => done (d.setTextContent id text)
  | .setTextData id data => (d.setTextData id data).map fun (answer, d) =>
      (answer.map fun _ => none, d)
  | .setAttribute id name value => done (d.setAttribute id name value)
  | .removeAttribute id name => done (d.removeAttribute id name)
  | .mark id stage => .ok (.ok none, d.mark id stage)
  | .clearStage id stage => .ok (.ok none, d.clearStage id stage)
  | .markAllStyleDirty => .ok (.ok none, d.markAllStyleDirty)
  | .clearAllStyleDirty => .ok (.ok none, d.clearAllStyleDirty)
  | .markStyleDirtySubtree id => done (d.markStyleDirtySubtree id)

/-- The document after an operation that comes back. -/
def step (d : Document) (op : Op) : Option Document := (d.perform op).toOption.map Prod.snd

end Document

end Conclave.Dom
