import Conclave.Dom.Operations
import Conclave.Dom.TreeWalker

/-! Ranges: their boundary points, and the deletion of what is between them. -/

namespace Conclave.Dom

open Lib

/-! ### Cutting text -/

/-- A text in two, after so many units of its characters' sizes: none when there is no such place
between two characters. -/
def cut (size : Char → ℕ) (n : ℕ) : Text → Option (Text × Text)
  | [] => if n = 0 then some ([], []) else none
  | c :: t =>
    if n = 0 then some ([], c :: t)
    else if size c ≤ n then (cut size (n - size c) t).map fun (front, back) => (c :: front, back)
    else none

def total (size : Char → ℕ) (t : Text) : ℕ := (t.map size).sum

theorem total_append (size : Char → ℕ) (a b : Text) :
    total size (a ++ b) = total size a + total size b := by simp [total]

theorem eq_nil_of_total {size : Char → ℕ} (hsize : ∀ c, 0 < size c) {t : Text}
    (ht : total size t = 0) : t = [] := by
  cases t with
  | nil => rfl
  | cons c t =>
    have hc := hsize c
    rw [total, List.map_cons, List.sum_cons] at ht
    omega

/-- The place is where the characters before it have so many units. -/
theorem cut_eq_some {size : Char → ℕ} (hsize : ∀ c, 0 < size c) {n : ℕ} {t a b : Text} :
    cut size n t = some (a, b) ↔ t = a ++ b ∧ total size a = n := by
  induction t generalizing n a with
  | nil =>
    rw [cut]
    constructor
    · intro h
      split_ifs at h with hn
      cases h
      exact ⟨rfl, hn.symm⟩
    · rintro ⟨hnil, hn⟩
      obtain ⟨rfl, rfl⟩ := List.append_eq_nil_iff.mp hnil.symm
      exact if_pos hn.symm
  | cons c t ih =>
    have hc := hsize c
    rw [cut]
    constructor
    · intro h
      split_ifs at h with hn hle
      · cases h
        exact ⟨rfl, hn.symm⟩
      · obtain ⟨⟨front, back⟩, hcut, heq⟩ := Option.map_eq_some_iff.mp h
        cases heq
        obtain ⟨rfl, hfront⟩ := ih.mp hcut
        refine ⟨rfl, ?_⟩
        rw [total, List.map_cons, List.sum_cons, ← total, hfront]
        omega
    · rintro ⟨heq, hn⟩
      cases a with
      | nil =>
        rw [← hn, show b = c :: t from heq.symm]
        rfl
      | cons d a =>
        cases heq
        rw [total, List.map_cons, List.sum_cons, ← total] at hn
        rw [if_neg (by omega), if_pos (by omega), ih.mpr ⟨rfl, by omega⟩]
        rfl

/-- Of two beginnings of a text the one with fewer units is a beginning of the other. -/
theorem exists_append_of_total {size : Char → ℕ} (hsize : ∀ c, 0 < size c) {a b x y : Text}
    (heq : a ++ b = x ++ y) (hle : total size a ≤ total size x) :
    ∃ z, x = a ++ z ∧ b = z ++ y := by
  rcases List.append_eq_append_iff.mp heq with ⟨z, hx, hb⟩ | ⟨z, ha, hy⟩
  · exact ⟨z, hx, hb⟩
  · rw [ha, total_append] at hle
    obtain rfl := eq_nil_of_total hsize (show total size z = 0 by omega)
    exact ⟨[], by simpa using ha.symm, by simpa using hy.symm⟩

theorem append_inj_of_total {size : Char → ℕ} (hsize : ∀ c, 0 < size c) {a b x y : Text}
    (heq : a ++ b = x ++ y) (hsame : total size a = total size x) : a = x ∧ b = y := by
  obtain ⟨z, rfl, rfl⟩ := exists_append_of_total hsize heq hsame.le
  rw [total_append] at hsame
  obtain rfl := eq_nil_of_total hsize (show total size z = 0 by omega)
  exact ⟨(List.append_nil a).symm, rfl⟩

/-! ### Ranges -/

structure Range where
  startContainer : NodeId
  startOffset : UInt32
  endContainer : NodeId
  endOffset : UInt32
  collapsed : Bool
  deriving DecidableEq, Repr

namespace Range

def new (root : NodeId) : Range := ⟨root, 0, root, 0, true⟩

def updateCollapsed (r : Range) : Range :=
  { r with
    collapsed := r.startContainer = r.endContainer ∧ r.startOffset = r.endOffset }

def setStart (r : Range) (container : NodeId) (offset : UInt32) : Range :=
  { r with startContainer := container, startOffset := offset }.updateCollapsed

def setEnd (r : Range) (container : NodeId) (offset : UInt32) : Range :=
  { r with endContainer := container, endOffset := offset }.updateCollapsed

def collapse (r : Range) (toStart : Bool) : Range :=
  if toStart then
    { r with endContainer := r.startContainer, endOffset := r.startOffset, collapsed := true }
  else { r with startContainer := r.endContainer, startOffset := r.endOffset, collapsed := true }

def selectNode (d : Document) (node : NodeId) : Except DomError Range :=
  match d.parent node with
  | none => .error (.invalidArgument "no parent")
  | some parent =>
    match (d.children parent).idxOf? node with
    | none => .error .notFound
    | some i => .ok ⟨parent, .ofNat i, parent, .ofNat i + 1, false⟩

def selectNodeContents (d : Document) (node : NodeId) : Except DomError Range :=
  match d.kind node with
  | none => .error .notFound
  | some kind =>
    let len := match kind with
      | .text s | .comment s | .cdataSection s => UInt32.ofNat (total Char.utf8Size s)
      | _ => UInt32.ofNat (d.children node).length
    .ok ⟨node, 0, node, len, len = 0⟩

/-- The flag says what it is there for. Every method that moves a boundary point keeps it so. -/
def Tracked (r : Range) : Prop :=
  r.collapsed = decide (r.startContainer = r.endContainer ∧ r.startOffset = r.endOffset)

theorem tracked_updateCollapsed (r : Range) : r.updateCollapsed.Tracked := rfl

theorem tracked_collapse (r : Range) (toStart : Bool) : (r.collapse toStart).Tracked := by
  cases toStart <;> simp [collapse, Tracked]

theorem tracked_selectNode {d : Document} {node : NodeId} {r : Range}
    (h : selectNode d node = .ok r) : r.Tracked := by
  rw [selectNode] at h
  split at h
  · cases h
  · split at h
    · cases h
    · next i _ =>
      cases h
      have hne : UInt32.ofNat i ≠ UInt32.ofNat i + 1 := by simp
      exact (decide_eq_false fun hsame => hne hsame.2).symm

theorem tracked_selectNodeContents {d : Document} {node : NodeId} {r : Range}
    (h : selectNodeContents d node = .ok r) : r.Tracked := by
  rw [selectNodeContents] at h
  split at h
  · cases h
  · cases h
    exact decide_eq_decide.mpr ⟨fun hlen => ⟨rfl, hlen.symm⟩, fun hsame => hsame.2.symm⟩

/-! ### Deletion -/

def ancestorChain (d : Document) (n : NodeId) : Except Fault (List NodeId) :=
  match Links.climb d.parent d.slots (some n) with
  | none => .error .endless
  | some chain => .ok chain

/-- The first of the ancestors of the start that is one of the end, or else the root. -/
def commonAncestor (r : Range) (d : Document) : Except Fault (Option NodeId) := do
  let aChain ← ancestorChain d r.startContainer
  let bChain ← ancestorChain d r.endContainer
  return (aChain.find? (· ∈ bChain)).or d.root

/-- Text is cut at bytes, and a cut within a character panics. -/
def deleteTextRange (d : Document) (node : NodeId) (start stop : ℕ) :
    Except Fault (Document.Answer Text) :=
  match d.kind node with
  | some (.text cur) =>
    if total Char.utf8Size cur < start ∨ total Char.utf8Size cur < stop then
      .ok (.error (.invalidArgument "text range out of bounds"), d)
    else
      match cut Char.utf8Size start cur, cut Char.utf8Size stop cur with
      | some (front, _), some (_, back) => d.setTextData node (front ++ back)
      | _, _ => .error .indexOutOfBounds
  | _ => .ok (.error (.invalidArgument "not text"), d)

/-- Children taken out one by one, to the first error. -/
def removeEach (parent : NodeId) : List NodeId → Document → Except Fault (Document.Answer Unit)
  | [], d => .ok (.ok (), d)
  | c :: kids, d => do Document.andThen (← d.removeChild parent c) (removeEach parent kids)

/-- All children of a node but two, whatever the removals answer. -/
def removeOthers (parent keep keep' : NodeId) : List NodeId → Document → Except Fault Document
  | [], d => .ok d
  | c :: kids, d =>
    if c = keep ∨ c = keep' then removeOthers parent keep keep' kids d
    else do removeOthers parent keep keep' kids (← d.removeChild parent c).2

def deleteContents (r : Range) (d : Document) : Except Fault (Document.Answer Range) := do
  if r.collapsed then return (.ok r, d)
  else if r.startContainer = r.endContainer then
    match d.kind r.startContainer with
    | some (.text _) =>
      Document.andThen (← deleteTextRange d r.startContainer r.startOffset.toNat
        r.endOffset.toNat) fun d =>
        .ok (.ok (r.collapse true), d)
    | _ =>
      let toDel := ((d.children r.startContainer).drop r.startOffset.toNat).take
        (r.endOffset - r.startOffset).toNat
      Document.andThen (← removeEach r.startContainer toDel d) fun d =>
        .ok (.ok (r.collapse true), d)
  else
    match ← r.commonAncestor d with
    | none => .error .indexOutOfBounds
    | some parent =>
      let d ← removeOthers parent r.startContainer r.endContainer (d.children parent) d
      return (.ok (r.collapse true), d)

end Range

end Conclave.Dom
