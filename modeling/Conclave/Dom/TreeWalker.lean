import Conclave.Dom.Operations
import Conclave.Lib.TreeOrder

/-! The tree walker: its steps follow the walk in pre-order, and what its calls return. -/

namespace Conclave.Dom

open Lib

/-! ### The walker -/

/-- What a filter answers; any other number counts as a skip. -/
def ACCEPT : BitVec 32 := 1
def REJECT : BitVec 32 := 2
def SKIP : BitVec 32 := 3

/-- The bit of a kind of node. -/
def NodeKind.bit : NodeKind → BitVec 32
  | .element .. => 0x1
  | .text _ | .cdataSection _ => 0x4
  | .comment _ => 0x80
  | .document => 0x100
  | .documentFragment => 0x400
  | _ => 0

def shows (whatToShow : BitVec 32) (kind : NodeKind) : Bool := whatToShow &&& kind.bit != 0

namespace Document

def kind (d : Document) (id : NodeId) : Option NodeKind := (d.record id).map NodeRecord.kind

def firstChild (d : Document) (id : NodeId) : Option NodeId := (d.children id).head?

def nextSibling (d : Document) (id : NodeId) : Option NodeId := do
  let p ← d.parent id
  let i ← (d.children p).idxOf? id
  (d.children p)[i + 1]?

end Document

structure TreeWalker where
  doc : Document
  root : NodeId
  current : NodeId
  whatToShow : BitVec 32
  filter : NodeKind → BitVec 32

namespace TreeWalker

def new (doc : Document) (root : NodeId) (whatToShow : BitVec 32)
    (filter : NodeKind → BitVec 32) : TreeWalker :=
  ⟨doc, root, root, whatToShow, filter⟩

def acceptNode (w : TreeWalker) (id : NodeId) : BitVec 32 :=
  match w.doc.kind id with
  | none => REJECT
  | some kind => if shows w.whatToShow kind then w.filter kind else SKIP

/-- The sibling behind a node or behind the closest ancestor that has one, up to the root. -/
def following (d : Document) (root : NodeId) : ℕ → NodeId → Except Fault (Option NodeId)
  | 0, _ => .error .endless
  | n + 1, cur =>
    if cur = root then .ok none
    else match d.nextSibling cur with
      | some s => .ok (some s)
      | none =>
        match d.parent cur with
        | none => .ok none
        | some p => following d root n p

/-- The next node of the walk, whatever the filter says. -/
def nextInOrder (w : TreeWalker) : Except Fault (Option NodeId) :=
  match w.doc.firstChild w.current with
  | some c => .ok (some c)
  | none => following w.doc w.root w.doc.slots w.current

/-- A rejected node and a skipped one are passed over alike. -/
def nextNodeLoop : ℕ → TreeWalker → Except Fault (Option NodeId × TreeWalker)
  | 0, _ => .error .endless
  | n + 1, w => do
    match ← w.nextInOrder with
    | none => return (none, w)
    | some next =>
      let w := { w with current := next }
      if w.acceptNode next = ACCEPT then return (some next, w) else nextNodeLoop n w

def nextNode (w : TreeWalker) : Except Fault (Option NodeId × TreeWalker) :=
  nextNodeLoop (w.doc.slots + 1) w

/-- Calls until one returns none: what they return, and the walker after the last one. -/
def nodes : ℕ → TreeWalker → Except Fault (List NodeId × TreeWalker)
  | 0, _ => .error .endless
  | n + 1, w => do
    match ← w.nextNode with
    | (none, w) => return ([], w)
    | (some next, w) =>
      let (ns, w) ← nodes n w
      return (next :: ns, w)

end TreeWalker

/-! ### Steps -/

namespace Document

variable {d : Document} {root cur n : NodeId} {front back rest : List NodeId}

theorem WellFormed.nextSibling_eq (h : WellFormed d) {p c : NodeId}
    (hkids : d.children p = front ++ c :: back) : d.nextSibling c = back.head? := by
  have hmem : c ∈ d.children p := by
    rw [hkids]
    exact List.mem_append_right _ (List.mem_cons_self ..)
  have hparent : d.parent c = some p := (h.forest.mem_children p c).mp hmem
  have hfront : c ∉ front := by
    have hnodup : (front ++ c :: back).Nodup := hkids ▸ h.forest.nodup p
    exact fun hc => List.disjoint_of_nodup_append hnodup hc (List.mem_cons_self ..)
  have hidx : (d.children p).idxOf? c = some front.length := by
    rw [idxOf?_eq hmem, hkids, List.idxOf_append_of_notMem hfront, List.idxOf_cons_self]
    rfl
  rw [nextSibling, hparent]
  simp only [Option.bind_eq_bind, Option.bind_some, hidx]
  rw [hkids, List.getElem?_append_right (by omega), Nat.add_sub_cancel_left]
  cases back <;> rfl

/-- The climb ends at the head of the rest of the walk. -/
theorem WellFormed.following_eq (h : WellFormed d) (hrest : d.links.Rest root cur rest) {k : ℕ}
    {vs : List NodeId} (hclimb : Links.climb d.parent k (some cur) = some vs) :
    TreeWalker.following d root k cur = .ok rest.head? := by
  induction hrest generalizing k vs with
  | root =>
    cases k with
    | zero => cases hclimb
    | succ k =>
      rw [TreeWalker.following, if_pos rfl]
      rfl
  | @child p c front back rest hp hkids ih =>
    have hmem : c ∈ d.children p := by
      rw [show d.children p = front ++ c :: back from hkids]
      exact List.mem_append_right _ (List.mem_cons_self ..)
    have hparent : d.parent c = some p := (h.forest.mem_children p c).mp hmem
    have hne : c ≠ root := by
      rintro rfl
      exact h.forest.acyclic c ((h.forest.under_of_rest hp).above hparent)
    cases k with
    | zero => cases hclimb
    | succ k =>
      rw [Links.climb, hparent] at hclimb
      obtain ⟨vs, hvs, -⟩ := Option.map_eq_some_iff.mp hclimb
      rw [TreeWalker.following, if_neg hne, h.nextSibling_eq hkids, hparent]
      cases back with
      | nil => exact ih hvs
      | cons s back => rfl

end Document

namespace TreeWalker

variable {w : TreeWalker} {cur : NodeId} {rest order : List NodeId}

/-- The walker goes to the head of the stack of the walk. -/
theorem nextInOrder_eq (h : w.doc.WellFormed) (hcur : w.doc.Has w.current)
    (hrest : w.doc.links.Rest w.root w.current rest) :
    w.nextInOrder = .ok (w.doc.children w.current ++ rest).head? := by
  obtain ⟨vs, hclimb, -⟩ := h.climb hcur
  rw [nextInOrder, Document.firstChild]
  cases hkids : w.doc.children w.current with
  | nil => exact h.following_eq hrest hclimb
  | cons c kids => rfl

/-- What a call answers with so much of the walk before it, and where it leaves the walker. -/
def answer (w : TreeWalker) : NodeId → List NodeId → Option NodeId × NodeId
  | cur, [] => (none, cur)
  | _, n :: order => if w.acceptNode n = ACCEPT then (some n, n) else answer w n order

/-- The walker stands within a walk: so much of it is to come. -/
structure At (w : TreeWalker) (cur : NodeId) (order : List NodeId) : Prop where
  has : w.doc.Has cur
  walk : ∃ rest, w.doc.links.Rest w.root cur rest ∧
    Links.Visits w.doc.children (w.doc.children cur ++ rest) order

theorem At.nextInOrder_eq (hat : At w cur order) (h : w.doc.WellFormed) :
    nextInOrder { w with current := cur } = .ok order.head? := by
  obtain ⟨hcur, rest, hrest, hvisits⟩ := hat
  have hnext := TreeWalker.nextInOrder_eq (w := { w with current := cur }) h hcur hrest
  rw [hnext]
  dsimp only
  cases hstack : w.doc.children cur ++ rest with
  | nil =>
    rw [hstack] at hvisits
    cases hvisits
    rfl
  | cons n stack =>
    rw [hstack] at hvisits
    cases hvisits
    rfl

theorem At.step {n : NodeId} (hat : At w cur (n :: order)) (h : w.doc.WellFormed) :
    At w n order := by
  obtain ⟨hcur, rest, hrest, hvisits⟩ := hat
  cases hstack : w.doc.children cur ++ rest with
  | nil =>
    rw [hstack] at hvisits
    cases hvisits
  | cons m stack =>
    rw [hstack] at hvisits
    cases hvisits with
    | cons hvisits =>
      refine ⟨?_, stack, hrest.visit hstack, hvisits⟩
      have hn : n ∈ w.doc.children cur ++ rest := by
        rw [hstack]
        exact List.mem_cons_self ..
      rcases List.mem_append.mp hn with hn | hn
      · exact Document.has_of_parent ((h.forest.mem_children cur n).mp hn)
      · obtain ⟨p, hp⟩ := h.forest.parent_of_mem_rest hrest hn
        exact Document.has_of_parent hp

theorem At.nextNodeLoop_eq (hat : At w cur order) (h : w.doc.WellFormed) {k : ℕ}
    (hk : order.length < k) : nextNodeLoop k { w with current := cur } =
      .ok ((answer w cur order).1, { w with current := (answer w cur order).2 }) := by
  induction order generalizing cur k with
  | nil =>
    obtain ⟨k, rfl⟩ := Nat.exists_eq_succ_of_ne_zero (Nat.ne_of_gt hk)
    rw [nextNodeLoop, hat.nextInOrder_eq h]
    rfl
  | cons n order ih =>
    obtain ⟨k, rfl⟩ := Nat.exists_eq_succ_of_ne_zero (Nat.ne_of_gt (Nat.zero_lt_of_lt hk))
    rw [nextNodeLoop, hat.nextInOrder_eq h, ok_bind, answer]
    have haccept : acceptNode { w with current := n } n = w.acceptNode n := rfl
    dsimp only [List.head?_cons]
    rw [haccept]
    split_ifs
    · rfl
    · exact ih (hat.step h) (Nat.lt_of_succ_lt_succ hk)

theorem At.nextNode_eq (hat : At w cur order) (h : w.doc.WellFormed)
    (hlen : order.length ≤ w.doc.slots) : nextNode { w with current := cur } =
      .ok ((answer w cur order).1, { w with current := (answer w cur order).2 }) :=
  hat.nextNodeLoop_eq h (Nat.lt_succ_of_le hlen)

/-- The calls return what the filter accepts, and the last one goes to the end of the walk. -/
theorem At.nodes_eq (hat : At w cur order) (h : w.doc.WellFormed)
    (hlen : order.length ≤ w.doc.slots) {k : ℕ} (hk : order.length < k) :
    nodes k { w with current := cur } = .ok (order.filter fun n => w.acceptNode n = ACCEPT,
      { w with current := order.getLast?.getD cur }) := by
  induction order generalizing cur k with
  | nil =>
    obtain ⟨k, rfl⟩ := Nat.exists_eq_succ_of_ne_zero (Nat.ne_of_gt hk)
    rw [nodes, hat.nextNode_eq h hlen]
    rfl
  | cons n order ih =>
    have hstep := hat.step h
    have hlen' : order.length ≤ w.doc.slots := (Nat.le_succ _).trans hlen
    have hlast : (n :: order).getLast?.getD cur = order.getLast?.getD n := by
      rw [List.getLast?_cons]
      rfl
    by_cases haccept : w.acceptNode n = ACCEPT
    · obtain ⟨k, rfl⟩ := Nat.exists_eq_succ_of_ne_zero (Nat.ne_of_gt (Nat.zero_lt_of_lt hk))
      have hanswer : answer w cur (n :: order) = (some n, n) := if_pos haccept
      rw [nodes, hat.nextNode_eq h hlen, hanswer, ok_bind]
      dsimp only
      have hfilter : ((n :: order).filter fun n => w.acceptNode n = ACCEPT) =
          n :: order.filter fun n => w.acceptNode n = ACCEPT :=
        List.filter_cons_of_pos (by simpa using haccept)
      rw [ih hstep hlen' (Nat.lt_of_succ_lt_succ hk), ok_bind, hfilter, hlast]
      rfl
    · have hanswer : answer w cur (n :: order) = answer w n order := if_neg haccept
      have hsame : nextNode { w with current := cur } = nextNode { w with current := n } := by
        rw [hat.nextNode_eq h hlen, hstep.nextNode_eq h hlen', hanswer]
      have hnodes : nodes k { w with current := cur } = nodes k { w with current := n } := by
        cases k with
        | zero => rfl
        | succ k => rw [nodes, nodes, hsame]
      rw [hnodes, ih hstep hlen' ((Nat.lt_succ_self _).trans hk), hlast,
        List.filter_cons_of_neg (by simpa using haccept)]

/-! ### Runs -/

/-- The nodes below the root in pre-order. -/
def Preorder (d : Document) (root : NodeId) (order : List NodeId) : Prop :=
  Links.Visits d.children (d.children root) order

theorem exists_preorder {d : Document} {root : NodeId} (h : d.WellFormed) :
    ∃ order, Preorder d root order ∧ order.length ≤ d.slots ∧
      ∀ n, n ∈ order ↔ d.links.Above root n := by
  obtain ⟨s, hs, hcard⟩ := d.exists_live
  have hapart := h.forest.apart_children root
  have hlive : ∀ v ∈ d.children root, ∀ x, d.links.Under v x → x ∈ s := by
    intro v hv x hx
    have hparent : ∃ p, d.parent x = some p := by
      rcases Links.under_iff.mp hx with rfl | habove
      · exact ⟨root, (h.forest.mem_children root x).mp hv⟩
      · obtain ⟨p, hp, -⟩ := Links.above_iff.mp habove
        exact ⟨p, hp⟩
    obtain ⟨p, hp⟩ := hparent
    exact (hs x).mpr (Document.has_of_parent hp)
  obtain ⟨order, hvisits, -, hlen, -⟩ :=
    h.forest.exists_visits (fun v => List.Perm.refl _) s _ hapart hlive
  refine ⟨order, hvisits, hlen.trans hcard, fun n => ?_⟩
  rw [h.forest.mem_visits (fun v => List.Perm.refl _) hvisits]
  constructor
  · rintro ⟨v, hv, hvn⟩
    exact (Links.above_of_parent ((h.forest.mem_children root v).mp hv)).trans_under hvn
  · intro habove
    obtain ⟨v, hv, hvn⟩ := Relation.TransGen.head'_iff.mp habove
    exact ⟨v, (h.forest.mem_children root v).mpr hv, hvn⟩

/-- Neither the node nor what is between it and the root is turned down. -/
def Accepted (w : TreeWalker) (n : NodeId) : Prop :=
  w.acceptNode n = ACCEPT ∧
    ∀ m, w.doc.links.Above w.root m → w.doc.links.Above m n → w.acceptNode m ≠ REJECT

open Classical in
/-- The calls return the accepted nodes in pre-order, and the one that returns none leaves the
walker where it was. -/
def WalksRight (w : TreeWalker) : Prop :=
  ∃ order ns last, Preorder w.doc w.root order ∧ nodes (w.doc.slots + 1) w = .ok (ns, last) ∧
    ns = order.filter (fun n => Accepted w n) ∧ last.current = ns.getLast?.getD w.current

/-- Nothing is accepted below what is turned down, and the last node is accepted. -/
def Walkable (w : TreeWalker) : Prop :=
  (∀ m n, w.doc.links.Above w.root m → w.doc.links.Above m n → w.acceptNode m = REJECT →
    w.acceptNode n ≠ ACCEPT) ∧
  ∀ order, Preorder w.doc w.root order → ∀ n ∈ order.getLast?, w.acceptNode n = ACCEPT

/-- The last accepted node is the last one exactly when that one is accepted. -/
theorem getLast_filter {p : NodeId → Bool} (hroot : cur ∉ order) :
    order.getLast?.getD cur = (order.filter p).getLast?.getD cur ↔ ∀ n ∈ order.getLast?, p n := by
  rcases List.eq_nil_or_concat' order with rfl | ⟨front, last, rfl⟩
  · simp
  · rw [List.getLast?_concat, List.filter_append, Option.getD_some]
    have hone : (∀ n ∈ some last, p n) ↔ p last := by simp
    rw [hone]
    cases hlast : p last with
    | true => simp [hlast]
    | false =>
      rw [List.filter_cons_of_neg (by simp [hlast]), List.filter_nil, List.append_nil]
      simp only [Bool.false_eq_true, iff_false]
      intro heq
      cases hfilter : (front.filter p).getLast? with
      | none =>
        rw [hfilter, Option.getD_none] at heq
        exact hroot (heq ▸ List.mem_append_right _ (List.mem_singleton.mpr rfl))
      | some n =>
        rw [hfilter, Option.getD_some] at heq
        have hn := (List.mem_filter.mp (List.mem_of_getLast? hfilter)).2
        rw [← heq, hlast] at hn
        cases hn

theorem preorder_unique {d : Document} {root : NodeId} {order' : List NodeId}
    (h : Preorder d root order) (h' : Preorder d root order') : order = order' := h.unique h'

theorem walksRight_iff {d : Document} {root : NodeId} (h : d.WellFormed) (hroot : d.Has root)
    (whatToShow : BitVec 32) (filter : NodeKind → BitVec 32) :
    WalksRight (new d root whatToShow filter) ↔ Walkable (new d root whatToShow filter) := by
  classical
  obtain ⟨order, horder, hlen, hmem⟩ := @exists_preorder d root h
  have hat : At (new d root whatToShow filter) root order :=
    ⟨hroot, [], .root, by rw [List.append_nil]; exact horder⟩
  have hnodes := hat.nodes_eq h hlen (Nat.lt_succ_of_le hlen)
  have hnot : root ∉ order := fun hr => h.forest.acyclic root ((hmem root).mp hr)
  generalize hw : new d root whatToShow filter = w at *
  obtain rfl : w.doc = d := by rw [← hw]; rfl
  obtain rfl : w.root = root := by rw [← hw]; rfl
  have hcurrent : w.current = w.root := by rw [← hw]; rfl
  have hself : ({ w with current := w.root } : TreeWalker) = w :=
    congrArg (fun c => ({ w with current := c } : TreeWalker)) hcurrent.symm
  rw [hself] at hnodes
  have hfilter : (order.filter (fun n => w.acceptNode n = ACCEPT) =
      order.filter fun n => Accepted w n) ↔
      ∀ m n, w.doc.links.Above w.root m → w.doc.links.Above m n → w.acceptNode m = REJECT →
        w.acceptNode n ≠ ACCEPT := by
    constructor
    · intro heq m n hm hmn hreject haccept
      have hn : n ∈ order.filter fun n => w.acceptNode n = ACCEPT :=
        List.mem_filter.mpr ⟨(hmem n).mpr (hm.trans_under hmn.under), decide_eq_true haccept⟩
      rw [heq] at hn
      exact (of_decide_eq_true (List.mem_filter.mp hn).2).2 m hm hmn hreject
    · intro hkeeps
      apply List.filter_congr
      intro n _
      apply decide_eq_decide.mpr
      constructor
      · exact fun haccept => ⟨haccept, fun m hm hmn hreject => hkeeps m n hm hmn hreject haccept⟩
      · exact fun haccepted => haccepted.1
  constructor
  · rintro ⟨order', ns, last, horder', hns, heq, hlast⟩
    obtain rfl := preorder_unique horder horder'
    rw [hnodes] at hns
    cases hns
    refine ⟨hfilter.mp heq, fun order' horder' => ?_⟩
    obtain rfl := preorder_unique horder horder'
    have hends := (getLast_filter hnot).mp (hcurrent ▸ hlast)
    exact fun n hn => of_decide_eq_true (hends n hn)
  · rintro ⟨hkeeps, hends⟩
    refine ⟨order, _, _, horder, hnodes, hfilter.mpr hkeeps, ?_⟩
    dsimp only
    rw [hcurrent]
    exact (getLast_filter hnot).mpr fun n hn => decide_eq_true (hends order horder n hn)

end TreeWalker

end Conclave.Dom
