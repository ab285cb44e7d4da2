import Mathlib

/-! Linked lists threaded through an array. `Follows next head path` says that the links
`next` lead from `head` along `path` and end there. A link outside the path may change,
a node may be put in front, and the first node may be taken off. -/

namespace Conclave.Lib

variable {α : Type*}

/-- The links from `head` visit `path` and end. -/
def Follows (next : α → Option α) : Option α → List α → Prop
  | head, [] => head = none
  | head, a :: path => head = some a ∧ Follows next (next a) path

namespace Follows

variable {next next' : α → Option α} {head : Option α} {path : List α} {a : α}

theorem congr (h : Follows next head path) (hn : ∀ a ∈ path, next' a = next a) :
    Follows next' head path := by
  induction path generalizing head with
  | nil => exact h
  | cons a path ih =>
    obtain ⟨hhead, hrest⟩ := h
    refine ⟨hhead, ?_⟩
    rw [hn a List.mem_cons_self]
    exact ih hrest fun b hb => hn b (List.mem_cons_of_mem a hb)

/-- A node in front of the list. -/
theorem push (h : Follows next head path) (ha : next' a = head)
    (hn : ∀ b ∈ path, next' b = next b) : Follows next' (some a) (a :: path) :=
  ⟨rfl, ha ▸ h.congr hn⟩

/-- The first node off the list. -/
theorem pop (h : Follows next (some a) path) :
    ∃ rest, path = a :: rest ∧ Follows next (next a) rest := by
  cases path with
  | nil => cases h
  | cons b rest =>
    obtain ⟨hb, hrest⟩ := h
    obtain rfl := Option.some.inj hb
    exact ⟨rest, rfl, hrest⟩

theorem eq_nil (h : Follows next none path) : path = [] := by
  cases path with
  | nil => rfl
  | cons b rest => cases h.1

end Follows

end Conclave.Lib
