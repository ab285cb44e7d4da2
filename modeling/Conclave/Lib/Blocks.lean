import Mathlib

/-! Input that is taken in by blocks of one length, while it comes in pieces of any length.
What does not fill a block is kept for the next piece. -/

namespace Conclave.Lib

universe u v

variable {α σ : Type u} {n : ℕ} {l r : List α}

/-- The blocks that a list fills. -/
def fullBlocks (n : ℕ) (l : List α) : List (List α) :=
  (List.range (l.length / n)).map fun i => (l.drop (n * i)).take n

/-- What is left of the list behind them. -/
def blockRest (n : ℕ) (l : List α) : List α := l.drop (n * (l.length / n))

theorem fullBlocks_of_lt (h : l.length < n) : fullBlocks n l = [] := by
  rw [fullBlocks, Nat.div_eq_of_lt h, List.range_zero, List.map_nil]

theorem blockRest_of_lt (h : l.length < n) : blockRest n l = l := by
  rw [blockRest, Nat.div_eq_of_lt h, Nat.mul_zero, List.drop_zero]

theorem fullBlocks_append {b : List α} (hn : 0 < n) (hb : b.length = n) (l : List α) :
    fullBlocks n (b ++ l) = b :: fullBlocks n l := by
  have hdiv : (b ++ l).length / n = l.length / n + 1 := by
    rw [List.length_append, hb, Nat.add_comm, Nat.add_div_right _ hn]
  rw [fullBlocks, hdiv, List.range_succ_eq_map, List.map_cons, List.map_map, Nat.mul_zero,
    List.drop_zero, ← hb, List.take_left]
  congr 1
  apply List.map_congr_left
  intro i _
  rw [Function.comp_apply, Nat.succ_eq_add_one, Nat.mul_add, Nat.mul_one, Nat.add_comm,
    ← List.drop_drop, List.drop_left]

theorem blockRest_append {b : List α} (hn : 0 < n) (hb : b.length = n) (l : List α) :
    blockRest n (b ++ l) = blockRest n l := by
  have hdiv : (b ++ l).length / n = l.length / n + 1 := by
    rw [List.length_append, hb, Nat.add_comm, Nat.add_div_right _ hn]
  rw [blockRest, hdiv, Nat.mul_add, Nat.mul_one, Nat.add_comm, ← hb, ← List.drop_drop,
    List.drop_left, blockRest]

/-- Induction over the blocks of a list. -/
theorem blocks_induction {P : List α → Prop} (hn : 0 < n) (short : ∀ l, l.length < n → P l)
    (block : ∀ b l, b.length = n → P l → P (b ++ l)) (l : List α) : P l := by
  induction hlen : l.length using Nat.strong_induction_on generalizing l with
  | h k ih =>
    by_cases hlt : l.length < n
    · exact short l hlt
    · rw [← List.take_append_drop n l]
      apply block
      · rw [List.length_take]
        omega
      · exact ih (l.length - n) (by omega) (l.drop n) (by rw [List.length_drop])

theorem length_blockRest (hn : 0 < n) (l : List α) : (blockRest n l).length < n := by
  induction l using blocks_induction hn with
  | short l h => rwa [blockRest_of_lt h]
  | block b l hb ih => rwa [blockRest_append hn hb]

theorem length_of_mem_fullBlocks (hn : 0 < n) {b : List α} (h : b ∈ fullBlocks n l) :
    b.length = n := by
  induction l using blocks_induction hn with
  | short l hlt => simp [fullBlocks_of_lt hlt] at h
  | block b' l hb ih =>
    rw [fullBlocks_append hn hb] at h
    rcases List.mem_cons.mp h with rfl | h
    · exact hb
    · exact ih h

/-- The blocks of a list with more behind it: those of the list, and those that what it leaves
fills with the rest. -/
theorem fullBlocks_append_rest (hn : 0 < n) (l r : List α) :
    fullBlocks n (l ++ r) = fullBlocks n l ++ fullBlocks n (blockRest n l ++ r) := by
  induction l using blocks_induction hn with
  | short l h => rw [fullBlocks_of_lt h, blockRest_of_lt h, List.nil_append]
  | block b l hb ih =>
    rw [List.append_assoc, fullBlocks_append hn hb, fullBlocks_append hn hb,
      blockRest_append hn hb, ih, List.cons_append]

theorem blockRest_append_rest (hn : 0 < n) (l r : List α) :
    blockRest n (l ++ r) = blockRest n (blockRest n l ++ r) := by
  induction l using blocks_induction hn with
  | short l h => rw [blockRest_of_lt h]
  | block b l hb ih =>
    rw [List.append_assoc, blockRest_append hn hb, blockRest_append hn hb, ih]

/-! ### Taking in -/

variable {m : Type u → Type v} [Monad m] {process : σ → List α → m σ}

/-- Blocks are taken from the front as long as there are any. -/
def takeBlocks (process : σ → List α → m σ) (n : ℕ) (s : σ) (data : List α) : m (σ × List α) :=
  if 0 < n ∧ n ≤ data.length then do
    let s ← process s (data.take n)
    takeBlocks process n s (data.drop n)
  else pure (s, data)
termination_by data.length
decreasing_by
  rw [List.length_drop]
  omega

/-- A state, and what came in after the last full block. -/
structure Buffered (σ α : Type u) where
  state : σ
  buffer : List α

/-- A buffer that is not empty is filled up first, and what it takes is gone from the data. -/
def Buffered.fill (process : σ → List α → m σ) (n : ℕ) (h : Buffered σ α) (data : List α) :
    m (Buffered σ α × List α) :=
  let need := n - h.buffer.length
  let buffer := h.buffer ++ data.take need
  if h.buffer = [] then pure (h, data)
  else if buffer.length = n then do
    let s ← process h.state buffer
    pure (⟨s, []⟩, data.drop need)
  else pure (⟨h.state, buffer⟩, data.drop need)

/-- What the blocks leave, if anything, is the next buffer. -/
def Buffered.takeIn (process : σ → List α → m σ) (n : ℕ) (h : Buffered σ α) (data : List α) :
    m (Buffered σ α) := do
  let filled ← h.fill process n data
  let taken ← takeBlocks process n filled.1.state filled.2
  pure ⟨taken.1, if taken.2 = [] then filled.1.buffer else taken.2⟩

variable [LawfulMonad m]

theorem takeBlocks_eq (hn : 0 < n) (s : σ) (data : List α) :
    takeBlocks process n s data = (fun s => (s, blockRest n data)) <$>
      (fullBlocks n data).foldlM process s := by
  induction data using blocks_induction hn generalizing s with
  | short data h =>
    rw [takeBlocks, if_neg (by omega), fullBlocks_of_lt h, blockRest_of_lt h, List.foldlM_nil,
      map_pure]
  | block b data hb ih =>
    rw [takeBlocks, if_pos ⟨hn, by rw [List.length_append]; omega⟩, fullBlocks_append hn hb,
      blockRest_append hn hb, List.foldlM_cons, map_bind, ← hb, List.take_left, List.drop_left, hb]
    congr 1
    funext s
    exact ih s

/-- One piece: the state has processed the blocks of all that came in, and the buffer has
what they leave. -/
theorem takeIn_eq (hn : 0 < n) (s : σ) {buffer : List α} (hbuffer : buffer.length < n)
    (data : List α) : Buffered.takeIn process n ⟨s, buffer⟩ data =
      (fun s => ⟨s, blockRest n (buffer ++ data)⟩) <$>
        (fullBlocks n (buffer ++ data)).foldlM process s := by
  have hempty : ∀ (s : σ) (data : List α), (do
      let taken ← takeBlocks process n s data
      pure (⟨taken.1, if taken.2 = [] then [] else taken.2⟩ : Buffered σ α)) =
      (fun s => ⟨s, blockRest n data⟩) <$> (fullBlocks n data).foldlM process s := by
    intro s data
    rw [takeBlocks_eq hn, bind_map_left, map_eq_pure_bind]
    congr 1
    funext s
    dsimp only
    split_ifs with hrest
    · rw [hrest]
    · rfl
  unfold Buffered.takeIn Buffered.fill
  dsimp only
  by_cases hnil : buffer = []
  · subst hnil
    rw [if_pos rfl, pure_bind, List.nil_append]
    exact hempty s data
  rw [if_neg hnil]
  by_cases hfull : n ≤ buffer.length + data.length
  · have hlen : (buffer ++ data.take (n - buffer.length)).length = n := by
      rw [List.length_append, List.length_take]
      omega
    have hsplit : buffer ++ data =
        (buffer ++ data.take (n - buffer.length)) ++ data.drop (n - buffer.length) := by
      rw [List.append_assoc, List.take_append_drop]
    rw [if_pos hlen, hsplit, fullBlocks_append hn hlen, blockRest_append hn hlen,
      List.foldlM_cons, map_bind, bind_assoc]
    congr 1
    funext s
    rw [pure_bind]
    exact hempty s _
  · have htake : data.take (n - buffer.length) = data := List.take_of_length_le (by omega)
    have hdrop : data.drop (n - buffer.length) = [] := List.drop_of_length_le (by omega)
    have hlt : (buffer ++ data).length < n := by
      rw [List.length_append]
      omega
    have hzero : ([] : List α).length < n := hn
    rw [htake, hdrop, if_neg hlt.ne, pure_bind, takeBlocks_eq hn, fullBlocks_of_lt hzero,
      blockRest_of_lt hzero, fullBlocks_of_lt hlt, blockRest_of_lt hlt, List.foldlM_nil,
      map_pure, map_pure, pure_bind, if_pos rfl]

/-- Pieces one after the other are taken in as the whole is. -/
theorem foldlM_takeIn (hn : 0 < n) (s : σ) {buffer : List α} (hbuffer : buffer.length < n)
    (pieces : List (List α)) : pieces.foldlM (Buffered.takeIn process n) ⟨s, buffer⟩ =
      (fun s => ⟨s, blockRest n (buffer ++ pieces.flatten)⟩) <$>
        (fullBlocks n (buffer ++ pieces.flatten)).foldlM process s := by
  induction pieces generalizing s buffer with
  | nil =>
    rw [List.flatten_nil, List.append_nil, fullBlocks_of_lt hbuffer, blockRest_of_lt hbuffer,
      List.foldlM_nil, List.foldlM_nil, map_pure]
  | cons piece pieces ih =>
    rw [List.foldlM_cons, takeIn_eq hn s hbuffer, List.flatten_cons, ← List.append_assoc,
      fullBlocks_append_rest hn (buffer ++ piece), blockRest_append_rest hn (buffer ++ piece),
      List.foldlM_append, map_bind, bind_map_left]
    congr 1
    funext s
    exact ih s (length_blockRest hn _)

end Conclave.Lib
