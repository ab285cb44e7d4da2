import Conclave.Lib.Blocks
import Conclave.Lib.Codec

/-! A message is closed with a mark, zeros and its length, and goes through a function of one
block after the other. -/

namespace Conclave.Lib

variable {σ : Type} {compress : σ → Bytes → σ} {n k : ℕ} {init : σ} {length : Bytes}

/-- The fewest zeros that fill the last block, with a mark before them and `k` bytes behind. -/
def padZeros (n k len : ℕ) : ℕ := (n - (len + 1 + k) % n) % n

def padMessage (n : ℕ) (length msg : Bytes) : Bytes :=
  msg ++ (0x80 :: List.replicate (padZeros n length.length msg.length) 0 ++ length)

/-- What a message leaves in the state, block after block. -/
def chain (compress : σ → Bytes → σ) (n : ℕ) (init : σ) (msg : Bytes) : σ :=
  (fullBlocks n msg).foldl compress init

theorem length_blockRest_eq (n : ℕ) (msg : Bytes) : (blockRest n msg).length = msg.length % n := by
  rw [blockRest, List.length_drop, Nat.mod_eq_sub_mul_div]

theorem padZeros_mod (n k len : ℕ) : padZeros n k (len % n) = padZeros n k len := by
  rw [padZeros, padZeros, Nat.add_assoc, Nat.mod_add_mod, ← Nat.add_assoc]

theorem padZeros_fits {len : ℕ} (h : len + 1 + k ≤ n) :
    padZeros n k len = n - (len + 1 + k) := by
  rw [padZeros]
  rcases h.eq_or_lt with h | h
  · rw [h, Nat.mod_self, Nat.sub_zero, Nat.mod_self, Nat.sub_self]
  · rw [Nat.mod_eq_of_lt h, Nat.mod_eq_of_lt (by omega)]

theorem padZeros_spills {len : ℕ} (hk : k < n) (hlen : len < n) (h : n < len + 1 + k) :
    padZeros n k len = 2 * n - (len + 1 + k) := by
  have hmod : (len + 1 + k) % n = len + 1 + k - n := by
    rw [Nat.mod_eq_sub_mod h.le, Nat.mod_eq_of_lt (by omega)]
  rw [padZeros, hmod, Nat.mod_eq_of_lt (by omega)]
  omega

/-! ### While it comes in pieces -/

/-- What a message that came in leaves in the state and in the buffer. -/
def absorbed (compress : σ → Bytes → σ) (n : ℕ) (init : σ) (msg : Bytes) : Buffered σ UInt8 :=
  ⟨chain compress n init msg, blockRest n msg⟩

def Buffered.absorb (compress : σ → Bytes → σ) (n : ℕ) (h : Buffered σ UInt8) (data : Bytes) :
    Buffered σ UInt8 :=
  Id.run (h.takeIn (fun s block => pure (compress s block)) n data)

theorem absorbed_nil (hn : 0 < n) : absorbed compress n init [] = ⟨init, []⟩ := by
  have hzero : ([] : Bytes).length < n := hn
  rw [absorbed, chain, fullBlocks_of_lt hzero, blockRest_of_lt hzero, List.foldl_nil]

theorem absorb_absorbed (hn : 0 < n) (msg data : Bytes) :
    (absorbed compress n init msg).absorb compress n data =
      absorbed compress n init (msg ++ data) := by
  rw [Buffered.absorb, absorbed, takeIn_eq hn _ (length_blockRest hn msg),
    ← blockRest_append_rest hn, List.foldlM_pure, map_pure, Id.run_pure, chain, ← List.foldl_append,
    ← fullBlocks_append_rest hn, ← chain, absorbed]

/-- The last blocks are made in the buffer: two when the mark leaves no room for the length. -/
def Buffered.close (compress : σ → Bytes → σ) (n : ℕ) (length : Bytes) (h : Buffered σ UInt8) : σ :=
  let k := length.length
  let buffer := h.buffer ++ [0x80]
  let spilled : Buffered σ UInt8 :=
    if n - k < buffer.length then
      ⟨compress h.state (buffer ++ List.replicate (n - buffer.length) 0), []⟩
    else ⟨h.state, buffer⟩
  compress spilled.state
    (spilled.buffer ++ List.replicate (n - k - spilled.buffer.length) 0 ++ length)

/-- The mark and the zeros come in as one more piece, and the length as another. -/
def padPiece (n k buffered : ℕ) : Bytes :=
  (0x80 :: List.replicate (2 * n - 1) 0).take
    (if buffered < n - k then n - k - buffered else 2 * n - k - buffered)

theorem padPiece_eq (hk : k < n) (msg : Bytes) :
    padPiece n k (blockRest n msg).length =
      0x80 :: List.replicate (padZeros n k msg.length) 0 := by
  have hn := Nat.zero_lt_of_lt hk
  have hlt := length_blockRest hn msg
  rw [padPiece, ← padZeros_mod, ← length_blockRest_eq]
  generalize (blockRest n msg).length = r at hlt
  split_ifs with h
  · rw [padZeros_fits (by omega), show n - k - r = n - (r + 1 + k) + 1 by omega, List.take_succ_cons,
      List.take_replicate, min_eq_left (by omega)]
  · rw [padZeros_spills hk hlt (by omega), show 2 * n - k - r = 2 * n - (r + 1 + k) + 1 by omega,
      List.take_succ_cons, List.take_replicate, min_eq_left (by omega)]

theorem absorb_pad (hk : length.length < n) (msg : Bytes) :
    ((absorbed compress n init msg).absorb compress n
      (padPiece n length.length (absorbed compress n init msg).buffer.length)).absorb compress n
        length = absorbed compress n init (padMessage n length msg) := by
  have hn := Nat.zero_lt_of_lt hk
  have hbuffer : (absorbed compress n init msg).buffer = blockRest n msg := rfl
  rw [absorb_absorbed hn, absorb_absorbed hn, hbuffer, padPiece_eq hk, List.append_assoc, padMessage]

theorem chain_block (hn : 0 < n) {b : Bytes} (hb : b.length = n) (rest : Bytes) :
    chain compress n init (b ++ rest) = chain compress n (compress init b) rest := by
  rw [chain, fullBlocks_append hn hb, List.foldl_cons, ← chain]

theorem chain_nil (hn : 0 < n) : chain compress n init [] = init := by
  have hzero : ([] : Bytes).length < n := hn
  rw [chain, fullBlocks_of_lt hzero, List.foldl_nil]

theorem chain_append (hn : 0 < n) (msg rest : Bytes) :
    chain compress n init (msg ++ rest) =
      chain compress n (chain compress n init msg) (blockRest n msg ++ rest) := by
  rw [chain, fullBlocks_append_rest hn, List.foldl_append, ← chain, ← chain]

/-- Both ways the state has processed the padded message. -/
theorem close_absorbed (hk : length.length < n) (msg : Bytes) :
    (absorbed compress n init msg).close compress n length =
      chain compress n init (padMessage n length msg) := by
  have hn := Nat.zero_lt_of_lt hk
  have hlt := length_blockRest hn msg
  have hone : ∀ (s : σ) (b : Bytes), b.length = n → chain compress n s b = compress s b := by
    intro s b hb
    rw [← List.append_nil b, chain_block hn hb, chain_nil hn, List.append_nil]
  rw [Buffered.close, absorbed, padMessage, chain_append hn, ← padZeros_mod, ← length_blockRest_eq]
  generalize chain compress n init msg = s
  generalize blockRest n msg = r at hlt
  dsimp only
  split_ifs with h
  · rw [List.length_append, List.length_singleton] at h
    have hzeros : padZeros n length.length r.length =
        n - (r.length + 1) + (n - length.length) := by
      rw [padZeros_spills hk hlt (by omega)]
      omega
    have hsplit : r ++ (0x80 :: List.replicate (padZeros n length.length r.length) 0 ++ length) =
        (r ++ [0x80] ++ List.replicate (n - (r ++ [0x80]).length) 0) ++
          (List.replicate (n - length.length) 0 ++ length) := by
      rw [hzeros, List.replicate_add, List.length_append, List.length_singleton]
      simp only [List.append_assoc, List.cons_append, List.nil_append]
    rw [hsplit, chain_block hn (by simp; omega), hone _ _ (by simp; omega)]
    rfl
  · rw [List.length_append, List.length_singleton] at h
    have hzeros : padZeros n length.length r.length =
        n - length.length - (r ++ [0x80]).length := by
      rw [padZeros_fits (by omega), List.length_append, List.length_singleton]
      omega
    rw [hzeros, hone]
    · simp only [List.append_assoc, List.cons_append, List.nil_append]
    · simp only [List.length_append, List.length_cons, List.length_nil, List.length_replicate]
      omega

end Conclave.Lib
