import Conclave.Net.Sse

/-! The framing of an event stream, byte by byte. On reads that end where the decoder can
go on (within chunk data or before a size line), the decoder gives what the bytes carry. -/

namespace Conclave.Net.Sse

open Lib Text

/-- Where a body stands between two bytes. -/
inductive Frame where
  | sizeLine (line : Bytes)
  | data (left : ℕ)
  /-- Behind chunk data, with or without the first byte of its line end. -/
  | dataEnd (cr : Bool)
  | broken
  | ended
  | body (left : Option ℕ)
  deriving DecidableEq, Repr

/-- What a size line leads to. -/
def Frame.sized (line : Bytes) : Frame :=
  if chunkSize line = 0 then .ended else .data (chunkSize line)

def Frame.step : Frame → UInt8 → Frame × Bytes
  | .sizeLine line, b =>
    if b = 0x0a ∧ line.getLast? = some 0x0d then (.sized line.dropLast, [])
    else (.sizeLine (line ++ [b]), [])
  | .data left, b => (if left ≤ 1 then .dataEnd false else .data (left - 1), [b])
  | .dataEnd false, b => (if b = 0x0d then .dataEnd true else .broken, [])
  | .dataEnd true, b => (if b = 0x0a then .sizeLine [] else .broken, [])
  | .broken, _ => (.broken, [])
  | .ended, _ => (.ended, [])
  | .body none, b => (.body none, [b])
  | .body (some left), b =>
    if left = 0 then (.ended, [])
    else (if left = 1 then .ended else .body (some (left - 1)), [b])

def Frame.read (f : Frame) (bytes : Bytes) : Frame × Bytes := transduce Frame.step f bytes

/-- Where a read may end. -/
def Frame.Settled : Frame → Prop
  | .sizeLine line => line = []
  | .data _ => True
  | .dataEnd _ => False
  | .broken => False
  | .ended => True
  | .body _ => True

theorem ended_read (bytes : Bytes) : Frame.ended.read bytes = (.ended, []) :=
  transduce_still (fun _ => rfl) bytes

theorem broken_read (bytes : Bytes) : Frame.broken.read bytes = (.broken, []) :=
  transduce_still (fun _ => rfl) bytes

theorem read_append (f : Frame) (as bs : Bytes) :
    f.read (as ++ bs) = (((f.read as).1.read bs).1, (f.read as).2 ++ ((f.read as).1.read bs).2) :=
  transduce_append _ f as bs

/-! ### Size lines -/

theorem findCrlf_cons {b : UInt8} {rest : Bytes} (h : ¬(b = 0x0d ∧ rest.head? = some 0x0a)) :
    findCrlf (b :: rest) = (findCrlf rest).map (· + 1) := by
  cases rest with
  | nil => simp [findCrlf]
  | cons b' rest =>
    rw [findCrlf]
    rintro rest' rfl hrest
    cases hrest
    exact h ⟨rfl, rfl⟩

theorem sizeLine_read (line rx : Bytes)
    (h : ¬(line.getLast? = some 0x0d ∧ rx.head? = some 0x0a)) :
    (Frame.sizeLine line).read rx =
      match findCrlf rx with
      | none => (.sizeLine (line ++ rx), [])
      | some eol => (Frame.sized (line ++ rx.take eol)).read (rx.drop (eol + 2)) := by
  induction rx generalizing line with
  | nil => simp [Frame.read, transduce, findCrlf]
  | cons b rest ih =>
    have hstep : (Frame.sizeLine line).step b = (.sizeLine (line ++ [b]), []) := by
      rw [Frame.step, if_neg fun hb => h ⟨hb.2, by simp [hb.1]⟩]
    have hread : (Frame.sizeLine line).read (b :: rest) =
        (Frame.sizeLine (line ++ [b])).read rest := by
      simp [Frame.read, transduce, hstep]
    rw [hread]
    by_cases hcrlf : b = 0x0d ∧ rest.head? = some 0x0a
    · obtain ⟨rfl, hhead⟩ := hcrlf
      obtain ⟨rest, rfl⟩ : ∃ rest', rest = 0x0a :: rest' := by
        cases rest with
        | nil => cases hhead
        | cons b' rest' => exact ⟨rest', by simpa using hhead⟩
      simp [findCrlf, Frame.read, transduce, Frame.step]
    · rw [ih (line ++ [b]) (by simpa using hcrlf), findCrlf_cons hcrlf]
      cases findCrlf rest with
      | none => simp
      | some eol => simp

/-! ### Chunk data -/

theorem data_read {left : ℕ} (hleft : 0 < left) (rx : Bytes) :
    (Frame.data left).read rx =
      if rx.length < left then (.data (left - rx.length), rx)
      else (((Frame.dataEnd false).read (rx.drop left)).1,
        rx.take left ++ ((Frame.dataEnd false).read (rx.drop left)).2) := by
  induction rx generalizing left with
  | nil => simp [Frame.read, transduce, hleft]
  | cons b rest ih =>
    obtain ⟨left, rfl⟩ := Nat.exists_eq_add_of_lt hleft
    rw [Nat.zero_add]
    by_cases hone : left = 0
    · subst hone
      simp [Frame.read, transduce, Frame.step]
    · have hread : (Frame.data (left + 1)).read (b :: rest) =
          (((Frame.data left).read rest).1, b :: ((Frame.data left).read rest).2) := by
        simp [Frame.read, transduce, Frame.step, hone]
      rw [hread, ih (Nat.pos_of_ne_zero hone)]
      by_cases hlt : rest.length < left
      · simp [hlt]
      · simp [hlt]

theorem dataEnd_read {rx : Bytes} (h : ((Frame.dataEnd false).read rx).1.Settled) :
    ∃ rest, rx = 0x0d :: 0x0a :: rest ∧
      (Frame.dataEnd false).read rx = (Frame.sizeLine []).read rest := by
  match rx with
  | [] => exact absurd h id
  | [b] =>
    by_cases hb : b = 0x0d
    · simp [Frame.read, transduce, Frame.step, hb, Frame.Settled] at h
    · simp [Frame.read, transduce, Frame.step, hb, Frame.Settled] at h
  | b :: b' :: rest =>
    by_cases hb : b = 0x0d
    · by_cases hb' : b' = 0x0a
      · exact ⟨rest, by rw [hb, hb'], by simp [Frame.read, transduce, Frame.step, hb, hb']⟩
      · have hbroken := broken_read rest
        simp only [Frame.read] at hbroken
        simp [Frame.read, transduce, Frame.step, hb, hb', Frame.Settled, hbroken] at h
    · have hbroken := broken_read (b' :: rest)
      simp only [Frame.read] at hbroken
      rw [Frame.read, transduce] at h
      simp [Frame.step, hb, hbroken, Frame.Settled] at h

/-! ### The decoder -/

/-- Where the decoder stands between two polls. -/
def Frame.ofRemaining (chunkRemaining : ℕ) : Frame :=
  if chunkRemaining = 0 then .sizeLine [] else .data chunkRemaining

theorem decodeChunked_partial {rx : Bytes} {n : ℕ} (h : rx.length < n) :
    decodeChunked rx n = ⟨rx, [], n - rx.length, false⟩ := by
  have htake : rx.take n = rx := List.take_of_length_le h.le
  rw [decodeChunked, if_pos (by omega)]
  simp [htake, h]

theorem decodeChunked_data {rx rest : Bytes} {n : ℕ} (hn : 0 < n) (h : n ≤ rx.length)
    (hrest : rx.drop n = 0x0d :: 0x0a :: rest) :
    decodeChunked rx n =
      { decodeChunked rest 0 with out := rx.take n ++ (decodeChunked rest 0).out } := by
  rw [decodeChunked, if_pos hn, if_neg (by simp [h])]
  split
  · rename_i rest' heq
    rw [hrest] at heq
    cases heq
    rfl
  · rename_i hne
    exact absurd hrest (hne rest)

theorem decodeChunked_line {rx : Bytes} {eol : ℕ} (h : findCrlf rx = some eol) :
    decodeChunked rx 0 =
      if chunkSize (rx.take eol) = 0 then ⟨[], rx.drop (eol + 2), 0, true⟩
      else decodeChunked (rx.drop (eol + 2)) (chunkSize (rx.take eol)) := by
  rw [decodeChunked, if_neg (Nat.lt_irrefl 0)]
  split
  · rename_i heq
    rw [h] at heq
    cases heq
  · rename_i eol' heq
    rw [h] at heq
    cases heq
    rfl

/-- A read that ends right behind chunk data leaves nothing that tells so. -/
theorem decodeChunked_exact {rx : Bytes} (h : rx ≠ []) :
    decodeChunked rx rx.length = ⟨rx, [], 0, false⟩ := by
  rw [decodeChunked, if_pos (List.length_pos_of_ne_nil h), if_neg (by simp)]
  split
  · rename_i heq
    simp at heq
  · simp

/-- The line end of chunk data is then taken for a size line that is malformed. -/
theorem decodeChunked_crlf (rest : Bytes) :
    decodeChunked (0x0d :: 0x0a :: rest) 0 = ⟨[], rest, 0, true⟩ := by
  have heol : findCrlf (0x0d :: 0x0a :: rest) = some 0 := rfl
  rw [decodeChunked_line heol]
  rfl

theorem decodeChunked_eq (rx : Bytes) (chunkRemaining : ℕ)
    (h : ((Frame.ofRemaining chunkRemaining).read rx).1.Settled) :
    (decodeChunked rx chunkRemaining).out = ((Frame.ofRemaining chunkRemaining).read rx).2 ∧
    ((decodeChunked rx chunkRemaining).eof = true ∧
        ((Frame.ofRemaining chunkRemaining).read rx).1 = .ended ∨
      (decodeChunked rx chunkRemaining).eof = false ∧
        (decodeChunked rx chunkRemaining).rxRaw = [] ∧
        ((Frame.ofRemaining chunkRemaining).read rx).1 =
          .ofRemaining (decodeChunked rx chunkRemaining).chunkRemaining) := by
  induction hn : rx.length using Nat.strong_induction_on generalizing rx chunkRemaining with
  | _ n ih =>
    subst hn
    obtain rfl | hpos := Nat.eq_zero_or_pos chunkRemaining
    · have hof : Frame.ofRemaining 0 = .sizeLine [] := rfl
      rw [hof, sizeLine_read [] rx (by simp)] at h ⊢
      cases heol : findCrlf rx with
      | none =>
        -- The read ends in a size line, which is settled where it is empty.
        simp only [heol, List.nil_append] at h ⊢
        have hrx : rx = [] := h
        subst hrx
        exact ⟨by simp [decodeChunked, findCrlf],
          .inr ⟨by simp [decodeChunked, findCrlf], by simp [decodeChunked, findCrlf],
            by simp [decodeChunked, findCrlf, hof]⟩⟩
      | some eol =>
        simp only [heol, List.nil_append, Frame.sized] at h ⊢
        rw [decodeChunked_line heol]
        by_cases hsize : chunkSize (rx.take eol) = 0
        · simp [hsize, ended_read]
        · have hof : Frame.ofRemaining (chunkSize (rx.take eol)) =
              .data (chunkSize (rx.take eol)) := if_neg hsize
          rw [if_neg hsize, ← hof] at h ⊢
          rw [if_neg hsize]
          exact ih _ (findCrlf_lt heol) _ _ h rfl
    · have hof : Frame.ofRemaining chunkRemaining = .data chunkRemaining :=
        if_neg (Nat.ne_of_gt hpos)
      rw [hof, data_read hpos] at h ⊢
      by_cases hlt : rx.length < chunkRemaining
      · rw [if_pos hlt, decodeChunked_partial hlt]
        refine ⟨rfl, .inr ⟨rfl, rfl, ?_⟩⟩
        simp [Frame.ofRemaining, Nat.sub_ne_zero_of_lt hlt]
      · rw [if_neg hlt] at h ⊢
        obtain ⟨rest, hrest, hread⟩ := dataEnd_read h
        have hlen : rest.length < rx.length := by
          have := congrArg List.length hrest
          simp only [List.length_drop, List.length_cons] at this
          omega
        rw [hread] at h ⊢
        rw [decodeChunked_data hpos (not_lt.1 hlt) hrest]
        obtain ⟨hout, hend⟩ := ih _ hlen rest 0 h rfl
        exact ⟨congrArg _ hout, hend⟩

/-! ### Bodies with a length -/

theorem body_read_none (bytes : Bytes) :
    (Frame.body none).read bytes = (.body none, bytes) := by
  induction bytes with
  | nil => rfl
  | cons b bytes ih =>
    simp only [Frame.read] at ih
    simp [Frame.read, transduce, Frame.step, ih]

theorem body_read_some {left : ℕ} {bytes : Bytes} (h : bytes.length ≤ left) (hb : bytes ≠ []) :
    (Frame.body (some left)).read bytes =
      (if left = bytes.length then .ended else .body (some (left - bytes.length)), bytes) := by
  induction bytes generalizing left with
  | nil => exact absurd rfl hb
  | cons b bytes ih =>
    have hleft : left ≠ 0 := by
      rintro rfl
      simp at h
    simp only [List.length_cons] at h ⊢
    cases bytes with
    | nil =>
      by_cases hone : left = 1
      · simp [Frame.read, transduce, Frame.step, hone]
      · simp [Frame.read, transduce, Frame.step, hone, hleft]
    | cons b' bytes =>
      have hone : left ≠ 1 := by
        simp only [List.length_cons] at h
        omega
      have hread : (Frame.body (some left)).read (b :: b' :: bytes) =
          (((Frame.body (some (left - 1))).read (b' :: bytes)).1,
            b :: ((Frame.body (some (left - 1))).read (b' :: bytes)).2) := by
        simp [Frame.read, transduce, Frame.step, hone, hleft]
      rw [hread, ih (by omega) (by simp)]
      have hiff : left - 1 = (b' :: bytes).length ↔ left = (b' :: bytes).length + 1 := by omega
      simp only [hiff, show left - 1 - (b' :: bytes).length = left - ((b' :: bytes).length + 1) by
        omega]

end Conclave.Net.Sse
