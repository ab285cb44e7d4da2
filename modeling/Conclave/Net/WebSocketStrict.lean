import Conclave.Net.WebSocketRecv

/-! Which frames a WebSocket takes, beside those it may take. A turn of a call depends on
the bytes at hand only, which are those before the next timeout. -/

namespace Conclave.Net.WebSocket

open Lib

variable {c c' c₁ : Conn} {n : ℕ} {f g : Conn → Turn × Conn} {x : Turn} {frame : Frame}
  {w rest : Bytes}

namespace Conn

/-- The bytes before the next timeout. -/
def front (c : Conn) : Bytes := c.rxRaw ++ (c.reads.takeWhile (· ≠ [])).flatten

/-- The bytes after it. -/
def beyond (c : Conn) : Bytes := (c.reads.dropWhile (· ≠ [])).flatten

/-- The socket with those bytes read, and no others to come. -/
def atHand (c : Conn) : Conn := { c with rxRaw := c.front, reads := [] }

theorem stream_eq (c : Conn) : c.stream = c.front ++ c.beyond := by
  rw [stream, front, beyond, List.append_assoc, ← List.flatten_append,
    List.takeWhile_append_dropWhile]

end Conn

open Conn

/-! ### The bytes at hand -/

theorem fill_front (n : ℕ) (reads : List Bytes) (rx : Bytes) :
    (fill n reads rx).1 = decide (n ≤ (rx ++ (reads.takeWhile (· ≠ [])).flatten).length) ∧
      ((fill n reads rx).1 = true →
        (fill n reads rx).2.2 ++ ((fill n reads rx).2.1.takeWhile (· ≠ [])).flatten =
            rx ++ (reads.takeWhile (· ≠ [])).flatten ∧
          ((fill n reads rx).2.1.dropWhile (· ≠ [])).flatten =
            (reads.dropWhile (· ≠ [])).flatten) := by
  induction reads generalizing rx with
  | nil => simp [fill]
  | cons read reads ih =>
    unfold fill
    split_ifs with hn hempty
    · refine ⟨(decide_eq_true ?_).symm, fun _ => ⟨rfl, rfl⟩⟩
      rw [List.length_append]
      omega
    · subst hempty
      simpa using hn
    · have htake : (read :: reads).takeWhile (· ≠ []) = read :: reads.takeWhile (· ≠ []) :=
        List.takeWhile_cons_of_pos (by simpa using hempty)
      have hdrop : (read :: reads).dropWhile (· ≠ []) = reads.dropWhile (· ≠ []) :=
        List.dropWhile_cons_of_pos (by simpa using hempty)
      rw [htake, hdrop, List.flatten_cons, ← List.append_assoc]
      exact ih (rx ++ read)

/-- A part of a call that goes by the bytes at hand. -/
structure Prompt (f : Conn → Turn × Conn) (c : Conn) : Prop where
  quiet : ∀ c', f c = (.quiet, c') → (f c.atHand).1 = .quiet
  other : ∀ x c', f c = (x, c') → x ≠ .quiet → f c.atHand = (x, c'.atHand) ∧ c'.beyond = c.beyond

theorem prompt_done (o : Outcome) (c : Conn) : Prompt (fun c => (.done o, c)) c := by
  constructor
  · intro c' h
    cases h
  · rintro x c' h -
    cases h
    exact ⟨rfl, rfl⟩

/-- More bytes make no difference to the function. -/
theorem Prompt.congr (h : Prompt g c) (heq : ∀ c₂, c.rxRaw <+: c₂.rxRaw → f c₂ = g c₂) :
    Prompt f c := by
  have hc : f c = g c := heq c List.prefix_rfl
  have hat : f c.atHand = g c.atHand := heq c.atHand (List.prefix_append _ _)
  constructor
  · intro c' hf
    rw [hat]
    exact h.quiet c' (hc ▸ hf)
  · intro x c' hf hx
    rw [hat]
    exact h.other x c' (hc ▸ hf) hx

/-- A loop that waits for bytes, and what comes after it. -/
theorem prompt_fill (hg : ∀ c₁, n ≤ c₁.rxRaw.length → c.rxRaw <+: c₁.rxRaw → Prompt g c₁) :
    Prompt (fun c => match c.fill n with
      | (false, c) => (.quiet, c)
      | (true, c) => g c) c := by
  obtain ⟨hready, hkept⟩ := fill_front n c.reads c.rxRaw
  have hat : c.atHand.fill n = (decide (n ≤ c.front.length), c.atHand) := fill_of_reads_nil rfl
  cases hfill : c.fill n with
  | mk b c₁ =>
    have hb : b = decide (n ≤ c.front.length) := (congrArg Prod.fst hfill).symm.trans hready
    cases b with
    | false =>
      constructor
      · intro c' _
        simp only [hat, ← hb]
      · intro x c' h hx
        simp only [hfill, Prod.mk.injEq] at h
        exact absurd h.1.symm hx
    | true =>
      obtain ⟨hgrew, hle⟩ := fill_true hfill
      have hprompt := hg c₁ hle hgrew.rx
      obtain ⟨hfront, hbeyond⟩ := hkept (congrArg Prod.fst hfill)
      have hc₁ : c₁ = (c.fill n).2 := (congrArg Prod.snd hfill).symm
      have hsame : c₁.atHand = c.atHand := by
        rw [hc₁]
        simp only [Conn.fill, atHand, front, hfront]
      have hrest : c₁.beyond = c.beyond := by
        rw [hc₁]
        exact hbeyond
      constructor
      · intro c' h
        simp only [hfill] at h
        simp only [hat, ← hb]
        rw [← hsame]
        exact hprompt.quiet c' h
      · intro x c' h hx
        simp only [hfill] at h
        simp only [hat, ← hb]
        rw [← hsame, ← hrest]
        exact hprompt.other x c' h hx

theorem prompt_taken (fin : Bool) (op off len : ℕ) (hle : off + len ≤ c.rxRaw.length) :
    Prompt (Conn.taken fin op off len) c := by
  constructor
  · intro c' h
    exact absurd (congrArg Prod.fst h) handle_ne_quiet
  · intro x c' h _
    have hpayload : (c.atHand.rxRaw.drop off).take len = (c.rxRaw.drop off).take len :=
      take_of_isPrefix (List.prefix_append _ _) hle
    have hdrop : c.atHand.rxRaw.drop (off + len) =
        c.rxRaw.drop (off + len) ++ (c.reads.takeWhile (· ≠ [])).flatten :=
      List.drop_append_of_le_length hle
    have hframe := @handle_frame { c with rxRaw := c.rxRaw.drop (off + len) }
      fin op ((c.rxRaw.drop off).take len)
      (c.rxRaw.drop (off + len) ++ (c.reads.takeWhile (· ≠ [])).flatten) []
    have hrx := @handle_rx { c with rxRaw := c.rxRaw.drop (off + len) }
      fin op ((c.rxRaw.drop off).take len)
    rw [Conn.taken] at h
    rw [h] at hframe hrx
    obtain ⟨hrx, hreads⟩ := hrx
    dsimp only at hrx hreads hframe
    rw [Conn.taken, hpayload, hdrop]
    refine ⟨hframe.trans ?_, by rw [beyond, hreads, beyond]⟩
    rw [atHand, front, hrx, hreads]

theorem prompt_rules : Rules Prompt where
  done := prompt_done
  fill _ _ _ hg := prompt_fill fun c₁ hle hrx => hg c₁ hrx hle
  congr _ _ _ h heq := h.congr heq
  taken fin op off len _ hle := prompt_taken fin op off len hle

theorem prompt_turn (c : Conn) : Prompt Conn.turn c := prompt_rules.turn c

/-! ### Frames at the front -/

theorem body_wire {off : ℕ} {fin : Bool} {op : ℕ} {payload : Bytes} (hc : c.reads = [])
    (hlen : (c.rxRaw.drop off).take payload.length = payload)
    (hdrop : c.rxRaw.drop (off + payload.length) = rest)
    (hroom : off + payload.length ≤ c.rxRaw.length) :
    c.body fin op false off payload.length = if 2 ^ 64 ≤ off + payload.length
      then (.done .panic, c) else ({ c with rxRaw := rest } : Conn).handle fin op payload := by
  unfold Conn.body
  rw [if_neg Bool.noConfusion]
  split_ifs with hsize
  · rfl
  · simp only [fill_of_reads_nil hc, decide_eq_true hroom, hlen, hdrop]

/-- A frame at the front of the bytes is handled, unless it is too long to be counted. -/
theorem turn_wire (hc : c.reads = []) (hw : Wire frame w) (hrx : c.rxRaw = w ++ rest) :
    c.turn = if 2 ^ 64 ≤ w.length then (.done .panic, c)
      else ({ c with rxRaw := rest } : Conn).handle frame.fin frame.op frame.payload := by
  obtain ⟨fin, op, payload⟩ := frame
  have hfirst : ∀ b0 : UInt8, b0.toNat = (if fin then 128 else 0) + op → op < 16 →
      b0.toNat / 16 % 8 = 0 ∧ decide (b0.toNat / 128 ≠ 0) = fin ∧ b0.toNat % 16 = op := by
    intro b0 h0 hop
    cases fin
    · simp only [Bool.false_eq_true, if_false] at h0
      exact ⟨by omega, decide_eq_false (by omega), by omega⟩
    · simp only [if_true] at h0
      exact ⟨by omega, decide_eq_true (by omega), by omega⟩
  cases hw with
  | @short b0 b1 h0 hop h1 hlen =>
    obtain ⟨hrsv, hfin, hop'⟩ := hfirst b0 h0 hop
    dsimp only at h1 hlen
    have hall : c.rxRaw.length = 2 + (payload ++ rest).length := by
      rw [hrx]
      simp only [List.length_append, List.length_cons]
      omega
    have hbody := @body_wire c rest 2 fin op payload hc (by rw [hrx]; simp)
      (by rw [hrx, Nat.add_comm]; simp) (by rw [hall, List.length_append]; omega)
    rw [Conn.turn, fill_of_reads_nil hc]
    simp only [decide_eq_true (show 2 ≤ c.rxRaw.length by omega)]
    have hb0 : c.rxRaw.getD 0 0 = b0 := by rw [hrx]; rfl
    have hb1 : c.rxRaw.getD 1 0 = b1 := by rw [hrx]; rfl
    simp only [Conn.header, hb0, hb1, hrsv]
    rw [if_neg (by simp), if_neg (by omega), if_neg (by omega), hfin, hop',
      decide_eq_false (by omega), show b1.toNat % 128 = payload.length by omega, hbody,
      Nat.add_comm 2]
    rfl
  | @medium b0 b1 ext h0 hop h1 hext hlen =>
    obtain ⟨hrsv, hfin, hop'⟩ := hfirst b0 h0 hop
    dsimp only at hlen
    have hall : c.rxRaw.length = 4 + (payload ++ rest).length := by
      rw [hrx]
      simp only [List.length_append, List.length_cons, hext]
      omega
    have hext' : (c.rxRaw.drop 2).take 2 = ext := by
      rw [hrx]
      simp only [List.append_assoc, List.cons_append, List.drop_succ_cons, List.drop_zero]
      rw [← hext, List.take_left]
    have hbody := @body_wire c rest 4 fin op payload hc
      (by rw [hrx, show 4 = (b0 :: b1 :: ext).length by simp [hext], List.append_assoc,
        List.drop_left, List.take_left])
      (by rw [hrx, show 4 + payload.length = (b0 :: b1 :: ext ++ payload).length by
        simp [hext]; omega, List.drop_left])
      (by rw [hall, List.length_append]; omega)
    rw [Conn.turn, fill_of_reads_nil hc]
    simp only [decide_eq_true (show 2 ≤ c.rxRaw.length by omega)]
    have hb0 : c.rxRaw.getD 0 0 = b0 := by rw [hrx]; rfl
    have hb1 : c.rxRaw.getD 1 0 = b1 := by rw [hrx]; rfl
    simp only [Conn.header, hb0, hb1, hrsv]
    rw [if_neg (by simp), if_pos (by omega), fill_of_reads_nil hc]
    simp only [decide_eq_true (show 4 ≤ c.rxRaw.length by omega)]
    rw [hext', hlen, hfin, hop', decide_eq_false (by omega), hbody]
    simp only [List.length_append, List.length_cons, hext]
  | @long b0 b1 ext h0 hop h1 hext hlen =>
    obtain ⟨hrsv, hfin, hop'⟩ := hfirst b0 h0 hop
    dsimp only at hlen
    have hall : c.rxRaw.length = 10 + (payload ++ rest).length := by
      rw [hrx]
      simp only [List.length_append, List.length_cons, hext]
      omega
    have hext' : (c.rxRaw.drop 2).take 8 = ext := by
      rw [hrx]
      simp only [List.append_assoc, List.cons_append, List.drop_succ_cons, List.drop_zero]
      rw [← hext, List.take_left]
    have hbody := @body_wire c rest 10 fin op payload hc
      (by rw [hrx, show 10 = (b0 :: b1 :: ext).length by simp [hext], List.append_assoc,
        List.drop_left, List.take_left])
      (by rw [hrx, show 10 + payload.length = (b0 :: b1 :: ext ++ payload).length by
        simp [hext]; omega, List.drop_left])
      (by rw [hall, List.length_append]; omega)
    rw [Conn.turn, fill_of_reads_nil hc]
    simp only [decide_eq_true (show 2 ≤ c.rxRaw.length by omega)]
    have hb0 : c.rxRaw.getD 0 0 = b0 := by rw [hrx]; rfl
    have hb1 : c.rxRaw.getD 1 0 = b1 := by rw [hrx]; rfl
    simp only [Conn.header, hb0, hb1, hrsv]
    rw [if_neg (by simp), if_neg (by omega), if_pos (by omega), fill_of_reads_nil hc]
    simp only [decide_eq_true (show 10 ≤ c.rxRaw.length by omega)]
    rw [hext', hlen, hfin, hop', decide_eq_false (by omega), hbody]
    simp only [List.length_append, List.length_cons, hext]

/-! ### Lengths that cannot be counted -/

/-- An unmasked header with a length so close to `2 ^ 64` that adding the ten bytes of the
header overflows. -/
def Oversized (bytes : Bytes) : Prop :=
  ∃ b0 b1 ext rest, bytes = b0 :: b1 :: ext ++ rest ∧ b0.toNat / 16 % 8 = 0 ∧ b1.toNat = 127 ∧
    ext.length = 8 ∧ 2 ^ 64 - 10 ≤ beNat ext

theorem decodeDataFrame_ne_panic (op : ℕ) (payload : Bytes) :
    decodeDataFrame op payload ≠ .panic := by
  unfold decodeDataFrame
  cases fromUtf8 payload <;> split_ifs <;> exact nofun

theorem decodeClose_ne_panic (payload : Bytes) : decodeClose payload ≠ .panic := by
  match payload with
  | [] => exact nofun
  | [_] => exact nofun
  | a :: b :: reason =>
    unfold decodeClose
    dsimp only
    cases fromUtf8 reason <;> split_ifs <;> exact nofun

theorem handle_ne_panic {fin : Bool} {op : ℕ} {payload : Bytes} :
    (c.handle fin op payload).1 ≠ .done .panic := by
  have hdata : ∀ op payload, Turn.done (decodeDataFrame op payload) ≠ .done .panic :=
    fun op payload h => decodeDataFrame_ne_panic op payload (Turn.done.inj h)
  have hclose : ∀ payload, Turn.done (decodeClose payload) ≠ .done .panic :=
    fun payload h => decodeClose_ne_panic payload (Turn.done.inj h)
  obtain ⟨rx, opcode, fragments, reads⟩ := c
  cases opcode <;> cases fin <;>
    (simp only [Conn.handle]
     split_ifs <;> first | exact hdata _ _ | exact hclose _ | (intro h; cases h))

theorem body_panic {fin masked : Bool} {op off len : ℕ} :
    (c.body fin op masked off len).1 = .done .panic ↔ masked = false ∧ 2 ^ 64 ≤ off + len := by
  unfold Conn.body
  split_ifs with hmasked hsize
  · simp [hmasked]
  · simpa [hmasked] using hsize
  · constructor
    · intro h
      cases hfill : c.fill (off + len) with
      | mk b c₁ =>
        cases b with
        | false => simp [hfill] at h
        | true =>
          simp only [hfill] at h
          exact absurd h handle_ne_panic
    · exact fun h => absurd h.2 hsize

theorem turn_panic (hc : c.reads = []) : c.turn.1 = .done .panic ↔ Oversized c.rxRaw := by
  rw [Conn.turn, fill_of_reads_nil hc]
  constructor
  · intro h
    revert h
    rcases hrx : c.rxRaw with _ | ⟨b0, _ | ⟨b1, tail⟩⟩
    · intro h
      simp at h
    · intro h
      simp at h
    · intro h
      have hb1 := b1.toNat_lt
      simp only [List.length_cons, decide_eq_true (show 2 ≤ tail.length + 1 + 1 by omega),
        Conn.header, hrx, List.getD_cons_zero, List.getD_cons_succ] at h
      split_ifs at h with hrsv h126 h127
      · cases h
      · rw [fill_of_reads_nil hc] at h
        by_cases hlong : 4 ≤ c.rxRaw.length
        · simp only [decide_eq_true hlong, body_panic] at h
          have hlt := beNat_lt ((c.rxRaw.drop 2).take 2)
          have hle : 8 * ((c.rxRaw.drop 2).take 2).length ≤ 16 := by
            rw [List.length_take]
            omega
          have hpow := Nat.pow_le_pow_right (show 2 > 0 by omega) hle
          omega
        · simp [decide_eq_false hlong] at h
      · rw [fill_of_reads_nil hc] at h
        by_cases hlong : 10 ≤ c.rxRaw.length
        · simp only [decide_eq_true hlong, body_panic, decide_eq_false_iff_not] at h
          rw [hrx, List.length_cons, List.length_cons] at hlong
          refine ⟨b0, b1, tail.take 8, tail.drop 8, by simp, not_not.mp hrsv, by omega,
            by rw [List.length_take]; omega, ?_⟩
          rw [hrx] at h
          simp only [List.drop_succ_cons, List.drop_zero] at h
          omega
        · simp [decide_eq_false hlong] at h
      · rw [body_panic] at h
        omega
  · rintro ⟨b0, b1, ext, rest, hrx, hrsv, h1, hext, hsize⟩
    have hb0 : c.rxRaw.getD 0 0 = b0 := by rw [hrx]; rfl
    have hb1 : c.rxRaw.getD 1 0 = b1 := by rw [hrx]; rfl
    have hlen : 10 ≤ c.rxRaw.length := by
      rw [hrx]
      simp only [List.length_append, List.length_cons, hext]
      omega
    have hext' : (c.rxRaw.drop 2).take 8 = ext := by
      rw [hrx]
      simp only [List.cons_append, List.drop_succ_cons, List.drop_zero]
      rw [← hext, List.take_left]
    simp only [decide_eq_true (show 2 ≤ c.rxRaw.length by omega), Conn.header, hb0, hb1, hrsv]
    rw [if_neg (by simp), if_neg (by omega), if_pos (by omega), fill_of_reads_nil hc]
    simp only [decide_eq_true hlen, body_panic, hext', decide_eq_false_iff_not]
    omega

/-! ### What is taken -/

/-- A fragment is kept, or a message delivered. -/
def Turn.takes : Turn → Bool
  | .again | .done (.frame _) => true
  | _ => false

def DataOk (op : ℕ) (payload : Bytes) : Prop :=
  op = opText ∧ (fromUtf8 payload).isSome ∨ op = opBinary

def CloseOk : Bytes → Prop
  | [] => True
  | [_] => False
  | a :: b :: reason => validCode (be16 a b) ∧ (fromUtf8 reason).isSome

/-- The frames with contents that are taken, where they stand. -/
inductive Welcome (c : Conn) : Frame → Prop
  | ping {fin : Bool} {payload : Bytes} : Welcome c ⟨fin, opPing, payload⟩
  | pong {fin : Bool} {payload : Bytes} : Welcome c ⟨fin, opPong, payload⟩
  | close {fin : Bool} {payload : Bytes} : CloseOk payload → Welcome c ⟨fin, opClose, payload⟩
  | single {op : ℕ} {payload : Bytes} : c.fragmentOpcode = none → DataOk op payload →
    Welcome c ⟨true, op, payload⟩
  | first {op : ℕ} {payload : Bytes} : op = opText ∨ op = opBinary → c.fragmentOpcode = none →
    Welcome c ⟨false, op, payload⟩
  | more {op : ℕ} {payload : Bytes} : c.fragmentOpcode = some op → Welcome c ⟨false, opCont, payload⟩
  | last {op : ℕ} {payload : Bytes} : c.fragmentOpcode = some op →
    DataOk op (c.fragmentPayload ++ payload) → Welcome c ⟨true, opCont, payload⟩

theorem takes_decodeDataFrame {op : ℕ} {payload : Bytes} :
    (Turn.done (decodeDataFrame op payload)).takes = true ↔ DataOk op payload := by
  unfold decodeDataFrame DataOk
  split_ifs with htext hbinary
  · cases fromUtf8 payload <;> simp [Turn.takes, htext, opText, opBinary]
  · simp [Turn.takes, hbinary]
  · simp [Turn.takes, htext, hbinary]

theorem takes_decodeClose {payload : Bytes} :
    (Turn.done (decodeClose payload)).takes = true ↔ CloseOk payload := by
  match payload with
  | [] => simp [decodeClose, Turn.takes, CloseOk]
  | [_] => simp [decodeClose, Turn.takes, CloseOk]
  | a :: b :: reason =>
    unfold decodeClose CloseOk
    dsimp only
    split_ifs with hcode
    · cases fromUtf8 reason <;> simp [Turn.takes, hcode]
    · simp [Turn.takes, hcode]

theorem handle_takes :
    (c.handle frame.fin frame.op frame.payload).1.takes = true ↔ Welcome c frame := by
  constructor
  · intro h
    obtain ⟨fin, op, payload⟩ := frame
    unfold Conn.handle at h
    dsimp only at h
    by_cases hcont : op = opCont
    · subst hcont
      rw [if_pos (by tauto), if_pos rfl] at h
      cases hop : c.fragmentOpcode with
      | none =>
        rw [hop] at h
        cases h
      | some op =>
        cases fin with
        | true =>
          simp only [hop] at h
          exact .last hop (takes_decodeDataFrame.mp h)
        | false => exact .more hop
    · rw [if_neg hcont] at h
      split_ifs at h with hdata hwhole hpart hping hpong hclose
      · obtain ⟨rfl, hnone⟩ := hwhole
        exact .single (by simpa using hnone) (takes_decodeDataFrame.mp h)
      · obtain ⟨hfin, hnone⟩ := hpart
        obtain rfl := Bool.eq_false_iff.mpr hfin
        exact .first (hdata.imp_right fun h => h.resolve_right hcont) (by simpa using hnone)
      · cases h
      · exact hping ▸ .ping
      · exact hpong ▸ .pong
      · exact hclose ▸ .close (takes_decodeClose.mp h)
      · cases h
  · intro h
    cases h with
    | ping => rfl
    | pong => rfl
    | close hok => exact takes_decodeClose.mpr hok
    | @single op payload hnone hok =>
      have hdata : op = opText ∨ op = opBinary := hok.imp_left And.left
      have hcont : op ≠ opCont := by
        rcases hdata with rfl | rfl <;> decide
      unfold Conn.handle
      rw [if_pos (by tauto), if_neg hcont, if_pos ⟨rfl, by rw [hnone]; rfl⟩]
      exact takes_decodeDataFrame.mpr hok
    | @first op payload hdata hnone =>
      have hcont : op ≠ opCont := by
        rcases hdata with rfl | rfl <;> decide
      unfold Conn.handle
      rw [if_pos (by tauto), if_neg hcont, if_neg nofun, if_pos ⟨nofun, by rw [hnone]; rfl⟩]
      rfl
    | more hop =>
      unfold Conn.handle
      rw [if_pos (by tauto), if_pos rfl, hop]
      rfl
    | last hop hok =>
      unfold Conn.handle
      rw [if_pos (by tauto), if_pos rfl, hop]
      exact takes_decodeDataFrame.mpr hok

/-! ### What may be taken -/

/-- The length of a frame is in the shortest form, and its top bit is clear. -/
def Minimal (frame : Frame) (w : Bytes) : Prop :=
  w.length = 2 + frame.payload.length ∨
    w.length = 4 + frame.payload.length ∧ 126 ≤ frame.payload.length ∨
    w.length = 10 + frame.payload.length ∧ 2 ^ 16 ≤ frame.payload.length ∧
      frame.payload.length < 2 ^ 63

/-- A control frame is not fragmented, and short. -/
def Strict (frame : Frame) (w : Bytes) : Prop :=
  (8 ≤ frame.op → frame.fin = true ∧ frame.payload.length ≤ 125) ∧ Minimal frame w

/-- The frames of RFC 6455, section 5, where a message has been started or has not. -/
structure Legal (started : Bool) (frame : Frame) (w : Bytes) : Prop where
  strict : Strict frame w
  continuation : frame.op = opCont → started = true
  data : frame.op = opText ∨ frame.op = opBinary → started = false

/-- The turn takes the frame off the bytes at hand. -/
structure Takes (c : Conn) (frame : Frame) (w : Bytes) : Prop where
  wire : Wire frame w
  front : c.front = w ++ c.turn.2.front
  takes : c.turn.1.takes = true

/-- No panic, and nothing is taken but what may be. -/
structure Safe (c : Conn) : Prop where
  panics : c.turn.1 ≠ .done .panic
  legal : ∀ frame w, Takes c frame w → Legal c.fragmentOpcode.isSome frame w

/-- A length that cannot be counted, or a frame to be taken in a form it may not have. -/
inductive Lax (c : Conn) : Prop
  | oversized : Oversized c.front → Lax c
  | loose {frame : Frame} {w rest : Bytes} : c.front = w ++ rest → Wire frame w →
    Welcome c frame → ¬ Strict frame w → Lax c

theorem Welcome.legal (h : Welcome c frame) (hstrict : Strict frame w) :
    Legal c.fragmentOpcode.isSome frame w := by
  refine ⟨hstrict, fun hcont => ?_, fun hdata => ?_⟩
  · cases h with
    | single hnone hok => rcases hok with ⟨rfl, -⟩ | rfl <;> cases hcont
    | first hdata hnone => rcases hdata with rfl | rfl <;> cases hcont
    | more hop | last hop => rw [hop]; rfl
    | _ => cases hcont
  · cases h with
    | single hnone | first _ hnone => rw [hnone]; rfl
    | _ => rcases hdata with hdata | hdata <;> cases hdata

theorem Welcome.congr (h : Welcome c frame) (hop : c'.fragmentOpcode = c.fragmentOpcode)
    (hpayload : c'.fragmentPayload = c.fragmentPayload) : Welcome c' frame := by
  cases h with
  | ping => exact .ping
  | pong => exact .pong
  | close hok => exact .close hok
  | single hnone hok => exact .single (hop.trans hnone) hok
  | first hdata hnone => exact .first hdata (hop.trans hnone)
  | more hsome => exact .more (hop.trans hsome)
  | last hsome hok => exact .last (hop.trans hsome) (hpayload ▸ hok)

theorem turn_atHand (c : Conn) : c.atHand.turn.1 = c.turn.1 ∧
    (c.turn.1 ≠ .quiet → c.atHand.turn = (c.turn.1, c.turn.2.atHand) ∧
      c.turn.2.beyond = c.beyond) := by
  by_cases hquiet : c.turn.1 = .quiet
  · rw [hquiet]
    exact ⟨(prompt_turn c).quiet c.turn.2 (Prod.ext hquiet rfl), fun h => absurd rfl h⟩
  · obtain ⟨hturn, hbeyond⟩ := (prompt_turn c).other c.turn.1 c.turn.2 rfl hquiet
    exact ⟨by rw [hturn], fun _ => ⟨hturn, hbeyond⟩⟩

/-- A frame at the front is what the turn is about. -/
theorem turn_front (hw : Wire frame w) (hfront : c.front = w ++ rest) (hlen : w.length < 2 ^ 64) :
    (c.turn.1, c.turn.2.atHand) =
      ({ c.atHand with rxRaw := rest } : Conn).handle frame.fin frame.op frame.payload := by
  have hturn := @turn_wire c.atHand frame w rest rfl hw hfront
  rw [if_neg (by omega)] at hturn
  obtain ⟨hsame, hother⟩ := turn_atHand c
  have hne : c.turn.1 ≠ .quiet := by
    rw [← hsame, hturn]
    exact handle_ne_quiet
  rw [← (hother hne).1, hturn]

theorem turn_front_panic (hw : Wire frame w) (hfront : c.front = w ++ rest)
    (hlen : 2 ^ 64 ≤ w.length) : c.turn.1 = .done .panic := by
  have hturn := @turn_wire c.atHand frame w rest rfl hw hfront
  rw [if_pos hlen] at hturn
  rw [← (turn_atHand c).1, hturn]

theorem turn_panic_iff : c.turn.1 = .done .panic ↔ Oversized c.front := by
  rw [← (turn_atHand c).1, turn_panic rfl]
  rfl

theorem front_of_atHand {c₁ : Conn} (h : c'.atHand =
    ((c₁.handle frame.fin frame.op frame.payload).2 : Conn)) : c'.front = c₁.rxRaw := by
  have hfront : c'.front = c'.atHand.rxRaw := rfl
  rw [hfront, h]
  exact handle_rx.1

/-- A turn is safe unless the bytes at hand begin with a length that cannot be counted or
with a frame to be taken in a form it may not have. -/
theorem safe_iff (c : Conn) : Safe c ↔ ¬ Lax c := by
  constructor
  · rintro ⟨hpanic, hlegal⟩ hlax
    cases hlax with
    | oversized hover => exact hpanic (turn_panic_iff.mpr hover)
    | @loose frame w rest hfront hw hwelcome hloose =>
      rcases Nat.lt_or_ge w.length (2 ^ 64) with hlen | hlen
      · have hturn := turn_front hw hfront hlen
        have htakes : c.turn.1.takes = true := by
          rw [congrArg Prod.fst hturn]
          exact handle_takes.mpr (hwelcome.congr rfl rfl)
        have hrest : c.turn.2.front = rest :=
          @front_of_atHand c.turn.2 frame _ (congrArg Prod.snd hturn)
        exact hloose (hlegal frame w ⟨hw, by rw [hrest, hfront], htakes⟩).strict
      · exact hpanic (turn_front_panic hw hfront hlen)
  · intro hlax
    refine ⟨fun hpanic => hlax (.oversized (turn_panic_iff.mp hpanic)), ?_⟩
    rintro frame w ⟨hw, hfront, htakes⟩
    have hlen : w.length < 2 ^ 64 := by
      by_contra hlen
      rw [turn_front_panic hw hfront (by omega)] at htakes
      cases htakes
    have hturn := turn_front hw hfront hlen
    rw [congrArg Prod.fst hturn, handle_takes] at htakes
    have hwelcome : Welcome c frame := htakes.congr rfl rfl
    exact hwelcome.legal (by_contra fun hloose => hlax (.loose hfront hw hwelcome hloose))

/-! ### Runs -/

/-- The socket after so many turns, in however many calls. -/
def Conn.after (k : ℕ) (c : Conn) : Conn := (fun c => c.turn.2)^[k] c

abbrev Log := List (Frame × Bytes)

/-- A message has been started and is not complete. -/
def started (log : Log) : Bool :=
  log.foldl (fun b p => if p.1.op = opText ∨ p.1.op = opBinary then b || !p.1.fin
    else if p.1.op = opCont then b && !p.1.fin else b) false

/-- A data frame within a message. -/
def Interrupts (c : Conn) : Prop :=
  c.fragmentOpcode.isSome ∧ ∃ frame w rest, c.front = w ++ rest ∧ Wire frame w ∧
    (frame.op = opText ∨ frame.op = opBinary)

/-- What may stand between the fragments of a message. -/
def Between (p : Frame × Bytes) : Prop :=
  p.1.op ≠ opText ∧ p.1.op ≠ opBinary ∧ (p.1.op = opCont → p.1.fin = false ∧ Strict p.1 p.2)

/-- The fragments of a message that is not complete. -/
structure Fragments (log : Log) (op : ℕ) (payload : Bytes) : Prop where
  data : op = opText ∨ op = opBinary
  split : ∃ before first w between, log = before ++ (⟨false, op, first⟩, w) :: between ∧
    started before = false ∧ Strict ⟨false, op, first⟩ w ∧ (∀ p ∈ between, Between p) ∧
    payload = first ++ ((between.map Prod.fst).filter isCont).flatMap Frame.payload

/-- The last frame of the log completes a message of these contents, of frames that may
be taken: a frame of its own, or the last of the fragments. -/
inductive Completes : Log → ℕ × Bytes → Prop
  | whole {before : Log} {op : ℕ} {payload w : Bytes} : op ≠ opCont →
    Legal (started before) ⟨true, op, payload⟩ w →
    Completes (before ++ [(⟨true, op, payload⟩, w)]) (op, payload)
  | fragments {before : Log} {op : ℕ} {payload last w : Bytes} : Fragments before op payload →
    Strict ⟨true, opCont, last⟩ w →
    Completes (before ++ [(⟨true, opCont, last⟩, w)]) (op, payload ++ last)

/-- The opcode and the payload of the frame that a message comes in. -/
def WsFrame.content : WsFrame → ℕ × Bytes
  | .text s => (opText, utf8 s)
  | .binary b => (opBinary, b)
  | .ping b => (opPing, b)
  | .pong b => (opPong, b)
  | .close code reason => (opClose, if code = 1005 then [] else toBe 2 code ++ utf8 reason)

/-- The frames taken off the stream so far, and what the socket knows of them. -/
structure Logged (stream : Bytes) (c : Conn) (log : Log) : Prop where
  wires : ∀ p ∈ log, Wire p.1 p.2
  stream : stream = (log.flatMap Prod.snd) ++ c.stream
  started : c.fragmentOpcode.isSome = started log
  pending : ∀ op, c.fragmentOpcode = some op → Fragments log op c.fragmentPayload

theorem started_append (log : Log) (frame : Frame) (w : Bytes) : started (log ++ [(frame, w)]) =
    if frame.op = opText ∨ frame.op = opBinary then started log || !frame.fin
    else if frame.op = opCont then started log && !frame.fin else started log := by
  rw [started, List.foldl_append]
  rfl

/-- A frame that is no part of the message passes between its fragments. -/
theorem Fragments.pass {log : Log} {op : ℕ} {payload : Bytes} (h : Fragments log op payload)
    {frame : Frame} (hdata : ¬ (frame.op = opText ∨ frame.op = opBinary ∨ frame.op = opCont))
    (w : Bytes) : Fragments (log ++ [(frame, w)]) op payload := by
  obtain ⟨hop, before, first, w₀, between, rfl, hstarted, hstrict, hbetween, rfl⟩ := h
  have hcont : isCont frame = false := beq_false_of_ne fun hc => hdata (.inr (.inr hc))
  refine ⟨hop, before, first, w₀, between ++ [(frame, w)], by simp, hstarted, hstrict, ?_, ?_⟩
  · intro p hp
    rcases List.mem_append.mp hp with hp | hp
    · exact hbetween p hp
    · rw [List.mem_singleton.mp hp]
      exact ⟨fun hc => hdata (.inl hc), fun hc => hdata (.inr (.inl hc)),
        fun hc => absurd (.inr (.inr hc)) hdata⟩
  · simp [hcont]

theorem Fragments.more {log : Log} {op : ℕ} {payload : Bytes} (h : Fragments log op payload)
    {more w : Bytes} (hstrict : Strict ⟨false, opCont, more⟩ w) :
    Fragments (log ++ [(⟨false, opCont, more⟩, w)]) op (payload ++ more) := by
  obtain ⟨hop, before, first, w₀, between, rfl, hstarted, hfirst, hbetween, rfl⟩ := h
  refine ⟨hop, before, first, w₀, between ++ [(⟨false, opCont, more⟩, w)], by simp, hstarted,
    hfirst, ?_, ?_⟩
  · intro p hp
    rcases List.mem_append.mp hp with hp | hp
    · exact hbetween p hp
    · rw [List.mem_singleton.mp hp]
      exact ⟨nofun, nofun, fun _ => ⟨rfl, hstrict⟩⟩
  · simp [isCont]

theorem content_decodeDataFrame {op : ℕ} {payload : Bytes} {m : WsFrame}
    (h : decodeDataFrame op payload = .frame m) : m.content = (op, payload) := by
  unfold decodeDataFrame at h
  split_ifs at h with htext hbinary
  · cases hs : fromUtf8 payload with
    | none => simp [hs] at h
    | some s =>
      simp only [hs, Outcome.frame.injEq] at h
      rw [← h, WsFrame.content, utf8_of_fromUtf8 hs, htext]
  · obtain rfl := Outcome.frame.inj h
    rw [hbinary]
    rfl

theorem content_decodeClose {payload : Bytes} {m : WsFrame} (h : decodeClose payload = .frame m) :
    m.content = (opClose, payload) := by
  match payload with
  | [] =>
    obtain rfl := Outcome.frame.inj h
    rfl
  | [_] => cases h
  | a :: b :: reason =>
    unfold decodeClose at h
    dsimp only at h
    split_ifs at h with hcode
    cases hs : fromUtf8 reason with
    | none => simp [hs] at h
    | some s =>
      simp only [hs, Outcome.frame.injEq] at h
      have hne : be16 a b ≠ 1005 := by
        intro heq
        rw [heq] at hcode
        exact absurd hcode (by decide)
      rw [← h, WsFrame.content, if_neg hne, utf8_of_fromUtf8 hs, toBe_be16]
      rfl

/-- A frame that is handled keeps the books, and a message it gives is one. -/
theorem handle_logged {log : Log} (hstarted : c.fragmentOpcode.isSome = started log)
    (hpending : ∀ op, c.fragmentOpcode = some op → Fragments log op c.fragmentPayload)
    (hstrict : Welcome c frame → Strict frame w)
    (hno : c.fragmentOpcode.isSome → ¬ (frame.op = opText ∨ frame.op = opBinary))
    (hf : c.handle frame.fin frame.op frame.payload = (x, c')) :
    c'.fragmentOpcode.isSome = started (log ++ [(frame, w)]) ∧
      (∀ op, c'.fragmentOpcode = some op →
        Fragments (log ++ [(frame, w)]) op c'.fragmentPayload) ∧
      ∀ m, x = .done (.frame m) → Completes (log ++ [(frame, w)]) m.content := by
  have hwelcome : x.takes = true → Welcome c frame := by
    intro htakes
    rw [← handle_takes, hf]
    exact htakes
  obtain ⟨fin, op, payload⟩ := frame
  have hwhole : ∀ m, x = .done (.frame m) → op ≠ opCont → fin = true → m.content = (op, payload) →
      Completes (log ++ [(⟨fin, op, payload⟩, w)]) m.content := by
    rintro m hm hcont rfl hcontent
    have hwel : Welcome c ⟨true, op, payload⟩ := hwelcome (by rw [hm]; rfl)
    have hlegal := hwel.legal (hstrict hwel)
    rw [hstarted] at hlegal
    rw [hcontent]
    exact .whole hcont hlegal
  rw [started_append]
  unfold Conn.handle at hf
  dsimp only at hf hno ⊢
  by_cases hcont : op = opCont
  · subst hcont
    rw [if_neg (by decide), if_pos rfl]
    rw [if_pos (by tauto), if_pos rfl] at hf
    cases hop : c.fragmentOpcode with
    | none =>
      simp only [hop, Prod.mk.injEq] at hf
      obtain ⟨rfl, rfl⟩ := hf
      rw [hop] at hstarted
      refine ⟨by rw [hop, ← hstarted]; rfl, fun op hsome => ?_, nofun⟩
      rw [hop] at hsome
      cases hsome
    | some op =>
      have hfrag := hpending op hop
      rw [hop] at hstarted
      simp only [hop] at hf
      cases fin with
      | true =>
        rw [if_pos rfl] at hf
        obtain ⟨rfl, rfl⟩ := Prod.mk.inj hf
        refine ⟨by rw [Bool.not_true, Bool.and_false]; rfl, nofun, fun m hm => ?_⟩
        have hcontent := content_decodeDataFrame (Turn.done.inj hm)
        rw [hcontent]
        exact .fragments hfrag (hstrict (hwelcome (by rw [hm]; rfl)))
      | false =>
        rw [if_neg nofun] at hf
        obtain ⟨rfl, rfl⟩ := Prod.mk.inj hf
        refine ⟨by rw [← hstarted]; rfl, fun op' hop' => ?_, nofun⟩
        obtain rfl := Option.some.inj hop'
        exact hfrag.more (hstrict (hwelcome rfl))
  · rw [if_neg hcont] at hf
    by_cases hdata : op = opText ∨ op = opBinary
    · have hnone : c.fragmentOpcode = none := by
        by_contra hsome
        exact hno (Option.isSome_iff_ne_none.mpr hsome) hdata
      rw [hnone] at hstarted
      rw [if_pos hdata, ← hstarted]
      rw [if_pos (by tauto), hnone] at hf
      cases fin with
      | true =>
        rw [if_pos ⟨rfl, rfl⟩] at hf
        obtain ⟨rfl, rfl⟩ := Prod.mk.inj hf
        refine ⟨by rw [hnone]; rfl, fun op hsome => ?_, fun m hm => ?_⟩
        · rw [hnone] at hsome
          cases hsome
        · exact hwhole m hm hcont rfl (content_decodeDataFrame (Turn.done.inj hm))
      | false =>
        rw [if_neg nofun, if_pos ⟨nofun, rfl⟩] at hf
        obtain ⟨rfl, rfl⟩ := Prod.mk.inj hf
        refine ⟨rfl, fun op' hop' => ?_, nofun⟩
        obtain rfl := Option.some.inj hop'
        exact ⟨hdata, log, payload, w, [], rfl, hstarted.symm, hstrict (hwelcome rfl), nofun,
          by simp⟩
    · have hnone : ¬ (op = opText ∨ op = opBinary ∨ op = opCont) := by tauto
      rw [if_neg hdata, if_neg hcont, ← hstarted]
      rw [if_neg hnone] at hf
      have hpass : c' = c := by
        split_ifs at hf <;> exact (Prod.mk.inj hf).2.symm
      subst hpass
      refine ⟨rfl, fun op hsome => (hpending op hsome).pass hnone w, fun m hm => ?_⟩
      subst hm
      have hcontrol : 8 ≤ op := by
        split_ifs at hf with h₁ h₂ h₃
        · rw [h₁]; decide
        · rw [h₂]; decide
        · rw [h₃]; decide
        · cases hf
      have hfin := ((hstrict (hwelcome rfl)).1 hcontrol).1
      refine hwhole m rfl hcont hfin ?_
      split_ifs at hf with h₁ h₂ h₃
      · obtain rfl := Outcome.frame.inj (Turn.done.inj (Prod.mk.inj hf).1)
        rw [h₁]
        rfl
      · obtain rfl := Outcome.frame.inj (Turn.done.inj (Prod.mk.inj hf).1)
        rw [h₂]
        rfl
      · rw [h₃]
        exact content_decodeClose (Turn.done.inj (Prod.mk.inj hf).1)
      · cases hf

/-- A turn that meets the conditions keeps the books. -/
theorem turn_logged {stream : Bytes} {log : Log} (h : Logged stream c log) (hlax : ¬ Lax c)
    (hno : ¬ Interrupts c) : ∃ log', Logged stream c.turn.2 log' ∧
      ∀ m, c.turn.1 = .done (.frame m) → Completes log' m.content := by
  obtain ⟨hsame, hother⟩ := turn_atHand c
  by_cases hquiet : c.turn.1 = .quiet
  · have hgrew := ((lazy_turn c).quiet c.turn.2 (Prod.ext hquiet rfl)).1
    refine ⟨log, ⟨h.wires, by rw [hgrew.stream]; exact h.stream, ?_, ?_⟩, fun m hm => ?_⟩
    · rw [hgrew.opcode]
      exact h.started
    · rw [hgrew.opcode, hgrew.fragments]
      exact h.pending
    · rw [hquiet] at hm
      cases hm
  · obtain ⟨hturn, hbeyond⟩ := hother hquiet
    rcases turn_handles rfl hturn hquiet with ⟨heq, o, ho, hnoFrame⟩ | ⟨frame, w, rest, hw, hfront, hf⟩
    · obtain ⟨hfront, hop, hpayload, -⟩ := Conn.mk.inj heq
      refine ⟨log, ⟨h.wires, ?_, ?_, ?_⟩, fun m hm => ?_⟩
      · rw [Conn.stream_eq, show c.turn.2.front = c.front from hfront, hbeyond, ← Conn.stream_eq]
        exact h.stream
      · rw [hop]
        exact h.started
      · rw [hop, hpayload]
        exact h.pending
      · rw [ho] at hm
        exact absurd (Turn.done.inj hm) (hnoFrame m)
    · have hwelcome : Welcome ({ c.atHand with rxRaw := rest } : Conn) frame → Strict frame w :=
        fun hwel => by_contra fun hloose => hlax (.loose hfront hw (hwel.congr rfl rfl) hloose)
      obtain ⟨hstarted, hpending, hcompletes⟩ := @handle_logged
        { c.atHand with rxRaw := rest } _ _ frame w log h.started h.pending hwelcome
        (fun hsome hdata => hno ⟨hsome, frame, w, rest, hfront, hw, hdata⟩) hf.symm
      have hrest : c.turn.2.front = rest :=
        @front_of_atHand c.turn.2 frame { c.atHand with rxRaw := rest } (congrArg Prod.snd hf)
      refine ⟨log ++ [(frame, w)], ⟨fun p hp => ?_, ?_, hstarted, hpending⟩, hcompletes⟩
      · rcases List.mem_append.mp hp with hp | hp
        · exact h.wires p hp
        · rw [List.mem_singleton.mp hp]
          exact hw
      · have hstream : c.stream = w ++ c.turn.2.stream := by
          rw [Conn.stream_eq, Conn.stream_eq, hrest, hbeyond, ← List.append_assoc]
          exact congrArg (· ++ c.beyond) hfront
        rw [h.stream, hstream, List.flatMap_append, List.append_assoc]
        simp

theorem after_succ (k : ℕ) (c : Conn) : c.after (k + 1) = (c.after k).turn.2 :=
  Function.iterate_succ_apply' _ _ _

theorem run_logged (hnone : c.fragmentOpcode = none) (k : ℕ)
    (h : ∀ j < k, ¬ Lax (c.after j) ∧ ¬ Interrupts (c.after j)) :
    ∃ log, Logged c.stream (c.after k) log := by
  induction k with
  | zero =>
    refine ⟨[], nofun, rfl, ?_, fun op hop => ?_⟩
    · rw [show c.after 0 = c from rfl, hnone]
      rfl
    · rw [show c.after 0 = c from rfl, hnone] at hop
      cases hop
  | succ k ih =>
    obtain ⟨log, hlog⟩ := ih fun j hj => h j (by omega)
    obtain ⟨hlax, hno⟩ := h k (by omega)
    obtain ⟨log', hlog', -⟩ := turn_logged hlog hlax hno
    exact ⟨log', after_succ k c ▸ hlog'⟩

/-! ### Calls -/

theorem recvLoop_after {r : Option Outcome} (h : c.recvLoop n = (r, c')) :
    ∃ k, c' = c.after k ∧
      ∀ o, r = some o → ∃ j, k = j + 1 ∧ (c.after j).turn = (.done o, c') := by
  induction n generalizing c with
  | zero =>
    obtain ⟨rfl, rfl⟩ := Prod.mk.inj h
    exact ⟨0, rfl, nofun⟩
  | succ n ih =>
    unfold Conn.recvLoop at h
    cases hturn : c.turn with
    | mk x c₁ =>
      have hone : c₁ = c.after 1 := (congrArg Prod.snd hturn).symm
      cases x with
      | quiet =>
        simp only [hturn, Prod.mk.injEq] at h
        obtain ⟨rfl, rfl⟩ := h
        exact ⟨1, hone, nofun⟩
      | done o =>
        simp only [hturn, Prod.mk.injEq] at h
        obtain ⟨rfl, rfl⟩ := h
        refine ⟨1, hone, fun o' ho' => ⟨0, rfl, ?_⟩⟩
        rw [← Option.some.inj ho']
        exact hturn
      | again =>
        simp only [hturn] at h
        obtain ⟨k, hk, ho⟩ := ih h
        have hshift : ∀ j, c₁.after j = c.after (j + 1) := by
          intro j
          rw [hone, Conn.after, Conn.after, Conn.after, ← Function.iterate_add_apply]
        refine ⟨k + 1, by rw [hk, hshift], fun o hr => ?_⟩
        obtain ⟨j, rfl, hj⟩ := ho o hr
        exact ⟨j + 1, rfl, hshift j ▸ hj⟩

theorem recvs_after (n : ℕ) (c : Conn) : ∃ k, (recvs n c).2 = c.after k := by
  induction n generalizing c with
  | zero => exact ⟨0, rfl⟩
  | succ n ih =>
    cases h : c.recv with
    | mk r c' =>
      obtain ⟨j, hj, -⟩ := recvLoop_after h
      obtain ⟨k, hk⟩ := ih c'
      refine ⟨k + j, ?_⟩
      have hsum : c.after (k + j) = c'.after k := by
        rw [hj, Conn.after, Conn.after, Conn.after, Function.iterate_add_apply]
      cases r with
      | none => rw [recvs_succ_of_none h, hk, hsum]
      | some o => rw [recvs_succ_of_some h, hk, hsum]

/-- A turn is safe exactly when no length or frame at hand is lax. In a run of turns that
meet this, and that find no data frame inside a message, there is no panic, and every
message delivered is one of frames that may be taken. The outcomes of calls are those of
their turns. -/
theorem recv_strict (c : Conn) : (Safe c ↔ ¬ Lax c) ∧
    (c.fragmentOpcode = none → ∀ k,
      (∀ j ≤ k, ¬ Lax (c.after j) ∧ ¬ Interrupts (c.after j)) →
        (c.after k).turn.1 ≠ .done .panic ∧
        ∃ log : Log, (∀ p ∈ log, Wire p.1 p.2) ∧
          c.stream = (log.flatMap Prod.snd) ++ (c.after (k + 1)).stream ∧
          ∀ m, (c.after k).turn.1 = .done (.frame m) → Completes log m.content) ∧
    ∀ n o c', (recvs n c).2.recv = (some o, c') →
      ∃ k, (c.after k).turn = (.done o, c') := by
  refine ⟨safe_iff c, fun hnone k h => ?_, fun n o c' hrecv => ?_⟩
  · obtain ⟨log, hlog⟩ := run_logged hnone k fun j hj => h j (by omega)
    obtain ⟨hlax, hno⟩ := h k le_rfl
    obtain ⟨log', hlog', hcompletes⟩ := turn_logged hlog hlax hno
    exact ⟨((safe_iff _).mpr hlax).panics, log', hlog'.wires, after_succ k c ▸ hlog'.stream,
      hcompletes⟩
  · obtain ⟨j, hj⟩ := recvs_after n c
    rw [hj] at hrecv
    obtain ⟨k, -, ho⟩ := recvLoop_after hrecv
    obtain ⟨i, -, hi⟩ := ho o rfl
    refine ⟨i + j, ?_⟩
    rw [Conn.after, Function.iterate_add_apply]
    exact hi

/-- A length next to `2 ^ 64` is added to the length of the header. -/
theorem recv_strict_oversized : ¬ Safe ⟨[0x82, 0x7f, 0xff, 0xff, 0xff, 0xff, 0xff, 0xff, 0xff, 0xff],
    none, [], []⟩ := by
  intro h
  exact h.panics (by decide)

end Conclave.Net.WebSocket
