import Conclave.Net.WebSocket

/-! Receiving does not depend on how the bytes arrive: a call that gives an outcome gives
the one it would give with all the bytes at hand, and a call that runs out of time has
changed nothing that a later call can see. -/

namespace Conclave.Net.WebSocket

open Lib

variable {c c' c₁ c₂ : Conn} {n : ℕ} {f g : Conn → Turn × Conn} {o : Outcome} {x : Turn}
  {fin : Bool} {op : ℕ} {payload : Bytes}

def timeouts (reads : List Bytes) : ℕ := reads.count []

namespace Conn

/-- The socket as it is when the whole stream is there at once. -/
def full (c : Conn) : Conn := { c with rxRaw := c.stream, reads := [] }

/-- Bytes came, and nothing else changed. -/
structure Grew (c c' : Conn) : Prop where
  opcode : c'.fragmentOpcode = c.fragmentOpcode
  fragments : c'.fragmentPayload = c.fragmentPayload
  stream : c'.stream = c.stream
  rx : c.rxRaw <+: c'.rxRaw
  timeouts : timeouts c'.reads ≤ timeouts c.reads

theorem Grew.trans (h : Grew c c₁) (h' : Grew c₁ c₂) : Grew c c₂ :=
  ⟨h'.opcode.trans h.opcode, h'.fragments.trans h.fragments, h'.stream.trans h.stream,
    h.rx.trans h'.rx, h'.timeouts.trans h.timeouts⟩

theorem Grew.full_eq (h : Grew c c') : c'.full = c.full := by
  rw [full, full, h.opcode, h.fragments, h.stream]

/-- The reads are at an end, or a timeout was among those that were used. -/
def Waited (c c' : Conn) : Prop := c'.reads = [] ∨ timeouts c'.reads < timeouts c.reads

theorem Waited.of_grew (h : Grew c c₁) (h' : Waited c₁ c₂) : Waited c c₂ :=
  h'.imp_right fun hlt => hlt.trans_le h.timeouts

end Conn

open Conn

theorem fill_spec (n : ℕ) (reads : List Bytes) (rx : Bytes) :
    ∃ b reads' rx', fill n reads rx = (b, reads', rx') ∧
      rx' ++ reads'.flatten = rx ++ reads.flatten ∧ rx <+: rx' ∧
      timeouts reads' ≤ timeouts reads ∧ (b = true → n ≤ rx'.length) ∧
      (b = false → rx'.length < n ∧ (reads' = [] ∨ timeouts reads' < timeouts reads)) := by
  induction reads generalizing rx with
  | nil =>
    refine ⟨_, _, _, rfl, rfl, List.prefix_rfl, le_rfl, fun h => of_decide_eq_true h, fun h => ?_⟩
    exact ⟨not_le.mp (of_decide_eq_false h), .inl rfl⟩
  | cons read reads ih =>
    unfold fill
    split_ifs with hn hempty
    · exact ⟨_, _, _, rfl, rfl, List.prefix_rfl, le_rfl, fun _ => hn, nofun⟩
    · subst hempty
      refine ⟨_, _, _, rfl, rfl, List.prefix_rfl, List.count_le_count_cons, nofun, fun _ => ?_⟩
      refine ⟨not_le.mp hn, .inr ?_⟩
      rw [timeouts, timeouts, List.count_cons_self]
      exact Nat.lt_succ_self _
    · obtain ⟨b, reads', rx', heq, hstream, hrx, ht, htrue, hfalse⟩ := ih (rx ++ read)
      have hcount : timeouts (read :: reads) = timeouts reads := List.count_cons_of_ne hempty
      refine ⟨b, reads', rx', heq, ?_, (List.prefix_append _ _).trans hrx, hcount ▸ ht, htrue,
        hcount ▸ hfalse⟩
      rw [hstream, List.flatten_cons, List.append_assoc]

theorem fill_true (h : c.fill n = (true, c')) : Grew c c' ∧ n ≤ c'.rxRaw.length := by
  obtain ⟨b, reads', rx', heq, hstream, hrx, ht, htrue, -⟩ := fill_spec n c.reads c.rxRaw
  simp only [Conn.fill, heq, Prod.mk.injEq] at h
  obtain ⟨rfl, rfl⟩ := h
  exact ⟨⟨rfl, rfl, hstream, hrx, ht⟩, htrue rfl⟩

theorem fill_false (h : c.fill n = (false, c')) :
    Grew c c' ∧ c'.rxRaw.length < n ∧ Waited c c' := by
  obtain ⟨b, reads', rx', heq, hstream, hrx, ht, -, hfalse⟩ := fill_spec n c.reads c.rxRaw
  simp only [Conn.fill, heq, Prod.mk.injEq] at h
  obtain ⟨rfl, rfl⟩ := h
  exact ⟨⟨rfl, rfl, hstream, hrx, ht⟩, hfalse rfl⟩

theorem fill_of_reads_nil (h : c.reads = []) : c.fill n = (decide (n ≤ c.rxRaw.length), c) := by
  obtain ⟨rx, opcode, fragments, reads⟩ := c
  subst h
  rfl

theorem le_stream (c : Conn) : c.rxRaw.length ≤ c.full.rxRaw.length := by
  simp [full, stream]

/-- A part of a call that does not look at how the bytes came. -/
structure Lazy (f : Conn → Turn × Conn) (c : Conn) : Prop where
  quiet : ∀ c', f c = (.quiet, c') →
    Grew c c' ∧ Waited c c' ∧ (c'.reads = [] → f c' = (.quiet, c'))
  other : ∀ x c', f c = (x, c') → x ≠ .quiet →
    f c.full = (x, c'.full) ∧ timeouts c'.reads ≤ timeouts c.reads

theorem lazy_done (o : Outcome) (c : Conn) : Lazy (fun c => (.done o, c)) c := by
  constructor
  · intro c' h
    cases h
  · rintro x c' h -
    cases h
    exact ⟨rfl, le_rfl⟩

/-- More bytes make no difference to the function. -/
theorem Lazy.congr (h : Lazy g c) (heq : ∀ c₂, c.rxRaw <+: c₂.rxRaw → f c₂ = g c₂) : Lazy f c := by
  have hc : f c = g c := heq c List.prefix_rfl
  constructor
  · intro c' hf
    obtain ⟨hgrew, hwait, hstop⟩ := h.quiet c' (hc ▸ hf)
    exact ⟨hgrew, hwait, fun hnil => (heq c' hgrew.rx).trans (hstop hnil)⟩
  · intro x c' hf hx
    obtain ⟨hfull, ht⟩ := h.other x c' (hc ▸ hf) hx
    exact ⟨(heq c.full (List.prefix_append _ _)).trans hfull, ht⟩

/-- A loop that waits for bytes, and what comes after it. -/
theorem lazy_fill (hg : ∀ c₁, Grew c c₁ → n ≤ c₁.rxRaw.length → Lazy g c₁) :
    Lazy (fun c => match c.fill n with
      | (false, c) => (.quiet, c)
      | (true, c) => g c) c := by
  cases hfill : c.fill n with
  | mk b c₁ =>
    cases b with
    | false =>
      obtain ⟨hgrew, hlt, hwait⟩ := fill_false hfill
      constructor
      · intro c' h
        simp only [hfill, Prod.mk.injEq, true_and] at h
        subst h
        refine ⟨hgrew, hwait, fun hnil => ?_⟩
        simp only [fill_of_reads_nil hnil, decide_eq_false (not_le.mpr hlt)]
      · intro x c' h hx
        simp only [hfill, Prod.mk.injEq] at h
        exact absurd h.1.symm hx
    | true =>
      obtain ⟨hgrew, hle⟩ := fill_true hfill
      have hlazy := hg c₁ hgrew hle
      constructor
      · intro c' h
        simp only [hfill] at h
        obtain ⟨hgrew', hwait, hstop⟩ := hlazy.quiet c' h
        refine ⟨hgrew.trans hgrew', .of_grew hgrew hwait, fun hnil => ?_⟩
        have hle' : n ≤ c'.rxRaw.length := hle.trans hgrew'.rx.length_le
        simp only [fill_of_reads_nil hnil, decide_eq_true hle', hstop hnil]
      · intro x c' h hx
        simp only [hfill] at h
        obtain ⟨hfull, ht⟩ := hlazy.other x c' h hx
        have hle' : n ≤ c.full.rxRaw.length := by
          rw [← hgrew.full_eq]
          exact hle.trans (le_stream c₁)
        have hreads : c.full.reads = [] := rfl
        simp only [fill_of_reads_nil hreads, decide_eq_true hle']
        exact ⟨hgrew.full_eq ▸ hfull, ht.trans hgrew.timeouts⟩

/-! ### The parts of a call -/

theorem handle_ne_quiet : (c.handle fin op payload).1 ≠ .quiet := by
  obtain ⟨rx, opcode, fragments, reads⟩ := c
  cases opcode <;> cases fin <;>
    (simp only [Conn.handle]
     split_ifs <;> exact nofun)

/-- A frame that was taken off the buffer only touches the fragments. -/
theorem handle_frame (rx : Bytes) (reads : List Bytes) :
    ({ c with rxRaw := rx, reads := reads } : Conn).handle fin op payload =
      ((c.handle fin op payload).1,
        { (c.handle fin op payload).2 with rxRaw := rx, reads := reads }) := by
  obtain ⟨rx₀, opcode, fragments, reads₀⟩ := c
  cases opcode <;> cases fin <;>
    (simp only [Conn.handle]
     split_ifs <;> rfl)

theorem handle_rx : (c.handle fin op payload).2.rxRaw = c.rxRaw ∧
    (c.handle fin op payload).2.reads = c.reads := by
  have h := @handle_frame c fin op payload c.rxRaw c.reads
  have hc : ({ c with rxRaw := c.rxRaw, reads := c.reads } : Conn) = c := rfl
  rw [hc] at h
  rw [congrArg Prod.snd h]
  exact ⟨rfl, rfl⟩

theorem take_of_isPrefix {l l' : Bytes} {off len : ℕ} (h : l <+: l') (hle : off + len ≤ l.length) :
    (l'.drop off).take len = (l.drop off).take len := by
  obtain ⟨w, rfl⟩ := h
  rw [List.drop_append_of_le_length (by omega), List.take_append_of_le_length]
  rw [List.length_drop]
  omega

theorem getD_of_isPrefix {l l' : Bytes} {i : ℕ} (h : l <+: l') (hi : i < l.length) :
    l'.getD i 0 = l.getD i 0 := by
  obtain ⟨w, rfl⟩ := h
  rw [List.getD_append _ _ _ _ hi]

/-- What is left of a call when the frame is there. -/
def Conn.taken (fin : Bool) (op off len : ℕ) (c : Conn) : Turn × Conn :=
  { c with rxRaw := c.rxRaw.drop (off + len) }.handle fin op ((c.rxRaw.drop off).take len)

/-- What a judgement on the parts of a call owes: it holds where a call is done, it looks through
a loop that waits for bytes, more bytes make no difference to it, and it holds of a frame that is
there. -/
structure Rules (P : (Conn → Turn × Conn) → Conn → Prop) : Prop where
  done : ∀ o c, P (fun c => (.done o, c)) c
  fill : ∀ n g c, (∀ c₁, c.rxRaw <+: c₁.rxRaw → n ≤ c₁.rxRaw.length → P g c₁) →
    P (fun c => match c.fill n with
      | (false, c) => (.quiet, c)
      | (true, c) => g c) c
  congr : ∀ f g c, P g c → (∀ c₂, c.rxRaw <+: c₂.rxRaw → f c₂ = g c₂) → P f c
  taken : ∀ fin op off len c, off + len ≤ c.rxRaw.length → P (Conn.taken fin op off len) c

section Rules

variable {P : (Conn → Turn × Conn) → Conn → Prop}

theorem Rules.body (h : Rules P) (fin : Bool) (op : ℕ) (masked : Bool) (off len : ℕ) (c : Conn) :
    P (fun c => c.body fin op masked off len) c := by
  unfold Conn.body
  split_ifs
  · exact h.done _ c
  · exact h.done _ c
  · exact h.fill _ _ c fun c₁ _ hle => h.taken fin op off len c₁ hle

/-- A header with a longer length, whose bytes come before the payload. -/
theorem Rules.length (h : Rules P) (fin : Bool) (op : ℕ) (masked : Bool) (off len : ℕ) (c : Conn) :
    P (fun c => match c.fill (off + len) with
      | (false, c) => (.quiet, c)
      | (true, c) =>
        c.body fin op masked (off + len) (beNat ((c.rxRaw.drop off).take len))) c := by
  refine h.fill (off + len) (fun c => c.body fin op masked (off + len)
    (beNat ((c.rxRaw.drop off).take len))) c fun c₁ _ hle => ?_
  refine h.congr _ _ c₁ (h.body fin op masked (off + len) (beNat ((c₁.rxRaw.drop off).take len)) c₁)
    fun c₂ hrx => ?_
  rw [take_of_isPrefix hrx hle]

theorem Rules.header (h : Rules P) (hle : 2 ≤ c.rxRaw.length) : P Conn.header c := by
  have h0 : ∀ c₂ : Conn, c.rxRaw <+: c₂.rxRaw → c₂.rxRaw.getD 0 0 = c.rxRaw.getD 0 0 :=
    fun c₂ h => getD_of_isPrefix h (by omega)
  have h1 : ∀ c₂ : Conn, c.rxRaw <+: c₂.rxRaw → c₂.rxRaw.getD 1 0 = c.rxRaw.getD 1 0 :=
    fun c₂ h => getD_of_isPrefix h (by omega)
  -- The two bytes of the header are the same in all that follows.
  generalize c.rxRaw.getD 0 0 = b0 at h0
  generalize c.rxRaw.getD 1 0 = b1 at h1
  by_cases hrsv : b0.toNat / 16 % 8 ≠ 0
  · refine h.congr _ _ c (h.done (.error "ws: 1002 RSV bits set without negotiated extension") c)
      fun c₂ hrx => ?_
    rw [Conn.header, h0 c₂ hrx, if_pos hrsv]
  by_cases h126 : b1.toNat % 128 = 126
  · refine h.congr _ _ c (h.length (decide (b0.toNat / 128 ≠ 0)) (b0.toNat % 16)
      (decide (b1.toNat / 128 ≠ 0)) 2 2 c) fun c₂ hrx => ?_
    refine (@forall_eq' _ (Conn.header c₂ = ·) _).mp fun v hv => ?_
    simp only [Conn.header, h0 c₂ hrx, h1 c₂ hrx, if_neg hrsv, if_pos h126]
    exact hv
  by_cases h127 : b1.toNat % 128 = 127
  · refine h.congr _ _ c (h.length (decide (b0.toNat / 128 ≠ 0)) (b0.toNat % 16)
      (decide (b1.toNat / 128 ≠ 0)) 2 8 c) fun c₂ hrx => ?_
    refine (@forall_eq' _ (Conn.header c₂ = ·) _).mp fun v hv => ?_
    simp only [Conn.header, h0 c₂ hrx, h1 c₂ hrx, if_neg hrsv, if_neg h126, if_pos h127]
    exact hv
  · refine h.congr _ _ c (h.body (decide (b0.toNat / 128 ≠ 0)) (b0.toNat % 16)
      (decide (b1.toNat / 128 ≠ 0)) 2 (b1.toNat % 128) c) fun c₂ hrx => ?_
    simp only [Conn.header, h0 c₂ hrx, h1 c₂ hrx, if_neg hrsv, if_neg h126, if_neg h127]

theorem Rules.turn (h : Rules P) (c : Conn) : P Conn.turn c :=
  h.fill 2 Conn.header c fun _ _ hle => h.header hle

end Rules

theorem lazy_taken (fin : Bool) (op off len : ℕ) (hle : off + len ≤ c.rxRaw.length) :
    Lazy (Conn.taken fin op off len) c := by
  constructor
  · intro c' h
    exact absurd (congrArg Prod.fst h) handle_ne_quiet
  · intro x c' h _
    have hpayload : (c.full.rxRaw.drop off).take len = (c.rxRaw.drop off).take len :=
      take_of_isPrefix (List.prefix_append _ _) hle
    have hdrop : c.full.rxRaw.drop (off + len) = c.rxRaw.drop (off + len) ++ c.reads.flatten :=
      List.drop_append_of_le_length hle
    have hframe := @handle_frame { c with rxRaw := c.rxRaw.drop (off + len) }
      fin op ((c.rxRaw.drop off).take len) (c.rxRaw.drop (off + len) ++ c.reads.flatten) []
    have hrx := @handle_rx { c with rxRaw := c.rxRaw.drop (off + len) }
      fin op ((c.rxRaw.drop off).take len)
    rw [Conn.taken] at h
    rw [h] at hframe hrx
    obtain ⟨hrx, hreads⟩ := hrx
    dsimp only at hrx hreads hframe
    rw [Conn.taken, hpayload, hdrop, hreads]
    refine ⟨hframe.trans ?_, le_rfl⟩
    rw [full, stream, hrx, hreads]

theorem lazy_rules : Rules Lazy where
  done := lazy_done
  fill _ _ _ hg := lazy_fill fun c₁ hgrew hle => hg c₁ hgrew.rx hle
  congr _ _ _ h heq := h.congr heq
  taken fin op off len _ hle := lazy_taken fin op off len hle

theorem lazy_turn (c : Conn) : Lazy Conn.turn c := lazy_rules.turn c

/-! ### Frames on the wire -/

/-- A frame of a server: no reserved bits, no mask. -/
structure Frame where
  fin : Bool
  op : ℕ
  payload : Bytes

/-- The header of a frame has its length in one of three forms. -/
inductive Wire (f : Frame) : Bytes → Prop
  | short {b0 b1 : UInt8} (h0 : b0.toNat = (if f.fin then 128 else 0) + f.op) (hop : f.op < 16)
      (h1 : b1.toNat = f.payload.length) (hlen : f.payload.length < 126) :
      Wire f (b0 :: b1 :: f.payload)
  | medium {b0 b1 : UInt8} {ext : Bytes} (h0 : b0.toNat = (if f.fin then 128 else 0) + f.op)
      (hop : f.op < 16) (h1 : b1.toNat = 126) (hext : ext.length = 2)
      (hlen : beNat ext = f.payload.length) : Wire f (b0 :: b1 :: ext ++ f.payload)
  | long {b0 b1 : UInt8} {ext : Bytes} (h0 : b0.toNat = (if f.fin then 128 else 0) + f.op)
      (hop : f.op < 16) (h1 : b1.toNat = 127) (hext : ext.length = 8)
      (hlen : beNat ext = f.payload.length) : Wire f (b0 :: b1 :: ext ++ f.payload)

/-- What a part of a call leaves of a socket that has all its bytes: they are still there,
or the first of them were a frame, which was handled. -/
def Handles (c : Conn) (x : Turn) (c' : Conn) : Prop :=
  (c' = c ∧ ∃ o, x = .done o ∧ ∀ f, o ≠ .frame f) ∨
    ∃ f w rest, Wire f w ∧ c.rxRaw = w ++ rest ∧
      (x, c') = ({ c with rxRaw := rest } : Conn).handle f.fin f.op f.payload

theorem body_handles {head : Bytes} {len : ℕ} {masked : Bool} (hc : c.reads = [])
    (hhead : head.length = n) (hrx : head <+: c.rxRaw)
    (hwire : masked = false → ∀ payload : Bytes, payload.length = len →
      Wire ⟨fin, op, payload⟩ (head ++ payload))
    (h : c.body fin op masked n len = (x, c')) (hx : x ≠ .quiet) : Handles c x c' := by
  unfold Conn.body at h
  split_ifs at h with hmasked hsize
  · cases h
    exact .inl ⟨rfl, _, rfl, fun _ => nofun⟩
  · cases h
    exact .inl ⟨rfl, _, rfl, fun _ => nofun⟩
  · rw [fill_of_reads_nil hc] at h
    by_cases hle : n + len ≤ c.rxRaw.length
    · simp only [decide_eq_true hle] at h
      obtain ⟨tail, htail⟩ := hrx
      have hdrop : c.rxRaw.drop n = tail := by
        rw [← htail, ← hhead, List.drop_left]
      have hlen : (tail.take len).length = len := by
        rw [List.length_take, ← hdrop, List.length_drop]
        omega
      refine .inr ⟨⟨fin, op, tail.take len⟩, _, tail.drop len,
        hwire (by simpa using hmasked) _ hlen, ?_, ?_⟩
      · rw [List.append_assoc, List.take_append_drop, htail]
      · rw [← h, ← hdrop, List.drop_drop, Nat.add_comm]
    · simp only [decide_eq_false hle, Prod.mk.injEq] at h
      exact absurd h.1.symm hx

theorem turn_handles (hc : c.reads = []) (h : c.turn = (x, c')) (hx : x ≠ .quiet) :
    Handles c x c' := by
  rw [Conn.turn, fill_of_reads_nil hc] at h
  by_cases hle : 2 ≤ c.rxRaw.length
  · simp only [decide_eq_true hle] at h
    obtain ⟨b0, b1, tail, hrx⟩ : ∃ b0 b1 tail, c.rxRaw = b0 :: b1 :: tail := by
      match hrx : c.rxRaw, hle with
      | b0 :: b1 :: tail, _ => exact ⟨b0, b1, tail, rfl⟩
    have hb0 := b0.toNat_lt
    have hb1 := b1.toNat_lt
    simp only [Conn.header, hrx, List.getD_cons_zero, List.getD_cons_succ] at h
    by_cases hrsv : b0.toNat / 16 % 8 ≠ 0
    · rw [if_pos hrsv] at h
      cases h
      exact .inl ⟨rfl, _, rfl, fun _ => nofun⟩
    rw [if_neg hrsv] at h
    have hfirst : b0.toNat = (if decide (b0.toNat / 128 ≠ 0) = true then 128 else 0) +
        b0.toNat % 16 := by
      simp only [decide_eq_true_eq]
      split_ifs <;> omega
    have hop : b0.toNat % 16 < 16 := Nat.mod_lt _ (by norm_num)
    -- The bytes of a longer length stand between the first two and the payload.
    have hext : ∀ len, 2 + len ≤ c.rxRaw.length →
        (b0 :: b1 :: tail.take len).length = 2 + len ∧ b0 :: b1 :: tail.take len <+: c.rxRaw := by
      intro len hlen
      rw [hrx, List.length_cons, List.length_cons] at hlen
      refine ⟨by simp only [List.length_cons, List.length_take]; omega, ?_⟩
      rw [hrx]
      exact (List.prefix_cons_inj _).mpr ((List.prefix_cons_inj _).mpr (List.take_prefix _ _))
    by_cases h126 : b1.toNat % 128 = 126
    · rw [if_pos h126, fill_of_reads_nil hc] at h
      by_cases hlong : 4 ≤ c.rxRaw.length
      · simp only [decide_eq_true hlong] at h
        simp only [hrx, List.drop_succ_cons, List.drop_zero] at h
        obtain ⟨hlen, hpre⟩ := hext 2 hlong
        refine body_handles hc hlen hpre (fun hmasked payload hpayload => ?_) h hx
        have hb1' : b1.toNat / 128 = 0 := by simpa using hmasked
        refine .medium hfirst hop (by omega) ?_ hpayload.symm
        simp only [List.length_cons] at hlen
        omega
      · simp only [decide_eq_false hlong, Prod.mk.injEq] at h
        exact absurd h.1.symm hx
    rw [if_neg h126] at h
    by_cases h127 : b1.toNat % 128 = 127
    · rw [if_pos h127, fill_of_reads_nil hc] at h
      by_cases hlong : 10 ≤ c.rxRaw.length
      · simp only [decide_eq_true hlong] at h
        simp only [hrx, List.drop_succ_cons, List.drop_zero] at h
        obtain ⟨hlen, hpre⟩ := hext 8 hlong
        refine body_handles hc hlen hpre (fun hmasked payload hpayload => ?_) h hx
        have hb1' : b1.toNat / 128 = 0 := by simpa using hmasked
        refine .long hfirst hop (by omega) ?_ hpayload.symm
        simp only [List.length_cons] at hlen
        omega
      · simp only [decide_eq_false hlong, Prod.mk.injEq] at h
        exact absurd h.1.symm hx
    · rw [if_neg h127] at h
      have hpre : [b0, b1] <+: c.rxRaw := by
        rw [hrx]
        exact ⟨tail, rfl⟩
      refine body_handles hc rfl hpre (fun hmasked payload hpayload => ?_) h hx
      have hb1' : b1.toNat / 128 = 0 := by simpa using hmasked
      refine .short hfirst hop ?_ ?_ <;> dsimp only <;> omega
  · simp only [decide_eq_false hle, Prod.mk.injEq] at h
    exact absurd h.1.symm hx

theorem Wire.length_pos {f : Frame} {w : Bytes} (h : Wire f w) : 0 < w.length := by
  cases h <;> simp

/-- A turn that is not quiet does what it does when all the bytes are there. -/
theorem turn_spec (h : c.turn = (x, c')) (hx : x ≠ .quiet) :
    c.full.turn = (x, c'.full) ∧ timeouts c'.reads ≤ timeouts c.reads ∧
      Handles c.full x c'.full := by
  obtain ⟨hfull, ht⟩ := (lazy_turn c).other x c' h hx
  exact ⟨hfull, ht, turn_handles rfl hfull hx⟩

theorem again_shrinks (h : c.turn = (.again, c')) : c'.stream.length < c.stream.length := by
  obtain ⟨-, -, ⟨-, o, ho, -⟩ | ⟨f, w, rest, hw, hrx, hhandle⟩⟩ := turn_spec h nofun
  · cases ho
  · have hrest : c'.full.rxRaw = rest :=
      (congrArg (fun r => r.2.rxRaw) hhandle).trans handle_rx.1
    have hpos := hw.length_pos
    have hlen : c.stream.length = w.length + c'.stream.length := by
      rw [show c.stream = w ++ rest from hrx, List.length_append, ← hrest]
      rfl
    omega

/-! ### Calls -/

theorem recvLoop_stable {n m : ℕ} (hn : c.stream.length < n) (hm : c.stream.length < m) :
    c.recvLoop n = c.recvLoop m := by
  induction n generalizing c m with
  | zero => omega
  | succ n ih =>
    obtain ⟨m, rfl⟩ := Nat.exists_eq_succ_of_ne_zero (show m ≠ 0 by omega)
    unfold Conn.recvLoop
    cases h : c.turn with
    | mk x c' =>
      cases x with
      | quiet => rfl
      | done o => rfl
      | again =>
        have hlt := again_shrinks h
        exact ih (by omega) (by omega)

/-- A loop that gives an outcome gives it with all the bytes at hand too. -/
theorem recvLoop_some (h : c.recvLoop n = (some o, c')) (hn : c.stream.length < n) :
    c.full.recvLoop n = (some o, c'.full) ∧ timeouts c'.reads ≤ timeouts c.reads := by
  induction n generalizing c with
  | zero => omega
  | succ n ih =>
    unfold Conn.recvLoop at h ⊢
    cases hturn : c.turn with
    | mk x c₁ =>
      cases x with
      | quiet => simp [hturn] at h
      | done o' =>
        obtain ⟨hfull, ht, -⟩ := turn_spec hturn nofun
        simp only [hturn, Prod.mk.injEq, Option.some.injEq] at h
        obtain ⟨rfl, rfl⟩ := h
        rw [hfull]
        exact ⟨rfl, ht⟩
      | again =>
        obtain ⟨hfull, ht, -⟩ := turn_spec hturn nofun
        have hlt := again_shrinks hturn
        simp only [hturn] at h
        rw [hfull]
        obtain ⟨hrec, ht'⟩ := ih h (by omega)
        exact ⟨hrec, ht'.trans ht⟩

/-- A loop that runs out of time leaves what a later call needs. -/
theorem recvLoop_none (h : c.recvLoop n = (none, c')) (hn : c.stream.length < n) :
    c.full.recvLoop n = c'.full.recvLoop n ∧ Waited c c' ∧ c'.stream.length ≤ c.stream.length ∧
      (c'.reads = [] → c'.recvLoop n = (none, c')) := by
  induction n generalizing c with
  | zero => omega
  | succ n ih =>
    unfold Conn.recvLoop at h
    cases hturn : c.turn with
    | mk x c₁ =>
      cases x with
      | quiet =>
        simp only [hturn, Prod.mk.injEq, true_and] at h
        subst h
        obtain ⟨hgrew, hwait, hstop⟩ := (lazy_turn c).quiet _ hturn
        refine ⟨by rw [hgrew.full_eq], hwait, hgrew.stream ▸ le_rfl, fun hnil => ?_⟩
        rw [Conn.recvLoop, hstop hnil]
      | done o' => simp [hturn] at h
      | again =>
        obtain ⟨hfull, ht, -⟩ := turn_spec hturn nofun
        have hlt := again_shrinks hturn
        simp only [hturn] at h
        obtain ⟨hrec, hwait, hle, hstop⟩ := ih h (by omega)
        refine ⟨?_, hwait.imp_right fun hlt => hlt.trans_le ht, by omega, fun hnil => ?_⟩
        · have hlen : c'.full.stream.length = c'.stream.length := by simp [full, stream]
          rw [Conn.recvLoop, hfull, recvLoop_stable (n := n + 1) (m := n)]
          · exact hrec
          all_goals omega
        · rw [recvLoop_stable (n := n + 1) (m := n) (by omega) (by omega), hstop hnil]

theorem stream_full (c : Conn) : c.full.stream = c.stream := by simp [full, stream]

theorem recv_some (h : c.recv = (some o, c')) :
    c.full.recv = (some o, c'.full) ∧ timeouts c'.reads ≤ timeouts c.reads := by
  have hloop := recvLoop_some h (Nat.lt_succ_self _)
  rwa [Conn.recv, stream_full]

theorem recv_none (h : c.recv = (none, c')) :
    c.full.recv = c'.full.recv ∧ Waited c c' ∧ (c'.reads = [] → c'.recv = (none, c')) := by
  obtain ⟨hrec, hwait, hle, hstop⟩ := recvLoop_none h (Nat.lt_succ_self _)
  refine ⟨?_, hwait, fun hnil => ?_⟩
  · rw [Conn.recv, Conn.recv, stream_full, stream_full, hrec]
    refine recvLoop_stable ?_ ?_ <;> rw [stream_full] <;> omega
  · rw [← hstop hnil]
    exact recvLoop_stable (Nat.lt_succ_self _) (by omega)

/-! ### Sessions -/

/-- The outcomes of so many calls, without those that ran out of time. -/
def recvs : ℕ → Conn → List Outcome × Conn
  | 0, c => ([], c)
  | n + 1, c =>
    match c.recv with
    | (none, c) => recvs n c
    | (some o, c) => (o :: (recvs n c).1, (recvs n c).2)

theorem recvs_succ_of_some (h : c.recv = (some o, c')) :
    recvs (n + 1) c = (o :: (recvs n c').1, (recvs n c').2) := by
  rw [recvs, h]

theorem recvs_succ_of_none (h : c.recv = (none, c')) : recvs (n + 1) c = recvs n c' := by
  rw [recvs, h]

/-- More calls only add outcomes. -/
theorem recvs_mono {m : ℕ} (h : n ≤ m) (c : Conn) : (recvs n c).1 <+: (recvs m c).1 := by
  induction m generalizing n c with
  | zero => rw [Nat.le_zero.mp h]
  | succ m ih =>
    cases n with
    | zero => exact List.nil_prefix
    | succ n =>
      cases hrecv : c.recv with
      | mk r c' =>
        cases r with
        | none =>
          rw [recvs_succ_of_none hrecv, recvs_succ_of_none hrecv]
          exact ih (Nat.le_of_succ_le_succ h) c'
        | some o =>
          rw [recvs_succ_of_some hrecv, recvs_succ_of_some hrecv]
          exact (List.prefix_cons_inj o).mpr (ih (Nat.le_of_succ_le_succ h) c')

theorem recvs_congr (h : c.recv = c'.recv) : recvs (n + 1) c = recvs (n + 1) c' := by
  rw [recvs, recvs, h]

/-- Calls that wait deliver nothing that a call with all the bytes would not. -/
theorem recvs_prefix (n : ℕ) (c : Conn) : (recvs n c).1 <+: (recvs n c.full).1 := by
  induction n generalizing c with
  | zero => exact List.nil_prefix
  | succ n ih =>
    cases h : c.recv with
    | mk r c' =>
      cases r with
      | none =>
        rw [recvs_succ_of_none h, recvs_congr (recv_none h).1]
        exact (ih c').trans (recvs_mono (Nat.le_succ n) _)
      | some o =>
        rw [recvs_succ_of_some h, recvs_succ_of_some (recv_some h).1]
        exact (List.prefix_cons_inj o).mpr (ih c')

theorem recvs_of_stuck (h : c.recv = (none, c)) (n : ℕ) : recvs n c = ([], c) := by
  induction n with
  | zero => rfl
  | succ n ih => rw [recvs_succ_of_none h, ih]

theorem full_of_reads_nil (h : c.reads = []) : c.full = c := by
  obtain ⟨rx, opcode, fragments, reads⟩ := c
  subst h
  simp [full, stream]

/-- As many more calls as there are timeouts deliver all of it. -/
theorem recvs_complete {k : ℕ} (hk : n + timeouts c.reads ≤ k) :
    (recvs n c.full).1 <+: (recvs k c).1 := by
  induction k generalizing n c with
  | zero =>
    obtain rfl : n = 0 := by omega
    exact List.nil_prefix
  | succ k ih =>
    cases n with
    | zero => exact List.nil_prefix
    | succ n =>
      cases h : c.recv with
      | mk r c' =>
        cases r with
        | some o =>
          obtain ⟨hfull, ht⟩ := recv_some h
          rw [recvs_succ_of_some h, recvs_succ_of_some hfull]
          exact (List.prefix_cons_inj o).mpr (ih (by omega))
        | none =>
          obtain ⟨hrec, hwait, hstop⟩ := recv_none h
          rw [recvs_succ_of_none h, recvs_congr hrec]
          rcases hwait with hnil | hlt
          · rw [full_of_reads_nil hnil, recvs_of_stuck (hstop hnil)]
            exact List.nil_prefix
          · exact ih (by omega)

/-! ### Messages -/

def isCont (f : Frame) : Bool := f.op == opCont

/-- The frames end in the last one of a message of so many bytes: a frame of its own, or
a first one and continuations, with what else came between them. -/
inductive Message : List Frame → ℕ → Bytes → Prop
  | single {before : List Frame} {op : ℕ} {payload : Bytes} (hop : op = opText ∨ op = opBinary) :
      Message (before ++ [⟨true, op, payload⟩]) op payload
  | fragments {before between : List Frame} {op : ℕ} {first last : Bytes}
      (hop : op = opText ∨ op = opBinary) (hbetween : ∀ f ∈ between, isCont f → f.fin = false) :
      Message (before ++ ⟨false, op, first⟩ :: between ++ [⟨true, opCont, last⟩]) op
        (first ++ (between.filter isCont).flatMap Frame.payload ++ last)

/-- The fragments at hand are those of the message that is not complete yet. -/
def Pending (c : Conn) (fs : List Frame) : Prop :=
  ∀ op, c.fragmentOpcode = some op → (op = opText ∨ op = opBinary) ∧
    ∃ before first between, fs = before ++ ⟨false, op, first⟩ :: between ∧
      (∀ f ∈ between, isCont f → f.fin = false) ∧
      c.fragmentPayload = first ++ (between.filter isCont).flatMap Frame.payload

/-- The data that an outcome delivers. -/
def Outcome.data : Outcome → Option (ℕ × Bytes)
  | .frame (.text s) => some (opText, utf8 s)
  | .frame (.binary b) => some (opBinary, b)
  | _ => none

theorem data_decodeDataFrame {d : ℕ × Bytes} (h : (decodeDataFrame op payload).data = some d) :
    d = (op, payload) := by
  unfold decodeDataFrame at h
  split_ifs at h with htext hbinary
  · cases hs : fromUtf8 payload with
    | none => simp [hs, Outcome.data] at h
    | some s =>
      simp only [hs, Outcome.data, Option.some.injEq] at h
      rw [← h, utf8_of_fromUtf8 hs, htext]
  · rw [hbinary]
    exact (Option.some.inj h).symm
  · cases h

theorem data_decodeClose : (decodeClose payload).data = none := by
  match payload with
  | [] => rfl
  | [_] => rfl
  | a :: b :: reason =>
    unfold decodeClose
    dsimp only
    split_ifs
    · cases fromUtf8 reason <;> rfl
    · rfl

/-- A frame that is no continuation, between the fragments of a message. -/
theorem Pending.pass {fs : List Frame} {f : Frame} (h : Pending c fs) (hf : isCont f = false) :
    Pending c (fs ++ [f]) := by
  intro op hop
  obtain ⟨hdata, before, first, between, rfl, hbetween, hpayload⟩ := h op hop
  refine ⟨hdata, before, first, between ++ [f], by simp, fun g hg hcont => ?_, ?_⟩
  · rcases List.mem_append.mp hg with hg | hg
    · exact hbetween g hg hcont
    · rw [List.mem_singleton.mp hg, hf] at hcont
      cases hcont
  · rw [hpayload, List.filter_append, List.filter_singleton, hf]
    simp

theorem handle_pending {fs : List Frame} {f : Frame} (h : Pending c fs)
    (hf : c.handle f.fin f.op f.payload = (x, c')) :
    Pending c' (fs ++ [f]) ∧
      ∀ o d, x = .done o → o.data = some d → Message (fs ++ [f]) d.1 d.2 := by
  obtain ⟨fin, op, payload⟩ := f
  unfold Conn.handle at hf
  dsimp only at hf
  by_cases hdata : op = opText ∨ op = opBinary ∨ op = opCont
  · rw [if_pos hdata] at hf
    by_cases hcont : op = opCont
    · subst hcont
      rw [if_pos rfl] at hf
      cases hop : c.fragmentOpcode with
      | none =>
        simp only [hop, Prod.mk.injEq] at hf
        obtain ⟨rfl, rfl⟩ := hf
        refine ⟨fun op hsome => ?_, ?_⟩
        · rw [hop] at hsome
          cases hsome
        · rintro o d ho hd
          cases ho
          cases hd
      | some op =>
        obtain ⟨hkind, before, first, between, rfl, hbetween, hpayload⟩ := h op hop
        simp only [hop] at hf
        cases fin with
        | true =>
          rw [if_pos rfl] at hf
          obtain ⟨rfl, rfl⟩ := Prod.mk.inj hf
          refine ⟨nofun, ?_⟩
          rintro o d ho hd
          obtain rfl := Turn.done.inj ho
          obtain rfl := data_decodeDataFrame hd
          rw [hpayload]
          exact .fragments hkind hbetween
        | false =>
          rw [if_neg nofun] at hf
          obtain ⟨rfl, rfl⟩ := Prod.mk.inj hf
          refine ⟨fun op' hop' => ?_, nofun⟩
          obtain rfl := Option.some.inj hop'
          refine ⟨hkind, before, first, between ++ [⟨false, opCont, payload⟩], by simp,
            fun g hg hc => ?_, ?_⟩
          · rcases List.mem_append.mp hg with hg | hg
            · exact hbetween g hg hc
            · rw [List.mem_singleton.mp hg]
          · dsimp only
            rw [hpayload, List.filter_append, List.flatMap_append, List.append_assoc]
            simp [isCont]
    · have hisCont : isCont ⟨fin, op, payload⟩ = false := beq_false_of_ne hcont
      have hkind : op = opText ∨ op = opBinary :=
        hdata.imp_right fun h => h.resolve_right hcont
      rw [if_neg hcont] at hf
      by_cases hnone : c.fragmentOpcode.isNone
      · cases fin with
        | true =>
          rw [if_pos ⟨rfl, hnone⟩] at hf
          obtain ⟨rfl, rfl⟩ := Prod.mk.inj hf
          refine ⟨h.pass hisCont, ?_⟩
          rintro o d ho hd
          obtain rfl := Turn.done.inj ho
          obtain rfl := data_decodeDataFrame hd
          exact .single hkind
        | false =>
          rw [if_neg (by simp), if_pos ⟨nofun, hnone⟩] at hf
          obtain ⟨rfl, rfl⟩ := Prod.mk.inj hf
          refine ⟨fun op' hop' => ?_, nofun⟩
          obtain rfl := Option.some.inj hop'
          exact ⟨hkind, fs, payload, [], rfl, nofun, by simp⟩
      · rw [if_neg (fun h => hnone h.2), if_neg (fun h => hnone h.2)] at hf
        obtain ⟨rfl, rfl⟩ := Prod.mk.inj hf
        refine ⟨h.pass hisCont, ?_⟩
        rintro o d ho hd
        cases ho
        cases hd
  · have hisCont : isCont ⟨fin, op, payload⟩ = false :=
      beq_false_of_ne fun hcont => hdata (.inr (.inr hcont))
    rw [if_neg hdata] at hf
    have hcases : c' = c ∧ ∀ o d, x = .done o → o.data ≠ some d := by
      split_ifs at hf <;> obtain ⟨rfl, rfl⟩ := Prod.mk.inj hf <;> refine ⟨rfl, ?_⟩ <;>
        rintro o d ho hd <;> obtain rfl := Turn.done.inj ho
      · cases hd
      · cases hd
      · rw [data_decodeClose] at hd
        cases hd
      · cases hd
    obtain ⟨rfl, hno⟩ := hcases
    exact ⟨h.pass hisCont, fun o d ho hd => absurd hd (hno o d ho)⟩

/-- The frames that were taken off a stream, the last part of it being still there. -/
structure Taken (stream : Bytes) (c : Conn) (fs : List Frame) : Prop where
  wires : ∃ ws, List.Forall₂ Wire fs ws ∧ stream = ws.flatten ++ c.stream
  pending : Pending c fs

theorem Taken.grew {stream : Bytes} {fs : List Frame} (h : Taken stream c fs) (hg : Grew c c') :
    Taken stream c' fs := by
  refine ⟨by rw [hg.stream]; exact h.wires, fun op hop => ?_⟩
  rw [hg.opcode] at hop
  rw [hg.fragments]
  exact h.pending op hop

theorem Taken.handles {stream : Bytes} {fs : List Frame} (h : Taken stream c fs)
    (hc : Handles c.full x c'.full) :
    ∃ fs', Taken stream c' fs' ∧ ∀ o d, x = .done o → o.data = some d → Message fs' d.1 d.2 := by
  rcases hc with ⟨heq, o, rfl, ho⟩ | ⟨f, w, rest, hw, hrx, hf⟩
  · obtain ⟨hstream, hopcode, hpayload, -⟩ := Conn.mk.inj heq
    refine ⟨fs, ⟨by rw [hstream]; exact h.wires, ?_⟩, ?_⟩
    · intro op hop
      rw [hopcode] at hop
      rw [hpayload]
      exact h.pending op hop
    · rintro o' d ho' hd
      obtain rfl := Turn.done.inj ho'
      cases o with
      | frame g => exact absurd rfl (ho g)
      | error text => cases hd
      | panic => cases hd
  · obtain ⟨hpending, hmessage⟩ := @handle_pending
      { c.full with rxRaw := rest } _ _ fs f h.pending hf.symm
    obtain ⟨ws, hws, hstream⟩ := h.wires
    have hrest : c'.stream = rest := (congrArg (fun r => r.2.rxRaw) hf).trans handle_rx.1
    refine ⟨fs ++ [f], ⟨⟨ws ++ [w], ?_, ?_⟩, hpending⟩, hmessage⟩
    · exact List.rel_append hws (.cons hw .nil)
    · rw [hstream, List.flatten_append, hrest, List.append_assoc]
      congr 1
      rw [List.flatten_singleton]
      exact hrx

theorem Taken.recvLoop {stream : Bytes} {fs : List Frame} {r : Option Outcome}
    (h : Taken stream c fs) (hrecv : c.recvLoop n = (r, c')) :
    ∃ fs', Taken stream c' fs' ∧ ∀ o d, r = some o → o.data = some d → Message fs' d.1 d.2 := by
  induction n generalizing c fs with
  | zero =>
    obtain ⟨rfl, rfl⟩ := Prod.mk.inj hrecv
    exact ⟨fs, h, nofun⟩
  | succ n ih =>
    unfold Conn.recvLoop at hrecv
    cases hturn : c.turn with
    | mk x c₁ =>
      cases x with
      | quiet =>
        simp only [hturn] at hrecv
        obtain ⟨rfl, rfl⟩ := Prod.mk.inj hrecv
        exact ⟨fs, h.grew ((lazy_turn c).quiet _ hturn).1, nofun⟩
      | again =>
        simp only [hturn] at hrecv
        obtain ⟨fs₁, h₁, -⟩ := h.handles (turn_spec hturn nofun).2.2
        exact ih h₁ hrecv
      | done o =>
        simp only [hturn] at hrecv
        obtain ⟨rfl, rfl⟩ := Prod.mk.inj hrecv
        obtain ⟨fs₁, h₁, hmessage⟩ := h.handles (turn_spec hturn nofun).2.2
        refine ⟨fs₁, h₁, fun o' d ho' hd => hmessage o' d ?_ hd⟩
        rw [Option.some.inj ho']

theorem Taken.recvs {stream : Bytes} {fs : List Frame} (h : Taken stream c fs) (n : ℕ) :
    ∃ fs', Taken stream (recvs n c).2 fs' := by
  induction n generalizing c fs with
  | zero => exact ⟨fs, h⟩
  | succ n ih =>
    cases hrecv : c.recv with
    | mk r c' =>
      obtain ⟨fs₁, h₁, -⟩ := h.recvLoop hrecv
      cases r with
      | none => exact recvs_succ_of_none hrecv ▸ ih h₁
      | some o => exact recvs_succ_of_some hrecv ▸ ih h₁

/-- However the bytes are cut into reads and wherever timeouts stand among them, the calls
deliver the outcomes that they deliver when the stream is there at once, in as many more calls
as there are timeouts at most. Data that a call delivers are the payloads of the frames of one
message. -/
theorem recv_independent (c : Conn) :
    (∀ n, (recvs n c).1 <+: (recvs n c.full).1) ∧
      (∀ n, (recvs n c.full).1 <+: (recvs (n + timeouts c.reads) c).1) ∧
      (c.fragmentOpcode = none → ∀ n o c' d, (recvs n c).2.recv = (some o, c') → o.data = some d →
        ∃ fs ws, List.Forall₂ Wire fs ws ∧ c.stream = ws.flatten ++ c'.stream ∧
          Message fs d.1 d.2) := by
  refine ⟨fun n => recvs_prefix n c, fun n => recvs_complete le_rfl, ?_⟩
  intro hnone n o c' d hrecv hd
  have hstart : Taken c.stream c [] := by
    refine ⟨⟨[], .nil, rfl⟩, fun op hop => ?_⟩
    rw [hnone] at hop
    cases hop
  obtain ⟨fs, hfs⟩ := hstart.recvs n
  obtain ⟨fs', ⟨⟨ws, hws, hstream⟩, -⟩, hmessage⟩ := hfs.recvLoop hrecv
  exact ⟨fs', ws, hws, hstream, hmessage o d rfl hd⟩

end Conclave.Net.WebSocket
