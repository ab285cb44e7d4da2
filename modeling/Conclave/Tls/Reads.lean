import Conclave.Lib.Framing
import Conclave.Tls.Authentication
import Conclave.Tls.Stream

/-! Reading is transparent to timing. A session tracks the byte stream: what was
received is the records processed and the raw buffer, what was returned and
buffered is the application data of those records. Each step keeps this, so the
cutting of the stream and the timeouts do not show in what the calls return. -/

namespace Conclave.Tls

open Lib

/-! ### Records of a stream -/

/-- The record at the front of a buffer, as header and fragment. -/
def nextRecord (raw : Bytes) : Option ((Bytes × Bytes) × Bytes) :=
  if raw.length < 5 then none
  else if raw.length < recordLen raw then none
  else some ((raw.take 5, (raw.take (recordLen raw)).drop 5), raw.drop (recordLen raw))

theorem recordLen_append {b : Bytes} (h : 5 ≤ b.length) (c : Bytes) :
    recordLen (b ++ c) = recordLen b := by
  match b with
  | _ :: _ :: _ :: _ :: _ :: _ => rfl

theorem five_le_recordLen (b : Bytes) : 5 ≤ recordLen b := Nat.le_add_right _ _

/-- TLS records as self-delimiting frames. -/
def recordFramer : Framer UInt8 (Bytes × Bytes) where
  next := nextRecord
  shrinks := by
    intro b a r h
    unfold nextRecord at h
    split_ifs at h with h₁ h₂
    simp only [Option.some.injEq, Prod.mk.injEq] at h
    have := five_le_recordLen b
    rw [← h.2, List.length_drop]
    omega
  extend := by
    intro b a r c h
    unfold nextRecord at h ⊢
    split_ifs at h with h₁ h₂
    rw [recordLen_append (by omega), List.length_append, if_neg (by omega), if_neg (by omega),
      List.take_append_of_le_length (by omega), List.take_append_of_le_length (by omega),
      List.drop_append_of_le_length (by omega)]
    simp only [Option.some.injEq, Prod.mk.injEq] at h ⊢
    exact ⟨h.1, by rw [h.2]⟩

def wireOf (r : Bytes × Bytes) : Bytes := r.1 ++ r.2

def WellFramed (r : Bytes × Bytes) : Prop :=
  r.1.length = 5 ∧ 5 + r.2.length = recordLen r.1

theorem recordFramer_reads : recordFramer.Reads wireOf WellFramed := by
  rintro ⟨h, f⟩ c ⟨hh, hf⟩
  simp only at hh hf
  have hlen : recordLen (h ++ f ++ c) = 5 + f.length := by
    rw [List.append_assoc, recordLen_append (by omega), hf]
  simp only [recordFramer, nextRecord, wireOf, hlen, List.length_append, hh,
    if_neg (show ¬ 5 + f.length + c.length < 5 by omega),
    if_neg (show ¬ 5 + f.length + c.length < 5 + f.length by omega), Option.some.injEq,
    Prod.mk.injEq]
  have hhf : (h ++ f).length = 5 + f.length := by rw [List.length_append, hh]
  refine ⟨⟨?_, ?_⟩, ?_⟩
  · rw [List.append_assoc, ← hh, List.take_left']
    rfl
  · rw [← hhf, List.take_left' rfl, ← hh, List.drop_left' rfl]
  · rw [← hhf, List.drop_left' rfl]

theorem nextRecord_spec {raw rest : Bytes} {r : Bytes × Bytes}
    (h : nextRecord raw = some (r, rest)) : WellFramed r ∧ raw = wireOf r ++ rest := by
  unfold nextRecord at h
  split_ifs at h with h₁ h₂
  simp only [Option.some.injEq, Prod.mk.injEq] at h
  obtain ⟨rfl, rfl⟩ := h
  have h5 := five_le_recordLen raw
  have htake : (raw.take (recordLen raw)).take 5 = raw.take 5 := by
    rw [List.take_take, Nat.min_eq_left h5]
  refine ⟨⟨?_, ?_⟩, ?_⟩
  · simp only [List.length_take]; omega
  · simp only [List.length_drop, List.length_take]
    conv_rhs => rw [← recordLen_append (b := raw.take 5) (by simp; omega) (raw.drop 5),
      List.take_append_drop]
    omega
  · simp only [wireOf]
    rw [← htake, List.take_append_drop, List.take_append_drop]

/-! ### Application data of a stream -/

section Absorb

variable (A : AeadFns)

/-- What one record does to the keys, and the application data it carries. -/
def absorb (r : RxState) (rec : Bytes × Bytes) : RxState × Bytes :=
  if rec.1.headD 0 ≠ ContentType.applicationData.code then (r, [])
  else
    match r.tls12 with
    | some st =>
      match st.decrypt A ContentType.applicationData.code rec.2 with
      | .ok plain => ({ r with tls12 := some { st with seqServer := st.seqServer + 1 } }, plain)
      | .error _ => (r, [])
    | none =>
      match AeadKey.openRecord A r.rx rec.1 rec.2 with
      | (.ok (.applicationData, inner), rx) => ({ r with rx := rx }, inner)
      | (_, rx) => ({ r with rx := rx }, [])

def absorbAll (r : RxState) : List (Bytes × Bytes) → RxState × Bytes
  | [] => (r, [])
  | rec :: recs =>
    ((absorbAll (absorb A r rec).1 recs).1, (absorb A r rec).2 ++ (absorbAll (absorb A r rec).1 recs).2)

/-- The application data of records, in order. -/
def plaintexts (r : RxState) (recs : List (Bytes × Bytes)) : Bytes := (absorbAll A r recs).2

theorem absorbAll_append (r : RxState) (recs more : List (Bytes × Bytes)) :
    absorbAll A r (recs ++ more) =
      ((absorbAll A (absorbAll A r recs).1 more).1,
        (absorbAll A r recs).2 ++ (absorbAll A (absorbAll A r recs).1 more).2) := by
  induction recs generalizing r with
  | nil => simp [absorbAll]
  | cons rec recs ih => simp only [List.cons_append, absorbAll, ih, List.append_assoc]

theorem absorbAll_snoc (r : RxState) (recs : List (Bytes × Bytes)) (rec : Bytes × Bytes) :
    absorbAll A r (recs ++ [rec]) =
      ((absorb A (absorbAll A r recs).1 rec).1,
        (absorbAll A r recs).2 ++ (absorb A (absorbAll A r recs).1 rec).2) := by
  rw [absorbAll_append]
  simp [absorbAll]

/-- A TLS 1.2 alert of level warning other than close_notify. -/
def warning12 (r : RxState) (header fragment : Bytes) : Bool :=
  match r.tls12 with
  | none => false
  | some st =>
    header.headD 0 = ContentType.alert.code &&
      match st.decrypt A ContentType.alert.code fragment with
      | .ok (level :: desc :: _) => level ≠ 2 && desc ≠ 0
      | _ => false

/-- The records a connection is closed on. -/
def closesOn (r : RxState) (header fragment : Bytes) : Bool :=
  match r.tls12 with
  | some _ => header.headD 0 = ContentType.alert.code
  | none => header.headD 0 = ContentType.applicationData.code &&
      match AeadKey.openRecord A r.rx header fragment with
      | (.ok (.alert, _), _) => true
      | _ => false

/-- The records that end a connection: every TLS 1.3 alert, and a TLS 1.2 alert
unless it is a warning other than close_notify. -/
def Ends (r : RxState) (header fragment : Bytes) : Prop :=
  closesOn A r header fragment = true ∧ warning12 A r header fragment = false

/-- What a puller does with a record, on the state. -/
theorem handleRecord_stream (s : TlsStream) (header fragment : Bytes) :
    (handleRecord A s header fragment).2 =
      { toRxState := (absorb A s.toRxState (header, fragment)).1
        rxPlain := s.rxPlain ++ (absorb A s.toRxState (header, fragment)).2
        rxRaw := s.rxRaw
        closed := s.closed || closesOn A s.toRxState header fragment } := by
  obtain ⟨⟨rx, tls12⟩, plain, raw, closed⟩ := s
  simp only [handleRecord, absorb, closesOn]
  generalize header.headD 0 = ty
  by_cases h23 : ty = ContentType.applicationData.code
  · have h20 : ty ≠ ContentType.changeCipherSpec.code := by rw [h23]; decide
    have h21 : ty ≠ ContentType.alert.code := by rw [h23]; decide
    simp only [if_neg h20, if_neg (not_not.mpr h23), decide_eq_true h23, decide_eq_false h21]
    cases tls12 with
    | some st =>
      simp only [decryptAppRecordTls12]
      cases st.decrypt A ContentType.applicationData.code fragment <;> simp
    | none =>
      rcases AeadKey.openRecord A rx header fragment with ⟨e | ⟨innerType, inner⟩, k⟩
      · simp
      · cases innerType with
        | alert =>
          obtain _ | ⟨level, _ | ⟨desc, rest⟩⟩ := inner
          · simp
          · simp
          · simp only
            split_ifs <;> simp
        | applicationData | handshake | changeCipherSpec => simp
  · by_cases h20 : ty = ContentType.changeCipherSpec.code
    · have h21 : ty ≠ ContentType.alert.code := by rw [h20]; decide
      simp only [if_pos h20, if_pos h23, decide_eq_false h23, decide_eq_false h21]
      cases tls12 <;> simp
    · simp only [if_neg h20, if_pos h23, decide_eq_false h23]
      cases tls12 with
      | none => simp
      | some st => by_cases h21 : ty = ContentType.alert.code <;> simp [h21]

end Absorb

/-! ### The invariant -/

/-- The bytes a log shows to have been received. -/
def received (log : List StreamEvent) : Bytes :=
  log.flatMap fun
    | .sock _ _ ev => ev.bytes
    | _ => []

/-- The records a log shows to have left the buffer. -/
def processed (log : List StreamEvent) : List (Bytes × Bytes) :=
  log.filterMap fun
    | .record _ _ header fragment => some (header, fragment)
    | _ => none

section Invariant

variable (A : AeadFns)

/-- The steps the reading is transparent to: a timed socket read does not run into
its timeout with less than a record header buffered; a TLS 1.2 alert is no mere
warning; the drain meets no record of a foreign outer type that opens, nor one
whose plaintext has no inner type. -/
def Calm : StreamEvent → Prop
  | .sock mode buffered ev => mode = .timed → ev = .timeout → 5 ≤ buffered
  | .record draining r header fragment =>
    warning12 A r header fragment = false ∧
      (draining = true → header.headD 0 = ContentType.changeCipherSpec.code ∨
        header.headD 0 = ContentType.applicationData.code)
  | .stuck .. => False

instance (e : StreamEvent) : Decidable (Calm A e) :=
  match e with
  | .sock mode buffered ev =>
    inferInstanceAs (Decidable (mode = .timed → ev = .timeout → 5 ≤ buffered))
  | .record .. => inferInstanceAs (Decidable (_ ∧ _))
  | .stuck .. => .isFalse id

/-- Why a connection counts as closed: the socket ended, or a record ended it. -/
def ClosedBy (log : List StreamEvent) : Prop :=
  (∃ mode k, .sock mode k (.recv []) ∈ log) ∨
    ∃ draining r header fragment, .record draining r header fragment ∈ log ∧
      Ends A r header fragment

/-- Nothing is lost: the stream is the processed records and the buffer, their
application data is what was returned and what is buffered. -/
structure Tracks (r₀ : RxState) (s : Session) : Prop where
  bytes : received s.log = (processed s.log).flatMap wireOf ++ s.stream.rxRaw
  framed : ∀ r ∈ processed s.log, WellFramed r
  state : s.stream.toRxState = (absorbAll A r₀ (processed s.log)).1
  plain : s.returned ++ s.stream.rxPlain = (absorbAll A r₀ (processed s.log)).2
  closed : s.stream.closed = true → ClosedBy A s.log

/-- The invariant of a run whose steps are calm. -/
def Tracked (r₀ : RxState) (s : Session) : Prop := (∀ e ∈ s.log, Calm A e) → Tracks A r₀ s

variable {A} {r₀ : RxState} {s : Session}

theorem ClosedBy.append {log : List StreamEvent} (h : ClosedBy A log) (more : List StreamEvent) :
    ClosedBy A (log ++ more) := by
  obtain ⟨mode, k, hm⟩ | ⟨d, r, hd, f, hm, he⟩ := h
  · exact .inl ⟨mode, k, List.mem_append_left _ hm⟩
  · exact .inr ⟨d, r, hd, f, List.mem_append_left _ hm, he⟩

theorem tracked_fresh (r : RxState) : Tracked A r (.fresh r) :=
  fun _ => ⟨rfl, by simp [processed, Session.fresh], rfl, rfl, by simp [Session.fresh]⟩

theorem calm_of_append {log more : List StreamEvent} (h : ∀ e ∈ log ++ more, Calm A e) :
    ∀ e ∈ log, Calm A e :=
  fun e he => h e (List.mem_append_left more he)

theorem Tracked.sock (h : Tracked A r₀ s) (mode : ReadMode) (ev : SockEvent) :
    Tracked A r₀ (s.sock mode ev) := by
  intro hcalm
  obtain ⟨hb, hf, hs, hp, hc⟩ := h (calm_of_append hcalm)
  have hproc : processed (s.sock mode ev).log = processed s.log := by
    simp [Session.sock, processed]
  have hrec : received (s.sock mode ev).log = received s.log ++ ev.bytes := by
    simp [Session.sock, received]
  refine ⟨?_, by rwa [hproc], by rw [hproc]; exact hs, by rw [hproc]; exact hp,
    fun hcl => (hc hcl).append _⟩
  rw [hproc, hrec, hb, List.append_assoc]
  rfl

/-- A record leaves the buffer and is absorbed. -/
theorem Tracked.record (h : Tracked A r₀ s) (draining : Bool) {hd f rest : Bytes}
    (hnext : nextRecord s.stream.rxRaw = some ((hd, f), rest)) {s' : Session}
    (hlog : s'.log = s.log ++ [.record draining s.stream.toRxState hd f])
    (hret : s'.returned = s.returned)
    (hstate : (draining = true → hd.headD 0 = ContentType.changeCipherSpec.code ∨
        hd.headD 0 = ContentType.applicationData.code) →
      s'.stream.toRxState = (absorb A s.stream.toRxState (hd, f)).1 ∧
        s'.stream.rxPlain = s.stream.rxPlain ++ (absorb A s.stream.toRxState (hd, f)).2 ∧
        (s'.stream.closed = true → s.stream.closed = true ∨
          closesOn A s.stream.toRxState hd f = true))
    (hraw : s'.stream.rxRaw = rest) : Tracked A r₀ s' := by
  intro hcalm
  rw [hlog] at hcalm
  obtain ⟨hb, hf, hs, hp, hc⟩ := h (calm_of_append hcalm)
  have hrec : Calm A (.record draining s.stream.toRxState hd f) := hcalm _ (by simp)
  obtain ⟨hst, hpl, hclosed⟩ := hstate hrec.2
  obtain ⟨hwf, hsplit⟩ := nextRecord_spec hnext
  have hproc : processed s'.log = processed s.log ++ [(hd, f)] := by
    rw [hlog]
    simp [processed]
  have hrecv : received s'.log = received s.log := by
    rw [hlog]
    simp [received]
  constructor
  · rw [hproc, hrecv, hb, hsplit, hraw, List.flatMap_append]
    simp
  · rw [hproc]
    intro r hr
    rcases List.mem_append.mp hr with hr | hr
    · exact hf r hr
    · rwa [List.mem_singleton.mp hr]
  · rw [hproc, absorbAll_snoc, hst, hs]
  · rw [hproc, absorbAll_snoc, hret, hpl, ← List.append_assoc, hp, hs]
  · intro hcl
    rw [hlog]
    rcases hclosed hcl with hcl | hcl
    · exact (hc hcl).append _
    · exact .inr ⟨draining, s.stream.toRxState, hd, f, by simp, hcl, hrec.1⟩

/-- The caller takes bytes. -/
theorem Tracked.take (h : Tracked A r₀ s) (n : ℕ) :
    Tracked A r₀ { s with stream := { s.stream with rxPlain := s.stream.rxPlain.drop n },
                          returned := s.returned ++ s.stream.rxPlain.take n } := by
  intro hcalm
  obtain ⟨hb, hf, hs, hp, hc⟩ := h hcalm
  refine ⟨hb, hf, hs, ?_, hc⟩
  rw [List.append_assoc, List.take_append_drop]
  exact hp

theorem Tracked.close (h : Tracked A r₀ s) (hcl : (∀ e ∈ s.log, Calm A e) → ClosedBy A s.log) :
    Tracked A r₀ { s with stream := { s.stream with closed := true } } := by
  intro hcalm
  obtain ⟨hb, hf, hs, hp, -⟩ := h hcalm
  exact ⟨hb, hf, hs, hp, fun _ => hcl hcalm⟩

/-- A tracked session has returned a prefix of the stream's application data. -/
theorem Tracks.returned_isPrefix (h : Tracks A r₀ s) :
    s.returned <+: plaintexts A r₀ (recordFramer.drain (received s.log)).1 := by
  rw [h.bytes, recordFramer_reads.drain_flatMap _ h.framed, plaintexts, absorbAll_append]
  simp only
  rw [← h.plain, List.append_assoc]
  exact List.prefix_append _ _

/-- Nothing buffered: neither plaintext nor a complete record. -/
def Settled (s : Session) : Prop := s.stream.rxPlain = [] ∧ nextRecord s.stream.rxRaw = none

/-- A settled session has returned all of it. -/
theorem Tracks.all (h : Tracks A r₀ s) (hs : Settled s) :
    s.returned = plaintexts A r₀ (recordFramer.drain (received s.log)).1 := by
  have hplain := h.plain
  rw [hs.1, List.append_nil] at hplain
  rw [h.bytes, recordFramer_reads.drain_flatMap _ h.framed,
    recordFramer.drain_none hs.2, List.append_nil]
  exact hplain

end Invariant

/-! ### Pulling -/

section Pull

variable {A : AeadFns} {r₀ : RxState}

/-- The bytes not yet taken off as records. -/
def pendingBytes (s : Session) (script : List SockEvent) : ℕ :=
  s.stream.rxRaw.length + scriptBytes script

theorem pendingBytes_sock (s : Session) (mode : ReadMode) (ev : SockEvent)
    (script : List SockEvent) :
    pendingBytes (s.sock mode ev) script = pendingBytes s (ev :: script) := by
  simp only [pendingBytes, Session.sock, scriptBytes, List.length_append, List.flatMap_cons]
  omega

theorem readMore_nil_bytes {timed : Bool} {ev : SockEvent} {r : Except TlsError Bytes}
    (h : readMore timed ev = r) (hr : ∀ b, r = .ok b → b = []) : ev.bytes = [] := by
  subst h
  cases ev with
  | failed code => rfl
  | recv b => exact hr b (by cases timed <;> rfl)

/-- What a fill leaves: more of the stream in the buffer, and the socket reads in
the log. -/
structure Filling (timed : Bool) (s s' : Session) (l : List StreamEvent) : Prop where
  log : s'.log = s.log ++ l
  socks : ∀ e ∈ l, ∃ mode k ev, e = .sock mode k ev
  stream : s'.stream = { s.stream with rxRaw := s'.stream.rxRaw }
  raw : s.stream.rxRaw <+: s'.stream.rxRaw
  returned : s'.returned = s.returned

/-- The last thing the socket did was to bring nothing. -/
def StopsOn (timed : Bool) (s' : Session) (l : List StreamEvent) (ev : SockEvent) : Prop :=
  l.getLast? = some (.sock (modeOf timed) s'.stream.rxRaw.length ev)

def NoTimeout (l : List StreamEvent) : Prop := ∀ mode k, StreamEvent.sock mode k .timeout ∉ l

/-- How a fill ends. -/
def FillEnds (timed : Bool) (need : ℕ) (s' : Session) (l : List StreamEvent) : Filled → Prop
  | .full => need ≤ s'.stream.rxRaw.length ∧ NoTimeout l
  | .waiting => s'.stream.rxRaw.length < need ∧ NoTimeout l
  | .dry => s'.stream.rxRaw.length < need ∧
      ∃ ev, StopsOn timed s' l ev ∧ readMore timed ev = .ok []
  | .failed e => s'.stream.rxRaw.length < need ∧
      ∃ ev, StopsOn timed s' l ev ∧ readMore timed ev = .error e

theorem Filling.refl (timed : Bool) (s : Session) : Filling timed s s [] :=
  ⟨by simp, by simp, rfl, List.prefix_rfl, rfl⟩

theorem Filling.trans {timed : Bool} {s s₁ s₂ : Session} {l m : List StreamEvent}
    (h : Filling timed s s₁ l) (h' : Filling timed s₁ s₂ m) : Filling timed s s₂ (l ++ m) where
  log := by rw [h'.log, h.log, List.append_assoc]
  socks e he := (List.mem_append.mp he).elim (h.socks e) (h'.socks e)
  stream := by rw [h'.stream, h.stream]
  raw := h.raw.trans h'.raw
  returned := h'.returned.trans h.returned

theorem Filling.sock (timed : Bool) (s : Session) (ev : SockEvent) :
    Filling timed s (s.sock (modeOf timed) ev)
      [.sock (modeOf timed) s.stream.rxRaw.length ev] :=
  ⟨rfl, by simp, rfl, List.prefix_append _ _, rfl⟩

theorem StopsOn.prepend {timed : Bool} {s' : Session} {l : List StreamEvent} {ev : SockEvent}
    (h : StopsOn timed s' l ev) (m : List StreamEvent) : StopsOn timed s' (m ++ l) ev := by
  unfold StopsOn at h ⊢
  rw [List.getLast?_append, h]
  rfl

theorem NoTimeout.append {l m : List StreamEvent} (h : NoTimeout l) (h' : NoTimeout m) :
    NoTimeout (l ++ m) :=
  fun mode k hm => (List.mem_append.mp hm).elim (h mode k) (h' mode k)

theorem FillEnds.prepend {timed : Bool} {need : ℕ} {s' : Session} {l m : List StreamEvent}
    {o : Filled} (h : FillEnds timed need s' l o) (hm : NoTimeout m) :
    FillEnds timed need s' (m ++ l) o := by
  cases o with
  | full => exact ⟨h.1, hm.append h.2⟩
  | waiting => exact ⟨h.1, hm.append h.2⟩
  | dry =>
    obtain ⟨hl, ev, hs, hr⟩ := h
    exact ⟨hl, ev, hs.prepend m, hr⟩
  | failed e =>
    obtain ⟨hl, ev, hs, hr⟩ := h
    exact ⟨hl, ev, hs.prepend m, hr⟩

variable (A r₀) in
theorem fill_spec (timed : Bool) (need : ℕ) (s : Session) (script : List SockEvent) :
    ∃ l, Filling timed s (fill timed need s script).2.1 l ∧
      FillEnds timed need (fill timed need s script).2.1 l (fill timed need s script).1 ∧
      pendingBytes (fill timed need s script).2.1 (fill timed need s script).2.2 =
        pendingBytes s script ∧
      (Tracked A r₀ s → Tracked A r₀ (fill timed need s script).2.1) := by
  have hnone : NoTimeout [] := by simp [NoTimeout]
  induction script generalizing s with
  | nil =>
    unfold fill
    split_ifs with h
    · exact ⟨[], .refl timed s, ⟨h, hnone⟩, rfl, id⟩
    · exact ⟨[], .refl timed s, ⟨Nat.lt_of_not_le h, hnone⟩, rfl, id⟩
  | cons ev script ih =>
    unfold fill
    split_ifs with h
    · exact ⟨[], .refl timed s, ⟨h, hnone⟩, rfl, id⟩
    · have hdry : ev.bytes = [] → (s.sock (modeOf timed) ev).stream.rxRaw.length < need ∧
          StopsOn timed (s.sock (modeOf timed) ev)
            [.sock (modeOf timed) s.stream.rxRaw.length ev] ev := by
        intro hb
        simp only [StopsOn, Session.sock, hb, List.append_nil, List.getLast?_singleton, and_true]
        omega
      rcases hread : readMore timed ev with e | _ | ⟨b, bs⟩
      · obtain ⟨hl, hst⟩ := hdry (readMore_nil_bytes hread (by simp))
        exact ⟨_, .sock timed s ev, ⟨hl, ev, hst, hread⟩, pendingBytes_sock s _ ev script,
          fun ht => ht.sock _ ev⟩
      · obtain ⟨hl, hst⟩ := hdry (readMore_nil_bytes hread (by simp))
        exact ⟨_, .sock timed s ev, ⟨hl, ev, hst, hread⟩, pendingBytes_sock s _ ev script,
          fun ht => ht.sock _ ev⟩
      · obtain ⟨l, hf, he, hp, ht⟩ := ih (s.sock (modeOf timed) ev)
        have hev : NoTimeout [.sock (modeOf timed) s.stream.rxRaw.length ev] := by
          intro mode k hm
          obtain ⟨-, -, rfl⟩ := StreamEvent.sock.inj (List.mem_singleton.mp hm)
          cases timed <;> simp [readMore, Socket.read, Socket.readWithTimeout, SockEvent.timeout,
            mapErr] at hread
        exact ⟨_, (Filling.sock timed s ev).trans hf, he.prepend hev,
          by rw [hp, pendingBytes_sock], fun hs => ht (hs.sock _ ev)⟩

/-- A puller that stopped at the socket: what it was told, what it returns, and
whether it closed the connection. -/
def PullStops (timed : Bool) (s s' : Session) (l : List StreamEvent) (p : Pulled) : Prop :=
  (p = .waiting ∧ s'.stream.closed = s.stream.closed ∧ NoTimeout l) ∨
    ∃ ev, StopsOn timed s' l ev ∧
      ((∃ e, readMore timed ev = .error e ∧ p = .err e ∧ s'.stream.closed = s.stream.closed) ∨
        (readMore timed ev = .ok [] ∧ s'.stream.rxRaw.length < 5 ∧ p = .ok (!timed) ∧
          s'.stream.closed = true) ∨
        (readMore timed ev = .ok [] ∧ 5 ≤ s'.stream.rxRaw.length ∧
          p = (if timed then .ok false else .err (.protocol "EOF mid-record")) ∧
          s'.stream.closed = s.stream.closed))

/-- A calm socket that brings nothing before a header is complete has ended. -/
theorem closedBy_of_dry {timed : Bool} {s' : Session} {l : List StreamEvent} {ev : SockEvent}
    (hs : StopsOn timed s' l ev) (hread : readMore timed ev = .ok [])
    (hlt : s'.stream.rxRaw.length < 5) {log : List StreamEvent} (hcalm : ∀ e ∈ log ++ l, Calm A e) :
    ClosedBy A (log ++ l) := by
  have hmem := List.mem_append_right log (List.mem_of_getLast? hs)
  cases ev with
  | recv b =>
    have hb : b = [] := by
      cases timed <;> simpa [readMore, Socket.read, Socket.readWithTimeout, mapErr] using hread
    subst hb
    exact .inl ⟨_, _, hmem⟩
  | failed code =>
    exfalso
    cases timed with
    | false => simp [readMore, Socket.read, mapErr] at hread
    | true =>
      have hcode : code = 10060 := by
        by_contra hne
        simp [readMore, Socket.readWithTimeout, mapErr, hne] at hread
      have := hcalm _ hmem rfl (by rw [hcode]; rfl)
      omega

theorem nextRecord_none_of_header {raw : Bytes} (h : raw.length < 5) : nextRecord raw = none :=
  if_pos h

theorem nextRecord_none_of_body {raw : Bytes} (h5 : 5 ≤ raw.length)
    (h : raw.length < recordLen raw) : nextRecord raw = none := by
  rw [nextRecord, if_neg (by omega), if_pos h]

/-- What a puller leaves: the log goes on by `l`, and either a record was taken off
or the socket stopped it short of one. -/
structure Pulling (A : AeadFns) (r₀ : RxState) (timed : Bool) (s s' : Session)
    (script script' : List SockEvent) (p : Pulled) (l : List StreamEvent) : Prop where
  log : s'.log = s.log ++ l
  returned : s'.returned = s.returned
  tracked : Tracked A r₀ s → Tracked A r₀ s'
  progress : (∃ hd f, l.getLast? = some (.record false s.stream.toRxState hd f) ∧ p ≠ .waiting ∧
      pendingBytes s' script' < pendingBytes s script) ∨
    (nextRecord s'.stream.rxRaw = none ∧ s'.stream.rxPlain = s.stream.rxPlain ∧
      PullStops timed s s' l p)

theorem takeRecord_pendingBytes {s : Session} (h5 : 5 ≤ s.stream.rxRaw.length) (b : Bool)
    (script : List SockEvent) :
    pendingBytes (s.takeRecord b) script < pendingBytes s script := by
  have := five_le_recordLen s.stream.rxRaw
  simp only [pendingBytes, Session.takeRecord, List.length_drop]
  omega

variable (A r₀) in
/-- A puller that has a whole record in the buffer takes it. -/
theorem pulling_record {timed : Bool} {s s₁ : Session} {script script₁ : List SockEvent}
    {l : List StreamEvent} (hf : Filling timed s s₁ l) (h5 : 5 ≤ s₁.stream.rxRaw.length)
    (hlen : recordLen s₁.stream.rxRaw ≤ s₁.stream.rxRaw.length)
    (hp : pendingBytes s₁ script₁ = pendingBytes s script)
    (ht : Tracked A r₀ s → Tracked A r₀ s₁) {p : Pulled} (hw : p ≠ .waiting) :
    Pulling A r₀ timed s
      { s₁.takeRecord false with
        stream := (handleRecord A (s₁.takeRecord false).stream (s₁.stream.rxRaw.take 5)
          ((s₁.stream.rxRaw.take (recordLen s₁.stream.rxRaw)).drop 5)).2 }
      script script₁ p (l ++ [.record false s.stream.toRxState (s₁.stream.rxRaw.take 5)
        ((s₁.stream.rxRaw.take (recordLen s₁.stream.rxRaw)).drop 5)]) := by
  have hnext : nextRecord s₁.stream.rxRaw = some ((s₁.stream.rxRaw.take 5,
      (s₁.stream.rxRaw.take (recordLen s₁.stream.rxRaw)).drop 5),
      s₁.stream.rxRaw.drop (recordLen s₁.stream.rxRaw)) := by
    rw [nextRecord, if_neg (by omega), if_neg (by omega)]
  have hrx : s₁.stream.toRxState = s.stream.toRxState := by rw [hf.stream]
  have hstream := handleRecord_stream A (s₁.takeRecord false).stream (s₁.stream.rxRaw.take 5)
    ((s₁.stream.rxRaw.take (recordLen s₁.stream.rxRaw)).drop 5)
  constructor
  · simp only [Session.takeRecord, hf.log, hrx, List.append_assoc]
  · exact hf.returned
  · intro htr
    refine (ht htr).record false hnext rfl rfl (fun _ => ?_) ?_
    · simp only [hstream, Bool.or_eq_true]
      exact ⟨rfl, rfl, id⟩
    · simp only [hstream]
      rfl
  · refine .inl ⟨_, _, List.getLast?_concat, hw, ?_⟩
    rw [← hp]
    refine lt_of_eq_of_lt ?_ (takeRecord_pendingBytes h5 false script₁)
    simp only [pendingBytes, hstream]

variable (A r₀) in
theorem pull_spec (timed : Bool) (s : Session) (script : List SockEvent) :
    ∃ l, Pulling A r₀ timed s (pull A timed s script).2.1 script (pull A timed s script).2.2
      (pull A timed s script).1 l := by
  obtain ⟨l, hf, he, hp, ht⟩ := fill_spec A r₀ timed 5 s script
  unfold pull
  rcases hfill : fill timed 5 s script with ⟨o, s₁, script₁⟩
  simp only [hfill] at hf he hp ht
  have hclosed : s₁.stream.closed = s.stream.closed := by rw [hf.stream]
  have hplain : s₁.stream.rxPlain = s.stream.rxPlain := by rw [hf.stream]
  cases o with
  | waiting =>
    exact ⟨l, hf.log, hf.returned, ht, .inr ⟨nextRecord_none_of_header he.1, hplain,
      .inl ⟨rfl, hclosed, he.2⟩⟩⟩
  | failed e =>
    obtain ⟨hl, ev, hs, hr⟩ := he
    exact ⟨l, hf.log, hf.returned, ht, .inr ⟨nextRecord_none_of_header hl, hplain,
      .inr ⟨ev, hs, .inl ⟨e, hr, rfl, hclosed⟩⟩⟩⟩
  | dry =>
    obtain ⟨hl, ev, hs, hr⟩ := he
    refine ⟨l, hf.log, hf.returned, fun htr => (ht htr).close fun hcalm => ?_,
      .inr ⟨nextRecord_none_of_header hl, hplain, .inr ⟨ev, hs, .inr (.inl ⟨hr, hl, rfl, rfl⟩)⟩⟩⟩
    rw [hf.log] at hcalm ⊢
    exact closedBy_of_dry hs hr hl hcalm
  | full =>
    obtain ⟨h5, hno⟩ := he
    simp only
    obtain ⟨l', hf', he', hp', ht'⟩ :=
      fill_spec A r₀ timed (recordLen s₁.stream.rxRaw) s₁ script₁
    rcases hfill' : fill timed (recordLen s₁.stream.rxRaw) s₁ script₁ with ⟨o', s₂, script₂⟩
    simp only [hfill'] at hf' he' hp' ht'
    have hff := hf.trans hf'
    have h5' : 5 ≤ s₂.stream.rxRaw.length := h5.trans hf'.raw.length_le
    have hlen : recordLen s₂.stream.rxRaw = recordLen s₁.stream.rxRaw := by
      obtain ⟨c, hc⟩ := hf'.raw
      rw [← hc, recordLen_append h5]
    have hclosed' : s₂.stream.closed = s.stream.closed := by rw [hff.stream]
    have hplain' : s₂.stream.rxPlain = s.stream.rxPlain := by rw [hff.stream]
    have htt : Tracked A r₀ s → Tracked A r₀ s₂ := fun h => ht' (ht h)
    cases o' with
    | waiting =>
      exact ⟨l ++ l', hff.log, hff.returned, htt, .inr ⟨nextRecord_none_of_body h5'
        (by rw [hlen]; exact he'.1), hplain', .inl ⟨rfl, hclosed', hno.append he'.2⟩⟩⟩
    | failed e =>
      obtain ⟨hl, ev, hs, hr⟩ := he'
      exact ⟨l ++ l', hff.log, hff.returned, htt, .inr ⟨nextRecord_none_of_body h5'
        (by rw [hlen]; exact hl), hplain', .inr ⟨ev, hs.prepend l, .inl ⟨e, hr, rfl, hclosed'⟩⟩⟩⟩
    | dry =>
      obtain ⟨hl, ev, hs, hr⟩ := he'
      exact ⟨l ++ l', hff.log, hff.returned, htt, .inr ⟨nextRecord_none_of_body h5'
        (by rw [hlen]; exact hl), hplain', .inr ⟨ev, hs.prepend l,
          .inr (.inr ⟨hr, h5', rfl, hclosed'⟩)⟩⟩⟩
    | full =>
      have hrec := fun p hw => pulling_record A r₀ (p := p) hff h5'
        (by rw [hlen]; exact he'.1) (hp'.trans hp) htt hw
      simp only
      rcases hh : handleRecord A (s₂.takeRecord false).stream (s₂.stream.rxRaw.take 5)
          ((s₂.stream.rxRaw.take (recordLen s₂.stream.rxRaw)).drop 5) with ⟨e | more, stream⟩
      · simp only [hh] at hrec
        exact ⟨_, hrec (.err e) (by simp)⟩
      · simp only [hh] at hrec
        exact ⟨_, hrec (.ok (more || !timed)) (by simp)⟩

/-- What a puller says of a timeout. -/
def timeoutPulled (timed : Bool) : Pulled :=
  if timed then .ok false else .err (.protocol "read: RecvFailed(10060)")

/-- What a read loop leaves: when the socket was the last to act, nothing is
buffered; when it timed out, that is what is said and the connection is as open as
before. -/
structure Looping (A : AeadFns) (r₀ : RxState) (timed : Bool) (s s' : Session) (p : Pulled)
    (l : List StreamEvent) : Prop where
  log : s'.log = s.log ++ l
  returned : s'.returned = s.returned
  tracked : Tracked A r₀ s → Tracked A r₀ s'
  waiting : p = .waiting → Settled s'
  socket : ∀ mode k ev, l.getLast? = some (.sock mode k ev) → Settled s'
  timeout : ∀ mode k, l.getLast? = some (.sock mode k .timeout) → (∀ e ∈ s'.log, Calm A e) →
    s'.stream.closed = false ∧ p = timeoutPulled timed

theorem PullStops.timeout {timed : Bool} {s s' : Session} {l : List StreamEvent} {p : Pulled}
    (h : PullStops timed s s' l p) (hopen : s.stream.closed = false) (hlog : s'.log = s.log ++ l)
    {mode : ReadMode} {k : ℕ} (hl : l.getLast? = some (.sock mode k .timeout))
    (hcalm : ∀ e ∈ s'.log, Calm A e) : s'.stream.closed = false ∧ p = timeoutPulled timed := by
  have hmem := List.mem_of_getLast? hl
  obtain ⟨-, -, hno⟩ | ⟨ev, hs, hcases⟩ := h
  · exact absurd hmem (hno mode k)
  · rw [StopsOn, hl, Option.some.injEq, StreamEvent.sock.injEq] at hs
    obtain ⟨rfl, rfl, rfl⟩ := hs
    cases timed with
    | false =>
      obtain ⟨e, hr, rfl, hc⟩ | ⟨hr, -⟩ | ⟨hr, -⟩ := hcases
      · refine ⟨hc.trans hopen, ?_⟩
        rw [← Except.error.inj hr]
        rfl
      · cases hr
      · cases hr
    | true =>
      obtain ⟨e, hr, -⟩ | ⟨-, hlt, -⟩ | ⟨-, -, rfl, hc⟩ := hcases
      · cases hr
      · have hev : Calm A (.sock .timed s'.stream.rxRaw.length .timeout) :=
          hcalm _ (by rw [hlog]; exact List.mem_append_right _ hmem)
        exact absurd (hev rfl rfl) (by omega)
      · exact ⟨hc.trans hopen, rfl⟩

/-- A puller's outcome that ends the loop. -/
theorem Pulling.looping {timed : Bool} {s s' : Session} {script script' : List SockEvent}
    {p : Pulled} {l : List StreamEvent} (h : Pulling A r₀ timed s s' script script' p l)
    (hplain : s.stream.rxPlain = []) (hopen : s.stream.closed = false) :
    Looping A r₀ timed s s' p l := by
  obtain ⟨hlog, hret, ht, ⟨hd, f, hlast, hw, -⟩ | ⟨hnext, hp, hstop⟩⟩ := h
  · exact ⟨hlog, hret, ht, fun h => absurd h hw, by simp [hlast], by simp [hlast]⟩
  · have hset : Settled s' := ⟨hp.trans hplain, hnext⟩
    exact ⟨hlog, hret, ht, fun _ => hset, fun _ _ _ _ => hset,
      fun _ _ hl hcalm => hstop.timeout hopen hlog hl hcalm⟩

variable (A r₀) in
theorem readLoop_spec (timed : Bool) {n : ℕ} (s : Session) (script : List SockEvent)
    (hn : pendingBytes s script + 2 ≤ n) :
    ∃ l, Looping A r₀ timed s (readLoop A timed n s script).2.1 (readLoop A timed n s script).1 l := by
  induction n generalizing s script with
  | zero => omega
  | succ n ih =>
    unfold readLoop
    split_ifs with hready
    · exact ⟨[], by simp, rfl, id, by simp, by simp, by simp⟩
    · obtain ⟨hplain, hopen⟩ := not_or.mp hready
      rw [not_not] at hplain
      rw [Bool.not_eq_true] at hopen
      obtain ⟨l, hpull⟩ := pull_spec A r₀ timed s script
      rcases hp : pull A timed s script with ⟨p, s₁, script₁⟩
      rw [hp] at hpull
      simp only at hpull
      match p with
      | .waiting | .err _ | .ok false => exact ⟨l, hpull.looping hplain hopen⟩
      | .ok true =>
        simp only
        have hlooping := hpull.looping hplain hopen
        obtain ⟨hlog, hret, ht, ⟨hd, f, hlast, -, hlt⟩ | ⟨-, -, hstop⟩⟩ := hpull
        · -- a record was taken off: the loop goes on with less to read
          obtain ⟨l', hl'⟩ := ih s₁ script₁ (by omega)
          have hget : ∀ mode k ev, (l ++ l').getLast? = some (.sock mode k ev) →
              l'.getLast? = some (.sock mode k ev) := by
            intro mode k ev h
            rw [List.getLast?_append] at h
            cases hl : l'.getLast? with
            | none => simp [hl, hlast] at h
            | some e => simpa [hl] using h
          exact ⟨l ++ l', by rw [hl'.log, hlog, List.append_assoc], hl'.returned.trans hret,
            fun h => hl'.tracked (ht h), hl'.waiting,
            fun mode k ev h => hl'.socket mode k ev (hget mode k ev h),
            fun mode k h => hl'.timeout mode k (hget mode k .timeout h)⟩
        · -- the blocking puller met the end of the socket: the next turn leaves the loop
          have hclosed : s₁.stream.closed = true := by
            obtain ⟨h, -⟩ | ⟨ev, -, ⟨e, -, h, -⟩ | ⟨-, -, -, hc⟩ | ⟨-, -, h, -⟩⟩ := hstop
            · cases h
            · cases h
            · exact hc
            · cases timed <;> cases h
          obtain ⟨m, rfl⟩ := Nat.exists_eq_succ_of_ne_zero (show n ≠ 0 by omega)
          have hdone : readLoop A timed (m + 1) s₁ script₁ = (.ok true, s₁, script₁) := by
            rw [readLoop, if_pos (.inr hclosed)]
          rw [hdone]
          exact ⟨l, hlooping⟩

/-- What a read call says of a timeout. -/
def timeoutResult (timed : Bool) : ReadResult :=
  if timed then .bytes [] else .error (.protocol "read: RecvFailed(10060)")

variable (A r₀) in
theorem readCall_spec (timed : Bool) (n : ℕ) (s : Session) (script : List SockEvent) :
    ∃ l, (readCall A timed n s script).2.1.log = s.log ++ l ∧
      (Tracked A r₀ s → Tracked A r₀ (readCall A timed n s script).2.1) ∧
      ((readCall A timed n s script).1 = .waiting → Settled (readCall A timed n s script).2.1) ∧
      (∀ mode k ev, l.getLast? = some (.sock mode k ev) →
        Settled (readCall A timed n s script).2.1) ∧
      ∀ mode k, l.getLast? = some (.sock mode k .timeout) →
        (∀ e ∈ (readCall A timed n s script).2.1.log, Calm A e) →
        (readCall A timed n s script).2.1.stream.closed = false ∧
          (readCall A timed n s script).1 = timeoutResult timed := by
  obtain ⟨l, hloop⟩ := readLoop_spec A r₀ timed s script (le_refl _)
  unfold readCall
  unfold pendingBytes at hloop
  rcases hr : readLoop A timed (s.stream.rxRaw.length + scriptBytes script + 2) s script with
    ⟨p, s', script'⟩
  simp only [hr] at hloop
  refine ⟨l, ?_⟩
  match p with
  | .waiting =>
    refine ⟨hloop.log, hloop.tracked, fun _ => hloop.waiting rfl, hloop.socket,
      fun mode k h hcalm => ?_⟩
    have := (hloop.timeout mode k h hcalm).2
    cases timed <;> cases this
  | .err e =>
    refine ⟨hloop.log, hloop.tracked, by simp, hloop.socket, fun mode k h hcalm => ?_⟩
    obtain ⟨hc, hp⟩ := hloop.timeout mode k h hcalm
    cases timed with
    | false => exact ⟨hc, by rw [Pulled.err.inj hp]; rfl⟩
    | true => cases hp
  | .ok false =>
    refine ⟨hloop.log, hloop.tracked, by simp, hloop.socket, fun mode k h hcalm => ?_⟩
    obtain ⟨hc, hp⟩ := hloop.timeout mode k h hcalm
    cases timed with
    | false => cases hp
    | true => exact ⟨hc, rfl⟩
  | .ok true =>
    refine ⟨hloop.log, fun h => (hloop.tracked h).take n, by simp, fun mode k ev h => ?_,
      fun mode k h hcalm => ?_⟩
    · obtain ⟨hp, hn⟩ := hloop.socket mode k ev h
      exact ⟨by simp [hp], hn⟩
    · have := (hloop.timeout mode k h hcalm).2
      cases timed <;> cases this

theorem runReads_tracked {s : Session} (h : Tracked A r₀ s) (calls : List (Bool × ℕ))
    (script : List SockEvent) : Tracked A r₀ (runReads A calls s script).1 := by
  induction calls generalizing s script with
  | nil => exact h
  | cons call calls ih =>
    obtain ⟨-, -, ht, -⟩ := readCall_spec A r₀ call.1 call.2 s script
    exact ih (ht h) _

end Pull

/-! ### The drain -/

section Drain

variable {A : AeadFns} {r₀ : RxState}

theorem nextRecord_of_length {raw : Bytes} (h5 : ¬ raw.length < 5)
    (hlen : ¬ raw.length < recordLen raw) :
    nextRecord raw =
      some ((raw.take 5, (raw.take (recordLen raw)).drop 5), raw.drop (recordLen raw)) := by
  rw [nextRecord, if_neg h5, if_neg hlen]

/-- The drain takes a record that opened. -/
theorem Tracked.drained {s : Session} (h : Tracked A r₀ s) (h12 : s.stream.tls12 = none)
    (h5 : ¬ s.stream.rxRaw.length < 5) (hlen : ¬ s.stream.rxRaw.length < recordLen s.stream.rxRaw)
    (h20 : (s.stream.rxRaw.take 5).headD 0 ≠ ContentType.changeCipherSpec.code)
    {innerType : ContentType} {inner : Bytes} {rx : AeadKey}
    (hopen : AeadKey.openRecord A s.stream.rx (s.stream.rxRaw.take 5)
      ((s.stream.rxRaw.take (recordLen s.stream.rxRaw)).drop 5) = (.ok (innerType, inner), rx))
    (plain : Bytes) (hplain : plain = if innerType = .applicationData then inner else [])
    (closed : Bool) (hclosed : closed = true → s.stream.closed = true ∨ innerType = .alert) :
    Tracked A r₀ { s.takeRecord true with
      stream := { (s.takeRecord true).stream with
        rx := rx, rxPlain := s.stream.rxPlain ++ plain, closed := closed } } := by
  refine h.record true (nextRecord_of_length h5 hlen) rfl rfl (fun hty => ?_) rfl
  have h23 := (hty rfl).resolve_left h20
  have habs : absorb A s.stream.toRxState (s.stream.rxRaw.take 5,
      (s.stream.rxRaw.take (recordLen s.stream.rxRaw)).drop 5) =
      ({ s.stream.toRxState with rx := rx }, plain) := by
    simp only [absorb, if_neg (not_not.mpr h23), h12, hopen]
    cases innerType <;> simp [hplain]
  rw [habs]
  refine ⟨rfl, rfl, fun hcl => (hclosed hcl).imp_right ?_⟩
  rintro rfl
  simp only [closesOn, h12, hopen, decide_eq_true h23, Bool.and_self]

theorem drainRecords_tracked {n : ℕ} {s s' : Session} (h : Tracked A r₀ s)
    (h12 : s.stream.tls12 = none) (hd : drainRecords A n s = .ok s') :
    Tracked A r₀ s' ∧ s'.stream.tls12 = none := by
  induction n generalizing s with
  | zero =>
    obtain rfl := Except.ok.inj hd
    exact ⟨h, h12⟩
  | succ n ih =>
    unfold drainRecords at hd
    simp only at hd
    by_cases h5 : s.stream.rxRaw.length < 5
    · rw [if_pos h5] at hd
      obtain rfl := Except.ok.inj hd
      exact ⟨h, h12⟩
    rw [if_neg h5] at hd
    by_cases hlen : s.stream.rxRaw.length < recordLen s.stream.rxRaw
    · rw [if_pos hlen] at hd
      obtain rfl := Except.ok.inj hd
      exact ⟨h, h12⟩
    rw [if_neg hlen] at hd
    by_cases h20 : (s.stream.rxRaw.take 5).headD 0 = ContentType.changeCipherSpec.code
    · rw [if_pos h20] at hd
      refine ih (s := s.takeRecord true) ?_ h12 hd
      refine h.record true (nextRecord_of_length h5 hlen) rfl rfl (fun _ => ?_) rfl
      have h23 : (s.stream.rxRaw.take 5).headD 0 ≠ ContentType.applicationData.code := by
        rw [h20]; decide
      simp only [absorb, if_pos h23, List.append_nil]
      exact ⟨rfl, rfl, .inl⟩
    rw [if_neg h20] at hd
    rcases hopen : AeadKey.openRecord A s.stream.rx (s.stream.rxRaw.take 5)
        ((s.stream.rxRaw.take (recordLen s.stream.rxRaw)).drop 5) with ⟨e | ⟨innerType, inner⟩, rx⟩
    · simp only [hopen] at hd
      obtain rfl := Except.ok.inj hd
      split_ifs
      · exact ⟨h, h12⟩
      · exact ⟨fun hcalm => absurd (hcalm _ (List.mem_append_right _ (List.mem_singleton.mpr rfl)))
          (by simp [Calm]), h12⟩
    · have hdr := h.drained h12 h5 hlen h20 hopen
      simp only [hopen] at hd
      cases innerType with
      | applicationData =>
        simp only at hd
        exact ih (hdr inner rfl s.stream.closed .inl) h12 hd
      | handshake =>
        simp only at hd
        refine ih (s := { s.takeRecord true with
          stream := { (s.takeRecord true).stream with rx := rx } }) ?_ h12 hd
        simpa [Session.takeRecord] using hdr [] rfl s.stream.closed .inl
      | changeCipherSpec =>
        obtain rfl := Except.ok.inj hd
        refine ⟨?_, h12⟩
        simpa [Session.takeRecord] using hdr [] rfl s.stream.closed .inl
      | alert =>
        match inner with
        | [] | [_] =>
          obtain rfl := Except.ok.inj hd
          refine ⟨?_, h12⟩
          simpa [Session.takeRecord] using hdr [] rfl s.stream.closed .inl
        | level :: desc :: _ =>
          simp only at hd
          split_ifs at hd
          obtain rfl := Except.ok.inj hd
          refine ⟨?_, h12⟩
          simpa [Session.takeRecord] using hdr [] rfl true fun _ => .inr rfl

theorem drainPostHandshake_tracked {s s' : Session} {script script' : List SockEvent}
    (h : Tracked A r₀ s) (h12 : s.stream.tls12 = none)
    (hd : drainPostHandshake A s script = some (.ok (s', script'))) : Tracked A r₀ s' := by
  induction script generalizing s with
  | nil => cases hd
  | cons ev script ih =>
    have hs := h.sock .drain ev
    unfold drainPostHandshake at hd
    simp only at hd
    split at hd
    · split at hd
      · cases hd
      · rename_i s₁ hrec
        obtain ⟨ht, ht12⟩ := drainRecords_tracked hs (by exact h12) hrec
        exact ih ht ht12 hd
    · obtain ⟨rfl, rfl⟩ := Prod.mk.inj (Except.ok.inj (Option.some.inj hd))
      exact hs

end Drain

/-! ### Transparency -/

/-- A session `connect` returned, with what is left of the script: fresh under TLS 1.2,
drained under TLS 1.3. -/
def Connected (A : AeadFns) (r₀ : RxState) (s : Session) (script : List SockEvent) : Prop :=
  (r₀.tls12 ≠ none ∧ s = .fresh r₀) ∨
    (r₀.tls12 = none ∧
      ∃ script₀, drainPostHandshake A (.fresh r₀) script₀ = some (.ok (s, script)))

theorem Connected.tracked {A : AeadFns} {r₀ : RxState} {s : Session} {script : List SockEvent}
    (h : Connected A r₀ s script) : Tracked A r₀ s := by
  obtain ⟨-, rfl⟩ | ⟨h12, script₀, hd⟩ := h
  · exact tracked_fresh r₀
  · exact drainPostHandshake_tracked (tracked_fresh r₀) h12 hd

/-- Reading is transparent to the cutting of the stream and to timeouts. After any
read calls on a connection, for one more call of a run whose steps are calm: what
was returned is a prefix of the application data in record order; it is all of it
when the call waits or the socket was the last to act; a timeout is said to be one
and leaves the connection open; no byte is lost; and a closed connection was closed
by the end of the socket or by a record that ends it. -/
theorem reads_transparent (A : AeadFns) (r₀ : RxState) (s₀ : Session)
    (script₀ : List SockEvent) (calls : List (Bool × ℕ)) (timed : Bool) (n : ℕ)
    (hconn : Connected A r₀ s₀ script₀)
    (hcalm : ∀ e ∈ (readCall A timed n (runReads A calls s₀ script₀).1
      (runReads A calls s₀ script₀).2).2.1.log, Calm A e) :
    let s := (runReads A calls s₀ script₀).1
    let r := (readCall A timed n s (runReads A calls s₀ script₀).2).1
    let s' := (readCall A timed n s (runReads A calls s₀ script₀).2).2.1
    let all := plaintexts A r₀ (recordFramer.drain (received s'.log)).1
    s'.returned <+: all ∧
      (r = .waiting → s'.returned = all) ∧
      (∃ l, s'.log = s.log ++ l ∧
        (∀ mode k ev, l.getLast? = some (.sock mode k ev) → s'.returned = all) ∧
        ∀ mode k, l.getLast? = some (.sock mode k .timeout) →
          r = timeoutResult timed ∧ s'.stream.closed = false) ∧
      (received s'.log = (processed s'.log).flatMap wireOf ++ s'.stream.rxRaw ∧
        s'.returned ++ s'.stream.rxPlain = plaintexts A r₀ (processed s'.log)) ∧
      (s'.stream.closed = true → ClosedBy A s'.log) := by
  intro s r s' all
  obtain ⟨l, hlog, ht, hwait, hsock, htime⟩ := readCall_spec A r₀ timed n s
    (runReads A calls s₀ script₀).2
  have htr : Tracks A r₀ s' := ht (runReads_tracked hconn.tracked calls script₀) hcalm
  refine ⟨htr.returned_isPrefix, fun h => htr.all (hwait h), ⟨l, hlog, ?_, ?_⟩, ⟨htr.bytes, htr.plain⟩,
    htr.closed⟩
  · exact fun mode k ev h => htr.all (hsock mode k ev h)
  · intro mode k h
    obtain ⟨hc, hr⟩ := htime mode k h hcalm
    exact ⟨hr, hc⟩

/-! ### Samples -/

def sampleRx : RxState :=
  ⟨AeadKey.new .aes128Gcm (List.replicate 16 0) (List.replicate 12 0) List.length_replicate
    List.length_replicate, none⟩

/-- One application data record with one byte. -/
def sampleData : Bytes := [23, 3, 3, 0, 18, 65, 23] ++ List.replicate 16 0

/-- Connected under TLS 1.3: the drain timed out. -/
def sampleSession : Session := (Session.fresh sampleRx).sock .drain .timeout

theorem sampleSession_connected (script : List SockEvent) :
    Connected (sampleEnv true).A sampleRx sampleSession script :=
  .inr ⟨rfl, .timeout :: script, rfl⟩

/-- The record comes in two pieces with a timeout between them. -/
def sampleScript : List SockEvent := [.recv (sampleData.take 7), .timeout, .recv (sampleData.drop 7)]

/-- The timed call reports the timeout inside the body, the next one the byte. -/
theorem reads_transparent_sample :
    let s := (runReads (sampleEnv true).A [(true, 8)] sampleSession sampleScript)
    (readCall (sampleEnv true).A true 8 s.1 s.2).2.1.returned <+:
        plaintexts (sampleEnv true).A sampleRx (recordFramer.drain
          (received (readCall (sampleEnv true).A true 8 s.1 s.2).2.1.log)).1 ∧
      (readCall (sampleEnv true).A true 8 sampleSession sampleScript).1 = .bytes [] ∧
      (readCall (sampleEnv true).A true 8 s.1 s.2).1 = .bytes [65] :=
  ⟨(reads_transparent (sampleEnv true).A sampleRx sampleSession sampleScript [(true, 8)] true 8
    (sampleSession_connected _) (by decide +kernel)).1, by decide +kernel, by decide +kernel⟩

/-- A timed read that times out between two records closes the connection: nothing
ended it, and the record that comes next is never read. -/
theorem timeout_closes :
    let script := [SockEvent.timeout, .recv sampleData]
    let first := readCall (sampleEnv true).A true 8 sampleSession script
    let second := readCall (sampleEnv true).A false 8 first.2.1 first.2.2
    Connected (sampleEnv true).A sampleRx sampleSession script ∧
      first.1 = .bytes [] ∧ first.2.1.stream.closed = true ∧
      ¬ ClosedBy (sampleEnv true).A first.2.1.log ∧
      second.1 = .bytes [] ∧ second.2.2 = [.recv sampleData] ∧
      plaintexts (sampleEnv true).A sampleRx (recordFramer.drain sampleData).1 = [65] := by
  intro script first second
  have hlog : first.2.1.log = [.sock .drain 0 .timeout, .sock .timed 0 .timeout] := by
    decide +kernel
  refine ⟨sampleSession_connected script, by decide +kernel, by decide +kernel, ?_,
    by decide +kernel, by decide +kernel, by decide +kernel⟩
  rw [hlog]
  simp [ClosedBy, SockEvent.timeout]

end Conclave.Tls
