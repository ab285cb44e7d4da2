import Conclave.Net.H2Drive
import Conclave.Net.HpackCut
import Conclave.Net.Demux
import Conclave.Lib.Transducer

/-! The table of a shared connection against the one of the peer's encoder. The encoder
changes its table with every block it sends, whatever stream the block is for; a request
decodes what came for its own stream, once that has ended cleanly. The two stay equal as
long as nothing but whole blocks of the stream comes in with a response, and no block
before a reset. -/

namespace Conclave.Net.H2Drive

open Lib Http2 Hpack Send

/-! ### The encoder of the peer -/

/-- What the blocks sent so far make of an empty table, read in the order they were sent,
and the stream and the start of a block that is not complete. `valid` says that no frame
was malformed or out of place. -/
structure Encoder where
  table : HpackDynamicTable
  unfinished : Option (ℕ × Bytes)
  valid : Bool

namespace Encoder

def start : Encoder := ⟨.new, none, true⟩

/-- A block, complete with this frame or not, and the fields it says. -/
def block (e : Encoder) (id : ℕ) (block : Bytes) (endHeaders : Bool) :
    Encoder × List (ℕ × List Header) :=
  if endHeaders then
    match hpackDecodeBlock block e.table with
    | (none, t) => (⟨t, none, false⟩, [])
    | (some fields, t) => (⟨t, none, e.valid⟩, [(id, fields)])
  else ({ e with unfinished := some (id, block) }, [])

def invalid (e : Encoder) : Encoder × List (ℕ × List Header) := ({ e with valid := false }, [])

/-- Nothing may come between the frames of a block, and the client takes no pushes. -/
def send (e : Encoder) (f : Frame) : Encoder × List (ℕ × List Header) :=
  match e.unfinished with
  | none =>
    match f.hdr.typ with
    | .headers =>
      match headersFragment f.hdr f.body with
      | none => e.invalid
      | some fragment => e.block f.hdr.streamId fragment (f.hdr.flag 0x4)
    | .continuation | .pushPromise => e.invalid
    | _ => (e, [])
  | some (id, block) =>
    if f.hdr.typ = .continuation ∧ f.hdr.streamId = id then
      e.block id (block ++ f.body) (f.hdr.flag 0x4)
    else e.invalid

/-- The encoder of a peer that has sent these bytes. -/
def of (received : Bytes) : Encoder := (transduce send start (frames.drain received).1).1

end Encoder

/-! ### Runs -/

def Event.bytes : Event → Bytes
  | .read bytes _ => bytes
  | .failed _ => []

/-- The frames that a request completes with its reads. -/
def newFrames (c : H2Conn) (events : List Event) : List Frame :=
  (frames.drain (c.accum ++ events.flatMap Event.bytes)).1

abbrev Act := Request × List Event

/-- A request with all of its events, and no others. -/
def step (codecs : Codecs) (c : H2Conn) (a : Act) : Option H2Conn :=
  let d := h2DriveLocked codecs c a.1 a.2
  if d.unread = [] then some d.conn else none

/-- The fields that are sent for a stream with some frames, in one list. -/
def fieldsFor (sid : ℕ) (e : Encoder) (fs : List Frame) : List Header :=
  ((transduce Encoder.send e fs).2.filter fun b => b.1 = sid).flatMap Prod.snd

/-- The tables are equal after the request, and its response is the one that was sent. -/
structure InStep (codecs : Codecs) (c : H2Conn) (a : Act) (c' : H2Conn) : Prop where
  table : c'.decodeDyn = (Encoder.of c'.received).table
  response : ∀ resp, (h2DriveLocked codecs c a.1 a.2).result = .ok resp →
    resp.status = statusOf (fieldsFor c.h2.nextStreamId (.of c.received) (newFrames c a.2)) ∧
      resp.headers = regular (fieldsFor c.h2.nextStreamId (.of c.received) (newFrames c a.2))

def StaysInStep (codecs : Codecs) (c : H2Conn) (a : Act) : Prop :=
  ∀ c', step codecs c a = some c' → c'.poisoned = false → InStep codecs c a c'

/-! ### The condition -/

/-- The frame ends a stream. -/
def ends (sid : ℕ) (f : Frame) : Bool :=
  f.hdr.streamId = sid ∧ f.hdr.flag 0x1 ∧
    (f.hdr.typ = .data ∨ f.hdr.typ = .headers ∧ (headersFragment f.hdr f.body).isSome)

def resets (sid : ℕ) (f : Frame) : Bool := f.hdr.streamId = sid ∧ f.hdr.typ = .rstStream

/-- The frame is part of a block. -/
def carriesFields (f : Frame) : Bool :=
  f.hdr.typ = .headers ∨ f.hdr.typ = .continuation ∨ f.hdr.typ = .pushPromise

/-- With the frames of a request the peer keeps to the protocol; when they end the stream
they hold no part of a block for another one and all of the last block, and when they
reset it they hold no part of a block at all. -/
structure Separate (sid : ℕ) (e : Encoder) (fs : List Frame) : Prop where
  valid : (transduce Encoder.send e fs).1.valid = true
  own : (∃ f ∈ fs, ends sid f = true) → ∀ f ∈ fs, carriesFields f = true → f.hdr.streamId = sid
  whole : (∃ f ∈ fs, ends sid f = true) → (transduce Encoder.send e fs).1.unfinished = none
  quiet : (∃ f ∈ fs, resets sid f = true) → (∀ f ∈ fs, ends sid f = false) →
    ∀ f ∈ fs, carriesFields f = false

/-- On a connection that is usable and that does not refuse the stream. -/
def Orderly (c : H2Conn) (a : Act) : Prop :=
  c.poisoned = false → (∀ f ∈ newFrames c a.2, refuses c.h2.nextStreamId f = false) →
    Separate c.h2.nextStreamId (.of c.received) (newFrames c a.2)

/-! ### Blocks of one stream -/

/-- What a frame has for the block of a stream. -/
def fragment (sid : ℕ) (f : Frame) : Bytes := (Connection.Act.feedFrame f.hdr f.body).headers sid

namespace Encoder

variable {e : Encoder} {f : Frame} {fs : List Frame} {sid : ℕ}

theorem send_invalid (h : e.valid = false) (f : Frame) : (e.send f).1.valid = false := by
  have hblock : ∀ id b fin, (e.block id b fin).1.valid = false := by
    intro id b fin
    unfold block
    cases fin
    · exact h
    · cases hpackDecodeBlock b e.table with
      | mk r t => cases r <;> simp [h]
  unfold send
  cases e.unfinished with
  | none =>
    cases f.hdr.typ <;> simp only [invalid, h]
    cases headersFragment f.hdr f.body with
    | none => rfl
    | some b => exact hblock _ _ _
  | some p =>
    dsimp only
    split_ifs
    · exact hblock _ _ _
    · rfl

theorem send_other (hu : e.unfinished = none) (hf : carriesFields f = false) :
    e.send f = (e, []) := by
  simp only [carriesFields, decide_eq_false_iff_not, not_or] at hf
  unfold send
  rw [hu]
  cases htyp : f.hdr.typ <;> simp_all

/-- No part of a block, no change. -/
theorem transduce_quiet (hu : e.unfinished = none) (hf : ∀ f ∈ fs, carriesFields f = false) :
    transduce send e fs = (e, []) := by
  induction fs with
  | nil => rfl
  | cons f fs ih =>
    rw [transduce, send_other hu (hf f List.mem_cons_self)]
    simp [ih fun f hf' => hf f (List.mem_cons_of_mem _ hf')]

theorem valid_of_transduce (h : (transduce send e fs).1.valid = true) : e.valid = true := by
  by_contra hv
  have hkeep : ∀ (e : Encoder) (f : Frame), e.valid = false → (send e f).1.valid = false :=
    fun e f he => send_invalid he f
  have hkept := transduce_keeps (P := fun e : Encoder => e.valid = false) hkeep
    (Bool.eq_false_of_not_eq_true hv) fs
  rw [hkept] at h
  cases h

/-- The bytes of a block that is not complete. -/
def pending (e : Encoder) : Bytes := (e.unfinished.map Prod.snd).getD []

/-- What decoding a buffer gives once a frame has brought a block or a part of one. -/
theorem block_decode {e' : Encoder} {b rest : Bytes} {fin : Bool} {said : List (ℕ × List Header)}
    (h : e.block sid b fin = (e', said)) (hv : e'.valid = true) (out : List Header) :
    decodeBlockFrom (b ++ rest) e.table out =
        decodeBlockFrom (e'.pending ++ rest) e'.table (out ++ said.flatMap Prod.snd) ∧
      (∀ p ∈ said, p.1 = sid) ∧ (e'.unfinished = none ∨ ∃ b, e'.unfinished = some (sid, b)) := by
  unfold block at h
  cases fin with
  | false =>
    obtain ⟨rfl, rfl⟩ := Prod.mk.inj h
    exact ⟨by simp [pending], nofun, .inr ⟨b, rfl⟩⟩
  | true =>
    rw [if_pos rfl] at h
    cases hd : hpackDecodeBlock b e.table with
    | mk r t =>
      rw [hd] at h
      cases r with
      | none =>
        obtain ⟨rfl, rfl⟩ := Prod.mk.inj h
        cases hv
      | some fields =>
        obtain ⟨rfl, rfl⟩ := Prod.mk.inj h
        refine ⟨?_, by simp, .inl rfl⟩
        rw [decodeBlockFrom_block rest hd]
        simp [pending]

/-- One frame of blocks of one stream. -/
theorem send_decode (hu : e.unfinished = none ∨ ∃ b, e.unfinished = some (sid, b))
    (hf : carriesFields f = true → f.hdr.streamId = sid) (hv : (e.send f).1.valid = true)
    (rest : Bytes) (out : List Header) :
    decodeBlockFrom (e.pending ++ fragment sid f ++ rest) e.table out =
        decodeBlockFrom ((e.send f).1.pending ++ rest) (e.send f).1.table
          (out ++ (e.send f).2.flatMap Prod.snd) ∧
      (∀ p ∈ (e.send f).2, p.1 = sid) ∧
      ((e.send f).1.unfinished = none ∨ ∃ b, (e.send f).1.unfinished = some (sid, b)) := by
  obtain hu | ⟨b, hu⟩ := hu
  · by_cases hc : carriesFields f = true
    · have hid := hf hc
      have hpend : e.pending = [] := by rw [pending, hu]; rfl
      simp only [carriesFields, decide_eq_true_eq] at hc
      unfold send at hv ⊢
      rw [hu] at hv ⊢
      rcases hc with htyp | htyp | htyp
      · simp only [htyp] at hv ⊢
        cases hfr : headersFragment f.hdr f.body with
        | none =>
          rw [hfr] at hv
          cases hv
        | some b =>
          rw [hfr] at hv
          have hown : fragment sid f = b := by
            simp [fragment, Connection.Act.headers, hid, htyp, hfr]
          rw [hpend, List.nil_append, hown]
          rw [hid] at hv ⊢
          exact block_decode rfl hv out
      · rw [htyp] at hv
        cases hv
      · rw [htyp] at hv
        cases hv
    · have hother := send_other hu (Bool.eq_false_of_not_eq_true hc)
      have hnone : fragment sid f = [] := by
        simp only [carriesFields, decide_eq_true_eq, not_or] at hc
        unfold fragment Connection.Act.headers
        cases htyp : f.hdr.typ <;> simp_all
      rw [hother, hnone]
      exact ⟨by simp, fun p hp => absurd hp List.not_mem_nil, .inl hu⟩
  · unfold send at hv ⊢
    rw [hu] at hv ⊢
    dsimp only at hv ⊢
    by_cases hc : f.hdr.typ = .continuation ∧ f.hdr.streamId = sid
    · have hpend : e.pending = b := by rw [pending, hu]; rfl
      have hown : fragment sid f = f.body := by
        simp [fragment, Connection.Act.headers, hc.1, hc.2]
      rw [if_pos hc] at hv ⊢
      rw [hpend, hown]
      exact block_decode rfl hv out
    · rw [if_neg hc] at hv
      cases hv

/-- What was sent for the only stream there were blocks for, decoded as a whole. -/
theorem transduce_decode (hu : e.unfinished = none ∨ ∃ b, e.unfinished = some (sid, b))
    (hf : ∀ f ∈ fs, carriesFields f = true → f.hdr.streamId = sid)
    (hv : (transduce send e fs).1.valid = true)
    (hwhole : (transduce send e fs).1.unfinished = none) (out : List Header) :
    decodeBlockFrom (e.pending ++ fs.flatMap (fragment sid)) e.table out =
      (some (out ++ fieldsFor sid e fs), (transduce send e fs).1.table) := by
  induction fs generalizing e out with
  | nil =>
    have hpend : e.pending = [] := by
      rw [pending, show e.unfinished = none from hwhole]
      rfl
    rw [List.flatMap_nil, List.append_nil, hpend, decodeBlockFrom, if_pos rfl]
    simp [fieldsFor, transduce]
  | cons f fs ih =>
    have hv₁ : (e.send f).1.valid = true := valid_of_transduce hv
    obtain ⟨hstep, hown, hu'⟩ := send_decode hu (hf f List.mem_cons_self) hv₁
      (fs.flatMap (fragment sid)) out
    have hsaid : fieldsFor sid e (f :: fs) =
        (e.send f).2.flatMap Prod.snd ++ fieldsFor sid (e.send f).1 fs := by
      have hall : (e.send f).2.filter (fun b => b.1 = sid) = (e.send f).2 :=
        List.filter_eq_self.mpr fun p hp => decide_eq_true (hown p hp)
      rw [fieldsFor, transduce, List.filter_append, List.flatMap_append, hall]
      rfl
    rw [List.flatMap_cons, ← List.append_assoc, hstep,
      ih hu' (fun f hf' => hf f (List.mem_cons_of_mem _ hf')) hv hwhole, hsaid, List.append_assoc]
    rfl

end Encoder

/-! ### The stream of a request -/

/-- What the frames since a stream was opened have made of it. -/
structure Tracks (h2 : Connection) (sid : ℕ) (fs : List Frame) : Prop where
  block : ∃ data, h2.bufs sid = some (fs.flatMap (fragment sid), data)
  ended : ∀ p, h2.phases sid = some p → (p.eofRemote = true ↔ ∃ f ∈ fs, ends sid f = true)
  closed : ∀ p, h2.phases sid = some p → p.state = .closed →
    p.eofRemote = true ∨ ∃ f ∈ fs, resets sid f = true

variable {h2 : Connection} {sid : ℕ} {fs : List Frame}

theorem Tracks.congr {h2' : Connection} (h : Tracks h2 sid fs) (hs : h2'.streams = h2.streams) :
    Tracks h2' sid fs := by
  have hphases : h2'.phases = h2.phases := phases_congr hs
  exact ⟨Connection.bufs_congr (c := h2) hs ▸ h.block, hphases ▸ h.ended, hphases ▸ h.closed⟩

theorem tracks_request (h2 : Connection) (req : Request) :
    Tracks (request h2 req) h2.nextStreamId [] := by
  have hopen : h2.openStream.bufs h2.nextStreamId = some ([], []) := by
    rw [Connection.openStream, Connection.bufs_insertStream, if_pos rfl]
    rfl
  have hnew : h2.openStream.phases h2.nextStreamId = some .new := by
    rw [Connection.openStream, phases_insertStream, Function.update_self]
    rfl
  have hdrain : ∀ c : Connection, Tracks c h2.nextStreamId [] →
      Tracks (drainOutgoing c) h2.nextStreamId [] := fun c hc => hc.congr rfl
  have hsent : ∀ fin, (h2.openStream.sendHeaders h2.nextStreamId req.headers fin).phases
      h2.nextStreamId = some (Phase.new.sendHeaders fin) := by
    intro fin
    have hstep := congrFun (phases_step h2.openStream
      (.sendHeaders h2.nextStreamId req.headers fin)) h2.nextStreamId
    simpa [change, Connection.step, hnew] using hstep
  refine hdrain _ ?_
  by_cases hbody : req.body = []
  · rw [if_pos hbody]
    refine ⟨⟨[], (Connection.bufs_sendHeaders _ _ _).trans hopen⟩, ?_, ?_⟩ <;>
    · rw [hsent]
      rintro p hp
      obtain rfl := Option.some.inj hp
      simp [Phase.sendHeaders, Phase.new, hbody]
  · rw [if_neg hbody]
    have hphase : ∃ p, ((h2.openStream.sendHeaders h2.nextStreamId req.headers
        (req.body = [])).sendData h2.nextStreamId req.body true).phases h2.nextStreamId = some p ∧
          p.eofRemote = false ∧ p.state ≠ .closed := by
      have hstep := congrFun (phases_step (h2.openStream.sendHeaders h2.nextStreamId req.headers
        (req.body = [])) (.sendData h2.nextStreamId req.body true)) h2.nextStreamId
      simp only [change, Connection.step, Function.update_self, hsent] at hstep
      split_ifs at hstep
      · exact ⟨_, hstep, by simp [Phase.sendHeaders, Phase.new, hbody]⟩
      · refine ⟨_, hstep, ?_⟩
        simp [Phase.sendHeaders, Phase.sendData, Phase.new, hbody, StreamState.endLocal]
    obtain ⟨p, hp, hopenEnd, hstate⟩ := hphase
    refine ⟨⟨[], ?_⟩, fun q hq => ?_, fun q hq hc => ?_⟩
    · rw [Connection.bufs_sendData, Connection.bufs_sendHeaders]
      exact hopen
    · obtain rfl := Option.some.inj (hp.symm.trans hq)
      simp [hopenEnd]
    · obtain rfl := Option.some.inj (hp.symm.trans hq)
      exact absurd hc hstate

/-- What one frame does to the phase of a stream. -/
theorem phases_fed (h2 : Connection) (sid : ℕ) (f : Frame) {p q : Phase}
    (hp : h2.phases sid = some p) (hq : (h2.feedFrame f.hdr f.body).phases sid = some q) :
    (q.eofRemote = true ↔ p.eofRemote = true ∨ ends sid f = true) ∧
      (q.state = .closed → p.state = .closed ∨ q.eofRemote = true ∨ resets sid f = true) := by
  rw [phases_feedFrame] at hq
  by_cases hid : sid = f.hdr.streamId
  · subst hid
    have hend : ∀ fin : Bool, ((p.endStream fin).eofRemote = true ↔ p.eofRemote = true ∨ fin = true) ∧
        ((p.endStream fin).state = .closed → p.state = .closed ∨ (p.endStream fin).eofRemote = true) := by
      intro fin
      cases fin <;> simp +contextual [Phase.endStream]
    rw [Function.update_self, hp] at hq
    simp only [change] at hq
    unfold ends resets
    cases htyp : f.hdr.typ <;> rw [htyp] at hq <;> obtain rfl := Option.some.inj hq
    case data =>
      obtain ⟨h₁, h₂⟩ := hend (f.hdr.flag 0x1)
      exact ⟨by simpa using h₁, fun hc => (h₂ hc).imp_right .inl⟩
    case headers =>
      obtain ⟨h₁, h₂⟩ := hend (f.hdr.flag 0x1 && (Connection.headersPayload f.hdr f.body).isSome)
      rw [Option.getD_some]
      refine ⟨h₁.trans ?_, fun hc => (h₂ hc).imp_right .inl⟩
      rw [Connection.headersPayload_eq]
      simp
    case rstStream => simp [Phase.reset]
    all_goals exact ⟨by simp, .inl⟩
  · rw [Function.update_of_ne hid, hp] at hq
    obtain rfl := Option.some.inj hq
    have hne : f.hdr.streamId ≠ sid := Ne.symm hid
    exact ⟨by simp [ends, hne], .inl⟩

theorem Tracks.feed (h : Tracks h2 sid fs) (f : Frame) :
    Tracks (h2.feedFrame f.hdr f.body) sid (fs ++ [f]) := by
  obtain ⟨data, hb⟩ := h.block
  have hstep := Connection.bufs_step hb (.feedFrame f.hdr f.body) nofun
  obtain ⟨s, hs, -⟩ := Option.map_eq_some_iff.mp hb
  have hp : h2.phases sid = some s.phase := congrArg (Option.map Stream.phase) hs
  have hblock : fs.flatMap (fragment sid) ++ fragment sid f = (fs ++ [f]).flatMap (fragment sid) := by
    simp
  refine ⟨⟨_, hblock ▸ hstep⟩, fun q hq => ?_, fun q hq hc => ?_⟩
  · rw [(phases_fed h2 sid f hp hq).1, h.ended _ hp]
    simp [or_and_right, exists_or]
  · rcases (phases_fed h2 sid f hp hq).2 hc with hclosed | hend | hreset
    · rcases h.closed _ hp hclosed with hend | ⟨g, hg, hr⟩
      · exact .inl ((phases_fed h2 sid f hp hq).1.mpr (.inl hend))
      · exact .inr ⟨g, List.mem_append_left _ hg, hr⟩
    · exact .inl hend
    · exact .inr ⟨f, by simp, hreset⟩

theorem Tracks.feedFrames {h2' : Connection} {new : List Frame} (h : Tracks h2 sid fs)
    (hfed : feedFrames sid h2 new = some h2') :
    Tracks h2' sid (fs ++ new) ∧ ∀ f ∈ new, refuses sid f = false := by
  induction new generalizing h2 fs with
  | nil =>
    obtain rfl := Option.some.inj hfed
    exact ⟨by rwa [List.append_nil], nofun⟩
  | cons f new ih =>
    rw [H2Drive.feedFrames] at hfed
    split_ifs at hfed with hr
    obtain ⟨htracks, hrest⟩ := ih (h.feed f) hfed
    rw [List.append_assoc] at htracks
    exact ⟨htracks, List.forall_mem_cons.mpr ⟨Bool.eq_false_of_not_eq_true hr, hrest⟩⟩

theorem turn_ended (h : Tracks h2 sid fs) (ht : turn h2 sid = .ended) :
    ∃ f ∈ fs, ends sid f = true := by
  unfold turn at ht
  cases hs : h2.streams sid with
  | none =>
    rw [hs] at ht
    cases ht
  | some s =>
    simp only [hs] at ht
    split_ifs at ht with heof
    exact (h.ended _ (stream_phase hs)).mp heof

theorem turn_reset (h : Tracks h2 sid fs) (ht : turn h2 sid = .reset) :
    (∃ f ∈ fs, resets sid f = true) ∧ ∀ f ∈ fs, ends sid f = false := by
  unfold turn at ht
  cases hs : h2.streams sid with
  | none =>
    rw [hs] at ht
    cases ht
  | some s =>
    simp only [hs] at ht
    split_ifs at ht with heof hclosed
    have hp := stream_phase hs
    refine ⟨(h.closed _ hp hclosed).resolve_left heof, fun f hf => ?_⟩
    exact Bool.eq_false_of_not_eq_true fun hend => heof ((h.ended _ hp).mpr ⟨f, hf, hend⟩)

/-! ### The loop -/

/-- What a loop that left the connection usable has read and fed. -/
structure Fed (c : H2Conn) (sid : ℕ) (events : List Event) (c' : H2Conn) : Prop where
  received : c'.received = c.received ++ events.flatMap Event.bytes
  accum : c'.accum = (frames.drain (c.accum ++ events.flatMap Event.bytes)).2
  table : c'.decodeDyn = c.decodeDyn
  usable : c'.poisoned = c.poisoned
  served : ∀ f ∈ newFrames c events, refuses sid f = false

/-- The connection after a read whose frames were fed and answered. -/
def afterRead (c : H2Conn) (bytes : Bytes) (h2 : Connection) : H2Conn :=
  { c with
    received := c.received ++ bytes
    accum := (frames.drain (c.accum ++ bytes)).2
    h2 := drainOutgoing h2 }

section Reads

variable {c c' : H2Conn} {bytes : Bytes} {flush : Option TransportError} {events : List Event}

theorem drain_read (c : H2Conn) (bytes : Bytes) (h2 : Connection) (flush : Option TransportError)
    (events : List Event) :
    frames.drain (c.accum ++ (Event.read bytes flush :: events).flatMap Event.bytes) =
      ((frames.drain (c.accum ++ bytes)).1 ++ newFrames (afterRead c bytes h2) events,
        (frames.drain ((afterRead c bytes h2).accum ++ events.flatMap Event.bytes)).2) := by
  rw [List.flatMap_cons, ← List.append_assoc, Event.bytes, frames.drain_append (c.accum ++ bytes)]
  rfl

theorem newFrames_read (c : H2Conn) (bytes : Bytes) (h2 : Connection)
    (flush : Option TransportError) (events : List Event) :
    newFrames c (.read bytes flush :: events) =
      (frames.drain (c.accum ++ bytes)).1 ++ newFrames (afterRead c bytes h2) events :=
  congrArg Prod.fst (drain_read c bytes h2 flush events)

theorem Fed.read (flush : Option TransportError)
    (hserved : ∀ f ∈ (frames.drain (c.accum ++ bytes)).1, refuses sid f = false)
    (h : Fed (afterRead c bytes h2) sid events c') :
    Fed c sid (.read bytes flush :: events) c' where
  received := by
    rw [h.received, afterRead, List.flatMap_cons, ← List.append_assoc]
    rfl
  accum := h.accum.trans (congrArg Prod.snd (drain_read c bytes h2 flush events)).symm
  table := h.table
  usable := h.usable
  served := by
    rw [newFrames_read c bytes h2]
    exact List.forall_mem_append.mpr ⟨hserved, h.served⟩

/-- Nothing is left to split off after the last read. -/
theorem newFrames_last (c : H2Conn) (bytes : Bytes) (h2 : Connection) :
    newFrames (afterRead c bytes h2) [] = [] := by
  have hstill := frames.drain_rest_drain (c.accum ++ bytes)
  rw [newFrames, List.flatMap_nil, List.append_nil, afterRead, hstill]

theorem fed_last (c : H2Conn) (sid : ℕ) (bytes : Bytes) (h2 h2' : Connection) :
    Fed (afterRead c bytes h2) sid [] { afterRead c bytes h2 with h2 := h2' } where
  received := (List.append_nil _).symm
  accum := by
    have hstill := frames.drain_rest_drain (c.accum ++ bytes)
    rw [List.flatMap_nil, List.append_nil, afterRead, hstill]
  table := rfl
  usable := rfl
  served := by
    rw [newFrames_last]
    exact nofun

/-- A loop that leaves the connection usable ends with the stream, or by a reset. -/
inductive Ending (c : H2Conn) (sid : ℕ) (fs : List Frame) (events : List Event) : Looped → Prop
  | ended {c' : H2Conn} (fed : Fed c sid events c')
      (tracks : Tracks c'.h2 sid (fs ++ newFrames c events))
      (ending : ∃ f ∈ fs ++ newFrames c events, ends sid f = true) :
      Ending c sid fs events ⟨c', .ok (), []⟩
  | reset {c' : H2Conn} {e : NetError} (fed : Fed c sid events c')
      (resetting : ∃ f ∈ fs ++ newFrames c events, resets sid f = true)
      (going : ∀ f ∈ fs ++ newFrames c events, ends sid f = false) :
      Ending c sid fs events ⟨c', .error e, []⟩
  | failed {l : Looped} {e : NetError} (error : l.result = .error e)
      (fatal : isH2StreamLevelError e = false) : Ending c sid fs events l

theorem Ending.read {l : Looped} (h2 : Connection) (flush : Option TransportError)
    (hserved : ∀ f ∈ (frames.drain (c.accum ++ bytes)).1, refuses sid f = false)
    (h : Ending (afterRead c bytes h2) sid (fs ++ (frames.drain (c.accum ++ bytes)).1) events l) :
    Ending c sid fs (.read bytes flush :: events) l := by
  have hnew : fs ++ newFrames c (.read bytes flush :: events) =
      fs ++ (frames.drain (c.accum ++ bytes)).1 ++ newFrames (afterRead c bytes h2) events := by
    rw [newFrames_read c bytes h2, List.append_assoc]
  cases h with
  | ended fed tracks ending =>
    exact .ended (fed.read flush hserved) (hnew ▸ tracks) (hnew ▸ ending)
  | reset fed resetting going =>
    exact .reset (fed.read flush hserved) (hnew ▸ resetting) (hnew ▸ going)
  | failed error fatal => exact .failed error fatal

theorem readLoop_read (hne : bytes ≠ [])
    (hfed : feedFrames sid c.h2 (frames.drain (c.accum ++ bytes)).1 = some h2)
    (hflush : (if h2.outgoing = [] then none else flush) = none) :
    readLoop c sid (.read bytes flush :: events) =
      match turn (afterRead c bytes h2).h2 sid with
      | .ended => ⟨afterRead c bytes h2, .ok (), events⟩
      | .reset =>
        ⟨{ afterRead c bytes h2 with h2 := removeStream (afterRead c bytes h2).h2 sid },
          .error (.http "h2: stream reset"), events⟩
      | .waiting => readLoop (afterRead c bytes h2) sid events := by
  rw [readLoop, if_neg hne]
  simp only [hfed, hflush]
  rfl

theorem readLoop_spec (h : Tracks c.h2 sid fs) (hall : (readLoop c sid events).unread = []) :
    Ending c sid fs events (readLoop c sid events) := by
  induction events generalizing c fs with
  | nil => exact .failed rfl (by decide +kernel)
  | cons ev events ih =>
    cases ev with
    | failed e => exact .failed rfl e.notReset
    | read bytes flush =>
      by_cases hempty : bytes = []
      · rw [readLoop, if_pos hempty]
        exact .failed rfl (by decide +kernel)
      cases hfed : feedFrames sid c.h2 (frames.drain (c.accum ++ bytes)).1 with
      | none =>
        rw [readLoop, if_neg hempty]
        simp only [hfed]
        exact .failed rfl (by decide +kernel)
      | some h2 =>
        obtain ⟨htracks, hserved⟩ := h.feedFrames hfed
        have htracks' : Tracks (afterRead c bytes h2).h2 sid _ := htracks.congr rfl
        cases hflush : (if h2.outgoing = [] then none else flush) with
        | some e =>
          rw [readLoop, if_neg hempty]
          simp only [hfed, hflush]
          exact .failed rfl e.notReset
        | none =>
          rw [readLoop_read hempty hfed hflush] at hall ⊢
          refine Ending.read h2 flush hserved ?_
          cases hturn : turn (afterRead c bytes h2).h2 sid with
          | waiting =>
            simp only [hturn] at hall ⊢
            exact ih htracks' hall
          | ended =>
            simp only [hturn] at hall ⊢
            subst hall
            refine .ended (fed_last c sid bytes h2 _) ?_ ?_ <;>
              rw [newFrames_last, List.append_nil]
            · exact htracks'
            · exact turn_ended htracks' hturn
          | reset =>
            simp only [hturn] at hall ⊢
            subst hall
            obtain ⟨hres, hno⟩ := turn_reset htracks' hturn
            refine .reset (fed_last c sid bytes h2 _) ?_ ?_ <;> rw [newFrames_last, List.append_nil]
            · exact hres
            · exact hno

end Reads

/-! ### One request -/

/-- Between two requests on a usable connection. -/
structure Matched (c : H2Conn) : Prop where
  accum : c.accum = (frames.drain c.received).2
  table : c.decodeDyn = (Encoder.of c.received).table
  whole : (Encoder.of c.received).unfinished = none

theorem matched_new : Matched .new := ⟨rfl, rfl, rfl⟩

variable {codecs : Codecs} {c c' : H2Conn} {a : Act} {events : List Event}

theorem encoder_append (h : c.accum = (frames.drain c.received).2) (events : List Event) :
    Encoder.of (c.received ++ events.flatMap Event.bytes) =
      (transduce Encoder.send (.of c.received) (newFrames c events)).1 := by
  rw [Encoder.of, frames.drain_append, transduce_append, newFrames, h]
  rfl

theorem accum_append (h : c.accum = (frames.drain c.received).2) (events : List Event) :
    (frames.drain (c.accum ++ events.flatMap Event.bytes)).2 =
      (frames.drain (c.received ++ events.flatMap Event.bytes)).2 := by
  rw [frames.drain_append c.received, h]

/-- A block that decodes leaves its table, and a response has its fields. -/
theorem finish_spec (codecs : Codecs) {block data : Bytes} {fields : List Header} {t : HpackDynamicTable}
    (hb : c.h2.bufs sid = some (block, data))
    (hd : hpackDecodeBlock block c.decodeDyn = (some fields, t)) :
    (finish codecs c sid).1.received = c.received ∧ (finish codecs c sid).1.accum = c.accum ∧
      (finish codecs c sid).1.decodeDyn = t ∧
      ∀ resp, (finish codecs c sid).2 = .ok resp →
        resp.status = statusOf fields ∧ resp.headers = regular fields := by
  obtain ⟨s, hs, hbufs⟩ := Option.map_eq_some_iff.mp hb
  obtain ⟨hblock, -⟩ := Prod.mk.inj hbufs
  subst hblock
  simp only [finish, hs, hd]
  split_ifs
  · exact ⟨rfl, rfl, rfl, nofun⟩
  · refine ⟨rfl, rfl, rfl, fun resp hresp => ?_⟩
    cases hbody : decodeContentEncoding codecs (regular fields) s.dataBuf with
    | error e =>
      rw [hbody] at hresp
      cases hresp
    | ok body =>
      rw [hbody] at hresp
      cases hresp
      exact ⟨rfl, rfl⟩

/-- A stream that ended: its block was the only one. -/
theorem matched_finish (codecs : Codecs) (hm : Matched c) {c₁ : H2Conn} (hfed : Fed c sid events c₁)
    (htracks : Tracks c₁.h2 sid (newFrames c events))
    (hend : ∃ f ∈ newFrames c events, ends sid f = true)
    (hsep : Separate sid (.of c.received) (newFrames c events)) :
    Matched (finish codecs c₁ sid).1 ∧ ∀ resp, (finish codecs c₁ sid).2 = .ok resp →
      resp.status = statusOf (fieldsFor sid (.of c.received) (newFrames c events)) ∧
        resp.headers = regular (fieldsFor sid (.of c.received) (newFrames c events)) := by
  obtain ⟨data, hb⟩ := htracks.block
  have hdecode := Encoder.transduce_decode (.inl hm.whole) (hsep.own hend) hsep.valid
    (hsep.whole hend) []
  have hpend : (Encoder.of c.received).pending = [] := by
    rw [Encoder.pending, hm.whole]
    rfl
  rw [hpend, List.nil_append, List.nil_append, ← hm.table, ← hfed.table] at hdecode
  obtain ⟨hreceived, haccum, htable, hresp⟩ := finish_spec codecs hb hdecode
  have henc := encoder_append hm.accum events
  refine ⟨⟨?_, ?_, ?_⟩, hresp⟩
  · rw [haccum, hreceived, hfed.accum, hfed.received, accum_append hm.accum]
  · rw [htable, hreceived, hfed.received, henc]
  · rw [hreceived, hfed.received, henc]
    exact hsep.whole hend

/-- A stream that was reset: there was no block. -/
theorem matched_reset (hm : Matched c) {c₁ : H2Conn} (hfed : Fed c sid events c₁)
    (hres : ∃ f ∈ newFrames c events, resets sid f = true)
    (hno : ∀ f ∈ newFrames c events, ends sid f = false)
    (hsep : Separate sid (.of c.received) (newFrames c events)) : Matched c₁ := by
  have hquiet := Encoder.transduce_quiet hm.whole (hsep.quiet hres hno)
  have henc : Encoder.of c₁.received = Encoder.of c.received := by
    rw [hfed.received, encoder_append hm.accum, hquiet]
  refine ⟨?_, ?_, ?_⟩
  · rw [hfed.accum, hfed.received, accum_append hm.accum]
  · rw [hfed.table, henc, hm.table]
  · rw [henc, hm.whole]

theorem matched_step (hm : Matched c) (hc : c.poisoned = false) (hok : Orderly c a)
    (h : step codecs c a = some c') (hc' : c'.poisoned = false) :
    Matched c' ∧ InStep codecs c a c' := by
  obtain ⟨req, events⟩ := a
  unfold step at h
  dsimp only at h
  split_ifs at h with hall
  obtain rfl := Option.some.inj h
  suffices hmain : Matched (h2DriveLocked codecs c req events).conn ∧
      ∀ resp, (h2DriveLocked codecs c req events).result = .ok resp →
        resp.status = statusOf (fieldsFor c.h2.nextStreamId (.of c.received) (newFrames c events)) ∧
          resp.headers = regular (fieldsFor c.h2.nextStreamId (.of c.received)
            (newFrames c events)) from
    ⟨hmain.1, hmain.1.table, hmain.2⟩
  unfold h2DriveLocked at hall hc' ⊢
  rw [if_neg (by simp [hc])] at hall hc' ⊢
  by_cases hgoaway : c.h2.closedByGoaway = true
  · rw [if_pos hgoaway] at hc'
    cases hc'
  rw [if_neg hgoaway] at hall hc' ⊢
  by_cases hmax : 0 < c.h2.peerMaxConcurrent ∧ c.h2.peerMaxConcurrent ≤ c.h2.activeStreamCount
  · rw [if_pos hmax]
    exact ⟨hm, nofun⟩
  rw [if_neg hmax] at hall hc' ⊢
  dsimp only [h2DriveRequest] at hall hc' ⊢
  obtain ⟨c₀, hc₀⟩ : ∃ c₀ : H2Conn, c₀ = { c with h2 := request c.h2 req } := ⟨_, rfl⟩
  rw [← hc₀] at hall hc' ⊢
  have hm₀ : Matched c₀ := by
    rw [hc₀]
    exact ⟨hm.accum, hm.table, hm.whole⟩
  have hnew : newFrames c₀ events = newFrames c events := by rw [hc₀]; rfl
  have hrec : c₀.received = c.received := by rw [hc₀]
  have htracks : Tracks c₀.h2 c.h2.nextStreamId [] := by
    rw [hc₀]
    exact tracks_request c.h2 req
  have hsep := fun hserved => hok hc hserved
  rw [← hnew, ← hrec] at hsep ⊢
  have hspec : (readLoop c₀ c.h2.nextStreamId events).unread = [] →
      Ending c₀ c.h2.nextStreamId [] events (readLoop c₀ c.h2.nextStreamId events) :=
    readLoop_spec htracks
  generalize readLoop c₀ c.h2.nextStreamId events = l at hspec hall hc' ⊢
  have hunread : l.unread = [] := by
    revert hall
    cases l.result with
    | error e => exact fun hall => hall
    | ok u => cases hf : (finish codecs l.conn c.h2.nextStreamId).2 <;> exact fun hall => hall
  cases hspec hunread with
  | ended fed tracks ending =>
    dsimp only at hc' ⊢
    obtain ⟨hmatched, hresp⟩ := matched_finish codecs hm₀ fed tracks ending
      (hsep fed.served)
    cases hf : (finish codecs _ c.h2.nextStreamId).2 with
    | ok resp => exact ⟨hmatched, fun r hr => hresp r (hf.trans hr)⟩
    | error e => exact ⟨⟨hmatched.accum, hmatched.table, hmatched.whole⟩, nofun⟩
  | reset fed resetting going =>
    have hmatched := matched_reset hm₀ fed resetting going (hsep fed.served)
    exact ⟨⟨hmatched.accum, hmatched.table, hmatched.whole⟩, nofun⟩
  | failed error fatal =>
    simp [error, fatal] at hc'

theorem step_poisoned (hc : c.poisoned = true) (h : step codecs c a = some c') :
    c'.poisoned = true := by
  simp only [step, h2DriveLocked, hc, if_true] at h
  split_ifs at h
  exact Option.some.inj h ▸ hc

/-- In a run whose requests are all orderly, every one that leaves the connection usable
leaves it in step with the encoder of the peer, and has the response that was sent. -/
theorem hpack_in_step (codecs : Codecs) (acts : List Act)
    (h : RunsWith (step codecs) Orderly .new acts) :
    RunsWith (step codecs) (StaysInStep codecs) .new acts := by
  refine runsWith_imp (P := fun c => c.poisoned = false → Matched c)
    (fun c a c' hm hok hstep hc' => ?_) (fun c a hm hok c' hstep hc' => ?_)
    (fun _ => matched_new) h
  all_goals
    have hc : c.poisoned = false := by
      by_contra hp
      rw [step_poisoned (Bool.eq_true_of_not_eq_false hp) hstep] at hc'
      cases hc'
  · exact (matched_step (hm hc) hc hok hstep hc').1
  · exact (matched_step (hm hc) hc hok hstep hc').2

/-- `:status: 200`, and a literal that goes into the table. -/
def sampleBlock : Bytes := [0x88, 0x40, 1, 120, 1, 121]

theorem sampleBlock_decode :
    hpackDecodeBlock sampleBlock .new =
      (some [(":status", "200"), ("x", "y")], ⟨4096, [("x", "y")]⟩) := by
  have hx : fromUtf8 [120] = some "x" := fromUtf8_utf8 "x"
  have hy : fromUtf8 [121] = some "y" := fromUtf8_utf8 "y"
  have h₁ : decodeField sampleBlock .new =
      some (some (":status", "200"), [0x40, 1, 120, 1, 121], .new) := by decide +kernel
  have h₂ : decodeField [0x40, 1, 120, 1, 121] .new =
      some (some ("x", "y"), [], HpackDynamicTable.new.insert "x" "y") := by
    simp [decodeField, decodeLiteral, hpackDecodeInt, decodeName, hpackDecodeString, literalBytes,
      hx, hy]
  have hkeep : evict 4096 [("x", "y")] = [("x", "y")] := by
    rw [evict, if_neg]
    decide +kernel
  rw [hpackDecodeBlock, decodeBlockFrom_some _ h₁, decodeBlockFrom_some _ h₂, decodeBlockFrom,
    if_pos rfl, HpackDynamicTable.insert]
  simp only [HpackDynamicTable.new, hkeep]
  rfl

theorem send_sampleBlock {flags : UInt8} (hflags : flags = 0x4 ∨ flags = 0x5) :
    Encoder.start.send (frame .headers flags 1 sampleBlock) =
      (⟨⟨4096, [("x", "y")]⟩, none, true⟩, [(1, [(":status", "200"), ("x", "y")])]) := by
  have hfragment : headersFragment ⟨6, .headers, flags, 1⟩ sampleBlock = some sampleBlock := by
    rcases hflags with rfl | rfl <;> rfl
  have hflag : (⟨6, .headers, flags, 1⟩ : FrameHeader).flag 0x4 = true := by
    rcases hflags with rfl | rfl <;> rfl
  have hdecode : hpackDecodeBlock sampleBlock Encoder.start.table = _ := sampleBlock_decode
  have hlen : sampleBlock.length % 2 ^ 32 = 6 := rfl
  simp only [Encoder.send, frame, hlen, hfragment, Encoder.block, hflag, hdecode]
  rfl

def plain : Codecs := ⟨.ok, .ok, .ok⟩

def answered : Act := (⟨[], []⟩, [.read (frame .headers 0x5 1 sampleBlock).wire none])

theorem hpack_in_step_sample : RunsWith (step plain) (StaysInStep plain) .new [answered] := by
  have hnew : newFrames .new answered.2 = [frame .headers 0x5 1 sampleBlock] := by decide +kernel
  have hsend := send_sampleBlock (.inr rfl)
  refine hpack_in_step plain [answered] ⟨fun _ _ => ?_, fun _ _ => trivial⟩
  rw [hnew]
  have hrun : transduce Encoder.send (Encoder.of H2Conn.new.received)
      [frame .headers 0x5 1 sampleBlock] = _ :=
    congrArg (fun r : Encoder × List (ℕ × List Header) => (r.1, r.2 ++ [])) hsend
  refine ⟨by rw [hrun], fun _ => ?_, fun _ => by rw [hrun], ?_⟩
  · decide +kernel
  · decide +kernel

/-- Headers, and then a reset. -/
def resetAct : Act := (⟨[], []⟩, [.read ((frame .headers 0x4 1 sampleBlock).wire ++
  (frame .rstStream 0x0 1 [0, 0, 0, 0]).wire) none])

/-- A peer that keeps to the protocol. -/
def Allowed (c : H2Conn) (a : Act) : Prop :=
  (transduce Encoder.send (.of c.received) (newFrames c a.2)).1.valid = true

/-- The block before a reset is never decoded. -/
theorem hpack_out_of_step :
    ¬ ∀ acts, RunsWith (step plain) Allowed .new acts →
      RunsWith (step plain) (StaysInStep plain) .new acts := by
  intro h
  have hnew : (frames.drain (resetAct.2.flatMap Event.bytes)).1 =
      [frame .headers 0x4 1 sampleBlock, frame .rstStream 0x0 1 [0, 0, 0, 0]] := by decide +kernel
  have hsend := send_sampleBlock (.inl rfl)
  have hrun : (transduce Encoder.send Encoder.start
      [frame .headers 0x4 1 sampleBlock, frame .rstStream 0x0 1 [0, 0, 0, 0]]).1 =
        ⟨⟨4096, [("x", "y")]⟩, none, true⟩ := by
    rw [transduce, hsend]
    rfl
  have hidle : H2Conn.new.h2.activeStreamCount = 0 := by
    have hnone : (List.range (2 ^ 32)).filterMap H2Conn.new.h2.streams = [] :=
      List.filterMap_eq_nil_iff.mpr fun _ _ => rfl
    rw [Connection.activeStreamCount, hnone, List.countP_nil]
  obtain ⟨c₁, hloop, htable, hreceived⟩ : ∃ c₁,
      readLoop { H2Conn.new with h2 := request H2Conn.new.h2 resetAct.1 } 1 resetAct.2 =
        ⟨c₁, .error (.http "h2: stream reset"), []⟩ ∧ c₁.decodeDyn = .new ∧
          c₁.received = resetAct.2.flatMap Event.bytes := ⟨_, rfl, rfl, rfl⟩
  have hdrive : h2DriveLocked plain .new resetAct.1 resetAct.2 =
      ⟨{ c₁ with poisoned := false }, .error (.http "h2: stream reset"), []⟩ := by
    have hstream : isH2StreamLevelError (.http "h2: stream reset") = true := by decide +kernel
    have hloop' : readLoop { H2Conn.new with h2 := request H2Conn.new.h2 resetAct.1 }
        H2Conn.new.h2.nextStreamId resetAct.2 = _ := hloop
    unfold h2DriveLocked
    rw [if_neg (by decide), if_neg (by decide), if_neg (by rw [hidle]; decide)]
    simp only [h2DriveRequest, hloop', hstream, Bool.not_true]
  have hstep : step plain .new resetAct = some { c₁ with poisoned := false } := by
    rw [step, hdrive]
    rfl
  have hallowed : RunsWith (step plain) Allowed .new [resetAct] := by
    refine ⟨?_, fun _ _ => trivial⟩
    rw [Allowed]
    have hnew' : newFrames .new resetAct.2 = _ := hnew
    rw [hnew', show Encoder.of H2Conn.new.received = Encoder.start from rfl, hrun]
  have hin := ((h [resetAct] hallowed).1 _ hstep rfl).table
  rw [Encoder.of] at hin
  simp only [hreceived, htable, hnew, hrun] at hin
  cases hin

end Conclave.Net.H2Drive
