import Conclave.Net.SseFraming
import Conclave.Net.SseLines

/-! What an event stream says does not depend on its reads. Framing, characters and lines are
three machines that read one after the other, so the meaning of a stream is that of its
bytes; a read loop whose reads all end cleanly sends the events of that meaning. -/

namespace Conclave.Net.Sse

open Lib Text

/-- What the bytes so far say. -/
structure Meaning where
  frame : Frame
  utf8 : Utf8State
  reading : Reading
  sent : List SseEvent
  body : Bytes
  deriving DecidableEq, Repr

namespace Meaning

def start (chunked : Bool) (contentLength : Option ℕ) (lastEventId : Text) : Meaning :=
  ⟨if chunked then .sizeLine [] else .body contentLength, .ground, ⟨false, .new lastEventId⟩, [], []⟩

/-- The text that some more bytes carry. -/
def text (m : Meaning) (r : Bytes) : Text := (transduce utf8Step m.utf8 (m.frame.read r).2).2

def read (m : Meaning) (r : Bytes) : Meaning where
  frame := (m.frame.read r).1
  utf8 := (transduce utf8Step m.utf8 (m.frame.read r).2).1
  reading := (m.reading.read (m.text r)).1
  sent := m.sent ++ (m.reading.read (m.text r)).2
  body := m.body ++ (m.frame.read r).2

theorem read_append (m : Meaning) (r r' : Bytes) : m.read (r ++ r') = (m.read r).read r' := by
  simp [read, text, Sse.read_append, transduce_append, Reading.read_append]

theorem read_nil (m : Meaning) : m.read [] = m := by
  simp [read, text, Frame.read, Reading.read, transduce]

theorem foldl_read (m : Meaning) (reads : List Bytes) :
    reads.foldl read m = m.read reads.flatten := by
  induction reads generalizing m with
  | nil => exact (read_nil m).symm
  | cons r reads ih => rw [List.foldl_cons, ih, List.flatten_cons, read_append]

/-- Behind its end a stream says nothing. -/
theorem read_ended {m : Meaning} (h : m.frame = .ended) (r : Bytes) : m.read r = m := by
  simp [read, text, h, ended_read, Reading.read, transduce]
  exact h ▸ rfl

end Meaning

/-- A read that ends where the loop can go on: where the decoder can, not past the length, not
within a character, not in an open event unless within its first line; and that does not begin
with the second half of a line end. -/
structure Clean (m : Meaning) (r : Bytes) : Prop where
  settled : (m.read r).frame.Settled
  within : ∀ left, m.frame = .body (some left) → r.length ≤ left
  whole : (m.read r).utf8 = .ground
  lineEnd : ¬(m.reading.afterCr = true ∧ (m.text r).head? = some '\n')
  event : Inline (m.text r) ∨ (m.read r).reading.parser.Idle

def CleanRun : Meaning → List Bytes → Prop
  | _, [] => True
  | m, r :: reads => Clean m r ∧ CleanRun (m.read r) reads

/-- Where a connection stands. -/
def SseConnection.frame (c : SseConnection) : Frame :=
  if c.chunked then .ofRemaining c.chunkRemaining
  else .body (c.contentLength.map fun len => len - c.delivered)

/-- The read loop is where the bytes so far have brought it. -/
structure Matches (w : Worker) (m : Meaning) : Prop where
  eof : w.conn.eof = true ↔ m.frame = .ended
  conn : w.conn.eof = false → w.conn.rxRaw = [] ∧ m.frame = w.conn.frame
  ground : m.utf8 = .ground
  parser : w.parser = m.reading.parser
  pending : Inline m.reading.parser.pending
  sent : w.sent = m.sent
  body : w.body = m.body

theorem ofRemaining_ne_ended (n : ℕ) : Frame.ofRemaining n ≠ .ended := by
  unfold Frame.ofRemaining
  split_ifs <;> exact fun h => nomatch h

/-- The decoder after a read, next to the framing of its bytes. -/
theorem decode_eq {c : SseConnection} {r : Bytes} (hr : r ≠ []) (hc : c.eof = false)
    (hsettled : (c.frame.read r).1.Settled)
    (hwithin : ∀ left, c.frame = .body (some left) → r.length ≤ left) :
    (SseConnection.decode { c with rxRaw := r }).2 = (c.frame.read r).2 ∧
      ((SseConnection.decode { c with rxRaw := r }).1.eof = true ∧
          (c.frame.read r).1 = .ended ∨
        (SseConnection.decode { c with rxRaw := r }).1.eof = false ∧
          (SseConnection.decode { c with rxRaw := r }).1.rxRaw = [] ∧
          (c.frame.read r).1 = (SseConnection.decode { c with rxRaw := r }).1.frame ∧
          (c.frame.read r).1 ≠ .ended) := by
  obtain ⟨rxRaw, chunked, chunkRemaining, contentLength, delivered, eof⟩ := c
  cases chunked with
  | true =>
    have hframe : SseConnection.frame ⟨rxRaw, true, chunkRemaining, contentLength, delivered, eof⟩ =
        .ofRemaining chunkRemaining := rfl
    rw [hframe] at hsettled ⊢
    obtain ⟨hout, hend | ⟨heof, hrx, hmode⟩⟩ := decodeChunked_eq r chunkRemaining hsettled
    · exact ⟨hout, .inl hend⟩
    · exact ⟨hout, .inr ⟨heof, hrx, hmode, hmode ▸ ofRemaining_ne_ended _⟩⟩
  | false =>
    cases contentLength with
    | none =>
      have hframe : SseConnection.frame ⟨rxRaw, false, chunkRemaining, none, delivered, eof⟩ =
          .body none := rfl
      rw [hframe, body_read_none]
      exact ⟨rfl, .inr ⟨rfl, rfl, rfl, fun h => nomatch h⟩⟩
    | some len =>
      have hframe : SseConnection.frame ⟨rxRaw, false, chunkRemaining, some len, delivered, eof⟩ =
          .body (some (len - delivered)) := rfl
      have hle := hwithin _ hframe
      have hpos := List.length_pos_of_ne_nil hr
      rw [hframe, body_read_some hle hr]
      refine ⟨rfl, ?_⟩
      by_cases hend : len - delivered = r.length
      · left
        refine ⟨?_, by rw [if_pos hend]⟩
        simp [SseConnection.decode]
        omega
      · right
        rw [if_neg hend]
        refine ⟨?_, rfl, ?_, fun h => nomatch h⟩
        · simp [SseConnection.decode]
          omega
        · simp [SseConnection.decode, SseConnection.frame]
          omega

theorem poll_quiet {c : SseConnection} (heof : c.eof = false) (hrx : c.rxRaw = [])
    (reads : List Bytes) : c.poll ([] :: reads) = (c, reads, none) := by
  simp [SseConnection.poll, heof, hrx]

theorem poll_read {c : SseConnection} (heof : c.eof = false) (hrx : c.rxRaw = []) {r : Bytes}
    (hr : r ≠ []) (reads : List Bytes) :
    c.poll (r :: reads) =
      ((SseConnection.decode { c with rxRaw := r }).1, reads,
        if (SseConnection.decode { c with rxRaw := r }).2 = [] then none
        else some (SseConnection.decode { c with rxRaw := r }).2) := by
  simp [SseConnection.poll, heof, hrx, hr]

/-- The text of a clean read is that of its bytes alone. -/
theorem text_eq {m : Meaning} {r : Bytes} (hground : m.utf8 = .ground) (hclean : Clean m r) :
    fromUtf8Lossy (m.frame.read r).2 = m.text r := by
  have hwhole := hclean.whole
  rw [Meaning.text, hground]
  exact fromUtf8Lossy_of_ground (by simpa [Meaning.read, hground] using hwhole)

/-- What a connection that has decoded a read hands on, the worker turns into events. -/
theorem matches_read {w : Worker} {m : Meaning} {r : Bytes} {conn : SseConnection}
    (reads : List Bytes) (h : Matches w m) (hclean : Clean m r)
    (hend : conn.eof = true ∧ (m.read r).frame = .ended ∨
      conn.eof = false ∧ conn.rxRaw = [] ∧ (m.read r).frame = conn.frame ∧
        (m.read r).frame ≠ .ended) :
    Matches ⟨conn, reads, (w.parser.feed (m.text r)).1, w.sent ++ (w.parser.feed (m.text r)).2,
      w.body ++ (m.frame.read r).2⟩ (m.read r) := by
  have hfeed := feed_eq h.pending hclean.lineEnd hclean.event
  rw [h.parser, hfeed]
  constructor
  · obtain ⟨heof, hframe⟩ | ⟨heof, -, -, hframe⟩ := hend
    · simp [heof, hframe]
    · simp [heof, hframe]
  · intro heof
    obtain ⟨heof', -⟩ | ⟨-, hrx, hframe, -⟩ := hend
    · exact absurd (heof'.symm.trans heof) (by simp)
    · exact ⟨hrx, hframe⟩
  · exact hclean.whole
  · rfl
  · exact read_pending h.pending _
  · rw [h.sent]
    rfl
  · rw [h.body]
    rfl

theorem feed_nil {q : Reading} (h : Inline q.parser.pending) : q.parser.feed [] = (q.parser, []) :=
  feed_eq h (by simp) (.inl ⟨List.not_mem_nil, List.not_mem_nil⟩)

/-- One turn of the loop reads what the socket gives next. -/
theorem matches_turn {w : Worker} {m : Meaning} {r : Bytes} {reads : List Bytes}
    (h : Matches w m) (hreads : w.conn.eof = false → w.reads = r :: reads) (hclean : Clean m r) :
    Matches w.turn (m.read r) ∧ (w.turn.conn.eof = false → w.turn.reads = reads) := by
  unfold Worker.turn
  cases heof : w.conn.eof with
  | true =>
    have hm := Meaning.read_ended (h.eof.1 heof) r
    rw [if_pos rfl, hm]
    exact ⟨h, fun hne => by rw [heof] at hne; cases hne⟩
  | false =>
    obtain ⟨hrx, hframe⟩ := h.conn heof
    rw [if_neg (by simp), hreads heof]
    by_cases hr : r = []
    · subst hr
      rw [poll_quiet heof hrx, Meaning.read_nil]
      exact ⟨⟨h.eof, h.conn, h.ground, h.parser, h.pending, h.sent, h.body⟩, fun _ => rfl⟩
    · have hsettled : (w.conn.frame.read r).1.Settled := hframe ▸ hclean.settled
      obtain ⟨hout, hend⟩ := decode_eq hr heof hsettled (hframe ▸ hclean.within)
      rw [← hframe] at hout hend
      rw [poll_read heof hrx hr]
      have hread := matches_read reads h hclean hend
      by_cases hnil : (m.frame.read r).2 = []
      · -- Nothing was decoded, and the parser is not asked.
        rw [if_pos (hout.trans hnil)]
        have htext : m.text r = [] := by rw [Meaning.text, hnil]; rfl
        rw [htext, h.parser, feed_nil h.pending, hnil, List.append_nil, List.append_nil] at hread
        exact ⟨h.parser ▸ hread, fun _ => rfl⟩
      · rw [if_neg (hout ▸ hnil), hout]
        dsimp only
        rw [text_eq h.ground hclean]
        exact ⟨hread, fun _ => rfl⟩

/-! ### Runs -/

theorem turn_quiet {w : Worker} (h : w.conn.eof = false → w.conn.rxRaw = [] ∧ w.reads = []) :
    w.turn = w := by
  obtain ⟨conn, reads, parser, sent, body⟩ := w
  unfold Worker.turn
  cases heof : conn.eof with
  | true => simp
  | false =>
    obtain ⟨hrx, hreads⟩ := h heof
    simp only at hrx hreads
    subst hreads
    simp [SseConnection.poll, heof, hrx]

theorem matches_turns {w : Worker} {m : Meaning} {reads : List Bytes} (h : Matches w m)
    (hreads : w.conn.eof = false → w.reads = reads) (hclean : CleanRun m reads) (n : ℕ) :
    Matches (Worker.turn^[n] w) ((reads.take n).foldl Meaning.read m) := by
  induction n generalizing w m reads with
  | zero => exact h
  | succ n ih =>
    rw [Function.iterate_succ_apply]
    cases reads with
    | nil =>
      rw [turn_quiet fun heof => ⟨(h.conn heof).1, hreads heof⟩]
      simpa using ih h hreads trivial
    | cons r reads =>
      obtain ⟨hnext, hrest⟩ := matches_turn h hreads hclean.1
      simpa using ih hnext hrest hclean.2

theorem matches_start (chunked : Bool) (contentLength : Option ℕ) (lastEventId : Text)
    (reads : List Bytes) :
    Matches (.start (.open chunked contentLength []) reads lastEventId)
      (.start chunked contentLength lastEventId) where
  eof := by cases chunked <;> simp [Worker.start, SseConnection.open, Meaning.start]
  conn _ := by
    refine ⟨rfl, ?_⟩
    cases chunked with
    | true => rfl
    | false => cases contentLength <;> rfl
  ground := rfl
  parser := rfl
  pending := ⟨List.not_mem_nil, List.not_mem_nil⟩
  sent := rfl
  body := rfl

/-- What the socket gives, the bytes that came with the headers first. -/
def arrivals (bodyTail : Bytes) (reads : List Bytes) : List Bytes :=
  if bodyTail = [] then reads else bodyTail :: reads

/-- The bytes that came with the headers are as good as a first read. -/
theorem turn_start {bodyTail : Bytes} (hne : bodyTail ≠ []) (chunked : Bool)
    (contentLength : Option ℕ) (reads : List Bytes) (lastEventId : Text) :
    (Worker.start (.open chunked contentLength bodyTail) reads lastEventId).turn =
      (Worker.start (.open chunked contentLength []) (bodyTail :: reads) lastEventId).turn := by
  cases bodyTail with
  | nil => exact absurd rfl hne
  | cons b rest => rfl

theorem turns_start (bodyTail : Bytes) (chunked : Bool) (contentLength : Option ℕ)
    (reads : List Bytes) (lastEventId : Text) (n : ℕ) :
    let w := Worker.turn^[n] (.start (.open chunked contentLength bodyTail) reads lastEventId)
    let w' := Worker.turn^[n]
      (.start (.open chunked contentLength []) (arrivals bodyTail reads) lastEventId)
    w.sent = w'.sent ∧ w.body = w'.body ∧ w.conn.eof = w'.conn.eof := by
  unfold arrivals
  split_ifs with hne
  · subst hne
    exact ⟨rfl, rfl, rfl⟩
  · cases n with
    | zero => exact ⟨rfl, rfl, rfl⟩
    | succ n =>
      rw [Function.iterate_succ_apply, Function.iterate_succ_apply, turn_start hne]
      exact ⟨rfl, rfl, rfl⟩

def ascii (s : String) : Bytes := s.toList.map fun c => UInt8.ofNat c.toNat

end Conclave.Net.Sse
