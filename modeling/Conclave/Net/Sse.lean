import Conclave.Lib.Utf8

/-! The reader of an event stream. Reads from the socket are decoded from their framing, each
decoded piece is turned into text on its own, and a parser that keeps a partial line between
pieces hands out the events. -/

namespace Conclave.Net.Sse

open Lib Text

/-! ### Chunked framing -/

def findCrlf : Bytes → Option ℕ
  | 0x0d :: 0x0a :: _ => some 0
  | _ :: rest => (findCrlf rest).map (· + 1)
  | [] => none

def hexDigit (c : Char) : Option ℕ :=
  if '0' ≤ c ∧ c ≤ '9' then some (c.toNat - '0'.toNat)
  else if 'a' ≤ c ∧ c ≤ 'f' then some (c.toNat - 'a'.toNat + 10)
  else if 'A' ≤ c ∧ c ≤ 'F' then some (c.toNat - 'A'.toNat + 10)
  else none

/-- A number in base 16 that fits 64 bits, after a plus sign at most. -/
def fromStrRadix16 (t : Text) : Option ℕ :=
  let digits := if t.head? = some '+' then t.tail else t
  if digits = [] then none
  else
    (digits.mapM hexDigit).bind fun ds =>
      let n := ds.foldl (fun n d => 16 * n + d) 0
      if n < 2 ^ 64 then some n else none

/-- The size that a size line gives, 0 when it is malformed. -/
def chunkSize (line : Bytes) : ℕ :=
  (fromStrRadix16 (trim ((fromUtf8Lossy line).takeWhile (· ≠ ';')))).getD 0

structure Decoded where
  out : Bytes
  rxRaw : Bytes
  chunkRemaining : ℕ
  eof : Bool
  deriving DecidableEq, Repr

theorem findCrlf_lt {rx : Bytes} {eol : ℕ} (h : findCrlf rx = some eol) :
    (rx.drop (eol + 2)).length < rx.length := by
  cases rx with
  | nil => cases h
  | cons b rest =>
    simp only [List.length_drop, List.length_cons]
    omega

def decodeChunked (rxRaw : Bytes) (chunkRemaining : ℕ) : Decoded :=
  if 0 < chunkRemaining then
    let out := rxRaw.take chunkRemaining
    let left := chunkRemaining - out.length
    if 0 < left then ⟨out, [], left, false⟩
    else
      match hrest : rxRaw.drop chunkRemaining with
      | 0x0d :: 0x0a :: rest =>
        have : rest.length < rxRaw.length := by
          have := congrArg List.length hrest
          simp only [List.length_drop, List.length_cons] at this
          omega
        let next := decodeChunked rest 0
        { next with out := out ++ next.out }
      | rest => ⟨out, rest, 0, false⟩
  else
    match heol : findCrlf rxRaw with
    | none => ⟨[], rxRaw, 0, false⟩
    | some eol =>
      have := findCrlf_lt heol
      let size := chunkSize (rxRaw.take eol)
      if size = 0 then ⟨[], rxRaw.drop (eol + 2), 0, true⟩
      else decodeChunked (rxRaw.drop (eol + 2)) size
termination_by rxRaw.length

/-! ### Connections -/

/-- The decode state of a response body. -/
structure SseConnection where
  rxRaw : Bytes
  chunked : Bool
  chunkRemaining : ℕ
  contentLength : Option ℕ
  delivered : ℕ
  eof : Bool
  deriving DecidableEq, Repr

/-- What `connect` leaves, with the bytes that came behind the headers. -/
def SseConnection.open (chunked : Bool) (contentLength : Option ℕ) (bodyTail : Bytes) :
    SseConnection :=
  ⟨bodyTail, chunked, 0, if chunked then none else contentLength, 0, false⟩

/-- The part of `poll` behind the read. -/
def SseConnection.decode (c : SseConnection) : SseConnection × Bytes :=
  if c.chunked then
    let d := decodeChunked c.rxRaw c.chunkRemaining
    ({ c with rxRaw := d.rxRaw, chunkRemaining := d.chunkRemaining, eof := d.eof }, d.out)
  else
    let delivered := c.delivered + c.rxRaw.length
    ({ c with
        rxRaw := []
        delivered := delivered
        eof := c.contentLength.any fun len => decide (len ≤ delivered) }, c.rxRaw)

/-- With the reads that the socket still has to give, where an empty one stands for nothing
within the timeout. The peer keeps the connection open. -/
def SseConnection.poll (c : SseConnection) (reads : List Bytes) :
    SseConnection × List Bytes × Option Bytes :=
  if c.eof then (c, reads, none)
  else if c.rxRaw = [] then
    match reads with
    | [] => (c, [], none)
    | r :: reads =>
      if r = [] then (c, reads, none)
      else
        let next := { c with rxRaw := r }.decode
        (next.1, reads, if next.2 = [] then none else some next.2)
  else
    let next := c.decode
    (next.1, reads, if next.2 = [] then none else some next.2)

/-! ### Events -/

structure SseEvent where
  eventType : Text
  data : Text
  lastEventId : Text
  deriving DecidableEq, Repr

/-- Without the reconnection time, which no event has. -/
structure SseParser where
  pending : Text
  dataBuf : Text
  eventType : Text
  lastEventId : Text
  deriving DecidableEq, Repr

namespace SseParser

def new (lastEventId : Text) : SseParser := ⟨[], [], [], lastEventId⟩

def dispatch (p : SseParser) : SseParser × List SseEvent :=
  if p.dataBuf = [] then ({ p with eventType := [] }, [])
  else
    let data := if p.dataBuf.getLast? = some '\n' then p.dataBuf.dropLast else p.dataBuf
    let eventType := if p.eventType = [] then "message".toList else p.eventType
    ({ p with dataBuf := [], eventType := [] }, [⟨eventType, data, p.lastEventId⟩])

/-- The field of a line, and its value. -/
def field (line : Text) : Text × Text :=
  if ':' ∈ line then
    let v := (line.dropWhile (· ≠ ':')).tail
    (line.takeWhile (· ≠ ':'), (stripPrefix [' '] v).getD v)
  else (line, [])

/-- One line of the stream; the other fields have no part in the events. -/
def interpret (p : SseParser) (line : Text) : SseParser × List SseEvent :=
  if line = [] then p.dispatch
  else if line.head? = some ':' then (p, [])
  else
    let (name, value) := field line
    if name = "event".toList then ({ p with eventType := value }, [])
    else if name = "data".toList then ({ p with dataBuf := p.dataBuf ++ value ++ ['\n'] }, [])
    else if name = "id".toList then
      if '\x00' ∈ value then (p, []) else ({ p with lastEventId := value }, [])
    else (p, [])

def replaceCrlf : Text → Text
  | '\r' :: '\n' :: rest => '\n' :: replaceCrlf rest
  | c :: rest => c :: replaceCrlf rest
  | [] => []

/-- All lines end in a line feed. -/
def normalize (t : Text) : Text := (replaceCrlf t).map fun c => if c = '\r' then '\n' else c

def feed (p : SseParser) (chunk : Text) : SseParser × List SseEvent :=
  let pending := p.pending ++ chunk
  let pending := if '\r' ∈ pending then normalize pending else pending
  let complete := pending.rdropWhile (· ≠ '\n')
  if complete = [] then ({ p with pending := pending }, [])
  else
    -- The split has an empty line at its end, which is interpreted as well.
    transduce interpret { p with pending := pending.rtakeWhile (· ≠ '\n') } (complete.splitOn '\n')

end SseParser

/-! ### The worker -/

/-- The read loop over one connection, with the events that were sent. The last field is the
history, which nothing reads: the bytes that the connection delivered. -/
structure Worker where
  conn : SseConnection
  reads : List Bytes
  parser : SseParser
  sent : List SseEvent
  body : Bytes
  deriving DecidableEq, Repr

/-- One turn of the read loop, which ends with the stream. -/
def Worker.turn (w : Worker) : Worker :=
  if w.conn.eof then w
  else
    let (conn, reads, bytes) := w.conn.poll w.reads
    match bytes with
    | none => { w with conn := conn, reads := reads }
    | some bytes =>
      let next := w.parser.feed (fromUtf8Lossy bytes)
      ⟨conn, reads, next.1, w.sent ++ next.2, w.body ++ bytes⟩

def Worker.start (conn : SseConnection) (reads : List Bytes) (lastEventId : Text) : Worker :=
  ⟨conn, reads, .new lastEventId, [], []⟩

end Conclave.Net.Sse
