import Conclave.Net.LifeCycle
import Conclave.Net.Send
import Conclave.Lib.Framing

/-! Requests on a shared HTTP/2 connection, one at a time. A request opens a stream and
reads until that stream ends, feeding every frame to the streams of the connection; its
header block is decoded when the stream has ended, with a table the connection keeps. -/

namespace Conclave.Net.H2Drive

open Lib Text Http2 Hpack Send

/-! ### Frames off the wire -/

def frameType (byte : UInt8) : FrameType :=
  if byte = 0x0 then .data
  else if byte = 0x1 then .headers
  else if byte = 0x2 then .priority
  else if byte = 0x3 then .rstStream
  else if byte = 0x4 then .settings
  else if byte = 0x5 then .pushPromise
  else if byte = 0x6 then .ping
  else if byte = 0x7 then .goaway
  else if byte = 0x8 then .windowUpdate
  else if byte = 0x9 then .continuation
  else .unknown byte

/-- The header, and the buffer after its nine bytes. -/
def decodeHeader : Bytes → Option (FrameHeader × Bytes)
  | a :: b :: c :: typ :: flags :: d :: e :: f :: g :: rest =>
    some (⟨be24 a b c, frameType typ, flags, beNat [d, e, f, g] % 2 ^ 31⟩, rest)
  | _ => none

def nextFrame (buf : Bytes) : Option (Frame × Bytes) :=
  (decodeHeader buf).bind fun (hdr, rest) =>
    if hdr.length ≤ rest.length then some (⟨hdr, rest.take hdr.length⟩, rest.drop hdr.length)
    else none

theorem decodeHeader_some {buf rest : Bytes} {hdr : FrameHeader}
    (h : decodeHeader buf = some (hdr, rest)) :
    buf.length = 9 + rest.length ∧ ∀ c, decodeHeader (buf ++ c) = some (hdr, rest ++ c) := by
  match buf with
  | _ :: _ :: _ :: _ :: _ :: _ :: _ :: _ :: _ :: tail =>
    obtain ⟨rfl, rfl⟩ := Prod.mk.inj (Option.some.inj h)
    exact ⟨by simp only [List.length_cons]; omega, fun c => rfl⟩
  | [] | [_] | [_, _] | [_, _, _] | [_, _, _, _] | [_, _, _, _, _] | [_, _, _, _, _, _]
  | [_, _, _, _, _, _, _] | [_, _, _, _, _, _, _, _] => cases h

theorem nextFrame_some {buf rest : Bytes} {f : Frame} (h : nextFrame buf = some (f, rest)) :
    ∃ tail, decodeHeader buf = some (f.hdr, tail) ∧ f.hdr.length ≤ tail.length ∧
      f.body = tail.take f.hdr.length ∧ rest = tail.drop f.hdr.length := by
  obtain ⟨⟨hdr, tail⟩, hd, h⟩ := Option.bind_eq_some_iff.mp h
  dsimp only at h
  split_ifs at h with hlen
  obtain ⟨rfl, rfl⟩ := Prod.mk.inj (Option.some.inj h)
  exact ⟨tail, hd, hlen, rfl, rfl⟩

/-- Complete frames, as the read loop splits them off what has come in. -/
def frames : Framer UInt8 Frame where
  next := nextFrame
  shrinks h := by
    obtain ⟨tail, hd, -, -, rfl⟩ := nextFrame_some h
    have := (decodeHeader_some hd).1
    rw [List.length_drop]
    omega
  extend c h := by
    obtain ⟨tail, hd, hlen, hbody, rfl⟩ := nextFrame_some h
    have hlen' : _ ≤ (tail ++ c).length := hlen.trans (by simp)
    rw [nextFrame, (decodeHeader_some hd).2 c, Option.bind_some]
    dsimp only
    rw [if_pos hlen', List.take_append_of_le_length hlen, List.drop_append_of_le_length hlen,
      ← hbody]

/-! ### The connection -/

/-- An error of the socket or of TLS; none has the text of a reset. -/
structure TransportError where
  error : NetError
  notReset : isH2StreamLevelError error = false

/-- `received` is what `conn` has given out so far. -/
structure H2Conn where
  received : Bytes
  h2 : Connection
  decodeDyn : HpackDynamicTable
  accum : Bytes
  poisoned : Bool

def H2Conn.new : H2Conn where
  received := []
  h2 := { Connection.newClient with outgoing := [] }
  decodeDyn := .new
  accum := []
  poisoned := false

/-- What a request meets: a read with how the write after it would fail, an end of the
stream (a read of no bytes), or an error. The deadline passes when there is no more. -/
inductive Event where
  | read (bytes : Bytes) (flush : Option TransportError)
  | failed (e : TransportError)

structure Request where
  headers : List Header
  body : Bytes

structure Response where
  status : ℕ
  reason : String
  headers : List Header
  body : Bytes

/-- The decoders of the compression library. -/
structure Codecs where
  gzip : Bytes → Except String Bytes
  zlib : Bytes → Except String Bytes
  brotli : Bytes → Except String Bytes

def drainOutgoing (h2 : Connection) : Connection := { h2 with outgoing := [] }

def removeStream (h2 : Connection) (id : ℕ) : Connection :=
  { h2 with streams := Function.update h2.streams id none }

/-! ### The response -/

def h2Reason (status : ℕ) : String :=
  if status = 200 then "OK"
  else if status = 301 then "Moved Permanently"
  else if status = 302 then "Found"
  else if status = 304 then "Not Modified"
  else if status = 400 then "Bad Request"
  else if status = 403 then "Forbidden"
  else if status = 404 then "Not Found"
  else if status = 500 then "Internal Server Error"
  else if status = 503 then "Service Unavailable"
  else ""

def decodeToken (codecs : Codecs) (token : Text) (data : Bytes) : Except NetError Bytes :=
  if token = [] ∨ token = "identity".toList then .ok data
  else if token = "gzip".toList ∨ token = "x-gzip".toList then
    (codecs.gzip data).mapError fun e => .http ("gzip decode: " ++ e)
  else if token = "deflate".toList then
    (codecs.zlib data).mapError fun e => .http ("deflate decode: " ++ e)
  else if token = "br".toList then
    (codecs.brotli data).mapError fun e => .http ("brotli decode: " ++ e)
  else .error (.http ("unsupported Content-Encoding: " ++ String.ofList token))

/-- The codings are undone from the last to the first. -/
def decodeContentEncoding (codecs : Codecs) (headers : List Header) (body : Bytes) :
    Except NetError Bytes :=
  if body = [] then .ok body
  else
    match (headers.find? fun kv =>
        Text.toAsciiLowercase kv.1.toList = "content-encoding".toList).map fun kv =>
          Text.toAsciiLowercase (trim kv.2.toList) with
    | none => .ok body
    | some enc =>
      if enc = [] ∨ enc = "identity".toList then .ok body
      else (enc.splitOn ',').reverse.foldlM (fun data token => decodeToken codecs (trim token) data)
        body

/-- The last status among the fields, 0 when there is none that reads. -/
def statusOf (decoded : List Header) : ℕ :=
  decoded.foldl (fun status h =>
    if h.1 = ":status" then (parseUnsigned 16 h.2.toList).getD 0 else status) 0

def isPseudo (h : Header) : Bool := h.1.toList.head? = some ':'

def regular (decoded : List Header) : List Header := decoded.filter fun h => !isPseudo h

/-- The end of `h2_drive_request`, after the loop. -/
def finish (codecs : Codecs) (c : H2Conn) (sid : ℕ) : H2Conn × Except NetError Response :=
  match c.h2.streams sid with
  | none => (c, .error (.http "h2: stream vanished"))
  | some s =>
    match hpackDecodeBlock s.headersBuf c.decodeDyn with
    | (none, t) => ({ c with decodeDyn := t }, .error (.http "h2: hpack decode failed"))
    | (some decoded, t) =>
      let c := { c with decodeDyn := t, h2 := removeStream c.h2 sid }
      if statusOf decoded = 0 then (c, .error (.http "h2: no :status"))
      else
        (c, (decodeContentEncoding codecs (regular decoded) s.dataBuf).map fun body =>
          ⟨statusOf decoded, h2Reason (statusOf decoded), regular decoded, body⟩)

/-! ### The request -/

/-- A GOAWAY frame with a last stream below this one. -/
def refuses (sid : ℕ) (f : Frame) : Bool :=
  f.hdr.typ = .goaway ∧ 4 ≤ f.body.length ∧ beNat (f.body.take 4) % 2 ^ 31 < sid

/-- The connection fed with the frames, none when one of them refuses the stream. -/
def feedFrames (sid : ℕ) : Connection → List Frame → Option Connection
  | h2, [] => some h2
  | h2, f :: fs =>
    if refuses sid f then none else feedFrames sid (h2.feedFrame f.hdr f.body) fs

/-- How the loop of a request ends, and the events it leaves. -/
structure Looped where
  conn : H2Conn
  result : Except NetError Unit
  unread : List Event

/-- After a read, its frames fed and the replies written. -/
inductive Turn where
  | ended
  | reset
  | waiting
  deriving DecidableEq, Repr

def turn (h2 : Connection) (sid : ℕ) : Turn :=
  match h2.streams sid with
  | none => .waiting
  | some s =>
    if s.eofRemote then .ended else if s.state = .closed then .reset else .waiting

def readLoop (c : H2Conn) (sid : ℕ) : List Event → Looped
  | [] => ⟨c, .error (.http "h2: request timed out"), []⟩
  | .failed e :: events => ⟨c, .error e.error, events⟩
  | .read bytes flush :: events =>
    if bytes = [] then ⟨c, .error (.http "h2: peer closed (Closed)"), events⟩
    else
      let c := { c with received := c.received ++ bytes, accum := c.accum ++ bytes }
      match feedFrames sid c.h2 (frames.drain c.accum).1 with
      | none => ⟨c, .error (.http "h2: GOAWAY, stream not processed (Closed)"), events⟩
      | some h2 =>
        let c := { c with accum := (frames.drain c.accum).2, h2 := drainOutgoing h2 }
        match (if h2.outgoing = [] then none else flush) with
        | some e => ⟨c, .error e.error, events⟩
        | none =>
          match turn c.h2 sid with
          | .ended => ⟨c, .ok (), events⟩
          | .reset =>
            ⟨{ c with h2 := removeStream c.h2 sid }, .error (.http "h2: stream reset"), events⟩
          | .waiting => readLoop c sid events

/-- The stream is opened and its request written. -/
def request (h2 : Connection) (req : Request) : Connection :=
  let sid := h2.nextStreamId
  let h2 := h2.openStream.sendHeaders sid req.headers (req.body = [])
  drainOutgoing (if req.body = [] then h2 else h2.sendData sid req.body true)

/-- A request and how it ends. -/
structure Driven where
  conn : H2Conn
  result : Except NetError Response
  unread : List Event

def h2DriveRequest (codecs : Codecs) (c : H2Conn) (req : Request) (events : List Event) :
    Driven :=
  let sid := c.h2.nextStreamId
  let l := readLoop { c with h2 := request c.h2 req } sid events
  match l.result with
  | .error e => ⟨l.conn, .error e, l.unread⟩
  | .ok () => ⟨(finish codecs l.conn sid).1, (finish codecs l.conn sid).2, l.unread⟩

def h2DriveLocked (codecs : Codecs) (c : H2Conn) (req : Request) (events : List Event) : Driven :=
  if c.poisoned then ⟨c, .error (.http "h2: conn poisoned"), events⟩
  else if c.h2.closedByGoaway then
    ⟨{ c with poisoned := true }, .error (.http "h2: connection reset by GOAWAY"), events⟩
  else if 0 < c.h2.peerMaxConcurrent ∧ c.h2.peerMaxConcurrent ≤ c.h2.activeStreamCount then
    ⟨c, .error (.http "h2: peer max concurrent streams"), events⟩
  else
    let d := h2DriveRequest codecs c req events
    match d.result with
    | .ok _ => d
    | .error e => { d with conn := { d.conn with poisoned := !isH2StreamLevelError e } }

end Conclave.Net.H2Drive
