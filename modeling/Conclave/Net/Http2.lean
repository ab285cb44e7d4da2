import Conclave.Net.Hpack

/-! The streaming layer of an HTTP/2 client: the streams of one connection, the windows
of both directions and the frames queued for the peer. Integers wrap at their width, as
in a release build. -/

namespace Conclave.Net.Http2

open Lib

/-! ### Frames -/

inductive FrameType where
  | data
  | headers
  | priority
  | rstStream
  | settings
  | pushPromise
  | ping
  | goaway
  | windowUpdate
  | continuation
  | unknown (byte : UInt8)
  deriving DecidableEq, Repr

def FrameType.toU8 : FrameType → UInt8
  | data => 0x0
  | headers => 0x1
  | priority => 0x2
  | rstStream => 0x3
  | settings => 0x4
  | pushPromise => 0x5
  | ping => 0x6
  | goaway => 0x7
  | windowUpdate => 0x8
  | continuation => 0x9
  | unknown byte => byte

structure FrameHeader where
  length : ℕ
  typ : FrameType
  flags : UInt8
  streamId : ℕ
  deriving DecidableEq, Repr

/-- The length field has three bytes, and the top bit of the stream is reserved. -/
def FrameHeader.encode (hdr : FrameHeader) : Bytes :=
  toBe 3 (hdr.length % 2 ^ 24) ++ hdr.typ.toU8 :: hdr.flags :: toBe 4 (hdr.streamId % 2 ^ 31)

structure Frame where
  hdr : FrameHeader
  body : Bytes
  deriving DecidableEq, Repr

def Frame.wire (f : Frame) : Bytes := f.hdr.encode ++ f.body

/-- A frame as the client builds it, with the length of its body. -/
def frame (typ : FrameType) (flags : UInt8) (streamId : ℕ) (body : Bytes) : Frame :=
  ⟨⟨body.length % 2 ^ 32, typ, flags, streamId⟩, body⟩

def FrameHeader.flag (hdr : FrameHeader) (mask : UInt8) : Bool := hdr.flags &&& mask ≠ 0

/-! ### Settings and windows -/

def settingMaxConcurrentStreams : ℕ := 0x3

def settingInitialWindowSize : ℕ := 0x4

def settingMaxFrameSize : ℕ := 0x5

def encodeSettings (settings : List (ℕ × ℕ)) : Bytes :=
  settings.flatMap fun (id, val) => toBe 2 id ++ toBe 4 val

/-- Six bytes for each setting; fewer at the end are dropped. -/
def decodeSettings : Bytes → List (ℕ × ℕ)
  | a :: b :: c :: d :: e :: f :: body => (beNat [a, b], beNat [c, d, e, f]) :: decodeSettings body
  | _ => []

def chromeH2Settings : List (ℕ × ℕ) := [(1, 65536), (2, 0), (3, 1000), (4, 6291456), (6, 262144)]

def chromeH2ConnectionWindowUpdate : ℕ := 15663105

def buildSettingsFrame (settings : List (ℕ × ℕ)) (ack : Bool) : Frame :=
  frame .settings (if ack then 1 else 0) 0 (if ack then [] else encodeSettings settings)

def buildPingFrame (data : Bytes) (ack : Bool) : Frame :=
  frame .ping (if ack then 1 else 0) 0 data

def buildWindowUpdate (streamId increment : ℕ) : Frame :=
  frame .windowUpdate 0 streamId (toBe 4 (increment % 2 ^ 31))

def toU32 (n : ℤ) : ℕ := (n % 2 ^ 32).toNat

def toI32 (n : ℤ) : ℤ := n.bmod (2 ^ 32)

/-- `saturating_add` of an increment, which is not negative. -/
def saturatingAdd (window : ℤ) (inc : ℕ) : ℤ := min (window + toI32 inc) (2 ^ 31 - 1)

/-! ### Streams -/

inductive StreamState where
  | idle
  | reservedLocal
  | reservedRemote
  | open
  | halfClosedLocal
  | halfClosedRemote
  | closed
  deriving DecidableEq, Repr

def StreamState.endLocal : StreamState → StreamState
  | .open => halfClosedLocal
  | halfClosedRemote => closed
  | other => other

def StreamState.endRemote : StreamState → StreamState
  | .open => halfClosedRemote
  | halfClosedLocal => closed
  | other => other

structure Stream where
  id : ℕ
  state : StreamState
  recvWindow : ℤ
  sendWindow : ℤ
  headersBuf : Bytes
  dataBuf : Bytes
  eofLocal : Bool
  eofRemote : Bool
  deriving DecidableEq, Repr

def Stream.new (id : ℕ) (initialWindow : ℤ) : Stream :=
  ⟨id, .idle, initialWindow, initialWindow, [], [], false, false⟩

/-- The end of the peer's side, when the frame carries it. -/
def Stream.endStream (s : Stream) (fin : Bool) : Stream :=
  if fin then { s with eofRemote := true, state := s.state.endRemote } else s

/-- `streams` is the map by stream id; `outgoing` keeps the queued bytes by frame. -/
structure Connection where
  streams : ℕ → Option Stream
  nextStreamId : ℕ
  peerInitialWindow : ℤ
  peerMaxFrameSize : ℕ
  peerMaxConcurrent : ℕ
  connRecvWindow : ℤ
  connSendWindow : ℤ
  outgoing : List Frame
  lastSeenStreamId : ℕ
  gotSettingsAck : Bool
  closedByGoaway : Bool

namespace Connection

/-- The preface goes out in front of the frames. -/
def newClient : Connection where
  streams _ := none
  nextStreamId := 1
  peerInitialWindow := 65535
  peerMaxFrameSize := 16384
  peerMaxConcurrent := 100
  connRecvWindow := 65535
  connSendWindow := 65535
  outgoing := [buildSettingsFrame chromeH2Settings false,
    buildWindowUpdate 0 chromeH2ConnectionWindowUpdate]
  lastSeenStreamId := 0
  gotSettingsAck := false
  closedByGoaway := false

def insertStream (c : Connection) (id : ℕ) (s : Stream) : Connection :=
  { c with streams := Function.update c.streams id (some s) }

/-- Change a stream that is in the map. -/
def modifyStream (c : Connection) (id : ℕ) (f : Stream → Stream) : Connection :=
  { c with streams := Function.update c.streams id ((c.streams id).map f) }

def queue (c : Connection) (f : Frame) : Connection := { c with outgoing := c.outgoing ++ [f] }

/-- The id of the new stream is the one that was next. -/
def openStream (c : Connection) : Connection :=
  { c with nextStreamId := (c.nextStreamId + 2) % 2 ^ 32 }.insertStream c.nextStreamId
    (Stream.new c.nextStreamId c.peerInitialWindow)

def sendHeaders (c : Connection) (streamId : ℕ) (headers : List Hpack.Header)
    (endStream : Bool) : Connection :=
  (c.queue (frame .headers (0x4 ||| if endStream then 0x1 else 0x0) streamId
    (Hpack.hpackEncodeBlock headers))).modifyStream streamId fun s =>
      { s with
        state := if endStream then .halfClosedLocal else .open
        eofLocal := endStream }

def sendData (c : Connection) (streamId : ℕ) (data : Bytes) (endStream : Bool) : Connection :=
  let need := toI32 data.length
  if c.connSendWindow < need then c
  else
    ({ c with connSendWindow := toI32 (c.connSendWindow - need) }.queue
      (frame .data (if endStream then 0x1 else 0x0) streamId data)).modifyStream streamId fun s =>
        { s with
          sendWindow := toI32 (s.sendWindow - need)
          eofLocal := s.eofLocal || endStream
          state := if endStream then s.state.endLocal else s.state }

/-! ### Frames from the peer -/

def applySetting (c : Connection) (id val : ℕ) : Connection :=
  if id = settingInitialWindowSize then { c with peerInitialWindow := toI32 val }
  else if id = settingMaxFrameSize then { c with peerMaxFrameSize := val }
  else if id = settingMaxConcurrentStreams then { c with peerMaxConcurrent := val }
  else c

def feedSettings (c : Connection) (hdr : FrameHeader) (body : Bytes) : Connection :=
  if hdr.flag 0x1 then { c with gotSettingsAck := true }
  else ((decodeSettings body).foldl (fun c (id, val) => c.applySetting id val) c).queue
    (buildSettingsFrame [] true)

def feedPing (c : Connection) (hdr : FrameHeader) (body : Bytes) : Connection :=
  if ¬ hdr.flag 0x1 ∧ body.length = 8 then c.queue (buildPingFrame body true) else c

def feedWindowUpdate (c : Connection) (hdr : FrameHeader) (body : Bytes) : Connection :=
  if body.length < 4 then c
  else
    let inc := beNat (body.take 4) % 2 ^ 31
    if hdr.streamId = 0 then { c with connSendWindow := saturatingAdd c.connSendWindow inc }
    else c.modifyStream hdr.streamId fun s =>
      { s with sendWindow := saturatingAdd s.sendWindow inc }

/-- The header block fragment between the pad length, the priority fields and the
padding; none when the frame is too short for what its flags say. -/
def headersPayload (hdr : FrameHeader) (body : Bytes) : Option Bytes := do
  let (padLength, payload) ←
    if hdr.flag 0x8 then
      match body with
      | [] => none
      | pad :: payload => some (pad.toNat, payload)
    else some (0, body)
  let payload ←
    if hdr.flag 0x20 then
      if payload.length < 5 then none else some (payload.drop 5)
    else some payload
  if hdr.flag 0x8 then
    if payload.length < padLength then none
    else some (payload.take (payload.length - padLength))
  else some payload

def feedHeaders (c : Connection) (hdr : FrameHeader) (body : Bytes) : Connection :=
  let s := (c.streams hdr.streamId).getD (Stream.new hdr.streamId c.peerInitialWindow)
  match headersPayload hdr body with
  | none => c.insertStream hdr.streamId s
  | some payload =>
    c.insertStream hdr.streamId
      ({ s with headersBuf := s.headersBuf ++ payload }.endStream (hdr.flag 0x1))

/-- A malformed frame carries nothing. -/
def dataPayload (hdr : FrameHeader) (body : Bytes) : Bytes :=
  if hdr.flag 0x8 then
    match body with
    | [] => []
    | pad :: rest => if rest.length < pad.toNat then [] else rest.take (rest.length - pad.toNat)
  else body

/-- The window is opened to its full size again when less than half of it is left. -/
def replenish (window : ℤ) : Option ℕ :=
  if window < 32768 then some (toU32 (65535 - toU32 window)) else none

def replenishConn (c : Connection) : Connection :=
  match replenish c.connRecvWindow with
  | none => c
  | some inc =>
    { c.queue (buildWindowUpdate 0 inc) with
      connRecvWindow := toI32 (c.connRecvWindow + toI32 inc) }

def replenishStream (c : Connection) (id : ℕ) : Connection :=
  match (c.streams id).bind fun s => replenish s.recvWindow with
  | none => c
  | some inc =>
    (c.queue (buildWindowUpdate id inc)).modifyStream id fun s =>
      { s with recvWindow := toI32 (s.recvWindow + toI32 inc) }

def feedData (c : Connection) (hdr : FrameHeader) (body : Bytes) : Connection :=
  let len := toI32 body.length
  let c := { c with connRecvWindow := toI32 (c.connRecvWindow - len) }.modifyStream
    hdr.streamId fun s =>
      { s with
        dataBuf := s.dataBuf ++ dataPayload hdr body
        recvWindow := toI32 (s.recvWindow - len) }.endStream (hdr.flag 0x1)
  c.replenishConn.replenishStream hdr.streamId

def feedFrame (c : Connection) (hdr : FrameHeader) (body : Bytes) : Connection :=
  let c := { c with lastSeenStreamId := max c.lastSeenStreamId hdr.streamId }
  match hdr.typ with
  | .settings => c.feedSettings hdr body
  | .ping => c.feedPing hdr body
  | .windowUpdate => c.feedWindowUpdate hdr body
  | .headers => c.feedHeaders hdr body
  | .continuation => c.modifyStream hdr.streamId fun s =>
      { s with headersBuf := s.headersBuf ++ body }
  | .data => c.feedData hdr body
  | .rstStream => c.modifyStream hdr.streamId fun s => { s with state := .closed }
  | .goaway => { c with closedByGoaway := true }
  | _ => c

/-! ### Calls -/

inductive Act where
  | openStream
  | sendHeaders (streamId : ℕ) (headers : List Hpack.Header) (endStream : Bool)
  | sendData (streamId : ℕ) (data : Bytes) (endStream : Bool)
  | feedFrame (hdr : FrameHeader) (body : Bytes)

def step (c : Connection) : Act → Connection
  | .openStream => c.openStream
  | .sendHeaders id headers fin => c.sendHeaders id headers fin
  | .sendData id data fin => c.sendData id data fin
  | .feedFrame hdr body => c.feedFrame hdr body

end Connection

end Conclave.Net.Http2
