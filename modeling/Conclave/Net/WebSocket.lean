import Conclave.Lib.Codec

/-! Receiving on a WebSocket. What the connection gives is a list of reads; a read of no
bytes is a timeout, and so is every read after the last. A panic is an outcome. -/

namespace Conclave.Net.WebSocket

open Lib

inductive WsFrame where
  | text (s : String)
  | binary (b : Bytes)
  | ping (b : Bytes)
  | pong (b : Bytes)
  | close (code : ℕ) (reason : String)
  deriving DecidableEq, Repr

def opCont : ℕ := 0x0
def opText : ℕ := 0x1
def opBinary : ℕ := 0x2
def opClose : ℕ := 0x8
def opPing : ℕ := 0x9
def opPong : ℕ := 0xa

/-- The socket with the reads to come. -/
structure Conn where
  rxRaw : Bytes
  fragmentOpcode : Option ℕ
  fragmentPayload : Bytes
  reads : List Bytes
  deriving DecidableEq, Repr

inductive Outcome where
  | frame (f : WsFrame)
  | error (text : String)
  | panic
  deriving DecidableEq, Repr

/-- `while self.rx_raw.len() < n { if !self.read_more()? { return Ok(None) } }`, and
whether it went on. -/
def fill (n : ℕ) : List Bytes → Bytes → Bool × List Bytes × Bytes
  | [], rx => (decide (n ≤ rx.length), [], rx)
  | read :: reads, rx =>
    if n ≤ rx.length then (true, read :: reads, rx)
    else if read = [] then (false, reads, rx)
    else fill n reads (rx ++ read)

def Conn.fill (n : ℕ) (c : Conn) : Bool × Conn :=
  let r := WebSocket.fill n c.reads c.rxRaw
  (r.1, { c with reads := r.2.1, rxRaw := r.2.2 })

def decodeDataFrame (op : ℕ) (payload : Bytes) : Outcome :=
  if op = opText then
    match fromUtf8 payload with
    | some s => .frame (.text s)
    | none => .error "ws: 1007 invalid UTF-8 in text frame"
  else if op = opBinary then .frame (.binary payload)
  else .error ("ws: bad data opcode 0x" ++ String.ofList (Nat.toDigits 16 op))

def validCode (c : ℕ) : Bool :=
  c ∈ [1000, 1001, 1002, 1003, 1007, 1008, 1009, 1010, 1011] || (3000 ≤ c && c ≤ 4999)

def decodeClose : Bytes → Outcome
  | a :: b :: reason =>
    let c := be16 a b
    if validCode c then
      match fromUtf8 reason with
      | some s => .frame (.close c s)
      | none => .error "ws: 1007 invalid UTF-8 in close reason"
    else .error ("ws: 1002 invalid close code " ++ toString c)
  | [_] => .error "ws: 1002 close frame with 1-byte payload"
  | [] => .frame (.close 1005 "")

/-- What one turn of `recv_inner` ends in. -/
inductive Turn where
  /-- `Ok(None)`. -/
  | quiet
  /-- A fragment was taken in, and the function calls itself. -/
  | again
  | done (o : Outcome)
  deriving DecidableEq, Repr

/-- A frame that was taken off the buffer. -/
def Conn.handle (c : Conn) (fin : Bool) (op : ℕ) (payload : Bytes) : Turn × Conn :=
  if op = opText ∨ op = opBinary ∨ op = opCont then
    if op = opCont then
      match c.fragmentOpcode with
      | none => (.done (.error "ws: unexpected continuation frame"), c)
      | some fragmentOpcode =>
        let payload := c.fragmentPayload ++ payload
        if fin then
          (.done (decodeDataFrame fragmentOpcode payload),
            { c with fragmentOpcode := none, fragmentPayload := [] })
        else (.again, { c with fragmentPayload := payload })
    else if fin ∧ c.fragmentOpcode.isNone then (.done (decodeDataFrame op payload), c)
    else if ¬ fin ∧ c.fragmentOpcode.isNone then
      (.again, { c with fragmentOpcode := some op, fragmentPayload := payload })
    else (.done (.error "ws: fragmented message interrupted"), c)
  else if op = opPing then (.done (.frame (.ping payload)), c)
  else if op = opPong then (.done (.frame (.pong payload)), c)
  else if op = opClose then (.done (decodeClose payload), c)
  else (.done (.error ("ws: bad opcode 0x" ++ String.ofList (Nat.toDigits 16 op))), c)

/-- The payload of a frame whose header takes the first `off` bytes. The sum of the two
lengths is computed in 64 bits. -/
def Conn.body (c : Conn) (fin : Bool) (op : ℕ) (masked : Bool) (off len : ℕ) : Turn × Conn :=
  if masked then (.done (.error "ws: 1002 masked frame from server"), c)
  else if 2 ^ 64 ≤ off + len then (.done .panic, c)
  else
    match c.fill (off + len) with
    | (false, c) => (.quiet, c)
    | (true, c) =>
      let payload := (c.rxRaw.drop off).take len
      ({ c with rxRaw := c.rxRaw.drop (off + len) } : Conn).handle fin op payload

/-- The header of the next frame, whose first two bytes are there. -/
def Conn.header (c : Conn) : Turn × Conn :=
  let b0 := (c.rxRaw.getD 0 0).toNat
  let b1 := (c.rxRaw.getD 1 0).toNat
  let fin := decide (b0 / 128 ≠ 0)
  if b0 / 16 % 8 ≠ 0 then
    (.done (.error "ws: 1002 RSV bits set without negotiated extension"), c)
  else
    let op := b0 % 16
    let masked := decide (b1 / 128 ≠ 0)
    if b1 % 128 = 126 then
      match c.fill 4 with
      | (false, c) => (.quiet, c)
      | (true, c) => c.body fin op masked 4 (beNat ((c.rxRaw.drop 2).take 2))
    else if b1 % 128 = 127 then
      match c.fill 10 with
      | (false, c) => (.quiet, c)
      | (true, c) => c.body fin op masked 10 (beNat ((c.rxRaw.drop 2).take 8))
    else c.body fin op masked 2 (b1 % 128)

def Conn.turn (c : Conn) : Turn × Conn :=
  match c.fill 2 with
  | (false, c) => (.quiet, c)
  | (true, c) => c.header

/-- All the bytes, read and to come. -/
def Conn.stream (c : Conn) : Bytes := c.rxRaw ++ c.reads.flatten

/-- Each turn that comes again has taken a frame off the stream. -/
def Conn.recvLoop : ℕ → Conn → Option Outcome × Conn
  | 0, c => (none, c)
  | fuel + 1, c =>
    match c.turn with
    | (.quiet, c) => (none, c)
    | (.again, c) => recvLoop fuel c
    | (.done o, c) => (some o, c)

/-- `recv_with_timeout`: the outcome, or none when the time is up. -/
def Conn.recv (c : Conn) : Option Outcome × Conn := c.recvLoop (c.stream.length + 1)

end Conclave.Net.WebSocket
