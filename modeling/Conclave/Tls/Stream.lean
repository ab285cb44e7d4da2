import Conclave.Tls.Handshake
import Conclave.Tls.Record12

/-! The receiving side of an established connection: the two record pullers, the
read calls over them, and the drain of post-handshake records at the end of
`connect`. The socket is a script of what each `recv` does. A session carries a log
of its socket reads and of the records it took off the buffer. -/

namespace Conclave.Tls

open Lib

/-! ### Socket -/

/-- What one `recv` does: bytes, none at the end of the socket, or an error code. -/
inductive SockEvent where
  | recv (b : Bytes)
  | failed (code : ℕ)
  deriving DecidableEq, Repr

/-- `WSAETIMEDOUT`. -/
def SockEvent.timeout : SockEvent := .failed 10060

def SockEvent.bytes : SockEvent → Bytes
  | .recv b => b
  | .failed _ => []

def Socket.read : SockEvent → Except String Bytes
  | .recv b => .ok b
  | .failed e => .error s!"RecvFailed({e})"

/-- A timeout is zero bytes, as is the end of the socket. -/
def Socket.readWithTimeout : SockEvent → Except String Bytes
  | .recv b => .ok b
  | .failed e => if e = 10060 then .ok [] else .error s!"RecvFailed({e})"

/-! ### State -/

/-- The receiving half of `Tls12RecordState`. -/
structure Tls12RecordState where
  serverWriteKey : Bytes
  serverWriteSalt : Bytes
  seqServer : ℕ
  cipherCode : ℕ
  deriving DecidableEq

/-- The receive keys: `tls12` is set when the connection is TLS 1.2. -/
structure RxState where
  rx : AeadKey
  tls12 : Option Tls12RecordState
  deriving DecidableEq

/-- The fields of `TlsStream` that reading uses. -/
structure TlsStream extends RxState where
  rxPlain : Bytes
  rxRaw : Bytes
  closed : Bool
  deriving DecidableEq

inductive ReadMode where
  | drain | blocking | timed
  deriving DecidableEq, Repr

/-- A socket read, with the bytes buffered before it; a record taken off the
buffer, with the keys before it; a record the drain leaves in the buffer although
its key has moved on. -/
inductive StreamEvent where
  | sock (mode : ReadMode) (buffered : ℕ) (event : SockEvent)
  | record (draining : Bool) (rx : RxState) (header fragment : Bytes)
  | stuck (rx : RxState) (header fragment : Bytes)
  deriving DecidableEq

/-- A stream, its log, and the bytes its callers have been given. -/
structure Session where
  stream : TlsStream
  log : List StreamEvent
  returned : Bytes
  deriving DecidableEq

/-- Before the first read. -/
def Session.fresh (r : RxState) : Session := ⟨⟨r, [], [], false⟩, [], []⟩

def Session.sock (s : Session) (mode : ReadMode) (ev : SockEvent) : Session :=
  { s with stream := { s.stream with rxRaw := s.stream.rxRaw ++ ev.bytes },
           log := s.log ++ [.sock mode s.stream.rxRaw.length ev] }

/-! ### Records -/

/-- Header and body of the record at the front of the buffer. -/
def recordLen (raw : Bytes) : ℕ := 5 + be16 (raw.getD 3 0) (raw.getD 4 0)

/-- Take the front record off the buffer. -/
def Session.takeRecord (s : Session) (draining : Bool) : Session :=
  let raw := s.stream.rxRaw
  { s with stream := { s.stream with rxRaw := raw.drop (recordLen raw) },
           log := s.log ++ [.record draining s.stream.toRxState (raw.take 5)
             ((raw.take (recordLen raw)).drop 5)] }

section Code

variable (A : AeadFns)

/-- `{:04x}`. -/
def hex4 (n : ℕ) : String :=
  let digits := Nat.toDigits 16 n
  String.ofList (List.replicate (4 - digits.length) '0' ++ digits)

def Tls12RecordState.decrypt (st : Tls12RecordState) (contentType : UInt8) (fragment : Bytes) :
    Except TlsError Bytes :=
  match Tls12CipherKind.fromCode st.cipherCode with
  | none => .error (.crypto s!"tls1.2 bad cipher code {hex4 st.cipherCode}")
  | some (kind, _) =>
    Record12.decryptRecord12 A kind contentType fragment st.serverWriteKey st.serverWriteSalt
      st.seqServer

def decryptAppRecordTls12 (s : TlsStream) (st : Tls12RecordState) (fragment : Bytes) :
    Except TlsError Unit × TlsStream :=
  match st.decrypt A ContentType.applicationData.code fragment with
  | .error e => (.error e, s)
  | .ok plain =>
    (.ok (), { s with tls12 := some { st with seqServer := st.seqServer + 1 },
                      rxPlain := s.rxPlain ++ plain })

/-- The part the two pullers share, after the record left the buffer: `false` when
the record was an alert that closes. -/
def handleRecord (s : TlsStream) (header fragment : Bytes) : Except TlsError Bool × TlsStream :=
  if header.headD 0 = ContentType.changeCipherSpec.code then (.ok true, s)
  else if header.headD 0 ≠ ContentType.applicationData.code then
    if header.headD 0 = ContentType.alert.code ∧ s.tls12.isSome then
      (.ok false, { s with closed := true })
    else (.error (.protocol s!"unexpected post-handshake type {header.headD 0}"), s)
  else
    match s.tls12 with
    | some st => ((decryptAppRecordTls12 A s st fragment).1.map fun _ => true,
        (decryptAppRecordTls12 A s st fragment).2)
    | none =>
      match AeadKey.openRecord A s.rx header fragment with
      | (.error e, rx) => (.error (.crypto s!"open: {e.display}"), { s with rx := rx })
      | (.ok (.applicationData, inner), rx) =>
        (.ok true, { s with rx := rx, rxPlain := s.rxPlain ++ inner })
      | (.ok (.alert, inner), rx) =>
        let s := { s with rx := rx, closed := true }
        match inner with
        | level :: desc :: _ =>
          if level = 2 ∨ desc ≠ 0 then
            (.error (.protocol
              s!"tls1.3 server alert lvl={level} {alertDescriptionName desc} ({desc})"), s)
          else (.ok false, s)
        | _ => (.ok false, s)
      | (.ok (.handshake, _), rx) => (.ok true, { s with rx := rx })
      | (.ok (ty, _), rx) => (.error (.protocol s!"inner type {ty.debug}"), { s with rx := rx })

/-! ### Pulling records -/

/-- `read_more` and `read_more_with_timeout`. -/
def readMore (timed : Bool) (ev : SockEvent) : Except TlsError Bytes :=
  if timed then mapErr (fun e => .protocol s!"read timeout: {e}") (Socket.readWithTimeout ev)
  else mapErr (fun e => .protocol s!"read: {e}") (Socket.read ev)

def modeOf (timed : Bool) : ReadMode := if timed then .timed else .blocking

/-- How a loop `while self.rx_raw.len() < need` ends; `waiting` when the socket has
not answered yet. -/
inductive Filled where
  | full | dry | waiting
  | failed (e : TlsError)
  deriving DecidableEq

def fill (timed : Bool) (need : ℕ) (s : Session) :
    List SockEvent → Filled × Session × List SockEvent
  | [] => if need ≤ s.stream.rxRaw.length then (.full, s, []) else (.waiting, s, [])
  | ev :: script =>
    if need ≤ s.stream.rxRaw.length then (.full, s, ev :: script)
    else
      match readMore timed ev with
      | .error e => (.failed e, s.sock (modeOf timed) ev, script)
      | .ok [] => (.dry, s.sock (modeOf timed) ev, script)
      | .ok (_ :: _) => fill timed need (s.sock (modeOf timed) ev) script

/-- What a puller returns. -/
inductive Pulled where
  | ok (more : Bool)
  | err (e : TlsError)
  | waiting
  deriving DecidableEq

/-- `pull_one_record`, or with a timeout `pull_one_record_with_timeout`. -/
def pull (timed : Bool) (s : Session) (script : List SockEvent) :
    Pulled × Session × List SockEvent :=
  match fill timed 5 s script with
  | (.waiting, s, script) => (.waiting, s, script)
  | (.failed e, s, script) => (.err e, s, script)
  | (.dry, s, script) =>
    (.ok (!timed), { s with stream := { s.stream with closed := true } }, script)
  | (.full, s, script) =>
    match fill timed (recordLen s.stream.rxRaw) s script with
    | (.waiting, s, script) => (.waiting, s, script)
    | (.failed e, s, script) => (.err e, s, script)
    | (.dry, s, script) =>
      (if timed then .ok false else .err (.protocol "EOF mid-record"), s, script)
    | (.full, s, script) =>
      let raw := s.stream.rxRaw
      let s := s.takeRecord false
      match handleRecord A s.stream (raw.take 5) ((raw.take (recordLen raw)).drop 5) with
      | (.error e, stream) => (.err e, { s with stream := stream }, script)
      | (.ok more, stream) => (.ok (more || !timed), { s with stream := stream }, script)

def pullOneRecord := pull A false
def pullOneRecordWithTimeout := pull A true

/-! ### Read calls -/

/-- The loop of `read` and `read_with_timeout`. `ok false` is the early `Ok(0)` of the
timed call. -/
def readLoop (timed : Bool) : ℕ → Session → List SockEvent → Pulled × Session × List SockEvent
  | 0, s, script => (.waiting, s, script)
  | n + 1, s, script =>
    if s.stream.rxPlain ≠ [] ∨ s.stream.closed then (.ok true, s, script)
    else
      match pull A timed s script with
      | (.ok true, s, script) => readLoop timed n s script
      | r => r

def scriptBytes (script : List SockEvent) : ℕ := (script.flatMap SockEvent.bytes).length

inductive ReadResult where
  | bytes (b : Bytes)
  | error (e : TlsError)
  | waiting
  deriving DecidableEq

/-- `read` or `read_with_timeout` into a buffer of `n` bytes. -/
def readCall (timed : Bool) (n : ℕ) (s : Session) (script : List SockEvent) :
    ReadResult × Session × List SockEvent :=
  match readLoop A timed (s.stream.rxRaw.length + scriptBytes script + 2) s script with
  | (.waiting, s, script) => (.waiting, s, script)
  | (.err e, s, script) => (.error e, s, script)
  | (.ok false, s, script) => (.bytes [], s, script)
  | (.ok true, s, script) =>
    (.bytes (s.stream.rxPlain.take n),
      { s with stream := { s.stream with rxPlain := s.stream.rxPlain.drop n },
               returned := s.returned ++ s.stream.rxPlain.take n }, script)

/-- Read calls one after the other: timed or not, and the size of the buffer. -/
def runReads : List (Bool × ℕ) → Session → List SockEvent → Session × List SockEvent
  | [], s, script => (s, script)
  | (timed, n) :: calls, s, script =>
    let r := readCall A timed n s script
    runReads calls r.2.1 r.2.2

/-! ### The drain of `connect` -/

/-- The inner loop: complete records off the buffer, until one does not open or its
inner type ends the loop. -/
def drainRecords : ℕ → Session → Except TlsError Session
  | 0, s => .ok s
  | n + 1, s =>
    let raw := s.stream.rxRaw
    if raw.length < 5 then .ok s
    else if raw.length < recordLen raw then .ok s
    else
      let header := raw.take 5
      let fragment := (raw.take (recordLen raw)).drop 5
      if header.headD 0 = ContentType.changeCipherSpec.code then drainRecords n (s.takeRecord true)
      else
        match AeadKey.openRecord A s.stream.rx header fragment with
        | (.error _, rx) =>
          .ok (if rx = s.stream.rx then s
            else { s with stream := { s.stream with rx := rx },
                          log := s.log ++ [.stuck s.stream.toRxState header fragment] })
        | (.ok (innerType, inner), rx) =>
          let s := s.takeRecord true
          let s := { s with stream := { s.stream with rx := rx } }
          match innerType, inner with
          | .alert, level :: desc :: _ =>
            if level = 2 ∨ desc ≠ 0 then
              let name := alertDescriptionName desc
              .error (.protocol s!"tls1.3 alert during drain lvl={level} {name} ({desc})")
            else .ok { s with stream := { s.stream with closed := true } }
          | .applicationData, inner =>
            drainRecords n { s with stream := { s.stream with rxPlain := s.stream.rxPlain ++ inner } }
          | .handshake, _ => drainRecords n s
          | _, _ => .ok s

/-- The drain: reads with a short timeout until one brings nothing. `none` while the
socket has not answered. -/
def drainPostHandshake (s : Session) :
    List SockEvent → Option (Except TlsError (Session × List SockEvent))
  | [] => none
  | ev :: script =>
    let s := s.sock .drain ev
    match Socket.readWithTimeout ev with
    | .ok (_ :: _) =>
      match drainRecords A s.stream.rxRaw.length s with
      | .error e => some (.error e)
      | .ok s => drainPostHandshake s script
    | _ => some (.ok (s, script))

end Code

end Conclave.Tls
