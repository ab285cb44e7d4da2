import Conclave.Net.Hsts

/-! Sending a request. A call goes through up to four layers, each with retries of its own:
the shared HTTP/2 connections, the idle HTTP/1 ones, fresh connections, and a second round
without brotli. What the network does is given for a round as a whole. The method of the
request has no part in any decision, so a request whose first bytes may have been acted
on is written again. A request is written once if no attempt that put bytes on the wire ends
in an error that its layer follows up. -/

namespace Conclave.Net.Send

open Lib Text

/-! ### Errors -/

inductive SocketError where
  | startupFailed (rc : ℤ)
  | socketFailed (rc : ℤ)
  | connectFailed (rc : ℤ)
  | sendFailed (rc : ℤ)
  | recvFailed (rc : ℤ)
  | closed
  deriving DecidableEq, Repr

inductive NetError where
  | dns (s : String)
  | socket (e : SocketError)
  | http (s : String)
  | url (s : String)
  deriving DecidableEq, Repr

def contains (s needle : String) : Bool := decide (needle.toList <:+: s.toList)

def isRetriableConnError : NetError → Bool
  | .socket _ => true
  | .http s =>
    contains s "no header end" || contains s "request timed out" || contains s "RecvFailed" ||
      contains s "SendFailed" || contains s "read:" || contains s "send:" ||
      contains s "Closed" || contains s "close_notify" || contains s "connection reset"
  | _ => false

def isH2StreamLevelError : NetError → Bool
  | .http s => contains s "h2: stream reset"
  | _ => false

def isBrotliDecodeError : NetError → Bool
  | .http s => contains s "brotli"
  | _ => false

/-! ### Requests, responses, connections -/

inductive Scheme where
  | http | https | ws | wss | file | data | about | blob | other
  deriving DecidableEq, Repr

def Scheme.defaultPort : Scheme → Option ℕ
  | .http | .ws => some 80
  | .https | .wss => some 443
  | _ => none

def Scheme.asStr : Scheme → String
  | .http => "http"
  | .https => "https"
  | .ws => "ws"
  | .wss => "wss"
  | .file => "file"
  | .data => "data"
  | .about => "about"
  | .blob => "blob"
  | .other => ""

structure Url where
  scheme : Scheme
  host : Text
  port : Option ℕ
  deriving DecidableEq, Repr

def Url.effectivePort (url : Url) : Option ℕ := url.port.or url.scheme.defaultPort

structure Request where
  method : String
  url : Url
  acceptBrotli : Bool
  deriving DecidableEq, Repr

structure Response where
  status : ℕ
  headers : List (Text × Text)
  deriving DecidableEq, Repr

def Response.header (resp : Response) (name : Text) : Option Text :=
  (resp.headers.find? fun kv => toAsciiLowercase kv.1 = toAsciiLowercase name).map Prod.snd

def Response.serverClose (resp : Response) : Bool :=
  (resp.header "Connection".toList).any fun v => "close".toList <:+: toAsciiLowercase v

/-- Where a request goes. -/
@[ext]
structure Origin where
  host : Text
  port : ℕ
  isHttps : Bool
  deriving DecidableEq, Repr

/-- A connection, with what it was dialed for. -/
structure Conn where
  origin : Origin
  alpn : String
  deriving DecidableEq, Repr

/-- The part of the head of `send_once` that decides where the request goes. -/
def route (store : Hsts.Store) (now : ℕ) (url : Url) : Except NetError Origin :=
  match url.scheme with
  | .http => origin (Hsts.mustUpgrade store now url.host)
  | .https => origin true
  | scheme => .error (.url ("scheme \"" ++ scheme.asStr ++ "\" not supported"))
where
  origin (isHttps : Bool) : Except NetError Origin :=
    if url.host = [] then .error (.url "missing host")
    else .ok ⟨url.host, url.effectivePort.getD (if isHttps then 443 else 80), isHttps⟩

/-! ### Pools -/

structure PooledConn where
  conn : Conn
  lastUsed : ℕ
  deriving DecidableEq, Repr

/-- In nanoseconds. -/
def poolIdleTimeout : ℕ := 45 * 10 ^ 9

/-- Idle connections under what they were dialed for, the last one returned at the head. -/
structure Pool where
  idle : Origin → List PooledConn
  dialed : ∀ key, ∀ p ∈ idle key, p.conn.origin = key

namespace Pool

def evictStale (pool : Pool) (now : ℕ) : Pool where
  idle key := (pool.idle key).filter fun p => now - p.lastUsed < poolIdleTimeout
  dialed key _ hp := pool.dialed key _ (List.mem_of_mem_filter hp)

/-- The first connection that may be used again; those before it are dropped. -/
def checkout (pool : Pool) (reuseSafe : Conn → Bool) (key : Origin) : Option Conn × Pool :=
  (((pool.idle key).find? fun p => reuseSafe p.conn).map PooledConn.conn,
    { idle := Function.update pool.idle key
        ((pool.idle key).dropWhile fun p => !reuseSafe p.conn).tail
      dialed := by
        intro k p hp
        by_cases hk : k = key
        · subst hk
          rw [Function.update_self] at hp
          exact pool.dialed k p ((List.dropWhile_suffix _).subset (List.mem_of_mem_tail hp))
        · rw [Function.update_of_ne hk] at hp
          exact pool.dialed k p hp })

def returnToPool (pool : Pool) (now : ℕ) (conn : Conn) : Pool where
  idle := Function.update pool.idle conn.origin (⟨conn, now⟩ :: pool.idle conn.origin)
  dialed := by
    intro k p hp
    by_cases hk : k = conn.origin
    · subst hk
      rw [Function.update_self] at hp
      obtain rfl | hp := List.mem_cons.1 hp
      · rfl
      · exact pool.dialed _ p hp
    · rw [Function.update_of_ne hk] at hp
      exact pool.dialed k p hp

theorem checkout_origin {pool : Pool} {reuseSafe : Conn → Bool} {key : Origin} {conn : Conn}
    (h : (pool.checkout reuseSafe key).1 = some conn) : conn.origin = key := by
  obtain ⟨p, hp, rfl⟩ := Option.map_eq_some_iff.1 h
  exact pool.dialed key p (List.mem_of_find?_eq_some hp)

end Pool

/-- What `h2_drive_locked` looks at before it opens a stream. -/
structure H2State where
  poisoned : Bool
  closedByGoaway : Bool
  peerMaxConcurrent : ℕ
  activeStreamCount : ℕ
  deriving DecidableEq, Repr

structure H2Conn where
  conn : Conn
  state : H2State
  lastUsed : ℕ
  deriving DecidableEq, Repr

/-- Shared HTTP/2 connections, under the host and port they were dialed for. -/
structure H2Pool where
  live : Text × ℕ → Option H2Conn
  dialed : ∀ key, ∀ c ∈ live key, c.conn.origin = ⟨key.1, key.2, true⟩

namespace H2Pool

def evictStale (pool : H2Pool) (now : ℕ) : H2Pool where
  live key := (pool.live key).filter fun c => !c.state.poisoned && now - c.lastUsed < poolIdleTimeout
  dialed key c hc := pool.dialed key c (by simp_all [Option.filter_eq_some_iff])

def evict (pool : H2Pool) (key : Text × ℕ) : H2Pool where
  live := Function.update pool.live key none
  dialed := by
    intro k c hc
    by_cases hk : k = key
    · simp [hk] at hc
    · rw [Function.update_of_ne hk] at hc
      exact pool.dialed k c hc

def checkout (pool : H2Pool) (key : Text × ℕ) : Option H2Conn × H2Pool :=
  match pool.live key with
  | none => (none, pool)
  | some c =>
    if c.state.poisoned || c.state.closedByGoaway then (none, pool.evict key) else (some c, pool)

theorem checkout_origin {pool : H2Pool} {key : Text × ℕ} {c : H2Conn}
    (h : (pool.checkout key).1 = some c) : c.conn.origin = ⟨key.1, key.2, true⟩ := by
  unfold checkout at h
  cases hl : pool.live key with
  | none => simp [hl] at h
  | some c' =>
    simp only [hl] at h
    split_ifs at h
    cases h
    exact pool.dialed key c hl

end H2Pool

/-! ### What the network does -/

inductive DialOutcome where
  | unresolved (s : String)
  /-- No address took the connection. -/
  | unreachable (errors : List SocketError)
  | tlsFailed (s : String)
  | connected (alpn : String)
  deriving DecidableEq, Repr

def dial (o : DialOutcome) (origin : Origin) : Except NetError Conn :=
  match o with
  | .unresolved s => .error (.dns s)
  | .unreachable errors => .error ((errors.getLast?.map NetError.socket).getD (.http "no addr"))
  | .tlsFailed s => if origin.isHttps then .error (.http ("tls: " ++ s)) else .ok ⟨origin, ""⟩
  | .connected alpn => .ok ⟨origin, if origin.isHttps then alpn else ""⟩

/-- How an exchange over HTTP/1 ends, after the request was written but for the first. -/
inductive H1Outcome where
  | writeFailed (wrote : Bool) (e : NetError)
  | timedOut
  | readFailed (e : NetError)
  | unreadable (s : String)
  | answered (resp : Response) (framingBounded : Bool)
  deriving DecidableEq, Repr

def H1Outcome.result : H1Outcome → Except NetError Response
  | .writeFailed _ e => .error e
  | .timedOut => .error (.http "request timed out")
  | .readFailed e => .error e
  | .unreadable s => .error (.http s)
  | .answered resp _ => .ok resp

def H1Outcome.wrote : H1Outcome → Bool
  | .writeFailed wrote _ => wrote
  | _ => true

/-- Whether the connection goes back to the pool. -/
def H1Outcome.kept : H1Outcome → Bool
  | .answered resp framingBounded => framingBounded && !resp.serverClose && resp.status < 500
  | _ => false

/-- How `h2_send_request` ends, on a connection of its own. -/
inductive LegacyOutcome where
  | writeFailed (wrote : Bool) (e : NetError)
  | timedOut
  | readFailed (e : NetError)
  | peerClosed
  | flushFailed (e : NetError)
  | badBlock
  | noStatus
  | undecodable (s : String)
  | answered (resp : Response)
  deriving DecidableEq, Repr

def LegacyOutcome.result : LegacyOutcome → Except NetError Response
  | .writeFailed _ e => .error e
  | .timedOut => .error (.http "h2: timeout")
  | .readFailed e => .error e
  | .peerClosed => .error (.http "h2: peer closed")
  | .flushFailed e => .error e
  | .badBlock => .error (.http "h2: hpack decode failed")
  | .noStatus => .error (.http "h2: no :status")
  | .undecodable s => .error (.http s)
  | .answered resp => .ok resp

def LegacyOutcome.wrote : LegacyOutcome → Bool
  | .writeFailed wrote _ => wrote
  | _ => true

/-- How `h2_drive_request` ends, on a shared connection. -/
inductive StreamOutcome where
  | writeFailed (wrote : Bool) (e : NetError)
  | timedOut
  | readFailed (e : NetError)
  | peerClosed
  /-- GOAWAY with a last stream below this one. -/
  | notProcessed
  | flushFailed (e : NetError)
  | reset
  | badBlock
  | noStatus
  | undecodable (s : String)
  | answered (resp : Response)
  deriving DecidableEq, Repr

def StreamOutcome.result : StreamOutcome → Except NetError Response
  | .writeFailed _ e => .error e
  | .timedOut => .error (.http "h2: request timed out")
  | .readFailed e => .error e
  | .peerClosed => .error (.http "h2: peer closed (Closed)")
  | .notProcessed => .error (.http "h2: GOAWAY, stream not processed (Closed)")
  | .flushFailed e => .error e
  | .reset => .error (.http "h2: stream reset")
  | .badBlock => .error (.http "h2: hpack decode failed")
  | .noStatus => .error (.http "h2: no :status")
  | .undecodable s => .error (.http s)
  | .answered resp => .ok resp

def StreamOutcome.wrote : StreamOutcome → Bool
  | .writeFailed wrote _ => wrote
  | _ => true

/-- A transaction, over whichever protocol the connection has. Over HTTP/2 the server may have
`refused` it, with a signal that it was not processed. -/
structure Transaction where
  overH1 : H1Outcome
  overH2 : LegacyOutcome
  refused : Bool
  deriving DecidableEq, Repr

/-- A stream on a shared connection that is in that state once its lock is taken. -/
structure Drive where
  state : H2State
  outcome : StreamOutcome
  refused : Bool
  deriving DecidableEq, Repr

/-- All that one round meets: the clocks, what the pools hold when they are looked into (they
are shared with other clients), and how every dial and exchange that may come up ends. -/
structure Trip where
  store : Hsts.Store
  unixNow : ℕ
  now : ℕ
  h2PoolEnabled : Bool
  h2Pool : H2Pool
  first : Drive
  second : Drive
  h2Dial : DialOutcome
  preface : Option NetError
  fresh : Drive
  handed : Transaction
  pool : Pool
  reuseSafe : Conn → Bool
  pooled : Transaction
  firstDial : DialOutcome × Transaction
  secondDial : DialOutcome × Transaction

/-! ### The layers -/

/-- Where in a round an attempt is made. -/
inductive Layer where
  | pooledStream | pooledStreamAgain | freshStream | handedOver
  | pooledConn | firstDial | secondDial
  deriving DecidableEq, Repr

/-- One attempt to have the request answered. -/
structure Try where
  layer : Layer
  acceptBrotli : Bool
  target : Origin
  wrote : Bool
  unprocessed : Bool
  result : Except NetError Response
  kept : Bool

/-- An attempt that ends before a byte of the request is written. -/
def unsent (layer : Layer) (req : Request) (target : Origin) (e : NetError) : Try :=
  ⟨layer, req.acceptBrotli, target, false, false, .error e, false⟩

def h2SendRequest (layer : Layer) (conn : Conn) (req : Request) (t : Transaction) : Try :=
  ⟨layer, req.acceptBrotli, conn.origin, t.overH2.wrote, t.refused, t.overH2.result, false⟩

def transact (layer : Layer) (conn : Conn) (req : Request) (t : Transaction) : Try :=
  if conn.origin.isHttps ∧ conn.alpn = "h2" then h2SendRequest layer conn req t
  else ⟨layer, req.acceptBrotli, conn.origin, t.overH1.wrote, false, t.overH1.result,
    t.overH1.kept⟩

/-- The attempt, and whether the connection is poisoned after it. -/
def h2DriveLocked (layer : Layer) (conn : Conn) (req : Request) (d : Drive) : Try × Bool :=
  if d.state.poisoned then (unsent layer req conn.origin (.http "h2: conn poisoned"), true)
  else if d.state.closedByGoaway then
    (unsent layer req conn.origin (.http "h2: connection reset by GOAWAY"), true)
  else if 0 < d.state.peerMaxConcurrent ∧
      d.state.peerMaxConcurrent ≤ d.state.activeStreamCount then
    (unsent layer req conn.origin (.http "h2: peer max concurrent streams"), false)
  else
    (⟨layer, req.acceptBrotli, conn.origin, d.outcome.wrote,
      d.refused || d.outcome = .notProcessed, d.outcome.result, false⟩,
      match d.outcome.result with
      | .ok _ => false
      | .error e => !isH2StreamLevelError e)

inductive H2PoolOutcome where
  | response (r : Except NetError Response)
  | notH2 (conn : Conn)
  | fallthrough

/-- The part of `h2_send_via_pool` from the fresh dial on. -/
def h2SendFresh (req : Request) (t : Trip) (origin : Origin) : List Try × H2PoolOutcome :=
  match dial t.h2Dial ⟨origin.host, origin.port, true⟩ with
  | .error _ => ([], .fallthrough)
  | .ok conn =>
    if conn.alpn ≠ "h2" then ([], .notH2 conn)
    else
      match t.preface with
      | some e => ([unsent .freshStream req conn.origin e], .response (.error e))
      | none =>
        let a := (h2DriveLocked .freshStream conn req t.fresh).1
        ([a], .response a.result)

def h2SendViaPool (req : Request) (t : Trip) (origin : Origin) : List Try × H2PoolOutcome :=
  let fresh (tries : List Try) : List Try × H2PoolOutcome :=
    let next := h2SendFresh req t origin
    (tries ++ next.1, next.2)
  match ((t.h2Pool.evictStale t.now).checkout (origin.host, origin.port)).1 with
  | none => fresh []
  | some c =>
    let a := (h2DriveLocked .pooledStream c.conn req t.first).1
    match a.result with
    | .ok resp => ([a], .response (.ok resp))
    | .error e =>
      if isH2StreamLevelError e then
        let b := (h2DriveLocked .pooledStreamAgain c.conn req t.second).1
        match b.result with
        | .ok resp => ([a, b], .response (.ok resp))
        | .error e2 =>
          if isH2StreamLevelError e2 then fresh [a, b]
          else if isRetriableConnError e2 then fresh [a, b]
          else ([a, b], .response (.error e2))
      else if isRetriableConnError e then fresh [a]
      else ([a], .response (.error e))

structure Sent where
  tries : List Try
  result : Except NetError Response

def Sent.of (x : Try) : Sent := ⟨[x], x.result⟩

def Sent.after (tries : List Try) (s : Sent) : Sent := ⟨tries ++ s.tries, s.result⟩

/-- What came of it, or what is done next where it ended in an error of such a kind. -/
def Sent.orElse (s : Sent) (again : NetError → Bool) (next : NetError → Sent) : Sent :=
  match s.result with
  | .ok _ => s
  | .error e => if again e then (next e).after s.tries else s

def dialAndTransact (layer : Layer) (req : Request) (origin : Origin)
    (d : DialOutcome × Transaction) : Try :=
  match dial d.1 origin with
  | .error e => unsent layer req origin e
  | .ok conn => transact layer conn req d.2

/-- The loop over fresh connections, with the last error. -/
def dialLoop (req : Request) (origin : Origin) :
    List (Layer × DialOutcome × Transaction) → Option NetError → Sent
  | [], lastErr => ⟨[], .error (lastErr.getD (.http "connection failed"))⟩
  | (layer, d) :: rest, _ =>
    (Sent.of (dialAndTransact layer req origin d)).orElse isRetriableConnError
      fun e => dialLoop req origin rest (some e)

/-- The part of `send_once` after the shared HTTP/2 connections. -/
def sendOverPool (req : Request) (t : Trip) (origin : Origin) : Sent :=
  let dials := dialLoop req origin [(.firstDial, t.firstDial), (.secondDial, t.secondDial)] none
  match ((t.pool.evictStale t.now).checkout t.reuseSafe origin).1 with
  | none => dials
  | some conn =>
    (Sent.of (transact .pooledConn conn req t.pooled)).orElse isRetriableConnError fun _ => dials

def sendOnce (req : Request) (t : Trip) : Sent :=
  match route t.store t.unixNow req.url with
  | .error e => ⟨[], .error e⟩
  | .ok origin =>
    if t.h2PoolEnabled && origin.isHttps then
      match h2SendViaPool req t origin with
      | (tries, .response r) => ⟨tries, r⟩
      | (tries, .notH2 conn) => (Sent.of (transact .handedOver conn req t.handed)).after tries
      | (tries, .fallthrough) => (sendOverPool req t origin).after tries
    else sendOverPool req t origin

/-- A request, with what its first round meets and what a second one would. -/
def send (req : Request) (t₁ t₂ : Trip) : Sent :=
  (sendOnce req t₁).orElse (fun e => req.acceptBrotli && isBrotliDecodeError e)
    fun _ => sendOnce { req with acceptBrotli := false } t₂

end Conclave.Net.Send
