import Conclave.Lib.Run

/-! Cached resolution of hosts. The cache and the markers of the lookups under way are
behind one lock; a caller that finds neither a fresh entry nor a marker leads a lookup
outside the lock, the others wait on a condition variable. A step is one critical section,
one notification, or the end of one lookup. -/

namespace Conclave.Net.Dns

open Lib

inductive IpAddr where
  | v4 (octets : List UInt8)
  | v6 (octets : List UInt8)
  deriving DecidableEq, Repr

structure ResolvedAddr where
  ip : IpAddr
  port : ℕ
  deriving DecidableEq, Repr

abbrev Answer := Except String (List IpAddr)

def stamp (ips : List IpAddr) (port : ℕ) : List ResolvedAddr := ips.map fun ip => ⟨ip, port⟩

/-- Instants are in nanoseconds. -/
structure Entry where
  result : Answer
  expires : ℕ

def Entry.isFresh (e : Entry) (now : ℕ) : Bool := e.expires > now

/-- What `CV_DNS_TTL_SECS` and `CV_DNS_NEG_TTL_SECS` say, and the first instant that the clock
of the platform cannot represent. -/
structure Config where
  positiveTtl : ℕ
  negativeTtl : ℕ
  instantEnd : ℕ

def Config.ttl (c : Config) : Answer → ℕ
  | .ok _ => c.positiveTtl * 10 ^ 9
  | .error _ => c.negativeTtl * 10 ^ 9

/-- Adding to an instant panics when the sum cannot be represented. -/
def Config.instantAdd (c : Config) (now d : ℕ) : Option ℕ :=
  if now + d < c.instantEnd then some (now + d) else none

/-- A marker names the caller that set it, which the code does not store. -/
structure Shared where
  cache : String → Option Entry
  inflight : String → Option ℕ

/-- What the critical section at the head of the loop decides. -/
inductive Entered where
  | answered (result : Answer)
  | waits (leader : ℕ)
  | leads

def enter (shared : Shared) (host : String) (now : ℕ) : Entered :=
  match (shared.cache host).filter fun e => e.isFresh now with
  | some e => .answered e.result
  | none =>
    match shared.inflight host with
    | some leader => .waits leader
    | none => .leads

def mark (shared : Shared) (host : String) (i : ℕ) : Shared :=
  { shared with inflight := Function.update shared.inflight host (some i) }

def unmark (shared : Shared) (host : String) : Shared :=
  { shared with inflight := Function.update shared.inflight host none }

/-- The critical section in which a leader stores its result; none when it panics there, with
its guard disarmed. -/
def publish (c : Config) (shared : Shared) (host : String) (result : Answer) (now : ℕ) :
    Option Shared :=
  (c.instantAdd now (c.ttl result)).map fun expires =>
    unmark { shared with cache := Function.update shared.cache host (some ⟨result, expires⟩) } host

/-- One call of `resolve`. -/
inductive Caller where
  | idle
  /-- About to take the lock at the head of the loop. -/
  | ready (host : String) (port : ℕ)
  | waiting (host : String) (port leader : ℕ)
  /-- In the lookup, with the guard armed. -/
  | looking (host : String) (port : ℕ)
  | looked (host : String) (port : ℕ) (result : Answer)
  /-- The lookup panicked, and the guard is about to take the lock. -/
  | unwinding (host : String)
  /-- The guard has let go of the lock, and has not notified yet. -/
  | notifying (host : String)
  | returned (host : String) (port : ℕ) (result : Except String (List ResolvedAddr)) (time : ℕ)
  | died

namespace Caller

/-- The host whose marker a caller has set and not removed. -/
def holds : Caller → Option String
  | looking host _ => some host
  | looked host _ _ => some host
  | unwinding host => some host
  | _ => none

/-- The host whose waiters a caller has still to wake. -/
def leads : Caller → Option String
  | notifying host => some host
  | caller => caller.holds

/-- A notification ends a wait and nothing else. -/
def wake : Caller → Caller
  | waiting host port _ => ready host port
  | caller => caller

def resting : Caller → Bool
  | idle => true
  | returned .. => true
  | died => true
  | _ => false

end Caller

/-- A lookup that was stored. -/
structure Lookup where
  host : String
  result : Answer
  stored : ℕ

/-- The last field is the history, which no step reads. -/
structure Resolver where
  shared : Shared
  callers : ℕ → Caller
  now : ℕ
  lookups : List Lookup

inductive Act where
  | call (i : ℕ) (host : String) (port : ℕ)
  | acquire (i : ℕ)
  /-- A wait ends by itself, after its time or before. -/
  | timeout (i : ℕ)
  | lookupEnds (i : ℕ) (result : Answer)
  | lookupPanics (i : ℕ)
  | publish (i : ℕ)
  | release (i : ℕ)
  | notifyAll (i : ℕ)
  | tick (d : ℕ)

namespace Resolver

def new (now : ℕ) : Resolver := ⟨⟨fun _ => none, fun _ => none⟩, fun _ => .idle, now, []⟩

def set (s : Resolver) (i : ℕ) (caller : Caller) : Resolver :=
  { s with callers := Function.update s.callers i caller }

def wakeAll (s : Resolver) : Resolver := { s with callers := fun i => (s.callers i).wake }

/-- A call returns, with the port stamped onto the addresses. -/
def answer (s : Resolver) (i : ℕ) (host : String) (port : ℕ) (result : Answer) : Resolver :=
  s.set i (.returned host port (result.map fun ips => stamp ips port) s.now)

def step (c : Config) (s : Resolver) : Act → Option Resolver
  | .call i host port =>
    if (s.callers i).resting then some (s.set i (.ready host port)) else none
  | .acquire i =>
    match s.callers i with
    | .ready host port =>
      match enter s.shared host s.now with
      | .answered result => some (s.answer i host port result)
      | .waits leader => some (s.set i (.waiting host port leader))
      | .leads => some { s.set i (.looking host port) with shared := mark s.shared host i }
    | _ => none
  | .timeout i =>
    match s.callers i with
    | .waiting host port _ => some (s.set i (.ready host port))
    | _ => none
  | .lookupEnds i result =>
    match s.callers i with
    | .looking host port => some (s.set i (.looked host port result))
    | _ => none
  | .lookupPanics i =>
    match s.callers i with
    | .looking host _ => some (s.set i (.unwinding host))
    | _ => none
  | .publish i =>
    match s.callers i with
    | .looked host port result =>
      match publish c s.shared host result s.now with
      | some shared =>
        some { (s.wakeAll).answer i host port result with
          shared := shared
          lookups := ⟨host, result, s.now⟩ :: s.lookups }
      | none => some (s.set i .died)
    | _ => none
  | .release i =>
    match s.callers i with
    | .unwinding host => some { s.set i (.notifying host) with shared := unmark s.shared host }
    | _ => none
  | .notifyAll i =>
    match s.callers i with
    | .notifying _ => some (s.wakeAll.set i .died)
    | _ => none
  | .tick d => some { s with now := s.now + d }

end Resolver

end Conclave.Net.Dns
