import Conclave.Lib.Run

/-! The worker pool: a queue with three priority bands behind one lock, workers that
sleep on a condition variable, and a drop that drains the queue and joins them. A step
is one critical section, one notification or the end of one job. -/

namespace Conclave.Sched

inductive Priority where
  | high
  | normal
  | low
  deriving DecidableEq, Repr

/-- A closure, with the priority it is submitted at and how its call ends. -/
structure Job where
  name : ℕ
  priority : Priority
  panics : Bool
  deriving DecidableEq, Repr

structure Inner where
  high : List Job
  normal : List Job
  low : List Job
  shutdown : Bool
  deriving DecidableEq, Repr

namespace Inner

def push (inner : Inner) (priority : Priority) (job : Job) : Inner :=
  match priority with
  | .high => { inner with high := inner.high ++ [job] }
  | .normal => { inner with normal := inner.normal ++ [job] }
  | .low => { inner with low := inner.low ++ [job] }

def pop (inner : Inner) : Option (Job × Inner) :=
  match inner.high, inner.normal, inner.low with
  | job :: high, _, _ => some (job, { inner with high := high })
  | [], job :: normal, _ => some (job, { inner with normal := normal })
  | [], [], job :: low => some (job, { inner with low := low })
  | [], [], [] => none

def pending (inner : Inner) : ℕ := inner.high.length + inner.normal.length + inner.low.length

/-- The queue of one priority, oldest first. -/
def band (inner : Inner) : Priority → List Job
  | .high => inner.high
  | .normal => inner.normal
  | .low => inner.low

end Inner

inductive Worker where
  /-- About to take the lock. -/
  | ready
  | sleeping
  | running (job : Job)
  | exited
  /-- Unwound by a panic of its job. -/
  | died
  deriving DecidableEq, Repr

namespace Worker

def alive : Worker → Bool
  | exited => false
  | died => false
  | _ => true

def job : Worker → Option Job
  | running job => some job
  | _ => none

/-- A notification ends a wait and nothing else. -/
def wake : Worker → Worker
  | sleeping => ready
  | w => w

end Worker

/-- The critical section of the worker's loop. -/
def worker (inner : Inner) : Worker × Inner :=
  match inner.pop with
  | some (job, inner) => (.running job, inner)
  | none => if inner.shutdown then (.exited, inner) else (.sleeping, inner)

inductive Closing where
  | inUse
  | flagged
  | joining
  | returned
  deriving DecidableEq, Repr

/-- `notifies` counts the submit calls between their push and their notification. The
last three fields are the history, which no step reads. -/
structure Pool where
  inner : Inner
  workers : List Worker
  notifies : ℕ
  closing : Closing
  submitted : List Job
  started : List Job
  ended : List Job
  deriving DecidableEq, Repr

inductive Act where
  | submit (job : Job)
  /-- The notification of a submit call, with the sleeper it reaches if there is one. -/
  | notifyOne (i : ℕ)
  | spurious (i : ℕ)
  | acquire (i : ℕ)
  /-- A job returns or panics. -/
  | finish (i : ℕ)
  | drop
  | notifyAll
  /-- The last of the joins. -/
  | join
  deriving DecidableEq, Repr

namespace Pool

def new (threads : ℕ) : Pool :=
  ⟨⟨[], [], [], false⟩, List.replicate (max threads 1) .ready, 0, .inUse, [], [], []⟩

def wakeAt (s : Pool) (i : ℕ) : Option Pool :=
  if s.workers[i]? = some .sleeping then some { s with workers := s.workers.set i .ready }
  else none

/-- `submit` borrows the pool and `drop` owns it, so a drop finds no call under way and
no call follows it. -/
def step (s : Pool) : Act → Option Pool
  | .submit job =>
    if s.closing = .inUse then
      some { s with
        inner := s.inner.push job.priority job
        notifies := s.notifies + 1
        submitted := s.submitted ++ [job] }
    else none
  | .notifyOne i =>
    if s.notifies = 0 then none
    else if .sleeping ∈ s.workers then
      (s.wakeAt i).map fun s => { s with notifies := s.notifies - 1 }
    else some { s with notifies := s.notifies - 1 }
  | .spurious i => s.wakeAt i
  | .acquire i =>
    if s.workers[i]? = some .ready then
      let (next, inner) := worker s.inner
      some { s with
        inner := inner
        workers := s.workers.set i next
        started := s.started ++ next.job.toList }
    else none
  | .finish i =>
    match s.workers[i]? with
    | some (.running job) =>
      some { s with
        workers := s.workers.set i (if job.panics then .died else .ready)
        ended := s.ended ++ [job] }
    | _ => none
  | .drop =>
    if s.closing = .inUse ∧ s.notifies = 0 then
      some { s with inner := { s.inner with shutdown := true }, closing := .flagged }
    else none
  | .notifyAll =>
    if s.closing = .flagged then
      some { s with workers := s.workers.map Worker.wake, closing := .joining }
    else none
  | .join =>
    if s.closing = .joining ∧ ∀ w ∈ s.workers, w.alive = false then
      some { s with closing := .returned }
    else none

end Pool

end Conclave.Sched
