import Conclave.Lib.Run

/-! The scheduler of timeouts, intervals and animation frames, and a host that drains it:
it runs what a drain returns or hands it back, while callbacks schedule and cancel. An
operation gives nothing when the sum for a deadline does not fit. -/

namespace Conclave.Browser

abbrev TaskId := BitVec 32

inductive TaskKind where
  | timeout
  | interval
  | animationFrame
  deriving DecidableEq, Repr

/-- A pending callback; `V` stands for the values of the script engine. -/
structure Task (V : Type) where
  id : TaskId
  fireAtMs : ℕ
  repeatMs : Option ℕ
  callable : V
  kind : TaskKind
  extraArgs : List V
  deriving DecidableEq, Repr

structure Scheduler (V : Type) where
  nextId : TaskId
  queue : List (Task V)
  deriving DecidableEq, Repr

variable {V : Type}

/-- The sum of two numbers of milliseconds. -/
def addMs (a b : ℕ) : Option ℕ := if a + b < 2 ^ 64 then some (a + b) else none

/-- `Vec::swap_remove`: the last one comes to the place of the one taken out. -/
def swapRemove {α : Type} (l : List α) (i : ℕ) : List α :=
  match l.getLast? with
  | some last => (l.set i last).dropLast
  | none => l

namespace Scheduler

def new : Scheduler V := ⟨1, []⟩

def push (s : Scheduler V) (t : Task V) : Scheduler V := { s with queue := s.queue ++ [t] }

def allocId (s : Scheduler V) : TaskId × Scheduler V := (s.nextId, { s with nextId := s.nextId + 1 })

/-- A new task that fires so long after `now`. -/
def schedule (s : Scheduler V) (now after : ℕ) (repeatMs : Option ℕ) (callable : V)
    (kind : TaskKind) (extraArgs : List V) : Option (TaskId × Scheduler V) := do
  let (id, s) := s.allocId
  let fireAtMs ← addMs now after
  return (id, s.push ⟨id, fireAtMs, repeatMs, callable, kind, extraArgs⟩)

def scheduleTimeoutWithArgs (s : Scheduler V) (now : ℕ) (callable : V) (delayMs : ℕ)
    (extraArgs : List V) : Option (TaskId × Scheduler V) :=
  s.schedule now delayMs none callable .timeout extraArgs

def scheduleIntervalWithArgs (s : Scheduler V) (now : ℕ) (callable : V) (periodMs : ℕ)
    (extraArgs : List V) : Option (TaskId × Scheduler V) :=
  s.schedule now (max periodMs 1) (some (max periodMs 1)) callable .interval extraArgs

def scheduleRaf (s : Scheduler V) (now : ℕ) (callable : V) : Option (TaskId × Scheduler V) :=
  s.schedule now 1 none callable .animationFrame []

def cancel (s : Scheduler V) (id : TaskId) : Scheduler V :=
  { s with queue := s.queue.filter fun t => t.id ≠ id }

def requeue (s : Scheduler V) (t : Task V) : Scheduler V := s.push t

end Scheduler

/-! ### Draining -/

/-- The loop over the queue: a task that is due goes out and what it is rearmed to goes to
the end. With so many turns as fuel. -/
def drainLoop (due : Task V → Bool) (rearm : Task V → Option (List (Task V))) :
    (fuel : ℕ) → (queue : List (Task V)) → (i : ℕ) → (out : List (Task V)) →
      Option (List (Task V) × List (Task V))
  | 0, queue, i, out => if i < queue.length then none else some (queue, out)
  | fuel + 1, queue, i, out =>
    match queue[i]? with
    | none => some (queue, out)
    | some t =>
      if due t then do
        let again ← rearm t
        drainLoop due rearm fuel (swapRemove queue i ++ again) i (out ++ [t])
      else drainLoop due rearm fuel queue (i + 1) out

/-- The order of deadlines, and of ids where these are the same. -/
def Task.le (a b : Task V) : Bool :=
  a.fireAtMs < b.fireAtMs || a.fireAtMs == b.fireAtMs && a.id.toNat ≤ b.id.toNat

/-- Whether a task is due, with a cutoff of its own for animation frames. -/
def Task.dueSplit (cutoffMs rafCutoffMs : ℕ) (t : Task V) : Bool :=
  t.fireAtMs ≤ if t.kind = .animationFrame then rafCutoffMs else cutoffMs

def Task.dueTimeout (cutoffMs : ℕ) (t : Task V) : Bool :=
  t.fireAtMs ≤ cutoffMs && t.kind == .timeout

/-- What an interval is queued as again, from the cutoff on. -/
def Task.rearm (cutoffMs : ℕ) (t : Task V) : Option (List (Task V)) :=
  match t.repeatMs with
  | some p => do
    let fireAtMs ← addMs cutoffMs p
    return [{ t with fireAtMs := fireAtMs, repeatMs := some p, kind := .interval }]
  | none => some []

namespace Scheduler

/-- Twice the length is fuel enough: each turn takes a due task out or leaves one behind. -/
def drainWith (s : Scheduler V) (due : Task V → Bool)
    (rearm : Task V → Option (List (Task V))) : Option (List (Task V) × Scheduler V) := do
  let (queue, out) ← drainLoop due rearm (2 * s.queue.length) s.queue 0 []
  return (out.mergeSort Task.le, { s with queue := queue })

def drainDueSplit (s : Scheduler V) (cutoffMs rafCutoffMs : ℕ) :
    Option (List (Task V) × Scheduler V) :=
  s.drainWith (Task.dueSplit cutoffMs rafCutoffMs) (Task.rearm cutoffMs)

def drainDueTimeouts (s : Scheduler V) (cutoffMs : ℕ) : Option (List (Task V) × Scheduler V) :=
  s.drainWith (Task.dueTimeout cutoffMs) fun _ => some []

end Scheduler

/-! ### The host -/

/-- What happens, each time with what the clock reads. -/
inductive TimerAct (V : Type) where
  | timeout (now : ℕ) (callable : V) (delayMs : ℕ) (extraArgs : List V)
  | interval (now : ℕ) (callable : V) (periodMs : ℕ) (extraArgs : List V)
  | raf (now : ℕ) (callable : V)
  | cancel (id : TaskId)
  | drainSplit (cutoffMs rafCutoffMs : ℕ)
  | drainTimeouts (cutoffMs : ℕ)
  | run
  | requeue
  deriving Repr

/-- The scheduler with the tasks that were returned and neither run nor handed back, and
what was done: the ids given out with their kinds, the tasks run, and the ids cancelled
after they were given out. -/
structure Host (V : Type) where
  sched : Scheduler V
  out : List (Task V)
  issued : List (TaskId × TaskKind)
  ran : List (Task V)
  cancelled : List TaskId
  deriving DecidableEq, Repr

namespace Host

def new : Host V := ⟨.new, [], [], [], []⟩

def scheduled (h : Host V) (kind : TaskKind) (r : Option (TaskId × Scheduler V)) :
    Option (Host V) :=
  r.map fun (id, sched) => { h with sched := sched, issued := h.issued ++ [(id, kind)] }

/-- A batch comes before what is left of an earlier one, as when a callback drains. -/
def drained (h : Host V) (r : Option (List (Task V) × Scheduler V)) : Option (Host V) :=
  r.map fun (batch, sched) => { h with sched := sched, out := batch ++ h.out }

def step (h : Host V) : TimerAct V → Option (Host V)
  | .timeout now callable delayMs extraArgs =>
    h.scheduled .timeout (h.sched.scheduleTimeoutWithArgs now callable delayMs extraArgs)
  | .interval now callable periodMs extraArgs =>
    h.scheduled .interval (h.sched.scheduleIntervalWithArgs now callable periodMs extraArgs)
  | .raf now callable => h.scheduled .animationFrame (h.sched.scheduleRaf now callable)
  | .cancel id => some { h with
      sched := h.sched.cancel id
      cancelled := if id ∈ h.issued.map Prod.fst then id :: h.cancelled else h.cancelled }
  | .drainSplit cutoffMs rafCutoffMs => h.drained (h.sched.drainDueSplit cutoffMs rafCutoffMs)
  | .drainTimeouts cutoffMs => h.drained (h.sched.drainDueTimeouts cutoffMs)
  | .run => match h.out with
    | [] => none
    | t :: rest => some { h with out := rest, ran := h.ran ++ [t] }
  | .requeue => match h.out with
    | [] => none
    | t :: rest => some { h with out := rest, sched := h.sched.requeue t }

end Host

end Conclave.Browser
