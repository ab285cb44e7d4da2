import Conclave.Sched.Pool

/-! No job is lost while a worker is left to take it: what the queue, the workers and the
history have in common in every reachable state, and what a drop returns with. -/

namespace Conclave.Sched

open Lib

/-! ### The queue -/

namespace Inner

theorem band_push (inner : Inner) (p q : Priority) (job : Job) :
    (inner.push p job).band q = inner.band q ++ if q = p then [job] else [] := by
  cases p <;> cases q <;> simp [push, band]

theorem pending_push (inner : Inner) (p : Priority) (job : Job) :
    (inner.push p job).pending = inner.pending + 1 := by
  cases p <;> simp [push, pending] <;> omega

theorem pending_eq_zero {inner : Inner} : inner.pending = 0 ↔ ∀ p, inner.band p = [] := by
  constructor
  · intro h p
    have h' : inner.high.length = 0 ∧ inner.normal.length = 0 ∧ inner.low.length = 0 := by
      unfold pending at h
      omega
    cases p <;> simp only [band]
    · exact List.length_eq_zero_iff.mp h'.1
    · exact List.length_eq_zero_iff.mp h'.2.1
    · exact List.length_eq_zero_iff.mp h'.2.2
  · intro h
    have hh := h .high
    have hn := h .normal
    have hl := h .low
    simp only [band] at hh hn hl
    simp [pending, hh, hn, hl]

/-- The bands that drain before `p`. -/
def above : Priority → List Priority
  | .high => []
  | .normal => [.high]
  | .low => [.high, .normal]

/-- A pop takes the head of the first band that has one. -/
theorem pop_some {inner inner' : Inner} {job : Job} (h : inner.pop = some (job, inner')) :
    ∃ p, inner.band p = job :: inner'.band p ∧ (∀ q ≠ p, inner'.band q = inner.band q) ∧
      (∀ q ∈ above p, inner.band q = []) ∧ inner.pending = inner'.pending + 1 ∧
      inner'.shutdown = inner.shutdown := by
  obtain ⟨high, normal, low, shutdown⟩ := inner
  match high, normal, low, h with
  | _ :: _, _, _, h =>
    cases h
    exact ⟨.high, rfl, fun q hq => by cases q <;> trivial, by simp [above],
      by simp [pending]; omega, rfl⟩
  | [], _ :: _, _, h =>
    cases h
    exact ⟨.normal, rfl, fun q hq => by cases q <;> trivial, by simp [above, band],
      by simp [pending]; omega, rfl⟩
  | [], [], _ :: _, h =>
    cases h
    exact ⟨.low, rfl, fun q hq => by cases q <;> trivial, by simp [above, band],
      by simp [pending], rfl⟩

theorem pop_none {inner : Inner} (h : inner.pop = none) : inner.pending = 0 := by
  obtain ⟨high, normal, low, shutdown⟩ := inner
  match high, normal, low, h with
  | [], [], [], _ => rfl

end Inner

/-- One turn of a worker: it takes a job, or leaves with the queue empty and closed, or
goes to sleep with the queue empty. -/
theorem worker_cases (inner : Inner) :
    (∃ job inner', inner.pop = some (job, inner') ∧ worker inner = (.running job, inner')) ∨
    (inner.pending = 0 ∧ inner.shutdown = true ∧ worker inner = (.exited, inner)) ∨
    (inner.pending = 0 ∧ inner.shutdown = false ∧ worker inner = (.sleeping, inner)) := by
  unfold worker
  cases hp : inner.pop with
  | some r => exact .inl ⟨r.1, r.2, rfl, rfl⟩
  | none =>
    have h0 := Inner.pop_none hp
    cases hs : inner.shutdown
    · exact .inr (.inr ⟨h0, rfl, rfl⟩)
    · exact .inr (.inl ⟨h0, rfl, rfl⟩)

/-! ### The workers -/

/-- A worker among the others, and what stands there after it changes. -/
theorem workers_split {ws : List Worker} {i : ℕ} {w : Worker} (h : ws[i]? = some w) :
    ∃ l r, ws = l ++ w :: r ∧ (∀ w', ws.set i w' = l ++ w' :: r) ∧ l.length = i := by
  obtain ⟨hi, hw⟩ := List.getElem?_eq_some_iff.mp h
  refine ⟨ws.take i, ws.drop (i + 1), ?_, fun w' => List.set_eq_take_append_cons_drop.trans ?_, ?_⟩
  · rw [← hw, List.cons_getElem_drop_succ, List.take_append_drop]
  · rw [if_pos hi]
  · rw [List.length_take]
    omega

theorem jobs_split (l r : List Worker) (w : Worker) :
    (l ++ w :: r).filterMap Worker.job =
      l.filterMap Worker.job ++ (w.job.toList ++ r.filterMap Worker.job) := by
  rw [List.filterMap_append]
  cases w <;> rfl

/-! ### Steps -/

namespace Pool

/-- What a step can do, with the worker it concerns between the others. -/
inductive Turn (s : Pool) : Act → Pool → Prop
  | submit (job : Job) (hopen : s.closing = .inUse) :
      Turn s (.submit job) { s with
        inner := s.inner.push job.priority job
        notifies := s.notifies + 1
        submitted := s.submitted ++ [job] }
  | notifyNone (i : ℕ) (hdue : 0 < s.notifies) (hnone : .sleeping ∉ s.workers) :
      Turn s (.notifyOne i) { s with notifies := s.notifies - 1 }
  | notify (l r : List Worker) (hdue : 0 < s.notifies) (hw : s.workers = l ++ .sleeping :: r) :
      Turn s (.notifyOne l.length)
        { s with workers := l ++ .ready :: r, notifies := s.notifies - 1 }
  | spurious (l r : List Worker) (hw : s.workers = l ++ .sleeping :: r) :
      Turn s (.spurious l.length) { s with workers := l ++ .ready :: r }
  | take (l r : List Worker) (job : Job) (inner : Inner) (hw : s.workers = l ++ .ready :: r)
      (hpop : s.inner.pop = some (job, inner)) :
      Turn s (.acquire l.length) { s with
        inner := inner
        workers := l ++ .running job :: r
        started := s.started ++ [job] }
  | exit (l r : List Worker) (hw : s.workers = l ++ .ready :: r) (hempty : s.inner.pending = 0) :
      Turn s (.acquire l.length) { s with workers := l ++ .exited :: r }
  | sleep (l r : List Worker) (hw : s.workers = l ++ .ready :: r)
      (hempty : s.inner.pending = 0) :
      Turn s (.acquire l.length) { s with workers := l ++ .sleeping :: r }
  | finish (l r : List Worker) (job : Job) (hw : s.workers = l ++ .running job :: r) :
      Turn s (.finish l.length) { s with
        workers := l ++ (if job.panics then .died else .ready) :: r
        ended := s.ended ++ [job] }
  | drop (hopen : s.closing = .inUse) :
      Turn s .drop { s with inner := { s.inner with shutdown := true }, closing := .flagged }
  | notifyAll :
      Turn s .notifyAll { s with workers := s.workers.map Worker.wake, closing := .joining }
  | join (hgone : ∀ w ∈ s.workers, w.alive = false) :
      Turn s .join { s with closing := .returned }

variable {s s' : Pool} {a : Act}

theorem wakeAt_some {i : ℕ} (h : s.wakeAt i = some s') :
    ∃ l r, s.workers = l ++ .sleeping :: r ∧ l.length = i ∧
      s' = { s with workers := l ++ .ready :: r } := by
  unfold wakeAt at h
  split_ifs at h with hi
  obtain ⟨l, r, hw, hset, hl⟩ := workers_split hi
  exact ⟨l, r, hw, hl, by rw [← Option.some.inj h, hset]⟩

theorem step_turn (h : s.step a = some s') : Turn s a s' := by
  cases a with
  | submit job =>
    simp only [step] at h
    split_ifs at h with hopen
    exact Option.some.inj h ▸ .submit job hopen
  | notifyOne i =>
    simp only [step] at h
    split_ifs at h with hdue hsleep
    · obtain ⟨s₁, hwake, rfl⟩ := Option.map_eq_some_iff.mp h
      obtain ⟨l, r, hw, rfl, rfl⟩ := wakeAt_some hwake
      exact .notify l r (Nat.pos_of_ne_zero hdue) hw
    · exact Option.some.inj h ▸ .notifyNone i (Nat.pos_of_ne_zero hdue) hsleep
  | spurious i =>
    obtain ⟨l, r, hw, rfl, rfl⟩ := wakeAt_some h
    exact .spurious l r hw
  | acquire i =>
    simp only [step] at h
    split_ifs at h with hi
    obtain ⟨l, r, hw, hset, rfl⟩ := workers_split hi
    rcases worker_cases s.inner with ⟨job, inner, hpop, hworker⟩ | ⟨h0, -, hworker⟩ |
      ⟨h0, -, hworker⟩
    · rw [hworker] at h
      simp only [hset, Worker.job, Option.toList_some] at h
      exact Option.some.inj h ▸ .take l r job inner hw hpop
    · rw [hworker] at h
      simp only [hset, Worker.job, Option.toList_none, List.append_nil] at h
      exact Option.some.inj h ▸ .exit l r hw h0
    · rw [hworker] at h
      simp only [hset, Worker.job, Option.toList_none, List.append_nil] at h
      exact Option.some.inj h ▸ .sleep l r hw h0
  | finish i =>
    simp only [step] at h
    split at h
    · rename_i job hi
      obtain ⟨l, r, hw, hset, rfl⟩ := workers_split hi
      rw [hset] at h
      exact Option.some.inj h ▸ .finish l r job hw
    · cases h
  | drop =>
    simp only [step] at h
    split_ifs at h with hopen
    exact Option.some.inj h ▸ .drop hopen.1
  | notifyAll =>
    simp only [step] at h
    split_ifs at h
    exact Option.some.inj h ▸ .notifyAll
  | join =>
    simp only [step] at h
    split_ifs at h with hgone
    exact Option.some.inj h ▸ .join hgone.2

/-! ### What holds in every reachable state -/

structure Sound (s : Pool) : Prop where
  /-- Each band was submitted as it was started and is still queued, in this order. -/
  bands : ∀ p, s.submitted.filter (·.priority = p) =
    s.started.filter (·.priority = p) ++ s.inner.band p
  running : s.started.Perm (s.ended ++ s.workers.filterMap Worker.job)
  /-- While somebody sleeps, every queued job has a worker about to look at the queue or
  a notification due. -/
  awake : .sleeping ∈ s.workers → s.inner.pending ≤ s.workers.count .ready + s.notifies
  gone : s.closing = .returned → ∀ w ∈ s.workers, w.alive = false

theorem Sound.priority (h : s.Sound) {p : Priority} {job : Job} (hjob : job ∈ s.inner.band p) :
    job.priority = p := by
  have hmem : job ∈ s.submitted.filter (·.priority = p) := by
    rw [h.bands p]
    exact List.mem_append_right _ hjob
  simpa using (List.mem_filter.mp hmem).2

theorem sound_new (threads : ℕ) : (new threads).Sound where
  bands p := by cases p <;> rfl
  running := by
    have hnone : ∀ n, (List.replicate n Worker.ready).filterMap Worker.job = [] := by
      intro n
      simp [Worker.job]
    simp [new, hnone]
  awake h := by simp [new] at h
  gone h := by simp [new] at h

theorem bands_step (h : s.Sound) (ht : Turn s a s') (p : Priority) :
    s'.submitted.filter (·.priority = p) =
      s'.started.filter (·.priority = p) ++ s'.inner.band p := by
  cases ht with
  | submit job hopen =>
    rw [List.filter_append, h.bands p, Inner.band_push, List.append_assoc]
    by_cases hp : p = job.priority
    · simp [hp]
    · simp [hp, Ne.symm hp]
  | take l r job inner hw hpop =>
    obtain ⟨q, hq, hother, -⟩ := Inner.pop_some hpop
    have hprio : job.priority = q := h.priority (hq ▸ List.mem_cons_self)
    rw [List.filter_append, h.bands p, List.append_assoc]
    congr 1
    by_cases hp : p = q
    · subst hp
      simp [hprio, hq]
    · simp [hprio, Ne.symm hp, hother p hp]
  | drop => exact (h.bands p).trans (by cases p <;> rfl)
  | _ => exact h.bands p

theorem running_step (h : s.Sound) (ht : Turn s a s') :
    s'.started.Perm (s'.ended ++ s'.workers.filterMap Worker.job) := by
  have hrun := h.running
  cases ht with
  | submit | notifyNone | drop | join => exact hrun
  | notify l r _ hw | spurious l r hw | exit l r hw | sleep l r hw =>
    rw [hw, jobs_split] at hrun
    rw [jobs_split]
    exact hrun
  | take l r job inner hw hpop =>
    rw [hw, jobs_split] at hrun
    rw [jobs_split]
    refine (hrun.append_right [job]).trans ?_
    simp only [Worker.job, Option.toList_none, List.nil_append, Option.toList_some,
      List.append_assoc]
    exact List.Perm.append_left _ (List.Perm.append_left _ List.perm_append_comm)
  | finish l r job hw =>
    have hidle : (if job.panics then Worker.died else .ready).job = none := by
      cases job.panics <;> rfl
    rw [hw, jobs_split] at hrun
    rw [jobs_split, hidle]
    simp only [Worker.job, Option.toList_some, List.singleton_append] at hrun
    simp only [Option.toList_none, List.nil_append, List.append_assoc, List.singleton_append]
    exact hrun.trans (List.Perm.append_left _ List.perm_middle)
  | notifyAll =>
    have hwake : Worker.job ∘ Worker.wake = Worker.job := by
      funext w
      cases w <;> rfl
    rw [List.filterMap_map, hwake]
    exact hrun

theorem awake_step (h : s.Sound) (ht : Turn s a s') (hsleep : .sleeping ∈ s'.workers) :
    s'.inner.pending ≤ s'.workers.count .ready + s'.notifies := by
  have hawake := h.awake
  cases ht with
  | submit job hopen =>
    have := hawake hsleep
    rw [Inner.pending_push]
    show s.inner.pending + 1 ≤ s.workers.count .ready + (s.notifies + 1)
    omega
  | notifyNone i hdue hnone => exact absurd hsleep hnone
  | notify l r hdue hw =>
    have := hawake (by simp [hw])
    simp only [hw, List.count_append, List.count_cons_self, ne_eq, reduceCtorEq,
      not_false_eq_true, List.count_cons_of_ne] at this ⊢
    omega
  | spurious l r hw =>
    have := hawake (by simp [hw])
    simp only [hw, List.count_append, List.count_cons_self, ne_eq, reduceCtorEq,
      not_false_eq_true, List.count_cons_of_ne] at this ⊢
    omega
  | take l r job inner hw hpop =>
    obtain ⟨-, -, -, -, hpending, -⟩ := Inner.pop_some hpop
    have := hawake (by simpa [hw] using hsleep)
    simp only [hw, List.count_append, List.count_cons_self, ne_eq, reduceCtorEq,
      not_false_eq_true, List.count_cons_of_ne] at this ⊢
    omega
  | exit l r hw hempty => exact hempty ▸ Nat.zero_le _
  | sleep l r hw hempty => exact hempty ▸ Nat.zero_le _
  | finish l r job hw =>
    have := hawake (by
      cases hp : job.panics <;> simp [hp] at hsleep <;> simp [hw, hsleep])
    refine this.trans (Nat.add_le_add_right ?_ _)
    cases job.panics <;> simp [hw, List.count_append]
  | drop => exact hawake hsleep
  | notifyAll =>
    obtain ⟨w, -, hw⟩ := List.mem_map.mp hsleep
    cases w <;> cases hw
  | join => exact hawake hsleep

theorem gone_step (h : s.Sound) (ht : Turn s a s') (hret : s'.closing = .returned) :
    ∀ w ∈ s'.workers, w.alive = false := by
  have hgone := h.gone
  cases ht with
  | submit job hopen => exact absurd (hopen.symm.trans hret) (by decide)
  | notifyNone => exact hgone hret
  | notify l r _ hw | spurious l r hw =>
    exact absurd (hgone hret .sleeping (by simp [hw])) (by decide)
  | take l r _ _ hw | exit l r hw | sleep l r hw =>
    exact absurd (hgone hret .ready (by simp [hw])) (by decide)
  | finish l r job hw =>
    exact absurd (hgone hret (.running job) (by simp [hw])) (by simp [Worker.alive])
  | drop => cases hret
  | notifyAll => cases hret
  | join h => exact h

theorem sound_step (h : s.Sound) (hs : s.step a = some s') : s'.Sound where
  bands := bands_step h (step_turn hs)
  running := running_step h (step_turn hs)
  awake := awake_step h (step_turn hs)
  gone := gone_step h (step_turn hs)

end Pool

end Conclave.Sched
