import Conclave.Sched.Jobs

/-! A dropped pool has run every job exactly when no panic took the last worker from a
queued job; and no worker sleeps for ever beside a queued job, panics or not. -/

namespace Conclave.Sched.Pool

open Lib

variable {s s' : Pool} {a : Act}

/-- A job is submitted to a worker that is left, and the last worker to unwind leaves an
empty queue. -/
def Clear (s : Pool) : Act → Prop
  | .submit _ => ∃ w ∈ s.workers, w.alive = true
  | .finish i => ∀ job, s.workers[i]? = some (.running job) → job.panics = true →
      s.inner.pending = 0 ∨ ∃ w ∈ s.workers.eraseIdx i, w.alive = true
  | _ => True

/-- Every submitted job was started and has returned or panicked, each as often as it was
submitted. -/
def Done (s : Pool) : Prop := s.started.Perm s.submitted ∧ s.ended.Perm s.submitted

/-! ### The queue and the last worker -/

def Manned (s : Pool) : Prop := s.inner.pending = 0 ∨ ∃ w ∈ s.workers, w.alive = true

theorem manned_new (threads : ℕ) : (new threads).Manned := .inl rfl

theorem finish_at (l r : List Worker) (w : Worker) : (l ++ w :: r)[l.length]? = some w := by
  simp

theorem eraseIdx_at (l r : List Worker) (w : Worker) :
    (l ++ w :: r).eraseIdx l.length = l ++ r := by
  rw [List.eraseIdx_append_of_length_le le_rfl, Nat.sub_self, List.eraseIdx_cons_zero]

theorem manned_step (hs : s.Manned) (hclear : Clear s a) (ht : Turn s a s') : s'.Manned := by
  cases ht with
  | submit job hopen => exact .inr hclear
  | notifyNone => exact hs
  | notify l r _ hw | spurious l r hw => exact .inr ⟨.ready, by simp, rfl⟩
  | take l r job => exact .inr ⟨.running job, by simp, rfl⟩
  | exit l r hw hempty => exact .inl hempty
  | sleep l r hw hempty => exact .inl hempty
  | finish l r job hw =>
    cases hp : job.panics with
    | false => exact .inr ⟨.ready, by simp, rfl⟩
    | true =>
      rcases hclear job (hw ▸ finish_at l r _) hp with hempty | ⟨w, hmem, halive⟩
      · exact .inl hempty
      · rw [hw, eraseIdx_at] at hmem
        refine .inr ⟨w, ?_, halive⟩
        rcases List.mem_append.mp hmem with h | h
        · exact List.mem_append_left _ h
        · exact List.mem_append_right _ (List.mem_cons_of_mem _ h)
  | drop => exact hs
  | notifyAll =>
    refine hs.imp_right ?_
    rintro ⟨w, hmem, halive⟩
    exact ⟨w.wake, List.mem_map_of_mem hmem, by cases w <;> first | rfl | exact halive⟩
  | join => exact hs

/-- Without a worker nothing happens to the queue any more but further submits. -/
theorem unmanned_step (hs : ¬ s.Manned) (ht : Turn s a s') : ¬ s'.Manned := by
  obtain ⟨hpending, hgone⟩ := not_or.mp hs
  have hdead : ∀ w ∈ s.workers, w.alive = false := by simpa using hgone
  have hnone : ∀ (l r : List Worker) (w : Worker), s.workers = l ++ w :: r → w.alive = false :=
    fun l r w hw => hdead w (by simp [hw])
  cases ht with
  | submit job hopen =>
    refine not_or.mpr ⟨?_, hgone⟩
    rw [Inner.pending_push]
    exact Nat.succ_ne_zero _
  | notifyNone => exact hs
  | notify l r _ hw | spurious l r hw => exact absurd (hnone l r _ hw) (by decide)
  | take l r _ _ hw | exit l r hw | sleep l r hw => exact absurd (hnone l r _ hw) (by decide)
  | finish l r job hw => exact absurd (hnone l r _ hw) (by simp [Worker.alive])
  | drop => exact hs
  | notifyAll =>
    refine not_or.mpr ⟨hpending, ?_⟩
    rintro ⟨w, hmem, halive⟩
    obtain ⟨w₀, hmem₀, rfl⟩ := List.mem_map.mp hmem
    have hw₀ := hdead w₀ hmem₀
    cases w₀ <;> simp [Worker.alive, Worker.wake] at hw₀ halive
  | join => exact hs

theorem unmanned_of_not_clear (hclear : ¬ Clear s a) (ht : Turn s a s') : ¬ s'.Manned := by
  cases ht with
  | submit job hopen =>
    refine not_or.mpr ⟨?_, hclear⟩
    rw [Inner.pending_push]
    exact Nat.succ_ne_zero _
  | finish l r job hw =>
    obtain ⟨job', hjob', hpanics, hleft⟩ : ∃ job', s.workers[l.length]? = some (.running job') ∧
        job'.panics = true ∧ ¬ (s.inner.pending = 0 ∨
          ∃ w ∈ s.workers.eraseIdx l.length, w.alive = true) := by
      simpa only [Clear, not_forall, exists_prop] using hclear
    obtain rfl : job = job' := by
      rw [hw, finish_at] at hjob'
      exact Worker.running.inj (Option.some.inj hjob')
    rw [hw, eraseIdx_at] at hleft
    obtain ⟨hpending, hgone⟩ := not_or.mp hleft
    refine not_or.mpr ⟨hpending, ?_⟩
    rintro ⟨w, hmem, halive⟩
    rw [hpanics] at hmem
    rcases List.mem_append.mp hmem with h | h
    · exact hgone ⟨w, List.mem_append_left _ h, halive⟩
    · rcases List.mem_cons.mp h with rfl | h
      · cases halive
      · exact hgone ⟨w, List.mem_append_right _ h, halive⟩
  | _ => exact absurd trivial hclear

/-! ### What a drop returns with -/

theorem perm_of_bands {xs ys : List Job}
    (h : ∀ p, xs.filter (·.priority = p) = ys.filter (·.priority = p)) : xs.Perm ys := by
  rw [List.perm_iff_count]
  intro job
  have hcount := congrArg (List.count job) (h job.priority)
  rwa [List.count_filter (by simp), List.count_filter (by simp)] at hcount

/-- With all workers gone, the jobs are done when the queue is empty. -/
theorem Sound.done_iff (h : s.Sound) (hgone : ∀ w ∈ s.workers, w.alive = false) :
    s.Done ↔ s.inner.pending = 0 := by
  have hidle : s.workers.filterMap Worker.job = [] := by
    rw [List.filterMap_eq_nil_iff]
    intro w hw
    have hdead := hgone w hw
    cases w <;> first | rfl | cases hdead
  have hended : s.started.Perm s.ended := by
    have hrun := h.running
    rwa [hidle, List.append_nil] at hrun
  rw [Inner.pending_eq_zero]
  constructor
  · intro hdone p
    have hlen := (hdone.1.filter (·.priority = p)).length_eq
    rw [h.bands p, List.length_append] at hlen
    exact List.length_eq_zero_iff.mp (by omega)
  · intro hempty
    have hstarted : s.started.Perm s.submitted := (perm_of_bands fun p => by
      rw [h.bands p, hempty p, List.append_nil]).symm
    exact ⟨hstarted, hended.symm.trans hstarted⟩

theorem sound_runs {threads : ℕ} {acts : List Act} (h : runs step (new threads) acts = some s) :
    s.Sound :=
  runs_keeps (fun _ _ _ hs => sound_step hs) (sound_new threads) h

theorem manned_iff {threads : ℕ} {acts : List Act} (h : runs step (new threads) acts = some s) :
    s.Manned ↔ RunsWith step Clear (new threads) acts := by
  constructor
  · intro hs
    exact runsWith_of_not (P := fun _ => True) (Q := fun s => ¬ s.Manned)
      (fun _ _ _ _ _ => trivial) (fun _ _ _ hq hstep => unmanned_step hq (step_turn hstep))
      (fun _ _ _ _ hbad hstep => unmanned_of_not_clear hbad (step_turn hstep)) trivial h
      (not_not.mpr hs)
  · intro hok
    exact runsWith_keeps (fun _ _ _ hp hc hstep => manned_step hp hc (step_turn hstep))
      (manned_new threads) hok h

/-- A worker takes the oldest job of the highest band that has one. -/
theorem take_head {i : ℕ} {job : Job} (h : s.Sound) (hstep : s.step (.acquire i) = some s')
    (hjob : s'.workers[i]? = some (.running job)) :
    (s.inner.band job.priority).head? = some job ∧
      ∀ p ∈ Inner.above job.priority, s.inner.band p = [] := by
  cases step_turn hstep with
  | take l r job' inner hw hpop =>
    obtain rfl : job' = job := by
      rw [finish_at] at hjob
      exact Worker.running.inj (Option.some.inj hjob)
    obtain ⟨p, hp, -, habove, -⟩ := Inner.pop_some hpop
    have hprio : job'.priority = p := h.priority (hp ▸ List.mem_cons_self)
    rw [hprio, hp]
    exact ⟨rfl, habove⟩
  | exit l r hw => simp at hjob
  | sleep l r hw => simp at hjob

/-! ### No sleeper is forgotten -/

/-- The scheduler comes back to a notification that is due and to a worker that is about
to take the lock. -/
structure Fair {threads : ℕ} (e : Execution step (new threads)) : Prop where
  notifies : ∀ n, (e.state n).notifies ≠ 0 → ∃ m ≥ n, ∃ i, e.act m = some (.notifyOne i)
  acquires : ∀ n i, (e.state n).workers[i]? = some .ready →
    ∃ m ≥ n, e.act m = some (.acquire i)

def sleepers (s : Pool) : ℕ := s.workers.count .sleeping

theorem sleepers_step (hpending : s.inner.pending ≠ 0) (ht : Turn s a s') :
    s'.sleepers ≤ s.sleepers := by
  cases ht with
  | submit | notifyNone | drop | join => exact le_rfl
  | notify l r _ hw | spurious l r hw => simp [sleepers, hw]
  | take l r _ _ hw => simp [sleepers, hw]
  | exit l r hw => simp [sleepers, hw]
  | sleep l r hw hempty => exact absurd hempty hpending
  | finish l r job hw => cases hp : job.panics <;> simp [sleepers, hw]
  | notifyAll =>
    have hwake : Worker.sleeping ∉ s.workers.map Worker.wake := by
      intro hmem
      obtain ⟨w, -, hw⟩ := List.mem_map.mp hmem
      cases w <;> cases hw
    exact (List.count_eq_zero.mpr hwake).trans_le (Nat.zero_le _)

theorem sleepers_notifyOne {i : ℕ} (hsleep : .sleeping ∈ s.workers)
    (ht : Turn s (.notifyOne i) s') : s'.sleepers < s.sleepers := by
  cases ht with
  | notifyNone _ _ hnone => exact absurd hsleep hnone
  | notify l r _ hw => simp [sleepers, hw]

theorem pending_step (hsubmit : ∀ job, a ≠ .submit job) (ht : Turn s a s') :
    s'.inner.pending ≤ s.inner.pending := by
  cases ht with
  | submit job => exact absurd rfl (hsubmit job)
  | take _ _ _ _ _ hpop =>
    obtain ⟨-, -, -, -, hpending, -⟩ := Inner.pop_some hpop
    exact hpending ▸ Nat.le_succ _
  | _ => exact le_rfl

theorem pending_acquire {i : ℕ} (hpending : s.inner.pending ≠ 0)
    (ht : Turn s (.acquire i) s') : s'.inner.pending < s.inner.pending := by
  cases ht with
  | take _ _ _ _ _ hpop =>
    obtain ⟨-, -, -, -, hone, -⟩ := Inner.pop_some hpop
    exact hone ▸ Nat.lt_succ_self _
  | exit _ _ _ hempty => exact absurd hempty hpending
  | sleep _ _ _ hempty => exact absurd hempty hpending

theorem notifies_submit {job : Job} (ht : Turn s (.submit job) s') : s'.notifies ≠ 0 := by
  cases ht
  exact Nat.succ_ne_zero _

/-- A sleeper beside a queue that never empties would have to see the sleepers, then the
queue shrink for ever: every notification due wakes one of them, and with none due there
is a worker for each queued job. -/
theorem no_sleep_forever {threads : ℕ} {e : Execution step (new threads)} (hfair : Fair e)
    (i n : ℕ) : ¬ ∀ m ≥ n, (e.state m).workers[i]? = some .sleeping ∧
      (e.state m).inner.pending ≠ 0 := by
  intro hforever
  have hsleep : ∀ m ≥ n, .sleeping ∈ (e.state m).workers :=
    fun m hm => List.mem_of_getElem? (hforever m hm).1
  have hturn : ∀ m a, e.act m = some a → Turn (e.state m) a (e.state (m + 1)) :=
    fun m a ha => step_turn (e.next_some ha)
  obtain ⟨k, hk, hsleepers⟩ := settles (fun m => (e.state m).sleepers) (n := n) fun m hm => by
    cases ha : e.act m with
    | none => exact le_of_eq (congrArg sleepers (e.next_none ha))
    | some a => exact sleepers_step (hforever m hm).2 (hturn m a ha)
  have hquiet : ∀ m ≥ k, ∀ j, e.act m ≠ some (.notifyOne j) := fun m hm j ha => by
    have hlt := sleepers_notifyOne (hsleep m (hk.trans hm)) (hturn m _ ha)
    exact absurd ((hsleepers (m + 1) (Nat.le_succ_of_le hm)).trans (hsleepers m hm).symm)
      (Nat.ne_of_lt hlt)
  have hnone : ∀ m ≥ k, (e.state m).notifies = 0 := by
    intro m hm
    by_contra hdue
    obtain ⟨m', hm', j, ha⟩ := hfair.notifies m hdue
    exact hquiet m' (hm.trans hm') j ha
  obtain ⟨q, hq, hpending⟩ := settles (fun m => (e.state m).inner.pending) (n := k) fun m hm => by
    cases ha : e.act m with
    | none => exact le_of_eq (congrArg (·.inner.pending) (e.next_none ha))
    | some a =>
      refine pending_step (fun job heq => ?_) (hturn m a ha)
      exact notifies_submit (heq ▸ hturn m a ha) (hnone (m + 1) (Nat.le_succ_of_le hm))
  have hsound := e.keeps (fun _ _ _ hs => sound_step hs) (sound_new threads) q
  have hready := hsound.awake (hsleep q (hk.trans hq))
  rw [hnone q hq, Nat.add_zero] at hready
  have hpos : 0 < (e.state q).workers.count .ready :=
    (Nat.pos_of_ne_zero (hforever q (hk.trans hq)).2).trans_le hready
  obtain ⟨j, hj⟩ := List.getElem?_of_mem (List.count_pos_iff.mp hpos)
  obtain ⟨m, hm, ha⟩ := hfair.acquires q j hj
  have hlt := pending_acquire (hforever m (hk.trans (hq.trans hm))).2 (hturn m _ ha)
  exact absurd ((hpending (m + 1) (Nat.le_succ_of_le hm)).trans (hpending m hm).symm)
    (Nat.ne_of_lt hlt)

/-! ### The pool -/

/-- In every reachable state of every pool, each band was submitted as it was started and
is still queued, and the next job taken is the oldest of the highest band. A drop returns
with all jobs done exactly when every step of the run was clear. In every fair infinite
run, no worker sleeps for ever beside a queued job. -/
theorem loses_no_job (threads : ℕ) :
    (∀ acts s, runs step (new threads) acts = some s →
      (∀ p, s.submitted.filter (·.priority = p) =
        s.started.filter (·.priority = p) ++ s.inner.band p) ∧
      (∀ i s' job, s.step (.acquire i) = some s' → s'.workers[i]? = some (.running job) →
        (s.inner.band job.priority).head? = some job ∧
          ∀ p ∈ Inner.above job.priority, s.inner.band p = []) ∧
      (s.closing = .returned → (s.Done ↔ RunsWith step Clear (new threads) acts))) ∧
    ∀ e : Execution step (new threads), Fair e → ∀ i n : ℕ, ¬ ∀ m ≥ n,
      (e.state m).workers[i]? = some .sleeping ∧ (e.state m).inner.pending ≠ 0 := by
  refine ⟨fun acts s hrun => ?_, fun e hfair => no_sleep_forever hfair⟩
  have hsound := sound_runs hrun
  refine ⟨hsound.bands, fun i s' job => take_head hsound, fun hret => ?_⟩
  have hgone := hsound.gone hret
  rw [hsound.done_iff hgone, ← manned_iff hrun]
  refine ⟨.inl, fun h => h.resolve_right ?_⟩
  rintro ⟨w, hmem, halive⟩
  exact absurd halive (by simp [hgone w hmem])

def panicky : Job := ⟨0, .normal, true⟩

def background : Job := ⟨1, .low, false⟩

/-- A worker that goes to sleep and is not needed again. -/
def idle : Execution step (new 1) where
  state n := if n = 0 then new 1 else { new 1 with workers := [.sleeping] }
  act n := if n = 0 then some (.acquire 0) else none
  start := rfl
  next n := by cases n <;> rfl

theorem idle_fair : Fair idle where
  notifies n h := by
    cases n <;> exact absurd rfl h
  acquires n i h := by
    cases n with
    | zero =>
      have hi : i = 0 := by
        have := (List.getElem?_eq_some_iff.mp h).1
        exact Nat.lt_one_iff.mp this
      exact ⟨0, le_rfl, by rw [hi]; rfl⟩
    | succ n =>
      have hlt := (List.getElem?_eq_some_iff.mp h).1
      obtain rfl : i = 0 := Nat.lt_one_iff.mp hlt
      cases h

theorem loses_no_job_sample :
    RunsWith step Clear (new 1) [.submit background, .notifyOne 0, .acquire 0, .finish 0,
      .acquire 0, .submit panicky, .notifyOne 0, .acquire 0, .finish 0, .drop, .notifyAll,
      .join] ∧
    ¬ ∀ m ≥ 0, (idle.state m).workers[0]? = some .sleeping ∧
      (idle.state m).inner.pending ≠ 0 :=
  ⟨(((loses_no_job 1).1 _ _ rfl).2.2 rfl).mp ⟨by decide, by decide⟩,
    (loses_no_job 1).2 idle idle_fair 0 0⟩

/-- One worker unwinds and the job behind it is never started. -/
theorem loses_job : ¬ ∀ (threads : ℕ) (acts : List Act) (s : Pool),
    runs step (new threads) acts = some s → s.closing = .returned → s.Done := by
  intro h
  have hrun := h 1 [.submit panicky, .submit background, .notifyOne 0, .notifyOne 0, .acquire 0,
    .finish 0, .drop, .notifyAll, .join] _ rfl rfl
  exact absurd hrun.1.length_eq (by decide)

end Conclave.Sched.Pool
