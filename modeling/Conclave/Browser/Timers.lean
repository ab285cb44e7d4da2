import Conclave.Browser.Scheduler

/-! Timers over whole runs: ids in the queue are distinct, a timeout or an animation frame is
in one place until it is cancelled, and a drain returns what is due, in order. -/

namespace Conclave.Browser

open Lib

variable {V : Type} {due : Task V → Bool} {rearm : Task V → Option (List (Task V))}
  {queue queue' out out' : List (Task V)} {t : Task V} {i : ℕ}

/-! ### The loop of a drain -/

theorem swapRemove_eq {α : Type} {l : List α} {a last : α} (h : (l ++ [last])[i]? = some a) :
    swapRemove (l ++ [last]) i = if i < l.length then l.set i last else l := by
  rw [swapRemove, List.getLast?_concat]
  simp only
  by_cases hi : i < l.length
  · rw [if_pos hi, List.set_append_left _ _ hi, List.dropLast_concat]
  · have hlen := (List.getElem?_eq_some_iff.mp h).1
    rw [List.length_append, List.length_singleton] at hlen
    rw [if_neg hi, List.set_append_right _ _ (Nat.not_lt.mp hi),
      show i - l.length = 0 by omega, List.set_cons_zero, List.dropLast_concat]

theorem swapRemove_perm {α : Type} {l : List α} {a : α} (h : l[i]? = some a) :
    l.Perm (a :: swapRemove l i) := by
  obtain rfl | ⟨l, last, rfl⟩ := l.eq_nil_or_concat'
  · cases h
  · rw [swapRemove_eq h]
    by_cases hi : i < l.length
    · have ha : l[i] = a := by
        rw [List.getElem?_append_left hi, List.getElem?_eq_getElem hi] at h
        exact Option.some.inj h
      rw [if_pos hi, List.set_eq_take_append_cons_drop, if_pos hi]
      calc l ++ [last]
        _ = l.take i ++ (a :: l.drop (i + 1)) ++ [last] := by
          rw [← ha, List.getElem_cons_drop, List.take_append_drop]
        _ = l.take i ++ a :: (l.drop (i + 1) ++ [last]) := by
          rw [List.append_assoc, List.cons_append]
        List.Perm _ (a :: (l.take i ++ (l.drop (i + 1) ++ [last]))) := List.perm_middle
        List.Perm _ (a :: (l.take i ++ last :: l.drop (i + 1))) :=
          (((List.perm_append_singleton last _).append_left _).cons _)
    · have ha : last = a := by
        rw [List.getElem?_append_right (Nat.not_lt.mp hi)] at h
        exact List.mem_singleton.mp (List.mem_of_getElem? h) |>.symm
      rw [if_neg hi, ha]
      exact List.perm_append_singleton a l

theorem take_swapRemove {α : Type} {l : List α} {a : α} (h : l[i]? = some a) :
    (swapRemove l i).take i = l.take i := by
  obtain rfl | ⟨l, last, rfl⟩ := l.eq_nil_or_concat'
  · cases h
  · have hlen := (List.getElem?_eq_some_iff.mp h).1
    rw [List.length_append, List.length_singleton] at hlen
    rw [swapRemove_eq h, List.take_append_of_le_length (by omega)]
    split
    · exact List.take_set_of_le le_rfl
    · rfl

/-- A task that is due is rearmed, if at all, to one that is not. -/
def Rearms (due : Task V → Bool) (rearm : Task V → Option (List (Task V)))
    (queue : List (Task V)) : Prop :=
  ∀ t ∈ queue, due t = true →
    ∃ again, rearm t = some again ∧ again.length ≤ 1 ∧ ∀ t' ∈ again, due t' = false

/-- What is rearmed of the tasks that are due. -/
def rearmed (due : Task V → Bool) (rearm : Task V → Option (List (Task V)))
    (queue : List (Task V)) : List (Task V) :=
  (queue.filter due).flatMap fun t => (rearm t).getD []

theorem rearmed_perm (h : queue.Perm queue') :
    (rearmed due rearm queue).Perm (rearmed due rearm queue') :=
  (h.filter due).flatMap_right _

theorem filter_eq_nil_of_ge (hi : queue.length ≤ i) (hbefore : ∀ t ∈ queue.take i, due t = false) :
    queue.filter due = [] := by
  rw [List.take_of_length_le hi] at hbefore
  exact List.filter_eq_nil_iff.mpr fun t ht => by simp [hbefore t ht]

theorem filter_not_eq_self (h : queue.filter due = []) :
    queue.filter (fun t => !due t) = queue :=
  List.filter_eq_self.mpr fun t ht => by simpa using List.filter_eq_nil_iff.mp h t ht

theorem rearmed_cons {again : List (Task V)} (hdue : due t = true) (h : rearm t = some again) :
    rearmed due rearm (t :: queue) = again ++ rearmed due rearm queue := by
  rw [rearmed, List.filter_cons_of_pos hdue, List.flatMap_cons, h]
  rfl

/-- What a turn at a due task leaves in the queue. -/
theorem Rearms.turn (h : Rearms due rearm queue) (hget : queue[i]? = some t)
    (hdue : due t = true) :
    ∃ again, rearm t = some again ∧ Rearms due rearm (swapRemove queue i ++ again) ∧
      (swapRemove queue i ++ again).length ≤ queue.length ∧
      (swapRemove queue i ++ again).take i = queue.take i ∧
      (queue.filter due).Perm (t :: (swapRemove queue i ++ again).filter due) ∧
      ((swapRemove queue i ++ again).filter (fun t => !due t) ++
        rearmed due rearm (swapRemove queue i ++ again)).Perm
        (queue.filter (fun t => !due t) ++ rearmed due rearm queue) := by
  obtain ⟨hi, hti⟩ := List.getElem?_eq_some_iff.mp hget
  have ht : t ∈ queue := hti ▸ List.getElem_mem hi
  obtain ⟨again, hagain, hlen, hnot⟩ := h t ht hdue
  have hperm := swapRemove_perm hget
  have hsize : queue.length = (swapRemove queue i).length + 1 := hperm.length_eq
  have hnil : again.filter due = [] :=
    List.filter_eq_nil_iff.mpr fun t' ht' => by simp [hnot t' ht']
  have hrest : (swapRemove queue i ++ again).filter due = (swapRemove queue i).filter due := by
    rw [List.filter_append, hnil, List.append_nil]
  refine ⟨again, hagain, fun t' ht' hdue' => ?_, ?_, ?_, ?_, ?_⟩
  · obtain ht' | ht' := List.mem_append.mp ht'
    · exact h t' (hperm.mem_iff.mpr (List.mem_cons_of_mem t ht')) hdue'
    · exact absurd hdue' (by simp [hnot t' ht'])
  · rw [List.length_append]
    omega
  · rw [List.take_append_of_le_length (by omega), take_swapRemove hget]
  · rw [hrest, ← List.filter_cons_of_pos hdue]
    exact hperm.filter due
  · have hkeep : (again.filter fun t => !due t) = again :=
      List.filter_eq_self.mpr fun t' ht' => by simp [hnot t' ht']
    have hkept : (queue.filter fun t => !due t).Perm
        ((swapRemove queue i).filter fun t => !due t) := by
      refine (hperm.filter _).trans ?_
      rw [List.filter_cons_of_neg (by simp [hdue])]
    rw [List.filter_append, hkeep, rearmed, hrest, List.append_assoc, ← rearmed,
      ← rearmed_cons hdue hagain]
    exact hkept.symm.append (rearmed_perm hperm.symm)

/-- Past the end nothing is due. -/
theorem drained_of_le (out : List (Task V)) (hi : queue.length ≤ i)
    (hbefore : ∀ t ∈ queue.take i, due t = false) :
    out.Perm (out ++ queue.filter due) ∧
      queue.Perm (queue.filter (fun t => !due t) ++ rearmed due rearm queue) := by
  have hnil := filter_eq_nil_of_ge hi hbefore
  rw [filter_not_eq_self hnil, rearmed, hnil, List.flatMap_nil, List.append_nil, List.append_nil]
  exact ⟨.refl _, .refl _⟩

/-- The loop takes out the tasks that are due and leaves the others with what is rearmed. -/
theorem drainLoop_spec {fuel : ℕ} (hrearm : Rearms due rearm queue)
    (hbefore : ∀ t ∈ queue.take i, due t = false)
    (hfuel : (queue.length - i) + (queue.filter due).length ≤ fuel) :
    ∃ queue' out', drainLoop due rearm fuel queue i out = some (queue', out') ∧
      out'.Perm (out ++ queue.filter due) ∧
      queue'.Perm (queue.filter (fun t => !due t) ++ rearmed due rearm queue) := by
  induction fuel generalizing queue i out with
  | zero =>
    have hi : queue.length ≤ i := by omega
    exact ⟨queue, out, by rw [drainLoop, if_neg (Nat.not_lt.mpr hi)], drained_of_le out hi hbefore⟩
  | succ fuel ih =>
    cases hget : queue[i]? with
    | none =>
      exact ⟨queue, out, by simp only [drainLoop, hget],
        drained_of_le out (List.getElem?_eq_none_iff.mp hget) hbefore⟩
    | some t =>
      have hi := (List.getElem?_eq_some_iff.mp hget).1
      by_cases hdue : due t = true
      · obtain ⟨again, hagain, hrearm', hlen, htake, hfilter, hleft⟩ := hrearm.turn hget hdue
        have hcount := hfilter.length_eq
        rw [List.length_cons] at hcount
        obtain ⟨queue', out', hloop, hout, hqueue⟩ :=
          @ih _ (out ++ [t]) i hrearm' (htake ▸ hbefore) (by omega)
        refine ⟨queue', out', ?_, ?_, hqueue.trans hleft⟩
        · simp only [drainLoop, hget, hdue, if_true, hagain]
          exact hloop
        · refine hout.trans ?_
          rw [List.append_assoc]
          exact hfilter.symm.append_left out
      · have hbefore' : ∀ t' ∈ queue.take (i + 1), due t' = false := by
          intro t' ht'
          rw [List.take_add_one, hget] at ht'
          obtain ht' | ht' := List.mem_append.mp ht'
          · exact hbefore t' ht'
          · rw [List.mem_singleton.mp ht']
            exact Bool.eq_false_iff.mpr hdue
        obtain ⟨queue', out', hloop, hout, hqueue⟩ := @ih queue out (i + 1) hrearm hbefore' (by omega)
        refine ⟨queue', out', ?_, hout, hqueue⟩
        simp only [drainLoop, hget, if_neg hdue]
        exact hloop

theorem Task.le_iff {a b : Task V} : a.le b = true ↔
    a.fireAtMs < b.fireAtMs ∨ a.fireAtMs = b.fireAtMs ∧ a.id.toNat ≤ b.id.toNat := by
  simp [Task.le]

/-- A batch is in order and holds what is due. -/
def Batch (due : Task V → Bool) (queue batch : List (Task V)) : Prop :=
  batch.Pairwise (fun a b => a.le b = true) ∧ batch.Perm (queue.filter due)

theorem Scheduler.drainWith_spec (s : Scheduler V) (h : Rearms due rearm s.queue) :
    ∃ batch queue', s.drainWith due rearm = some (batch, { s with queue := queue' }) ∧
      Batch due s.queue batch ∧
      queue'.Perm (s.queue.filter (fun t => !due t) ++ rearmed due rearm s.queue) := by
  have hdue := List.length_filter_le due s.queue
  obtain ⟨queue', out, hloop, hout, hqueue⟩ :=
    @drainLoop_spec V due rearm s.queue [] 0 (2 * s.queue.length) h nofun (by omega)
  refine ⟨out.mergeSort Task.le, queue', ?_, ⟨?_, ?_⟩, hqueue⟩
  · rw [drainWith, hloop]
    rfl
  · refine List.pairwise_mergeSort (fun a b c hab hbc => ?_) (fun a b => ?_) out
    · rw [Task.le_iff] at hab hbc ⊢
      omega
    · rw [Bool.or_eq_true, Task.le_iff, Task.le_iff]
      omega
  · exact (List.mergeSort_perm out Task.le).trans hout

/-! ### What runs keep -/

def ids (ts : List (Task V)) : List TaskId := ts.map Task.id

namespace Host

/-- How often an id is in the queue, out, or run. -/
def tally (h : Host V) (id : TaskId) : ℕ :=
  (ids h.sched.queue).count id + (ids h.out).count id + (ids h.ran).count id

/-- The rearmed deadlines of the intervals that are due fit. -/
def Fits (h : Host V) (cutoffMs rafCutoffMs : ℕ) : Prop :=
  ∀ t ∈ h.sched.queue, t.dueSplit cutoffMs rafCutoffMs = true →
    ∀ p, t.repeatMs = some p → cutoffMs + p < 2 ^ 64

/-- When an act does no harm: ids have not come round, deadlines fit, and what is handed
back is no interval and was not cancelled. -/
def Sound (h : Host V) : TimerAct V → Prop
  | .timeout now _ delayMs _ => h.issued.length < 2 ^ 32 ∧ now + delayMs < 2 ^ 64
  | .interval now _ periodMs _ => h.issued.length < 2 ^ 32 ∧ now + max periodMs 1 < 2 ^ 64
  | .raf now _ => h.issued.length < 2 ^ 32 ∧ now + 1 < 2 ^ 64
  | .drainSplit cutoffMs rafCutoffMs => h.Fits cutoffMs rafCutoffMs
  | .run => h.out ≠ []
  | .requeue => ∃ t rest, h.out = t :: rest ∧ t.kind ≠ .interval ∧ t.id ∉ h.cancelled
  | _ => True

/-- What the scheduler promises in a state. -/
structure Kept (h : Host V) : Prop where
  distinct : (ids h.sched.queue).Nodup
  once : ∀ id kind, (id, kind) ∈ h.issued → kind ≠ .interval →
    h.tally id ≤ 1 ∧ (id ∉ h.cancelled → h.tally id = 1)
  silent : ∀ id ∈ h.cancelled, id ∉ ids h.sched.queue
  split : ∀ cutoffMs rafCutoffMs, h.Fits cutoffMs rafCutoffMs → ∃ batch sched,
    h.sched.drainDueSplit cutoffMs rafCutoffMs = some (batch, sched) ∧
      Batch (Task.dueSplit cutoffMs rafCutoffMs) h.sched.queue batch
  timeouts : ∀ cutoffMs, ∃ batch sched, h.sched.drainDueTimeouts cutoffMs = some (batch, sched) ∧
    Batch (Task.dueTimeout cutoffMs) h.sched.queue batch

/-- What a task that is known to the host is like. -/
structure Known (h : Host V) (t : Task V) : Prop where
  issued : (t.id, t.kind) ∈ h.issued
  period : ∀ p, t.repeatMs = some p → t.kind = .interval ∧ 1 ≤ p

/-- What every sound act keeps. -/
structure Inv (h : Host V) : Prop where
  known : ∀ t, t ∈ h.sched.queue ∨ t ∈ h.out ∨ t ∈ h.ran → h.Known t
  next : h.sched.nextId = BitVec.ofNat 32 (h.issued.length + 1)
  ids : h.issued.map Prod.fst = (List.range h.issued.length).map fun n => BitVec.ofNat 32 (n + 1)
  distinct : (Browser.ids h.sched.queue).Nodup
  once : ∀ id kind, (id, kind) ∈ h.issued → kind ≠ .interval →
    h.tally id ≤ 1 ∧ (id ∉ h.cancelled → h.tally id = 1)
  silent : ∀ id ∈ h.cancelled, id ∈ h.issued.map Prod.fst ∧ id ∉ Browser.ids h.sched.queue
  room : h.issued.length ≤ 2 ^ 32

variable {h h' : Host V} {id : TaskId} {kind kind' : TaskKind}

theorem Inv.nodup (hi : h.Inv) : (h.issued.map Prod.fst).Nodup := by
  rw [hi.ids]
  refine List.Nodup.map_on (fun a ha b hb hab => ?_) List.nodup_range
  have ha := List.mem_range.mp ha
  have hb := List.mem_range.mp hb
  have hroom := hi.room
  have heq := congrArg BitVec.toNat hab
  simp only [BitVec.toNat_ofNat] at heq
  omega

/-- An id is given out for one kind of task. -/
theorem Inv.kind_unique (hi : h.Inv) (hk : (id, kind) ∈ h.issued) (hk' : (id, kind') ∈ h.issued) :
    kind = kind' :=
  congrArg Prod.snd (List.inj_on_of_nodup_map hi.nodup hk hk' rfl)

theorem Inv.next_fresh (hi : h.Inv) (hlt : h.issued.length < 2 ^ 32) :
    h.sched.nextId ∉ h.issued.map Prod.fst := by
  rw [hi.ids, hi.next]
  intro hm
  obtain ⟨n, hn, heq⟩ := List.mem_map.mp hm
  have hn := List.mem_range.mp hn
  have heq := congrArg BitVec.toNat heq
  simp only [BitVec.toNat_ofNat] at heq
  omega

theorem Inv.mem_issued (hi : h.Inv)
    (hm : id ∈ Browser.ids h.sched.queue ∨ id ∈ Browser.ids h.out ∨ id ∈ Browser.ids h.ran) :
    id ∈ h.issued.map Prod.fst := by
  have hof : ∀ {ts : List (Task V)}, (∀ t ∈ ts, h.Known t) → id ∈ Browser.ids ts →
      id ∈ h.issued.map Prod.fst := fun hts hm => by
    obtain ⟨t, ht, rfl⟩ := List.mem_map.mp hm
    exact List.mem_map.mpr ⟨_, (hts t ht).issued, rfl⟩
  obtain hm | hm | hm := hm
  · exact hof (fun t ht => hi.known t (.inl ht)) hm
  · exact hof (fun t ht => hi.known t (.inr (.inl ht))) hm
  · exact hof (fun t ht => hi.known t (.inr (.inr ht))) hm

theorem Known.mono {t : Task V} (ht : h.Known t) (hsub : ∀ x ∈ h.issued, x ∈ h'.issued) :
    h'.Known t := ⟨hsub _ ht.issued, ht.period⟩

/-! ### Scheduling -/

/-- The host with a new task, under the next id. -/
def entered (h : Host V) (t : Task V) (kind : TaskKind) : Host V :=
  { h with
    sched := { nextId := h.sched.nextId + 1, queue := h.sched.queue ++ [t] }
    issued := h.issued ++ [(h.sched.nextId, kind)] }

theorem Inv.tally_fresh (hi : h.Inv) (hfresh : id ∉ h.issued.map Prod.fst) : h.tally id = 0 := by
  have hnot := fun hm => hfresh (hi.mem_issued hm)
  have hq := List.count_eq_zero_of_not_mem fun hm => hnot (.inl hm)
  have ho := List.count_eq_zero_of_not_mem fun hm => hnot (.inr (.inl hm))
  have hr := List.count_eq_zero_of_not_mem fun hm => hnot (.inr (.inr hm))
  rw [tally, hq, ho, hr]

theorem tally_entered {t : Task V} (hid : t.id = h.sched.nextId) :
    (h.entered t kind).tally id = h.tally id + if h.sched.nextId = id then 1 else 0 := by
  simp only [tally, entered, Browser.ids, List.map_append, List.map_singleton, List.count_append,
    hid, List.count_singleton, beq_iff_eq]
  omega

theorem Inv.entered (hi : h.Inv) (hlt : h.issued.length < 2 ^ 32) {t : Task V}
    (hid : t.id = h.sched.nextId) (hkind : t.kind = kind)
    (hperiod : ∀ p, t.repeatMs = some p → t.kind = .interval ∧ 1 ≤ p) :
    (h.entered t kind).Inv := by
  have hfresh := hi.next_fresh hlt
  have hlen : (h.entered t kind).issued.length = h.issued.length + 1 := List.length_append
  refine ⟨fun t' ht' => ?_, ?_, ?_, ?_, fun id kind' hm hne => ?_, fun id hc => ?_, ?_⟩
  · have hold : t' ∈ h.sched.queue ∨ t' ∈ h.out ∨ t' ∈ h.ran → (h.entered t kind).Known t' :=
      fun hm => (hi.known t' hm).mono fun x hx => List.mem_append_left _ hx
    obtain ht' | ht' | ht' := ht'
    · obtain ht' | ht' := List.mem_append.mp ht'
      · exact hold (.inl ht')
      · obtain rfl := List.mem_singleton.mp ht'
        exact ⟨List.mem_append_right _ (by rw [hid, hkind]; exact List.mem_singleton_self _), hperiod⟩
    · exact hold (.inr (.inl ht'))
    · exact hold (.inr (.inr ht'))
  · change h.sched.nextId + 1 = _
    rw [hlen, hi.next, BitVec.ofNat_add (h.issued.length + 1) 1]
    rfl
  · rw [hlen, List.range_succ, List.map_append, ← hi.ids, List.map_singleton, ← hi.next]
    exact List.map_append
  · change (List.map Task.id (h.sched.queue ++ [t])).Nodup
    rw [List.map_append]
    refine List.nodup_append.mpr ⟨hi.distinct, List.nodup_singleton _, fun a ha b hb => ?_⟩
    rintro rfl
    rw [List.map_singleton, List.mem_singleton, hid] at hb
    exact hfresh (hb ▸ hi.mem_issued (.inl ha))
  · rw [tally_entered hid]
    obtain hm | hm := List.mem_append.mp hm
    · have hne' : h.sched.nextId ≠ id := fun heq =>
        hfresh (heq ▸ List.mem_map.mpr ⟨(id, kind'), hm, rfl⟩)
      rw [if_neg hne']
      exact hi.once id kind' hm hne
    · obtain ⟨rfl, -⟩ := Prod.mk.inj (List.mem_singleton.mp hm)
      rw [if_pos rfl, hi.tally_fresh hfresh]
      exact ⟨le_rfl, fun _ => rfl⟩
  · obtain ⟨hissued, hout⟩ := hi.silent id hc
    have hmem : id ∈ (h.entered t kind).issued.map Prod.fst := by
      rw [Host.entered, List.map_append]
      exact List.mem_append_left _ hissued
    refine ⟨hmem, fun hm => ?_⟩
    obtain ⟨t', ht', rfl⟩ := List.mem_map.mp hm
    obtain ht' | ht' := List.mem_append.mp ht'
    · exact hout (List.mem_map.mpr ⟨t', ht', rfl⟩)
    · rw [List.mem_singleton.mp ht', hid] at hissued
      exact hfresh hissued
  · rw [hlen]
    exact hlt

theorem step_schedule {now after : ℕ} {repeatMs : Option ℕ} {callable : V} {extraArgs : List V}
    (hfits : now + after < 2 ^ 64) :
    h.scheduled kind (h.sched.schedule now after repeatMs callable kind extraArgs) =
      some (h.entered ⟨h.sched.nextId, now + after, repeatMs, callable, kind, extraArgs⟩ kind) := by
  simp only [scheduled, Scheduler.schedule, addMs, if_pos hfits]
  rfl

/-! ### Draining -/

/-- What is due goes out once, and only an interval comes back, under its id. -/
def Returns (due : Task V → Bool) (rearm : Task V → Option (List (Task V)))
    (queue : List (Task V)) : Prop :=
  ∀ t ∈ queue, due t = true → ∃ again, rearm t = some again ∧ (again = [] ∨
    ∃ t', again = [t'] ∧ due t' = false ∧ t'.id = t.id ∧ t.kind = .interval ∧
      t'.kind = .interval ∧ t'.repeatMs = t.repeatMs)

theorem Returns.rearms (hr : Returns due rearm queue) : Rearms due rearm queue := by
  intro t ht hdue
  obtain ⟨again, hagain, rfl | ⟨t', rfl, hdue', -⟩⟩ := hr t ht hdue
  · exact ⟨[], hagain, Nat.zero_le _, nofun⟩
  · exact ⟨[t'], hagain, le_rfl, fun x hx => List.mem_singleton.mp hx ▸ hdue'⟩

theorem Returns.mem_rearmed (hr : Returns due rearm queue) {t : Task V}
    (ht : t ∈ rearmed due rearm queue) : ∃ o ∈ queue, due o = true ∧ t.id = o.id ∧
      o.kind = .interval ∧ t.kind = .interval ∧ t.repeatMs = o.repeatMs := by
  obtain ⟨o, ho, ht⟩ := List.mem_flatMap.mp ht
  obtain ⟨ho, hdue⟩ := List.mem_filter.mp ho
  obtain ⟨again, hagain, rfl | ⟨t', rfl, -, hid, hk, hk', hrep⟩⟩ := hr o ho hdue
  · rw [hagain] at ht
    cases ht
  · rw [hagain] at ht
    obtain rfl := List.mem_singleton.mp ht
    exact ⟨o, ho, hdue, hid, hk, hk', hrep⟩

theorem Returns.ids_sublist (hr : Returns due rearm queue) :
    (Browser.ids (rearmed due rearm queue)).Sublist (Browser.ids (queue.filter due)) := by
  have hall : ∀ ts : List (Task V), (∀ t ∈ ts, t ∈ queue ∧ due t = true) →
      (Browser.ids (ts.flatMap fun t => (rearm t).getD [])).Sublist (Browser.ids ts) := by
    intro ts hts
    induction ts with
    | nil => exact .slnil
    | cons t ts ih =>
      have ih := ih fun x hx => hts x (List.mem_cons_of_mem t hx)
      obtain ⟨ht, hdue⟩ := hts t List.mem_cons_self
      obtain ⟨again, hagain, rfl | ⟨t', rfl, -, hid, -⟩⟩ := hr t ht hdue
      · rw [List.flatMap_cons, hagain]
        exact ih.cons _
      · rw [List.flatMap_cons, hagain]
        change (t'.id :: _).Sublist (t.id :: _)
        rw [hid]
        exact ih.cons_cons _
  exact hall _ fun t ht => List.mem_filter.mp ht

theorem count_filter (due : Task V → Bool) (queue : List (Task V)) (id : TaskId) :
    (Browser.ids (queue.filter due)).count id +
      (Browser.ids (queue.filter fun t => !due t)).count id = (Browser.ids queue).count id := by
  have hperm := (List.filter_append_perm due queue).map Task.id
  rw [List.map_append] at hperm
  rw [← List.count_append]
  exact hperm.count_eq id

/-- The host after a drain. -/
def handed (h : Host V) (queue batch : List (Task V)) : Host V :=
  { h with sched := { h.sched with queue := queue }, out := batch ++ h.out }

section

variable {batch : List (Task V)}

theorem count_handed (hqueue : queue'.Perm (queue.filter (fun t => !due t) ++
      rearmed due rearm queue)) (id : TaskId) :
    (Browser.ids queue').count id = (Browser.ids (queue.filter fun t => !due t)).count id +
      (Browser.ids (rearmed due rearm queue)).count id := by
  have hperm := hqueue.map Task.id
  rw [List.map_append] at hperm
  rw [← List.count_append]
  exact hperm.count_eq id

theorem Returns.count_le (hr : Returns due rearm queue)
    (hqueue : queue'.Perm (queue.filter (fun t => !due t) ++ rearmed due rearm queue))
    (id : TaskId) : (Browser.ids queue').count id ≤ (Browser.ids queue).count id := by
  have hle := hr.ids_sublist.count_le id
  have hsum := count_filter due queue id
  rw [count_handed hqueue]
  omega

theorem Inv.handed (hi : h.Inv) (hr : Returns due rearm h.sched.queue)
    (hbatch : batch.Perm (h.sched.queue.filter due))
    (hqueue : queue'.Perm (h.sched.queue.filter (fun t => !due t) ++
      rearmed due rearm h.sched.queue)) : (h.handed queue' batch).Inv := by
  have hle := hr.count_le hqueue
  refine ⟨fun t ht => ?_, hi.next, hi.ids, ?_, fun id kind hm hne => ?_, fun id hc => ?_, hi.room⟩
  · have hkeep : h.Known t → (h.handed queue' batch).Known t := fun hk => hk.mono fun _ hx => hx
    obtain ht | ht | ht := ht
    · obtain ht | ht := List.mem_append.mp (hqueue.mem_iff.mp ht)
      · exact hkeep (hi.known t (.inl (List.mem_filter.mp ht).1))
      · obtain ⟨o, ho, -, hid, hk, hk', hrep⟩ := hr.mem_rearmed ht
        have hknown := hi.known o (.inl ho)
        refine ⟨?_, fun p hp => ⟨hk', (hknown.period p (hrep ▸ hp)).2⟩⟩
        rw [hid, hk', ← hk]
        exact hknown.issued
    · obtain ht | ht := List.mem_append.mp ht
      · exact hkeep (hi.known t (.inl (List.mem_filter.mp (hbatch.mem_iff.mp ht)).1))
      · exact hkeep (hi.known t (.inr (.inl ht)))
    · exact hkeep (hi.known t (.inr (.inr ht)))
  · refine List.nodup_iff_count_le_one.mpr fun id => (hle id).trans ?_
    exact List.nodup_iff_count_le_one.mp hi.distinct id
  · have hzero : (Browser.ids (rearmed due rearm h.sched.queue)).count id = 0 := by
      refine List.count_eq_zero_of_not_mem fun hid => hne ?_
      obtain ⟨t, ht, rfl⟩ := List.mem_map.mp hid
      obtain ⟨o, ho, -, hid, hk, -⟩ := hr.mem_rearmed ht
      have hissued := (hi.known o (.inl ho)).issued
      rw [← hid, hk] at hissued
      exact hi.kind_unique hm hissued
    have htally : (h.handed queue' batch).tally id = h.tally id := by
      have hsum := count_filter due h.sched.queue id
      have hout : (Browser.ids batch).count id =
          (Browser.ids (h.sched.queue.filter due)).count id := (hbatch.map Task.id).count_eq id
      simp only [tally, Host.handed]
      rw [count_handed hqueue, hzero, ← hsum, ← hout, Browser.ids, Browser.ids, Browser.ids,
        List.map_append, List.count_append]
      simp only [Browser.ids]
      omega
    rw [htally]
    exact hi.once id kind hm hne
  · obtain ⟨hissued, hout⟩ := hi.silent id hc
    refine ⟨hissued, List.count_eq_zero.mp (Nat.le_zero.mp ((hle id).trans ?_))⟩
    exact (List.count_eq_zero_of_not_mem hout).le

end

/-- Intervals that are due come back later, when their deadlines fit. -/
theorem Inv.returns_split (hi : h.Inv) {cutoffMs rafCutoffMs : ℕ}
    (hfits : h.Fits cutoffMs rafCutoffMs) :
    Returns (Task.dueSplit cutoffMs rafCutoffMs) (Task.rearm cutoffMs) h.sched.queue := by
  intro t ht hdue
  rw [Task.rearm]
  cases hp : t.repeatMs with
  | none => exact ⟨[], rfl, .inl rfl⟩
  | some p =>
    obtain ⟨hk, hone⟩ := (hi.known t (.inl ht)).period p hp
    have hadd : addMs cutoffMs p = some (cutoffMs + p) := if_pos (hfits t ht hdue p hp)
    refine ⟨[{ t with fireAtMs := cutoffMs + p, repeatMs := some p, kind := .interval }],
      by simp only [hadd]; rfl, .inr ⟨_, rfl, ?_, rfl, hk, rfl, rfl⟩⟩
    refine decide_eq_false ?_
    rw [if_neg nofun]
    change ¬ cutoffMs + p ≤ cutoffMs
    omega

theorem returns_timeouts (cutoffMs : ℕ) :
    Returns (Task.dueTimeout cutoffMs) (fun _ => some []) h.sched.queue :=
  fun _ _ _ => ⟨[], rfl, .inl rfl⟩

theorem Inv.run (hi : h.Inv) {t : Task V} {rest : List (Task V)} (ho : h.out = t :: rest) :
    Inv { h with out := rest, ran := h.ran ++ [t] } := by
  refine ⟨fun t' ht' => ?_, hi.next, hi.ids, hi.distinct, fun id kind hm hne => ?_, hi.silent,
    hi.room⟩
  · refine (hi.known t' ?_).mono fun _ hx => hx
    rw [ho]
    obtain ht' | ht' | ht' := ht'
    · exact .inl ht'
    · exact .inr (.inl (List.mem_cons_of_mem t ht'))
    · obtain ht' | ht' := List.mem_append.mp ht'
      · exact .inr (.inr ht')
      · exact .inr (.inl (List.mem_singleton.mp ht' ▸ List.mem_cons_self))
  · have htally : tally { h with out := rest, ran := h.ran ++ [t] } id = h.tally id := by
      simp only [tally, ho, Browser.ids, List.map_append, List.count_append, List.map_cons,
        List.count_cons, List.map_nil, List.count_nil]
      omega
    rw [htally]
    exact hi.once id kind hm hne

theorem Inv.requeue (hi : h.Inv) {t : Task V} {rest : List (Task V)} (ho : h.out = t :: rest)
    (hk : t.kind ≠ .interval) (hc : t.id ∉ h.cancelled) :
    Inv { h with out := rest, sched := h.sched.requeue t } := by
  have hknown := hi.known t (.inr (.inl (ho ▸ List.mem_cons_self)))
  have hnot : t.id ∉ Browser.ids h.sched.queue := by
    intro hm
    have hle := (hi.once t.id t.kind hknown.issued hk).1
    have hpos := List.count_pos_iff.mpr hm
    have hout : 0 < (Browser.ids h.out).count t.id := by
      rw [ho]
      exact List.count_pos_iff.mpr List.mem_cons_self
    simp only [tally] at hle
    omega
  refine ⟨fun t' ht' => ?_, hi.next, hi.ids, ?_, fun id kind hm hne => ?_, fun id hid => ?_, hi.room⟩
  · refine (hi.known t' ?_).mono fun _ hx => hx
    rw [ho]
    obtain ht' | ht' | ht' := ht'
    · obtain ht' | ht' := List.mem_append.mp ht'
      · exact .inl ht'
      · exact .inr (.inl (List.mem_singleton.mp ht' ▸ List.mem_cons_self))
    · exact .inr (.inl (List.mem_cons_of_mem t ht'))
    · exact .inr (.inr ht')
  · change (List.map Task.id (h.sched.queue ++ [t])).Nodup
    rw [List.map_append]
    refine List.nodup_append.mpr ⟨hi.distinct, List.nodup_singleton _, fun a ha b hb => ?_⟩
    rintro rfl
    exact hnot (List.mem_singleton.mp hb ▸ ha)
  · have htally : tally { h with out := rest, sched := h.sched.requeue t } id = h.tally id := by
      simp only [tally, ho, Scheduler.requeue, Scheduler.push, Browser.ids, List.map_append,
        List.count_append, List.map_cons, List.count_cons, List.map_nil, List.count_nil]
      omega
    rw [htally]
    exact hi.once id kind hm hne
  · obtain ⟨hissued, hout⟩ := hi.silent id hid
    refine ⟨hissued, fun hm => ?_⟩
    obtain ⟨t', ht', rfl⟩ := List.mem_map.mp hm
    obtain ht' | ht' := List.mem_append.mp ht'
    · exact hout (List.mem_map.mpr ⟨t', ht', rfl⟩)
    · exact hc (List.mem_singleton.mp ht' ▸ hid)

theorem ids_cancel (s : Scheduler V) (id : TaskId) :
    Browser.ids (s.cancel id).queue = (Browser.ids s.queue).filter fun x => x ≠ id := by
  rw [Browser.ids, Browser.ids, List.filter_map]
  rfl

theorem Inv.cancel (hi : h.Inv) (id : TaskId) : Inv { h with
    sched := h.sched.cancel id
    cancelled := if id ∈ h.issued.map Prod.fst then id :: h.cancelled else h.cancelled } := by
  refine ⟨fun t' ht' => ?_, hi.next, hi.ids, ?_, fun id' kind hm hne => ?_, fun id' hid' => ?_,
    hi.room⟩
  · refine (hi.known t' (ht'.imp_left fun hm => ?_)).mono fun _ hx => hx
    exact (List.mem_filter.mp hm).1
  · rw [ids_cancel]
    exact hi.distinct.filter _
  · obtain ⟨hle, hone⟩ := hi.once id' kind hm hne
    have hmem : id' ∈ h.issued.map Prod.fst := List.mem_map.mpr ⟨_, hm, rfl⟩
    simp only [tally] at hle hone ⊢
    rw [ids_cancel]
    by_cases heq : id' = id
    · have hcount : ((Browser.ids h.sched.queue).filter fun x => x ≠ id).count id' ≤
          (Browser.ids h.sched.queue).count id' := List.filter_sublist.count_le id'
      refine ⟨by omega, fun hnot => ?_⟩
      rw [← heq, if_pos hmem] at hnot
      exact absurd List.mem_cons_self hnot
    · rw [List.count_filter (by simpa using heq)]
      exact ⟨hle, fun hnot => hone fun hc => hnot (by split <;> simp [hc])⟩
  · rw [ids_cancel]
    have hold : id' ∈ h.cancelled → id' ∈ h.issued.map Prod.fst ∧
        id' ∉ (Browser.ids h.sched.queue).filter fun x => x ≠ id := fun hc =>
      ⟨(hi.silent id' hc).1, fun hm => (hi.silent id' hc).2 (List.mem_filter.mp hm).1⟩
    split at hid'
    · obtain rfl | hc := List.mem_cons.mp hid'
      · exact ⟨‹_›, fun hm => by simpa using (List.mem_filter.mp hm).2⟩
      · exact hold hc
    · exact hold hid'

/-! ### Runs -/

/-- A sound act comes back and keeps all that. -/
theorem Inv.step (hi : h.Inv) {a : TimerAct V} (ha : h.Sound a) :
    ∃ h', h.step a = some h' ∧ h'.Inv := by
  cases a with
  | timeout now callable delayMs extraArgs =>
    exact ⟨_, step_schedule ha.2, hi.entered ha.1 rfl rfl nofun⟩
  | interval now callable periodMs extraArgs =>
    exact ⟨_, step_schedule ha.2, hi.entered ha.1 rfl rfl fun p hp =>
      ⟨rfl, Option.some.inj hp ▸ le_max_right _ _⟩⟩
  | raf now callable => exact ⟨_, step_schedule ha.2, hi.entered ha.1 rfl rfl nofun⟩
  | cancel id => exact ⟨_, rfl, hi.cancel id⟩
  | drainSplit cutoffMs rafCutoffMs =>
    have hr := hi.returns_split ha
    obtain ⟨batch, queue', hdrain, hbatch, hqueue⟩ := h.sched.drainWith_spec hr.rearms
    refine ⟨h.handed queue' batch, ?_, hi.handed hr hbatch.2 hqueue⟩
    rw [Host.step, Scheduler.drainDueSplit, hdrain]
    rfl
  | drainTimeouts cutoffMs =>
    have hr := returns_timeouts (h := h) cutoffMs
    obtain ⟨batch, queue', hdrain, hbatch, hqueue⟩ := h.sched.drainWith_spec hr.rearms
    refine ⟨h.handed queue' batch, ?_, hi.handed hr hbatch.2 hqueue⟩
    rw [Host.step, Scheduler.drainDueTimeouts, hdrain]
    rfl
  | run =>
    obtain ⟨t, rest, ho⟩ := List.exists_cons_of_ne_nil ha
    exact ⟨_, by rw [Host.step, ho], hi.run ho⟩
  | requeue =>
    obtain ⟨t, rest, ho, hk, hc⟩ := ha
    exact ⟨_, by rw [Host.step, ho], hi.requeue ho hk hc⟩

theorem Inv.kept (hi : h.Inv) : h.Kept where
  distinct := hi.distinct
  once := hi.once
  silent id hc := (hi.silent id hc).2
  split cutoffMs rafCutoffMs hfits := by
    obtain ⟨batch, queue', hdrain, hbatch, -⟩ :=
      h.sched.drainWith_spec (hi.returns_split hfits).rearms
    exact ⟨batch, _, hdrain, hbatch⟩
  timeouts cutoffMs := by
    obtain ⟨batch, queue', hdrain, hbatch, -⟩ :=
      h.sched.drainWith_spec (returns_timeouts (h := h) cutoffMs).rearms
    exact ⟨batch, _, hdrain, hbatch⟩

theorem inv_new : (new : Host V).Inv where
  known t ht := by
    obtain ht | ht | ht := ht <;> cases ht
  next := rfl
  ids := rfl
  distinct := List.nodup_nil
  once id kind hm := nomatch hm
  silent id hc := nomatch hc
  room := Nat.zero_le _

end Host

theorem Host.Inv.runs {h : Host V} (hi : h.Inv) {acts : List (TimerAct V)}
    (hacts : RunsWith Host.step Host.Sound h acts) :
    ∃ h', Lib.runs Host.step h acts = some h' ∧ h'.Inv := by
  induction acts generalizing h with
  | nil => exact ⟨h, rfl, hi⟩
  | cons a acts ih =>
    obtain ⟨h₁, hstep, hi₁⟩ := hi.step hacts.1
    obtain ⟨h', hruns, hi'⟩ := ih hi₁ (hacts.2 h₁ hstep)
    exact ⟨h', by rw [Lib.runs, hstep, Option.bind_some, hruns], hi'⟩

/-- In a run whose acts are all sound, no deadline overflows, and the scheduler keeps what it
promises in every state. -/
theorem timers (acts : List (TimerAct V)) (hacts : RunsWith Host.step Host.Sound Host.new acts) :
    ∃ h, runs Host.step Host.new acts = some h ∧ h.Kept := by
  obtain ⟨h, hruns, hi⟩ := Host.inv_new.runs hacts
  exact ⟨h, hruns, hi.kept⟩

def bothDue : List (Task Unit) := [⟨1, 5, none, (), .timeout, []⟩, ⟨2, 5, some 5, (), .interval, []⟩]

/-- A timeout and an interval come due together; the interval is cancelled while
it waits to run. -/
theorem timers_sample :
    ∃ h, runs Host.step Host.new
      [.timeout 0 () 5 [], .interval 0 () 5 [], .drainSplit 5 5, .run, .cancel 2] = some h ∧
        h.Kept := by
  have hsort : bothDue.mergeSort Task.le = bothDue := List.mergeSort_of_pairwise (by decide)
  refine timers _ ⟨⟨by decide, by decide⟩, fun h₁ h₁eq => ⟨?_, fun h₂ h₂eq => ⟨fun t ht _ p hp => ?_,
    fun h₃ h₃eq => ⟨?_, fun _ _ => ⟨trivial, fun _ _ => trivial⟩⟩⟩⟩⟩
  all_goals obtain rfl := Option.some.inj h₁eq
  · exact ⟨by decide, by decide⟩
  all_goals obtain rfl := Option.some.inj h₂eq
  · have hmem : t ∈ bothDue := ht
    simp only [bothDue, List.mem_cons, List.not_mem_nil, or_false] at hmem
    rcases hmem with rfl | rfl
    · cases hp
    · obtain rfl := Option.some.inj hp
      decide
  · obtain rfl := Option.some.inj h₃eq
    change bothDue.mergeSort Task.le ++ [] ≠ []
    rw [hsort]
    exact List.cons_ne_nil _ _

/-- An interval of a millisecond. -/
def tick (id : TaskId) (fireAtMs : ℕ) : Task Unit := ⟨id, fireAtMs, some 1, (), .interval, []⟩

/-- An interval that is handed back is in the queue twice. -/
theorem timers_fails :
    ¬ ∀ (acts : List (TimerAct Unit)) (h : Host Unit), runs Host.step Host.new acts = some h →
      h.Kept := by
  intro hall
  let issued : List (TaskId × TaskKind) := [(1, .interval), (2, .interval)]
  have hsort : [tick 1 1, tick 2 1].mergeSort Task.le = [tick 1 1, tick 2 1] :=
    List.mergeSort_of_pairwise (by decide)
  have hdrain : Host.step ⟨⟨3, [tick 1 1, tick 2 1]⟩, [], issued, [], []⟩ (.drainSplit 1 1) =
      some ⟨⟨3, [tick 1 2, tick 2 2]⟩, [tick 1 1, tick 2 1], issued, [], []⟩ := by
    change some (⟨⟨3, [tick 1 2, tick 2 2]⟩, [tick 1 1, tick 2 1].mergeSort Task.le ++ [], issued,
      [], []⟩ : Host Unit) = _
    rw [hsort]
    rfl
  have hruns : runs Host.step Host.new
      [.interval 0 () 1 [], .interval 0 () 1 [], .drainSplit 1 1, .run, .requeue] =
        some ⟨⟨3, [tick 1 2, tick 2 2, tick 2 1]⟩, [], issued, [tick 1 1], []⟩ := by
    change (Host.step ⟨⟨3, [tick 1 1, tick 2 1]⟩, [], issued, [], []⟩ (.drainSplit 1 1)).bind
      (fun h => runs Host.step h [.run, .requeue]) = _
    rw [hdrain]
    rfl
  exact absurd (hall _ _ hruns).distinct (by decide)

end Conclave.Browser
