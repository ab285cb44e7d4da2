import Conclave.Net.Dns

/-! One lookup for a host at a time. A marker names the caller that has set it and not
removed it; whoever waits does so for a caller that has still to notify. A leader whose
entry would expire past the end of the clock panics with its guard disarmed, and leaves its
marker behind. -/

namespace Conclave.Net.Dns

open Lib

/-- A lookup that was stored in time for an answer. -/
def Answers (c : Config) (s : Resolver) (host : String) (port : ℕ) (addrs : List ResolvedAddr)
    (time : ℕ) : Prop :=
  ∃ l ∈ s.lookups, l.host = host ∧ (∃ ips, l.result = .ok ips ∧ addrs = stamp ips port) ∧
    l.stored ≤ time ∧ time ≤ l.stored + c.ttl l.result

/-- What holds in every state. -/
structure SingleFlight (c : Config) (s : Resolver) : Prop where
  one : ∀ i j host p q, s.callers i = .looking host p → s.callers j = .looking host q → i = j
  marked : ∀ host, (s.shared.inflight host).isSome = true ↔ ∃ i, (s.callers i).holds = some host
  answered : ∀ i host port addrs time, s.callers i = .returned host port (.ok addrs) time →
    Answers c s host port addrs time
  awaited : ∀ i host port leader, s.callers i = .waiting host port leader →
    (s.callers leader).leads = some host

/-- The invariant of a run. -/
structure Kept (c : Config) (s : Resolver) : Prop where
  marked : ∀ host i, s.shared.inflight host = some i ↔ (s.callers i).holds = some host
  cached : ∀ host e, s.shared.cache host = some e →
    ∃ l ∈ s.lookups, l.host = host ∧ l.result = e.result ∧ e.expires = l.stored + c.ttl l.result
  past : ∀ l ∈ s.lookups, l.stored ≤ s.now
  answered : ∀ i host port addrs time, s.callers i = .returned host port (.ok addrs) time →
    Answers c s host port addrs time
  awaited : ∀ i host port leader, s.callers i = .waiting host port leader →
    (s.callers leader).leads = some host

theorem leads_of_holds {caller : Caller} {host : String} (h : caller.holds = some host) :
    caller.leads = some host := by
  cases caller <;> simp_all [Caller.holds, Caller.leads]

theorem wake_ne_waiting (caller : Caller) (host : String) (port leader : ℕ) :
    caller.wake ≠ .waiting host port leader := by
  cases caller <;> simp [Caller.wake]

theorem wake_holds (caller : Caller) : caller.wake.holds = caller.holds := by
  cases caller <;> rfl

theorem wake_returned {caller : Caller} {host : String} {port time : ℕ}
    {r : Except String (List ResolvedAddr)} (h : caller.wake = .returned host port r time) :
    caller = .returned host port r time := by
  cases caller <;> simp_all [Caller.wake]

namespace Kept

variable {c : Config} {s : Resolver}

theorem singleFlight (h : Kept c s) : SingleFlight c s where
  one i j host p q hi hj := by
    have hmark := (h.marked host i).2 (by rw [hi]; rfl)
    have hmark' := (h.marked host j).2 (by rw [hj]; rfl)
    exact Option.some.inj (hmark.symm.trans hmark')
  marked host := by
    rw [Option.isSome_iff_exists]
    exact exists_congr fun i => h.marked host i
  answered := h.answered
  awaited := h.awaited

theorem new (now : ℕ) : Kept c (Resolver.new now) where
  marked host i := by simp [Resolver.new, Caller.holds]
  cached host e he := by cases he
  past l hl := absurd hl List.not_mem_nil
  answered i host port addrs time hi := by cases hi
  awaited i host port leader hi := by cases hi

/-- A caller that moves on and keeps its marker. -/
theorem set (h : Kept c s) {i : ℕ} {caller : Caller} (hholds : caller.holds = (s.callers i).holds)
    (hleads : (s.callers i).leads = (s.callers i).holds)
    (hwaits : ∀ host port leader, caller = .waiting host port leader →
      (s.callers leader).leads = some host)
    (hreturns : ∀ host port addrs time, caller = .returned host port (.ok addrs) time →
      Answers c s host port addrs time) : Kept c (s.set i caller) where
  marked host j := by
    refine (h.marked host j).trans ?_
    by_cases hj : j = i
    · subst hj
      simp [Resolver.set, hholds]
    · simp [Resolver.set, Function.update_of_ne hj]
  cached := h.cached
  past := h.past
  answered j host port addrs time hj := by
    by_cases hij : j = i
    · subst hij
      exact hreturns host port addrs time (by simpa [Resolver.set] using hj)
    · exact h.answered j host port addrs time (by simpa [Resolver.set, hij] using hj)
  awaited j host port leader hj := by
    have hold : (s.callers leader).leads = some host := by
      by_cases hij : j = i
      · subst hij
        exact hwaits host port leader (by simpa [Resolver.set] using hj)
      · exact h.awaited j host port leader (by simpa [Resolver.set, hij] using hj)
    by_cases hl : leader = i
    · subst hl
      simpa [Resolver.set] using leads_of_holds (hholds.trans (hleads.symm.trans hold))
    · simpa [Resolver.set, hl] using hold

theorem tick (h : Kept c s) (d : ℕ) : Kept c { s with now := s.now + d } where
  marked := h.marked
  cached := h.cached
  past l hl := (h.past l hl).trans (Nat.le_add_right _ _)
  answered := h.answered
  awaited := h.awaited

theorem enter_answered {host : String} {result : Answer} (h : Kept c s)
    (he : enter s.shared host s.now = .answered result) :
    ∃ l ∈ s.lookups, l.host = host ∧ l.result = result ∧ l.stored ≤ s.now ∧
      s.now ≤ l.stored + c.ttl l.result := by
  unfold enter at he
  split at he
  · rename_i e hfresh
    cases he
    obtain ⟨hcache, hnow⟩ := Option.filter_eq_some_iff.1 hfresh
    obtain ⟨l, hl, hhost, hresult, hexpires⟩ := h.cached host e hcache
    have hlt : s.now < e.expires := of_decide_eq_true hnow
    exact ⟨l, hl, hhost, hresult, h.past l hl, by omega⟩
  · split at he <;> cases he

theorem enter_waits {host : String} {leader : ℕ} (he : enter s.shared host s.now = .waits leader) :
    s.shared.inflight host = some leader := by
  unfold enter at he
  split at he
  · cases he
  · split at he
    · rename_i hm
      cases he
      exact hm
    · cases he

theorem enter_leads {host : String} (he : enter s.shared host s.now = .leads) :
    s.shared.inflight host = none := by
  unfold enter at he
  split at he
  · cases he
  · split at he
    · cases he
    · assumption

/-- The caller takes the marker, which nobody has. -/
theorem lead (h : Kept c s) {i : ℕ} {host : String} {port : ℕ}
    (hi : s.callers i = .ready host port) (hfree : s.shared.inflight host = none) :
    Kept c { s.set i (.looking host port) with shared := mark s.shared host i } where
  marked host' j := by
    by_cases hhost : host' = host
    · subst hhost
      simp only [mark, Function.update_self, Option.some.injEq]
      constructor
      · rintro rfl
        simp [Resolver.set, Caller.holds]
      · intro hj
        by_contra hne
        simp only [Resolver.set, Function.update_of_ne (Ne.symm hne)] at hj
        rw [(h.marked _ _).2 hj] at hfree
        cases hfree
    · simp only [mark, Function.update_of_ne hhost]
      refine (h.marked host' j).trans ?_
      by_cases hj : j = i
      · subst hj
        simp [Resolver.set, Caller.holds, hi, Ne.symm hhost]
      · simp [Resolver.set, Function.update_of_ne hj]
  cached := h.cached
  past := h.past
  answered j host' port' addrs time hj := by
    by_cases hij : j = i
    · subst hij
      simp [Resolver.set] at hj
    · exact h.answered j host' port' addrs time (by simpa [Resolver.set, hij] using hj)
  awaited j host' port' leader hj := by
    have hji : j ≠ i := by
      rintro rfl
      simp [Resolver.set] at hj
    have hold := h.awaited j host' port' leader (by simpa [Resolver.set, hji] using hj)
    have hli : leader ≠ i := by
      rintro rfl
      simp [hi, Caller.leads, Caller.holds] at hold
    simpa [Resolver.set, hli] using hold

/-- The caller that has the marker removes it. -/
theorem marked_unmark (h : Kept c s) {i : ℕ} {host : String} {callers : ℕ → Caller}
    (hi : (s.callers i).holds = some host) (hself : (callers i).holds = none)
    (hother : ∀ j ≠ i, (callers j).holds = (s.callers j).holds) (host' : String) (j : ℕ) :
    Function.update s.shared.inflight host none host' = some j ↔
      (callers j).holds = some host' := by
  have hmark := (h.marked host i).2 hi
  by_cases hj : j = i
  · subst hj
    rw [hself]
    by_cases hhost : host' = host
    · simp [hhost]
    · rw [Function.update_of_ne hhost, h.marked host' j, hi]
      simp [Ne.symm hhost]
  · rw [hother j hj]
    by_cases hhost : host' = host
    · subst hhost
      rw [Function.update_self, ← h.marked host' j, hmark]
      simp [Ne.symm hj]
    · rw [Function.update_of_ne hhost, h.marked host' j]

theorem answers_mono {l : Lookup} {host : String} {port time : ℕ} {addrs : List ResolvedAddr}
    {s' : Resolver} (hs : s'.lookups = l :: s.lookups)
    (h : Answers c s host port addrs time) : Answers c s' host port addrs time := by
  obtain ⟨l', hl', hrest⟩ := h
  exact ⟨l', hs ▸ List.mem_cons_of_mem l hl', hrest⟩

/-- The caller that has the marker stores its result, lets go of it, and wakes all. -/
theorem publish (h : Kept c s) {i : ℕ} {host : String} {port : ℕ} {result : Answer}
    {shared : Shared} (hi : s.callers i = .looked host port result)
    (hp : publish c s.shared host result s.now = some shared) :
    Kept c { (s.wakeAll).answer i host port result with
      shared := shared, lookups := ⟨host, result, s.now⟩ :: s.lookups } := by
  obtain ⟨expires, hadd, rfl⟩ := Option.map_eq_some_iff.1 hp
  obtain ⟨-, rfl⟩ : s.now + c.ttl result < c.instantEnd ∧ s.now + c.ttl result = expires := by
    simpa [Config.instantAdd] using hadd
  exact {
    marked := by
      refine h.marked_unmark (by rw [hi]; rfl) ?_ fun j hj => ?_
      · simp [Resolver.answer, Resolver.set, Caller.holds]
      · simp [Resolver.answer, Resolver.set, Function.update_of_ne hj, Resolver.wakeAll, wake_holds]
    cached := by
      intro host' e he
      by_cases hhost : host' = host
      · subst hhost
        simp only [unmark, Function.update_self, Option.some.injEq] at he
        subst he
        exact ⟨⟨host', result, s.now⟩, List.mem_cons_self, rfl, rfl, rfl⟩
      · simp only [unmark, Function.update_of_ne hhost] at he
        obtain ⟨l, hl, hrest⟩ := h.cached host' e he
        exact ⟨l, List.mem_cons_of_mem _ hl, hrest⟩
    past := by
      intro l hl
      obtain rfl | hl := List.mem_cons.1 hl
      · exact le_rfl
      · exact h.past l hl
    answered := by
      intro j host' port' addrs time hj
      by_cases hij : j = i
      · subst hij
        simp only [Resolver.answer, Resolver.set, Function.update_self, Caller.returned.injEq] at hj
        obtain ⟨rfl, rfl, hresult, rfl⟩ := hj
        cases result with
        | error e => cases hresult
        | ok ips =>
          cases hresult
          exact ⟨⟨host, .ok ips, s.now⟩, List.mem_cons_self, rfl, ⟨ips, rfl, rfl⟩, le_rfl,
            Nat.le_add_right _ _⟩
      · simp only [Resolver.answer, Resolver.set, Function.update_of_ne hij] at hj
        exact answers_mono rfl (h.answered j host' port' addrs time (wake_returned hj))
    awaited := by
      intro j host' port' leader hj
      by_cases hij : j = i
      · subst hij
        simp [Resolver.answer, Resolver.set] at hj
      · simp only [Resolver.answer, Resolver.set, Function.update_of_ne hij] at hj
        exact absurd hj (wake_ne_waiting _ _ _ _) }

theorem release (h : Kept c s) {i : ℕ} {host : String} (hi : s.callers i = .unwinding host) :
    Kept c { s.set i (.notifying host) with shared := unmark s.shared host } where
  marked := by
    refine h.marked_unmark (by rw [hi]; rfl) ?_ fun j hj => ?_
    · simp [Resolver.set, Caller.holds]
    · simp [Resolver.set, Function.update_of_ne hj]
  cached := h.cached
  past := h.past
  answered j host' port addrs time hj := by
    by_cases hij : j = i
    · subst hij
      simp [Resolver.set] at hj
    · exact h.answered j host' port addrs time (by simpa [Resolver.set, hij] using hj)
  awaited j host' port leader hj := by
    have hji : j ≠ i := by
      rintro rfl
      simp [Resolver.set] at hj
    have hold := h.awaited j host' port leader (by simpa [Resolver.set, hji] using hj)
    by_cases hli : leader = i
    · subst hli
      simpa [Resolver.set, Caller.leads, Caller.holds, hi] using hold
    · simpa [Resolver.set, hli] using hold

theorem notifyAll (h : Kept c s) {i : ℕ} {host : String} (hi : s.callers i = .notifying host) :
    Kept c (s.wakeAll.set i .died) where
  marked host' j := by
    refine (h.marked host' j).trans ?_
    by_cases hj : j = i
    · subst hj
      simp [Resolver.set, Caller.holds, hi]
    · simp [Resolver.set, Function.update_of_ne hj, Resolver.wakeAll, wake_holds]
  cached := h.cached
  past := h.past
  answered j host' port addrs time hj := by
    by_cases hij : j = i
    · subst hij
      simp [Resolver.set] at hj
    · simp only [Resolver.set, Function.update_of_ne hij] at hj
      exact h.answered j host' port addrs time (wake_returned hj)
  awaited j host' port leader hj := by
    by_cases hij : j = i
    · subst hij
      simp [Resolver.set] at hj
    · simp only [Resolver.set, Function.update_of_ne hij] at hj
      exact absurd hj (wake_ne_waiting _ _ _ _)

end Kept

/-! ### Runs -/

/-- A leader that is about to store its result finds an expiry on the clock. -/
def InRange (c : Config) (s : Resolver) : Act → Prop
  | .publish i => ∀ host port result, s.callers i = .looked host port result →
      s.now + c.ttl result < c.instantEnd
  | _ => True

theorem resting_holds {caller : Caller} (h : caller.resting = true) :
    caller.holds = none ∧ caller.leads = none := by
  cases caller <;> simp_all [Caller.resting, Caller.holds, Caller.leads]

theorem kept_step {c : Config} {s : Resolver} {act : Act} {s' : Resolver} (h : Kept c s)
    (hok : InRange c s act) (hs : s.step c act = some s') : Kept c s' := by
  cases act with
  | call i host port =>
    simp only [Resolver.step] at hs
    split_ifs at hs with hrest
    cases hs
    obtain ⟨hholds, hleads⟩ := resting_holds hrest
    exact h.set (hholds ▸ rfl) (hleads.trans hholds.symm) (by simp) (by simp)
  | acquire i =>
    simp only [Resolver.step] at hs
    split at hs
    · rename_i host port hi
      split at hs
      · rename_i result he
        cases hs
        refine h.set (by rw [hi]; rfl) (by rw [hi]; rfl) (by simp) ?_
        rintro host' port' addrs time heq
        obtain ⟨rfl, rfl, hresult, rfl⟩ := Caller.returned.inj heq
        obtain ⟨l, hl, hhost, rfl, hle, hlt⟩ := h.enter_answered he
        cases hr : l.result with
        | error e => simp [hr, Except.map] at hresult
        | ok ips =>
          rw [hr] at hresult
          cases hresult
          exact ⟨l, hl, hhost, ⟨ips, hr, rfl⟩, hle, hlt⟩
      · rename_i leader he
        cases hs
        refine h.set (by rw [hi]; rfl) (by rw [hi]; rfl) ?_ (by simp)
        rintro host' port' leader' heq
        obtain ⟨rfl, rfl, rfl⟩ := Caller.waiting.inj heq
        exact leads_of_holds ((h.marked _ _).1 (Kept.enter_waits he))
      · rename_i he
        cases hs
        exact h.lead hi (Kept.enter_leads he)
    · cases hs
  | timeout i =>
    simp only [Resolver.step] at hs
    split at hs
    · rename_i hi
      cases hs
      exact h.set (by rw [hi]; rfl) (by rw [hi]; rfl) (by simp) (by simp)
    · cases hs
  | lookupEnds i result =>
    simp only [Resolver.step] at hs
    split at hs
    · rename_i hi
      cases hs
      exact h.set (by rw [hi]; rfl) (by rw [hi]; rfl) (by simp) (by simp)
    · cases hs
  | lookupPanics i =>
    simp only [Resolver.step] at hs
    split at hs
    · rename_i hi
      cases hs
      exact h.set (by rw [hi]; rfl) (by rw [hi]; rfl) (by simp) (by simp)
    · cases hs
  | publish i =>
    simp only [Resolver.step] at hs
    split at hs
    · rename_i host port result hi
      split at hs
      · rename_i shared hp
        cases hs
        exact h.publish hi hp
      · rename_i hp
        have hlt := hok host port result hi
        simp [Dns.publish, Config.instantAdd, hlt] at hp
    · cases hs
  | release i =>
    simp only [Resolver.step] at hs
    split at hs
    · rename_i hi
      cases hs
      exact h.release hi
    · cases hs
  | notifyAll i =>
    simp only [Resolver.step] at hs
    split at hs
    · rename_i hi
      cases hs
      exact h.notifyAll hi
    · cases hs
  | tick d =>
    cases hs
    exact h.tick d

/-- Any number of calls, in any order of their critical sections: as long as no expiry falls
off the clock, there is one lookup for a host at a time, answers are those of fresh lookups,
markers are those of leaders, and who waits will be woken. -/
theorem single_flight (c : Config) (now : ℕ) {acts : List Act} {s : Resolver}
    (hok : RunsWith (Resolver.step c) (InRange c) (.new now) acts)
    (h : runs (Resolver.step c) (.new now) acts = some s) : SingleFlight c s :=
  (runsWith_keeps (fun _ _ _ => kept_step) (Kept.new now) hok h).singleFlight

/-- The defaults, on a clock of 64 bits of seconds. -/
def defaults : Config := ⟨60, 3, 2 ^ 64 * 10 ^ 9⟩

/-- The longest time that `CV_DNS_TTL_SECS` can ask for, on the same clock. -/
def longest : Config := ⟨2 ^ 64 - 1, 3, 2 ^ 64 * 10 ^ 9⟩

/-- One call leads a lookup, and another comes to wait for it before it ends. -/
def burst : List Act :=
  [.call 0 "burst.test" 443, .acquire 0, .call 1 "burst.test" 80, .acquire 1,
    .lookupEnds 0 (.ok [.v4 [7, 7, 7, 7]]), .publish 0]

theorem runsWith_cons {c : Config} {s s' : Resolver} {act : Act} {acts : List Act}
    (hok : InRange c s act) (h : s.step c act = some s')
    (hrest : RunsWith (Resolver.step c) (InRange c) s' acts) :
    RunsWith (Resolver.step c) (InRange c) s (act :: acts) :=
  ⟨hok, fun _ h' => Option.some.inj (h.symm.trans h') ▸ hrest⟩

theorem single_flight_sample :
    ∃ s, runs (Resolver.step defaults) (.new (10 ^ 9)) (burst ++ [.acquire 1]) = some s ∧
      s.callers 1 = .returned "burst.test" 80 (.ok [⟨.v4 [7, 7, 7, 7], 80⟩]) (10 ^ 9) ∧
      SingleFlight defaults s := by
  have hok : RunsWith (Resolver.step defaults) (InRange defaults) (.new (10 ^ 9))
      (burst ++ [.acquire 1]) := by
    refine runsWith_cons trivial rfl <| runsWith_cons trivial rfl <| runsWith_cons trivial rfl <|
      runsWith_cons trivial rfl <| runsWith_cons trivial rfl <| runsWith_cons ?_ rfl <|
      runsWith_cons trivial rfl trivial
    intro host port result hi
    cases hi
    decide
  exact ⟨_, rfl, rfl, single_flight defaults (10 ^ 9) hok rfl⟩

/-- The leader panics as it stores its result. Its marker stays with nobody to remove it, and
the other call waits for a caller that is gone. -/
theorem marker_left_behind :
    ∃ s, runs (Resolver.step longest) (.new (10 ^ 9)) burst = some s ∧
      (s.shared.inflight "burst.test").isSome = true ∧ s.callers 0 = .died ∧
      s.callers 1 = .waiting "burst.test" 80 0 ∧ ¬SingleFlight longest s := by
  refine ⟨_, rfl, rfl, rfl, rfl, fun h => ?_⟩
  have hleads := h.awaited 1 "burst.test" 80 0 rfl
  cases hleads

end Conclave.Net.Dns
