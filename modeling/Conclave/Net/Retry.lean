import Conclave.Net.Send

/-! How often a request is written. In a round every attempt but the last was followed up
by its layer; where no attempt that put bytes on the wire, and was not refused, is followed
up, that attempt is the last of the call. -/

namespace Conclave.Net.Send

open Lib Text

/-- A byte of the request went out, and no signal says that it was not processed. -/
def Try.Doubtful (x : Try) : Prop := x.wrote = true ∧ x.unprocessed = false

instance (x : Try) : Decidable x.Doubtful := inferInstanceAs (Decidable (_ ∧ _))

/-- No attempt writes the request after one that may have had it processed. -/
def AtMostOnce (tries : List Try) : Prop :=
  tries.Pairwise fun x y => x.Doubtful → y.wrote = false

instance (tries : List Try) : Decidable (AtMostOnce tries) :=
  inferInstanceAs (Decidable (List.Pairwise _ _))

/-- The errors after which a round goes on. -/
def Layer.retries : Layer → NetError → Bool
  | .pooledStream, e | .pooledStreamAgain, e => isH2StreamLevelError e || isRetriableConnError e
  | .pooledConn, e | .firstDial, e => isRetriableConnError e
  | .freshStream, _ | .handedOver, _ | .secondDial, _ => false

/-- The errors after which the call goes on. -/
def Try.followedUp (x : Try) (e : NetError) : Bool :=
  x.layer.retries e || x.acceptBrotli && isBrotliDecodeError e

/-- An attempt that may have had the request processed ends in a response, or in an error that
is not followed up. -/
def Try.Settled (x : Try) : Prop :=
  x.Doubtful → ∀ e, x.result = .error e → x.followedUp e = false

/-! ### Rounds -/

/-- At most the last attempt may have had the request processed, and if so its result is what
came of it. -/
def Closing (s : Sent) : Prop :=
  (∀ x ∈ s.tries, ¬x.Doubtful) ∨
    ∃ pre x, s.tries = pre ++ [x] ∧ (∀ y ∈ pre, ¬y.Doubtful) ∧ s.result = x.result

def Secure (s : Sent) : Prop := (∀ x ∈ s.tries, x.Settled) → Closing s

theorem Closing.atMostOnce {s : Sent} (h : Closing s) : AtMostOnce s.tries := by
  obtain h | ⟨pre, x, htries, hpre, -⟩ := h
  · exact List.pairwise_of_forall_mem_list fun x hx _ _ hd => absurd hd (h x hx)
  · rw [AtMostOnce, htries, List.pairwise_append]
    refine ⟨List.pairwise_of_forall_mem_list fun y hy _ _ hd => absurd hd (hpre y hy),
      List.pairwise_singleton _ _, fun y hy _ _ hd => absurd hd (hpre y hy)⟩

theorem closing_of (x : Try) : Closing (Sent.of x) := .inr ⟨[], x, rfl, by simp, rfl⟩

theorem Closing.after {tries : List Try} {s : Sent} (h : Closing s)
    (ht : ∀ x ∈ tries, ¬x.Doubtful) : Closing (s.after tries) := by
  obtain h | ⟨pre, x, htries, hpre, hresult⟩ := h
  · exact .inl fun x hx => (List.mem_append.1 hx).elim (ht x) (h x)
  · refine .inr ⟨tries ++ pre, x, by simp [Sent.after, htries], ?_, hresult⟩
    exact fun y hy => (List.mem_append.1 hy).elim (ht y) (hpre y)

/-- Where what is followed up is a case of what its attempts may not end in, going on is
safe. -/
theorem Secure.orElse {s : Sent} {again : NetError → Bool} {next : NetError → Sent}
    (hs : Secure s) (hagain : ∀ x ∈ s.tries, ∀ e, again e = true → x.followedUp e = true)
    (hnext : ∀ e, Secure (next e)) : Secure (s.orElse again next) := by
  intro hsettled
  unfold Sent.orElse at hsettled ⊢
  cases hr : s.result with
  | ok _ => simpa only [hr] using hs (by simpa only [hr] using hsettled)
  | error e =>
    simp only [hr] at hsettled ⊢
    by_cases ha : again e = true
    · simp only [ha, if_true, Sent.after, List.mem_append] at hsettled ⊢
      refine (hnext e fun x hx => hsettled x (.inr hx)).after fun x hx hd => ?_
      obtain h | ⟨pre, y, htries, hpre, hresult⟩ := hs fun x hx => hsettled x (.inl hx)
      · exact h x hx hd
      · rw [htries, List.mem_append, List.mem_singleton] at hx
        obtain hx | rfl := hx
        · exact hpre x hx hd
        · have hx : x ∈ s.tries := by simp [htries]
          have := hsettled x (.inl hx) hd e (hresult.symm.trans hr)
          simp [hagain x hx e ha] at this
    · rw [if_neg ha] at hsettled ⊢
      exact hs hsettled

/-! ### Attempts -/

section

variable (layer : Layer) (req : Request)

@[simp] theorem unsent_layer (target : Origin) (e : NetError) :
    (unsent layer req target e).layer = layer := rfl

@[simp] theorem transact_layer (conn : Conn) (t : Transaction) :
    (transact layer conn req t).layer = layer := by
  unfold transact
  split_ifs <;> rfl

@[simp] theorem h2DriveLocked_layer (conn : Conn) (d : Drive) :
    (h2DriveLocked layer conn req d).1.layer = layer := by
  unfold h2DriveLocked
  split_ifs <;> rfl

@[simp] theorem dialAndTransact_layer (origin : Origin) (d : DialOutcome × Transaction) :
    (dialAndTransact layer req origin d).layer = layer := by
  unfold dialAndTransact
  split <;> simp

end

theorem Try.Settled.not_doubtful {x : Try} (h : x.Settled) {e : NetError}
    (he : x.result = .error e) (hl : x.layer.retries e = true) : ¬x.Doubtful := by
  intro hd
  have := h hd e he
  simp [Try.followedUp, hl] at this

/-! ### A round -/

/-- With nothing to follow, going on changes nothing. -/
theorem orElse_nothing (x : Try) (again : NetError → Bool) :
    (Sent.of x).orElse again (fun e => ⟨[], .error e⟩) = Sent.of x := by
  unfold Sent.orElse Sent.of Sent.after
  cases hr : x.result with
  | ok _ => rfl
  | error e => simp

theorem secure_of (x : Try) : Secure (Sent.of x) := fun _ => closing_of x

theorem secure_dialLoop (req : Request) (origin : Origin) (d₁ d₂ : DialOutcome × Transaction) :
    Secure (dialLoop req origin [(.firstDial, d₁), (.secondDial, d₂)] none) := by
  simp only [dialLoop, Option.getD_some, orElse_nothing]
  refine (secure_of _).orElse ?_ fun _ => secure_of _
  intro x hx e he
  obtain rfl := List.mem_singleton.1 hx
  simp [Try.followedUp, Layer.retries, he]

theorem secure_sendOverPool (req : Request) (t : Trip) (origin : Origin) :
    Secure (sendOverPool req t origin) := by
  unfold sendOverPool
  cases ((t.pool.evictStale t.now).checkout t.reuseSafe origin).1 with
  | none => exact secure_dialLoop _ _ _ _
  | some conn =>
    refine (secure_of _).orElse ?_ fun _ => secure_dialLoop _ _ _ _
    intro x hx e he
    obtain rfl := List.mem_singleton.1 hx
    simp [Try.followedUp, Layer.retries, he]

/-- What the shared connections leave: an answer with which the call may end, or no attempt
that may have had the request processed. -/
def SecureVia (via : List Try × H2PoolOutcome) : Prop :=
  (∀ x ∈ via.1, x.Settled) →
    match via.2 with
    | .response r => Closing ⟨via.1, r⟩
    | .notH2 _ | .fallthrough => ∀ x ∈ via.1, ¬x.Doubtful

theorem SecureVia.after {via : List Try × H2PoolOutcome} (h : SecureVia via) {tries : List Try}
    (ht : (∀ x ∈ tries, x.Settled) → ∀ x ∈ tries, ¬x.Doubtful) :
    SecureVia (tries ++ via.1, via.2) := by
  intro hsettled
  have hleft := ht fun x hx => hsettled x (List.mem_append_left _ hx)
  have hright := h fun x hx => hsettled x (List.mem_append_right _ hx)
  obtain ⟨tries', outcome⟩ := via
  cases outcome with
  | response r => exact Closing.after hright hleft
  | notH2 conn => exact fun x hx => (List.mem_append.1 hx).elim (hleft x) (hright x)
  | fallthrough => exact fun x hx => (List.mem_append.1 hx).elim (hleft x) (hright x)

theorem secureVia_response {tries : List Try} {r : Except NetError Response}
    (h : Secure ⟨tries, r⟩) : SecureVia (tries, .response r) := h

theorem secureVia_h2SendFresh (req : Request) (t : Trip) (origin : Origin) :
    SecureVia (h2SendFresh req t origin) := by
  unfold h2SendFresh
  split
  · intro _ x hx
    exact absurd hx List.not_mem_nil
  · split_ifs
    · intro _ x hx
      exact absurd hx List.not_mem_nil
    · split
      · exact secureVia_response (secure_of _)
      · exact secureVia_response (secure_of _)

/-- Streams on a shared connection that end in errors which are followed up. -/
theorem not_doubtful_of_retried {tries : List Try}
    (h : ∀ x ∈ tries, ∃ e, x.result = .error e ∧ x.layer.retries e = true)
    (hsettled : ∀ x ∈ tries, x.Settled) : ∀ x ∈ tries, ¬x.Doubtful := by
  intro x hx
  obtain ⟨e, he, hl⟩ := h x hx
  exact (hsettled x hx).not_doubtful he hl

theorem secureVia_h2SendViaPool (req : Request) (t : Trip) (origin : Origin) :
    SecureVia (h2SendViaPool req t origin) := by
  have hfresh := secureVia_h2SendFresh req t origin
  unfold h2SendViaPool
  cases ((t.h2Pool.evictStale t.now).checkout (origin.host, origin.port)).1 with
  | none => exact hfresh.after (by simp)
  | some c =>
    have hfirst := h2DriveLocked_layer .pooledStream req c.conn t.first
    have hsecond := h2DriveLocked_layer .pooledStreamAgain req c.conn t.second
    dsimp only
    generalize (h2DriveLocked .pooledStream c.conn req t.first).1 = a at *
    generalize (h2DriveLocked .pooledStreamAgain c.conn req t.second).1 = b at *
    cases ha : a.result with
    | ok resp => exact secureVia_response (ha ▸ secure_of a)
    | error e =>
      have hgo (hl : (isH2StreamLevelError e || isRetriableConnError e) = true) :
          ∀ x ∈ [a], ∃ e, x.result = .error e ∧ x.layer.retries e = true := by
        intro x hx
        obtain rfl := List.mem_singleton.1 hx
        exact ⟨e, ha, by simpa [hfirst, Layer.retries] using hl⟩
      dsimp only
      by_cases hs : isH2StreamLevelError e = true
      · rw [if_pos hs]
        have hboth : Secure ⟨[a, b], b.result⟩ := fun hsettled =>
          (closing_of b).after <| not_doubtful_of_retried (hgo (by simp [hs])) fun x hx =>
            hsettled x (List.mem_append_left [b] hx)
        cases hb : b.result with
        | ok resp => exact secureVia_response (hb ▸ hboth)
        | error e2 =>
          have hgo2 (hl : (isH2StreamLevelError e2 || isRetriableConnError e2) = true) :
              ∀ x ∈ [a, b], ∃ e, x.result = .error e ∧ x.layer.retries e = true := by
            intro x hx
            obtain rfl | hx := List.mem_cons.1 hx
            · exact hgo (by simp [hs]) x (by simp)
            · obtain rfl := List.mem_singleton.1 hx
              exact ⟨e2, hb, by simpa [hsecond, Layer.retries] using hl⟩
          dsimp only
          split_ifs with hs2 hr2
          · exact hfresh.after (not_doubtful_of_retried (hgo2 (by simp [hs2])))
          · exact hfresh.after (not_doubtful_of_retried (hgo2 (by simp [hr2])))
          · exact secureVia_response (hb ▸ hboth)
      · rw [if_neg hs]
        split_ifs with hr
        · exact hfresh.after (not_doubtful_of_retried (hgo (by simp [hr])))
        · exact secureVia_response (ha ▸ secure_of a)

theorem secure_sendOnce (req : Request) (t : Trip) : Secure (sendOnce req t) := by
  unfold sendOnce
  split
  · exact fun _ => .inl fun x hx => absurd hx List.not_mem_nil
  · rename_i origin _
    split_ifs
    · have hvia := secureVia_h2SendViaPool req t origin
      split <;> rename_i tries _ heq <;> rw [heq] at hvia
      · exact hvia
      · exact fun hsettled => (closing_of _).after
          (hvia fun x hx => hsettled x (List.mem_append_left _ hx))
      · exact fun hsettled => Closing.after
          (secure_sendOverPool req t origin fun x hx => hsettled x (List.mem_append_right _ hx))
          (hvia fun x hx => hsettled x (List.mem_append_left _ hx))
    · exact secure_sendOverPool req t origin

/-! ### What an attempt is for -/

/-- An attempt that carries the request as it is, to where it goes. -/
def Try.For (x : Try) (req : Request) (origin : Origin) : Prop :=
  x.acceptBrotli = req.acceptBrotli ∧ x.target = origin

section

variable {layer : Layer} {req : Request} {origin : Origin}

theorem unsent_for (e : NetError) : (unsent layer req origin e).For req origin := ⟨rfl, rfl⟩

theorem transact_for {conn : Conn} (h : conn.origin = origin) (t : Transaction) :
    (transact layer conn req t).For req origin := by
  unfold transact
  split_ifs
  · exact ⟨rfl, h⟩
  · exact ⟨rfl, h⟩

theorem h2DriveLocked_for {conn : Conn} (h : conn.origin = origin) (d : Drive) :
    (h2DriveLocked layer conn req d).1.For req origin := by
  unfold h2DriveLocked
  split_ifs <;> exact ⟨rfl, h⟩

theorem dial_origin {o : DialOutcome} {conn : Conn} (h : dial o origin = .ok conn) :
    conn.origin = origin := by
  cases o with
  | unresolved _ => cases h
  | unreachable _ => cases h
  | tlsFailed _ =>
    simp only [dial] at h
    split_ifs at h
    cases h
    rfl
  | connected _ =>
    cases h
    rfl

theorem dialAndTransact_for (d : DialOutcome × Transaction) :
    (dialAndTransact layer req origin d).For req origin := by
  unfold dialAndTransact
  cases hd : dial d.1 origin with
  | error e => exact unsent_for e
  | ok conn => exact transact_for (dial_origin hd) d.2

end

theorem forall_orElse {P : Try → Prop} {s : Sent} {again : NetError → Bool}
    {next : NetError → Sent} (hs : ∀ x ∈ s.tries, P x) (hnext : ∀ e, ∀ x ∈ (next e).tries, P x) :
    ∀ x ∈ (s.orElse again next).tries, P x := by
  unfold Sent.orElse
  split
  · exact hs
  · split_ifs
    · exact fun x hx => (List.mem_append.1 hx).elim (hs x) (hnext _ x)
    · exact hs

theorem forall_of {P : Try → Prop} {x : Try} (h : P x) : ∀ y ∈ (Sent.of x).tries, P y := by
  simpa [Sent.of] using h

theorem dialLoop_for (req : Request) (origin : Origin)
    (dials : List (Layer × DialOutcome × Transaction)) (lastErr : Option NetError) :
    ∀ x ∈ (dialLoop req origin dials lastErr).tries, x.For req origin := by
  induction dials generalizing lastErr with
  | nil => exact fun x hx => absurd hx List.not_mem_nil
  | cons d rest ih => exact forall_orElse (forall_of (dialAndTransact_for _)) fun e => ih (some e)

theorem sendOverPool_for (req : Request) (t : Trip) (origin : Origin) :
    ∀ x ∈ (sendOverPool req t origin).tries, x.For req origin := by
  unfold sendOverPool
  cases hc : ((t.pool.evictStale t.now).checkout t.reuseSafe origin).1 with
  | none => exact dialLoop_for _ _ _ _
  | some conn =>
    exact forall_orElse (forall_of (transact_for (Pool.checkout_origin hc) _))
      fun _ => dialLoop_for _ _ _ _

/-- A connection that is handed on is one to where the request goes. -/
def ViaFor (req : Request) (origin : Origin) (via : List Try × H2PoolOutcome) : Prop :=
  (∀ x ∈ via.1, x.For req origin) ∧ ∀ conn, via.2 = .notH2 conn → conn.origin = origin

theorem viaFor_response {req : Request} {origin : Origin} {tries : List Try}
    {r : Except NetError Response} (h : ∀ x ∈ tries, x.For req origin) :
    ViaFor req origin (tries, .response r) := ⟨h, fun _ h => nomatch h⟩

theorem ViaFor.after {req : Request} {origin : Origin} {tries : List Try}
    {via : List Try × H2PoolOutcome} (h : ViaFor req origin via)
    (ht : ∀ x ∈ tries, x.For req origin) : ViaFor req origin (tries ++ via.1, via.2) :=
  ⟨fun x hx => (List.mem_append.1 hx).elim (ht x) (h.1 x), h.2⟩

theorem h2SendFresh_for (req : Request) (t : Trip) {origin : Origin} (ho : origin.isHttps = true) :
    ViaFor req origin (h2SendFresh req t origin) := by
  have horigin : (⟨origin.host, origin.port, true⟩ : Origin) = origin := by rw [← ho]
  unfold h2SendFresh
  rw [horigin]
  cases hd : dial t.h2Dial origin with
  | error e => exact ⟨by simp, fun _ h => nomatch h⟩
  | ok conn =>
    have hconn := dial_origin hd
    dsimp only
    split_ifs with halpn
    · refine ⟨by simp, fun conn' h => ?_⟩
      cases h
      exact hconn
    · cases t.preface with
      | some e => exact viaFor_response (forall_of (hconn ▸ unsent_for e))
      | none => exact viaFor_response (forall_of (h2DriveLocked_for hconn t.fresh))

theorem h2SendViaPool_for (req : Request) (t : Trip) {origin : Origin}
    (ho : origin.isHttps = true) : ViaFor req origin (h2SendViaPool req t origin) := by
  have hfresh := h2SendFresh_for req t ho
  unfold h2SendViaPool
  cases hc : ((t.h2Pool.evictStale t.now).checkout (origin.host, origin.port)).1 with
  | none => exact hfresh.after (by simp)
  | some c =>
    have horigin : c.conn.origin = origin := by rw [H2Pool.checkout_origin hc, ← ho]
    have ha : ∀ x ∈ [(h2DriveLocked .pooledStream c.conn req t.first).1], x.For req origin :=
      forall_of (h2DriveLocked_for horigin t.first)
    have hab : ∀ x ∈ [(h2DriveLocked .pooledStream c.conn req t.first).1,
        (h2DriveLocked .pooledStreamAgain c.conn req t.second).1], x.For req origin :=
      List.forall_mem_cons.2 ⟨h2DriveLocked_for horigin t.first,
        forall_of (h2DriveLocked_for horigin t.second)⟩
    dsimp only
    split
    · exact viaFor_response ha
    · split_ifs
      · split
        · exact viaFor_response hab
        · split_ifs
          · exact hfresh.after hab
          · exact hfresh.after hab
          · exact viaFor_response hab
      · exact hfresh.after ha
      · exact viaFor_response ha

theorem sendOnce_for (req : Request) (t : Trip) :
    ∀ x ∈ (sendOnce req t).tries,
      ∃ origin, route t.store t.unixNow req.url = .ok origin ∧ x.For req origin := by
  unfold sendOnce
  cases hr : route t.store t.unixNow req.url with
  | error e => exact fun x hx => absurd hx List.not_mem_nil
  | ok origin =>
    suffices hall : ∀ x ∈ Sent.tries _, x.For req origin from
      fun x hx => ⟨origin, rfl, hall x hx⟩
    dsimp only
    split_ifs with hvia
    · have hfor := h2SendViaPool_for req t (Bool.and_eq_true_iff.1 hvia).2
      split <;> rename_i heq <;> rw [heq] at hfor
      · exact hfor.1
      · have hhanded : ∀ x ∈ (Sent.of (transact .handedOver _ req t.handed)).tries,
            x.For req origin := forall_of (transact_for (hfor.2 _ rfl) t.handed)
        exact fun x hx => (List.mem_append.1 hx).elim (hfor.1 x) (hhanded x)
      · exact fun x hx => (List.mem_append.1 hx).elim (hfor.1 x) (sendOverPool_for req t origin x)
    · exact sendOverPool_for req t origin

/-! ### A call -/

/-- A call of which no attempt that may have had the request processed is followed up writes
the request at most once, whatever the method. -/
theorem written_at_most_once (req : Request) (t₁ t₂ : Trip)
    (h : ∀ x ∈ (send req t₁ t₂).tries, x.Settled) : AtMostOnce (send req t₁ t₂).tries := by
  refine Closing.atMostOnce (Secure.orElse (secure_sendOnce req t₁) ?_
    (fun _ => secure_sendOnce _ t₂) h)
  intro x hx e he
  obtain ⟨_, -, hbr, -⟩ := sendOnce_for req t₁ x hx
  simp only [Bool.and_eq_true] at he
  simp [Try.followedUp, hbr, he.1, he.2]

def post : Request := ⟨"POST", ⟨.http, "h".toList, none⟩, true⟩

/-- A round that finds an idle connection, with what happens on it; a fresh one answers. -/
def afterIdle (pooled : H1Outcome) : Trip where
  store _ := none
  unixNow := 0
  now := 0
  h2PoolEnabled := true
  h2Pool := ⟨fun _ => none, by simp⟩
  first := ⟨⟨false, false, 100, 0⟩, .timedOut, false⟩
  second := ⟨⟨false, false, 100, 0⟩, .timedOut, false⟩
  h2Dial := .unresolved ""
  preface := none
  fresh := ⟨⟨false, false, 100, 0⟩, .timedOut, false⟩
  handed := ⟨.timedOut, .timedOut, false⟩
  pool := ⟨fun key => [⟨⟨key, ""⟩, 0⟩], by simp⟩
  reuseSafe _ := true
  pooled := ⟨pooled, .timedOut, false⟩
  firstDial := (.connected "", ⟨.answered ⟨200, []⟩ true, .timedOut, false⟩)
  secondDial := (.connected "", ⟨.timedOut, .timedOut, false⟩)

/-- Nothing was written on the idle connection, so the fresh one may have the request. -/
theorem written_at_most_once_sample :
    AtMostOnce (send post (afterIdle (.writeFailed false (.socket .closed))) (afterIdle .timedOut)).tries := by
  refine written_at_most_once post _ _ ?_
  have htries : (send post (afterIdle (.writeFailed false (.socket .closed)))
      (afterIdle .timedOut)).tries =
        [⟨.pooledConn, true, ⟨"h".toList, 80, false⟩, false, false, .error (.socket .closed), false⟩,
          ⟨.firstDial, true, ⟨"h".toList, 80, false⟩, true, false, .ok ⟨200, []⟩, true⟩] := by
    rfl
  simp [htries, Try.Settled, Try.Doubtful]

/-- The request is written on an idle connection, its answer times out, and it is written
again on a fresh one. -/
theorem written_twice :
    post.method = "POST" ∧ ¬AtMostOnce (send post (afterIdle .timedOut) (afterIdle .timedOut)).tries := by
  decide

end Conclave.Net.Send
