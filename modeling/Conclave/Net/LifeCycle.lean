import Conclave.Net.Http2
import Conclave.Lib.Run

/-! The life cycle of streams. A stream is `closed` when both its sides have ended or it
was reset, and never opens again. Every act changes the phase of one stream, so what a
run keeps is settled by the acts on a single phase; `sendHeaders` sets the state whatever
it was, and an end that comes before the headers of a request is not in the state. -/

namespace Conclave.Net.Http2

open Lib

/-- Where a stream is in its life: its state, and which sides have ended. -/
structure Phase where
  state : StreamState
  eofLocal : Bool
  eofRemote : Bool
  deriving DecidableEq, Repr

def Stream.phase (s : Stream) : Phase := ⟨s.state, s.eofLocal, s.eofRemote⟩

namespace Phase

def new : Phase := ⟨.idle, false, false⟩

def sendHeaders (fin : Bool) (p : Phase) : Phase :=
  { p with state := if fin then .halfClosedLocal else .open, eofLocal := fin }

def sendData (fin : Bool) (p : Phase) : Phase :=
  { p with
    state := if fin then p.state.endLocal else p.state
    eofLocal := p.eofLocal || fin }

def endStream (fin : Bool) (p : Phase) : Phase :=
  if fin then { p with eofRemote := true, state := p.state.endRemote } else p

def reset (p : Phase) : Phase := { p with state := .closed }

/-- Both sides have ended. -/
def Ended (p : Phase) : Prop := p.eofLocal = true ∧ p.eofRemote = true

/-- Closed means ended or reset. -/
def Settled (r : Prop) (p : Phase) : Prop := p.state = .closed ↔ p.Ended ∨ r

/-- A half-closed stream knows which side has ended. -/
def Halves (p : Phase) : Prop :=
  (p.state = .halfClosedRemote → p.eofRemote = true) ∧
    (p.state = .halfClosedLocal → p.eofLocal = true)

end Phase

open Connection

/-- Streams that are not closed, each of which takes one of the peer's slots. -/
def Connection.activeStreamCount (c : Connection) : ℕ :=
  ((List.range (2 ^ 32)).filterMap c.streams).countP fun s => s.state ≠ .closed

/-! ### Runs with the resets received -/

/-- The streams for which an RST_STREAM frame was received. -/
def resets (r : List ℕ) : Act → List ℕ
  | .feedFrame hdr _ => if hdr.typ = .rstStream then hdr.streamId :: r else r
  | _ => r

def followed (s : Connection × List ℕ) (a : Act) : Option (Connection × List ℕ) :=
  some (s.1.step a, resets s.2 a)

/-- A stream of the map that has not ended and was not reset. -/
def Occupied (s : Connection × List ℕ) (id : ℕ) : Bool :=
  (s.1.streams id).any fun st => ¬ ((st.eofLocal ∧ st.eofRemote) ∨ id ∈ s.2)

structure LifeCycle (s : Connection × List ℕ) : Prop where
  closed : ∀ id st, s.1.streams id = some st →
    (st.eofLocal = true ∧ st.eofRemote = true) ∨ id ∈ s.2 → st.state = .closed
  ended : ∀ id st, s.1.streams id = some st → st.state = .closed → id ∉ s.2 →
    st.eofLocal = true ∧ st.eofRemote = true
  count : s.1.activeStreamCount = (List.range (2 ^ 32)).countP (Occupied s)

/-- The life cycle holds after the act, and what was closed is closed. -/
def Follows (s : Connection × List ℕ) (a : Act) : Prop :=
  LifeCycle (s.1.step a, resets s.2 a) ∧
    ∀ id st, s.1.streams id = some st → st.state = .closed →
      ∃ st', (s.1.step a).streams id = some st' ∧ st'.state = .closed

/-- No stream starts under an id that was reset or is closed; headers go out on a stream
that is not closed, and end it only while the peer's side is open; the other ends come
when the state knows whether the opposite side has ended. -/
def Orderly (s : Connection × List ℕ) : Act → Prop
  | .openStream => s.1.nextStreamId ∉ s.2 ∧
    ∀ st, s.1.streams s.1.nextStreamId = some st → st.state ≠ .closed
  | .sendHeaders id _ fin => ∀ st, s.1.streams id = some st →
    st.state ≠ .closed ∧ ¬ (fin = true ∧ st.eofRemote = true)
  | .sendData id data fin => ¬ s.1.connSendWindow < toI32 data.length →
    ∀ st, s.1.streams id = some st → fin = true → st.eofRemote = true →
      st.state = .halfClosedRemote ∨ st.state = .closed
  | .feedFrame hdr body =>
    match hdr.typ with
    | .headers =>
      (s.1.streams hdr.streamId = none → hdr.streamId ∉ s.2) ∧
      ∀ st, s.1.streams hdr.streamId = some st →
        hdr.flag 0x1 = true → headersPayload hdr body ≠ none → st.eofLocal = true →
          st.state = .halfClosedLocal ∨ st.state = .closed
    | .data => ∀ st, s.1.streams hdr.streamId = some st →
      hdr.flag 0x1 = true → st.eofLocal = true →
        st.state = .halfClosedLocal ∨ st.state = .closed
    | _ => True

/-! ### The phase an act changes -/

def Connection.phases (c : Connection) (id : ℕ) : Option Phase := (c.streams id).map Stream.phase

/-- The stream that an act is about, and what becomes of its phase. -/
def change (c : Connection) : Act → ℕ × (Option Phase → Option Phase)
  | .openStream => (c.nextStreamId, fun _ => some .new)
  | .sendHeaders id _ fin => (id, Option.map (Phase.sendHeaders fin))
  | .sendData id data fin =>
    (id, if c.connSendWindow < toI32 data.length then fun p => p else Option.map (Phase.sendData fin))
  | .feedFrame hdr body =>
    (hdr.streamId,
      match hdr.typ with
      | .headers => fun p =>
        some ((p.getD .new).endStream (hdr.flag 0x1 && (headersPayload hdr body).isSome))
      | .data => Option.map (Phase.endStream (hdr.flag 0x1))
      | .rstStream => Option.map Phase.reset
      | _ => fun p => p)

variable {c : Connection}

theorem phases_congr {c' : Connection} (h : c'.streams = c.streams) : c'.phases = c.phases := by
  funext id
  rw [phases, phases, h]

theorem phases_insertStream (c : Connection) (id : ℕ) (s : Stream) :
    (c.insertStream id s).phases = Function.update c.phases id (some s.phase) := by
  funext i
  by_cases hi : i = id
  · subst hi
    simp [phases, insertStream]
  · simp [phases, insertStream, hi]

theorem phases_modifyStream (c : Connection) (id : ℕ) {f : Stream → Stream} {g : Phase → Phase}
    (h : ∀ s, (f s).phase = g s.phase) :
    (c.modifyStream id f).phases = Function.update c.phases id ((c.phases id).map g) := by
  funext i
  by_cases hi : i = id
  · subst hi
    cases hs : c.streams i <;> simp [phases, modifyStream, hs, h]
  · simp [phases, modifyStream, hi]

/-- A change that leaves the phase alone. -/
theorem phases_unchanged (c : Connection) (id : ℕ) {f : Stream → Stream}
    (h : ∀ s, (f s).phase = s.phase) : (c.modifyStream id f).phases = c.phases := by
  rw [phases_modifyStream c id (g := fun p => p) h, Option.map_id', Function.update_eq_self]

theorem phase_endStream (s : Stream) (fin : Bool) :
    (s.endStream fin).phase = s.phase.endStream fin := by cases fin <;> rfl

theorem phases_replenishConn (c : Connection) : c.replenishConn.phases = c.phases := by
  unfold replenishConn
  split
  · rfl
  · exact phases_congr rfl

theorem phases_replenishStream (c : Connection) (id : ℕ) :
    (c.replenishStream id).phases = c.phases := by
  unfold replenishStream
  split
  · rfl
  · exact phases_unchanged _ id fun _ => rfl

theorem phases_applySettings (settings : List (ℕ × ℕ)) (c : Connection) :
    (settings.foldl (fun c (id, val) => c.applySetting id val) c).phases = c.phases := by
  induction settings generalizing c with
  | nil => rfl
  | cons e settings ih =>
    rw [List.foldl_cons, ih]
    refine phases_congr ?_
    simp only [applySetting]
    split_ifs <;> rfl

theorem phases_feedData (c : Connection) (hdr : FrameHeader) (body : Bytes) :
    (c.feedData hdr body).phases = Function.update c.phases hdr.streamId
      ((c.phases hdr.streamId).map (Phase.endStream (hdr.flag 0x1))) := by
  simp only [feedData]
  rw [phases_replenishStream, phases_replenishConn]
  exact phases_modifyStream _ _ fun s => phase_endStream _ _

theorem phases_feedHeaders (c : Connection) (hdr : FrameHeader) (body : Bytes) :
    (c.feedHeaders hdr body).phases = Function.update c.phases hdr.streamId
      (some (((c.phases hdr.streamId).getD .new).endStream
        (hdr.flag 0x1 && (headersPayload hdr body).isSome))) := by
  have hget : ((c.streams hdr.streamId).getD
      (Stream.new hdr.streamId c.peerInitialWindow)).phase =
        (c.phases hdr.streamId).getD .new := by
    unfold phases
    cases c.streams hdr.streamId <;> rfl
  simp only [feedHeaders]
  cases headersPayload hdr body with
  | none =>
    rw [phases_insertStream, hget]
    simp [Phase.endStream]
  | some payload =>
    rw [phases_insertStream, phase_endStream]
    simp only [Option.isSome_some, Bool.and_true]
    rw [← hget]
    rfl

theorem phases_feedFrame (c : Connection) (hdr : FrameHeader) (body : Bytes) :
    (c.feedFrame hdr body).phases = Function.update c.phases hdr.streamId
      ((change c (.feedFrame hdr body)).2 (c.phases hdr.streamId)) := by
  simp only [feedFrame, change]
  cases hdr.typ with
  | settings =>
    dsimp only
    rw [Function.update_eq_self]
    simp only [feedSettings]
    split_ifs
    · rfl
    · exact phases_applySettings _ _
  | ping =>
    dsimp only
    rw [Function.update_eq_self]
    simp only [feedPing]
    split_ifs <;> rfl
  | windowUpdate =>
    dsimp only
    rw [Function.update_eq_self]
    simp only [feedWindowUpdate]
    split_ifs
    · rfl
    · rfl
    · exact phases_unchanged _ _ fun _ => rfl
  | headers => exact phases_feedHeaders _ hdr body
  | data => exact phases_feedData _ hdr body
  | continuation =>
    dsimp only
    rw [Function.update_eq_self]
    exact phases_unchanged _ _ fun _ => rfl
  | rstStream => exact phases_modifyStream _ _ fun _ => rfl
  | _ => exact (Function.update_eq_self _ _).symm

theorem phases_step (c : Connection) (a : Act) :
    (c.step a).phases =
      Function.update c.phases (change c a).1 ((change c a).2 (c.phases (change c a).1)) := by
  cases a with
  | openStream => exact phases_insertStream _ _ _
  | sendHeaders id headers fin => exact phases_modifyStream _ _ fun _ => rfl
  | sendData id data fin =>
    unfold step sendData change
    dsimp only
    by_cases hrefuse : c.connSendWindow < toI32 data.length
    · rw [if_pos hrefuse, if_pos hrefuse]
      exact (Function.update_eq_self _ _).symm
    · rw [if_neg hrefuse, if_neg hrefuse]
      exact phases_modifyStream _ _ fun _ => rfl
  | feedFrame hdr body => exact phases_feedFrame c hdr body

/-! ### One phase -/

/-- One phase becomes another: the new one is settled, and closed if the old one was. -/
def Turn (r : Prop) (x y : Phase) : Prop :=
  y.Settled r ∧ (x.state = .closed → y.state = .closed)

section Turns

variable {r : Prop} {x : Phase} {fin : Bool}

theorem turn_sendHeaders (hs : x.Settled r) :
    Turn r x (x.sendHeaders fin) ↔ x.state ≠ .closed ∧ ¬ (fin = true ∧ x.eofRemote = true) := by
  obtain ⟨state, l, m⟩ := x
  simp only [Turn, Phase.Settled, Phase.Ended, Phase.sendHeaders] at hs ⊢
  by_cases hr : r
  · have hclosed : state = .closed := hs.mpr (.inr hr)
    cases fin <;> simp [hclosed]
  · cases fin <;> cases m <;> simp [hr]

theorem turn_sendData (hs : x.Settled r) (hh : x.Halves) :
    Turn r x (x.sendData fin) ↔
      (fin = true → x.eofRemote = true → x.state = .halfClosedRemote ∨ x.state = .closed) := by
  obtain ⟨state, l, m⟩ := x
  simp only [Turn, Phase.Settled, Phase.Ended, Phase.Halves, Phase.sendData] at hs hh ⊢
  by_cases hr : r
  · have hclosed : state = .closed := hs.mpr (.inr hr)
    cases fin <;> simp [hclosed, hr, StreamState.endLocal]
  · cases fin <;> cases state <;> cases m <;> simp_all [StreamState.endLocal]

theorem turn_endStream (hs : x.Settled r) (hh : x.Halves) :
    Turn r x (x.endStream fin) ↔
      (fin = true → x.eofLocal = true → x.state = .halfClosedLocal ∨ x.state = .closed) := by
  obtain ⟨state, l, m⟩ := x
  simp only [Turn, Phase.Settled, Phase.Ended, Phase.Halves, Phase.endStream] at hs hh ⊢
  by_cases hr : r
  · have hclosed : state = .closed := hs.mpr (.inr hr)
    cases fin <;> simp [hclosed, hr, StreamState.endRemote]
  · cases fin <;> cases state <;> cases l <;> simp_all [StreamState.endRemote]

theorem halves_sendHeaders (fin : Bool) (x : Phase) : (x.sendHeaders fin).Halves := by
  cases fin <;> simp [Phase.Halves, Phase.sendHeaders]

theorem halves_sendData (fin : Bool) (hh : x.Halves) : (x.sendData fin).Halves := by
  obtain ⟨state, l, m⟩ := x
  cases fin <;> cases state <;> simp_all [Phase.Halves, Phase.sendData, StreamState.endLocal]

theorem halves_endStream (fin : Bool) (hh : x.Halves) : (x.endStream fin).Halves := by
  obtain ⟨state, l, m⟩ := x
  cases fin <;> cases state <;> simp_all [Phase.Halves, Phase.endStream, StreamState.endRemote]

theorem halves_reset (x : Phase) : x.reset.Halves := by simp [Phase.Halves, Phase.reset]

theorem halves_new : Phase.new.Halves := by simp [Phase.Halves, Phase.new]

theorem settled_new : Phase.new.Settled r ↔ ¬ r := by
  simp [Phase.Settled, Phase.Ended, Phase.new]

end Turns

/-! ### One act -/

/-- Every phase of a connection is settled by the resets received. -/
def Settled (s : Connection × List ℕ) : Prop :=
  ∀ id x, s.1.phases id = some x → x.Settled (id ∈ s.2)

theorem lifeCycle_iff (s : Connection × List ℕ) : LifeCycle s ↔ Settled s := by
  constructor
  · rintro h id x hx
    obtain ⟨st, hst, rfl⟩ := Option.map_eq_some_iff.mp hx
    refine ⟨fun hc => ?_, h.closed id st hst⟩
    by_cases hr : id ∈ s.2
    · exact .inr hr
    · exact .inl (h.ended id st hst hc hr)
  · intro h
    have hst : ∀ id st, s.1.streams id = some st → st.phase.Settled (id ∈ s.2) :=
      fun id st hs => h id _ (congrArg (Option.map Stream.phase) hs)
    refine ⟨fun id st hs => (hst id st hs).mpr,
      fun id st hs hc hr => ((hst id st hs).mp hc).resolve_right hr, ?_⟩
    rw [activeStreamCount, List.countP_filterMap]
    refine List.countP_congr fun id _ => ?_
    unfold Occupied
    cases hs : s.1.streams id with
    | none => simp
    | some st =>
      have := hst id st hs
      simp only [Phase.Settled, Phase.Ended, Stream.phase] at this
      simp [this]

theorem mem_resets_of_ne {r : List ℕ} {a : Act} {i : ℕ} (hi : i ≠ (change c a).1) :
    i ∈ resets r a ↔ i ∈ r := by
  cases a with
  | feedFrame hdr body =>
    simp only [resets]
    split_ifs
    · rw [List.mem_cons, or_iff_right_iff_imp]
      exact fun h => absurd h hi
    · exact Iff.rfl
  | _ => exact Iff.rfl

variable {s : Connection × List ℕ}

/-- Only the changed stream has to be looked at. -/
theorem follows_iff (hs : Settled s) (a : Act) {id : ℕ} {p q : Option Phase}
    (hid : (change s.1 a).1 = id) (hp : s.1.phases id = p) (hq : (change s.1 a).2 p = q) :
    Follows s a ↔ (∀ y, q = some y → y.Settled (id ∈ resets s.2 a)) ∧
      ∀ x, p = some x → x.state = .closed → ∃ y, q = some y ∧ y.state = .closed := by
  have hphases : (s.1.step a).phases = Function.update s.1.phases id q := by
    rw [phases_step, hid, hp, hq]
  have hself : (s.1.step a).phases id = q := by rw [hphases, Function.update_self]
  have hother : ∀ i, i ≠ id → (s.1.step a).phases i = s.1.phases i := fun i hi => by
    rw [hphases, Function.update_of_ne hi]
  have hstays : (∀ i st, s.1.streams i = some st → st.state = .closed →
      ∃ st', (s.1.step a).streams i = some st' ∧ st'.state = .closed) ↔
      ∀ i x, s.1.phases i = some x → x.state = .closed →
        ∃ y, (s.1.step a).phases i = some y ∧ y.state = .closed := by
    constructor
    · intro h i x hx hc
      obtain ⟨st, hst, rfl⟩ := Option.map_eq_some_iff.mp hx
      obtain ⟨st', hst', hc'⟩ := h i st hst hc
      exact ⟨_, congrArg (Option.map Stream.phase) hst', hc'⟩
    · intro h i st hst hc
      obtain ⟨y, hy, hc'⟩ := h i _ (congrArg (Option.map Stream.phase) hst) hc
      obtain ⟨st', hst', rfl⟩ := Option.map_eq_some_iff.mp hy
      exact ⟨st', hst', hc'⟩
  rw [Follows, lifeCycle_iff, hstays]
  constructor
  · rintro ⟨hsettled, hclosed⟩
    refine ⟨fun y hy => hsettled id y (hself.trans hy), fun x hx hc => ?_⟩
    obtain ⟨y, hy, hc'⟩ := hclosed id x (hp.trans hx) hc
    exact ⟨y, hself.symm.trans hy, hc'⟩
  · rintro ⟨hsettled, hclosed⟩
    refine ⟨fun i y hy => ?_, fun i x hx hc => ?_⟩
    · by_cases hi : i = id
      · subst hi
        exact hsettled y (hself.symm.trans hy)
      · have hr : i ∈ resets s.2 a ↔ i ∈ s.2 := mem_resets_of_ne (c := s.1) (hid ▸ hi)
        rw [Phase.Settled, hr]
        exact hs i y ((hother i hi).symm.trans hy)
    · by_cases hi : i = id
      · subst hi
        obtain ⟨y, hy, hc'⟩ := hclosed x (hp.symm.trans hx) hc
        exact ⟨y, hself.trans hy, hc'⟩
      · exact ⟨x, (hother i hi).trans hx, hc⟩

/-- An act that changes a stream if there is one. -/
theorem follows_map (hs : Settled s) (a : Act) {id : ℕ} {g : Phase → Phase}
    (hchange : change s.1 a = (id, Option.map g)) :
    Follows s a ↔ ∀ st, s.1.streams id = some st →
      Turn (id ∈ resets s.2 a) st.phase (g st.phase) := by
  rw [follows_iff hs a (congrArg Prod.fst hchange) rfl (congrFun (congrArg Prod.snd hchange) _)]
  constructor
  · rintro ⟨hsettled, hclosed⟩ st hst
    have hp : s.1.phases id = some st.phase := congrArg (Option.map Stream.phase) hst
    refine ⟨hsettled _ (by rw [hp]; rfl), fun hc => ?_⟩
    obtain ⟨y, hy, hc'⟩ := hclosed _ hp hc
    rw [hp] at hy
    obtain rfl := Option.some.inj hy
    exact hc'
  · intro h
    refine ⟨fun y hy => ?_, fun x hx hc => ?_⟩
    · obtain ⟨x, hx, rfl⟩ := Option.map_eq_some_iff.mp hy
      obtain ⟨st, hst, rfl⟩ := Option.map_eq_some_iff.mp hx
      exact (h st hst).1
    · obtain ⟨st, hst, rfl⟩ := Option.map_eq_some_iff.mp hx
      exact ⟨_, congrArg (Option.map g) hx, (h st hst).2 hc⟩

/-- An act that changes nothing about a stream. -/
theorem follows_same (hs : Settled s) (a : Act) (hchange : (change s.1 a).2 = fun p => p)
    (hr : resets s.2 a = s.2) : Follows s a := by
  rw [follows_iff hs a rfl rfl rfl, hchange, hr]
  exact ⟨fun y hy => hs _ y hy, fun x hx hc => ⟨x, hx, hc⟩⟩

def HalvesKnown (c : Connection) : Prop := ∀ id x, c.phases id = some x → x.Halves

theorem halvesKnown_step (h : HalvesKnown c) (a : Act) : HalvesKnown (c.step a) := by
  intro i y hy
  rw [phases_step] at hy
  by_cases hi : i = (change c a).1
  · subst hi
    rw [Function.update_self] at hy
    have hmap : ∀ {g : Phase → Phase} {id : ℕ}, (∀ x, x.Halves → (g x).Halves) →
        Option.map g (c.phases id) = some y → y.Halves := by
      intro g id hg hy
      obtain ⟨x, hx, rfl⟩ := Option.map_eq_some_iff.mp hy
      exact hg x (h _ x hx)
    cases a with
    | openStream =>
      obtain rfl := Option.some.inj hy
      exact halves_new
    | sendHeaders id headers fin => exact hmap (fun x _ => halves_sendHeaders fin x) hy
    | sendData id data fin =>
      simp only [change] at hy
      split_ifs at hy
      · exact h _ y hy
      · exact hmap (fun x hx => halves_sendData fin hx) hy
    | feedFrame hdr body =>
      simp only [change] at hy
      cases htyp : hdr.typ with
      | headers =>
        rw [htyp] at hy
        obtain rfl := Option.some.inj hy
        refine halves_endStream _ ?_
        cases hx : c.phases hdr.streamId with
        | none => exact halves_new
        | some x => exact h _ x hx
      | data =>
        rw [htyp] at hy
        exact hmap (fun x hx => halves_endStream _ hx) hy
      | rstStream =>
        rw [htyp] at hy
        exact hmap (fun x _ => halves_reset x) hy
      | _ =>
        rw [htyp] at hy
        exact h _ y hy
  · rw [Function.update_of_ne hi] at hy
    exact h i y hy

theorem stream_phase {id : ℕ} {st : Stream} (h : c.streams id = some st) :
    c.phases id = some st.phase := congrArg (Option.map Stream.phase) h

theorem follows_openStream (hs : Settled s) :
    Follows s .openStream ↔ Orderly s .openStream := by
  rw [follows_iff hs .openStream rfl rfl rfl]
  simp only [change, resets, Orderly, Option.some.injEq, forall_eq', settled_new]
  refine and_congr_right fun _ => ⟨fun h st hst hc => ?_, fun h x hx hc => ?_⟩
  · obtain ⟨y, rfl, hy⟩ := h _ (stream_phase hst) hc
    cases hy
  · obtain ⟨st, hst, rfl⟩ := Option.map_eq_some_iff.mp hx
    exact absurd hc (h st hst)

theorem follows_feedHeaders (hs : Settled s) (hh : HalvesKnown s.1) {hdr : FrameHeader}
    {body : Bytes} (htyp : hdr.typ = .headers) :
    Follows s (.feedFrame hdr body) ↔ Orderly s (.feedFrame hdr body) := by
  have hr : resets s.2 (.feedFrame hdr body) = s.2 := by simp [resets, htyp]
  have hop : (change s.1 (.feedFrame hdr body)).2 = fun p =>
      some ((p.getD .new).endStream (hdr.flag 0x1 && (headersPayload hdr body).isSome)) := by
    simp only [change, htyp]
  have hfin : (hdr.flag 0x1 && (headersPayload hdr body).isSome) = true ↔
      hdr.flag 0x1 = true ∧ headersPayload hdr body ≠ none := by
    rw [Bool.and_eq_true, Option.isSome_iff_ne_none]
  rw [follows_iff hs (.feedFrame hdr body) rfl rfl rfl, hop, hr]
  simp only [Orderly, htyp, change, Option.some.injEq, forall_eq']
  cases hst : s.1.streams hdr.streamId with
  | none =>
    have hp : s.1.phases hdr.streamId = none := by rw [phases, hst]; rfl
    have hnew : (Phase.new.endStream
        (hdr.flag 0x1 && (headersPayload hdr body).isSome)).Settled (hdr.streamId ∈ s.2) ↔
          hdr.streamId ∉ s.2 := by
      cases hdr.flag 0x1 && (headersPayload hdr body).isSome <;>
        simp [Phase.Settled, Phase.Ended, Phase.new, Phase.endStream, StreamState.endRemote]
    simp [hp, hnew]
  | some st =>
    have hp := stream_phase hst
    have hturn : Turn _ _ (st.phase.endStream
        (hdr.flag 0x1 && (headersPayload hdr body).isSome)) ↔ _ :=
      turn_endStream (hs _ _ hp) (hh _ _ hp)
    rw [hp]
    simp only [Option.getD_some, Option.some.injEq, forall_eq', reduceCtorEq, IsEmpty.forall_iff,
      true_and, exists_eq_left']
    rw [← and_imp, ← hfin]
    exact hturn

theorem follows_step (hs : Settled s) (hh : HalvesKnown s.1) (a : Act) :
    Follows s a ↔ Orderly s a := by
  cases a with
  | openStream => exact follows_openStream hs
  | sendHeaders id headers fin =>
    rw [follows_map hs _ rfl]
    exact forall₂_congr fun st hst => turn_sendHeaders (hs _ _ (stream_phase hst))
  | sendData id data fin =>
    by_cases hrefuse : s.1.connSendWindow < toI32 data.length
    · have hop : (change s.1 (.sendData id data fin)).2 = fun p => p := by
        simp only [change, if_pos hrefuse]
      simp only [Orderly, hrefuse, not_true_eq_false, false_implies, iff_true]
      exact follows_same hs _ hop rfl
    · have hchange : change s.1 (.sendData id data fin) =
          (id, Option.map (Phase.sendData fin)) := by
        simp only [change, if_neg hrefuse]
      rw [follows_map hs _ hchange]
      simp only [Orderly, hrefuse, not_false_eq_true, true_implies]
      exact forall₂_congr fun st hst =>
        turn_sendData (hs _ _ (stream_phase hst)) (hh _ _ (stream_phase hst))
  | feedFrame hdr body =>
    cases htyp : hdr.typ with
    | headers => exact follows_feedHeaders hs hh htyp
    | data =>
      have hchange : change s.1 (.feedFrame hdr body) =
          (hdr.streamId, Option.map (Phase.endStream (hdr.flag 0x1))) := by
        simp only [change, htyp]
      have hr : resets s.2 (.feedFrame hdr body) = s.2 := by simp [resets, htyp]
      rw [follows_map hs _ hchange, hr]
      simp only [Orderly, htyp]
      exact forall₂_congr fun st hst =>
        turn_endStream (hs _ _ (stream_phase hst)) (hh _ _ (stream_phase hst))
    | rstStream =>
      have hchange : change s.1 (.feedFrame hdr body) =
          (hdr.streamId, Option.map Phase.reset) := by
        simp only [change, htyp]
      have hr : hdr.streamId ∈ resets s.2 (.feedFrame hdr body) := by simp [resets, htyp]
      rw [follows_map hs _ hchange]
      simp [Orderly, htyp, Turn, Phase.Settled, Phase.reset, hr]
    | _ =>
      have hop : (change s.1 (.feedFrame hdr body)).2 = fun p => p := by
        simp only [change, htyp]
      have hr : resets s.2 (.feedFrame hdr body) = s.2 := by simp [resets, htyp]
      simp only [Orderly, htyp, iff_true]
      exact follows_same hs _ hop hr

theorem settled_newClient : Settled (newClient, []) := nofun

/-- In a run from a new client the life cycle is kept, state after state, when every act
is orderly, and only then. -/
theorem life_cycle_kept (acts : List Act) :
    RunsWith followed Orderly (newClient, []) acts ↔
      RunsWith followed Follows (newClient, []) acts := by
  refine runsWith_congr (P := fun s => Settled s ∧ HalvesKnown s.1)
    (fun s a _ s' hs hok hstep => ?_) (fun s a _ hs => ?_) ⟨settled_newClient, nofun⟩
  · obtain rfl := Option.some.inj hstep
    have hfollows := (follows_step hs.1 hs.2 a).mpr hok
    exact ⟨(lifeCycle_iff _).mp hfollows.1, halvesKnown_step hs.2 a⟩
  · exact (follows_step hs.1 hs.2 a).symm

/-- The response ends first, and the trailers of the request after it. -/
theorem life_cycle_lost : ¬ ∀ acts : List Act, RunsWith followed Follows (newClient, []) acts := by
  intro h
  have hrun := h [.openStream, .sendHeaders 1 [] false, .feedFrame ⟨0, .headers, 5, 1⟩ [],
    .sendHeaders 1 [] true]
  have hlast := ((hrun.2 _ rfl).2 _ rfl).2 _ rfl
  have hclosed := hlast.1.1.closed 1 _ rfl (.inl ⟨rfl, rfl⟩)
  cases hclosed

end Conclave.Net.Http2
