import Conclave.Net.Http2
import Conclave.Lib.Run

/-! Send credit. The ledger beside a connection holds the credit that the peer has given
and the queued DATA frames have not used: a change of the initial window applies to the
open streams too. The windows of the connection are the ledger as long as every step is
clear. -/

namespace Conclave.Net.Http2

open Lib Connection

structure Credit where
  initial : ℤ
  conn : ℤ
  stream : ℕ → Option ℤ

namespace Credit

def start : Credit := ⟨65535, 65535, fun _ => none⟩

/-- A stream starts with the initial window in force. -/
def openAt (k : Credit) (id : ℕ) : Credit :=
  { k with stream := Function.update k.stream id (some k.initial) }

def applySetting (k : Credit) (id val : ℕ) : Credit :=
  if id = settingInitialWindowSize then
    { k with initial := val, stream := fun i => (k.stream i).map (· + (val - k.initial)) }
  else k

def grant (k : Credit) (id inc : ℕ) : Credit :=
  if id = 0 then { k with conn := k.conn + inc }
  else { k with stream := Function.update k.stream id ((k.stream id).map (· + inc)) }

/-- What an act gives, on the connection before it. -/
def receive (k : Credit) (c : Connection) : Act → Credit
  | .openStream => k.openAt c.nextStreamId
  | .feedFrame hdr body =>
    match hdr.typ with
    | .settings =>
      if hdr.flag 0x1 then k
      else (decodeSettings body).foldl (fun k (id, val) => k.applySetting id val) k
    | .windowUpdate =>
      if body.length < 4 then k else k.grant hdr.streamId (beNat (body.take 4) % 2 ^ 31)
    | .headers => if k.stream hdr.streamId = none then k.openAt hdr.streamId else k
    | _ => k
  | _ => k

/-- A queued DATA frame uses up credit of the connection and of its stream. -/
def spend (k : Credit) (f : Frame) : Credit :=
  if f.hdr.typ = .data then
    { k with
      conn := k.conn - f.body.length
      stream := Function.update k.stream f.hdr.streamId
        ((k.stream f.hdr.streamId).map (· - f.body.length)) }
  else k

end Credit

/-- The frames that an act puts in the queue. -/
def queued (c : Connection) (a : Act) : List Frame :=
  (c.step a).outgoing.drop c.outgoing.length

/-- A connection and its ledger. -/
def tracked (s : Connection × Credit) (a : Act) : Option (Connection × Credit) :=
  some (s.1.step a, (queued s.1 a).foldl Credit.spend (s.2.receive s.1 a))

/-- The initial window that settings leave. -/
def initialAfter (window : ℤ) (settings : List (ℕ × ℕ)) : ℤ :=
  settings.foldl (fun w (id, val) => if id = settingInitialWindowSize then toI32 val else w) window

/-- No stream starts with a negative window; the initial window does not change while
streams are open; no window update passes 2^31 - 1; data goes out on an open stream and
fits in a frame and in the stream's window, or is refused. -/
def Clear (c : Connection) : Act → Prop
  | .openStream => 0 ≤ c.peerInitialWindow
  | .sendHeaders .. => True
  | .sendData id data _ => c.connSendWindow < toI32 data.length ∨
    data.length ≤ c.peerMaxFrameSize ∧
      ∃ s, c.streams id = some s ∧ (data.length : ℤ) ≤ s.sendWindow
  | .feedFrame hdr body =>
    match hdr.typ with
    | .settings => hdr.flag 0x1 = true ∨ (∀ id, c.streams id = none) ∨
      initialAfter c.peerInitialWindow (decodeSettings body) = c.peerInitialWindow
    | .windowUpdate => 4 ≤ body.length →
      if hdr.streamId = 0 then c.connSendWindow + (beNat (body.take 4) % 2 ^ 31 : ℕ) < 2 ^ 31
      else ∀ s, c.streams hdr.streamId = some s →
        s.sendWindow + (beNat (body.take 4) % 2 ^ 31 : ℕ) < 2 ^ 31
    | .headers => c.streams hdr.streamId = none → 0 ≤ c.peerInitialWindow
    | _ => True

/-! ### Windows -/

/-- The send windows of the connection and of its streams. -/
def windows (c : Connection) : ℤ × (ℕ → Option ℤ) × ℤ :=
  (c.connSendWindow, fun id => (c.streams id).map (·.sendWindow), c.peerInitialWindow)

variable {c : Connection} {k : Credit}

theorem windows_congr {c' : Connection} (hconn : c'.connSendWindow = c.connSendWindow)
    (hstreams : c'.streams = c.streams) (hinit : c'.peerInitialWindow = c.peerInitialWindow) :
    windows c' = windows c := by
  rw [windows, windows, hconn, hstreams, hinit]

theorem windows_modifyStream (id : ℕ) {f : Stream → Stream}
    (hf : ∀ s, (f s).sendWindow = s.sendWindow) : windows (c.modifyStream id f) = windows c := by
  have h : ∀ i, ((c.modifyStream id f).streams i).map (·.sendWindow) =
      (c.streams i).map (·.sendWindow) := by
    intro i
    by_cases hi : i = id
    · subst hi
      cases hs : c.streams i <;> simp [modifyStream, hs, hf]
    · simp [modifyStream, hi]
  exact Prod.ext rfl (Prod.ext (funext h) rfl)

theorem windows_insertStream (id : ℕ) (s : Stream) :
    windows (c.insertStream id s) =
      (c.connSendWindow, Function.update (windows c).2.1 id (some s.sendWindow),
        c.peerInitialWindow) := by
  have h : ∀ i, ((c.insertStream id s).streams i).map (·.sendWindow) =
      Function.update (windows c).2.1 id (some s.sendWindow) i := by
    intro i
    by_cases hi : i = id
    · subst hi
      simp [insertStream]
    · simp [insertStream, hi, windows]
  exact Prod.ext rfl (Prod.ext (funext h) rfl)

theorem windows_endStream (s : Stream) (fin : Bool) :
    (s.endStream fin).sendWindow = s.sendWindow := by cases fin <;> rfl

theorem windows_feedData (hdr : FrameHeader) (body : Bytes) :
    windows (c.feedData hdr body) = windows c := by
  have hstream : ∀ (c : Connection) id, windows (c.replenishStream id) = windows c := by
    intro c id
    unfold replenishStream
    split
    · rfl
    · rw [windows_modifyStream]
      · exact windows_congr rfl rfl rfl
      · exact fun _ => rfl
  have hconn : ∀ c : Connection, windows c.replenishConn = windows c := by
    intro c
    unfold replenishConn
    split
    · rfl
    · exact windows_congr rfl rfl rfl
  simp only [feedData]
  rw [hstream, hconn, windows_modifyStream]
  · exact windows_congr rfl rfl rfl
  · exact fun s => windows_endStream _ _

theorem toI32_of_range {n : ℤ} (h₀ : 0 ≤ n) (h₁ : n < 2 ^ 31) : toI32 n = n := by
  unfold toI32
  rw [Int.bmod_eq_of_le] <;> omega

theorem toI32_inj {m n : ℤ} (hm : 0 ≤ m ∧ m < 2 ^ 32) (hn : 0 ≤ n ∧ n < 2 ^ 32)
    (h : toI32 m = toI32 n) : m = n := by
  unfold toI32 at h
  rw [Int.bmod_def, Int.bmod_def] at h
  omega

theorem of_toI32_nonneg {n : ℤ} (hn : 0 ≤ n ∧ n < 2 ^ 32) (h : 0 ≤ toI32 n) : toI32 n = n := by
  unfold toI32 at h ⊢
  rw [Int.bmod_def] at h ⊢
  omega

theorem toI32_lt (n : ℤ) : toI32 n < 2 ^ 31 := by
  have := Int.bmod_lt (x := n) (m := 2 ^ 32) (by norm_num)
  unfold toI32
  omega

/-! ### The queue -/

/-- Nothing but control frames went into the queue between two states. -/
def Quiet (c c' : Connection) : Prop :=
  ∃ fs, c'.outgoing = c.outgoing ++ fs ∧ ∀ f ∈ fs, f.hdr.typ ≠ .data

theorem Quiet.of_eq {c' : Connection} (h : c'.outgoing = c.outgoing) : Quiet c c' :=
  ⟨[], by rw [h, List.append_nil], nofun⟩

theorem Quiet.trans {c₁ c₂ : Connection} (h₁ : Quiet c c₁) (h₂ : Quiet c₁ c₂) : Quiet c c₂ := by
  obtain ⟨fs, hf, hfs⟩ := h₁
  obtain ⟨gs, hg, hgs⟩ := h₂
  refine ⟨fs ++ gs, by rw [hg, hf, List.append_assoc], fun f hmem => ?_⟩
  rcases List.mem_append.mp hmem with h | h
  · exact hfs f h
  · exact hgs f h

theorem Quiet.queue {c' : Connection} {f : Frame} (ht : f.hdr.typ ≠ .data)
    (h : c'.outgoing = c.outgoing ++ [f]) : Quiet c c' :=
  ⟨[f], h, fun _ hg => List.mem_singleton.mp hg ▸ ht⟩

theorem quiet_replenishConn (c : Connection) : Quiet c c.replenishConn := by
  unfold replenishConn
  split
  · exact .of_eq rfl
  · exact .queue (show FrameType.windowUpdate ≠ .data by decide) rfl

theorem quiet_replenishStream (c : Connection) (id : ℕ) : Quiet c (c.replenishStream id) := by
  unfold replenishStream
  split
  · exact .of_eq rfl
  · exact .queue (show FrameType.windowUpdate ≠ .data by decide) rfl

theorem settings_outgoing (settings : List (ℕ × ℕ)) (c : Connection) :
    (settings.foldl (fun c (id, val) => c.applySetting id val) c).outgoing = c.outgoing := by
  induction settings generalizing c with
  | nil => rfl
  | cons s settings ih =>
    rw [List.foldl_cons, ih]
    simp only [applySetting]
    split_ifs <;> rfl

theorem quiet_feedFrame (c : Connection) (hdr : FrameHeader) (body : Bytes) :
    Quiet c (c.feedFrame hdr body) := by
  have hseen : Quiet c { c with lastSeenStreamId := max c.lastSeenStreamId hdr.streamId } :=
    .of_eq rfl
  refine hseen.trans ?_
  simp only [feedFrame]
  cases hdr.typ with
  | settings =>
    simp only [feedSettings]
    split_ifs
    · exact .of_eq rfl
    · exact .queue (show FrameType.settings ≠ .data by decide)
        (congrArg (· ++ _) (settings_outgoing _ _))
  | ping =>
    simp only [feedPing]
    split_ifs
    · exact .queue (show FrameType.ping ≠ .data by decide) rfl
    · exact .of_eq rfl
  | windowUpdate =>
    simp only [feedWindowUpdate]
    split_ifs <;> exact .of_eq rfl
  | headers =>
    simp only [feedHeaders]
    split <;> exact .of_eq rfl
  | data =>
    simp only [feedData]
    refine Quiet.trans ?_ (quiet_replenishStream _ _)
    refine Quiet.trans ?_ (quiet_replenishConn _)
    exact .of_eq rfl
  | _ => exact .of_eq rfl

theorem Quiet.queued {a : Act} (h : Quiet c (c.step a)) : ∀ f ∈ queued c a, f.hdr.typ ≠ .data := by
  obtain ⟨fs, hf, hfs⟩ := h
  have hq : Http2.queued c a = fs := by rw [Http2.queued, hf, List.drop_left]
  rwa [hq]

theorem spend_control {fs : List Frame} (h : ∀ f ∈ fs, f.hdr.typ ≠ .data) (k : Credit) :
    fs.foldl Credit.spend k = k := by
  induction fs generalizing k with
  | nil => rfl
  | cons f fs ih =>
    rw [List.foldl_cons, Credit.spend, if_neg (h f List.mem_cons_self)]
    exact ih (fun g hg => h g (List.mem_cons_of_mem f hg)) k

/-! ### The windows are the ledger -/

structure Kept (c : Connection) (k : Credit) : Prop where
  windows : windows c = (k.conn, k.stream, toI32 k.initial)
  initial : 0 ≤ k.initial ∧ k.initial < 2 ^ 32
  conn : 0 ≤ k.conn ∧ k.conn < 2 ^ 31
  stream : ∀ id w, k.stream id = some w → 0 ≤ w ∧ w < 2 ^ 31

namespace Kept

theorem connWindow (h : Kept c k) : c.connSendWindow = k.conn := congrArg Prod.fst h.windows

theorem streamWindow (h : Kept c k) (id : ℕ) :
    (c.streams id).map (·.sendWindow) = k.stream id :=
  congrFun (congrArg (·.2.1) h.windows) id

theorem initialWindow (h : Kept c k) : c.peerInitialWindow = toI32 k.initial :=
  congrArg (·.2.2) h.windows

/-- An act that leaves the windows and the ledger alone. -/
theorem of_same {c' : Connection} (h : Kept c k)
    (hw : Http2.windows c' = Http2.windows c) : Kept c' k :=
  ⟨hw.trans h.windows, h.initial, h.conn, h.stream⟩

theorem openAt {c' : Connection} (h : Kept c k) (id : ℕ) (hpos : 0 ≤ c.peerInitialWindow)
    (hw : Http2.windows c' = (c.connSendWindow,
      Function.update (Http2.windows c).2.1 id (some c.peerInitialWindow),
        c.peerInitialWindow)) : Kept c' (k.openAt id) := by
  have hinit : toI32 k.initial = k.initial := by
    rw [h.initialWindow] at hpos
    exact of_toI32_nonneg h.initial hpos
  refine ⟨?_, h.initial, h.conn, fun i w hi => ?_⟩
  · rw [hw, h.connWindow, h.initialWindow, h.windows, hinit]
    exact Prod.ext rfl (Prod.ext rfl hinit.symm)
  · simp only [Credit.openAt, Function.update_apply] at hi
    split_ifs at hi
    · obtain rfl := Option.some.inj hi
      exact ⟨h.initial.1, hinit ▸ toI32_lt _⟩
    · exact h.stream i w hi

/-- A change of the initial window shifts every stream by what it changes. -/
theorem settings_fold (settings : List (ℕ × ℕ)) (hval : ∀ e ∈ settings, e.2 < 2 ^ 32)
    (c : Connection) (k : Credit) (hinit : c.peerInitialWindow = toI32 k.initial)
    (hrange : 0 ≤ k.initial ∧ k.initial < 2 ^ 32) :
    let c' := settings.foldl (fun c (id, val) => c.applySetting id val) c
    let k' := settings.foldl (fun k (id, val) => k.applySetting id val) k
    c'.streams = c.streams ∧ c'.connSendWindow = c.connSendWindow ∧
      c'.peerInitialWindow = initialAfter c.peerInitialWindow settings ∧
      c'.peerInitialWindow = toI32 k'.initial ∧ (0 ≤ k'.initial ∧ k'.initial < 2 ^ 32) ∧
      k'.conn = k.conn ∧
      ∀ i, k'.stream i = (k.stream i).map (· + (k'.initial - k.initial)) := by
  induction settings generalizing c k with
  | nil => exact ⟨rfl, rfl, rfl, hinit, hrange, rfl, fun i => by simp⟩
  | cons e settings ih =>
    obtain ⟨id, val⟩ := e
    have hv : val < 2 ^ 32 := hval (id, val) List.mem_cons_self
    have hrest : ∀ e ∈ settings, e.2 < 2 ^ 32 := fun e he => hval e (List.mem_cons_of_mem _ he)
    by_cases hid : id = settingInitialWindowSize
    · have hc : c.applySetting id val = { c with peerInitialWindow := toI32 val } := if_pos hid
      have hk : k.applySetting id val = { k with
          initial := val, stream := fun i => (k.stream i).map (· + (val - k.initial)) } :=
        if_pos hid
      have hw : initialAfter c.peerInitialWindow ((id, val) :: settings) =
          initialAfter (toI32 val) settings := by simp [initialAfter, hid]
      have h := ih hrest (c.applySetting id val) (k.applySetting id val) (by rw [hc, hk])
        (by rw [hk]; simp only; omega)
      rw [hw]
      simp only [List.foldl_cons]
      obtain ⟨h₁, h₂, h₃, h₄, h₅, h₆, h₇⟩ := h
      have hshift : ∀ (i : ℕ) (n : ℤ),
          ((k.applySetting id val).stream i).map (· + (n - (k.applySetting id val).initial)) =
            (k.stream i).map (· + (n - k.initial)) := by
        intro i n
        rw [hk]
        dsimp only
        cases k.stream i with
        | none => rfl
        | some w =>
          simp only [Option.map_some, Option.some.injEq]
          omega
      exact ⟨h₁.trans (by rw [hc]), h₂.trans (by rw [hc]), h₃.trans (by rw [hc]), h₄, h₅,
        h₆.trans (by rw [hk]), fun i => (h₇ i).trans (hshift i _)⟩
    · have hc : (c.applySetting id val).streams = c.streams ∧
          (c.applySetting id val).connSendWindow = c.connSendWindow ∧
          (c.applySetting id val).peerInitialWindow = c.peerInitialWindow := by
        simp only [applySetting, if_neg hid]
        split_ifs <;> exact ⟨rfl, rfl, rfl⟩
      have hk : k.applySetting id val = k := if_neg hid
      have hw : initialAfter c.peerInitialWindow ((id, val) :: settings) =
          initialAfter c.peerInitialWindow settings := by simp [initialAfter, hid]
      have h := ih hrest (c.applySetting id val) k (by rw [hc.2.2, hinit]) hrange
      rw [hw]
      simp only [List.foldl_cons, hk]
      obtain ⟨h₁, h₂, h₃, h₄, h₅, h₆, h₇⟩ := h
      exact ⟨h₁.trans hc.1, h₂.trans hc.2.1, h₃.trans (by rw [hc.2.2]), h₄, h₅, h₆, h₇⟩

theorem decodeSettings_lt (body : Bytes) : ∀ e ∈ decodeSettings body, e.2 < 2 ^ 32 := by
  induction body using decodeSettings.induct with
  | case1 a b c d e f body ih =>
    intro x hx
    rw [decodeSettings, List.mem_cons] at hx
    rcases hx with rfl | hx
    · exact beNat_lt [c, d, e, f]
    · exact ih x hx
  | case2 body hshort =>
    intro x hx
    rw [decodeSettings] at hx
    · cases hx
    · exact hshort

theorem settings {hdr : FrameHeader} {body : Bytes} (h : Kept c k)
    (hclear : hdr.flag 0x1 = true ∨ (∀ id, c.streams id = none) ∨
      initialAfter c.peerInitialWindow (decodeSettings body) = c.peerInitialWindow) :
    Kept (c.feedSettings hdr body) (if hdr.flag 0x1 then k
      else (decodeSettings body).foldl (fun k (id, val) => k.applySetting id val) k) := by
  unfold feedSettings
  split_ifs with hack
  · exact h.of_same (windows_congr rfl rfl rfl)
  · obtain ⟨h₁, h₂, h₃, h₄, h₅, h₆, h₇⟩ := settings_fold (decodeSettings body)
      (decodeSettings_lt body) c k h.initialWindow h.initial
    have hsame : ∀ i, (((decodeSettings body).foldl
        (fun k (id, val) => k.applySetting id val) k).stream i) = k.stream i := by
      intro i
      rw [h₇ i]
      rcases hclear.resolve_left hack with hnone | hkeep
      · have : k.stream i = none := by rw [← h.streamWindow i, hnone i]; rfl
        rw [this]
        rfl
      · have heq := toI32_inj h₅ h.initial (h₄.symm.trans (h₃.trans (hkeep.trans h.initialWindow)))
        rw [heq]
        cases k.stream i <;> simp
    refine ⟨?_, h₅, by rw [h₆]; exact h.conn, fun i w hi => h.stream i w (hsame i ▸ hi)⟩
    refine Prod.ext (h₂.trans (h.connWindow.trans h₆.symm)) (Prod.ext (funext fun i => ?_) h₄)
    exact (congrArg (fun f => Option.map (·.sendWindow) (f i)) h₁).trans
      ((h.streamWindow i).trans (hsame i).symm)

theorem windowUpdate {hdr : FrameHeader} {body : Bytes} (h : Kept c k)
    (hclear : 4 ≤ body.length →
      if hdr.streamId = 0 then c.connSendWindow + (beNat (body.take 4) % 2 ^ 31 : ℕ) < 2 ^ 31
      else ∀ s, c.streams hdr.streamId = some s →
        s.sendWindow + (beNat (body.take 4) % 2 ^ 31 : ℕ) < 2 ^ 31) :
    Kept (c.feedWindowUpdate hdr body) (if body.length < 4 then k
      else k.grant hdr.streamId (beNat (body.take 4) % 2 ^ 31)) := by
  simp only [feedWindowUpdate]
  by_cases hshort : body.length < 4
  · rw [if_pos hshort, if_pos hshort]
    exact h
  rw [if_neg hshort, if_neg hshort]
  have hfits := hclear (not_lt.mp hshort)
  set inc : ℕ := beNat (body.take 4) % 2 ^ 31
  have hinc : toI32 inc = inc := toI32_of_range (by omega) (by omega)
  have hadd : ∀ w : ℤ, 0 ≤ w → w + inc < 2 ^ 31 → saturatingAdd w inc = w + inc := by
    intro w _ hw
    rw [saturatingAdd, hinc, min_eq_left (by omega)]
  by_cases hid : hdr.streamId = 0
  · rw [if_pos hid] at hfits ⊢
    rw [h.connWindow] at hfits ⊢
    have hsum := hadd k.conn h.conn.1 hfits
    have hw : Http2.windows { c with connSendWindow := saturatingAdd k.conn inc } =
        (k.conn + inc, k.stream, toI32 k.initial) := by
      rw [hsum]
      have hrest : (Http2.windows c).2 = (k.stream, toI32 k.initial) :=
        congrArg Prod.snd h.windows
      exact Prod.ext rfl hrest
    rw [Credit.grant, if_pos hid]
    refine ⟨hw, h.initial, ?_, h.stream⟩
    have hpos : 0 ≤ k.conn := h.conn.1
    have hsum₀ : 0 ≤ k.conn + inc := by omega
    exact ⟨hsum₀, hfits⟩
  · rw [if_neg hid] at hfits ⊢
    rw [Credit.grant, if_neg hid]
    have hone : ∀ i, ((c.modifyStream hdr.streamId fun s =>
          { s with sendWindow := saturatingAdd s.sendWindow inc }).streams i).map
            (·.sendWindow) =
        Function.update k.stream hdr.streamId ((k.stream hdr.streamId).map (· + inc)) i := by
      intro i
      by_cases hi : i = hdr.streamId
      · subst hi
        have hs := h.streamWindow hdr.streamId
        cases hst : c.streams hdr.streamId with
        | none => simp [modifyStream, hst, ← hs]
        | some s =>
          rw [hst] at hs
          have hpos := (h.stream hdr.streamId s.sendWindow hs.symm).1
          simp [modifyStream, hst, ← hs, hadd s.sendWindow hpos (hfits s hst)]
      · simp [modifyStream, hi, h.streamWindow i]
    refine ⟨?_, h.initial, h.conn, fun i w hi => ?_⟩
    · exact Prod.ext h.connWindow (Prod.ext (funext hone) h.initialWindow)
    · simp only [Function.update_apply] at hi
      split_ifs at hi with heq
      · obtain ⟨w₀, hw₀, rfl⟩ := Option.map_eq_some_iff.mp hi
        have hs := h.streamWindow hdr.streamId
        rw [hw₀] at hs
        obtain ⟨s, hst, rfl⟩ := Option.map_eq_some_iff.mp hs
        have := (h.stream hdr.streamId s.sendWindow hw₀).1
        have := hfits s hst
        omega
      · exact h.stream i w hi

theorem headers {hdr : FrameHeader} {body : Bytes} (h : Kept c k)
    (hclear : c.streams hdr.streamId = none → 0 ≤ c.peerInitialWindow) :
    Kept (c.feedHeaders hdr body)
      (if k.stream hdr.streamId = none then k.openAt hdr.streamId else k) := by
  have hwin : Http2.windows (c.feedHeaders hdr body) = (c.connSendWindow,
      Function.update (Http2.windows c).2.1 hdr.streamId
        (some ((c.streams hdr.streamId).getD
          (Stream.new hdr.streamId c.peerInitialWindow)).sendWindow), c.peerInitialWindow) := by
    simp only [feedHeaders]
    cases headersPayload hdr body with
    | none => exact windows_insertStream _ _
    | some payload =>
      refine (windows_insertStream _ _).trans ?_
      rw [windows_endStream]
  have hs := h.streamWindow hdr.streamId
  cases hst : c.streams hdr.streamId with
  | none =>
    rw [hst] at hs hwin
    have hnone : k.stream hdr.streamId = none := hs.symm
    rw [if_pos hnone]
    exact h.openAt hdr.streamId (hclear hst) hwin
  | some s =>
    rw [hst] at hs hwin
    rw [if_neg (by rw [← hs]; exact nofun)]
    refine h.of_same (hwin.trans (Prod.ext rfl (Prod.ext ?_ rfl)))
    refine Function.update_eq_self_iff.mpr ?_
    show some s.sendWindow = (c.streams hdr.streamId).map (·.sendWindow)
    rw [hst]
    rfl

theorem feed {hdr : FrameHeader} {body : Bytes} (h : Kept c k)
    (hclear : Clear c (.feedFrame hdr body)) :
    Kept (c.feedFrame hdr body) (k.receive c (.feedFrame hdr body)) := by
  have hseen : Kept { c with lastSeenStreamId := max c.lastSeenStreamId hdr.streamId } k :=
    h.of_same (windows_congr rfl rfl rfl)
  simp only [feedFrame, Credit.receive, Clear] at hclear ⊢
  cases htyp : hdr.typ with
  | settings =>
    rw [htyp] at hclear
    exact hseen.settings hclear
  | windowUpdate =>
    rw [htyp] at hclear
    exact hseen.windowUpdate hclear
  | headers =>
    rw [htyp] at hclear
    exact hseen.headers hclear
  | ping =>
    refine hseen.of_same ?_
    simp only [feedPing]
    split_ifs
    · exact windows_congr rfl rfl rfl
    · rfl
  | continuation => exact hseen.of_same (windows_modifyStream _ fun _ => rfl)
  | data => exact hseen.of_same (windows_feedData _ _)
  | rstStream => exact hseen.of_same (windows_modifyStream _ fun _ => rfl)
  | goaway => exact hseen.of_same (windows_congr rfl rfl rfl)
  | priority => exact hseen
  | pushPromise => exact hseen
  | unknown byte => exact hseen

end Kept

/-- A clear send either queues nothing or one DATA frame within all its credits. -/
theorem sendData_queued {id : ℕ} {data : Bytes} {fin : Bool} (h : Kept c k)
    (hclear : Clear c (.sendData id data fin)) :
    (c.step (.sendData id data fin) = c ∧ queued c (.sendData id data fin) = []) ∨
    ∃ w, k.stream id = some w ∧ (data.length : ℤ) ≤ w ∧ (data.length : ℤ) ≤ k.conn ∧
      data.length ≤ c.peerMaxFrameSize ∧
      queued c (.sendData id data fin) = [frame .data (if fin then 0x1 else 0x0) id data] ∧
      windows (c.step (.sendData id data fin)) = (k.conn - data.length,
        Function.update k.stream id (some (w - data.length)), toI32 k.initial) := by
  by_cases hrefuse : c.connSendWindow < toI32 data.length
  · left
    have hsame : c.step (.sendData id data fin) = c := by
      simp only [step, sendData]
      rw [if_pos hrefuse]
    exact ⟨hsame, by rw [queued, hsame, List.drop_length]⟩
  · right
    obtain ⟨hframe, s, hs, hfits⟩ := hclear.resolve_left hrefuse
    have hstream := h.streamWindow id
    rw [hs] at hstream
    have hw : k.stream id = some s.sendWindow := hstream.symm
    have hlt := (h.stream id _ hw).2
    have hneed : toI32 data.length = data.length := toI32_of_range (by omega) (by omega)
    have hconn : (data.length : ℤ) ≤ k.conn := by
      have := not_lt.mp hrefuse
      rwa [hneed, h.connWindow] at this
    have hstep : c.step (.sendData id data fin) =
        ({ c with connSendWindow := toI32 (c.connSendWindow - toI32 data.length) }.queue
          (frame .data (if fin then 0x1 else 0x0) id data)).modifyStream id fun s =>
            { s with
              sendWindow := toI32 (s.sendWindow - toI32 data.length)
              eofLocal := s.eofLocal || fin
              state := if fin then s.state.endLocal else s.state } := by
      simp only [step, sendData]
      rw [if_neg hrefuse]
    have hnew : ∀ n : ℤ, (data.length : ℤ) ≤ n → n < 2 ^ 31 →
        toI32 (n - toI32 data.length) = n - data.length := fun n h₁ h₂ => by
      rw [hneed, toI32_of_range] <;> omega
    have hrange : k.conn < 2 ^ 31 := h.conn.2
    refine ⟨s.sendWindow, hw, hfits, hconn, hframe, ?_, ?_⟩
    · rw [queued, hstep]
      exact List.drop_left
    · rw [hstep]
      simp only [windows, modifyStream, Connection.queue, Prod.mk.injEq]
      refine ⟨?_, funext fun i => ?_, h.initialWindow⟩
      · rw [h.connWindow]
        exact hnew k.conn hconn hrange
      · by_cases hi : i = id
        · subst hi
          simp [hs, hnew s.sendWindow hfits hlt]
        · simp [hi, h.streamWindow i]

theorem kept_step {a : Act} (h : Kept c k) (hclear : Clear c a) :
    Kept (c.step a) ((queued c a).foldl Credit.spend (k.receive c a)) := by
  cases a with
  | openStream =>
    have hquiet : Quiet c (c.step .openStream) := .of_eq rfl
    rw [spend_control hquiet.queued]
    refine h.openAt c.nextStreamId hclear ((windows_insertStream _ _).trans ?_)
    exact Prod.ext rfl (Prod.ext rfl rfl)
  | sendHeaders id hs fin =>
    have hquiet : Quiet c (c.step (.sendHeaders id hs fin)) :=
      .queue (show FrameType.headers ≠ .data by decide) rfl
    rw [spend_control hquiet.queued]
    refine h.of_same ((windows_modifyStream _ ?_).trans (windows_congr rfl rfl rfl))
    exact fun _ => rfl
  | sendData id data fin =>
    rcases sendData_queued h hclear with ⟨hsame, hnone⟩ | ⟨w, hw, hfits, hconn, -, hq, hwin⟩
    · rw [hsame, hnone]
      exact h
    · rw [hq]
      have hspend : [frame .data (if fin then 0x1 else 0x0) id data].foldl Credit.spend
          (k.receive c (.sendData id data fin)) = { k with
            conn := k.conn - data.length
            stream := Function.update k.stream id (some (w - data.length)) } := by
        simp [Credit.receive, Credit.spend, frame, hw]
      rw [hspend]
      have hleft : 0 ≤ k.conn - data.length ∧ k.conn - data.length < 2 ^ 31 := by
        have := h.conn
        omega
      refine ⟨hwin, h.initial, hleft, fun i w' hi => ?_⟩
      simp only [Function.update_apply] at hi
      split_ifs at hi
      · obtain rfl := Option.some.inj hi
        have := h.stream id w hw
        omega
      · exact h.stream i w' hi
  | feedFrame hdr body =>
    have hquiet : Quiet c (c.step (.feedFrame hdr body)) := quiet_feedFrame c hdr body
    rw [spend_control hquiet.queued]
    exact h.feed hclear

theorem kept_start : Kept newClient Credit.start :=
  ⟨rfl, by decide, by decide, nofun⟩

end Conclave.Net.Http2
