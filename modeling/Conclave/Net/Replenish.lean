import Conclave.Net.Credit

/-! Receive windows. A DATA frame takes its length out of the window of the connection
and of its stream, and a window that is less than half full is filled up again. Checked
arithmetic has no result for a frame that is longer than one of the two windows: the
rest of a negative window is taken as an unsigned number. -/

namespace Conclave.Net.Http2

open Lib

/-! ### Checked arithmetic -/

abbrev IsI32 (n : ℤ) : Prop := -2 ^ 31 ≤ n ∧ n < 2 ^ 31

/-- The `i32` with this value, none on overflow. -/
def checkedI32 (n : ℤ) : Option ℤ := if IsI32 n then some n else none

/-- The `u32` with this value, none on overflow. -/
def checkedU32 (n : ℤ) : Option ℕ := if 0 ≤ n ∧ n < 2 ^ 32 then some n.toNat else none

namespace Connection

def replenishConnChecked (c : Connection) : Option Connection :=
  if c.connRecvWindow < 32768 then do
    let inc ← checkedU32 (65535 - toU32 c.connRecvWindow)
    let window ← checkedI32 (c.connRecvWindow + toI32 inc)
    return { c.queue (buildWindowUpdate 0 inc) with connRecvWindow := window }
  else some c

def replenishStreamChecked (c : Connection) (id : ℕ) : Option Connection :=
  match c.streams id with
  | none => some c
  | some s =>
    if s.recvWindow < 32768 then do
      let inc ← checkedU32 (65535 - toU32 s.recvWindow)
      let window ← checkedI32 (s.recvWindow + toI32 inc)
      return (c.queue (buildWindowUpdate id inc)).insertStream id { s with recvWindow := window }
    else some c

/-- The part of `feedData` before a window is filled up. -/
def chargeChecked (c : Connection) (hdr : FrameHeader) (body : Bytes) : Option Connection := do
  let len := toI32 body.length
  let window ← checkedI32 (c.connRecvWindow - len)
  let c := { c with connRecvWindow := window }
  match c.streams hdr.streamId with
  | none => some c
  | some s => do
    let window ← checkedI32 (s.recvWindow - len)
    return c.insertStream hdr.streamId ({ s with
      dataBuf := s.dataBuf ++ dataPayload hdr body, recvWindow := window }.endStream
        (hdr.flag 0x1))

def feedDataChecked (c : Connection) (hdr : FrameHeader) (body : Bytes) : Option Connection := do
  let c ← c.chargeChecked hdr body
  let c ← c.replenishConnChecked
  c.replenishStreamChecked hdr.streamId

/-- `feedFrame` in checked arithmetic. The other frames add only what saturates and
subtract only behind a comparison. -/
def feedFrameChecked (c : Connection) (hdr : FrameHeader) (body : Bytes) : Option Connection :=
  if hdr.typ = .data then
    { c with lastSeenStreamId := max c.lastSeenStreamId hdr.streamId }.feedDataChecked hdr body
  else some (c.feedFrame hdr body)

end Connection

open Connection

/-! ### Exact replenishment -/

/-- What a WINDOW_UPDATE frame carries. -/
def Frame.increment (f : Frame) : ℕ := beNat f.body

/-- The windows that a DATA frame has taken its length from, with their stream. -/
def charged (c : Connection) (hdr : FrameHeader) (body : Bytes) : List (ℕ × ℤ) :=
  (0, c.connRecvWindow - body.length) ::
    (c.streams hdr.streamId).toList.map fun s => (hdr.streamId, s.recvWindow - body.length)

/-- A window update that fills up a window of a stream. -/
structure Refills (f : Frame) (w : ℕ × ℤ) : Prop where
  stream : f.hdr.streamId = w.1
  rest : (f.increment : ℤ) = 65535 - w.2
  range : 1 ≤ f.increment ∧ f.increment ≤ 2 ^ 31 - 1

/-- No overflow, every window update is for a window that the frame was charged to, and
after a DATA frame its windows are half full. -/
structure Replenished (c : Connection) (hdr : FrameHeader) (body : Bytes) : Prop where
  checked : c.feedFrameChecked hdr body = some (c.feedFrame hdr body)
  updates : ∃ ws, ws.Sublist (if hdr.typ = .data then charged c hdr body else []) ∧
    List.Forall₂ Refills
      ((queued c (.feedFrame hdr body)).filter (·.hdr.typ = .windowUpdate)) ws
  conn : hdr.typ = .data → 32768 ≤ (c.feedFrame hdr body).connRecvWindow
  stream : hdr.typ = .data →
    ∀ s, (c.feedFrame hdr body).streams hdr.streamId = some s → 32768 ≤ s.recvWindow

/-- A DATA frame is no longer than the window of the connection, nor than that of its
stream if there is one. -/
def Affordable (c : Connection) (hdr : FrameHeader) (body : Bytes) : Prop :=
  hdr.typ = .data → (body.length : ℤ) ≤ c.connRecvWindow ∧
    ∀ s, c.streams hdr.streamId = some s → (body.length : ℤ) ≤ s.recvWindow

/-- A condition on the frames that are fed. -/
def Fed (ok : Connection → FrameHeader → Bytes → Prop) (c : Connection) : Act → Prop
  | .feedFrame hdr body => ok c hdr body
  | _ => True

/-! ### Filling up -/

theorem isI32_toI32 (n : ℤ) : IsI32 (toI32 n) := by
  have := Int.le_bmod (x := n) (m := 2 ^ 32) (by norm_num)
  have := toI32_lt n
  unfold IsI32 toI32 at *
  omega

theorem toI32_of_isI32 {n : ℤ} (h : IsI32 n) : toI32 n = n := by
  unfold toI32
  rw [Int.bmod_eq_of_le] <;> omega

variable {w : ℤ}

theorem toU32_rest (h₀ : 0 ≤ w) (h₁ : w < 32768) :
    65535 - (toU32 w : ℤ) = 65535 - w ∧ 0 ≤ 65535 - w ∧ 65535 - w < 2 ^ 16 := by
  unfold toU32
  omega

theorem checkedU32_rest (h₀ : 0 ≤ w) (h₁ : w < 32768) :
    checkedU32 (65535 - toU32 w) = some (65535 - w).toNat := by
  obtain ⟨heq, hlo, hhi⟩ := toU32_rest h₀ h₁
  rw [heq, checkedU32, if_pos ⟨hlo, by omega⟩]

/-- The rest of a negative window is far below zero. -/
theorem checkedU32_negative (h : IsI32 w) (hneg : w < 0) :
    checkedU32 (65535 - toU32 w) = none := by
  refine if_neg fun hr => ?_
  unfold toU32 at hr
  omega

theorem replenish_rest (h₀ : 0 ≤ w) (h₁ : w < 32768) :
    replenish w = some (65535 - w).toNat := by
  obtain ⟨heq, hlo, hhi⟩ := toU32_rest h₀ h₁
  rw [replenish, if_pos h₁, heq, toU32, Int.emod_eq_of_lt hlo (by omega)]

theorem toI32_rest (h₀ : 0 ≤ w) (h₁ : w < 32768) : w + toI32 ((65535 - w).toNat : ℤ) = 65535 := by
  rw [Int.toNat_of_nonneg (by omega), toI32_of_isI32] <;> omega

namespace Connection

variable {c : Connection} {id : ℕ}

theorem replenishConn_rest (h₀ : 0 ≤ c.connRecvWindow) (h₁ : c.connRecvWindow < 32768) :
    c.replenishConn = { c.queue (buildWindowUpdate 0 (65535 - c.connRecvWindow).toNat) with
      connRecvWindow := 65535 } := by
  have h : toI32 (c.connRecvWindow + toI32 ((65535 - c.connRecvWindow).toNat : ℤ)) = 65535 := by
    rw [toI32_rest h₀ h₁]
    rfl
  rw [replenishConn, replenish_rest h₀ h₁]
  simp only [h]

theorem replenishConn_full (h : ¬ c.connRecvWindow < 32768) : c.replenishConn = c := by
  rw [replenishConn, replenish, if_neg h]

theorem replenishConnChecked_of_nonneg (h : 0 ≤ c.connRecvWindow) :
    c.replenishConnChecked = some c.replenishConn := by
  unfold replenishConnChecked
  split_ifs with hlt
  · rw [checkedU32_rest h hlt, replenishConn_rest h hlt]
    simp only [Option.bind_eq_bind, Option.bind_some, toI32_rest h hlt]
    rfl
  · rw [replenishConn_full hlt]

theorem replenishConnChecked_of_neg (hr : IsI32 c.connRecvWindow) (h : c.connRecvWindow < 0) :
    c.replenishConnChecked = none := by
  rw [replenishConnChecked, if_pos (by omega), checkedU32_negative hr h]
  rfl

variable {s : Stream}

theorem replenishStream_rest (hs : c.streams id = some s) (h₀ : 0 ≤ s.recvWindow)
    (h₁ : s.recvWindow < 32768) :
    c.replenishStream id = (c.queue (buildWindowUpdate id (65535 - s.recvWindow).toNat)).insertStream
      id { s with recvWindow := 65535 } := by
  have h : toI32 (s.recvWindow + toI32 ((65535 - s.recvWindow).toNat : ℤ)) = 65535 := by
    rw [toI32_rest h₀ h₁]
    rfl
  rw [replenishStream, hs, Option.bind_some, replenish_rest h₀ h₁]
  simp only [modifyStream, insertStream, queue, hs, Option.map_some, h]

theorem replenishStream_full (h : ∀ s, c.streams id = some s → ¬ s.recvWindow < 32768) :
    c.replenishStream id = c := by
  cases hs : c.streams id with
  | none => rw [replenishStream, hs, Option.bind_none]
  | some s => rw [replenishStream, hs, Option.bind_some, replenish, if_neg (h s hs)]

theorem replenishStreamChecked_of_nonneg (h : ∀ s, c.streams id = some s → 0 ≤ s.recvWindow) :
    c.replenishStreamChecked id = some (c.replenishStream id) := by
  unfold replenishStreamChecked
  cases hs : c.streams id with
  | none => rw [replenishStream_full (by rw [hs]; nofun)]
  | some s =>
    dsimp only
    split_ifs with hlt
    · rw [checkedU32_rest (h s hs) hlt, replenishStream_rest hs (h s hs) hlt]
      simp only [Option.bind_eq_bind, Option.bind_some, toI32_rest (h s hs) hlt]
      rfl
    · rw [replenishStream_full]
      intro s' hs'
      obtain rfl := Option.some.inj (hs.symm.trans hs')
      exact hlt

theorem replenishStreamChecked_of_neg (hs : c.streams id = some s) (hr : IsI32 s.recvWindow)
    (h : s.recvWindow < 0) : c.replenishStreamChecked id = none := by
  rw [replenishStreamChecked, hs]
  dsimp only
  rw [if_pos (by omega), checkedU32_negative hr h]
  rfl

/-! ### Charging a frame -/

def charge (c : Connection) (hdr : FrameHeader) (body : Bytes) : Connection :=
  { c with connRecvWindow := toI32 (c.connRecvWindow - toI32 body.length) }.modifyStream
    hdr.streamId fun s => { s with
      dataBuf := s.dataBuf ++ dataPayload hdr body
      recvWindow := toI32 (s.recvWindow - toI32 body.length) }.endStream (hdr.flag 0x1)

variable {hdr : FrameHeader} {body : Bytes}

theorem feedData_eq : c.feedData hdr body =
    (c.charge hdr body).replenishConn.replenishStream hdr.streamId := rfl

theorem checkedI32_eq_some {n m : ℤ} (h : checkedI32 n = some m) : IsI32 n ∧ m = n ∧ toI32 n = n := by
  unfold checkedI32 at h
  split_ifs at h with hr
  exact ⟨hr, (Option.some.inj h).symm, toI32_of_isI32 hr⟩

theorem checkedI32_of_isI32 {n : ℤ} (h : IsI32 n) : checkedI32 n = some n := if_pos h

theorem insertStream_same (c : Connection) (id : ℕ) (s : Stream) :
    (c.insertStream id s).streams id = some s := Function.update_self _ _ _

theorem modifyStream_same (c : Connection) (id : ℕ) (f : Stream → Stream) :
    (c.modifyStream id f).streams id = (c.streams id).map f := Function.update_self _ _ _

theorem charge_of_none (h : c.streams hdr.streamId = none) : c.charge hdr body =
    { c with connRecvWindow := toI32 (c.connRecvWindow - toI32 body.length) } := by
  have hs : Function.update c.streams hdr.streamId none = c.streams :=
    Function.update_eq_self_iff.mpr h.symm
  simp only [charge, modifyStream, h, Option.map_none, hs]

theorem charge_of_some (h : c.streams hdr.streamId = some s) : c.charge hdr body =
    { c with connRecvWindow := toI32 (c.connRecvWindow - toI32 body.length) }.insertStream
      hdr.streamId ({ s with
        dataBuf := s.dataBuf ++ dataPayload hdr body
        recvWindow := toI32 (s.recvWindow - toI32 body.length) }.endStream (hdr.flag 0x1)) := by
  simp only [charge, modifyStream, insertStream, h, Option.map_some]

/-- Charged without overflow, every window is its old value less the length. -/
theorem chargeChecked_eq_some {c' : Connection} (h : c.chargeChecked hdr body = some c') :
    c' = c.charge hdr body ∧ IsI32 c'.connRecvWindow ∧
    c'.connRecvWindow = c.connRecvWindow - toI32 body.length ∧
    (c'.streams hdr.streamId).map (·.recvWindow) =
      (c.streams hdr.streamId).map (·.recvWindow - toI32 body.length) ∧
    ∀ s, c'.streams hdr.streamId = some s → IsI32 s.recvWindow := by
  obtain ⟨w, hw, h⟩ := Option.bind_eq_some_iff.mp h
  obtain ⟨hr, rfl, hconn⟩ := checkedI32_eq_some hw
  cases hs : c.streams hdr.streamId with
  | none =>
    simp only [hs] at h
    obtain rfl := Option.some.inj h
    exact ⟨by rw [charge_of_none hs, hconn], hr, rfl, by simp only [hs, Option.map_none],
      fun t ht => by rw [hs] at ht; cases ht⟩
  | some s =>
    simp only [hs] at h
    obtain ⟨v, hv, h⟩ := Option.bind_eq_some_iff.mp h
    obtain ⟨hr', rfl, hstream⟩ := checkedI32_eq_some hv
    obtain rfl := Option.some.inj h
    refine ⟨by rw [charge_of_some hs, hconn, hstream], hr, rfl, ?_, fun t ht => ?_⟩
    · rw [insertStream_same]
      cases hdr.flag 0x1 <;> rfl
    · obtain rfl := Option.some.inj ((insertStream_same _ _ _).symm.trans ht)
      cases hdr.flag 0x1 <;> exact hr'

theorem chargeChecked_of_isI32 (hconn : IsI32 (c.connRecvWindow - toI32 body.length))
    (hstream : ∀ s, c.streams hdr.streamId = some s → IsI32 (s.recvWindow - toI32 body.length)) :
    ∃ c', c.chargeChecked hdr body = some c' := by
  unfold chargeChecked
  simp only [checkedI32_of_isI32 hconn, Option.bind_eq_bind, Option.bind_some]
  cases hs : c.streams hdr.streamId with
  | none => exact ⟨_, rfl⟩
  | some s =>
    simp only [checkedI32_of_isI32 (hstream s hs), Option.bind_some]
    exact ⟨_, rfl⟩

/-! ### After filling up -/

theorem replenishConn_streams (c : Connection) : c.replenishConn.streams = c.streams := by
  unfold replenishConn
  split <;> rfl

theorem replenishStream_connRecvWindow (c : Connection) (id : ℕ) :
    (c.replenishStream id).connRecvWindow = c.connRecvWindow := by
  unfold replenishStream
  split <;> rfl

theorem replenishConn_half (h : 0 ≤ c.connRecvWindow) : 32768 ≤ c.replenishConn.connRecvWindow := by
  by_cases hlt : c.connRecvWindow < 32768
  · rw [replenishConn_rest h hlt]
    show (32768 : ℤ) ≤ 65535
    norm_num
  · rw [replenishConn_full hlt]
    omega

theorem replenishStream_half (h : ∀ s, c.streams id = some s → 0 ≤ s.recvWindow)
    (hs : (c.replenishStream id).streams id = some s) : 32768 ≤ s.recvWindow := by
  by_cases hlt : ∃ s₀, c.streams id = some s₀ ∧ s₀.recvWindow < 32768
  · obtain ⟨s₀, hs₀, hlt⟩ := hlt
    rw [replenishStream_rest hs₀ (h s₀ hs₀) hlt] at hs
    obtain rfl := Option.some.inj ((insertStream_same _ _ _).symm.trans hs)
    show (32768 : ℤ) ≤ 65535
    norm_num
  · push Not at hlt
    rw [replenishStream_full fun s hs => not_lt.mpr (hlt s hs)] at hs
    exact hlt s hs

theorem refills_rest (id : ℕ) (h₀ : 0 ≤ w) (h₁ : w < 32768) :
    Refills (buildWindowUpdate id (65535 - w).toNat) (id, w) := by
  have hinc : (buildWindowUpdate id (65535 - w).toNat).increment = (65535 - w).toNat := by
    show beNat (toBe 4 ((65535 - w).toNat % 2 ^ 31)) = _
    rw [beNat_toBe]
    omega
  exact ⟨rfl, by rw [hinc]; omega, by rw [hinc]; omega⟩

/-- The updates between two queues, each for one of the windows in order. -/
def Updates (c c' : Connection) (windows : List (ℕ × ℤ)) : Prop :=
  ∃ us ws, c'.outgoing = c.outgoing ++ us ∧ (∀ f ∈ us, f.hdr.typ = .windowUpdate) ∧
    ws.Sublist windows ∧ List.Forall₂ Refills us ws

theorem Updates.of_eq {c' : Connection} (h : c'.outgoing = c.outgoing) (ws : List (ℕ × ℤ)) :
    Updates c c' ws :=
  ⟨[], [], by rw [h, List.append_nil], nofun, List.nil_sublist ws, .nil⟩

theorem Updates.one {c' : Connection} {id : ℕ} (h₀ : 0 ≤ w) (h₁ : w < 32768)
    (h : c'.outgoing = c.outgoing ++ [buildWindowUpdate id (65535 - w).toNat]) :
    Updates c c' [(id, w)] :=
  ⟨_, _, h, fun _ hf => List.mem_singleton.mp hf ▸ rfl, List.Sublist.refl _,
    .cons (refills_rest id h₀ h₁) .nil⟩

theorem Updates.trans {c₁ c₂ : Connection} {ws₁ ws₂ : List (ℕ × ℤ)} (h₁ : Updates c c₁ ws₁)
    (h₂ : Updates c₁ c₂ ws₂) : Updates c c₂ (ws₁ ++ ws₂) := by
  obtain ⟨us, vs, hq, ht, hs, hf⟩ := h₁
  obtain ⟨us', vs', hq', ht', hs', hf'⟩ := h₂
  refine ⟨us ++ us', vs ++ vs', by rw [hq', hq, List.append_assoc], fun f hmem => ?_,
    hs.append hs', List.rel_append hf hf'⟩
  rcases List.mem_append.mp hmem with h | h
  · exact ht f h
  · exact ht' f h

theorem replenishConn_updates (h : 0 ≤ c.connRecvWindow) :
    Updates c c.replenishConn [(0, c.connRecvWindow)] := by
  by_cases hlt : c.connRecvWindow < 32768
  · exact .one h hlt (by rw [replenishConn_rest h hlt]; rfl)
  · exact .of_eq (by rw [replenishConn_full hlt]) _

theorem replenishStream_updates (h : ∀ s, c.streams id = some s → 0 ≤ s.recvWindow) :
    Updates c (c.replenishStream id)
      ((c.streams id).toList.map fun s => (id, s.recvWindow)) := by
  by_cases hlt : ∃ s, c.streams id = some s ∧ s.recvWindow < 32768
  · obtain ⟨s, hs, hlt⟩ := hlt
    rw [hs]
    exact .one (h s hs) hlt (by rw [replenishStream_rest hs (h s hs) hlt]; rfl)
  · push Not at hlt
    exact .of_eq (by rw [replenishStream_full fun s hs => not_lt.mpr (hlt s hs)]) _

/-! ### One frame -/

/-- Every receive window is an `i32`, and so is the one a new stream gets. -/
structure InRange (c : Connection) : Prop where
  conn : IsI32 c.connRecvWindow
  initial : IsI32 c.peerInitialWindow
  stream : ∀ id s, c.streams id = some s → IsI32 s.recvWindow

theorem toI32_length (hlen : body.length < 2 ^ 31) : toI32 body.length = body.length :=
  toI32_of_isI32 (by unfold IsI32; omega)

/-- Without overflow the two windows had room for the frame. -/
theorem feedDataChecked_affordable {c' : Connection} (hlen : body.length < 2 ^ 31)
    (h : c.feedDataChecked hdr body = some c') :
    (body.length : ℤ) ≤ c.connRecvWindow ∧
      ∀ s, c.streams hdr.streamId = some s → (body.length : ℤ) ≤ s.recvWindow := by
  obtain ⟨c₁, h₁, h⟩ := Option.bind_eq_some_iff.mp h
  obtain ⟨c₂, h₂, h₃⟩ := Option.bind_eq_some_iff.mp h
  obtain ⟨-, hr, hconn, hstream, hrs⟩ := chargeChecked_eq_some h₁
  rw [toI32_length hlen] at hconn hstream
  have hpos : 0 ≤ c₁.connRecvWindow := by
    by_contra hneg
    rw [replenishConnChecked_of_neg hr (not_le.mp hneg)] at h₂
    cases h₂
  rw [replenishConnChecked_of_nonneg hpos] at h₂
  obtain rfl := Option.some.inj h₂
  refine ⟨by omega, fun s hs => ?_⟩
  rw [hs] at hstream
  obtain ⟨s₁, hs₁, hw⟩ := Option.map_eq_some_iff.mp hstream
  dsimp only at hw
  by_contra hneg
  rw [replenishStreamChecked_of_neg ((congrFun (replenishConn_streams c₁) _).trans hs₁)
    (hrs s₁ hs₁) (by omega)] at h₃
  cases h₃

/-- With room for the frame, nothing overflows and the windows are filled up. -/
theorem feedData_spec (hin : InRange c) (hconn : (body.length : ℤ) ≤ c.connRecvWindow)
    (hstream : ∀ s, c.streams hdr.streamId = some s → (body.length : ℤ) ≤ s.recvWindow) :
    c.feedDataChecked hdr body = some (c.feedData hdr body) ∧
    Updates c (c.feedData hdr body) (charged c hdr body) ∧
    32768 ≤ (c.feedData hdr body).connRecvWindow ∧
    ∀ s, (c.feedData hdr body).streams hdr.streamId = some s → 32768 ≤ s.recvWindow := by
  have hrange := hin.conn.2
  have hn : toI32 body.length = body.length := toI32_length (by omega)
  have hroom : ∀ {w : ℤ}, IsI32 w → (body.length : ℤ) ≤ w → IsI32 (w - toI32 body.length) := by
    intro w hw hle
    rw [hn]
    unfold IsI32 at *
    omega
  obtain ⟨c₁, h₁⟩ := chargeChecked_of_isI32 (hroom hin.conn hconn)
    fun s hs => hroom (hin.stream _ s hs) (hstream s hs)
  obtain ⟨hcharge, -, hconn₁, hstream₁, -⟩ := chargeChecked_eq_some h₁
  rw [hn] at hconn₁ hstream₁
  have hpos : 0 ≤ c₁.connRecvWindow := by omega
  have hpos₂ : ∀ s, c₁.replenishConn.streams hdr.streamId = some s → 0 ≤ s.recvWindow := by
    intro s hs
    rw [replenishConn_streams] at hs
    rw [hs] at hstream₁
    obtain ⟨s₀, hs₀, hw⟩ := Option.map_eq_some_iff.mp hstream₁.symm
    have hfits := hstream s₀ hs₀
    dsimp only at hw
    omega
  have hws : charged c hdr body = [(0, c₁.connRecvWindow)] ++
      (c₁.replenishConn.streams hdr.streamId).toList.map fun s => (hdr.streamId, s.recvWindow) := by
    rw [charged, hconn₁, replenishConn_streams]
    refine congrArg (_ :: ·) ?_
    cases hs : c.streams hdr.streamId <;> cases hs₁ : c₁.streams hdr.streamId <;>
      simp_all
  rw [feedData_eq, ← hcharge]
  refine ⟨?_, ?_, ?_, fun s hs => replenishStream_half hpos₂ hs⟩
  · simp only [feedDataChecked, h₁, Option.bind_eq_bind, Option.bind_some,
      replenishConnChecked_of_nonneg hpos, replenishStreamChecked_of_nonneg hpos₂]
  · rw [hws]
    have hsame : Updates c c₁ [] := .of_eq (by rw [hcharge]; rfl) []
    exact (hsame.trans (replenishConn_updates hpos)).trans (replenishStream_updates hpos₂)
  · rw [replenishStream_connRecvWindow]
    exact replenishConn_half hpos

/-! ### Every window stays an `i32` -/

namespace InRange

theorem of_eq {c' : Connection} (h : InRange c) (hconn : c'.connRecvWindow = c.connRecvWindow)
    (hinit : c'.peerInitialWindow = c.peerInitialWindow) (hstreams : c'.streams = c.streams) :
    InRange c' :=
  ⟨hconn ▸ h.conn, hinit ▸ h.initial, hstreams ▸ h.stream⟩

theorem insertStream (h : InRange c) (id : ℕ) (hs : IsI32 s.recvWindow) :
    InRange (c.insertStream id s) where
  conn := h.conn
  initial := h.initial
  stream i t ht := by
    by_cases hi : i = id
    · subst hi
      obtain rfl := Option.some.inj ((insertStream_same _ _ _).symm.trans ht)
      exact hs
    · exact h.stream i t ((Function.update_of_ne hi _ _).symm.trans ht)

theorem modifyStream (h : InRange c) (id : ℕ) {f : Stream → Stream}
    (hf : ∀ s, IsI32 s.recvWindow → IsI32 (f s).recvWindow) : InRange (c.modifyStream id f) where
  conn := h.conn
  initial := h.initial
  stream i t ht := by
    by_cases hi : i = id
    · subst hi
      obtain ⟨s, hs, rfl⟩ := Option.map_eq_some_iff.mp ((modifyStream_same _ _ _).symm.trans ht)
      exact hf s (h.stream i s hs)
    · exact h.stream i t ((Function.update_of_ne hi _ _).symm.trans ht)

theorem endStream_recvWindow (s : Stream) (fin : Bool) :
    (s.endStream fin).recvWindow = s.recvWindow := by cases fin <;> rfl

theorem replenishConn (h : InRange c) : InRange c.replenishConn := by
  unfold Connection.replenishConn
  split
  · exact h
  · exact ⟨isI32_toI32 _, h.initial, h.stream⟩

theorem replenishStream (h : InRange c) (id : ℕ) : InRange (c.replenishStream id) := by
  unfold Connection.replenishStream
  split
  · exact h
  · refine .modifyStream ?_ id fun _ _ => ?_
    · exact h.of_eq rfl rfl rfl
    · exact isI32_toI32 _

theorem feedData (h : InRange c) (hdr : FrameHeader) (body : Bytes) :
    InRange (c.feedData hdr body) := by
  have hcharge : InRange (c.charge hdr body) := by
    have hconn : InRange { c with
        connRecvWindow := toI32 (c.connRecvWindow - toI32 body.length) } :=
      ⟨isI32_toI32 _, h.initial, h.stream⟩
    refine hconn.modifyStream _ fun s _ => ?_
    rw [endStream_recvWindow]
    exact isI32_toI32 _
  rw [feedData_eq]
  exact hcharge.replenishConn.replenishStream _

theorem applySettings (h : InRange c) (settings : List (ℕ × ℕ)) :
    InRange (settings.foldl (fun c (id, val) => c.applySetting id val) c) := by
  induction settings generalizing c with
  | nil => exact h
  | cons e settings ih =>
    obtain ⟨id, val⟩ := e
    have hval : IsI32 (toI32 val) := isI32_toI32 val
    refine ih ?_
    simp only [applySetting]
    split_ifs
    · refine ⟨h.conn, ?_, h.stream⟩
      dsimp only
      exact hval
    · exact h.of_eq rfl rfl rfl
    · exact h.of_eq rfl rfl rfl
    · exact h

theorem feedFrame (h : InRange c) (hdr : FrameHeader) (body : Bytes) :
    InRange (c.feedFrame hdr body) := by
  have hseen : InRange { c with lastSeenStreamId := max c.lastSeenStreamId hdr.streamId } :=
    h.of_eq rfl rfl rfl
  simp only [Connection.feedFrame]
  cases hdr.typ with
  | settings =>
    simp only [feedSettings]
    split_ifs
    · exact h.of_eq rfl rfl rfl
    · exact (hseen.applySettings _).of_eq rfl rfl rfl
  | ping =>
    simp only [feedPing]
    split_ifs
    · exact h.of_eq rfl rfl rfl
    · exact hseen
  | windowUpdate =>
    simp only [feedWindowUpdate]
    split_ifs
    · exact hseen
    · exact h.of_eq rfl rfl rfl
    · exact hseen.modifyStream _ fun _ hs => hs
  | headers =>
    have hs : IsI32 ((c.streams hdr.streamId).getD
        (Stream.new hdr.streamId c.peerInitialWindow)).recvWindow := by
      cases hs : c.streams hdr.streamId with
      | none => exact h.initial
      | some s => exact h.stream _ s hs
    simp only [feedHeaders]
    cases headersPayload hdr body with
    | none => exact hseen.insertStream _ hs
    | some payload => exact hseen.insertStream _ (by rwa [endStream_recvWindow])
  | data => exact hseen.feedData hdr body
  | continuation => exact hseen.modifyStream _ fun _ hs => hs
  | rstStream => exact hseen.modifyStream _ fun _ hs => hs
  | goaway => exact h.of_eq rfl rfl rfl
  | priority => exact hseen
  | pushPromise => exact hseen
  | unknown byte => exact hseen

theorem step (h : InRange c) (a : Act) : InRange (c.step a) := by
  cases a with
  | openStream =>
    refine .insertStream ?_ _ ?_
    · exact h.of_eq rfl rfl rfl
    · exact h.initial
  | sendHeaders id headers fin =>
    refine .modifyStream ?_ _ fun _ hs => ?_
    · exact h.of_eq rfl rfl rfl
    · exact hs
  | sendData id data fin =>
    unfold Connection.step sendData
    dsimp only
    by_cases hrefuse : c.connSendWindow < toI32 data.length
    · rw [if_pos hrefuse]
      exact h
    · rw [if_neg hrefuse]
      refine .modifyStream ?_ _ fun _ hs => ?_
      · exact h.of_eq rfl rfl rfl
      · exact hs
  | feedFrame hdr body => exact h.feedFrame hdr body

end InRange

/-- Nothing but a DATA frame makes the client open a window. -/
theorem feedFrame_control (c : Connection) (body : Bytes) (h : hdr.typ ≠ .data) :
    ∃ fs, (c.feedFrame hdr body).outgoing = c.outgoing ++ fs ∧
      ∀ f ∈ fs, f.hdr.typ ≠ .windowUpdate := by
  have hone : ∀ f : Frame, f.hdr.typ ≠ .windowUpdate → ∃ fs, c.outgoing ++ [f] = c.outgoing ++ fs ∧
      ∀ f ∈ fs, f.hdr.typ ≠ .windowUpdate :=
    fun f hf => ⟨[f], rfl, fun _ hg => List.mem_singleton.mp hg ▸ hf⟩
  have hnone : ∃ fs, c.outgoing = c.outgoing ++ fs ∧ ∀ f ∈ fs, f.hdr.typ ≠ .windowUpdate :=
    ⟨[], (List.append_nil _).symm, nofun⟩
  simp only [Connection.feedFrame]
  cases htyp : hdr.typ with
  | data => exact absurd htyp h
  | settings =>
    simp only [feedSettings]
    split_ifs
    · exact hnone
    · simp only [queue, settings_outgoing]
      exact hone _ (by decide)
  | ping =>
    simp only [feedPing]
    split_ifs
    · exact hone _ (by simp [buildPingFrame, frame])
    · exact hnone
  | windowUpdate =>
    simp only [feedWindowUpdate]
    split_ifs <;> exact hnone
  | headers =>
    simp only [feedHeaders]
    split <;> exact hnone
  | _ => exact hnone

/-- A frame is exactly replenished when it is affordable, and only then. -/
theorem replenished_iff (hin : InRange c) (hlen : body.length < 2 ^ 24) :
    Affordable c hdr body ↔ Replenished c hdr body := by
  have hin' : InRange { c with lastSeenStreamId := max c.lastSeenStreamId hdr.streamId } :=
    hin.of_eq rfl rfl rfl
  by_cases ht : hdr.typ = .data
  · have hfeed : c.feedFrame hdr body = { c with
        lastSeenStreamId := max c.lastSeenStreamId hdr.streamId }.feedData hdr body := by
      simp only [Connection.feedFrame, ht]
    constructor
    · intro h
      obtain ⟨hconn, hstream⟩ := h ht
      obtain ⟨hchecked, hupdates, hhalf, hhalf'⟩ := feedData_spec hin' hconn hstream
      rw [← hfeed] at hchecked hupdates hhalf hhalf'
      obtain ⟨us, ws, hq, htyp, hsub, hall⟩ := hupdates
      refine ⟨by rw [feedFrameChecked, if_pos ht, hchecked], ⟨ws, ?_, ?_⟩,
        fun _ => hhalf, fun _ => hhalf'⟩
      · rw [if_pos ht]
        exact hsub
      · have hqueued : queued c (.feedFrame hdr body) = us := by
          rw [queued]
          exact (congrArg (List.drop _) hq).trans List.drop_left
        rw [hqueued, List.filter_eq_self.mpr fun f hf => decide_eq_true (htyp f hf)]
        exact hall
    · intro h _
      have hchecked := h.checked
      rw [feedFrameChecked, if_pos ht] at hchecked
      have hroom := feedDataChecked_affordable (hlen.trans (by norm_num)) hchecked
      exact hroom
  · refine ⟨fun _ => ⟨if_neg ht, ⟨[], ?_, ?_⟩, fun h => absurd h ht, fun h => absurd h ht⟩,
      fun _ h => absurd h ht⟩
    · rw [if_neg ht]
    · obtain ⟨fs, hq, hfs⟩ := feedFrame_control c body ht
      have hqueued : queued c (.feedFrame hdr body) = fs := by
        rw [queued]
        exact (congrArg (List.drop _) hq).trans List.drop_left
      rw [hqueued, List.filter_eq_nil_iff.mpr fun f hf => by simpa using hfs f hf]
      exact .nil

end Connection

/-- The length field of a frame has three bytes. -/
def Connection.Act.Framed : Act → Prop
  | .feedFrame _ body => body.length < 2 ^ 24
  | _ => True

def act (c : Connection) (a : Act) : Option Connection := some (c.step a)

theorem inRange_newClient : newClient.InRange := ⟨by decide, by decide, nofun⟩

/-- The windows of a new client are exactly replenished in a run when every frame of the
run is affordable, and only then. -/
theorem replenishment_exact (acts : List Act) (hframed : ∀ a ∈ acts, a.Framed) :
    RunsWith act (Fed Affordable) newClient acts ↔
      RunsWith act (Fed Replenished) newClient acts := by
  refine runsWith_congr (P := InRange) (fun c a _ c' hin _ hstep => ?_) (fun c a ha hin => ?_)
    inRange_newClient
  · obtain rfl := Option.some.inj hstep
    exact hin.step a
  · cases a with
    | feedFrame hdr body => exact replenished_iff hin (hframed _ ha)
    | openStream => exact Iff.rfl
    | sendHeaders id headers fin => exact Iff.rfl
    | sendData id data fin => exact Iff.rfl

/-- A stream is opened with a window of 16 bytes, and filled up after two. -/
def smallWindow : List Act :=
  [.feedFrame ⟨6, .settings, 0, 0⟩ [0, 4, 0, 0, 0, 16], .openStream,
    .feedFrame ⟨2, .data, 0, 1⟩ [7, 7]]

theorem replenishment_exact_sample : RunsWith act (Fed Replenished) newClient smallWindow ∧
    (queued (newClient.step (.feedFrame ⟨6, .settings, 0, 0⟩ [0, 4, 0, 0, 0, 16])).openStream
      (.feedFrame ⟨2, .data, 0, 1⟩ [7, 7])).length = 1 := by
  refine ⟨(replenishment_exact smallWindow ?_).mp ⟨nofun, fun c hc => ⟨trivial, fun c₁ h₁ =>
    ⟨fun _ => ?_, fun _ _ => trivial⟩⟩⟩, by decide +kernel⟩
  · intro a ha
    simp only [smallWindow, List.mem_cons, List.not_mem_nil, or_false] at ha
    rcases ha with rfl | rfl | rfl
    · exact (by decide : 6 < 2 ^ 24)
    · trivial
    · exact (by decide : 2 < 2 ^ 24)
  · obtain rfl := Option.some.inj hc
    obtain rfl := Option.some.inj h₁
    refine ⟨by decide +kernel, fun s hs => ?_⟩
    obtain rfl := Option.some.inj hs
    decide +kernel

/-- The peer sets the initial window to zero, and sends one byte on a new stream. -/
theorem replenishment_underflows : ¬ ∀ acts : List Act, (∀ a ∈ acts, a.Framed) →
    RunsWith act (Fed Replenished) newClient acts := by
  intro h
  have hrun := h [.feedFrame ⟨6, .settings, 0, 0⟩ [0, 4, 0, 0, 0, 0], .openStream,
    .feedFrame ⟨1, .data, 0, 1⟩ [7]] (by
      intro a ha
      fin_cases ha
      · show (6 : ℕ) < 2 ^ 24
        norm_num
      · trivial
      · show (1 : ℕ) < 2 ^ 24
        norm_num)
  have hlast := (((hrun.2 _ rfl).2 _ rfl).1).checked
  have hnone : ((newClient.feedFrame ⟨6, .settings, 0, 0⟩ [0, 4, 0, 0, 0, 0]).openStream.feedFrameChecked
      ⟨1, .data, 0, 1⟩ [7]).isSome = false := by decide +kernel
  exact absurd (congrArg Option.isSome hlast) (by rw [Option.isSome_some]; exact ne_true_of_eq_false hnone)

end Conclave.Net.Http2
