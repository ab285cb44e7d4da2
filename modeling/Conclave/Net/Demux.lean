import Conclave.Net.Http2

/-! The frames of a connection end up in the buffers of their own streams. What a frame
carries is stated for its body alone, and every act of a connection appends to the two
buffers of a stream what that act carries for it. -/

namespace Conclave.Net.Http2

open Lib

/-! ### What a frame carries -/

/-- The content between the pad length and the padding. -/
def unpad : Bytes → Option Bytes
  | [] => none
  | pad :: rest =>
    if pad.toNat ≤ rest.length then some (rest.take (rest.length - pad.toNat)) else none

theorem unpad_eq_some {body content : Bytes} :
    unpad body = some content ↔
      ∃ padding : Bytes, padding.length < 256 ∧
        body = UInt8.ofNat padding.length :: (content ++ padding) := by
  constructor
  · intro h
    cases body with
    | nil => cases h
    | cons pad rest =>
      simp only [unpad] at h
      split_ifs at h with hle
      obtain rfl := Option.some.inj h
      refine ⟨rest.drop (rest.length - pad.toNat), ?_, ?_⟩
      · rw [List.length_drop, Nat.sub_sub_self hle]
        exact pad.toNat_lt
      · rw [List.length_drop, Nat.sub_sub_self hle, List.take_append_drop, UInt8.ofNat_toNat]
  · rintro ⟨padding, hlt, rfl⟩
    have hpad : (UInt8.ofNat padding.length).toNat = padding.length := by
      rw [UInt8.toNat_ofNat']
      exact Nat.mod_eq_of_lt hlt
    simp [unpad, hpad]

/-- A DATA frame without its padding. -/
def dataFragment (hdr : FrameHeader) (body : Bytes) : Option Bytes :=
  if hdr.flag 0x8 then unpad body else some body

/-- A HEADERS frame without its padding and its priority fields. -/
def headersFragment (hdr : FrameHeader) (body : Bytes) : Option Bytes := do
  let content ← dataFragment hdr body
  if hdr.flag 0x20 then
    if content.length < 5 then none else some (content.drop 5)
  else some content

namespace Connection

theorem dataPayload_eq (hdr : FrameHeader) (body : Bytes) :
    dataPayload hdr body = (dataFragment hdr body).getD [] := by
  unfold dataPayload dataFragment
  split_ifs
  · cases body with
    | nil => rfl
    | cons pad rest =>
      simp only [unpad]
      by_cases h : pad.toNat ≤ rest.length
      · rw [if_pos h, if_neg (not_lt.mpr h), Option.getD_some]
      · rw [if_neg h, if_pos (not_le.mp h), Option.getD_none]
  · rfl

theorem headersPayload_eq (hdr : FrameHeader) (body : Bytes) :
    headersPayload hdr body = headersFragment hdr body := by
  unfold headersPayload headersFragment dataFragment
  by_cases hpad : hdr.flag 0x8 = true
  · cases body with
    | nil => simp [hpad, unpad]
    | cons pad rest =>
      by_cases hle : pad.toNat ≤ rest.length
      · by_cases hprio : hdr.flag 0x20 = true
        · -- the code takes the priority fields off first, then the padding
          simp only [hpad, if_true, unpad, hle, hprio, Option.bind_eq_bind, Option.bind_some,
            List.length_take, List.length_drop, min_eq_left (Nat.sub_le _ _)]
          by_cases h5 : rest.length < 5
          · have h5' : rest.length - pad.toNat < 5 := by omega
            simp [h5, h5']
          · by_cases hfit : rest.length - pad.toNat < 5
            · have hshort : rest.length - 5 < pad.toNat := by omega
              simp [h5, hfit, hshort]
            · have hlong : ¬ rest.length - 5 < pad.toNat := by omega
              have htake : rest.length - 5 - pad.toNat = rest.length - pad.toNat - 5 := by omega
              simp [h5, hfit, hlong, List.drop_take, htake]
        · simp [hpad, hprio, unpad, hle, not_lt.mpr hle]
      · by_cases hprio : hdr.flag 0x20 = true
        · have hshort : rest.length - 5 < pad.toNat := by omega
          by_cases h5 : rest.length < 5 <;> simp [hpad, hprio, unpad, hle, h5, hshort]
        · simp [hpad, hprio, unpad, hle, not_le.mp hle]
  · by_cases hprio : hdr.flag 0x20 = true <;> simp [hpad, hprio]

/-- What an act carries for the data of a stream. -/
def Act.data (id : ℕ) : Act → Bytes
  | feedFrame hdr body =>
    if hdr.streamId = id ∧ hdr.typ = .data then (dataFragment hdr body).getD [] else []
  | _ => []

/-- What an act carries for the header block of a stream. -/
def Act.headers (id : ℕ) : Act → Bytes
  | feedFrame hdr body =>
    if hdr.streamId = id then
      match hdr.typ with
      | .headers => (headersFragment hdr body).getD []
      | .continuation => body
      | _ => []
    else []
  | _ => []

def run (c : Connection) (acts : List Act) : Connection := acts.foldl step c

/-- The ids that the acts open streams with. -/
def opened (c : Connection) : List Act → List ℕ
  | [] => []
  | .openStream :: acts => c.nextStreamId :: opened c.openStream acts
  | a :: acts => opened (c.step a) acts

/-- The acts after the last one that opened a stream with an id. -/
def since (c : Connection) (id : ℕ) : List Act → List Act
  | [] => []
  | a :: acts => if id ∈ (c.step a).opened acts then (c.step a).since id acts else acts

/-! ### The buffers of one stream -/

/-- Header block and data received for a stream. -/
def bufs (c : Connection) (id : ℕ) : Option (Bytes × Bytes) :=
  (c.streams id).map fun s => (s.headersBuf, s.dataBuf)

variable {c : Connection} {id : ℕ}

theorem bufs_congr {c' : Connection} (h : c'.streams = c.streams) : c'.bufs id = c.bufs id := by
  rw [bufs, bufs, h]

theorem bufs_insertStream (id' : ℕ) (s : Stream) :
    (c.insertStream id' s).bufs id =
      if id = id' then some (s.headersBuf, s.dataBuf) else c.bufs id := by
  unfold bufs insertStream
  by_cases h : id = id'
  · subst h
    simp
  · simp [h]

/-- A change of other fields of any stream. -/
theorem bufs_modifyStream {id' : ℕ} {f : Stream → Stream}
    (hf : ∀ s, (f s).headersBuf = s.headersBuf ∧ (f s).dataBuf = s.dataBuf) :
    (c.modifyStream id' f).bufs id = c.bufs id := by
  unfold bufs modifyStream
  by_cases h : id = id'
  · subst h
    cases c.streams id <;> simp [hf]
  · simp [h]

/-- Something appended to the buffers of one stream. -/
theorem bufs_append {id' : ℕ} {f : Stream → Stream} {h d : Bytes}
    (hf : ∀ s, (f s).headersBuf = s.headersBuf ++ h ∧ (f s).dataBuf = s.dataBuf ++ d) :
    (c.modifyStream id' f).bufs id =
      if id = id' then (c.bufs id).map fun b => (b.1 ++ h, b.2 ++ d) else c.bufs id := by
  unfold bufs modifyStream
  by_cases hid : id = id'
  · subst hid
    cases c.streams id <;> simp [hf]
  · simp [hid]

theorem bufs_openStream (hid : c.nextStreamId ≠ id) : c.openStream.bufs id = c.bufs id := by
  rw [openStream, bufs_insertStream, if_neg hid.symm]
  exact bufs_congr rfl

theorem bufs_sendHeaders (id' : ℕ) (headers : List Hpack.Header) (fin : Bool) :
    (c.sendHeaders id' headers fin).bufs id = c.bufs id := by
  refine (bufs_modifyStream ?_).trans (bufs_congr rfl)
  exact fun _ => ⟨rfl, rfl⟩

theorem bufs_sendData (id' : ℕ) (data : Bytes) (fin : Bool) :
    (c.sendData id' data fin).bufs id = c.bufs id := by
  simp only [sendData]
  by_cases h : c.connSendWindow < toI32 data.length
  · rw [if_pos h]
  · rw [if_neg h, bufs_modifyStream fun _ => ?_]
    · exact bufs_congr rfl
    · exact ⟨rfl, rfl⟩

theorem bufs_feedSettings (hdr : FrameHeader) (body : Bytes) :
    (c.feedSettings hdr body).bufs id = c.bufs id := by
  have happly : ∀ (settings : List (ℕ × ℕ)) (c : Connection),
      (settings.foldl (fun c s => c.applySetting s.1 s.2) c).bufs id = c.bufs id := by
    intro settings
    induction settings with
    | nil => exact fun _ => rfl
    | cons s settings ih =>
      intro c
      rw [List.foldl_cons, ih]
      refine bufs_congr ?_
      simp only [applySetting]
      split_ifs <;> rfl
  unfold feedSettings
  split_ifs
  · exact bufs_congr rfl
  · exact (bufs_congr rfl).trans (happly _ c)

theorem bufs_feedPing (hdr : FrameHeader) (body : Bytes) :
    (c.feedPing hdr body).bufs id = c.bufs id := by
  unfold feedPing
  split_ifs
  · exact bufs_congr rfl
  · rfl

theorem bufs_feedWindowUpdate (hdr : FrameHeader) (body : Bytes) :
    (c.feedWindowUpdate hdr body).bufs id = c.bufs id := by
  simp only [feedWindowUpdate]
  split_ifs
  · rfl
  · exact bufs_congr rfl
  · exact bufs_modifyStream fun _ => ⟨rfl, rfl⟩

theorem bufs_replenishConn : c.replenishConn.bufs id = c.bufs id := by
  unfold replenishConn
  split
  · rfl
  · exact bufs_congr rfl

theorem bufs_replenishStream (id' : ℕ) : (c.replenishStream id').bufs id = c.bufs id := by
  unfold replenishStream
  split
  · rfl
  · refine (bufs_modifyStream ?_).trans (bufs_congr rfl)
    exact fun _ => ⟨rfl, rfl⟩

theorem endStream_bufs (s : Stream) (fin : Bool) :
    (s.endStream fin).headersBuf = s.headersBuf ∧ (s.endStream fin).dataBuf = s.dataBuf := by
  cases fin <;> exact ⟨rfl, rfl⟩

theorem bufs_feedData (hdr : FrameHeader) (body : Bytes) :
    (c.feedData hdr body).bufs id =
      if id = hdr.streamId then (c.bufs id).map fun b => (b.1, b.2 ++ dataPayload hdr body)
      else c.bufs id := by
  have hwindow : ∀ w, { c with connRecvWindow := w }.bufs id = c.bufs id :=
    fun _ => bufs_congr rfl
  simp only [feedData]
  rw [bufs_replenishStream, bufs_replenishConn, bufs_append (h := []) (d := dataPayload hdr body)]
  · simp only [List.append_nil, hwindow]
  · intro s
    rw [(endStream_bufs _ _).1, (endStream_bufs _ _).2, List.append_nil]
    exact ⟨rfl, rfl⟩

theorem bufs_feedHeaders {h d : Bytes} (hdr : FrameHeader) (body : Bytes)
    (hb : c.bufs id = some (h, d)) :
    (c.feedHeaders hdr body).bufs id =
      if id = hdr.streamId then some (h ++ (headersPayload hdr body).getD [], d)
      else some (h, d) := by
  simp only [feedHeaders]
  cases hp : headersPayload hdr body with
  | none =>
    rw [bufs_insertStream]
    split_ifs with hid
    · obtain ⟨s, hs, heq⟩ := Option.map_eq_some_iff.mp hb
      rw [← hid, hs, Option.getD_some, heq, Option.getD_none, List.append_nil]
    · exact hb
  | some payload =>
    simp only
    rw [bufs_insertStream, (endStream_bufs _ _).1, (endStream_bufs _ _).2]
    split_ifs with hid
    · obtain ⟨s, hs, heq⟩ := Option.map_eq_some_iff.mp hb
      obtain ⟨rfl, rfl⟩ := Prod.mk.inj heq
      rw [← hid, hs, Option.getD_some, Option.getD_some]
    · exact hb

/-! ### One act and all of them -/

/-- An act appends to the buffers of a stream what it carries for it, unless it opens a
stream with the same id. -/
theorem bufs_step {h d : Bytes} (hb : c.bufs id = some (h, d)) (a : Act)
    (hopen : a = .openStream → c.nextStreamId ≠ id) :
    (c.step a).bufs id = some (h ++ a.headers id, d ++ a.data id) := by
  cases a with
  | openStream =>
    rw [step, bufs_openStream (hopen rfl), hb]
    simp [Act.headers, Act.data]
  | sendHeaders id' headers fin =>
    rw [step, bufs_sendHeaders, hb]
    simp [Act.headers, Act.data]
  | sendData id' data fin =>
    rw [step, bufs_sendData, hb]
    simp [Act.headers, Act.data]
  | feedFrame hdr body =>
    have hseen : { c with lastSeenStreamId := max c.lastSeenStreamId hdr.streamId }.bufs id =
        some (h, d) := hb
    simp only [step, feedFrame, Act.headers, Act.data]
    cases htyp : hdr.typ with
    | data =>
      simp only
      rw [bufs_feedData, hseen, dataPayload_eq]
      by_cases hid : id = hdr.streamId
      · simp [hid]
      · simp [hid, Ne.symm hid]
    | headers =>
      simp only
      rw [bufs_feedHeaders hdr body hseen, headersPayload_eq]
      by_cases hid : id = hdr.streamId
      · simp [hid]
      · simp [hid, Ne.symm hid]
    | continuation =>
      simp only
      rw [bufs_append (h := body) (d := []), hseen]
      · by_cases hid : id = hdr.streamId
        · simp [hid]
        · simp [hid, Ne.symm hid]
      · exact fun _ => ⟨rfl, (List.append_nil _).symm⟩
    | settings => simp [bufs_feedSettings, hseen]
    | ping => simp [bufs_feedPing, hseen]
    | windowUpdate => simp [bufs_feedWindowUpdate, hseen]
    | rstStream =>
      simp only
      rw [bufs_modifyStream fun _ => ?_, hseen]
      · simp
      · exact ⟨rfl, rfl⟩
    | goaway =>
      refine (bufs_congr rfl).trans (hseen.trans ?_)
      simp
    | priority => simp [hseen]
    | pushPromise => simp [hseen]
    | unknown byte => simp [hseen]

theorem bufs_run {h d : Bytes} {acts : List Act} (hb : c.bufs id = some (h, d))
    (hopen : id ∉ c.opened acts) :
    (c.run acts).bufs id =
      some (h ++ acts.flatMap (Act.headers id), d ++ acts.flatMap (Act.data id)) := by
  induction acts generalizing c h d with
  | nil => simpa [run] using hb
  | cons a acts ih =>
    have hnot : (a = .openStream → c.nextStreamId ≠ id) ∧ id ∉ (c.step a).opened acts := by
      cases a with
      | openStream =>
        rw [opened, List.mem_cons, not_or] at hopen
        exact ⟨fun _ => Ne.symm hopen.1, hopen.2⟩
      | sendHeaders | sendData | feedFrame =>
        rw [opened] at hopen
        · exact ⟨nofun, hopen⟩
        · exact nofun
    have hstep := ih (bufs_step hb a hnot.1) hnot.2
    rw [run, List.foldl_cons, ← run, hstep, List.flatMap_cons, List.flatMap_cons,
      List.append_assoc, List.append_assoc]

/-- Whatever the state of the connection, and after any calls and any frames: the buffers
of a stream that was opened hold what the frames with its id have carried since, in the
order they came. -/
theorem demultiplexed (c : Connection) (acts : List Act) (id : ℕ) (hid : id ∈ c.opened acts) :
    ∃ s, (c.run acts).streams id = some s ∧
      s.headersBuf = (c.since id acts).flatMap (Act.headers id) ∧
      s.dataBuf = (c.since id acts).flatMap (Act.data id) := by
  induction acts generalizing c with
  | nil => cases hid
  | cons a acts ih =>
    by_cases hlater : id ∈ (c.step a).opened acts
    · rw [since, if_pos hlater]
      exact ih (c.step a) hlater
    · have hopen : a = .openStream ∧ id = c.nextStreamId := by
        cases a with
        | openStream =>
          rw [opened, List.mem_cons] at hid
          exact ⟨rfl, hid.resolve_right hlater⟩
        | sendHeaders | sendData | feedFrame =>
          rw [opened] at hid
          · exact absurd hid hlater
          · exact nofun
      obtain ⟨rfl, rfl⟩ := hopen
      have hb : c.openStream.bufs c.nextStreamId = some ([], []) := by
        rw [openStream, bufs_insertStream, if_pos rfl]
        rfl
      rw [since, if_neg hlater]
      obtain ⟨s, hs, heq⟩ := Option.map_eq_some_iff.mp (bufs_run hb hlater)
      obtain ⟨hh, hd⟩ := Prod.mk.inj heq
      exact ⟨s, hs, hh, hd⟩

/-- Padding and a second stream between the parts of the first. -/
def interleaved : List Act := [.openStream, .openStream, .feedFrame ⟨3, .data, 0x8, 1⟩ [1, 65, 0],
  .feedFrame ⟨1, .data, 0x1, 3⟩ [66], .feedFrame ⟨0, .settings, 0, 0⟩ [],
  .feedFrame ⟨1, .data, 0x1, 1⟩ [67]]

theorem demultiplexed_sample :
    ∃ s, (newClient.run interleaved).streams 1 = some s ∧ s.headersBuf = [] ∧
      s.dataBuf = [65, 67] := by
  have hid : 1 ∈ newClient.opened interleaved := by
    show 1 ∈ [1, 3]
    decide
  obtain ⟨s, hs, hh, hd⟩ := demultiplexed newClient interleaved 1 hid
  refine ⟨s, hs, hh.trans ?_, hd.trans ?_⟩ <;> decide +kernel

end Connection

end Conclave.Net.Http2
