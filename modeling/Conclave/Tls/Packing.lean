import Conclave.Tls.Authentication
import Conclave.Tls.Tls12

/-! How messages are packed into records. After a TLS 1.3 ServerHello the client
reassembles, so every cutting of the stream gives the run of the messages
themselves. On the TLS 1.2 path it walks record by record: a cutting gives that
run exactly when the ServerHello has its record to itself and no message that is
still needed crosses a record boundary. -/

namespace Conclave.Tls

open Lib

/-- A way of cutting messages into handshake records. -/
structure Cutting (ms : List HandshakeMsg) (cut : List Bytes) : Prop where
  nonempty : ∀ r ∈ cut, r ≠ []
  fits : ∀ r ∈ cut, r.length ≤ 2 ^ 14
  flatten : cut.flatten = ms.flatMap HandshakeMsg.full

/-! ### TLS 1.3 -/

section Tls13

variable (E : Env)

/-- The messages a run dispatches, the last one possibly refused. -/
def dispatched : Flight → List HandshakeMsg → List HandshakeMsg
  | _, [] => []
  | f, m :: ms =>
    match handleMessage E f m with
    | .ok (f, false) => m :: dispatched f ms
    | _ => [m]

/-- The messages the record loop dispatches, record by record. -/
def loopDispatched : HandshakeDriver → List OwnedRecord → List HandshakeMsg
  | _, [] => []
  | d, rec :: recs =>
    if rec.contentType = ContentType.changeCipherSpec.code then loopDispatched d recs
    else if rec.contentType = ContentType.applicationData.code then
      match AeadKey.openRecord E.A d.serverHandshakeAead
          (AeadKey.header rec.fragment.length) rec.fragment with
      | (.ok (.handshake, inner), key) =>
        dispatched E d.toFlight (handshakeFramer.drain (d.pendingHsBuf ++ inner)).1 ++
          match consumeEncryptedHandshake E { d with serverHandshakeAead := key } inner with
          | .ok (d, false) => loopDispatched d recs
          | _ => []
      | _ => []
    else []

variable {E}

theorem dispatched_append {f : Flight} {ms : List HandshakeMsg} (ns : List HandshakeMsg) :
    dispatched E f (ms ++ ns) = dispatched E f ms ++
      match processMessages E f ms with
      | .ok (f, false) => dispatched E f ns
      | _ => [] := by
  induction ms generalizing f with
  | nil => simp [dispatched, processMessages]
  | cons m ms ih =>
    simp only [List.cons_append, dispatched, processMessages, bind, Except.bind]
    rcases hm : handleMessage E f m with e | ⟨g, done⟩
    · simp
    · cases done with
      | true => simp
      | false => simp [ih]

/-- The loop dispatches the messages of the reassembled stream. -/
theorem loopDispatched_eq {d : HandshakeDriver} (hd : nextHandshake d.pendingHsBuf = none)
    (recs : List OwnedRecord) :
    loopDispatched E d recs = dispatched E d.toFlight (delivered E d recs) := by
  induction recs generalizing d with
  | nil => simp [loopDispatched, delivered, openRecords, handshakeFramer.drain_none hd, dispatched]
  | cons rec recs ih =>
    simp only [loopDispatched, delivered, openRecords]
    split_ifs with hccs hdata
    · exact ih hd
    · rcases AeadKey.openRecord E.A d.serverHandshakeAead
          (AeadKey.header rec.fragment.length) rec.fragment with ⟨e | ⟨innerType, inner⟩, key⟩
      · simp [handshakeFramer.drain_none hd, dispatched]
      · cases innerType with
        | handshake =>
          simp only [ne_eq, not_true_eq_false, ↓reduceIte]
          conv_rhs =>
            rw [← List.append_assoc, handshakeFramer.drain_append, dispatched_append]
          congr 1
          simp only [consumeEncryptedHandshake, bind, Except.bind]
          rcases processMessages E d.toFlight
              (handshakeFramer.drain (d.pendingHsBuf ++ inner)).1 with e | ⟨f, done⟩
          · rfl
          · cases done with
            | true => rfl
            | false => exact ih (handshakeFramer.next_drain_rest _)
        | changeCipherSpec | alert | applicationData =>
          simp [handshakeFramer.drain_none hd, dispatched]
    · simp [handshakeFramer.drain_none hd, dispatched]

/-- A wire record as `read_one_record` returns it. -/
def ownedOf (r : Bytes) : OwnedRecord := ⟨r.headD 0, be16 (r.getD 1 0) (r.getD 2 0), r.drop 5⟩

/-- An AEAD that opens what it seals, with a tag's worth of growth. -/
structure AeadFns.Opens (A : AeadFns) (a : Aead) (key : Bytes) : Prop where
  opens : ∀ n ad p, A.openWith a key n ad (A.sealWith a key n ad p) = .ok p
  length : ∀ n ad p, (A.sealWith a key n ad p).length = p.length + a.tagLen

theorem openRecord_sealRecord {A : AeadFns} {k k' : AeadKey} {t : ContentType} {b r : Bytes}
    (hA : A.Opens k.aead k.key) (hb : b.length ≤ 2 ^ 14)
    (hr : AeadKey.sealRecord A k t b = .ok (r, k')) :
    (ownedOf r).contentType = ContentType.applicationData.code ∧
      AeadKey.openRecord A k (AeadKey.header (ownedOf r).fragment.length) (ownedOf r).fragment =
        (.ok (t, b), k') ∧ k'.aead = k.aead ∧ k'.key = k.key := by
  rw [AeadKey.sealRecord_eq A (m := (t, b)) hb] at hr
  split_ifs at hr with hseq
  simp only [Except.ok.injEq, Prod.mk.injEq] at hr
  obtain ⟨rfl, rfl⟩ := hr
  obtain ⟨ha, hk, -⟩ := AeadKey.after_fields k 1
  have hfrag : (ownedOf ((AeadKey.sealedItem A k 0 (t, b)).1 ++
      (AeadKey.sealedItem A k 0 (t, b)).2)).fragment = (AeadKey.sealedItem A k 0 (t, b)).2 := rfl
  have hlen : (AeadKey.sealedItem A k 0 (t, b)).2.length = b.length + 17 := by
    simp only [AeadKey.sealedItem, hA.length, AeadKey.inner_length, Aead.tagLen]
  have hopen := hA.opens k.nonce (AeadKey.header (b.length + 17)) (AeadKey.inner t b)
  refine ⟨rfl, ?_, ha, hk⟩
  rw [hfrag, hlen]
  simp only [AeadKey.sealedItem, add_zero, ← AeadKey.nonce.eq_def, AeadKey.openRecord, hopen,
    AeadKey.bump_eq_after hseq, AeadKey.splitInner_inner]

/-- Sealed handshake records open to their concatenated contents. -/
theorem openRecords_sealed {A : AeadFns} {k k' : AeadKey} {cut wire : List Bytes}
    (hA : A.Opens k.aead k.key) (hcut : ∀ b ∈ cut, b.length ≤ 2 ^ 14)
    (hs : AeadKey.sealAll A k (cut.map fun b => (.handshake, b)) = .ok (wire, k')) :
    openRecords A k (wire.map ownedOf) = (cut.flatten, .protocol "unexpected EOF") := by
  induction cut generalizing k wire with
  | nil =>
    simp only [List.map_nil, AeadKey.sealAll, Except.ok.injEq, Prod.mk.injEq] at hs
    simp [← hs.1, openRecords]
  | cons b cut ih =>
    simp only [List.map_cons, AeadKey.sealAll, bind_eq_ok, Prod.exists, Except.ok.injEq,
      Prod.mk.injEq] at hs
    obtain ⟨r, k₁, hr, rs, k₂, hrs, rfl, rfl⟩ := hs
    obtain ⟨hty, hopen, ha, hk⟩ := openRecord_sealRecord hA (hcut b (by simp)) hr
    have hrest := ih (k := k₁) (by rwa [ha, hk]) (fun b hb => hcut b (by simp [hb])) hrs
    have hccs : (ownedOf r).contentType ≠ ContentType.changeCipherSpec.code := by
      rw [hty]; decide
    simp only [List.map_cons, openRecords, if_neg hccs, if_pos hty, hopen, hrest, ne_eq,
      not_true_eq_false, ↓reduceIte, List.flatten_cons]

/-- A flight cut into sealed records in any way is dispatched as the flight itself,
to the same end. -/
theorem handshakeLoop_sealed {d : HandshakeDriver} {ms : List HandshakeMsg} {cut wire : List Bytes}
    {k : AeadKey} (hd : d.pendingHsBuf = []) (hms : ∀ m ∈ ms, m.WellFormed)
    (hcut : Cutting ms cut)
    (hA : E.A.Opens d.serverHandshakeAead.aead d.serverHandshakeAead.key)
    (hs : AeadKey.sealAll E.A d.serverHandshakeAead (cut.map fun b => (.handshake, b)) =
      .ok (wire, k)) :
    loopDispatched E d (wire.map ownedOf) = dispatched E d.toFlight ms ∧
      (handshakeLoop E d (wire.map ownedOf)).map (fun r => r.1.toFlight) =
        verdict E d.toFlight ms (.protocol "unexpected EOF") := by
  have hpend : nextHandshake d.pendingHsBuf = none := by rw [hd]; rfl
  have hopen := openRecords_sealed hA hcut.fits hs
  have hdel : delivered E d (wire.map ownedOf) = ms := by
    have hdrain := handshakeFramer_reads.drain_flatMap ms hms []
    rw [delivered, hopen, hd, List.nil_append, hcut.flatten]
    simpa using congrArg Prod.fst hdrain
  constructor
  · rw [loopDispatched_eq hpend, hdel]
  · rw [handshakeLoop_verdict hpend, hdel, hopen]

end Tls13

/-! ### TLS 1.2 -/

section Tls12

/-- The messages the flight loop ends with: ServerHelloDone, or one it refuses. -/
def endsFlight12 (m : HandshakeMsg) : Bool :=
  if m.kind = HandshakeType.certificate.code then !(parseCertificateChain m.body).isOk
  else if m.kind = HandshakeType.serverKeyExchange.code then
    match parseServerKeyExchange m.body with
    | .ok ske => ske.namedCurve ∉ [23, 24, 29]
    | .error _ => true
  else m.kind = HandshakeType.serverHelloDone.code

/-- The messages a client needs: through the first that ends the flight. -/
def needed12 : List HandshakeMsg → List HandshakeMsg
  | [] => []
  | m :: ms => if endsFlight12 m then [m] else m :: needed12 ms

/-- No needed message crosses a record boundary: each record holds the rest of
them, or whole messages and nothing else. -/
def Aligned : List Bytes → List HandshakeMsg → Prop
  | [], ms => ms = []
  | r :: rs, ms => ms.flatMap HandshakeMsg.full <+: r ∨
      ∃ g h, ms = g ++ h ∧ r = g.flatMap HandshakeMsg.full ∧ Aligned rs h

/-- The handler folded over messages, with its log. -/
def handleAll12 : Tls12State → List HandshakeMsg → Traced (Tls12State × Bool)
  | st, [] => ([], .ok (st, false))
  | st, m :: ms =>
    match handleMessage12 st m with
    | .error e => ([.handled m], .error e)
    | .ok (st, true) => ([.handled m], .ok (st, true))
    | .ok (st, false) => (.handled m :: (handleAll12 st ms).1, (handleAll12 st ms).2)

/-- The outcome of a flight by its messages alone. -/
def flightOutcome12 (st : Tls12State) (ms : List HandshakeMsg) : Traced Tls12State :=
  match handleAll12 st ms with
  | (evs, .error e) => (evs, .error e)
  | (evs, .ok (st, true)) => (evs, .ok st)
  | (evs, .ok (_, false)) => (evs, .error (.protocol "tls1.2 unexpected EOF"))

/-- ServerHelloDone is not followed by another message. -/
def DoneLast (ms : List HandshakeMsg) : Prop :=
  ∀ g m h, ms = g ++ m :: h → m.kind = HandshakeType.serverHelloDone.code → h = []

theorem DoneLast.of_append {g h : List HandshakeMsg} (hl : DoneLast (g ++ h)) : DoneLast h :=
  fun g' m h' he hk => hl (g ++ g') m h' (by rw [he, List.append_assoc]) hk

theorem doneLast_of_dropLast {ms : List HandshakeMsg}
    (h : ∀ m ∈ ms.dropLast, m.kind ≠ HandshakeType.serverHelloDone.code) : DoneLast ms := by
  rintro g m rest rfl hk
  by_contra hne
  refine h m ?_ hk
  rw [List.dropLast_append_of_ne_nil (by simp), List.dropLast_cons_of_ne_nil hne]
  simp

/-- What one message does to the loop does not depend on the state. -/
theorem handleMessage12_spec (st : Tls12State) (m : HandshakeMsg) :
    (endsFlight12 m = false ∧ ∃ st', handleMessage12 st m = .ok (st', false)) ∨
      (endsFlight12 m = true ∧ m.kind = HandshakeType.serverHelloDone.code ∧
        ∃ st', handleMessage12 st m = .ok (st', true)) ∨
      (endsFlight12 m = true ∧ ∃ e, handleMessage12 st m = .error e) := by
  unfold handleMessage12 endsFlight12
  by_cases hc : m.kind = HandshakeType.certificate.code
  · simp only [if_pos hc]
    rcases parseCertificateChain m.body with e | certs
    · exact .inr (.inr ⟨rfl, e, rfl⟩)
    · exact .inl ⟨rfl, _, rfl⟩
  · by_cases hs : m.kind = HandshakeType.serverKeyExchange.code
    · simp only [if_neg hc, if_pos hs]
      rcases parseServerKeyExchange m.body with e | ske
      · exact .inr (.inr ⟨rfl, e, rfl⟩)
      · by_cases hcurve : ske.namedCurve ≠ 23 ∧ ske.namedCurve ≠ 24 ∧ ske.namedCurve ≠ 29
        · refine .inr (.inr ⟨by simpa using hcurve, ?_⟩)
          exact ⟨_, by simp only [ok_bind, if_pos hcurve]; rfl⟩
        · refine .inl ⟨?_, ?_⟩
          · simpa only [List.mem_cons, List.not_mem_nil, or_false, decide_eq_false_iff_not,
              not_or] using hcurve
          · exact ⟨_, by simp only [ok_bind, if_neg hcurve]; rfl⟩
    · by_cases hd : m.kind = HandshakeType.serverHelloDone.code
      · simp only [if_neg hc, if_neg hs, if_pos hd]
        exact .inr (.inl ⟨by simpa using hd, hd, _, rfl⟩)
      · simp only [if_neg hc, if_neg hs, if_neg hd]
        exact .inl ⟨by simpa using hd, _, rfl⟩

/-- The fold either goes through every message, needing all of them, or ends at a
message, after which nothing counts. -/
theorem handleAll12_cases (st : Tls12State) (g : List HandshakeMsg) :
    (∃ evs st', handleAll12 st g = (evs, .ok (st', false)) ∧ evs = g.map .handled ∧
        ∀ h, needed12 (g ++ h) = g ++ needed12 h) ∨
      ((∀ st', (handleAll12 st g).2 ≠ .ok (st', false)) ∧
        (∀ h, handleAll12 st (g ++ h) = handleAll12 st g) ∧
        ∀ h, needed12 (g ++ h) = needed12 g) := by
  induction g generalizing st with
  | nil => exact .inl ⟨[], st, rfl, rfl, fun h => rfl⟩
  | cons m g ih =>
    obtain ⟨he, st', hm⟩ | ⟨he, -, st', hm⟩ | ⟨he, e, hm⟩ := handleMessage12_spec st m
    · simp only [handleAll12, hm, List.cons_append, needed12, he, Bool.false_eq_true, ↓reduceIte]
      obtain ⟨evs, st₂, hg, rfl, hneed⟩ | ⟨hne, happ, hneed⟩ := ih st'
      · exact .inl ⟨.handled m :: g.map .handled, st₂, by rw [hg], rfl,
          fun h => by rw [hneed h]⟩
      · exact .inr ⟨hne, fun h => by rw [happ h], fun h => by rw [hneed h]⟩
    · right
      simp [handleAll12, hm, needed12, he]
    · right
      simp [handleAll12, hm, needed12, he]

theorem needed12_isPrefix (ms : List HandshakeMsg) : needed12 ms <+: ms := by
  induction ms with
  | nil => exact List.prefix_rfl
  | cons m ms ih =>
    rw [needed12]
    split_ifs
    · exact ⟨ms, rfl⟩
    · exact List.cons_prefix_cons.mpr ⟨rfl, ih⟩

theorem handleAll12_append {st st' : Tls12State} {g : List HandshakeMsg} {evs : List FlightEvent}
    (hg : handleAll12 st g = (evs, .ok (st', false))) (h : List HandshakeMsg) :
    handleAll12 st (g ++ h) = (evs ++ (handleAll12 st' h).1, (handleAll12 st' h).2) := by
  induction g generalizing st evs with
  | nil =>
    simp only [handleAll12, Prod.mk.injEq, Except.ok.injEq, and_true] at hg
    simp [← hg.1, hg.2]
  | cons m g ih =>
    obtain ⟨-, st₁, hm⟩ | ⟨-, -, st₁, hm⟩ | ⟨-, e, hm⟩ := handleMessage12_spec st m
    all_goals simp only [handleAll12, hm, Prod.mk.injEq, Except.ok.injEq, reduceCtorEq, and_false,
      Bool.true_eq_false] at hg
    obtain ⟨rfl, hg⟩ := hg
    simp only [List.cons_append, handleAll12, hm, ih (Prod.ext rfl hg)]

/-- The walk over a record that holds the messages `g` and the start of another. -/
theorem walkRecord12_eq {g : List HandshakeMsg} {tail : Bytes} (hg : ∀ m ∈ g, m.WellFormed)
    (ht : nextHandshake tail = none)
    (hlast : ∀ g₁ m g₂, g = g₁ ++ m :: g₂ → m.kind = HandshakeType.serverHelloDone.code →
      g₂ = [] ∧ tail = []) {n : ℕ} (st : Tls12State)
    (hn : (g.flatMap HandshakeMsg.full ++ tail).length ≤ n) :
    walkRecord12 n st (g.flatMap HandshakeMsg.full ++ tail) =
      match handleAll12 st g with
      | (evs, .ok (st', false)) =>
        if tail = [] then (evs, .ok (st', false)) else (evs, .error (.decode "truncated"))
      | t => t := by
  induction g generalizing n st with
  | nil =>
    simp only [List.flatMap_nil, List.nil_append, handleAll12] at hn ⊢
    split_ifs with h
    · subst h
      cases n <;> rfl
    · obtain ⟨n, rfl⟩ := Nat.exists_eq_succ_of_ne_zero (n := n) (by
        have := List.length_pos_iff.mpr h
        omega)
      simp only [walkRecord12, HandshakeIter.next_of_none ht h]
      rfl
  | cons m g ih =>
    have hnext : nextHandshake (m.full ++ (g.flatMap HandshakeMsg.full ++ tail)) =
        some (m, g.flatMap HandshakeMsg.full ++ tail) :=
      handshakeFramer_reads m _ (hg m (by simp))
    have hshrink := handshakeFramer.shrinks hnext
    rw [List.flatMap_cons, List.append_assoc] at hn ⊢
    obtain ⟨n, rfl⟩ := Nat.exists_eq_succ_of_ne_zero (n := n) (by omega)
    simp only [walkRecord12, HandshakeIter.next_of_some hnext, handleAll12]
    obtain ⟨-, st', hm⟩ | ⟨-, hk, st', hm⟩ | ⟨-, e, hm⟩ := handleMessage12_spec st m
    · have hih := ih (fun m hm => hg m (by simp [hm]))
        (fun g₁ m' g₂ he => hlast (m :: g₁) m' g₂ (by rw [he, List.cons_append])) (n := n) st'
        (by omega)
      simp only [hm, hih]
      rcases handleAll12 st' g with ⟨evs, e | ⟨st₂, done⟩⟩
      · rfl
      · cases done
        · simp only
          split_ifs <;> rfl
        · rfl
    · obtain ⟨rfl, rfl⟩ := hlast [] m g rfl hk
      simp [hm, dropped]
    · simp only [hm]

theorem HandshakeMsg.WellFormed.full_ne_nil {m : HandshakeMsg} (h : m.WellFormed) :
    m.full ≠ [] := by
  simp [h.1, wrapHandshake]

theorem eq_nil_of_flatMap_full {ms : List HandshakeMsg} (hms : ∀ m ∈ ms, m.WellFormed)
    (h : ms.flatMap HandshakeMsg.full = []) : ms = [] := by
  cases ms with
  | nil => rfl
  | cons m ms =>
    rw [List.flatMap_cons, List.append_eq_nil_iff] at h
    exact absurd h.1 (hms m (by simp)).full_ne_nil

@[simp] theorem aligned_nil (rs : List Bytes) : Aligned rs [] := by
  cases rs with
  | nil => rfl
  | cons r rs => exact .inl (by simp)

/-- A record for each message. -/
theorem aligned_own (ms : List HandshakeMsg) : Aligned (ms.map HandshakeMsg.full) ms := by
  induction ms with
  | nil => rfl
  | cons m ms ih => exact .inr ⟨[m], ms, rfl, by simp, ih⟩

/-- The messages of one record and the bytes of a further one it ends with. -/
structure RecordSplit (r : Bytes) (g : List HandshakeMsg) (tail : Bytes) : Prop where
  bytes : r = g.flatMap HandshakeMsg.full ++ tail
  wellFormed : ∀ m ∈ g, m.WellFormed
  partial_tail : nextHandshake tail = none

theorem RecordSplit.drain {r tail : Bytes} {g : List HandshakeMsg} (h : RecordSplit r g tail) :
    handshakeFramer.drain r = (g, tail) := by
  rw [h.bytes, handshakeFramer_reads.drain_flatMap g h.wellFormed,
    handshakeFramer.drain_none h.partial_tail, List.append_nil]

/-- The first record of a cutting takes off its messages. -/
theorem exists_recordSplit {r : Bytes} {rs : List Bytes} {ms : List HandshakeMsg}
    (hms : ∀ m ∈ ms, m.WellFormed) (hcut : r ++ rs.flatten = ms.flatMap HandshakeMsg.full) :
    ∃ g h tail, RecordSplit r g tail ∧ ms = g ++ h ∧
      tail ++ rs.flatten = h.flatMap HandshakeMsg.full := by
  obtain ⟨hg, hr⟩ := handshakeFramer_splits.drain_spec r
  have hall := handshakeFramer_reads.drain_flatMap ms hms []
  rw [List.append_nil, ← hcut, handshakeFramer.drain_append] at hall
  simp only [handshakeFramer.drain_nil, List.append_nil, Prod.mk.injEq] at hall
  obtain ⟨-, hrest⟩ := handshakeFramer_splits.drain_spec
    ((handshakeFramer.drain r).2 ++ rs.flatten)
  refine ⟨_, _, _, ⟨hr, hg, handshakeFramer.next_drain_rest r⟩, hall.1.symm, ?_⟩
  rw [hall.2, List.append_nil] at hrest
  exact hrest

/-- Of a record that holds whole messages only, the rest of a flight is aligned when
it is aligned with the records after it. -/
theorem RecordSplit.aligned_cons {r : Bytes} {rs : List Bytes} {g ms : List HandshakeMsg}
    (h : RecordSplit r g []) (hms : ∀ m ∈ ms, m.WellFormed) :
    Aligned (r :: rs) (g ++ ms) ↔ Aligned rs ms := by
  constructor
  · rintro (hpre | ⟨g', h', he, hr, hrest⟩)
    · rw [h.bytes, List.append_nil, List.flatMap_append] at hpre
      have hnil : ms.flatMap HandshakeMsg.full = [] := by
        have hle := hpre.length_le
        rw [List.length_append] at hle
        exact List.length_eq_zero_iff.mp (by omega)
      rw [eq_nil_of_flatMap_full hms hnil]
      exact aligned_nil rs
    · have hg' : ∀ m ∈ g', m.WellFormed := fun m hm => by
        rcases List.mem_append.mp (he ▸ List.mem_append_left h' hm) with hm | hm
        · exact h.wellFormed m hm
        · exact hms m hm
      have hsplit : RecordSplit r g' [] := ⟨by rw [hr, List.append_nil], hg', rfl⟩
      have hgg : g = g' := congrArg Prod.fst (h.drain.symm.trans hsplit.drain)
      subst hgg
      rw [List.append_cancel_left he]
      exact hrest
  · exact fun hrest => .inr ⟨g, ms, rfl, by rw [h.bytes, List.append_nil], hrest⟩

/-- A record that ends inside a needed message is not aligned. -/
theorem RecordSplit.not_aligned {r tail : Bytes} {rs : List Bytes} {g ms : List HandshakeMsg}
    (h : RecordSplit r g tail) (hms : ∀ m ∈ ms, m.WellFormed) (htail : tail ≠ []) (hne : ms ≠ []) :
    ¬ Aligned (r :: rs) (g ++ ms) := by
  rintro (hpre | ⟨g', h', he, hr, -⟩)
  · cases ms with
    | nil => exact hne rfl
    | cons m ms =>
      rw [h.bytes, List.flatMap_append, List.prefix_append_right_inj, List.flatMap_cons] at hpre
      obtain ⟨c, hc⟩ := hpre
      have hnext := handshakeFramer_reads m (ms.flatMap HandshakeMsg.full ++ c) (hms m (by simp))
      rw [← List.append_assoc, hc, handshakeFramer_next, h.partial_tail] at hnext
      cases hnext
  · have hg' : ∀ m ∈ g', m.WellFormed := fun m hm => by
      rcases List.mem_append.mp (he ▸ List.mem_append_left h' hm) with hm | hm
      · exact h.wellFormed m hm
      · exact hms m hm
    have hsplit : RecordSplit r g' [] := ⟨by rw [hr, List.append_nil], hg', rfl⟩
    exact htail (congrArg Prod.snd (h.drain.symm.trans hsplit.drain))

theorem flightOutcome12_append {st st' : Tls12State} {g : List HandshakeMsg}
    {evs : List FlightEvent} (hg : handleAll12 st g = (evs, .ok (st', false)))
    (h : List HandshakeMsg) :
    flightOutcome12 st (g ++ h) =
      (evs ++ (flightOutcome12 st' h).1, (flightOutcome12 st' h).2) := by
  simp only [flightOutcome12, handleAll12_append hg]
  rcases handleAll12 st' h with ⟨evs', e | ⟨st₂, done⟩⟩
  · rfl
  · cases done <;> rfl

theorem flightOutcome12_log_ne_nil (st : Tls12State) {ms : List HandshakeMsg} (h : ms ≠ []) :
    (flightOutcome12 st ms).1 ≠ [] := by
  cases ms with
  | nil => exact absurd rfl h
  | cons m ms =>
    obtain ⟨-, st', hm⟩ | ⟨-, -, st', hm⟩ | ⟨-, e, hm⟩ := handleMessage12_spec st m
    · simp only [flightOutcome12, handleAll12, hm]
      rcases handleAll12 st' ms with ⟨evs, e | ⟨st₂, done⟩⟩
      · simp
      · cases done <;> simp
    · simp [flightOutcome12, handleAll12, hm]
    · simp [flightOutcome12, handleAll12, hm]

/-- The log of the messages alone has no dropped bytes. -/
theorem flightOutcome12_drops_nothing (st : Tls12State) (ms : List HandshakeMsg) (b : Bytes) :
    .dropped b ∉ (flightOutcome12 st ms).1 := by
  have hall : .dropped b ∉ (handleAll12 st ms).1 := by
    induction ms generalizing st with
    | nil => simp [handleAll12]
    | cons m ms ih =>
      obtain ⟨-, st', hm⟩ | ⟨-, -, st', hm⟩ | ⟨-, e, hm⟩ := handleMessage12_spec st m
      · simpa [handleAll12, hm] using ih st'
      · simp [handleAll12, hm]
      · simp [handleAll12, hm]
  unfold flightOutcome12
  revert hall
  rcases handleAll12 st ms with ⟨evs, e | ⟨st', done⟩⟩
  · exact id
  · cases done <;> exact id

theorem needed12_ne_nil {ms : List HandshakeMsg} (h : ms ≠ []) : needed12 ms ≠ [] := by
  cases ms with
  | nil => exact absurd rfl h
  | cons m ms =>
    rw [needed12]
    split_ifs <;> simp

/-- A plaintext handshake record. -/
def handshakeRecord (r : Bytes) : OwnedRecord := ⟨ContentType.handshake.code, 0x0303, r⟩

/-- The flight loop on an aligned cutting is the run of the messages; on any other
cutting already the log differs. -/
theorem readFlight12_spec {rs : List Bytes} {ms : List HandshakeMsg}
    (hms : ∀ m ∈ ms, m.WellFormed) (hlast : DoneLast ms)
    (hcut : rs.flatten = ms.flatMap HandshakeMsg.full) (st : Tls12State) :
    (Aligned rs (needed12 ms) →
        readFlight12 st (rs.map handshakeRecord) = flightOutcome12 st ms) ∧
      ((readFlight12 st (rs.map handshakeRecord)).1 = (flightOutcome12 st ms).1 →
        Aligned rs (needed12 ms)) := by
  induction rs generalizing ms st with
  | nil =>
    obtain rfl := eq_nil_of_flatMap_full hms hcut.symm
    exact ⟨fun _ => rfl, fun _ => rfl⟩
  | cons r rs ih =>
    rw [List.flatten_cons] at hcut
    obtain ⟨g, h, tail, hsplit, rfl, htail⟩ := exists_recordSplit hms hcut
    have hh : ∀ m ∈ h, m.WellFormed := fun m hm => hms m (List.mem_append_right g hm)
    have hneed : ∀ m ∈ needed12 h, m.WellFormed :=
      fun m hm => hh m ((needed12_isPrefix h).subset hm)
    have hwalk := walkRecord12_eq hsplit.wellFormed hsplit.partial_tail (n := r.length)
      (fun g₁ m g₂ he hk => by
        have hnil := hlast g₁ m (g₂ ++ h) (by rw [he]; simp) hk
        rw [List.append_eq_nil_iff] at hnil
        rw [hnil.2] at htail
        exact ⟨hnil.1, (List.append_eq_nil_iff.mp htail).1⟩)
      st (by rw [← hsplit.bytes])
    rw [← hsplit.bytes] at hwalk
    simp only [List.map_cons, readFlight12, handshakeRecord, ne_eq, not_true_eq_false, ↓reduceIte,
      hwalk]
    obtain ⟨evs, st', hg, -, hneeds⟩ | ⟨hne, happ, hneeds⟩ := handleAll12_cases st g
    · simp only [hg, hneeds, flightOutcome12_append hg]
      by_cases ht : tail = []
      · -- whole messages only: the rest of the flight is the rest of the cutting
        subst ht
        obtain ⟨ih₁, ih₂⟩ := ih hh hlast.of_append (by rwa [List.nil_append] at htail) st'
        simp only [↓reduceIte, hsplit.aligned_cons hneed, List.append_cancel_left_eq]
        exact ⟨fun hal => by rw [← ih₁ hal], ih₂⟩
      · -- the record ends inside a message that is needed
        have hne : h ≠ [] := by
          rintro rfl
          exact ht (List.append_eq_nil_iff.mp htail).1
        simp only [ht, ↓reduceIte, List.self_eq_append_right]
        exact ⟨fun hal => absurd hal (hsplit.not_aligned hneed ht (needed12_ne_nil hne)),
          fun hlog => absurd hlog (flightOutcome12_log_ne_nil st' hne)⟩
    · -- the flight ends with a message of this record
      refine ⟨fun _ => ?_, fun _ => .inl ?_⟩
      · simp only [flightOutcome12, happ]
        rcases hrun : handleAll12 st g with ⟨evs, e | ⟨st₂, done⟩⟩
        · rfl
        · cases done with
          | true => rfl
          | false => exact absurd (by rw [hrun]) (hne st₂)
      · obtain ⟨c, hc⟩ := needed12_isPrefix g
        rw [hneeds, hsplit.bytes]
        nth_rewrite 2 [← hc]
        rw [List.flatMap_append, List.append_assoc]
        exact List.prefix_append _ _

variable (E : Env) (X : KexFns) (c : ClientStart)

/-- The TLS 1.2 flight by its messages alone. -/
def connectOutcome12 (hello : HandshakeMsg) (ms : List HandshakeMsg) :
    Traced (Option (Tls12State × Bytes)) :=
  match acceptHello12 E X c hello with
  | .error e => ([.handled hello], .error e)
  | .ok none => ([.handled hello], .ok none)
  | .ok (some h) =>
    let flight := flightOutcome12 (.start h.transcript) ms
    (.handled hello :: flight.1,
      flight.2 >>= fun st => (verifyFlight12 E X c (serverRandomOf hello) st).map some)

/-- The ServerHello has its record to itself, unless it is refused, and the needed
messages after it are aligned. -/
def WellPacked (hello : HandshakeMsg) (ms : List HandshakeMsg) : List Bytes → Prop
  | [] => False
  | r :: rs =>
    ((∃ e, acceptHello12 E X c hello = .error e) ∧ hello.full <+: r) ∨
      (r = hello.full ∧ Aligned rs (needed12 ms))

variable {E X c}

theorem connectFlight12_eq_iff {hello : HandshakeMsg} {ms : List HandshakeMsg} {cut : List Bytes}
    (hhello : hello.WellFormed) (hms : ∀ m ∈ ms, m.WellFormed) (hlast : DoneLast ms)
    (h12 : acceptHello12 E X c hello ≠ .ok none) (hcut : Cutting (hello :: ms) cut) :
    connectFlight12 E X c (cut.map handshakeRecord) = connectOutcome12 E X c hello ms ↔
      WellPacked E X c hello ms cut := by
  have hflat := hcut.flatten
  cases cut with
  | nil =>
    rw [List.flatten_nil, List.flatMap_cons, eq_comm, List.append_eq_nil_iff] at hflat
    exact absurd hflat.1 hhello.full_ne_nil
  | cons r rs =>
    have hr : r ≠ [] := hcut.nonempty r (by simp)
    rw [List.flatten_cons, List.flatMap_cons] at hflat
    simp only [List.map_cons, connectFlight12, handshakeRecord, ne_eq, not_true_eq_false,
      ↓reduceIte, WellPacked]
    cases hnext : nextHandshake r with
    | none =>
      -- the record ends inside the ServerHello
      have hpre : ¬ hello.full <+: r := by
        rintro ⟨tail, rfl⟩
        have := handshakeFramer_reads hello tail hhello
        rw [handshakeFramer_next, hnext] at this
        cases this
      have hne : r ≠ hello.full := by
        rintro rfl
        exact hpre List.prefix_rfl
      simp only [HandshakeIter.next_of_none hnext hr, hpre, hne, and_false, false_and, or_self,
        iff_false, connectOutcome12]
      rcases acceptHello12 E X c hello with e | _ | h <;> simp
    | some p =>
      obtain ⟨m, tail⟩ := p
      obtain ⟨hm, hsplit⟩ := nextHandshake_spec hnext
      have hread := handshakeFramer_reads hello (ms.flatMap HandshakeMsg.full) hhello
      rw [← hflat, handshakeFramer.extend rs.flatten hnext, Option.some.injEq,
        Prod.mk.injEq] at hread
      obtain ⟨rfl, htail⟩ := hread
      simp only [HandshakeIter.next_of_some hnext, connectOutcome12]
      cases hacc : acceptHello12 E X c m with
      | error e => simp [hsplit]
      | ok o =>
        cases o with
        | none => exact absurd hacc h12
        | some h =>
          have hself : r = m.full ↔ tail = [] := by rw [hsplit, List.append_right_eq_self]
          simp only [reduceCtorEq, exists_false, false_and, false_or, hself, dropped]
          by_cases ht : tail = []
          · subst ht
            obtain ⟨h₁, h₂⟩ := readFlight12_spec hms hlast (by rwa [List.nil_append] at htail)
              (.start h.transcript)
            simp only [List.isEmpty_nil, ↓reduceIte, true_and, List.cons_append, List.nil_append]
            constructor
            · intro heq
              exact h₂ (List.cons.inj (congrArg Prod.fst heq)).2
            · intro hal
              rw [h₁ hal]
          · -- what follows the ServerHello in its record is dropped
            have hemp : tail.isEmpty = false := by simpa using ht
            simp only [hemp, ht, Bool.false_eq_true, false_and, ↓reduceIte, iff_false]
            intro heq
            have hlog := (List.cons.inj (congrArg Prod.fst heq)).2
            have hdrop := flightOutcome12_drops_nothing (.start h.transcript) ms tail
            rw [← hlog] at hdrop
            simp at hdrop

end Tls12

/-- Packing and meaning. The encrypted flight of TLS 1.3 runs by its messages in
every cutting; the flight of TLS 1.2 does so exactly in the well packed ones. -/
theorem packing_independent_iff (E : Env) (X : KexFns) (c : ClientStart) :
    (∀ (d : HandshakeDriver) (ms : List HandshakeMsg) (cut wire : List Bytes) (k : AeadKey),
      d.pendingHsBuf = [] → (∀ m ∈ ms, m.WellFormed) → Cutting ms cut →
      E.A.Opens d.serverHandshakeAead.aead d.serverHandshakeAead.key →
      AeadKey.sealAll E.A d.serverHandshakeAead (cut.map fun b => (.handshake, b)) =
        .ok (wire, k) →
      loopDispatched E d (wire.map ownedOf) = dispatched E d.toFlight ms ∧
        (handshakeLoop E d (wire.map ownedOf)).map (fun r => r.1.toFlight) =
          verdict E d.toFlight ms (.protocol "unexpected EOF")) ∧
    ∀ (hello : HandshakeMsg) (ms : List HandshakeMsg) (cut : List Bytes),
      hello.WellFormed → (∀ m ∈ ms, m.WellFormed) → DoneLast ms →
      acceptHello12 E X c hello ≠ .ok none → Cutting (hello :: ms) cut →
      (connectFlight12 E X c (cut.map handshakeRecord) = connectOutcome12 E X c hello ms ↔
        WellPacked E X c hello ms cut) :=
  ⟨fun _ _ _ _ _ hd hms hcut hA hs => handshakeLoop_sealed hd hms hcut hA hs,
    fun _ _ _ hhello hms hlast h12 hcut => connectFlight12_eq_iff hhello hms hlast h12 hcut⟩

/-! ### Samples -/

/-- A ServerHello without extensions that picks TLS 1.2. -/
def sampleHello12 : HandshakeMsg :=
  .of 2 ([3, 3] ++ List.replicate 32 5 ++ [0, 0xc0, 0x2f, 0, 0, 0])

/-- Certificate, ServerKeyExchange on X25519, ServerHelloDone. -/
def sampleFlight12 : List HandshakeMsg :=
  [.of 11 [0, 0, 4, 0, 0, 1, 7],
    .of 12 ([3, 0, 29, 32] ++ List.replicate 32 6 ++ [4, 3, 0, 1, 9]), .of 14 []]

def sampleOwnRecords : List Bytes := (sampleHello12 :: sampleFlight12).map HandshakeMsg.full

def sampleOneRecord : List Bytes := [sampleOwnRecords.flatten]

def sampleRun12 (cut : List Bytes) : Traced (Option (Tls12State × Bytes)) :=
  connectFlight12 (sampleEnv true) sampleKex sampleStart (cut.map handshakeRecord)

def sampleDriver : HandshakeDriver :=
  startTls13 (sampleEnv true) "example.com" "" [] .aes128Gcm .sha256 []

/-- EncryptedExtensions and Finished. -/
def sampleFlight13 : List HandshakeMsg := [.of 8 [0, 0], .of 20 (List.replicate 32 0)]

/-- Two records with the boundary inside the first header. -/
def sampleSplit : List Bytes :=
  [(sampleFlight13.flatMap HandshakeMsg.full).take 3,
    (sampleFlight13.flatMap HandshakeMsg.full).drop 3]

/-- A hello that is accepted without a handoff to TLS 1.2. -/
def handsNothing : Except TlsError (Option Tls12Handoff) → Bool
  | .ok none => true
  | _ => false

/-- A split flight under TLS 1.3, and a record for each message under TLS 1.2. -/
theorem packing_independent_sample :
    (∃ wire k, AeadKey.sealAll (sampleEnv true).A sampleDriver.serverHandshakeAead
          (sampleSplit.map fun b => (.handshake, b)) = .ok (wire, k) ∧
        loopDispatched (sampleEnv true) sampleDriver (wire.map ownedOf) =
          dispatched (sampleEnv true) sampleDriver.toFlight sampleFlight13) ∧
      sampleRun12 sampleOwnRecords =
        connectOutcome12 (sampleEnv true) sampleKex sampleStart sampleHello12 sampleFlight12 := by
  obtain ⟨h₁₃, h₁₂⟩ := packing_independent_iff (sampleEnv true) sampleKex sampleStart
  constructor
  · have hfits : ∀ m ∈ sampleSplit.map fun b => (ContentType.handshake, b),
        m.2.length ≤ 2 ^ 14 := by decide +kernel
    obtain ⟨wire, hs⟩ := AeadKey.sealAll_ok (sampleEnv true).A hfits
      (k := sampleDriver.serverHandshakeAead) (by decide +kernel)
    refine ⟨wire, _, hs, (h₁₃ sampleDriver sampleFlight13 sampleSplit wire _ rfl ?_ ?_ ?_ hs).1⟩
    · intro m hm
      simp only [sampleFlight13, List.mem_cons, List.not_mem_nil, or_false] at hm
      rcases hm with rfl | rfl <;> exact ⟨rfl, by decide +kernel⟩
    · exact ⟨by decide +kernel, by decide +kernel, by decide +kernel⟩
    · constructor
      · intro n ad p
        simp [sampleEnv]
      · intro n ad p
        simp [sampleEnv, Aead.tagLen]
  · have hneed : needed12 sampleFlight12 = sampleFlight12 := by decide +kernel
    refine (h₁₂ sampleHello12 sampleFlight12 sampleOwnRecords ⟨rfl, by decide +kernel⟩ ?_
      (doneLast_of_dropLast (by decide +kernel)) ?_
      ⟨by decide +kernel, by decide +kernel, by decide +kernel⟩).mpr (.inr ⟨rfl, ?_⟩)
    · intro m hm
      simp only [sampleFlight12, List.mem_cons, List.not_mem_nil, or_false] at hm
      rcases hm with rfl | rfl | rfl <;> exact ⟨rfl, by decide +kernel⟩
    · intro h
      have hsome : handsNothing (acceptHello12 (sampleEnv true) sampleKex sampleStart
        sampleHello12) = false := by decide +kernel
      rw [h] at hsome
      cases hsome
    · rw [hneed]
      exact aligned_own sampleFlight12

/-- One flight in two cuttings: a record for each message is accepted, one record
for the whole flight is not, and only its ServerHello is handled. -/
theorem packing_dependent :
    Cutting (sampleHello12 :: sampleFlight12) sampleOwnRecords ∧
      Cutting (sampleHello12 :: sampleFlight12) sampleOneRecord ∧
      (sampleRun12 sampleOwnRecords).2.isOk = true ∧
      (sampleRun12 sampleOneRecord).2.isOk = false ∧
      (sampleRun12 sampleOneRecord).1 =
        [.handled sampleHello12, .dropped (sampleFlight12.flatMap HandshakeMsg.full)] :=
  ⟨⟨by decide +kernel, by decide +kernel, by decide +kernel⟩,
    ⟨by decide +kernel, by decide +kernel, by decide +kernel⟩,
    by decide +kernel, by decide +kernel, by decide +kernel⟩

end Conclave.Tls
