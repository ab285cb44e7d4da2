import Conclave.Tls.Connect

/-! Server authentication. The loop over encrypted records is a fold of the
message handler over the reassembled stream, whatever the records were; a flight
in the order of the specification is then authenticated when it finishes. The
handler does not check the order, so a flight out of order can finish as well. -/

namespace Conclave.Tls

open Lib

/-! ### The stream behind the records -/

/-- The plaintext of the encrypted handshake records up to the first record that
is not one, and the error the loop ends with there. -/
def openRecords (A : AeadFns) : AeadKey → List OwnedRecord → Bytes × TlsError
  | _, [] => ([], .protocol "unexpected EOF")
  | key, rec :: recs =>
    if rec.contentType = ContentType.changeCipherSpec.code then openRecords A key recs
    else if rec.contentType = ContentType.applicationData.code then
      match AeadKey.openRecord A key (AeadKey.header rec.fragment.length) rec.fragment with
      | (.error e, _) => ([], .crypto s!"open: {e.display}")
      | (.ok (innerType, inner), key') =>
        if innerType ≠ .handshake then
          ([], .protocol s!"expected encrypted handshake, got {innerType.debug}")
        else (inner ++ (openRecords A key' recs).1, (openRecords A key' recs).2)
    else ([], .protocol s!"unexpected content type {rec.contentType} in handshake")

/-- The handshake messages the peer delivered in the records. -/
def delivered (E : Env) (d : HandshakeDriver) (recs : List OwnedRecord) : List HandshakeMsg :=
  (handshakeFramer.drain (d.pendingHsBuf ++ (openRecords E.A d.serverHandshakeAead recs).1)).1

/-- The verdict of the loop read off the messages: Finished, an error of a handler,
or the end of the records. -/
def verdict (E : Env) (f : Flight) (ms : List HandshakeMsg) (stop : TlsError) :
    Except TlsError Flight :=
  match processMessages E f ms with
  | .error e => .error e
  | .ok (f, true) => .ok f
  | .ok (_, false) => .error stop

section Run

variable {E : Env}

theorem processMessages_append_done {f f' : Flight} {ms : List HandshakeMsg}
    (h : processMessages E f ms = .ok (f', true)) (ns : List HandshakeMsg) :
    processMessages E f (ms ++ ns) = .ok (f', true) := by
  induction ms generalizing f with
  | nil => simp [processMessages] at h
  | cons m ms ih =>
    simp only [List.cons_append, processMessages, bind, Except.bind] at h ⊢
    cases hm : handleMessage E f m with
    | error e => simp [hm] at h
    | ok v =>
      simp only [hm] at h ⊢
      split_ifs at h ⊢
      · exact h
      · exact ih h

theorem processMessages_append_error {f : Flight} {e : TlsError} {ms : List HandshakeMsg}
    (h : processMessages E f ms = .error e) (ns : List HandshakeMsg) :
    processMessages E f (ms ++ ns) = .error e := by
  induction ms generalizing f with
  | nil => simp [processMessages] at h
  | cons m ms ih =>
    simp only [List.cons_append, processMessages, bind, Except.bind] at h ⊢
    cases hm : handleMessage E f m with
    | error e' => simpa [hm] using h
    | ok v =>
      simp only [hm] at h ⊢
      split_ifs at h ⊢
      exact ih h

theorem processMessages_append {f f' : Flight} {ms : List HandshakeMsg}
    (h : processMessages E f ms = .ok (f', false)) (ns : List HandshakeMsg) :
    processMessages E f (ms ++ ns) = processMessages E f' ns := by
  induction ms generalizing f with
  | nil =>
    simp only [processMessages, Except.ok.injEq, Prod.mk.injEq, and_true] at h
    rw [List.nil_append, h]
  | cons m ms ih =>
    simp only [List.cons_append, processMessages, bind, Except.bind] at h ⊢
    cases hm : handleMessage E f m with
    | error e => simp [hm] at h
    | ok v =>
      simp only [hm] at h ⊢
      split_ifs at h ⊢
      · simp at h
      · exact ih h

/-- The record loop is the message fold over the reassembled stream. -/
theorem handshakeLoop_verdict {d : HandshakeDriver} (hd : nextHandshake d.pendingHsBuf = none)
    (recs : List OwnedRecord) :
    (handshakeLoop E d recs).map (fun r => r.1.toFlight) =
      verdict E d.toFlight (delivered E d recs)
        (openRecords E.A d.serverHandshakeAead recs).2 := by
  induction recs generalizing d with
  | nil =>
    simp [handshakeLoop, delivered, openRecords, verdict, handshakeFramer.drain_none hd,
      processMessages, Except.map]
  | cons rec recs ih =>
    simp only [handshakeLoop, delivered, openRecords]
    split_ifs with hccs hdata
    · exact ih hd
    · rcases AeadKey.openRecord E.A d.serverHandshakeAead
          (AeadKey.header rec.fragment.length) rec.fragment with ⟨e | ⟨innerType, inner⟩, key⟩
      · simp [verdict, handshakeFramer.drain_none hd, processMessages, Except.map]
      · simp only
        split_ifs with hty
        · simp [verdict, handshakeFramer.drain_none hd, processMessages, Except.map]
        · -- the record's messages come first, the rest of the stream continues the remainder
          rw [← List.append_assoc, handshakeFramer.drain_append]
          simp only [consumeEncryptedHandshake, verdict, bind, Except.bind]
          cases hp : processMessages E d.toFlight
              (handshakeFramer.drain (d.pendingHsBuf ++ inner)).1 with
          | error e => simp only [processMessages_append_error hp, Except.map]
          | ok r =>
            obtain ⟨f, done⟩ := r
            cases done with
            | true => simp only [processMessages_append_done hp, ↓reduceIte, Except.map]
            | false =>
              simp only [processMessages_append hp, Bool.false_eq_true, ↓reduceIte]
              exact ih (handshakeFramer.next_drain_rest _)
    · simp [verdict, handshakeFramer.drain_none hd, processMessages, Except.map]

theorem handleMessage_done {f f' : Flight} {m : HandshakeMsg} {done : Bool}
    (h : handleMessage E f m = .ok (f', done)) :
    done = true ↔ m.kind = HandshakeType.finished.code := by
  unfold handleMessage at h
  split_ifs at h with h₁ h₂ h₃ h₄
  all_goals simp only [bind_eq_ok, Except.ok.injEq, Prod.mk.injEq] at h
  · simp [← h.2, h₁, HandshakeType.code]
  · obtain ⟨g, -, -, rfl⟩ := h
    simp [h₂, HandshakeType.code]
  · obtain ⟨-, -, -, rfl⟩ := h
    simp [h₃, HandshakeType.code]
  · obtain ⟨-, -, -, rfl⟩ := h
    simp [h₄]
  · simp [← h.2, h₄]
  · simp [← h.2, h₄]
  · obtain ⟨-, -, g, -, -, rfl⟩ := h
    simp [h₄]

/-- The messages through the first Finished. -/
def throughFinished : List HandshakeMsg → List HandshakeMsg
  | [] => []
  | m :: ms => if m.kind = HandshakeType.finished.code then [m] else m :: throughFinished ms

/-- A run that finishes does so on the messages through the first Finished. -/
theorem processMessages_throughFinished {f f' : Flight} {ms : List HandshakeMsg}
    (h : processMessages E f ms = .ok (f', true)) :
    processMessages E f (throughFinished ms) = .ok (f', true) := by
  induction ms generalizing f with
  | nil => exact h
  | cons m ms ih =>
    simp only [processMessages, bind_eq_ok, Prod.exists] at h
    obtain ⟨g, done, hm, hrest⟩ := h
    have hdone := handleMessage_done hm
    by_cases hk : m.kind = HandshakeType.finished.code
    · rw [hdone.mpr hk] at hm hrest
      simpa [throughFinished, hk, processMessages, hm, ok_bind] using hrest
    · have hf : done = false := by simpa using mt hdone.mp hk
      subst hf
      simp only [Bool.false_eq_true, ↓reduceIte] at hrest
      simpa [throughFinished, hk, processMessages, hm, ok_bind] using ih hrest

end Run

/-! ### What a certificate message says -/

section Certificates

variable {E : Env}

/-- The certificates of an entry list. -/
def entryCerts : ℕ → Bytes → Except TlsError (List Bytes)
  | 0, _ => .ok []
  | n + 1, entries =>
    if entries.isEmpty then .ok []
    else do
      let (cert, entries) ← mapErr (fun e => .decode s!"cert entry: {e.display}")
        (Decoder.vecU24 entries)
      let (_, entries) ← mapErr (fun e => .decode s!"cert ext: {e.display}")
        (Decoder.vecU16 entries)
      let certs ← entryCerts n entries
      .ok (cert :: certs)

/-- The certificates of a Certificate body. -/
def bodyCerts (body : Bytes) : Except TlsError (List Bytes) := do
  let (_, r) ← mapErr (fun e => .decode s!"cert ctx: {e.display}") (Decoder.vecU8 body)
  let (certList, _) ← mapErr (fun e => .decode s!"cert list: {e.display}") (Decoder.vecU24 r)
  entryCerts certList.length certList

/-- The certificates of a Certificate or compressed Certificate message. -/
def certificateList (E : Env) (m : HandshakeMsg) : Except TlsError (List Bytes) :=
  if m.kind = 25 then do
    let plain ← decompressCertificate E m.body
    bodyCerts plain
  else bodyCerts m.body

/-- `g` is `f` with more certificates, another staple and other SCTs. -/
def Flight.AddsCerts (f g : Flight) (certs : List Bytes) : Prop :=
  ∃ staple scts, g = { f with serverCerts := f.serverCerts ++ certs, ocspStaple := staple,
                              scts := scts }

theorem Flight.AddsCerts.refl (f : Flight) : f.AddsCerts f [] :=
  ⟨f.ocspStaple, f.scts, by simp⟩

theorem Flight.addsCerts_push (f : Flight) (cert : Bytes) :
    f.AddsCerts { f with serverCerts := f.serverCerts ++ [cert] } [cert] :=
  ⟨f.ocspStaple, f.scts, rfl⟩

theorem Flight.AddsCerts.trans {f g h : Flight} {as bs : List Bytes} (hfg : f.AddsCerts g as)
    (hgh : g.AddsCerts h bs) : f.AddsCerts h (as ++ bs) := by
  obtain ⟨o₁, s₁, rfl⟩ := hfg
  obtain ⟨o₂, s₂, rfl⟩ := hgh
  exact ⟨o₂, s₂, by simp⟩

theorem captureExtension_adds (f : Flight) (ty : ℕ) (body : Bytes) :
    f.AddsCerts (captureExtension E f ty body) [] := by
  unfold captureExtension
  split_ifs
  · split
    · rename_i a b c staple
      split_ifs
      · exact ⟨staple.take (be24 a b c), f.scts, by simp⟩
      · exact .refl f
    · exact .refl f
  · exact ⟨f.ocspStaple, f.scts ++ E.P.parseSctList body, by simp⟩
  · exact .refl f

theorem captureLeafEntryExtensions_adds (n : ℕ) (f : Flight) (ext : Bytes) :
    f.AddsCerts (captureLeafEntryExtensions E n f ext) [] := by
  induction n generalizing f ext with
  | zero => exact .refl f
  | succ n ih =>
    unfold captureLeafEntryExtensions
    split
    · split_ifs
      · exact .refl f
      · exact (captureExtension_adds f _ _).trans (ih _ _)
    · exact .refl f

theorem parseEntries_adds {n i : ℕ} {f g : Flight} {entries : Bytes}
    (h : parseEntries E n i f entries = .ok g) :
    ∃ certs, entryCerts n entries = .ok certs ∧ f.AddsCerts g certs := by
  induction n generalizing i f entries with
  | zero =>
    simp only [parseEntries, Except.ok.injEq] at h
    exact ⟨[], rfl, h ▸ .refl f⟩
  | succ n ih =>
    rw [parseEntries] at h
    by_cases he : entries.isEmpty
    · rw [if_pos he, Except.ok.injEq] at h
      exact ⟨[], by simp [entryCerts, he], h ▸ .refl f⟩
    · rw [if_neg he] at h
      simp only [bind_eq_ok, Prod.exists] at h
      obtain ⟨cert, r₁, hc, ext, r₂, hx, hrest⟩ := h
      obtain ⟨certs, hcs, hadds⟩ := ih hrest
      refine ⟨cert :: certs, ?_, ?_⟩
      · simp only [entryCerts, he, Bool.false_eq_true, ↓reduceIte, hc, hx, hcs, ok_bind]
      · have hleaf : f.AddsCerts (if i = 0 then captureLeafEntryExtensions E ext.length f ext
            else f) [] := by
          split_ifs
          · exact captureLeafEntryExtensions_adds _ f ext
          · exact .refl f
        exact (hleaf.trans (Flight.addsCerts_push _ cert)).trans hadds

theorem parseCertificate_adds {f g : Flight} {body : Bytes} (h : parseCertificate E f body = .ok g) :
    ∃ certs, bodyCerts body = .ok certs ∧ f.AddsCerts g certs := by
  simp only [parseCertificate, bind_eq_ok, Prod.exists] at h
  obtain ⟨ctx, r, hctx, certList, r₂, hlist, g', hentries, hempty⟩ := h
  split_ifs at hempty
  rw [Except.ok.injEq] at hempty
  subst hempty
  obtain ⟨certs, hcs, hadds⟩ := parseEntries_adds hentries
  exact ⟨certs, by simp only [bodyCerts, hctx, hlist, hcs, ok_bind], hadds⟩

def isCertificateKind (k : UInt8) : Prop := k = HandshakeType.certificate.code ∨ k = 25

/-- What each message leaves of the state: the transcript grows by the message,
certificates come from certificate messages only, the rest of what authentication
reads stays. -/
theorem handleMessage_keeps {f g : Flight} {m : HandshakeMsg} {done : Bool}
    (h : handleMessage E f m = .ok (g, done)) :
    g.transcript = f.transcript ++ m.full ∧ g.host = f.host ∧ g.hashAlg = f.hashAlg ∧
      g.serverHandshakeSecret = f.serverHandshakeSecret ∧
      (isCertificateKind m.kind →
        ∃ certs, certificateList E m = .ok certs ∧ g.serverCerts = f.serverCerts ++ certs) ∧
      (¬ isCertificateKind m.kind → g.serverCerts = f.serverCerts) := by
  unfold handleMessage at h
  split_ifs at h with h₁ h₂ h₃ h₄ h₅ h₆ h₇
  all_goals simp only [bind_eq_ok, Except.ok.injEq, Prod.mk.injEq] at h
  · obtain ⟨rfl, -⟩ := h
    simp [isCertificateKind, h₁, HandshakeType.code]
  · obtain ⟨g', hp, rfl, -⟩ := h
    obtain ⟨certs, hcs, staple, scts, rfl⟩ := parseCertificate_adds hp
    have hk : ¬ m.kind = 25 := by rw [h₂]; decide
    have hlist : certificateList E m = .ok certs := by rw [certificateList, if_neg hk, hcs]
    exact ⟨rfl, rfl, rfl, rfl, fun _ => ⟨certs, hlist, rfl⟩, fun hn => absurd (.inl h₂) hn⟩
  · obtain ⟨-, -, rfl, -⟩ := h
    simp [isCertificateKind, h₃, HandshakeType.code]
  · obtain ⟨-, -, rfl, -⟩ := h
    simp [isCertificateKind, h₄, HandshakeType.code]
  · obtain ⟨rfl, -⟩ := h
    simp [isCertificateKind, h₅, HandshakeType.code]
  · obtain ⟨rfl, -⟩ := h
    simp [isCertificateKind, h₆, HandshakeType.code]
  · obtain ⟨plain, hplain, g', hp, rfl, -⟩ := h
    obtain ⟨certs, hcs, staple, scts, rfl⟩ := parseCertificate_adds hp
    simp [isCertificateKind, h₇, certificateList, hplain, hcs, ok_bind]

end Certificates

/-! ### Authentication -/

/-- The orders of a server flight without PSK: EncryptedExtensions, an optional
CertificateRequest, Certificate (plain or compressed), CertificateVerify,
Finished. -/
def flightOrders : List (List UInt8) :=
  [[8, 11, 15, 20], [8, 25, 15, 20], [8, 13, 11, 15, 20], [8, 13, 25, 15, 20]]

def InOrder (ms : List HandshakeMsg) : Prop := ms.map HandshakeMsg.kind ∈ flightOrders

instance (ms : List HandshakeMsg) : Decidable (InOrder ms) :=
  inferInstanceAs (Decidable (_ ∈ _))

/-- Scheme and signature of a CertificateVerify body. -/
def certificateVerifyParts (body : Bytes) : Except TlsError (ℕ × Bytes) := do
  let (scheme, r) ← mapErr (fun e => .decode s!"cv scheme: {e.display}") (Decoder.u16 body)
  let (sig, _) ← mapErr (fun e => .decode s!"cv sig: {e.display}") (Decoder.vecU16 r)
  .ok (scheme, sig)

/-- What authenticates a server to a client in state `f`: one EncryptedExtensions,
one Certificate, one CertificateVerify and the Finished, in this order with at
most a CertificateRequest in its place; the chain and the host name accepted for
that Certificate; the signature valid under its leaf over the transcript through
it; the MAC right over the transcript through CertificateVerify. -/
structure Evidence (E : Env) (f : Flight) where
  ee : HandshakeMsg
  request : List HandshakeMsg
  cert : HandshakeMsg
  verify : HandshakeMsg
  finished : HandshakeMsg
  certs : List Bytes
  leaf : Cert
  code : ℕ
  scheme : SignatureScheme
  sig : Bytes
  ee_kind : ee.kind = HandshakeType.encryptedExtensions.code
  request_kind : request.map HandshakeMsg.kind ∈ [[], [HandshakeType.certificateRequest.code]]
  cert_kind : isCertificateKind cert.kind
  verify_kind : verify.kind = HandshakeType.certificateVerify.code
  finished_kind : finished.kind = HandshakeType.finished.code
  cert_list : certificateList E cert = .ok certs
  chain : verifyChain E certs f.host = .ok ()
  leaf_parsed : E.P.parseCert (certs.headD []) = .ok leaf
  host : certHostnameMatches E leaf f.host = true
  parts : certificateVerifyParts verify.body = .ok (code, sig)
  scheme_known : schemeOfCode code = some scheme
  signature : verifySignature E leaf scheme (signedContent (E.H.hash f.hashAlg
    (f.transcript ++ ([ee] ++ request ++ [cert]).flatMap HandshakeMsg.full))) sig = .ok ()
  mac : finished.body = finishedMac E f.hashAlg f.serverHandshakeSecret
    (f.transcript ++ ([ee] ++ request ++ [cert, verify]).flatMap HandshakeMsg.full)

def Evidence.messages {E : Env} {f : Flight} (e : Evidence E f) : List HandshakeMsg :=
  [e.ee] ++ e.request ++ [e.cert, e.verify, e.finished]

/-- The messages are an authenticated flight. -/
def Authenticated (E : Env) (f : Flight) (ms : List HandshakeMsg) : Prop :=
  ∃ e : Evidence E f, e.messages = ms

section Flights

variable {E : Env}

theorem Evidence.inOrder {f : Flight} (e : Evidence E f) : InOrder e.messages := by
  have hr := e.request_kind
  simp only [List.mem_cons, List.not_mem_nil, or_false] at hr
  simp only [InOrder, Evidence.messages, List.map_append, List.map_cons, List.map_nil, e.ee_kind,
    e.verify_kind, e.finished_kind]
  rcases hr with hr | hr <;> rcases e.cert_kind with hc | hc <;> rw [hr, hc] <;> decide

/-- A handled CertificateVerify, taken apart. -/
theorem verifyCertificateVerify_ok {f : Flight} {body : Bytes}
    (h : verifyCertificateVerify E f body = .ok ()) :
    ∃ code sig leaf scheme, certificateVerifyParts body = .ok (code, sig) ∧
      verifyChain E f.serverCerts f.host = .ok () ∧
      E.P.parseCert (f.serverCerts.headD []) = .ok leaf ∧
      certHostnameMatches E leaf f.host = true ∧ schemeOfCode code = some scheme ∧
      verifySignature E leaf scheme (signedContent (E.H.hash f.hashAlg f.transcript)) sig =
        .ok () := by
  simp only [verifyCertificateVerify, bind_eq_ok, mapErr_eq_ok, Prod.exists] at h
  obtain ⟨code, r, hcode, sig, r', hsig, _, hchain, _, _, _, _, leaf, hleaf, h⟩ := h
  split_ifs at h with hhost
  split at h
  · simp at h
  · rename_i scheme hscheme
    refine ⟨code, sig, leaf, scheme, ?_, hchain, hleaf, hhost, hscheme, h⟩
    simp only [certificateVerifyParts, hcode, mapErr, ok_bind, hsig]

theorem verifyServerFinished_ok {f : Flight} {body : Bytes}
    (h : verifyServerFinished E f body = .ok ()) :
    body = finishedMac E f.hashAlg f.serverHandshakeSecret f.transcript := by
  unfold verifyServerFinished at h
  split_ifs at h with _ hmac
  exact (not_not.mp hmac).symm

theorem handleMessage_verify {f g : Flight} {m : HandshakeMsg} {done : Bool}
    (hk : m.kind = HandshakeType.certificateVerify.code)
    (h : handleMessage E f m = .ok (g, done)) : verifyCertificateVerify E f m.body = .ok () := by
  rw [handleMessage, if_neg (by rw [hk]; decide), if_neg (by rw [hk]; decide), if_pos hk,
    bind_eq_ok] at h
  obtain ⟨_, hv, -⟩ := h
  exact hv

theorem handleMessage_finished {f g : Flight} {m : HandshakeMsg} {done : Bool}
    (hk : m.kind = HandshakeType.finished.code)
    (h : handleMessage E f m = .ok (g, done)) : verifyServerFinished E f m.body = .ok () := by
  rw [handleMessage, if_neg (by rw [hk]; decide), if_neg (by rw [hk]; decide),
    if_neg (by rw [hk]; decide), if_pos hk, bind_eq_ok] at h
  obtain ⟨_, hv, -⟩ := h
  exact hv

/-- One message that does not end the flight. -/
theorem processMessages_step {f f' : Flight} {m : HandshakeMsg} {ms : List HandshakeMsg}
    (hm : m.kind ≠ HandshakeType.finished.code)
    (h : processMessages E f (m :: ms) = .ok (f', true)) :
    ∃ g, handleMessage E f m = .ok (g, false) ∧ processMessages E g ms = .ok (f', true) := by
  simp only [processMessages, bind_eq_ok, Prod.exists] at h
  obtain ⟨g, done, hg, hrest⟩ := h
  obtain rfl : done = false := by simpa using mt (handleMessage_done hg).mp hm
  exact ⟨g, hg, hrest⟩

/-- Messages that neither end the flight nor carry certificates. -/
theorem processMessages_prefix {f f' : Flight} {pre ms : List HandshakeMsg}
    (hpre : ∀ m ∈ pre, m.kind ≠ HandshakeType.finished.code ∧ ¬ isCertificateKind m.kind)
    (h : processMessages E f (pre ++ ms) = .ok (f', true)) :
    ∃ g, g.transcript = f.transcript ++ pre.flatMap HandshakeMsg.full ∧ g.host = f.host ∧
      g.hashAlg = f.hashAlg ∧ g.serverHandshakeSecret = f.serverHandshakeSecret ∧
      g.serverCerts = f.serverCerts ∧ processMessages E g ms = .ok (f', true) := by
  induction pre generalizing f with
  | nil => exact ⟨f, by simp, rfl, rfl, rfl, rfl, h⟩
  | cons m pre ih =>
    obtain ⟨hfin, hcert⟩ := hpre m (by simp)
    obtain ⟨f₁, hm, hrest⟩ := processMessages_step hfin h
    obtain ⟨ht, hh, ha, hs, -, hc⟩ := handleMessage_keeps hm
    obtain ⟨g, gt, gh, ga, gs, gc, hg⟩ := ih (fun x hx => hpre x (by simp [hx])) hrest
    exact ⟨g, by simp [gt, ht], gh.trans hh, ga.trans ha, gs.trans hs, gc.trans (hc hcert), hg⟩

/-- A list in flight order, taken apart. -/
theorem InOrder.split {ms : List HandshakeMsg} (h : InOrder ms) :
    ∃ ee request cert verify finished, ms = [ee] ++ request ++ [cert, verify, finished] ∧
      ee.kind = HandshakeType.encryptedExtensions.code ∧
      request.map HandshakeMsg.kind ∈ [[], [HandshakeType.certificateRequest.code]] ∧
      isCertificateKind cert.kind ∧ verify.kind = HandshakeType.certificateVerify.code ∧
      finished.kind = HandshakeType.finished.code := by
  simp only [InOrder, flightOrders, List.mem_cons, List.not_mem_nil, or_false,
    List.map_eq_cons_iff, List.map_eq_nil_iff] at h
  rcases h with ⟨ee, -, rfl, hee, cert, -, rfl, hc, v, -, rfl, hv, f, -, rfl, hf, rfl⟩ |
    ⟨ee, -, rfl, hee, cert, -, rfl, hc, v, -, rfl, hv, f, -, rfl, hf, rfl⟩ |
    ⟨ee, -, rfl, hee, r, -, rfl, hr, cert, -, rfl, hc, v, -, rfl, hv, f, -, rfl, hf, rfl⟩ |
    ⟨ee, -, rfl, hee, r, -, rfl, hr, cert, -, rfl, hc, v, -, rfl, hv, f, -, rfl, hf, rfl⟩
  · exact ⟨ee, [], cert, v, f, rfl, hee, by simp, .inl hc, hv, hf⟩
  · exact ⟨ee, [], cert, v, f, rfl, hee, by simp, .inr hc, hv, hf⟩
  · exact ⟨ee, [r], cert, v, f, rfl, hee, by simp [hr, HandshakeType.code], .inl hc, hv, hf⟩
  · exact ⟨ee, [r], cert, v, f, rfl, hee, by simp [hr, HandshakeType.code], .inr hc, hv, hf⟩

/-- A flight in order that finishes authenticates the server. -/
theorem processMessages_authenticated {f f' : Flight} {ms : List HandshakeMsg}
    (hfresh : f.serverCerts = []) (horder : InOrder ms)
    (h : processMessages E f ms = .ok (f', true)) : Authenticated E f ms := by
  obtain ⟨ee, request, cert, verify, finished, rfl, hee, hreq, hcert, hverify, hfin⟩ := horder.split
  have hpre : ∀ m ∈ [ee] ++ request,
      m.kind ≠ HandshakeType.finished.code ∧ ¬ isCertificateKind m.kind := by
    intro m hm
    have hkind : m.kind = 8 ∨ m.kind = 13 := by
      rcases List.mem_append.mp hm with hm | hm
      · obtain rfl := List.mem_singleton.mp hm
        exact .inl hee
      · right
        have hk := List.mem_map_of_mem (f := HandshakeMsg.kind) hm
        simp only [List.mem_cons, List.not_mem_nil, or_false] at hreq
        rcases hreq with hreq | hreq <;> rw [hreq] at hk
        · simp at hk
        · simpa [HandshakeType.code] using hk
    rcases hkind with hk | hk <;> rw [hk] <;> exact ⟨by decide, by simp [isCertificateKind, HandshakeType.code]⟩
  obtain ⟨g, gt, gh, ga, gs, gc, hg⟩ := processMessages_prefix hpre h
  -- Certificate
  obtain ⟨g₁, hcm, hg₁⟩ := processMessages_step
    (by rcases hcert with hk | hk <;> rw [hk] <;> decide) hg
  obtain ⟨ct, ch, ca, cs, hlist, -⟩ := handleMessage_keeps hcm
  obtain ⟨certs, hcerts, hg₁certs⟩ := hlist hcert
  rw [gc, hfresh, List.nil_append] at hg₁certs
  -- CertificateVerify
  obtain ⟨g₂, hvm, hg₂⟩ := processMessages_step (by rw [hverify]; decide) hg₁
  obtain ⟨vt, vh, va, vs, -, -⟩ := handleMessage_keeps hvm
  obtain ⟨code, sig, leaf, scheme, hparts, hchain, hleaf, hhost, hscheme, hsig⟩ :=
    verifyCertificateVerify_ok (handleMessage_verify hverify hvm)
  -- Finished
  simp only [processMessages, bind_eq_ok, Prod.exists] at hg₂
  obtain ⟨g₃, done, hfm, -⟩ := hg₂
  have hmac := verifyServerFinished_ok (handleMessage_finished hfin hfm)
  have ht₁ : g₁.transcript =
      f.transcript ++ ([ee] ++ request ++ [cert]).flatMap HandshakeMsg.full := by
    rw [ct, gt, List.append_assoc, List.flatMap_append]; simp
  have ht₂ : g₂.transcript =
      f.transcript ++ ([ee] ++ request ++ [cert, verify]).flatMap HandshakeMsg.full := by
    rw [vt, ht₁]; simp
  rw [hg₁certs, ch, gh] at hchain
  rw [hg₁certs] at hleaf
  rw [ch, gh] at hhost
  rw [ca, ga, ht₁] at hsig
  rw [va, ca, ga, vs, cs, gs, ht₂] at hmac
  exact ⟨⟨ee, request, cert, verify, finished, certs, leaf, code, scheme, sig, hee, hreq, hcert,
    hverify, hfin, hcerts, hchain, hleaf, hhost, hparts, hscheme, hsig, hmac⟩, rfl⟩

end Flights

/-- The flight the peer delivered: its messages through the first Finished. -/
def serverFlight (E : Env) (d : HandshakeDriver) (recs : List OwnedRecord) : List HandshakeMsg :=
  throughFinished (delivered E d recs)

/-- A loop that ended did so on the peer's flight. -/
theorem handshakeLoop_flight {E : Env} {d d' : HandshakeDriver} {recs rest : List OwnedRecord}
    (hd : d.Fresh) (h : handshakeLoop E d recs = .ok (d', rest)) :
    processMessages E d.toFlight (serverFlight E d recs) = .ok (d'.toFlight, true) := by
  have hv := handshakeLoop_verdict (E := E) (d := d) (by rw [hd.pending]; rfl) recs
  rw [h] at hv
  apply processMessages_throughFinished
  simp only [Except.map, verdict] at hv
  split at hv
  · cases hv
  · rename_i f hp
    rw [hp, Except.ok.inj hv]
  · cases hv

/-- When the client reaches the application keys, the server is authenticated
exactly if its messages came in the order of the specification: the loop checks
every message it is given, and checks no order. -/
theorem established_authenticated_iff (E : Env) (X : KexFns) (c : ClientStart) (hello : Bytes)
    (d : HandshakeDriver) (recs : List OwnedRecord) (conn : Established)
    (hstart : consumeServerHello E X c hello = .ok (.tls13 d))
    (hconn : finishTls13 E d recs = .ok conn) :
    Authenticated E d.toFlight (serverFlight E d recs) ↔ InOrder (serverFlight E d recs) := by
  have hfresh := consumeServerHello_fresh hstart
  simp only [finishTls13, bind_eq_ok, Prod.exists] at hconn
  obtain ⟨d', rest, hloop, -⟩ := hconn
  constructor
  · rintro ⟨e, he⟩
    exact he ▸ e.inOrder
  · intro horder
    exact processMessages_authenticated hfresh.certs horder (handshakeLoop_flight hfresh hloop)

/-! ### Two runs -/

/-- Primitives with readable outputs: the tag is sixteen zero bytes, every hash is
zero. `trusted` says whether the platform accepts a chain. -/
def sampleEnv (trusted : Bool) : Env where
  A := { sealWith := fun _ _ _ _ p => p ++ List.replicate 16 0
         openWith := fun _ _ _ _ c => .ok (c.take (c.length - 16)) }
  H := { hash := fun a _ => List.replicate a.outputLen 0
         hmac := fun a _ _ => List.replicate a.outputLen 0
         hkdfExtract := fun a _ _ => List.replicate a.outputLen 0
         hkdfExpand := fun _ _ _ n => List.replicate n 0
         expand_length := fun _ _ _ _ => List.length_replicate }
  P := { verifyChain := fun _ _ => if trusted then .ok () else .error "untrusted root"
         parseCert := fun _ => .ok ⟨.ecP256, 4 :: List.replicate 64 1, none, ["example.com"]⟩
         hostnameMatches := fun host name => host == name
         readSequence := .ok
         readIntegerUnsigned := fun b => .ok (b, [])
         verifyPss := fun _ _ _ _ _ => trusted
         verifyPkcs1V15 := fun _ _ _ _ _ => trusted
         parseDerSignature := fun _ s => some (s, [])
         ecdsaVerify := fun _ _ _ _ _ _ => trusted
         sha := fun _ b => b
         p256VerifyPrehashed := fun _ _ _ _ _ => trusted
         ocsp := fun _ _ => none
         parseSctList := fun _ => []
         ctEvaluate := fun _ _ => .compliant
         decodeBrotli := .ok }
  nowMs := 0
  ctPolicy := none

def sampleKex : KexFns :=
  ⟨fun _ _ => List.replicate 32 0, fun _ _ => none, fun _ _ => none⟩

def sampleStart : ClientStart :=
  ⟨"example.com", List.replicate 32 1, [], [], List.replicate 32 2, [1, 0, 0, 0]⟩

/-- A ServerHello for TLS 1.3 with an X25519 share. -/
def sampleServerHello : Bytes :=
  wrapHandshake 2 ([3, 3] ++ List.replicate 32 5 ++ [0, 0x13, 1, 0, 0, 46, 0, 43, 0, 2, 3, 4,
    0, 51, 0, 36, 0, 0x1d, 0, 32] ++ List.replicate 32 6)

/-- One encrypted record that holds the given handshake bytes. -/
def sampleRecord (b : Bytes) : OwnedRecord := ⟨23, 0x0303, b ++ 22 :: List.replicate 16 0⟩

def sampleEe : Bytes := wrapHandshake 8 [0, 0]
def sampleCert : Bytes := wrapHandshake 11 [0, 0, 0, 6, 0, 0, 1, 7, 0, 0]
def sampleVerify : Bytes := wrapHandshake 15 [4, 3, 0, 1, 9]
def sampleFinished : Bytes := wrapHandshake 20 (List.replicate 32 0)

/-- The ServerHello is accepted and the records lead to the application keys, for a
flight in the given order. -/
def sampleReaches (trusted inOrder : Bool) (recs : List OwnedRecord) : Bool :=
  match consumeServerHello (sampleEnv trusted) sampleKex sampleStart sampleServerHello with
  | .ok (.tls13 d) =>
    match finishTls13 (sampleEnv trusted) d recs with
    | .ok _ => decide (InOrder (serverFlight (sampleEnv trusted) d recs)) == inOrder
    | .error _ => false
  | _ => false

theorem sampleReaches_spec (trusted inOrder : Bool) (recs : List OwnedRecord)
    (h : sampleReaches trusted inOrder recs = true) :
    ∃ d conn, consumeServerHello (sampleEnv trusted) sampleKex sampleStart sampleServerHello =
        .ok (.tls13 d) ∧ finishTls13 (sampleEnv trusted) d recs = .ok conn ∧
      (InOrder (serverFlight (sampleEnv trusted) d recs) ↔ inOrder = true) := by
  unfold sampleReaches at h
  split at h
  · rename_i d hd
    split at h
    · rename_i conn hconn
      refine ⟨d, conn, hd, hconn, ?_⟩
      rw [beq_iff_eq] at h
      rw [← h, decide_eq_true_iff]
    · cases h
  · cases h

/-- The application keys are installed for a peer that sent EncryptedExtensions and
Finished and nothing else: no certificate, no chain, no signature. -/
theorem established_unauthenticated :
    ∃ d conn, consumeServerHello (sampleEnv false) sampleKex sampleStart sampleServerHello =
        .ok (.tls13 d) ∧
      finishTls13 (sampleEnv false) d [sampleRecord (sampleEe ++ sampleFinished)] = .ok conn ∧
      ¬ Authenticated (sampleEnv false) d.toFlight
        (serverFlight (sampleEnv false) d [sampleRecord (sampleEe ++ sampleFinished)]) := by
  obtain ⟨d, conn, hd, hconn, -⟩ := sampleReaches_spec false false
    [sampleRecord (sampleEe ++ sampleFinished)] (by decide +kernel)
  refine ⟨d, conn, hd, hconn, ?_⟩
  rintro ⟨e, -⟩
  have hc := e.chain
  simp only [verifyChain, sampleEnv, Bool.false_eq_true, ↓reduceIte] at hc
  split at hc <;> cases hc

/-- A flight in order that reaches the application keys is authenticated. -/
theorem established_authenticated_sample :
    ∃ d conn, consumeServerHello (sampleEnv true) sampleKex sampleStart sampleServerHello =
        .ok (.tls13 d) ∧
      finishTls13 (sampleEnv true) d [sampleRecord (sampleEe ++ sampleCert),
        sampleRecord (sampleVerify ++ sampleFinished)] = .ok conn ∧
      Authenticated (sampleEnv true) d.toFlight (serverFlight (sampleEnv true) d
        [sampleRecord (sampleEe ++ sampleCert), sampleRecord (sampleVerify ++ sampleFinished)]) := by
  obtain ⟨d, conn, hd, hconn, horder⟩ := sampleReaches_spec true true
    [sampleRecord (sampleEe ++ sampleCert), sampleRecord (sampleVerify ++ sampleFinished)]
    (by decide +kernel)
  exact ⟨d, conn, hd, hconn,
    (established_authenticated_iff _ _ _ _ _ _ _ hd hconn).mpr (horder.mpr rfl)⟩

end Conclave.Tls
