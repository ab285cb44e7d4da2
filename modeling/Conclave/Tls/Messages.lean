import Conclave.Lib.Framing
import Conclave.Lib.Outcome

/-! TLS message types and wire decoding: content and handshake types, the
bounds-checked decoder, the walk over the handshake messages of one record
(`HandshakeIter`), ServerHello, and the reassembly framing of handshake
messages that both walks share. -/

namespace Conclave.Tls

open Lib

/-! ### Types -/

inductive ContentType where
  | changeCipherSpec | alert | handshake | applicationData
  deriving DecidableEq, Repr

def ContentType.code : ContentType → UInt8
  | .changeCipherSpec => 20
  | .alert => 21
  | .handshake => 22
  | .applicationData => 23

inductive HandshakeType where
  | clientHello | serverHello | newSessionTicket | endOfEarlyData | encryptedExtensions
  | certificate | serverKeyExchange | certificateRequest | serverHelloDone | certificateVerify
  | clientKeyExchange | finished
  deriving DecidableEq, Repr

def HandshakeType.code : HandshakeType → UInt8
  | .clientHello => 1
  | .serverHello => 2
  | .newSessionTicket => 4
  | .endOfEarlyData => 5
  | .encryptedExtensions => 8
  | .certificate => 11
  | .serverKeyExchange => 12
  | .certificateRequest => 13
  | .serverHelloDone => 14
  | .certificateVerify => 15
  | .clientKeyExchange => 16
  | .finished => 20

inductive TlsError where
  | io (e : String)
  | decode (s : String)
  | protocol (s : String)
  | crypto (s : String)
  | unsupportedServerVersion (v : ℕ)
  | unsupportedCipherSuite (c : ℕ)
  | unsupportedKeyShareGroup (g : ℕ)
  | unsupportedSignatureScheme (s : ℕ)
  | certVerifyFailed
  | chainInvalid (s : String)
  | serverFinishedMismatch
  | noCertificate
  deriving DecidableEq, Repr

/-- The error of one step carried into the TLS error type by `map_err`. -/
def mapErr {ε α : Type*} (f : ε → TlsError) : Except ε α → Except TlsError α
  | .ok a => .ok a
  | .error e => .error (f e)

@[simp] theorem mapErr_eq_ok {ε α : Type*} {f : ε → TlsError} {x : Except ε α} {a : α} :
    mapErr f x = .ok a ↔ x = .ok a := by
  cases x <;> simp [mapErr]

/-! ### Decoder -/

inductive DecodeError where
  | short
  | bad (s : String)
  | unexpected (expected got : UInt8)
  deriving DecidableEq, Repr

def DecodeError.display : DecodeError → String
  | .short => "truncated"
  | .bad s => s!"bad: {s}"
  | .unexpected expected got => s!"unexpected: expected {expected}, got {got}"

namespace Decoder

def u8 : Bytes → Except DecodeError (UInt8 × Bytes)
  | v :: d => .ok (v, d)
  | _ => .error .short

def u16 : Bytes → Except DecodeError (ℕ × Bytes)
  | a :: b :: d => .ok (be16 a b, d)
  | _ => .error .short

def u24 : Bytes → Except DecodeError (ℕ × Bytes)
  | a :: b :: c :: d => .ok (be24 a b c, d)
  | _ => .error .short

def take (n : ℕ) (d : Bytes) : Except DecodeError (Bytes × Bytes) :=
  if d.length < n then .error .short else .ok (d.take n, d.drop n)

/-- A `<u8 len><bytes>` vector. -/
def vecU8 (d : Bytes) : Except DecodeError (Bytes × Bytes) := do
  let (n, d) ← u8 d
  take n.toNat d

/-- A `<u16 len><bytes>` vector. -/
def vecU16 (d : Bytes) : Except DecodeError (Bytes × Bytes) := do
  let (n, d) ← u16 d
  take n d

/-- A `<u24 len><bytes>` vector. -/
def vecU24 (d : Bytes) : Except DecodeError (Bytes × Bytes) := do
  let (n, d) ← u24 d
  take n d

end Decoder

/-- Bytes of a `core::str::from_utf8` conversion. -/
def fromUtf8 (b : Bytes) : Option String := String.fromUTF8? ⟨b.toArray⟩

/-! ### Handshake messages -/

/-- A handshake message as the client holds it: type, body, and the whole
type-length-body encoding that goes into the transcript. -/
structure HandshakeMsg where
  kind : UInt8
  body : Bytes
  full : Bytes
  deriving DecidableEq, Repr

/-- `<HandshakeType><u24 length><body>`. -/
def wrapHandshake (kind : UInt8) (body : Bytes) : Bytes :=
  kind :: toBe 3 body.length ++ body

def HandshakeMsg.of (kind : UInt8) (body : Bytes) : HandshakeMsg :=
  ⟨kind, body, wrapHandshake kind body⟩

/-- One step of `HandshakeIter`: `none` at the end of the record. -/
def HandshakeIter.next (buf : Bytes) : Option (Except DecodeError (HandshakeMsg × Bytes)) :=
  if buf.isEmpty then none
  else some do
    let (kind, d) ← Decoder.u8 buf
    let (body, d) ← Decoder.vecU24 d
    .ok (⟨kind, body, buf.take (buf.length - d.length)⟩, d)

/-- The items of a whole walk. The callers stop at the first error, so the walk
ends there. -/
def HandshakeIter.itemsFuel : ℕ → Bytes → List (Except DecodeError HandshakeMsg)
  | 0, _ => []
  | n + 1, buf =>
    match HandshakeIter.next buf with
    | none => []
    | some (.error e) => [.error e]
    | some (.ok (m, d)) => .ok m :: itemsFuel n d

def HandshakeIter.items (buf : Bytes) : List (Except DecodeError HandshakeMsg) :=
  HandshakeIter.itemsFuel buf.length buf

/-- One complete message off the reassembly buffer: the loop test
`consumed + 4 <= buf.len()` and `consumed + total <= buf.len()`. -/
def nextHandshake : Bytes → Option (HandshakeMsg × Bytes)
  | k :: a :: b :: c :: rest =>
    if be24 a b c ≤ rest.length then
      some (⟨k, rest.take (be24 a b c), k :: a :: b :: c :: rest.take (be24 a b c)⟩,
        rest.drop (be24 a b c))
    else none
  | _ => none

/-- Handshake messages as self-delimiting frames. -/
def handshakeFramer : Framer UInt8 HandshakeMsg where
  next := nextHandshake
  shrinks := by
    intro b m r h
    match b with
    | k :: x :: y :: z :: rest =>
      simp only [nextHandshake] at h
      split_ifs at h
      simp only [Option.some.injEq, Prod.mk.injEq] at h
      simp only [← h.2, List.length_drop, List.length_cons]
      omega
    | [] | [_] | [_, _] | [_, _, _] => simp [nextHandshake] at h
  extend := by
    intro b m r c h
    match b with
    | k :: x :: y :: z :: rest =>
      simp only [nextHandshake] at h
      split_ifs at h with hl
      simp only [Option.some.injEq, Prod.mk.injEq] at h
      have hl' : be24 x y z ≤ (rest ++ c).length := by
        rw [List.length_append]; omega
      simp only [List.cons_append, nextHandshake, hl', ↓reduceIte, Option.some.injEq,
        Prod.mk.injEq, List.take_append_of_le_length hl, List.drop_append_of_le_length hl]
      exact ⟨h.1, by rw [h.2]⟩
    | [] | [_] | [_, _] | [_, _, _] => simp [nextHandshake] at h

@[simp] theorem handshakeFramer_next (b : Bytes) : handshakeFramer.next b = nextHandshake b := rfl

/-- The encodings the protocol allows: the length fits its three bytes. -/
def HandshakeMsg.WellFormed (m : HandshakeMsg) : Prop :=
  m.full = wrapHandshake m.kind m.body ∧ m.body.length < 2 ^ 24

theorem handshakeFramer_reads :
    handshakeFramer.Reads HandshakeMsg.full HandshakeMsg.WellFormed := by
  rintro ⟨kind, body, full⟩ c ⟨hf, hb⟩
  simp only at hf hb ⊢
  subst hf
  simp only [wrapHandshake, toBe_three, List.cons_append, List.nil_append, handshakeFramer_next,
    nextHandshake, be24_ofNat hb, List.length_append, Nat.le_add_right, ↓reduceIte,
    List.take_left', List.drop_left']

/-- What the framer reads is well formed and is the front of the buffer. -/
theorem nextHandshake_spec {b r : Bytes} {m : HandshakeMsg} (h : nextHandshake b = some (m, r)) :
    m.WellFormed ∧ b = m.full ++ r := by
  match b with
  | k :: x :: y :: z :: rest =>
    simp only [nextHandshake] at h
    split_ifs at h with hl
    simp only [Option.some.injEq, Prod.mk.injEq] at h
    obtain ⟨rfl, rfl⟩ := h
    have hlen : (rest.take (be24 x y z)).length = be24 x y z := by
      rw [List.length_take]; omega
    refine ⟨⟨?_, ?_⟩, by simp⟩
    · simp only [wrapHandshake, hlen, toBe_be24, List.cons_append, List.nil_append]
    · rw [hlen]; exact be24_lt x y z
  | [] | [_] | [_, _] | [_, _, _] => simp [nextHandshake] at h

theorem handshakeFramer_splits :
    handshakeFramer.Splits HandshakeMsg.full HandshakeMsg.WellFormed := nextHandshake_spec

/-- The record walk and the reassembly framing read the same front message. -/
theorem HandshakeIter.next_of_some {b r : Bytes} {m : HandshakeMsg}
    (h : nextHandshake b = some (m, r)) : HandshakeIter.next b = some (.ok (m, r)) := by
  match b with
  | k :: x :: y :: z :: rest =>
    simp only [nextHandshake] at h
    split_ifs at h with hl
    simp only [Option.some.injEq, Prod.mk.injEq] at h
    obtain ⟨rfl, rfl⟩ := h
    have hn : ¬ rest.length < be24 x y z := by omega
    have ht : (k :: x :: y :: z :: rest).length - (rest.drop (be24 x y z)).length =
        be24 x y z + 1 + 1 + 1 + 1 := by
      simp only [List.length_cons, List.length_drop]; omega
    simp only [HandshakeIter.next, List.isEmpty_cons, Bool.false_eq_true, ↓reduceIte, Decoder.u8,
      Decoder.vecU24, Decoder.u24, Decoder.take, bind, Except.bind, hn, ht, List.take_succ_cons]
  | [] | [_] | [_, _] | [_, _, _] => simp [nextHandshake] at h

theorem HandshakeIter.next_of_none {b : Bytes} (h : nextHandshake b = none) (hb : b ≠ []) :
    HandshakeIter.next b = some (.error .short) := by
  match b with
  | k :: x :: y :: z :: rest =>
    simp only [nextHandshake] at h
    split_ifs at h with hl
    have hn : rest.length < be24 x y z := by omega
    simp [HandshakeIter.next, Decoder.u8, Decoder.vecU24, Decoder.u24, Decoder.take, bind,
      Except.bind, hn]
  | [] => exact absurd rfl hb
  | [_] | [_, _] | [_, _, _] =>
    simp [HandshakeIter.next, Decoder.u8, Decoder.vecU24, Decoder.u24, bind, Except.bind]

/-- A record walk yields the complete messages of the record, then an error
exactly when the record ends inside a message. -/
theorem HandshakeIter.items_eq (b : Bytes) :
    HandshakeIter.items b = (handshakeFramer.drain b).1.map .ok ++
      (if (handshakeFramer.drain b).2 = [] then [] else [.error .short]) := by
  suffices h : ∀ n, b.length ≤ n → HandshakeIter.itemsFuel n b =
      (handshakeFramer.drain b).1.map .ok ++
        (if (handshakeFramer.drain b).2 = [] then [] else [.error .short]) from h _ le_rfl
  induction b using handshakeFramer.drain_induction with
  | stop b h =>
    intro n hn
    rw [handshakeFramer.drain_none h]
    by_cases hb : b = []
    · subst hb
      cases n <;> simp [HandshakeIter.itemsFuel, HandshakeIter.next]
    · have hl := List.length_pos_of_ne_nil hb
      obtain ⟨n, rfl⟩ := Nat.exists_eq_succ_of_ne_zero (show n ≠ 0 by omega)
      simp [HandshakeIter.itemsFuel, HandshakeIter.next_of_none h hb, hb]
  | step b m r h ih =>
    intro n hn
    have hs := handshakeFramer.shrinks h
    obtain ⟨n, rfl⟩ := Nat.exists_eq_succ_of_ne_zero (show n ≠ 0 by omega)
    rw [handshakeFramer.drain_some h]
    simp only [HandshakeIter.itemsFuel, HandshakeIter.next_of_some h, ih n (by omega),
      List.map_cons, List.cons_append]

/-! ### ServerHello -/

structure ServerHello where
  legacyVersion : ℕ
  serverRandom : Bytes
  legacySessionIdEcho : Bytes
  cipherSuite : ℕ
  legacyCompressionMethod : UInt8
  extensions : Bytes
  keyShareGroup : Option ℕ
  keyShareKeyExchange : Option Bytes
  selectedVersion : Option ℕ
  alpn : Option String
  deriving DecidableEq

/-- Extension codes the client reads out of a ServerHello. -/
def extKeyShare : ℕ := 51
def extSupportedVersions : ℕ := 43
def extAlpn : ℕ := 16

/-- One ServerHello extension: `key_share`, `supported_versions` and ALPN are
read, everything else is ignored. -/
def readServerHelloExtension (sh : ServerHello) (extType : ℕ) (extData : Bytes) :
    Except DecodeError ServerHello :=
  if extType = extKeyShare then do
    let (group, k) ← Decoder.u16 extData
    let (ke, _) ← Decoder.vecU16 k
    .ok { sh with keyShareGroup := some group, keyShareKeyExchange := some ke }
  else if extType = extSupportedVersions then do
    let (v, _) ← Decoder.u16 extData
    .ok { sh with selectedVersion := some v }
  else if extType = extAlpn then do
    let (_, a) ← Decoder.u16 extData
    let (proto, _) ← Decoder.vecU8 a
    match fromUtf8 proto with
    | some s => .ok { sh with alpn := some s }
    | none => .ok sh
  else .ok sh

/-- The extension loop; every turn consumes at least four bytes. -/
def readServerHelloExtensions : ℕ → ServerHello → Bytes → Except DecodeError ServerHello
  | 0, sh, _ => .ok sh
  | n + 1, sh, ext =>
    if ext.isEmpty then .ok sh
    else do
      let (extType, ext) ← Decoder.u16 ext
      let (extData, ext) ← Decoder.vecU16 ext
      let sh ← readServerHelloExtension sh extType extData
      readServerHelloExtensions n sh ext

def parseServerHello (body : Bytes) : Except DecodeError ServerHello := do
  let (legacyVersion, d) ← Decoder.u16 body
  let (serverRandom, d) ← Decoder.take 32 d
  let (sessionIdEcho, d) ← Decoder.vecU8 d
  let (cipherSuite, d) ← Decoder.u16 d
  let (compression, d) ← Decoder.u8 d
  let (extensions, d) ← Decoder.vecU16 d
  if d.isEmpty then
    readServerHelloExtensions extensions.length
      { legacyVersion := legacyVersion, serverRandom := serverRandom,
        legacySessionIdEcho := sessionIdEcho, cipherSuite := cipherSuite,
        legacyCompressionMethod := compression, extensions := extensions,
        keyShareGroup := none, keyShareKeyExchange := none, selectedVersion := none, alpn := none }
      extensions
  else .error (.bad "trailing ServerHello data")

/-- The IANA name of an alert description. -/
def alertDescriptionName : UInt8 → String
  | 0 => "close_notify"
  | 10 => "unexpected_message"
  | 20 => "bad_record_mac"
  | 21 => "decryption_failed_RESERVED"
  | 22 => "record_overflow"
  | 30 => "decompression_failure_RESERVED"
  | 40 => "handshake_failure"
  | 41 => "no_certificate_RESERVED"
  | 42 => "bad_certificate"
  | 43 => "unsupported_certificate"
  | 44 => "certificate_revoked"
  | 45 => "certificate_expired"
  | 46 => "certificate_unknown"
  | 47 => "illegal_parameter"
  | 48 => "unknown_ca"
  | 49 => "access_denied"
  | 50 => "decode_error"
  | 51 => "decrypt_error"
  | 60 => "export_restriction_RESERVED"
  | 70 => "protocol_version"
  | 71 => "insufficient_security"
  | 80 => "internal_error"
  | 86 => "inappropriate_fallback"
  | 90 => "user_canceled"
  | 100 => "no_renegotiation_RESERVED"
  | 109 => "missing_extension"
  | 110 => "unsupported_extension"
  | 111 => "certificate_unobtainable_RESERVED"
  | 112 => "unrecognized_name"
  | 113 => "bad_certificate_status_response"
  | 114 => "bad_certificate_hash_value_RESERVED"
  | 115 => "unknown_psk_identity"
  | 116 => "certificate_required"
  | 120 => "no_application_protocol"
  | _ => "unknown"

/-! ### Records -/

/-- A record as the blocking reader returns it. -/
structure OwnedRecord where
  contentType : UInt8
  legacyVersion : ℕ
  fragment : Bytes
  deriving DecidableEq, Repr

/-- `ContentType(1) || 0x0303 || u16 length || fragment`. -/
def wrapRecord (contentType : ContentType) (body : Bytes) : Bytes :=
  contentType.code :: 3 :: 3 :: toBe 2 body.length ++ body

end Conclave.Tls
