import Conclave.Tls.Handshake

/-! The ServerHello step of `connect`: version, cipher suite and key share are
taken from the first message of the record, and the driver goes on as TLS 1.3 or
hands over to the TLS 1.2 driver. -/

namespace Conclave.Tls

open Lib

/-- Key agreement primitives: private key, then the peer's share. -/
structure KexFns where
  x25519 : Bytes → Bytes → Bytes
  p256EcdhShared : Bytes → Bytes → Option Bytes
  p384EcdhShared : Bytes → Bytes → Option Bytes

/-- What the client holds after it sent its ClientHello: the fields of
`HandshakeDriver::new` that are read later, and the message as transcript. -/
structure ClientStart where
  host : String
  clientPriv : Bytes
  clientPrivP256 : Bytes
  clientPrivP384 : Bytes
  clientRandom : Bytes
  clientHello : Bytes

/-- The handover to the TLS 1.2 driver. -/
structure Tls12Handoff where
  transcript : Bytes
  cipherSuite : ℕ
  alpn : String

inductive ServerHelloOutcome where
  | tls12 (h : Tls12Handoff)
  | tls13 (d : HandshakeDriver)

def suiteOfCode (c : ℕ) : Option (Aead × HashAlg) :=
  if c = 0x1301 then some (.aes128Gcm, .sha256)
  else if c = 0x1302 then some (.aes256Gcm, .sha384)
  else if c = 0x1303 then some (.chaCha20Poly1305, .sha256)
  else none

/-- No `supported_versions` and a legacy version of 0x0303, or 0x0303 selected. -/
def ServerHello.pickedTls12 (sh : ServerHello) : Bool :=
  match sh.selectedVersion with
  | none => sh.legacyVersion = 0x0303
  | some v => v = 0x0303

/-- The ECDHE shared secret for the server's key share. -/
def sharedSecret (X : KexFns) (c : ClientStart) (group : ℕ) (ke : Bytes) : Except TlsError Bytes :=
  if group = 0x001d then
    if ke.length ≠ 32 then .error (.protocol s!"x25519 KE wrong len {ke.length}")
    else .ok (X.x25519 c.clientPriv ke)
  else if group = 0x0017 then
    if ke.length ≠ 65 ∨ ke.headD 0 ≠ 4 then
      .error (.protocol
        s!"secp256r1 KE wrong format len={ke.length} byte0={hexByte (ke.headD 0)}")
    else
      match X.p256EcdhShared c.clientPrivP256 ke with
      | some s => .ok s
      | none => .error (.protocol "p256 ecdh failed")
  else if group = 0x0018 then
    if ke.length ≠ 97 ∨ ke.headD 0 ≠ 4 then
      .error (.protocol
        s!"secp384r1 KE wrong format len={ke.length} byte0={hexByte (ke.headD 0)}")
    else
      match X.p384EcdhShared c.clientPrivP384 ke with
      | some s => .ok s
      | none => .error (.protocol "p384 ecdh failed")
  else .error (.unsupportedKeyShareGroup group)

/-- The driver after the ServerHello of a TLS 1.3 server: handshake traffic keys
are set, nothing of the server's flight has been seen. -/
def startTls13 (E : Env) (host alpn : String) (transcript : Bytes) (aead : Aead) (alg : HashAlg)
    (shared : Bytes) : HandshakeDriver :=
  let ks := (KeySchedule.newNoPsk E.H alg).advanceToHandshake E.H shared
  let cs := ks.clientHandshakeTrafficSecret E.H transcript
  let ss := ks.serverHandshakeTrafficSecret E.H transcript
  { host := host, hashAlg := alg, serverHandshakeSecret := ss, transcript := transcript,
    serverCerts := [], ocspStaple := [], scts := [], certVerifyDone := false,
    serverFinishedDone := false, certRequestSeen := false, certRequestContext := [],
    transcriptThroughServerFinished := [], alpn := alpn, aead := aead, keySchedule := ks,
    clientHandshakeSecret := cs, clientHandshakeAead := trafficKey E.H alg aead cs,
    serverHandshakeAead := trafficKey E.H alg aead ss, pendingHsBuf := [] }

/-- What the client does with a ServerHello message that it took off a record. -/
def acceptServerHello (E : Env) (X : KexFns) (c : ClientStart) (m : HandshakeMsg) :
    Except TlsError ServerHelloOutcome :=
  if m.kind ≠ HandshakeType.serverHello.code then .error (.protocol s!"expected SH, got {m.kind}")
  else do
    let transcript := c.clientHello ++ m.full
    let sh ← mapErr (fun e => .decode e.display) (parseServerHello m.body)
    let alpn := sh.alpn.getD ""
    if sh.pickedTls12 then .ok (.tls12 ⟨transcript, sh.cipherSuite, alpn⟩)
    else if sh.selectedVersion ≠ some 0x0304 then
      .error (.unsupportedServerVersion (sh.selectedVersion.getD sh.legacyVersion))
    else
      match suiteOfCode sh.cipherSuite with
      | none => .error (.unsupportedCipherSuite sh.cipherSuite)
      | some (aead, alg) =>
        match sh.keyShareGroup, sh.keyShareKeyExchange with
        | none, _ => .error (.protocol "no key_share in SH")
        | _, none => .error (.protocol "no key_share KE")
        | some group, some ke => do
          let shared ← sharedSecret X c group ke
          .ok (.tls13 (startTls13 E c.host alpn transcript aead alg shared))

/-- `consume_server_hello`: the first message of the record; whatever follows it
in the fragment is not looked at. -/
def consumeServerHello (E : Env) (X : KexFns) (c : ClientStart) (fragment : Bytes) :
    Except TlsError ServerHelloOutcome :=
  match HandshakeIter.next fragment with
  | none => .error (.protocol "empty SH record")
  | some (.error e) => .error (.decode e.display)
  | some (.ok (m, _)) => acceptServerHello E X c m

/-- Nothing of the server's flight is in the state the ServerHello leaves. -/
structure HandshakeDriver.Fresh (d : HandshakeDriver) : Prop where
  certs : d.serverCerts = []
  pending : d.pendingHsBuf = []

theorem acceptServerHello_fresh {E : Env} {X : KexFns} {c : ClientStart} {m : HandshakeMsg}
    {d : HandshakeDriver} (h : acceptServerHello E X c m = .ok (.tls13 d)) : d.Fresh := by
  unfold acceptServerHello at h
  split_ifs at h
  cases hp : mapErr (fun e => TlsError.decode e.display) (parseServerHello m.body) with
  | error e => simp [hp, bind, Except.bind] at h
  | ok sh =>
    simp only [hp, bind, Except.bind] at h
    split_ifs at h
    all_goals try simp at h
    split at h
    · simp at h
    · split at h
      · simp at h
      · simp at h
      · rename_i group ke _ _
        cases hs : sharedSecret X c group ke with
        | error e => simp [hs] at h
        | ok shared =>
          simp only [hs, Except.ok.injEq, ServerHelloOutcome.tls13.injEq] at h
          subst h
          exact ⟨rfl, rfl⟩

theorem consumeServerHello_fresh {E : Env} {X : KexFns} {c : ClientStart} {fragment : Bytes}
    {d : HandshakeDriver} (h : consumeServerHello E X c fragment = .ok (.tls13 d)) : d.Fresh := by
  unfold consumeServerHello at h
  split at h
  · simp at h
  · simp at h
  · exact acceptServerHello_fresh h

end Conclave.Tls
