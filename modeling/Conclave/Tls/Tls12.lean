import Conclave.Tls.Connect
import Conclave.Tls.Record12

/-! The server flight of a TLS 1.2 handshake, from the record that holds the
ServerHello to ServerHelloDone, and the checks the client makes on it before it
answers. A run is returned with the log of what became of the bytes it read:
each message that was handled, each record tail that was thrown away. -/

namespace Conclave.Tls

open Lib

/-! ### Message bodies -/

/-- The entries of a TLS 1.2 certificate list. -/
def certificateEntries12 : ℕ → Bytes → Except TlsError (List Bytes)
  | 0, _ => .ok []
  | n + 1, list =>
    match list with
    | a :: b :: c :: rest =>
      if rest.length < be24 a b c then .error (.decode "certs: entry len")
      else do
        let certs ← certificateEntries12 n (rest.drop (be24 a b c))
        .ok (rest.take (be24 a b c) :: certs)
    | _ => .ok []

def parseCertificateChain (body : Bytes) : Except TlsError (List Bytes) :=
  match body with
  | a :: b :: c :: rest =>
    if rest.length < be24 a b c then .error (.decode "certs: list len")
    else certificateEntries12 (be24 a b c) (rest.take (be24 a b c))
  | _ => .error (.decode "certs: too short")

/-- A parsed ServerKeyExchange. -/
structure ServerKeyExchange where
  namedCurve : ℕ
  pubkey : Bytes
  signedParams : Bytes
  sigScheme : ℕ
  sig : Bytes
  deriving DecidableEq

def parseServerKeyExchange (body : Bytes) : Except TlsError ServerKeyExchange :=
  match body with
  | t :: c₁ :: c₀ :: n :: rest =>
    if t ≠ 3 then .error (.protocol s!"tls1.2 SKE curve_type {t}")
    else if rest.length < n.toNat then .error (.decode "ske: point len")
    else
      match rest.drop n.toNat with
      | s₁ :: s₀ :: l₁ :: l₀ :: tail =>
        if tail.length < be16 l₁ l₀ then .error (.decode "ske: sig body")
        else .ok ⟨be16 c₁ c₀, rest.take n.toNat, body.take (4 + n.toNat), be16 s₁ s₀,
          tail.take (be16 l₁ l₀)⟩
      | _ => .error (.decode "ske: sig hdr")
  | _ => .error (.decode "ske: short")

/-! ### The flight -/

/-- What the flight loop collects. -/
structure Tls12State where
  transcript : Bytes
  serverCerts : List Bytes
  serverEcdhePub : Option Bytes
  serverSignedParams : Option Bytes
  serverSigScheme : ℕ
  serverSig : Bytes
  serverCurve : ℕ
  deriving DecidableEq

def Tls12State.start (transcript : Bytes) : Tls12State :=
  ⟨transcript, [], none, none, 0, [], 0⟩

/-- One message of the flight; `true` at ServerHelloDone. Other types are skipped. -/
def handleMessage12 (st : Tls12State) (m : HandshakeMsg) : Except TlsError (Tls12State × Bool) :=
  let st := { st with transcript := st.transcript ++ m.full }
  if m.kind = HandshakeType.certificate.code then do
    let certs ← parseCertificateChain m.body
    .ok ({ st with serverCerts := certs }, false)
  else if m.kind = HandshakeType.serverKeyExchange.code then do
    let ske ← parseServerKeyExchange m.body
    if ske.namedCurve ≠ 23 ∧ ske.namedCurve ≠ 24 ∧ ske.namedCurve ≠ 29 then
      .error (.protocol s!"tls1.2 unsupported curve {ske.namedCurve}")
    else .ok ({ st with serverEcdhePub := some ske.pubkey,
                        serverSignedParams := some ske.signedParams,
                        serverSigScheme := ske.sigScheme, serverSig := ske.sig,
                        serverCurve := ske.namedCurve }, false)
  else if m.kind = HandshakeType.serverHelloDone.code then .ok (st, true)
  else .ok (st, false)

/-- What became of the bytes of a record. -/
inductive FlightEvent where
  | handled (m : HandshakeMsg)
  | dropped (tail : Bytes)
  deriving DecidableEq, Repr

/-- A run: its log and its outcome. -/
abbrev Traced (α : Type) := List FlightEvent × Except TlsError α

def dropped (tail : Bytes) : List FlightEvent := if tail.isEmpty then [] else [.dropped tail]

/-- The walk over one record of the flight. -/
def walkRecord12 : ℕ → Tls12State → Bytes → Traced (Tls12State × Bool)
  | 0, st, _ => ([], .ok (st, false))
  | n + 1, st, buf =>
    match HandshakeIter.next buf with
    | none => ([], .ok (st, false))
    | some (.error e) => ([], .error (.decode e.display))
    | some (.ok (m, tail)) =>
      match handleMessage12 st m with
      | .error e => ([.handled m], .error e)
      | .ok (st, true) => (.handled m :: dropped tail, .ok (st, true))
      | .ok (st, false) => (.handled m :: (walkRecord12 n st tail).1, (walkRecord12 n st tail).2)

/-- The flight loop of `drive_tls12`. -/
def readFlight12 : Tls12State → List OwnedRecord → Traced Tls12State
  | _, [] => ([], .error (.protocol "tls1.2 unexpected EOF"))
  | st, rec :: recs =>
    if rec.contentType ≠ ContentType.handshake.code then
      match rec.contentType, rec.fragment with
      | 21, level :: desc :: _ =>
        ([], .error (.protocol s!"tls1.2 server alert level={level} desc={desc}"))
      | t, _ => ([], .error (.protocol s!"tls1.2 expected handshake, got record type {t}"))
    else
      match walkRecord12 rec.fragment.length st rec.fragment with
      | (evs, .error e) => (evs, .error e)
      | (evs, .ok (st, true)) => (evs, .ok st)
      | (evs, .ok (st, false)) => (evs ++ (readFlight12 st recs).1, (readFlight12 st recs).2)

/-! ### Checks on the flight -/

variable (E : Env)

/-- The server's signature over the key exchange parameters. -/
def verifySkeSignature (leaf : Cert) (sigScheme : ℕ) (sigInput sig : Bytes) :
    Except TlsError Unit :=
  let pk := leaf.spkiKeyBytes
  let check (b : Bool) : Except TlsError Unit := if b then .ok () else .error .certVerifyFailed
  if sigScheme % 256 = 3 then do
    let hash ← match sigScheme / 256 % 256 with
      | 4 => .ok (E.P.sha .sha256 sigInput)
      | 5 => .ok (E.P.sha .sha384 sigInput)
      | 6 => .ok (E.P.sha .sha512 sigInput)
      | _ => .error (.unsupportedSignatureScheme sigScheme)
    if pk.length = 65 ∧ pk.headD 0 = 4 then
      match E.P.parseDerSignature .p256 sig with
      | none => .error (.decode "ecdsa P-256 sig der")
      | some (r, s) =>
        check (E.P.p256VerifyPrehashed ((pk.drop 1).take 32) (pk.drop 33) hash r s)
    else if pk.length = 97 ∧ pk.headD 0 = 4 then
      match E.P.parseDerSignature .p384 sig with
      | none => .error (.decode "ecdsa P-384 sig der")
      | some (r, s) =>
        check (E.P.ecdsaVerify .p384 ((pk.drop 1).take 48) (pk.drop 49) sigInput r s)
    else .error (.decode s!"ecdsa SPKI bad: len={pk.length} first={hexByte (pk.headD 0)}")
  else do
    let seq ← mapErr (fun e => .decode s!"rsa pk: {e}") (E.P.readSequence pk)
    let (n, seq) ← mapErr (fun e => .decode s!"rsa n: {e}") (E.P.readIntegerUnsigned seq)
    let (e, _) ← mapErr (fun e => .decode s!"rsa e: {e}") (E.P.readIntegerUnsigned seq)
    if sigScheme = 0x0401 then check (E.P.verifyPkcs1V15 .sha256 n e sigInput sig)
    else if sigScheme = 0x0501 then check (E.P.verifyPkcs1V15 .sha384 n e sigInput sig)
    else if sigScheme = 0x0601 then check (E.P.verifyPkcs1V15 .sha512 n e sigInput sig)
    else if sigScheme = 0x0804 then check (E.P.verifyPss .sha256 n e sigInput sig)
    else if sigScheme = 0x0805 then check (E.P.verifyPss .sha384 n e sigInput sig)
    else if sigScheme = 0x0806 then check (E.P.verifyPss .sha512 n e sigInput sig)
    else .error (.unsupportedSignatureScheme sigScheme)

/-- The pre-master secret for the curve the server picked. -/
def preMasterSecret (X : KexFns) (c : ClientStart) (curve : ℕ) (peerPub : Bytes) :
    Except TlsError Bytes :=
  if curve = 23 then
    match X.p256EcdhShared c.clientPrivP256 peerPub with
    | some s => .ok s
    | none => .error (.crypto "tls1.2 P-256 ECDH failed")
  else if curve = 24 then
    match X.p384EcdhShared c.clientPrivP384 peerPub with
    | some s => .ok s
    | none => .error (.crypto "tls1.2 P-384 ECDH failed")
  else if curve = 29 then
    if peerPub.length ≠ 32 then
      .error (.protocol s!"tls1.2 x25519 peer point len {peerPub.length}")
    else .ok (X.x25519 c.clientPriv peerPub)
  else .error (.protocol s!"tls1.2 ECDH curve {curve} unsupported")

/-- The checks after ServerHelloDone, up to the shared secret. -/
def verifyFlight12 (X : KexFns) (c : ClientStart) (serverRandom : Bytes) (st : Tls12State) :
    Except TlsError (Tls12State × Bytes) :=
  if st.serverCerts.isEmpty then .error .noCertificate
  else do
    mapErr .chainInvalid (verifyChain E st.serverCerts c.host)
    let signed ← match st.serverSignedParams with
      | some p => .ok p
      | none => .error (.protocol "tls1.2 missing SKE")
    let leaf ← mapErr (fun e => .decode s!"leaf: {e}") (E.P.parseCert (st.serverCerts.headD []))
    verifySkeSignature E leaf st.serverSigScheme (c.clientRandom ++ serverRandom ++ signed)
      st.serverSig
    let pms ← preMasterSecret X c st.serverCurve (st.serverEcdhePub.getD [])
    .ok (st, pms)

/-- The server random, taken from the ServerHello once more. -/
def serverRandomOf (m : HandshakeMsg) : Bytes :=
  if 34 ≤ m.body.length then (m.body.drop 2).take 32 else List.replicate 32 0

/-- The ServerHello on the TLS 1.2 path, with the suite check `drive_tls12` starts
with; `none` when the server picked TLS 1.3. -/
def acceptHello12 (X : KexFns) (c : ClientStart) (m : HandshakeMsg) :
    Except TlsError (Option Tls12Handoff) := do
  let outcome ← acceptServerHello E X c m
  match outcome with
  | .tls13 _ => .ok none
  | .tls12 h =>
    match Tls12CipherKind.fromCode h.cipherSuite with
    | none => .error (.unsupportedCipherSuite h.cipherSuite)
    | some _ => .ok (some h)

/-- The error of a first record that is no handshake record. -/
def notHandshakeError (rec : OwnedRecord) : TlsError :=
  match rec.contentType, rec.fragment with
  | 21, level :: desc :: _ => .protocol
    s!"server rejected ClientHello: alert level={level} {desc} ({alertDescriptionName desc})"
  | t, _ => .protocol s!"expected handshake, got {t}"

/-- `connect` on the TLS 1.2 path, from the ServerHello record to the end of the
server's flight. `none` when the server picked TLS 1.3. -/
def connectFlight12 (X : KexFns) (c : ClientStart) :
    List OwnedRecord → Traced (Option (Tls12State × Bytes))
  | [] => ([], .error (.protocol "unexpected EOF"))
  | rec :: recs =>
    if rec.contentType ≠ ContentType.handshake.code then ([], .error (notHandshakeError rec))
    else
      match HandshakeIter.next rec.fragment with
      | none => ([], .error (.protocol "empty SH record"))
      | some (.error e) => ([], .error (.decode e.display))
      | some (.ok (m, tail)) =>
        match acceptHello12 E X c m with
        | .error e => ([.handled m], .error e)
        | .ok none => ([.handled m], .ok none)
        | .ok (some h) =>
          let flight := readFlight12 (.start h.transcript) recs
          (.handled m :: dropped tail ++ flight.1,
            flight.2 >>= fun st => (verifyFlight12 E X c (serverRandomOf m) st).map some)

end Conclave.Tls
