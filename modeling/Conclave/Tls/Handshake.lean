import Conclave.Tls.KeySchedule

/-! The TLS 1.3 client handshake after the ServerHello: the driver state, the
handler of each handshake message, the loop over encrypted records, the client's
own flight and the installation of the application keys. Certificates, chain
validation, signatures, OCSP, CT and decompression are given functions. -/

namespace Conclave.Tls

open Lib

/-! ### Given functions -/

inductive SpkiAlgorithm where
  | rsa | ecP256 | other
  deriving DecidableEq, Repr

def SpkiAlgorithm.debug : SpkiAlgorithm → String
  | .rsa => "Rsa"
  | .ecP256 => "EcP256"
  | .other => "Other"

/-- The fields of a parsed certificate the handshake reads. -/
structure Cert where
  spkiAlg : SpkiAlgorithm
  spkiKeyBytes : Bytes
  subjectCn : Option String
  sanDns : List String
  deriving DecidableEq

structure SignedCertificateTimestamp where
  logId : Bytes
  timestampMs : ℕ
  extensions : Bytes
  signature : Bytes
  deriving DecidableEq

inductive CtDecision where
  | compliant | notEnoughScts | untrustedLog
  deriving DecidableEq, Repr

inductive OcspDecision where
  | allow | block | softFail
  deriving DecidableEq, Repr

inductive RsaHash where
  | sha256 | sha384 | sha512
  deriving DecidableEq, Repr

inductive Curve where
  | p256 | p384 | p521
  deriving DecidableEq, Repr

def Curve.coordLen : Curve → ℕ
  | .p256 => 32
  | .p384 => 48
  | .p521 => 66

/-- Certificate and signature primitives. Errors carry the text the caller quotes;
`ocsp` is `none` on a malformed response. -/
structure PkFns where
  verifyChain : List Bytes → String → Except String Unit
  parseCert : Bytes → Except String Cert
  hostnameMatches : String → String → Bool
  readSequence : Bytes → Except String Bytes
  readIntegerUnsigned : Bytes → Except String (Bytes × Bytes)
  verifyPss : RsaHash → Bytes → Bytes → Bytes → Bytes → Bool
  verifyPkcs1V15 : RsaHash → Bytes → Bytes → Bytes → Bytes → Bool
  parseDerSignature : Curve → Bytes → Option (Bytes × Bytes)
  ecdsaVerify : Curve → Bytes → Bytes → Bytes → Bytes → Bytes → Bool
  sha : RsaHash → Bytes → Bytes
  p256VerifyPrehashed : Bytes → Bytes → Bytes → Bytes → Bytes → Bool
  ocsp : Bytes → ℕ → Option OcspDecision
  parseSctList : Bytes → List SignedCertificateTimestamp
  ctEvaluate : ℕ → List SignedCertificateTimestamp → CtDecision
  decodeBrotli : Bytes → Except String Bytes

/-- Everything outside the handshake code: primitives, the clock and the CT policy
of the process (`none`, or the number of SCTs required). -/
structure Env where
  A : AeadFns
  H : HashFns
  P : PkFns
  nowMs : ℕ
  ctPolicy : Option ℕ

/-! ### State -/

/-- The part of `HandshakeDriver` that handshake messages read and write. -/
structure Flight where
  host : String
  hashAlg : HashAlg
  serverHandshakeSecret : Bytes
  transcript : Bytes
  serverCerts : List Bytes
  ocspStaple : Bytes
  scts : List SignedCertificateTimestamp
  certVerifyDone : Bool
  serverFinishedDone : Bool
  certRequestSeen : Bool
  certRequestContext : Bytes
  transcriptThroughServerFinished : Bytes
  alpn : String

/-- `HandshakeDriver` once the ServerHello selected TLS 1.3. -/
structure HandshakeDriver extends Flight where
  aead : Aead
  keySchedule : KeySchedule
  clientHandshakeSecret : Bytes
  clientHandshakeAead : AeadKey
  serverHandshakeAead : AeadKey
  pendingHsBuf : Bytes

variable (E : Env)

/-! ### Certificates -/

/-- One extension of the leaf entry: OCSP staple (type 5) or SCT list (type 18). -/
def captureExtension (d : Flight) (ty : ℕ) (body : Bytes) : Flight :=
  if ty = 5 then
    match body with
    | 1 :: a :: b :: c :: staple =>
      if be24 a b c ≤ staple.length then { d with ocspStaple := staple.take (be24 a b c) } else d
    | _ => d
  else if ty = 18 then { d with scts := d.scts ++ E.P.parseSctList body }
  else d

def captureLeafEntryExtensions : ℕ → Flight → Bytes → Flight
  | 0, d, _ => d
  | n + 1, d, ext =>
    match ext with
    | t₁ :: t₀ :: l₁ :: l₀ :: rest =>
      if rest.length < be16 l₁ l₀ then d
      else captureLeafEntryExtensions n (captureExtension E d (be16 t₁ t₀) (rest.take (be16 l₁ l₀)))
        (rest.drop (be16 l₁ l₀))
    | _ => d

/-- The certificate entries from index `i` on. -/
def parseEntries : ℕ → ℕ → Flight → Bytes → Except TlsError Flight
  | 0, _, d, _ => .ok d
  | n + 1, i, d, entries =>
    if entries.isEmpty then .ok d
    else do
      let (cert, entries) ← mapErr (fun e => .decode s!"cert entry: {e.display}")
        (Decoder.vecU24 entries)
      let (ext, entries) ← mapErr (fun e => .decode s!"cert ext: {e.display}")
        (Decoder.vecU16 entries)
      let d := if i = 0 then captureLeafEntryExtensions E ext.length d ext else d
      parseEntries n (i + 1) { d with serverCerts := d.serverCerts ++ [cert] } entries

def parseCertificate (d : Flight) (body : Bytes) : Except TlsError Flight := do
  let (_, r) ← mapErr (fun e => .decode s!"cert ctx: {e.display}") (Decoder.vecU8 body)
  let (certList, _) ← mapErr (fun e => .decode s!"cert list: {e.display}") (Decoder.vecU24 r)
  let d ← parseEntries E certList.length 0 d certList
  if d.serverCerts.isEmpty then .error .noCertificate else .ok d

/-- The body of the plain Certificate message inside a compressed one. -/
def decompressCertificate (body : Bytes) : Except TlsError Bytes :=
  match body with
  | a₁ :: a₀ :: u₂ :: u₁ :: u₀ :: rest =>
    match rest with
    | c₂ :: c₁ :: c₀ :: payload =>
      if payload.length < be24 c₂ c₁ c₀ then .error (.decode "compr cert: body trunc")
      else if be16 a₁ a₀ = 2 then do
        let plain ← mapErr (fun e => .decode s!"brotli: {e}")
          (E.P.decodeBrotli (payload.take (be24 c₂ c₁ c₀)))
        if plain.length = be24 u₂ u₁ u₀ then .ok plain
        else .error (.decode
          s!"compr cert: len mismatch {plain.length} vs {be24 u₂ u₁ u₀}")
      else .error (.protocol s!"compr cert: unsupported algo {be16 a₁ a₀}")
    | _ => .error (.decode "compr cert: no compr len")
  | _ => .error (.decode "compr cert: short")

/-! ### CertificateVerify -/

inductive SignatureScheme where
  | rsaPkcs1Sha256 | ecdsaSecp256r1Sha256 | ecdsaSecp384r1Sha384 | ecdsaSecp521r1Sha512
  | rsaPssRsaeSha256 | rsaPssRsaeSha384 | rsaPssRsaeSha512
  deriving DecidableEq, Repr

def SignatureScheme.debug : SignatureScheme → String
  | .rsaPkcs1Sha256 => "RsaPkcs1Sha256"
  | .ecdsaSecp256r1Sha256 => "EcdsaSecp256r1Sha256"
  | .ecdsaSecp384r1Sha384 => "EcdsaSecp384r1Sha384"
  | .ecdsaSecp521r1Sha512 => "EcdsaSecp521r1Sha512"
  | .rsaPssRsaeSha256 => "RsaPssRsaeSha256"
  | .rsaPssRsaeSha384 => "RsaPssRsaeSha384"
  | .rsaPssRsaeSha512 => "RsaPssRsaeSha512"

/-- The schemes the client accepts in CertificateVerify. -/
def schemeOfCode (c : ℕ) : Option SignatureScheme :=
  if c = 0x0804 then some .rsaPssRsaeSha256
  else if c = 0x0805 then some .rsaPssRsaeSha384
  else if c = 0x0806 then some .rsaPssRsaeSha512
  else if c = 0x0401 then some .rsaPkcs1Sha256
  else if c = 0x0403 then some .ecdsaSecp256r1Sha256
  else if c = 0x0503 then some .ecdsaSecp384r1Sha384
  else if c = 0x0603 then some .ecdsaSecp521r1Sha512
  else none

/-- `{:#x}` of a byte. -/
def hexByte (b : UInt8) : String := "0x" ++ String.ofList (Nat.toDigits 16 b.toNat)

def verifyRsa (scheme : SignatureScheme) (spki signed sig : Bytes) : Except TlsError Unit := do
  let seq ← mapErr (fun e => .decode s!"rsa pk: {e}") (E.P.readSequence spki)
  let (n, seq) ← mapErr (fun e => .decode s!"rsa n: {e}") (E.P.readIntegerUnsigned seq)
  let (e, _) ← mapErr (fun e => .decode s!"rsa e: {e}") (E.P.readIntegerUnsigned seq)
  let ok := match scheme with
    | .rsaPssRsaeSha256 => E.P.verifyPss .sha256 n e signed sig
    | .rsaPssRsaeSha384 => E.P.verifyPss .sha384 n e signed sig
    | .rsaPssRsaeSha512 => E.P.verifyPss .sha512 n e signed sig
    | _ => E.P.verifyPkcs1V15 .sha256 n e signed sig
  if ok then .ok () else .error .certVerifyFailed

/-- An ECDSA signature under an uncompressed point. -/
def verifyEcdsa (curve : Curve) (name : String) (pk signed sig : Bytes) : Except TlsError Unit :=
  let n := curve.coordLen
  if pk.length ≠ 1 + 2 * n ∨ pk.headD 0 ≠ 4 then
    .error (.protocol
      s!"unexpected {name} pubkey format len={pk.length} byte0={hexByte (pk.headD 0)}")
  else
    match E.P.parseDerSignature curve sig with
    | none => .error .certVerifyFailed
    | some (r, s) =>
      if E.P.ecdsaVerify curve ((pk.drop 1).take n) (pk.drop (1 + n)) signed r s then .ok ()
      else .error .certVerifyFailed

/-- The signature check, dispatched on the scheme and the leaf's key. -/
def verifySignature (leaf : Cert) (scheme : SignatureScheme) (signed sig : Bytes) :
    Except TlsError Unit :=
  match scheme, leaf.spkiAlg with
  | .rsaPssRsaeSha256, .rsa | .rsaPssRsaeSha384, .rsa | .rsaPssRsaeSha512, .rsa
  | .rsaPkcs1Sha256, .rsa => verifyRsa E scheme leaf.spkiKeyBytes signed sig
  | .ecdsaSecp256r1Sha256, .ecP256 => verifyEcdsa E .p256 "EC" leaf.spkiKeyBytes signed sig
  | .ecdsaSecp384r1Sha384, .ecP256 => verifyEcdsa E .p384 "P-384" leaf.spkiKeyBytes signed sig
  | .ecdsaSecp521r1Sha512, .ecP256 => verifyEcdsa E .p521 "P-521" leaf.spkiKeyBytes signed sig
  | sch, alg =>
    .error (.protocol s!"sig scheme {sch.debug} incompatible with leaf SPKI {alg.debug}")

/-- `verify_chain`: an empty list is refused before the platform is asked. -/
def verifyChain (certs : List Bytes) (host : String) : Except String Unit :=
  if certs.isEmpty then .error "empty certificate chain" else E.P.verifyChain certs host

def certHostnameMatches (cert : Cert) (host : String) : Bool :=
  if cert.sanDns.any (E.P.hostnameMatches host) then true
  else if cert.sanDns.isEmpty then
    match cert.subjectCn with
    | some cn => E.P.hostnameMatches host cn
    | none => false
  else false

def enforceOcspStaple (d : Flight) : Except TlsError Unit :=
  if d.ocspStaple.isEmpty then .ok ()
  else if E.P.ocsp d.ocspStaple E.nowMs = some .block then
    .error (.chainInvalid "stapled OCSP response: certificate REVOKED")
  else .ok ()

def enforceCt (d : Flight) : Except TlsError Unit :=
  match E.ctPolicy with
  | none => .ok ()
  | some minScts =>
    match E.P.ctEvaluate minScts d.scts with
    | .compliant => .ok ()
    | .notEnoughScts => .error (.chainInvalid
        s!"Certificate Transparency: only {d.scts.length} SCT(s), policy requires {minScts}")
    | .untrustedLog => .error (.chainInvalid "Certificate Transparency: SCT from an untrusted log")

/-- Signed content of the server's CertificateVerify over a transcript hash. -/
def signedContent (th : Bytes) : Bytes :=
  List.replicate 64 0x20 ++ ascii "TLS 1.3, server CertificateVerify" ++ 0 :: th

def verifyCertificateVerify (d : Flight) (body : Bytes) : Except TlsError Unit := do
  let (scheme, r) ← mapErr (fun e => .decode s!"cv scheme: {e.display}") (Decoder.u16 body)
  let (sig, _) ← mapErr (fun e => .decode s!"cv sig: {e.display}") (Decoder.vecU16 r)
  mapErr .chainInvalid (verifyChain E d.serverCerts d.host)
  enforceOcspStaple E d
  enforceCt E d
  let signed := signedContent (E.H.hash d.hashAlg d.transcript)
  let leaf ← mapErr (fun e => .decode s!"leaf cert: {e}") (E.P.parseCert (d.serverCerts.headD []))
  if certHostnameMatches E leaf d.host then
    match schemeOfCode scheme with
    | none => .error (.unsupportedSignatureScheme scheme)
    | some scheme => verifySignature E leaf scheme signed sig
  else .error (.protocol s!"leaf cert does not match host {d.host}")

/-! ### Finished -/

/-- The Finished MAC of a traffic secret over a transcript. -/
def finishedMac (alg : HashAlg) (secret transcript : Bytes) : Bytes :=
  E.H.hmac alg (hkdfExpandLabel E.H alg secret (ascii "finished") [] alg.outputLen)
    (E.H.hash alg transcript)

def verifyServerFinished (d : Flight) (body : Bytes) : Except TlsError Unit :=
  if body.length ≠ d.hashAlg.outputLen then
    .error (.protocol s!"Finished wrong len {body.length}")
  else if finishedMac E d.hashAlg d.serverHandshakeSecret d.transcript ≠ body then
    .error .serverFinishedMismatch
  else .ok ()

/-! ### The message loop -/

/-- ALPN out of the extension list of EncryptedExtensions. -/
def encryptedExtensionsAlpn : ℕ → String → Bytes → String
  | 0, alpn, _ => alpn
  | n + 1, alpn, ext =>
    match ext with
    | t₁ :: t₀ :: l₁ :: l₀ :: rest =>
      let len := be16 l₁ l₀
      if rest.length < len then alpn
      else
        let alpn :=
          if be16 t₁ t₀ = 0x0010 then
            match rest.take len with
            | _ :: _ :: p :: names =>
              if p.toNat ≤ names.length then (fromUtf8 (names.take p.toNat)).getD alpn else alpn
            | _ => alpn
          else alpn
        encryptedExtensionsAlpn n alpn (rest.drop len)
    | _ => alpn

def alpnOfBody (alpn : String) (body : Bytes) : String :=
  match body with
  | a :: b :: ext => encryptedExtensionsAlpn ext.length alpn (ext.take (be16 a b))
  | _ => alpn

/-- The context of a CertificateRequest, when its length byte is within the body. -/
def requestContext (context body : Bytes) : Bytes :=
  match body with
  | n :: rest => if n.toNat ≤ rest.length then rest.take n.toNat else context
  | [] => context

/-- One turn of the dispatch loop; `true` after the server's Finished. -/
def handleMessage (d : Flight) (m : HandshakeMsg) : Except TlsError (Flight × Bool) :=
  if m.kind = HandshakeType.encryptedExtensions.code then
    .ok ({ d with transcript := d.transcript ++ m.full, alpn := alpnOfBody d.alpn m.body }, false)
  else if m.kind = HandshakeType.certificate.code then do
    let d ← parseCertificate E d m.body
    .ok ({ d with transcript := d.transcript ++ m.full }, false)
  else if m.kind = HandshakeType.certificateVerify.code then do
    verifyCertificateVerify E d m.body
    .ok ({ d with transcript := d.transcript ++ m.full, certVerifyDone := true }, false)
  else if m.kind = HandshakeType.finished.code then do
    verifyServerFinished E d m.body
    .ok ({ d with transcript := d.transcript ++ m.full,
                  transcriptThroughServerFinished := d.transcript ++ m.full,
                  serverFinishedDone := true }, true)
  else if m.kind = HandshakeType.certificateRequest.code then
    .ok ({ d with transcript := d.transcript ++ m.full, certRequestSeen := true,
                  certRequestContext := requestContext d.certRequestContext m.body }, false)
  else if m.kind = HandshakeType.newSessionTicket.code then
    .ok ({ d with transcript := d.transcript ++ m.full }, false)
  else if m.kind = 25 then do
    let plain ← decompressCertificate E m.body
    let d ← parseCertificate E d plain
    .ok ({ d with transcript := d.transcript ++ m.full }, false)
  else .error (.protocol s!"unexpected handshake type {m.kind}")

/-- The messages of one drain, up to Finished or an error. -/
def processMessages : Flight → List HandshakeMsg → Except TlsError (Flight × Bool)
  | d, [] => .ok (d, false)
  | d, m :: ms => do
    let (d, done) ← handleMessage E d m
    if done then .ok (d, true) else processMessages d ms

def consumeEncryptedHandshake (d : HandshakeDriver) (fragment : Bytes) :
    Except TlsError (HandshakeDriver × Bool) := do
  let (messages, rest) := handshakeFramer.drain (d.pendingHsBuf ++ fragment)
  let (f, done) ← processMessages E d.toFlight messages
  .ok ({ d with toFlight := f, pendingHsBuf := rest }, done)

/-! ### Records -/

def RecordError.display : RecordError → String
  | .crypto e => s!"aead: {e.debug}"
  | .short => "short record"
  | .seqOverflow => "sequence number overflow"
  | .unknownInnerType t => s!"unknown inner type {hexByte t}"

def ContentType.debug : ContentType → String
  | .changeCipherSpec => "ChangeCipherSpec"
  | .alert => "Alert"
  | .handshake => "Handshake"
  | .applicationData => "ApplicationData"

/-- Steps 3 of `connect`: records until the server's Finished. The list is what the
socket delivers; its end is the end of the stream. -/
def handshakeLoop : HandshakeDriver → List OwnedRecord →
    Except TlsError (HandshakeDriver × List OwnedRecord)
  | _, [] => .error (.protocol "unexpected EOF")
  | d, rec :: recs =>
    if rec.contentType = ContentType.changeCipherSpec.code then handshakeLoop d recs
    else if rec.contentType = ContentType.applicationData.code then
      match AeadKey.openRecord E.A d.serverHandshakeAead
          (AeadKey.header rec.fragment.length) rec.fragment with
      | (.error e, _) => .error (.crypto s!"open: {e.display}")
      | (.ok (innerType, inner), key) =>
        if innerType ≠ .handshake then
          .error (.protocol s!"expected encrypted handshake, got {innerType.debug}")
        else do
          let (d, done) ← consumeEncryptedHandshake E { d with serverHandshakeAead := key } inner
          if done then .ok (d, recs) else handshakeLoop d recs
    else .error (.protocol s!"unexpected content type {rec.contentType} in handshake")

/-! ### The client's flight -/

/-- Client Certificate (empty, when one was requested) and Finished, sealed. -/
def buildClientFinished (d : HandshakeDriver) : Except TlsError (Bytes × HandshakeDriver) := do
  let (wire, d) ←
    if d.certRequestSeen then do
      let body := UInt8.ofNat d.certRequestContext.length :: d.certRequestContext ++ [0, 0, 0]
      let certMsg := wrapHandshake HandshakeType.certificate.code body
      let (rec, key) ← mapErr (fun e => .crypto s!"seal cert: {e.display}")
        (AeadKey.sealRecord E.A d.clientHandshakeAead .handshake certMsg)
      .ok (rec, { d with transcript := d.transcript ++ certMsg, clientHandshakeAead := key })
    else .ok ([], d)
  let hs := wrapHandshake HandshakeType.finished.code
    (finishedMac E d.hashAlg d.clientHandshakeSecret d.transcript)
  let (rec, key) ← mapErr (fun e => .crypto s!"seal Fin: {e.display}")
    (AeadKey.sealRecord E.A d.clientHandshakeAead .handshake hs)
  .ok (wire ++ rec, { d with clientHandshakeAead := key })

/-- The application keys: `(client_send_key, server_recv_key)`. -/
def finalizeApplicationKeys (d : HandshakeDriver) : AeadKey × AeadKey :=
  let ks := d.keySchedule.advanceToMaster E.H
  let throughSf := d.transcriptThroughServerFinished
  (trafficKey E.H d.hashAlg d.aead (ks.clientApplicationTrafficSecret E.H throughSf),
    trafficKey E.H d.hashAlg d.aead (ks.serverApplicationTrafficSecret E.H throughSf))

/-- A connection at step 6: the keys are installed, `sent` went out. -/
structure Established where
  tx : AeadKey
  rx : AeadKey
  alpn : String
  sent : Bytes
  unread : List OwnedRecord

/-- Steps 3 to 6 of `connect`. -/
def finishTls13 (d : HandshakeDriver) (recs : List OwnedRecord) : Except TlsError Established := do
  let (d, unread) ← handshakeLoop E d recs
  let (wire, d) ← buildClientFinished E d
  let (tx, rx) := finalizeApplicationKeys E d
  .ok { tx := tx, rx := rx, alpn := d.alpn, sent := [0x14, 3, 3, 0, 1, 1] ++ wire,
        unread := unread }

end Conclave.Tls
