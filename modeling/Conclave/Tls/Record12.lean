import Conclave.Tls.Record

/-! TLS 1.2 AEAD records. The sequence number is in the additional data; AES-GCM
also sends it as the explicit half of the nonce, ChaCha20-Poly1305 XORs it into
the fixed IV. The caller counts records: the counter moves on success only. -/

namespace Conclave.Tls

open Lib

inductive Tls12CipherKind where
  | aes128GcmSha256 | aes256GcmSha384 | chaCha20Poly1305Sha256
  deriving DecidableEq, Repr

namespace Tls12CipherKind

/-- The symmetric suite of a code point, and whether its certificates are RSA. -/
def fromCode (code : ℕ) : Option (Tls12CipherKind × Bool) :=
  if code = 0xc02f then some (.aes128GcmSha256, true)
  else if code = 0xc030 then some (.aes256GcmSha384, true)
  else if code = 0xcca8 then some (.chaCha20Poly1305Sha256, true)
  else if code = 0xc02b then some (.aes128GcmSha256, false)
  else if code = 0xc02c then some (.aes256GcmSha384, false)
  else if code = 0xcca9 then some (.chaCha20Poly1305Sha256, false)
  else none

def aead : Tls12CipherKind → Aead
  | .aes128GcmSha256 => .aes128Gcm
  | .aes256GcmSha384 => .aes256Gcm
  | .chaCha20Poly1305Sha256 => .chaCha20Poly1305

def keyLen : Tls12CipherKind → ℕ
  | .aes128GcmSha256 => 16
  | .aes256GcmSha384 | .chaCha20Poly1305Sha256 => 32

def explicitNonceLen : Tls12CipherKind → ℕ
  | .aes128GcmSha256 | .aes256GcmSha384 => 8
  | .chaCha20Poly1305Sha256 => 0

def fixedIvLen : Tls12CipherKind → ℕ
  | .aes128GcmSha256 | .aes256GcmSha384 => 4
  | .chaCha20Poly1305Sha256 => 12

/-- The message of the failed key conversion. -/
def keyLenError : Tls12CipherKind → TlsError
  | .aes128GcmSha256 => .crypto "aes128 key len"
  | .aes256GcmSha384 => .crypto "aes256 key len"
  | .chaCha20Poly1305Sha256 => .crypto "chacha key len"

end Tls12CipherKind

namespace Record12

/-- `seq(8) || type(1) || version(2) || plaintext_len(2)`. -/
def aad (seq : ℕ) (contentType : UInt8) (len : ℕ) : Bytes :=
  toBe 8 seq ++ contentType :: 3 :: 3 :: toBe 2 len

/-- The nonce from the eight bytes that vary: the explicit part for AES-GCM, the
sequence number for ChaCha20-Poly1305. -/
def nonce (kind : Tls12CipherKind) (salt varying : Bytes) : Bytes :=
  match kind with
  | .aes128GcmSha256 | .aes256GcmSha384 => salt.take 4 ++ varying
  | .chaCha20Poly1305Sha256 => List.zipWith (· ^^^ ·) salt (List.replicate 4 0 ++ varying)

def encryptRecord12 (A : AeadFns) (kind : Tls12CipherKind) (contentType : UInt8)
    (plaintext key salt : Bytes) (seq : ℕ) : Except TlsError Bytes :=
  if key.length ≠ kind.aead.keyLen then .error kind.keyLenError
  else
    let ctTag := A.sealWith kind.aead key (nonce kind salt (toBe 8 seq))
      (aad seq contentType plaintext.length) plaintext
    .ok (if kind.explicitNonceLen = 8 then toBe 8 seq ++ ctTag else ctTag)

def decryptRecord12 (A : AeadFns) (kind : Tls12CipherKind) (contentType : UInt8)
    (fragment key salt : Bytes) (seq : ℕ) : Except TlsError Bytes :=
  if fragment.length < kind.explicitNonceLen + 16 then .error (.protocol "tls1.2 short record")
  else
    let varying := if kind.explicitNonceLen = 8 then fragment.take 8 else toBe 8 seq
    let ctAndTag := fragment.drop kind.explicitNonceLen
    if key.length ≠ kind.aead.keyLen then .error kind.keyLenError
    else
      mapErr (fun _ => .crypto "aead open")
        (A.openWith kind.aead key (nonce kind salt varying)
          (aad seq contentType (ctAndTag.length - 16)) ctAndTag)

/-- One direction of a TLS 1.2 connection: everything but the counter is fixed. -/
structure Keys where
  kind : Tls12CipherKind
  key : Bytes
  salt : Bytes
  key_length : key.length = kind.aead.keyLen
  salt_length : salt.length = kind.fixedIvLen

variable (A : AeadFns) (K : Keys)

/-- Seal a sequence of records from a counter on. -/
def sealAll : ℕ → List (UInt8 × Bytes) → Except TlsError (List (UInt8 × Bytes))
  | _, [] => .ok []
  | seq, (t, p) :: ms => do
    let f ← encryptRecord12 A K.kind t p K.key K.salt seq
    let fs ← sealAll (seq + 1) ms
    .ok ((t, f) :: fs)

/-- Open one record and count it when it opened. -/
def receive (seq : ℕ) (o : UInt8 × Bytes) : Option Bytes × ℕ :=
  match decryptRecord12 A K.kind o.1 o.2 K.key K.salt seq with
  | .ok p => (some p, seq + 1)
  | .error _ => (none, seq)

def sealedAt (seq : ℕ) (m : UInt8 × Bytes) : Sealed :=
  ⟨nonce K.kind K.salt (toBe 8 seq), aad seq m.1 m.2.length, m.2⟩

def sealedLog (seq : ℕ) (ms : List (UInt8 × Bytes)) : List Sealed :=
  ms.mapIdx fun i m => sealedAt K (seq + i) m

/-- The record of a message at a counter. -/
def sealedItem (seq : ℕ) (m : UInt8 × Bytes) : UInt8 × Bytes :=
  (m.1, (if K.kind.explicitNonceLen = 8 then toBe 8 seq else []) ++
    A.sealWith K.kind.aead K.key (sealedAt K seq m).nonce (sealedAt K seq m).aad m.2)

variable {A K}

theorem encrypt_eq (seq : ℕ) (m : UInt8 × Bytes) :
    encryptRecord12 A K.kind m.1 m.2 K.key K.salt seq = .ok (sealedItem A K seq m).2 := by
  simp only [encryptRecord12, K.key_length, ne_eq, not_true_eq_false, ↓reduceIte, sealedItem,
    sealedAt]
  split_ifs <;> rfl

theorem sealAll_eq (seq : ℕ) (ms : List (UInt8 × Bytes)) :
    sealAll A K seq ms = .ok (ms.mapIdx fun i m => sealedItem A K (seq + i) m) := by
  induction ms generalizing seq with
  | nil => rfl
  | cons m ms ih =>
    have he := encrypt_eq (A := A) (K := K) seq m
    have hf : (fun i m => sealedItem A K (seq + 1 + i) m) =
        fun i m => sealedItem A K (seq + (i + 1)) m := by
      funext i m
      rw [Nat.add_assoc, Nat.add_comm 1 i]
    simp only [sealAll, he, ih, bind, Except.bind, List.mapIdx_cons, add_zero, hf]
    rfl

theorem explicitNonceLen_cases (kind : Tls12CipherKind) :
    kind.explicitNonceLen = 8 ∨ kind.explicitNonceLen = 0 := by
  cases kind <;> simp [Tls12CipherKind.explicitNonceLen]

/-- Distinct varying parts give distinct nonces. -/
theorem nonce_injective {u v : Bytes} (hu : u.length = 8) (hv : v.length = 8)
    (h : nonce K.kind K.salt u = nonce K.kind K.salt v) : u = v := by
  have hsalt := K.salt_length
  cases hk : K.kind with
  | aes128GcmSha256 | aes256GcmSha384 =>
    simp only [hk, nonce] at h
    exact List.append_cancel_left h
  | chaCha20Poly1305Sha256 =>
    simp only [hk, nonce, Tls12CipherKind.fixedIvLen] at h hsalt
    have hx := AeadKey.zipWith_xor_injective (by simp [hu, hsalt]) (by simp [hv, hsalt]) h
    exact List.append_cancel_left hx

theorem seq_eq_of_toBe {m n : ℕ} (hm : m < 2 ^ 64) (hn : n < 2 ^ 64)
    (h : toBe 8 m = toBe 8 n) : m = n :=
  toBe_injective (k := 8) (by norm_num; exact hm) (by norm_num; exact hn) h

theorem sealedLog_nonces_nodup {seq : ℕ} {ms : List (UInt8 × Bytes)}
    (hseq : seq + ms.length ≤ 2 ^ 64) : ((sealedLog K seq ms).map Sealed.nonce).Nodup := by
  rw [List.nodup_iff_getElem?_ne_getElem?]
  intro i j hij hj
  simp only [sealedLog, List.length_map, List.length_mapIdx] at hj
  simp only [sealedLog, List.getElem?_map, List.getElem?_mapIdx,
    List.getElem?_eq_getElem (show i < ms.length by omega), List.getElem?_eq_getElem hj,
    Option.map_some, ne_eq, Option.some.injEq, sealedAt]
  intro h
  have := seq_eq_of_toBe (by omega) (by omega) (nonce_injective (by simp) (by simp) h)
  omega

/-- What the receiver sees of a genuine record. -/
theorem receive_sealed {log : List Sealed} (hi : A.Ideal K.kind.aead K.key log) {seq : ℕ}
    {m : UInt8 × Bytes} (hm : sealedAt K seq m ∈ log) :
    receive A K seq (sealedItem A K seq m) = (some m.2, seq + 1) := by
  have hl := hi.length (sealedAt K seq m).nonce (sealedAt K seq m).aad m.2
  have hopens := hi.opens _ hm
  have hd : decryptRecord12 A K.kind m.1 (sealedItem A K seq m).2 K.key K.salt seq = .ok m.2 := by
    have hlen8 : (toBe 8 seq).length = 8 := toBe_length 8 seq
    rcases explicitNonceLen_cases K.kind with he | he
    · have ht : (toBe 8 seq ++ A.sealWith K.kind.aead K.key (sealedAt K seq m).nonce
          (sealedAt K seq m).aad m.2).take 8 = toBe 8 seq := List.take_left' hlen8
      have hdr : (toBe 8 seq ++ A.sealWith K.kind.aead K.key (sealedAt K seq m).nonce
          (sealedAt K seq m).aad m.2).drop 8 = A.sealWith K.kind.aead K.key
            (sealedAt K seq m).nonce (sealedAt K seq m).aad m.2 := List.drop_left' hlen8
      have hn : ¬ (toBe 8 seq ++ A.sealWith K.kind.aead K.key (sealedAt K seq m).nonce
          (sealedAt K seq m).aad m.2).length < 8 + 16 := by
        rw [List.length_append, hl, hlen8, Aead.tagLen]; omega
      simp only [decryptRecord12, sealedItem, he, ↓reduceIte, hn, ht, hdr, K.key_length, ne_eq,
        not_true_eq_false, hl, Aead.tagLen, Nat.add_sub_cancel, mapErr_eq_ok]
      exact hopens
    · have hn : ¬ m.2.length + 16 < 0 + 16 := by omega
      simp only [decryptRecord12, sealedItem, he, show ¬ (0 = 8) by omega, ↓reduceIte,
        List.nil_append, List.drop_zero, K.key_length, ne_eq, not_true_eq_false, hl,
        Aead.tagLen, hn, Nat.add_sub_cancel, mapErr_eq_ok]
      exact hopens
  simp only [receive, show (sealedItem A K seq m).1 = m.1 from rfl, hd]

/-- The additional data of a logged record fixes its counter and content type. -/
theorem log_of_aad {seq₀ seq len : ℕ} {t : UInt8} {ms : List (UInt8 × Bytes)}
    (hseq : seq₀ + ms.length ≤ 2 ^ 64) (hlt : seq < 2 ^ 64) {s : Sealed}
    (hs : s ∈ sealedLog K seq₀ ms) (had : s.aad = aad seq t len) :
    ∃ i m, seq = seq₀ + i ∧ ms[i]? = some m ∧ m.1 = t ∧ s = sealedAt K seq m := by
  obtain ⟨i, hget⟩ := List.mem_iff_getElem?.mp hs
  simp only [sealedLog, List.getElem?_mapIdx] at hget
  obtain ⟨m, hm, rfl⟩ := Option.map_eq_some_iff.mp hget
  have hil : i < ms.length := (List.getElem?_eq_some_iff.mp hm).1
  simp only [sealedAt, aad] at had
  obtain ⟨hcount, htail⟩ := List.append_inj had (by simp)
  have hseqi : seq₀ + i = seq := seq_eq_of_toBe (by omega) hlt hcount
  exact ⟨i, m, hseqi.symm, hm, (List.cons.inj htail).1, by rw [hseqi]⟩

/-- A record that opens at a counter is the genuine one of that counter. -/
theorem opened_is_sealed {seq₀ seq : ℕ} {ms : List (UInt8 × Bytes)}
    (hseq : seq₀ + ms.length ≤ 2 ^ 64) (hlt : seq < 2 ^ 64)
    (hi : A.Ideal K.kind.aead K.key (sealedLog K seq₀ ms)) {o : UInt8 × Bytes} {p : Bytes}
    (ho : decryptRecord12 A K.kind o.1 o.2 K.key K.salt seq = .ok p) :
    ∃ i m, seq = seq₀ + i ∧ ms[i]? = some m ∧ o = sealedItem A K seq m := by
  simp only [decryptRecord12, K.key_length, ne_eq, not_true_eq_false, ↓reduceIte] at ho
  split_ifs at ho with hshort
  all_goals
    rw [mapErr_eq_ok] at ho
    obtain ⟨s, hmem, hn, had, hc⟩ := hi.only _ _ _ _ ho
    obtain ⟨i, m, hseqi, hm, htype, rfl⟩ := log_of_aad hseq hlt hmem had
    refine ⟨i, m, hseqi, hm, Prod.ext htype.symm ?_⟩
  · rename_i he
    have hv : o.2.take 8 = toBe 8 seq :=
      (nonce_injective (by simp) (by rw [List.length_take]; omega) hn).symm
    rw [he] at hc
    calc o.2 = o.2.take 8 ++ o.2.drop 8 := (List.take_append_drop 8 o.2).symm
      _ = (sealedItem A K seq m).2 := by simp only [hv, hc, sealedItem, he, ↓reduceIte]; rfl
  · rename_i he
    have h0 := (explicitNonceLen_cases K.kind).resolve_left he
    rw [h0, List.drop_zero] at hc
    simp only [sealedItem, he, ↓reduceIte, List.nil_append]
    exact hc

theorem receive_inOrder {seq : ℕ} {ms : List (UInt8 × Bytes)}
    (hseq : seq + ms.length < 2 ^ 64)
    (hi : A.Ideal K.kind.aead K.key (sealedLog K seq ms)) :
    Channel.InOrder (receive A K) (seq + ·)
      (ms.mapIdx fun i m => (sealedItem A K (seq + i) m, m.2)) where
  takes j w p hj := by
    simp only [List.getElem?_mapIdx, Option.map_eq_some_iff, Prod.mk.injEq] at hj
    obtain ⟨m, hm, rfl, rfl⟩ := hj
    exact receive_sealed hi (List.mem_of_getElem? (i := j) (by simp [sealedLog, hm]))
  refuses j o hj ho := by
    rw [List.length_mapIdx] at hj
    cases hd : decryptRecord12 A K.kind o.1 o.2 K.key K.salt (seq + j) with
    | error e => simp only [receive, hd]
    | ok p =>
      exfalso
      obtain ⟨i, m, hij, hm, rfl⟩ := opened_is_sealed (by omega) (by omega) hi hd
      obtain rfl : i = j := by omega
      exact ho (by simp [hm])

theorem sealedItem_length {log : List Sealed} (hi : A.Ideal K.kind.aead K.key log) (seq : ℕ)
    (m : UInt8 × Bytes) : (sealedItem A K seq m).2.length ≤ m.2.length + 24 := by
  rw [sealedItem, List.length_append, hi.length, Aead.tagLen]
  split_ifs
  · rw [toBe_length]; omega
  · simp

/-- The same channel for TLS 1.2, where the counter is the caller's. -/
theorem sealAll_ordered {seq : ℕ} {ms : List (UInt8 × Bytes)}
    (hseq : seq + ms.length < 2 ^ 64) (hms : ∀ m ∈ ms, m.2.length ≤ 2 ^ 14)
    {recs : List (UInt8 × Bytes)} (hs : sealAll A K seq ms = .ok recs)
    (hi : A.Ideal K.kind.aead K.key (sealedLog K seq ms)) :
    Channel.Ordered (receive A K) seq (seq + ms.length) recs (ms.map Prod.snd) ∧
      ((sealedLog K seq ms).map Sealed.nonce).Nodup ∧
      ∀ r ∈ recs, r.2.length ≤ 2 ^ 14 + 256 := by
  rw [sealAll_eq, Except.ok.injEq] at hs
  have hitems : (ms.mapIdx fun i m => (sealedItem A K (seq + i) m, m.2)).map Prod.fst = recs := by
    apply List.ext_getElem?
    intro i
    cases h : ms[i]? <;> simp [← hs, h]
  have hmsgs : (ms.mapIdx fun i m => (sealedItem A K (seq + i) m, m.2)).map Prod.snd =
      ms.map Prod.snd := by
    apply List.ext_getElem?
    intro i
    cases h : ms[i]? <;> simp [h]
  refine ⟨?_, sealedLog_nonces_nodup (by omega), ?_⟩
  · have h := (receive_inOrder hseq hi).ordered
    rwa [add_zero, List.length_mapIdx, hitems, hmsgs] at h
  · intro r hr
    rw [← hs, List.mem_mapIdx] at hr
    obtain ⟨i, h, rfl⟩ := hr
    have := sealedItem_length hi (seq + i) ms[i]
    have := hms ms[i] (List.getElem_mem h)
    omega

end Record12

/-- Record protection is an ordered channel, in both versions of the protocol. Two
copies of one key state seal and open; under an ideal AEAD the records open in
order to what was sealed, no nonce repeats, any offer but the next record is
refused and leaves the receiving state as it was, and every record is within the
size limit, a TLS 1.3 record with the header it authenticates. -/
theorem record_protection_ordered (A : AeadFns) :
    (∀ (k k' : AeadKey) (ms : List (ContentType × Bytes)) (recs : List Bytes),
      (∀ m ∈ ms, m.2.length ≤ 2 ^ 14) → AeadKey.sealAll A k ms = .ok (recs, k') →
      A.Ideal k.aead k.key (AeadKey.sealedLog k ms) →
        Channel.Ordered (AeadKey.receive A) k k' (recs.map AeadKey.splitRecord) ms ∧
          ((AeadKey.sealedLog k ms).map Sealed.nonce).Nodup ∧
          ∀ (i : ℕ) (r : Bytes) (s : Sealed), recs[i]? = some r →
            (AeadKey.sealedLog k ms)[i]? = some s →
            r.length ≤ 2 ^ 14 + 256 ∧ r.take 5 = s.aad ∧
              r.take 5 = AeadKey.header (r.drop 5).length) ∧
    (∀ (K : Record12.Keys) (seq : ℕ) (ms recs : List (UInt8 × Bytes)),
      seq + ms.length < 2 ^ 64 → (∀ m ∈ ms, m.2.length ≤ 2 ^ 14) →
      Record12.sealAll A K seq ms = .ok recs →
      A.Ideal K.kind.aead K.key (Record12.sealedLog K seq ms) →
        Channel.Ordered (Record12.receive A K) seq (seq + ms.length) recs (ms.map Prod.snd) ∧
          ((Record12.sealedLog K seq ms).map Sealed.nonce).Nodup ∧
          ∀ r ∈ recs, r.2.length ≤ 2 ^ 14 + 256) :=
  ⟨fun _ _ _ _ hms hs hi => AeadKey.sealAll_ordered hms hs hi,
    fun _ _ _ _ hseq hms hs hi => Record12.sealAll_ordered hseq hms hs hi⟩

/-- A lookup AEAD: it opens exactly what its log holds. -/
def lookupFns (log : List Sealed) : AeadFns where
  sealWith _ _ _ _ p := p ++ List.replicate 16 0
  openWith _ _ n ad c :=
    match log.find? fun s => s.nonce == n && s.aad == ad && c == s.plain ++ List.replicate 16 0 with
    | some s => .ok s.plain
    | none => .error .badTag

theorem lookupFns_ideal (a : Aead) (key : Bytes) (log : List Sealed) :
    (lookupFns log).Ideal a key log where
  opens s hs := by
    cases h : log.find? fun t => t.nonce == s.nonce && t.aad == s.aad &&
        s.plain ++ List.replicate 16 0 == t.plain ++ List.replicate 16 0 with
    | none =>
      have := List.find?_eq_none.mp h s hs
      simp at this
    | some t =>
      have ht := List.find?_some h
      simp only [Bool.and_eq_true, beq_iff_eq] at ht
      simp only [lookupFns, h]
      rw [List.append_cancel_right ht.2]
  only n ad c p h := by
    simp only [lookupFns] at h
    split at h
    · rename_i s hs
      have ht := List.find?_some hs
      simp only [Bool.and_eq_true, beq_iff_eq] at ht
      exact ⟨s, List.mem_of_find?_eq_some hs, ht.1.1, ht.1.2, ht.2⟩
    · cases h
  length n ad p := by simp [lookupFns, Aead.tagLen]

def sampleKey : AeadKey :=
  .new .aes128Gcm (List.replicate 16 7) (List.replicate 12 9) (by decide) (by decide)

def sampleMessages : List (ContentType × Bytes) := [(.handshake, [20, 0, 0, 0]), (.applicationData, [])]

def sampleKeys12 : Record12.Keys :=
  ⟨.aes128GcmSha256, List.replicate 16 7, List.replicate 4 9, by decide, by decide⟩

/-- Two records of each version, sealed and opened. -/
theorem record_protection_ordered_sample :
    (∃ recs k', AeadKey.sealAll (lookupFns (AeadKey.sealedLog sampleKey sampleMessages)) sampleKey
        sampleMessages = .ok (recs, k') ∧
      Channel.Ordered (AeadKey.receive (lookupFns (AeadKey.sealedLog sampleKey sampleMessages)))
        sampleKey k' (recs.map AeadKey.splitRecord) sampleMessages) ∧
    (∃ recs, Record12.sealAll (lookupFns (Record12.sealedLog sampleKeys12 0 [(23, [1]), (23, [])]))
        sampleKeys12 0 [(23, [1]), (23, [])] = .ok recs ∧
      Channel.Ordered (Record12.receive
          (lookupFns (Record12.sealedLog sampleKeys12 0 [(23, [1]), (23, [])])) sampleKeys12)
        0 2 recs [[1], []]) := by
  refine ⟨?_, ?_⟩
  · obtain ⟨recs, hs⟩ : ∃ recs, AeadKey.sealAll
        (lookupFns (AeadKey.sealedLog sampleKey sampleMessages)) sampleKey sampleMessages =
          .ok (recs, _) :=
      AeadKey.sealAll_ok _ (by decide) (by decide)
    exact ⟨recs, _, hs, ((record_protection_ordered _).1 _ _ _ _ (by decide) hs
      (lookupFns_ideal _ _ _)).1⟩
  · exact ⟨_, Record12.sealAll_eq 0 _, ((record_protection_ordered _).2 sampleKeys12 0
      [(23, [1]), (23, [])] _ (by decide) (by decide) (Record12.sealAll_eq 0 _)
      (lookupFns_ideal _ _ _)).1⟩

end Conclave.Tls
