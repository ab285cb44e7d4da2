import Conclave.Lib.Channel
import Conclave.Tls.Messages

/-! TLS record protection. The AEAD primitives are parameters; the record layer
around them is the program's: the TLS 1.3 `AeadKey` with its implicit sequence
number and inner content type, and the TLS 1.2 records with the sequence number
in the additional data. Under an ideal AEAD each is an ordered channel. -/

namespace Conclave.Tls

open Lib

/-! ### Primitives -/

inductive Aead where
  | aes128Gcm | aes256Gcm | chaCha20Poly1305
  deriving DecidableEq, Repr

namespace Aead

def keyLen : Aead → ℕ
  | .aes128Gcm => 16
  | .aes256Gcm => 32
  | .chaCha20Poly1305 => 32

def ivLen (_ : Aead) : ℕ := 12

def tagLen (_ : Aead) : ℕ := 16

end Aead

inductive CryptoError where
  | badLength | badTag
  deriving DecidableEq, Repr

def CryptoError.debug : CryptoError → String
  | .badLength => "BadLength"
  | .badTag => "BadTag"

/-- The AEAD functions: key, nonce, additional data, text. -/
structure AeadFns where
  sealWith : Aead → Bytes → Bytes → Bytes → Bytes → Bytes
  openWith : Aead → Bytes → Bytes → Bytes → Bytes → Except CryptoError Bytes

/-- One call of the sealing function under a fixed key. -/
structure Sealed where
  nonce : Bytes
  aad : Bytes
  plain : Bytes
  deriving DecidableEq, Repr

/-- An ideal AEAD for a key and the log of what was sealed under it: it opens what
was sealed, under the nonce and additional data it was sealed with, and nothing
else; a ciphertext is the plaintext's length and a tag. -/
structure AeadFns.Ideal (A : AeadFns) (a : Aead) (key : Bytes) (log : List Sealed) : Prop where
  opens : ∀ s ∈ log, A.openWith a key s.nonce s.aad (A.sealWith a key s.nonce s.aad s.plain) =
    .ok s.plain
  only : ∀ n ad c p, A.openWith a key n ad c = .ok p →
    ∃ s ∈ log, s.nonce = n ∧ s.aad = ad ∧ c = A.sealWith a key s.nonce s.aad s.plain
  length : ∀ n ad p, (A.sealWith a key n ad p).length = p.length + a.tagLen

/-! ### TLS 1.3 -/

inductive RecordError where
  | crypto (e : CryptoError)
  | short
  | seqOverflow
  | unknownInnerType (t : UInt8)
  deriving DecidableEq, Repr

/-- One direction of the record layer. `AeadKey::new` asserts the two lengths,
and the sequence number is a `u64`. -/
structure AeadKey where
  aead : Aead
  key : Bytes
  iv : Bytes
  seq : ℕ
  key_length : key.length = aead.keyLen
  iv_length : iv.length = 12
  seq_lt : seq < 2 ^ 64
  deriving DecidableEq

namespace AeadKey

/-- `AeadKey::new`, with its assertions as hypotheses. -/
def new (aead : Aead) (key iv : Bytes) (hk : key.length = aead.keyLen) (hi : iv.length = 12) :
    AeadKey := ⟨aead, key, iv, 0, hk, hi, by norm_num⟩

/-- The 64-bit sequence number, left-padded to twelve bytes, XOR the IV. -/
def nonceAt (iv : Bytes) (seq : ℕ) : Bytes :=
  iv.take 4 ++ List.zipWith (· ^^^ ·) (iv.drop 4) (toBe 8 seq)

def nonce (k : AeadKey) : Bytes := nonceAt k.iv k.seq

/-- `seq.checked_add(1)`. -/
def bump (k : AeadKey) : Option AeadKey :=
  if h : k.seq + 1 < 2 ^ 64 then some { k with seq := k.seq + 1, seq_lt := h } else none

/-- `opaque_type || legacy_record_version || length` of a ciphertext of `n` bytes. -/
def header (n : ℕ) : Bytes :=
  [ContentType.applicationData.code, 3, 3, UInt8.ofNat (n / 2 ^ 8), UInt8.ofNat n]

/-- The inner plaintext: content and its type, no padding. -/
def inner (innerType : ContentType) (content : Bytes) : Bytes := content ++ [innerType.code]

def sealRecord (A : AeadFns) (k : AeadKey) (innerType : ContentType) (content : Bytes) :
    Except RecordError (Bytes × AeadKey) :=
  let plain := inner innerType content
  let ctLen := plain.length + k.aead.tagLen
  if ctLen > 0x4000 + 256 then .error .short
  else
    let aad := header ctLen
    let ct := A.sealWith k.aead k.key k.nonce aad plain
    match k.bump with
    | none => .error .seqOverflow
    | some k' => .ok (aad ++ ct, k')

/-- The inner type byte of an opened record. -/
def typeOfCode : UInt8 → Option ContentType
  | 20 => some .changeCipherSpec
  | 21 => some .alert
  | 22 => some .handshake
  | 23 => some .applicationData
  | _ => none

/-- Drop the zero padding, then split the type byte off. -/
def splitInner (plain : Bytes) : Except RecordError (ContentType × Bytes) :=
  match plain.reverse.dropWhile (· == 0) with
  | [] => .error .short
  | t :: content =>
    match typeOfCode t with
    | none => .error (.unknownInnerType t)
    | some ty => .ok (ty, content.reverse)

/-- Opening. The sequence number has moved on by the time the inner type is
looked at, also when the type is then refused. -/
def openRecord (A : AeadFns) (k : AeadKey) (hdr fragment : Bytes) :
    Except RecordError (ContentType × Bytes) × AeadKey :=
  match A.openWith k.aead k.key k.nonce hdr fragment with
  | .error e => (.error (.crypto e), k)
  | .ok plain =>
    match k.bump with
    | none => (.error .seqOverflow, k)
    | some k' => (splitInner plain, k')

@[simp] theorem typeOfCode_code (t : ContentType) : typeOfCode t.code = some t := by
  cases t <;> rfl

theorem code_ne_zero (t : ContentType) : t.code ≠ 0 := by cases t <;> decide

theorem splitInner_inner (t : ContentType) (content : Bytes) :
    splitInner (inner t content) = .ok (t, content) := by
  have ht : (t.code == 0) = false := by simpa using code_ne_zero t
  simp [splitInner, inner, ht]

/-! ### Nonces -/

theorem zipWith_xor_injective {as bs cs : Bytes} (hb : bs.length = as.length)
    (hc : cs.length = as.length)
    (h : List.zipWith (· ^^^ ·) as bs = List.zipWith (· ^^^ ·) as cs) : bs = cs := by
  induction as generalizing bs cs with
  | nil =>
    rw [List.length_eq_zero_iff.mp hb, List.length_eq_zero_iff.mp hc]
  | cons a as ih =>
    match bs, cs with
    | b :: bs, c :: cs =>
      simp only [List.zipWith_cons_cons, List.cons.injEq] at h
      simp only [List.length_cons, Nat.add_right_cancel_iff] at hb hc
      rw [ih hb hc h.2, UInt8.xor_right_inj a |>.mp h.1]
    | [], _ => simp at hb
    | _ :: _, [] => simp at hc

/-- Two sequence numbers below `2 ^ 64` give two nonces. -/
theorem nonceAt_injective {iv : Bytes} (hi : iv.length = 12) {m n : ℕ} (hm : m < 2 ^ 64)
    (hn : n < 2 ^ 64) (h : nonceAt iv m = nonceAt iv n) : m = n := by
  have hd : (iv.drop 4).length = 8 := by rw [List.length_drop, hi]
  have hz := zipWith_xor_injective (by rw [toBe_length, hd]) (by rw [toBe_length, hd])
    (List.append_cancel_left h)
  exact toBe_injective (k := 8) (by norm_num; exact hm) (by norm_num; exact hn) hz

/-! ### The ordered channel -/

/-- Seal a sequence of messages, up to the first error. -/
def sealAll (A : AeadFns) :
    AeadKey → List (ContentType × Bytes) → Except RecordError (List Bytes × AeadKey)
  | k, [] => .ok ([], k)
  | k, (t, p) :: ms => do
    let (r, k) ← sealRecord A k t p
    let (rs, k) ← sealAll A k ms
    .ok (r :: rs, k)

/-- The sealing calls of a sequence, in order. -/
def sealedLog (k : AeadKey) (ms : List (ContentType × Bytes)) : List Sealed :=
  ms.mapIdx fun i m =>
    ⟨nonceAt k.iv (k.seq + i), header (m.2.length + 17), inner m.1 m.2⟩

/-- The receiver's view of one record: header and fragment in, message out. -/
def receive (A : AeadFns) (k : AeadKey) (o : Bytes × Bytes) :
    Option (ContentType × Bytes) × AeadKey :=
  ((openRecord A k o.1 o.2).1.toOption, (openRecord A k o.1 o.2).2)

/-- A wire record as header and fragment. -/
def splitRecord (r : Bytes) : Bytes × Bytes := (r.take 5, r.drop 5)

/-- The key after `j` records. -/
def after (k : AeadKey) (j : ℕ) : AeadKey :=
  if h : k.seq + j < 2 ^ 64 then { k with seq := k.seq + j, seq_lt := h } else k

/-- The `i`-th record of a sequence as header and fragment. -/
def sealedItem (A : AeadFns) (k : AeadKey) (i : ℕ) (m : ContentType × Bytes) : Bytes × Bytes :=
  (header (m.2.length + 17), A.sealWith k.aead k.key (nonceAt k.iv (k.seq + i))
    (header (m.2.length + 17)) (inner m.1 m.2))

@[simp] theorem after_zero (k : AeadKey) : k.after 0 = k := by
  simp only [after, add_zero, k.seq_lt, ↓reduceDIte]

theorem bump_eq_after {k : AeadKey} (h : k.seq + 1 < 2 ^ 64) : k.bump = some (k.after 1) := by
  simp only [bump, after, h, ↓reduceDIte]

theorem after_fields (k : AeadKey) (j : ℕ) :
    (k.after j).aead = k.aead ∧ (k.after j).key = k.key ∧ (k.after j).iv = k.iv := by
  unfold after
  split_ifs <;> exact ⟨rfl, rfl, rfl⟩

theorem after_seq {k : AeadKey} {j : ℕ} (h : k.seq + j < 2 ^ 64) :
    (k.after j).seq = k.seq + j := by
  simp only [after, h, ↓reduceDIte]

theorem after_after {k : AeadKey} {i j : ℕ} (h : k.seq + i + j < 2 ^ 64) :
    (k.after i).after j = k.after (i + j) := by
  have hi : k.seq + i < 2 ^ 64 := by omega
  have hij : k.seq + (i + j) < 2 ^ 64 := by omega
  simp only [after, hi, hij, ↓reduceDIte, add_assoc]

theorem inner_length (t : ContentType) (p : Bytes) : (inner t p).length = p.length + 1 := by
  simp [inner]

theorem header_length (n : ℕ) : (header n).length = 5 := rfl

/-- Sealing a message within the plaintext limit fails only by running out of
sequence numbers. -/
theorem sealRecord_eq (A : AeadFns) {k : AeadKey} {m : ContentType × Bytes}
    (hm : m.2.length ≤ 2 ^ 14) :
    sealRecord A k m.1 m.2 =
      if k.seq + 1 < 2 ^ 64 then
        .ok ((sealedItem A k 0 m).1 ++ (sealedItem A k 0 m).2, k.after 1)
      else .error .seqOverflow := by
  have hl : ¬ m.2.length + 17 > 0x4000 + 256 := by omega
  have hc : (inner m.1 m.2).length + k.aead.tagLen = m.2.length + 17 := by
    rw [inner_length, Aead.tagLen]
  simp only [sealRecord, hc, hl, ↓reduceIte]
  split_ifs with h
  · simp only [bump_eq_after h, sealedItem, nonce, add_zero]
  · simp only [bump, h, ↓reduceDIte]

theorem sealedItem_after (A : AeadFns) {k : AeadKey} {i : ℕ} (hi : k.seq + 1 < 2 ^ 64)
    (m : ContentType × Bytes) : sealedItem A (k.after 1) i m = sealedItem A k (i + 1) m := by
  obtain ⟨ha, hk, hv⟩ := after_fields k 1
  simp only [sealedItem, ha, hk, hv, after_seq hi]
  rw [show k.seq + 1 + i = k.seq + (i + 1) by omega]

/-- A sealed sequence is its items, and the sequence numbers sufficed. -/
theorem sealAll_spec (A : AeadFns) {k k' : AeadKey} {ms : List (ContentType × Bytes)}
    {recs : List Bytes} (hms : ∀ m ∈ ms, m.2.length ≤ 2 ^ 14)
    (hs : sealAll A k ms = .ok (recs, k')) :
    k.seq + ms.length < 2 ^ 64 ∧ k' = k.after ms.length ∧
      recs = ms.mapIdx fun i m => (sealedItem A k i m).1 ++ (sealedItem A k i m).2 := by
  induction ms generalizing k recs with
  | nil =>
    simp only [sealAll, Except.ok.injEq, Prod.mk.injEq] at hs
    exact ⟨by simpa using k.seq_lt, by simp [← hs.2], by simp [← hs.1]⟩
  | cons m ms ih =>
    obtain ⟨t, p⟩ := m
    have hr := sealRecord_eq A (k := k) (hms (t, p) (by simp))
    simp only at hr
    simp only [sealAll, hr, bind, Except.bind] at hs
    split_ifs at hs with h
    simp only at hs
    cases hrest : sealAll A (k.after 1) ms with
    | error e => simp [hrest] at hs
    | ok v =>
      obtain ⟨rs, k₂⟩ := v
      simp only [hrest, Except.ok.injEq, Prod.mk.injEq] at hs
      obtain ⟨rfl, rfl⟩ := hs
      obtain ⟨hlt, hk, hrs⟩ := ih (fun m hm => hms m (by simp [hm])) hrest
      rw [after_seq h] at hlt
      refine ⟨by simp only [List.length_cons]; omega, ?_, ?_⟩
      · rw [hk, after_after (by omega), List.length_cons, Nat.add_comm]
      · rw [hrs]
        simp only [List.mapIdx_cons, sealedItem_after A h]

/-- Sealing a sequence within the plaintext limit succeeds as long as the
sequence numbers last. -/
theorem sealAll_ok (A : AeadFns) {k : AeadKey} {ms : List (ContentType × Bytes)}
    (hms : ∀ m ∈ ms, m.2.length ≤ 2 ^ 14) (hseq : k.seq + ms.length < 2 ^ 64) :
    ∃ recs, sealAll A k ms = .ok (recs, k.after ms.length) := by
  induction ms generalizing k with
  | nil => exact ⟨[], by simp [sealAll]⟩
  | cons m ms ih =>
    obtain ⟨t, p⟩ := m
    rw [List.length_cons] at hseq
    have h : k.seq + 1 < 2 ^ 64 := by omega
    have hr := sealRecord_eq A (k := k) (hms (t, p) (by simp))
    simp only [h, ↓reduceIte] at hr
    obtain ⟨recs, hrecs⟩ := ih (k := k.after 1) (fun m hm => hms m (by simp [hm]))
      (by rw [after_seq h]; omega)
    rw [after_after (by omega), Nat.add_comm 1] at hrecs
    exact ⟨_, by simp only [sealAll, hr, hrecs, bind, Except.bind, List.length_cons]; rfl⟩

theorem sealedLog_get (k : AeadKey) (ms : List (ContentType × Bytes)) (j : ℕ) :
    (sealedLog k ms)[j]? = ms[j]?.map fun m =>
      ⟨nonceAt k.iv (k.seq + j), header (m.2.length + 17), inner m.1 m.2⟩ := by
  simp [sealedLog]

/-- Within the sequence space the log has one entry for each nonce. -/
theorem sealedLog_nonces_nodup {k : AeadKey} {ms : List (ContentType × Bytes)}
    (hseq : k.seq + ms.length < 2 ^ 64) : ((sealedLog k ms).map Sealed.nonce).Nodup := by
  rw [List.nodup_iff_getElem?_ne_getElem?]
  intro i j hij hj
  simp only [sealedLog, List.length_map, List.length_mapIdx] at hj
  simp only [List.getElem?_map, sealedLog_get, List.getElem?_eq_getElem (show i < ms.length by omega),
    List.getElem?_eq_getElem hj, Option.map_some, ne_eq, Option.some.injEq]
  intro h
  have := nonceAt_injective k.iv_length (by omega) (by omega) h
  omega

/-- The receiving key takes exactly the next sealed record. -/
theorem receive_inOrder {A : AeadFns} {k : AeadKey}
    {ms : List (ContentType × Bytes)} (hseq : k.seq + ms.length < 2 ^ 64)
    (hi : A.Ideal k.aead k.key (sealedLog k ms)) :
    Channel.InOrder (receive A) k.after (ms.mapIdx fun i m => (sealedItem A k i m, m)) where
  takes j w m hj := by
    simp only [List.getElem?_mapIdx, Option.map_eq_some_iff, Prod.mk.injEq] at hj
    obtain ⟨m', hm, rfl, rfl⟩ := hj
    have hlt : j < ms.length := (List.getElem?_eq_some_iff.mp hm).1
    obtain ⟨ha, hk, hv⟩ := after_fields k j
    have hs : (k.after j).seq = k.seq + j := after_seq (by omega)
    have hopen : A.openWith k.aead k.key (nonceAt k.iv (k.seq + j)) (sealedItem A k j m').1
        (sealedItem A k j m').2 = .ok (inner m'.1 m'.2) :=
      hi.opens _ (List.mem_of_getElem? (i := j) (by rw [sealedLog_get, hm]; rfl))
    have ho : openRecord A (k.after j) (sealedItem A k j m').1 (sealedItem A k j m').2 =
        (.ok m', k.after (j + 1)) := by
      simp only [openRecord, nonce, ha, hk, hv, hs, hopen,
        bump_eq_after (k := k.after j) (by omega), splitInner_inner]
      rw [after_after (by omega)]
    simp only [receive, ho, Except.toOption]
  refuses j o hj ho := by
    rw [List.length_mapIdx] at hj
    obtain ⟨ha, hk, hv⟩ := after_fields k j
    have hs : (k.after j).seq = k.seq + j := after_seq (by omega)
    suffices h : ∃ e, A.openWith k.aead k.key (nonceAt k.iv (k.seq + j)) o.1 o.2 = .error e by
      obtain ⟨e, he⟩ := h
      simp only [receive, openRecord, nonce, ha, hk, hv, hs, he, Except.toOption]
    cases hopen : A.openWith k.aead k.key (nonceAt k.iv (k.seq + j)) o.1 o.2 with
    | error e => exact ⟨e, rfl⟩
    | ok p =>
      exfalso
      obtain ⟨s, hmem, hn, had, hc⟩ := hi.only _ _ _ _ hopen
      obtain ⟨i, hget⟩ := List.mem_iff_getElem?.mp hmem
      rw [sealedLog_get] at hget
      obtain ⟨m, hm, rfl⟩ := Option.map_eq_some_iff.mp hget
      have hlt : i < ms.length := (List.getElem?_eq_some_iff.mp hm).1
      -- equal nonces name the same position, so the offer is the next record itself
      obtain rfl : i = j := by
        have := nonceAt_injective k.iv_length (by omega) (by omega) hn
        omega
      apply ho
      simp only [List.getElem?_mapIdx, hm, Option.map_some, Option.some.injEq, sealedItem]
      exact Prod.ext had hc.symm

theorem splitRecord_sealedItem (A : AeadFns) (k : AeadKey) (i : ℕ) (m : ContentType × Bytes) :
    splitRecord ((sealedItem A k i m).1 ++ (sealedItem A k i m).2) = sealedItem A k i m := by
  have h5 : (sealedItem A k i m).1.length = 5 := header_length _
  simp only [splitRecord, ← h5, List.take_left', List.drop_left', Prod.mk.eta]

/-- A sealed sequence opens in order, refuses every other offer without moving,
repeats no nonce, and each record is within the limit, with the header it
authenticates. -/
theorem sealAll_ordered {A : AeadFns} {k k' : AeadKey}
    {ms : List (ContentType × Bytes)} (hms : ∀ m ∈ ms, m.2.length ≤ 2 ^ 14) {recs : List Bytes}
    (hs : sealAll A k ms = .ok (recs, k')) (hi : A.Ideal k.aead k.key (sealedLog k ms)) :
    Channel.Ordered (receive A) k k' (recs.map splitRecord) ms ∧
      ((sealedLog k ms).map Sealed.nonce).Nodup ∧
      ∀ (i : ℕ) (r : Bytes) (s : Sealed), recs[i]? = some r → (sealedLog k ms)[i]? = some s →
        r.length ≤ 2 ^ 14 + 256 ∧ r.take 5 = s.aad ∧ r.take 5 = header (r.drop 5).length := by
  obtain ⟨hseq, hk', hrecs⟩ := sealAll_spec A hms hs
  have hitems : (ms.mapIdx fun i m => (sealedItem A k i m, m)).map Prod.fst =
      recs.map splitRecord := by
    apply List.ext_getElem?
    intro i
    cases h : ms[i]? <;> simp [hrecs, h, splitRecord_sealedItem]
  have hmsgs : (ms.mapIdx fun i m => (sealedItem A k i m, m)).map Prod.snd = ms := by
    apply List.ext_getElem?
    intro i
    cases h : ms[i]? <;> simp [h]
  refine ⟨?_, sealedLog_nonces_nodup hseq, ?_⟩
  · have h := (receive_inOrder hseq hi).ordered
    rwa [after_zero, List.length_mapIdx, ← hk', hitems, hmsgs] at h
  · intro i r s hr hlog
    rw [hrecs, List.getElem?_mapIdx] at hr
    rw [sealedLog_get] at hlog
    obtain ⟨m, hm, rfl⟩ := Option.map_eq_some_iff.mp hr
    rw [hm, Option.map_some, Option.some.injEq] at hlog
    have hle := hms m (List.mem_of_getElem? hm)
    have hct : (sealedItem A k i m).2.length = m.2.length + 17 := by
      simp only [sealedItem, hi.length, inner_length, Aead.tagLen]
    have hsp := splitRecord_sealedItem A k i m
    simp only [splitRecord, Prod.ext_iff] at hsp
    refine ⟨?_, ?_, ?_⟩
    · rw [List.length_append, hct, show (sealedItem A k i m).1.length = 5 from rfl]; omega
    · rw [hsp.1, ← hlog]; rfl
    · rw [hsp.1, hsp.2, hct]; rfl

end AeadKey

end Conclave.Tls
