import Conclave.Crypto.PolyExact
import Conclave.Crypto.Hashes
import Conclave.Crypto.RsaVerify

/-! ChaCha20, and with Poly1305 the authenticated cipher: what it opens is what it sealed. -/

namespace Conclave.Crypto

open Conclave.Lib

/-- `[u8; 12]` -/
abbrev ChaChaNonce := Vector UInt8 12

/-- Sixteen words of state. -/
abbrev ChaChaState := Vector UInt32 16

def leWord (b : Bytes) (i : ℕ) : UInt32 := UInt32.ofNat (word b i)

def quarter (s : ChaChaState) (a b c d : Fin 16) : ChaChaState :=
  let s := s.set a (s[a] + s[b])
  let s := s.set d (rotateLeft (s[d] ^^^ s[a]) 16)
  let s := s.set c (s[c] + s[d])
  let s := s.set b (rotateLeft (s[b] ^^^ s[c]) 12)
  let s := s.set a (s[a] + s[b])
  let s := s.set d (rotateLeft (s[d] ^^^ s[a]) 8)
  let s := s.set c (s[c] + s[d])
  s.set b (rotateLeft (s[b] ^^^ s[c]) 7)

namespace ChaCha20

def new (key : PolyKey) (nonce : ChaChaNonce) (counter : UInt32) : ChaChaState :=
  let k := leWord key.toList
  let n := leWord nonce.toList
  #v[0x61707865, 0x3320646e, 0x79622d32, 0x6b206574, k 0, k 1, k 2, k 3, k 4, k 5, k 6, k 7,
    counter, n 0, n 1, n 2]

/-- Column rounds, and diagonal rounds. -/
def doubleRound (s : ChaChaState) : ChaChaState :=
  let s := quarter s 0 4 8 12
  let s := quarter s 1 5 9 13
  let s := quarter s 2 6 10 14
  let s := quarter s 3 7 11 15
  let s := quarter s 0 5 10 15
  let s := quarter s 1 6 11 12
  let s := quarter s 2 7 8 13
  quarter s 3 4 9 14

def block (state : ChaChaState) : Bytes :=
  let s := doubleRound^[10] state
  (s.zipWith (· + ·) state).toList.flatMap fun w => toLe 4 w.toNat

/-- The counter of the state goes up, and from the last one back to zero. -/
def advance (state : ChaChaState) : ChaChaState := state.set 12 (state[12] + 1)

/-- The data is encrypted in place, block by block. -/
def xor (state : ChaChaState) (data : Bytes) : Bytes :=
  if data = [] then []
  else List.zipWith (· ^^^ ·) (data.take 64) (block state) ++ xor (advance state) (data.drop 64)
termination_by data.length
decreasing_by
  rw [List.length_drop]
  have := List.length_pos_iff.mpr ‹data ≠ []›
  omega

end ChaCha20

def zeroPad16 (len : ℕ) : Bytes :=
  let rem := len % 16
  if rem = 0 then [] else List.replicate (16 - rem) 0

def polyKey (key : PolyKey) (nonce : ChaChaNonce) : PolyKey :=
  Vector.ofFn fun i => (ChaCha20.block (ChaCha20.new key nonce 0)).getD i 0

def aeadLengths (aad ct : Bytes) : Bytes :=
  toLe 8 (aad.length % 2 ^ 64) ++ toLe 8 (ct.length % 2 ^ 64)

/-- The pieces that the code is computed over. -/
def macPieces (aad ct : Bytes) : List Bytes :=
  [aad, zeroPad16 aad.length, ct, zeroPad16 ct.length, aeadLengths aad ct]

def chachaSeal (key : PolyKey) (nonce : ChaChaNonce) (aad plaintext : Bytes) : Option Bytes := do
  let ct := ChaCha20.xor (ChaCha20.new key nonce 1) plaintext
  let tag ← Poly1305.tag (polyKey key nonce) (macPieces aad ct)
  return ct ++ tag

def chachaOpen (key : PolyKey) (nonce : ChaChaNonce) (aad ciphertextWithTag : Bytes) :
    Option (Except CryptoError Bytes) :=
  if ciphertextWithTag.length < 16 then some (.error .badLength)
  else do
    let split := ciphertextWithTag.length - 16
    let ct := ciphertextWithTag.take split
    let recvTag := ciphertextWithTag.drop split
    let tag ← Poly1305.tag (polyKey key nonce) (macPieces aad ct)
    if ¬ ctEq tag recvTag then return .error .badTag
    return .ok (ChaCha20.xor (ChaCha20.new key nonce 1) ct)

/-! ### The stream -/

/-- The bytes of the blocks of a key and a nonce, from a counter on. -/
def keystream (key : PolyKey) (nonce : ChaChaNonce) (counter : UInt32) (i : ℕ) : UInt8 :=
  (ChaCha20.block (ChaCha20.new key nonce (counter + UInt32.ofNat (i / 64)))).getD (i % 64) 0

variable {key : PolyKey} {nonce : ChaChaNonce} {counter : UInt32} {aad data pt c : Bytes}

theorem block_length (state : ChaChaState) : (ChaCha20.block state).length = 64 := by
  rw [ChaCha20.block, List.length_flatMap]
  simp only [toLe_length, List.map_const', List.sum_replicate, Vector.length_toList, smul_eq_mul]

theorem advance_new : ChaCha20.advance (ChaCha20.new key nonce counter) =
    ChaCha20.new key nonce (counter + 1) := rfl

theorem keystream_add (i : ℕ) :
    keystream key nonce counter (i + 64) = keystream key nonce (counter + 1) i := by
  have hnext : counter + UInt32.ofNat (i / 64 + 1) = counter + 1 + UInt32.ofNat (i / 64) := by
    rw [UInt32.ofNat_add, UInt32.add_assoc, UInt32.add_comm 1]
    rfl
  rw [keystream, Nat.add_div_right _ (by norm_num), Nat.add_mod_right, hnext, keystream]

theorem zipWith_block (h : data.length ≤ 64) :
    List.zipWith (· ^^^ ·) data (ChaCha20.block (ChaCha20.new key nonce counter)) =
      data.mapIdx fun i byte => byte ^^^ keystream key nonce counter i := by
  have hlen := block_length (ChaCha20.new key nonce counter)
  apply List.ext_getElem
  · rw [List.length_zipWith, List.length_mapIdx, hlen, Nat.min_eq_left h]
  · intro i h₁ h₂
    have hi : i < 64 := (List.length_mapIdx ▸ h₂).trans_le h
    rw [List.getElem_zipWith, List.getElem_mapIdx, keystream, Nat.div_eq_of_lt hi,
      Nat.mod_eq_of_lt hi]
    have hzero : counter + UInt32.ofNat 0 = counter := UInt32.add_zero _
    rw [hzero, List.getD_eq_getElem _ _ (hlen.symm ▸ hi)]

/-- Each byte meets the byte of the stream in its place. -/
theorem xor_eq (counter : UInt32) (data : Bytes) :
    ChaCha20.xor (ChaCha20.new key nonce counter) data =
      data.mapIdx fun i byte => byte ^^^ keystream key nonce counter i := by
  induction data using blocks_induction (show 0 < 64 by norm_num) generalizing counter with
  | short data h =>
    rw [ChaCha20.xor]
    split_ifs with hempty
    · rw [hempty, List.mapIdx_nil]
    · rw [List.take_of_length_le h.le, List.drop_of_length_le h.le, zipWith_block h.le, ChaCha20.xor,
        if_pos rfl, List.append_nil]
  | block b l hb ih =>
    have hne : b ++ l ≠ [] := by
      intro hnil
      rw [(List.append_eq_nil_iff.mp hnil).1] at hb
      exact absurd hb (by decide)
    have hnext : (fun i byte => byte ^^^ keystream key nonce counter (i + b.length)) =
        fun i (byte : UInt8) => byte ^^^ keystream key nonce (counter + 1) i := by
      funext i byte
      rw [hb, keystream_add]
    rw [ChaCha20.xor, if_neg hne, List.mapIdx_append, hnext, ← ih, ← zipWith_block hb.le,
      ← advance_new]
    congr 2
    · rw [← hb, List.take_left]
    · rw [← hb, List.drop_left]

theorem xor_xor (counter : UInt32) (data : Bytes) :
    ChaCha20.xor (ChaCha20.new key nonce counter)
      (ChaCha20.xor (ChaCha20.new key nonce counter) data) = data := by
  rw [xor_eq, xor_eq]
  apply List.ext_getElem
  · simp
  · intro i h₁ h₂
    simp

/-- What the code of a sealed text is computed over. -/
def macData (aad ct : Bytes) : Bytes := (macPieces aad ct).flatten

/-- The code as a number under the key of a nonce. -/
def chachaTag (key : PolyKey) (nonce : ChaChaNonce) (aad ct : Bytes) : Bytes :=
  toLe 16 ((polySum (clamped (polyKey key nonce)) ((polyBlocks (macData aad ct)).map coefficient) %
    polyPrime + secret (polyKey key nonce)) % 2 ^ 128)

theorem tag_eq (key : PolyKey) (nonce : ChaChaNonce) (aad ct : Bytes) :
    Poly1305.tag (polyKey key nonce) (macPieces aad ct) = some (chachaTag key nonce aad ct) :=
  Poly1305.tag_exact _ _

theorem chachaTag_length (key : PolyKey) (nonce : ChaChaNonce) (aad ct : Bytes) :
    (chachaTag key nonce aad ct).length = 16 := toLe_length _ _

theorem chachaSeal_eq (key : PolyKey) (nonce : ChaChaNonce) (aad pt : Bytes) :
    chachaSeal key nonce aad pt = some (ChaCha20.xor (ChaCha20.new key nonce 1) pt ++
      chachaTag key nonce aad (ChaCha20.xor (ChaCha20.new key nonce 1) pt)) := by
  rw [chachaSeal, tag_eq]
  rfl

/-- What is opened is the text before the code, when the code is right. -/
theorem chachaOpen_append (key : PolyKey) (nonce : ChaChaNonce) (aad ct t : Bytes)
    (ht : t.length = 16) : chachaOpen key nonce aad (ct ++ t) = some (
      if chachaTag key nonce aad ct = t then .ok (ChaCha20.xor (ChaCha20.new key nonce 1) ct)
      else .error .badTag) := by
  have hlen : (ct ++ t).length - 16 = ct.length := by rw [List.length_append, ht, Nat.add_sub_cancel]
  have hlong : ¬ (ct ++ t).length < 16 := by rw [List.length_append, ht]; omega
  rw [chachaOpen, if_neg hlong]
  simp only [hlen, List.take_left, List.drop_left, tag_eq]
  by_cases h : chachaTag key nonce aad ct = t
  · simp [h, ctEq_iff.mpr]
  · simp [h, ctEq_iff]

theorem chachaOpen_short (h : c.length < 16) :
    chachaOpen key nonce aad c = some (.error .badLength) := by
  rw [chachaOpen, if_pos h]

/-- A long enough text is split before its last sixteen bytes. -/
theorem exists_split (h : 16 ≤ c.length) : ∃ ct t, c = ct ++ t ∧ t.length = 16 :=
  ⟨c.take (c.length - 16), c.drop (c.length - 16), (List.take_append_drop _ _).symm, by
    rw [List.length_drop]; omega⟩

theorem chachaOpen_ok_iff :
    chachaOpen key nonce aad c = some (.ok pt) ↔ chachaSeal key nonce aad pt = some c := by
  rw [chachaSeal_eq]
  constructor
  · intro h
    by_cases hc : c.length < 16
    · rw [chachaOpen_short hc] at h
      cases h
    · obtain ⟨ct, t, rfl, ht⟩ := exists_split (not_lt.mp hc)
      rw [chachaOpen_append _ _ _ _ _ ht] at h
      split_ifs at h with heq
      · cases h
        rw [xor_xor, heq]
      · cases h
  · intro h
    obtain rfl := Option.some.inj h
    rw [chachaOpen_append _ _ _ _ _ (chachaTag_length _ _ _ _), if_pos rfl, xor_xor]

theorem chachaOpen_badLength_iff :
    chachaOpen key nonce aad c = some (.error .badLength) ↔ c.length < 16 := by
  refine ⟨fun h => ?_, chachaOpen_short⟩
  by_contra hc
  obtain ⟨ct, t, rfl, ht⟩ := exists_split (not_lt.mp hc)
  rw [chachaOpen_append _ _ _ _ _ ht] at h
  split_ifs at h <;> cases h

theorem chachaOpen_badTag_iff : chachaOpen key nonce aad c = some (.error .badTag) ↔
    16 ≤ c.length ∧ ∀ pt, chachaSeal key nonce aad pt ≠ some c := by
  by_cases hc : c.length < 16
  · rw [chachaOpen_short hc]
    refine ⟨fun h => (nomatch h), fun h => absurd h.1 (not_le.mpr hc)⟩
  · refine ⟨fun h => ⟨not_lt.mp hc, fun pt hseal => ?_⟩, fun ⟨_, h⟩ => ?_⟩
    · rw [← chachaOpen_ok_iff, h] at hseal
      cases hseal
    · obtain ⟨ct, t, rfl, ht⟩ := exists_split (not_lt.mp hc)
      have hopen := chachaOpen_append key nonce aad ct t ht
      split_ifs at hopen with heq
      · exact absurd (chachaOpen_ok_iff.mp hopen) (h _)
      · exact hopen

/-- A text is encrypted with the stream from the first block on and its code comes behind it;
what opens, and to what, is what was sealed, and a text that is long enough and does not open
has a wrong code. -/
theorem aead_exact (key : PolyKey) (nonce : ChaChaNonce) (aad pt c : Bytes) :
    (∃ ct, ct = pt.mapIdx (fun i byte => byte ^^^ keystream key nonce 1 i) ∧
      chachaSeal key nonce aad pt = some (ct ++ chachaTag key nonce aad ct)) ∧
    (chachaOpen key nonce aad c = some (.ok pt) ↔ chachaSeal key nonce aad pt = some c) ∧
    (chachaOpen key nonce aad c = some (.error .badLength) ↔ c.length < 16) ∧
    (chachaOpen key nonce aad c = some (.error .badTag) ↔
      16 ≤ c.length ∧ ∀ pt, chachaSeal key nonce aad pt ≠ some c) := by
  refine ⟨⟨_, rfl, ?_⟩, chachaOpen_ok_iff, chachaOpen_badLength_iff, chachaOpen_badTag_iff⟩
  rw [chachaSeal_eq, xor_eq]

end Conclave.Crypto
