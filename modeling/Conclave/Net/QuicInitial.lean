import Conclave.Net.Quic

/-! What the receiver of an Initial packet gets from it. The receiver takes off the header
protection and opens the packet as RFC 9001 has it, and keeps what it did not use. -/

namespace Conclave.Net.Quic

open Lib Crypto

variable {hkdf : Hkdf} {aes : Block → Block → Block} {scid dcid : ConnectionId}
  {payload datagram : Bytes}

structure Received where
  header : LongHeader
  token : Bytes
  flags : UInt8
  packetNumber : ℕ
  length : ℕ
  frames : Bytes
  /-- The bytes of the datagram after the packet. -/
  beyond : Bytes
  deriving DecidableEq, Repr

/-- The mask is sampled four bytes after the start of the packet number; the packet number and
the flags come out of it, and with them the nonce and the additional data. -/
def receive (aes : Block → Block → Block) (keys : InitialKeys) (datagram : Bytes) :
    Option Received := do
  let header ← parseLongHeader datagram
  let (tokenLen, n) ← decodeVarint (datagram.drop header.payloadOffset)
  let tokenOffset := header.payloadOffset + n
  let (length, k) ← decodeVarint (datagram.drop (tokenOffset + tokenLen))
  let pnOffset := tokenOffset + tokenLen + k
  if datagram.length < pnOffset + 20 then none
  let mask := (aes keys.hp (.overwrite ((datagram.drop (pnOffset + 4)).take 16))).bytes
  let flags := datagram.getD 0 0 ^^^ (mask.getD 0 0 &&& 0x0f)
  let pnLen := (flags &&& 3).toNat + 1
  let pn := List.zipWith (· ^^^ ·) ((datagram.drop pnOffset).take pnLen) (mask.drop 1)
  let aad := flags :: (datagram.take pnOffset).drop 1 ++ pn
  let frames ← decryptPayload aes keys.key keys.iv (beNat pn) aad
    ((datagram.drop (pnOffset + pnLen)).take (length - pnLen))
  return {
    header := header
    token := (datagram.drop tokenOffset).take tokenLen
    flags := flags
    packetNumber := beNat pn
    length := length
    frames := frames
    beyond := datagram.drop (pnOffset + length) }

/-! ### Integers -/

theorem tag_bits (t : Fin 4) : ∀ b : UInt8, b.toNat < 64 →
    (b ||| UInt8.ofNat (64 * t)) &&& 0x3f = b ∧
      ((b ||| UInt8.ofNat (64 * t)) >>> 6).toNat = t := by
  have hall : ∀ b : UInt8, ∀ t : Fin 4, b.toNat < 64 →
      (b ||| UInt8.ofNat (64 * t)) &&& 0x3f = b ∧
        ((b ||| UInt8.ofNat (64 * t)) >>> 6).toNat = t := forall_byte (by decide +kernel)
  exact fun b => hall b t

/-- Bytes whose first two bits are free take the length there. -/
theorem decodeVarint_tagged (t : Fin 4) {b : UInt8} {bytes : Bytes} (hb : b.toNat < 64)
    (hlen : bytes.length + 1 = 2 ^ (t : ℕ)) (rest : Bytes) :
    decodeVarint ((b ||| UInt8.ofNat (64 * t)) :: bytes ++ rest) =
      some (beNat (b :: bytes), 2 ^ (t : ℕ)) := by
  obtain ⟨hvalue, htag⟩ := tag_bits t b hb
  rw [List.cons_append, decodeVarint, htag, if_neg (by rw [List.length_cons, List.length_append]; omega), ← hlen,
    List.take_succ_cons, List.take_left, List.modifyHead_cons, hvalue]

theorem head_lt {k v : ℕ} (h : v < 2 ^ (8 * k + 6)) : (UInt8.ofNat (v / 2 ^ (8 * k))).toNat < 64 := by
  have hlt : v / 2 ^ (8 * k) < 64 := by
    rw [Nat.div_lt_iff_lt_mul (Nat.two_pow_pos _), show 64 = 2 ^ 6 by norm_num, ← pow_add,
      Nat.add_comm 6]
    exact h
  rw [UInt8.toNat_ofNat']
  exact (Nat.mod_le _ _).trans_lt hlt

/-- What a long form writes is read back. -/
theorem decodeVarint_toBe (t : Fin 4) {k v : ℕ} (hk : k + 1 = 2 ^ (t : ℕ))
    (h : v < 2 ^ (8 * k + 6)) (rest : Bytes) :
    decodeVarint ((toBe (k + 1) v).modifyHead (· ||| UInt8.ofNat (64 * t)) ++ rest) =
      some (v, 2 ^ (t : ℕ)) := by
  have hvalue : beNat (UInt8.ofNat (v / 2 ^ (8 * k)) :: toBe k v) = v := by
    have hmod := beNat_toBe (k + 1) v
    rw [Nat.mod_eq_of_lt (h.trans_le (Nat.pow_le_pow_right (by omega) (by omega)))] at hmod
    exact hmod
  rw [toBe, List.modifyHead_cons, decodeVarint_tagged t (head_lt h) (by rw [toBe_length, hk]) rest,
    hvalue]

/-- A value below `2 ^ 62` is encoded, and read back with its length. -/
theorem decodeVarint_encode {v : ℕ} (h : v < 2 ^ 62) :
    ∃ enc, encodeVarint v = some enc ∧
      ∀ rest, decodeVarint (enc ++ rest) = some (v, enc.length) := by
  rw [encodeVarint]
  split_ifs with h₁ h₂ h₃
  · refine ⟨_, rfl, fun rest => ?_⟩
    have hread := decodeVarint_toBe 0 (show 0 + 1 = 2 ^ 0 by norm_num) (v := v) (by omega) rest
    simpa [toBe] using hread
  · exact ⟨_, rfl, fun rest => decodeVarint_toBe 1 (show 1 + 1 = 2 ^ 1 by norm_num) h₂ rest⟩
  · exact ⟨_, rfl, fun rest => decodeVarint_toBe 2 (show 3 + 1 = 2 ^ 2 by norm_num) h₃ rest⟩
  · exact ⟨_, rfl, fun rest => decodeVarint_toBe 3 (show 7 + 1 = 2 ^ 3 by norm_num) h rest⟩

theorem encodeVarint_none {v : ℕ} (h : 2 ^ 62 ≤ v) : encodeVarint v = none := by
  rw [encodeVarint, if_neg (by omega), if_neg (by omega), if_neg (by omega), if_neg (by omega)]

/-! ### The header -/

/-- The header after its first byte, up to the token. -/
def ids (scid dcid : ConnectionId) : Bytes := toBe 4 1 ++ [8] ++ dcid.bytes ++ [8] ++ scid.bytes

theorem ids_length (scid dcid : ConnectionId) : (ids scid dcid).length = 22 := by
  simp [ids, scid.length, dcid.length]

theorem parseLongHeader_ids {first : UInt8} (hfirst : first &&& 0x80 ≠ 0) (rest : Bytes) :
    parseLongHeader (first :: ids scid dcid ++ rest) =
      some ⟨.fromBits (first >>> 4), 1, dcid.bytes, scid.bytes, 23⟩ := by
  have hone : toBe 4 1 = [0, 0, 0, 1] := by decide
  obtain ⟨dcid, hdcid⟩ := dcid
  obtain ⟨scid, hscid⟩ := scid
  match dcid, hdcid with
  | [d0, d1, d2, d3, d4, d5, d6, d7], _ =>
    match scid, hscid with
    | [s0, s1, s2, s3, s4, s5, s6, s7], _ =>
      simp only [parseLongHeader, ids, hone, List.cons_append, List.nil_append, List.length_cons,
        List.getD_cons_zero, List.getD_cons_succ]
      rw [if_neg (by omega), if_neg hfirst]
      simp only [show (8 : UInt8).toNat = 8 from rfl, List.getD_cons_zero, List.getD_cons_succ,
        show 6 + 8 = 14 from rfl]
      rw [if_neg (by omega), if_neg (by omega)]
      simp [beNat]

theorem initialHeader_eq {lengthField : ℕ} {enc : Bytes} (h : encodeVarint lengthField = some enc) :
    initialHeader scid dcid lengthField = some (0xc0 :: ids scid dcid ++ 0 :: enc) := by
  rw [initialHeader, h]
  simp [encodeVarint, ids]

theorem modify_middle (mid : Bytes) (b : UInt8) (rest : Bytes) (f : UInt8 → UInt8) :
    (mid ++ b :: rest).modify mid.length f = mid ++ f b :: rest := by
  induction mid with
  | nil => rfl
  | cons a mid ih => rw [List.cons_append, List.length_cons, List.modify_succ_cons, ih]; rfl

/-- Header protection of a packet with its packet number in a byte. -/
theorem applyHeaderProtection_eq (hp : Block) (first number : UInt8) (mid sealed : Bytes)
    (hlen : 19 ≤ sealed.length) :
    let mask := (aes hp (.overwrite ((sealed.drop 3).take 16))).bytes
    applyHeaderProtection aes (first :: mid ++ number :: sealed) hp (mid.length + 1) 1 =
      (first ^^^ (mask.getD 0 0 &&& 0x0f)) :: mid ++ (number ^^^ mask.getD 1 0) :: sealed := by
  have hdrop : (first :: mid ++ number :: sealed).drop (mid.length + 1 + 4) = sealed.drop 3 := by
    have hmid : (first :: mid ++ number :: sealed).drop (first :: mid).length = number :: sealed :=
      List.drop_left
    rw [show mid.length + 1 + 4 = (first :: mid).length + 4 from rfl, ← List.drop_drop, hmid]
    rfl
  rw [applyHeaderProtection, if_neg (by simp; omega), hdrop]
  simp only [List.range_succ, List.range_zero, List.nil_append, List.foldl_cons, List.foldl_nil,
    Nat.add_zero, List.cons_append, List.modify_zero_cons, List.modify_succ_cons, modify_middle]

/-! ### The receiver -/

theorem first_bits : ∀ x : UInt8, (0xc0 ^^^ (x &&& 0x0f)) &&& 0x80 ≠ 0 ∧
    LongPacketType.fromBits ((0xc0 ^^^ (x &&& 0x0f)) >>> 4) = .initial :=
  forall_byte (by decide +kernel)

theorem decodeVarint_zero (rest : Bytes) : decodeVarint (0 :: rest) = some (0, 1) := by
  obtain ⟨enc, henc, hread⟩ := decodeVarint_encode (show 0 < 2 ^ 62 by norm_num)
  cases henc
  exact hread rest

theorem encryptPayload_length (key : Block) (iv : Nonce) (n : ℕ) (aad frames : Bytes) :
    (encryptPayload aes key iv n aad frames).length = frames.length + 16 := by
  rw [encryptPayload, gcmSeal, List.length_append, ctrXor_length, Block.length]

theorem decryptPayload_encrypt (key : Block) (iv : Nonce) (n : ℕ) (aad frames : Bytes) :
    decryptPayload aes key iv n aad (encryptPayload aes key iv n aad frames) = some frames := by
  rw [decryptPayload, encryptPayload, (gcmOpen_iff _ _).mpr rfl]
  rfl

/-- The receiver of a packet with header protection gets what was put into it. -/
theorem receive_protected (keys : InitialKeys) {lengthField : ℕ} {enc frames : Bytes}
    (henc : encodeVarint lengthField = some enc) (hlength : lengthField = 1 + frames.length + 16)
    (hframes : 3 ≤ frames.length) (beyond : Bytes) :
    let start := 0xc0 :: (ids scid dcid ++ 0 :: enc)
    let sealed := encryptPayload aes keys.key keys.iv 0 (start ++ [0]) frames
    receive aes keys (applyHeaderProtection aes (start ++ 0 :: sealed) keys.hp start.length 1 ++
        beyond) =
      some ⟨⟨.initial, 1, dcid.bytes, scid.bytes, 23⟩, [], 0xc0, 0, lengthField, frames, beyond⟩ := by
  intro start sealed
  have hsealed : sealed.length = frames.length + 16 := encryptPayload_length _ _ _ _ _
  have hread : ∀ rest, decodeVarint (enc ++ rest) = some (lengthField, enc.length) := by
    have hlt : lengthField < 2 ^ 62 := by
      by_contra hge
      rw [encodeVarint_none (by omega)] at henc
      cases henc
    obtain ⟨enc', henc', hread⟩ := decodeVarint_encode hlt
    rw [henc] at henc'
    exact Option.some.inj henc' ▸ hread
  have hprotected := @applyHeaderProtection_eq aes keys.hp 0xc0 0 (ids scid dcid ++ 0 :: enc)
    sealed (by omega)
  dsimp only at hprotected
  rw [show start ++ 0 :: sealed = 0xc0 :: (ids scid dcid ++ 0 :: enc) ++ 0 :: sealed from rfl,
    show start.length = (ids scid dcid ++ 0 :: enc).length + 1 from rfl, hprotected]
  generalize hmask : aes keys.hp (.overwrite ((sealed.drop 3).take 16)) = mask
  obtain ⟨hlong, htype⟩ := first_bits (mask.bytes.getD 0 0)
  generalize hfirst : 0xc0 ^^^ (mask.bytes.getD 0 0 &&& 0x0f) = first at hlong htype
  generalize hnumber : 0 ^^^ mask.bytes.getD 1 0 = number
  -- The datagram from its parts on.
  have hdatagram : first :: (ids scid dcid ++ 0 :: enc) ++ number :: sealed ++ beyond =
      first :: ids scid dcid ++ 0 :: (enc ++ number :: (sealed ++ beyond)) := by simp
  rw [hdatagram]
  generalize hd : first :: ids scid dcid ++ 0 :: (enc ++ number :: (sealed ++ beyond)) = datagram
  have hlen : (first :: ids scid dcid).length = 23 := by rw [List.length_cons, ids_length]
  have hparse : parseLongHeader datagram =
      some ⟨.initial, 1, dcid.bytes, scid.bytes, 23⟩ := by
    rw [← hd, parseLongHeader_ids hlong, htype]
  have h23 : datagram.drop 23 = 0 :: (enc ++ number :: (sealed ++ beyond)) := by
    rw [← hd, ← hlen, List.drop_left]
  have h24 : datagram.drop 24 = enc ++ number :: (sealed ++ beyond) := by
    rw [show 24 = 23 + 1 from rfl, ← List.drop_drop, h23]
    rfl
  have hpn : ∀ n, datagram.drop (24 + enc.length + n) = (number :: (sealed ++ beyond)).drop n := by
    intro n
    rw [Nat.add_assoc, ← List.drop_drop, h24, ← List.drop_drop, List.drop_left]
  have hsize : datagram.length = 24 + enc.length + (1 + sealed.length + beyond.length) := by
    rw [← hd, List.length_append, hlen]
    simp only [List.length_cons, List.length_append]
    omega
  have hzero : datagram.getD 0 0 = first := by
    rw [← hd]
    rfl
  have hsample : (datagram.drop (24 + enc.length + 4)).take 16 = (sealed.drop 3).take 16 := by
    rw [hpn, List.drop_succ_cons, List.drop_append_of_le_length (by omega),
      List.take_append_of_le_length (by rw [List.length_drop]; omega)]
  have hflags : first ^^^ (mask.bytes.getD 0 0 &&& 0x0f) = 0xc0 := by
    rw [← hfirst, UInt8.xor_assoc, UInt8.xor_self, UInt8.xor_zero]
  have hnum : List.zipWith (· ^^^ ·) ((datagram.drop (24 + enc.length)).take 1)
      (mask.bytes.drop 1) = [0] := by
    have hdrop : mask.bytes.drop 1 = mask.bytes.getD 1 0 :: mask.bytes.drop 2 := by
      have hone : 1 < mask.bytes.length := by rw [mask.length]; omega
      rw [List.drop_eq_getElem_cons hone, List.getD_eq_getElem _ _ hone]
    rw [← Nat.add_zero (24 + enc.length), hpn, List.drop_zero, List.take_succ_cons, List.take_zero,
      hdrop, List.zipWith_cons_cons, List.zipWith_nil_left, ← hnumber, UInt8.xor_assoc,
      UInt8.xor_self, UInt8.xor_zero]
  have haad : 0xc0 :: (datagram.take (24 + enc.length)).drop 1 ++ [0] = start ++ [0] := by
    have htake : datagram.take (24 + enc.length) = first :: (ids scid dcid ++ 0 :: enc) := by
      rw [← hd, show first :: ids scid dcid ++ 0 :: (enc ++ number :: (sealed ++ beyond)) =
        first :: (ids scid dcid ++ 0 :: enc) ++ number :: (sealed ++ beyond) by simp]
      have hstart : (first :: (ids scid dcid ++ 0 :: enc)).length = 24 + enc.length := by
        simp only [List.length_cons, List.length_append, ids_length]
        omega
      rw [← hstart, List.take_left]
    rw [htake]
    rfl
  have hcipher : (datagram.drop (24 + enc.length + 1)).take (lengthField - 1) = sealed := by
    rw [hpn, List.drop_succ_cons, List.drop_zero, show lengthField - 1 = sealed.length by omega,
      List.take_left]
  have hbeyond : datagram.drop (24 + enc.length + lengthField) = beyond := by
    rw [hpn, show lengthField = sealed.length + 1 by omega, List.drop_succ_cons, List.drop_left]
  have hopen : decryptPayload aes keys.key keys.iv (beNat [0]) (start ++ [0]) sealed = some frames :=
    decryptPayload_encrypt _ _ _ _ _
  rw [receive, hparse]
  simp only [Option.bind_eq_bind, Option.bind_some, h23, decodeVarint_zero, Nat.add_zero, h24, hread]
  rw [if_neg (by omega)]
  simp only [hsample, hmask, hzero, hflags, show (0xc0 &&& 3 : UInt8).toNat + 1 = 1 from rfl, hnum,
    haad, hcipher, hopen, hbeyond]
  rfl

/-! ### The datagram -/

theorem encodeVarint_length {v : ℕ} {enc : Bytes} (h : encodeVarint v = some enc) :
    enc.length = if v < 2 ^ 6 then 1 else if v < 2 ^ 14 then 2 else if v < 2 ^ 30 then 4 else 8 := by
  rw [encodeVarint] at h
  split_ifs at h ⊢ <;> obtain rfl := Option.some.inj h
  · rfl
  all_goals rw [List.length_modifyHead, toBe_length]

theorem cryptoFrame_length {frames : Bytes} (h : cryptoFrame payload = some frames) :
    ∃ enc, encodeVarint payload.length = some enc ∧
      frames.length = 2 + enc.length + payload.length := by
  rw [cryptoFrame] at h
  cases henc : encodeVarint payload.length with
  | none =>
    rw [henc] at h
    cases h
  | some enc =>
    rw [henc] at h
    cases h
    refine ⟨enc, rfl, ?_⟩
    simp
    omega

/-- The length of the packet itself, before it is padded. -/
theorem packet_length {frames enc : Bytes} (hframes : cryptoFrame payload = some frames)
    (henc : encodeVarint (1 + frames.length + 16) = some enc) :
    24 + enc.length + 1 + (frames.length + 16) < 1200 ↔ payload.length < 1153 := by
  obtain ⟨encLen, hencLen, hlen⟩ := cryptoFrame_length hframes
  have h₁ := encodeVarint_length hencLen
  have h₂ := encodeVarint_length henc
  split_ifs at h₁ <;> split_ifs at h₂ <;> omega

theorem applyHeaderProtection_length (packet : Bytes) (hp : Block) (pnOffset pnLen : ℕ) :
    (applyHeaderProtection aes packet hp pnOffset pnLen).length = packet.length := by
  have hfold : ∀ (is : List ℕ) (f : ℕ → UInt8 → UInt8) (p : Bytes),
      (is.foldl (fun p i => p.modify (pnOffset + i) (f i)) p).length = p.length := by
    intro is f
    induction is with
    | nil => exact fun p => rfl
    | cons i is ih => exact fun p => (ih _).trans (List.length_modify _ _ _)
  rw [applyHeaderProtection]
  split_ifs
  · rfl
  · dsimp only
    rw [hfold, List.length_modify]

/-- What is built: the packet under header protection, and zeros up to 1200 bytes. -/
theorem build_eq (h : buildInitialPacket hkdf aes scid dcid payload = some datagram) :
    ∃ frames enc, cryptoFrame payload = some frames ∧
      encodeVarint (1 + frames.length + 16) = some enc ∧
      let keys := deriveClientInitialKeys hkdf dcid.bytes
      let start := 0xc0 :: (ids scid dcid ++ 0 :: enc)
      let packet := applyHeaderProtection aes (start ++ 0 ::
        encryptPayload aes keys.key keys.iv 0 (start ++ [0]) frames) keys.hp start.length 1
      datagram = packet ++ List.replicate (1200 - packet.length) 0 ∧
        packet.length = 24 + enc.length + 1 + (frames.length + 16) := by
  rw [buildInitialPacket] at h
  cases hframes : cryptoFrame payload with
  | none =>
    rw [hframes] at h
    cases h
  | some frames =>
    cases henc : encodeVarint (1 + frames.length + 16) with
    | none =>
      rw [hframes] at h
      simp only [Option.bind_eq_bind, Option.bind_some, initialHeader, henc] at h
      simp [encodeVarint] at h
    | some enc =>
      refine ⟨frames, enc, rfl, henc, ?_⟩
      rw [hframes] at h
      simp only [Option.bind_eq_bind, Option.bind_some, initialHeader_eq henc] at h
      obtain rfl := Option.some.inj h
      dsimp only
      refine ⟨?_, ?_⟩
      · split_ifs with hshort
        · simp
        · rw [Nat.sub_eq_zero_of_le (by simpa using hshort)]
          simp
      · rw [applyHeaderProtection_length]
        simp only [List.length_append, List.length_cons, encryptPayload_length, ids_length]
        omega

/-- A datagram from which its receiver gets the CRYPTO frame of the payload, under the packet
number 0 and the flags of an Initial packet, and which is nothing but the packet. -/
def Receivable (hkdf : Hkdf) (aes : Block → Block → Block) (scid dcid : ConnectionId)
    (payload datagram : Bytes) : Prop :=
  ∃ frames r, cryptoFrame payload = some frames ∧
    receive aes (deriveClientInitialKeys hkdf dcid.bytes) datagram = some r ∧
    r.header = ⟨.initial, 1, dcid.bytes, scid.bytes, 23⟩ ∧ r.flags = 0xc0 ∧ r.packetNumber = 0 ∧
    r.length = 1 + frames.length + 16 ∧ r.frames = frames ∧
    1200 ≤ datagram.length ∧ r.beyond = []

/-- What the receiver gets from the datagram that is built. -/
theorem receive_build (h : buildInitialPacket hkdf aes scid dcid payload = some datagram) :
    ∃ frames zeros, cryptoFrame payload = some frames ∧
      receive aes (deriveClientInitialKeys hkdf dcid.bytes) datagram =
        some ⟨⟨.initial, 1, dcid.bytes, scid.bytes, 23⟩, [], 0xc0, 0, 1 + frames.length + 16,
          frames, List.replicate zeros 0⟩ ∧
      1200 ≤ datagram.length ∧ (zeros = 0 ↔ 1153 ≤ payload.length) := by
  obtain ⟨frames, enc, hframes, henc, rfl, hlen⟩ := build_eq h
  obtain ⟨encLen, -, hsize⟩ := cryptoFrame_length hframes
  have hshort := packet_length hframes henc
  have hthree : 3 ≤ frames.length := by
    rw [cryptoFrame] at hframes
    cases hv : encodeVarint payload.length with
    | none =>
      rw [hv] at hframes
      cases hframes
    | some v =>
      have hpos := encodeVarint_length hv
      rw [hv] at hframes
      cases hframes
      simp
      split_ifs at hpos <;> omega
  have hreceive := @receive_protected aes scid dcid
    (deriveClientInitialKeys hkdf dcid.bytes) _ _ _ henc rfl hthree
  refine ⟨frames, 1200 - (24 + enc.length + 1 + (frames.length + 16)), hframes, ?_, ?_, ?_⟩
  · rw [← hlen]
    exact hreceive _
  · rw [List.length_append, List.length_replicate]
    omega
  · omega

/-- Every datagram that is built gives its receiver the frame, the flags and the packet number;
it is nothing but the packet exactly for payloads of at least 1153 bytes. An integer below
`2 ^ 62` is read back with its length. -/
theorem initial_packet_received (hkdf : Hkdf) (aes : Block → Block → Block)
    (scid dcid : ConnectionId) (payload : Bytes) :
    (∀ datagram, buildInitialPacket hkdf aes scid dcid payload = some datagram →
      (Receivable hkdf aes scid dcid payload datagram ↔ 1153 ≤ payload.length) ∧
      ∃ frames zeros, cryptoFrame payload = some frames ∧
        receive aes (deriveClientInitialKeys hkdf dcid.bytes) datagram =
          some ⟨⟨.initial, 1, dcid.bytes, scid.bytes, 23⟩, [], 0xc0, 0, 1 + frames.length + 16,
            frames, List.replicate zeros 0⟩ ∧
        1200 ≤ datagram.length) ∧
    ∀ v < 2 ^ 62, ∃ enc, encodeVarint v = some enc ∧
      ∀ rest, decodeVarint (enc ++ rest) = some (v, enc.length) := by
  refine ⟨fun datagram h => ?_, fun v => decodeVarint_encode⟩
  obtain ⟨frames, zeros, hframes, hreceive, hlen, hzeros⟩ := receive_build h
  refine ⟨⟨?_, fun hlong => ?_⟩, frames, zeros, hframes, hreceive, hlen⟩
  · rintro ⟨frames', r, -, hr, -, -, -, -, -, -, hbeyond⟩
    rw [hreceive] at hr
    obtain rfl := Option.some.inj hr
    exact hzeros.mp (List.replicate_eq_nil_iff _ |>.mp hbeyond)
  · exact ⟨frames, _, hframes, hreceive, rfl, rfl, rfl, rfl, rfl, hlen,
      by rw [hzeros.mpr hlong]; rfl⟩

/-- A payload of no bytes comes in a packet that zeros follow. -/
theorem initial_packet_padded : ¬ ∀ hkdf aes scid dcid payload datagram,
    buildInitialPacket hkdf aes scid dcid payload = some datagram →
      Receivable hkdf aes scid dcid payload datagram := by
  intro hall
  let hkdf : Hkdf := ⟨fun _ _ => [], fun _ _ n => Vector.replicate n 0⟩
  let id : ConnectionId := ⟨List.replicate 8 0, rfl⟩
  have hbuild : ∃ datagram, buildInitialPacket hkdf (fun _ b => b) id id [] = some datagram := by
    rw [buildInitialPacket, show cryptoFrame [] = some [0x06, 0, 0] from rfl]
    simp only [Option.bind_eq_bind, Option.bind_some]
    exact ⟨_, rfl⟩
  obtain ⟨datagram, hdatagram⟩ := hbuild
  obtain ⟨frames', r, -, hr, -, -, -, -, -, -, hbeyond⟩ := hall _ _ _ _ _ _ hdatagram
  obtain ⟨frames, zeros, -, hreceive, -, hzeros⟩ := receive_build hdatagram
  rw [hreceive] at hr
  obtain rfl := Option.some.inj hr
  have hlong := hzeros.mp (List.replicate_eq_nil_iff _ |>.mp hbeyond)
  exact absurd hlong (by decide)

end Conclave.Net.Quic
