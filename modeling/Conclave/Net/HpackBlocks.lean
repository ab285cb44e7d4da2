import Conclave.Net.Huffman

/-! A block decodes to the headers it was encoded from, whatever the table, exactly when
every string in it is shorter than the length field can say. -/

namespace Conclave.Net.Hpack

open Lib

/-! ### Integers -/

theorem toNat_tag {bits x : ℕ} {fb : UInt8} (hbits : bits ≤ 8) (hfb : fb.toNat % 2 ^ bits = 0)
    (hx : x < 2 ^ bits) : (fb ||| UInt8.ofNat x).toNat = fb.toNat + x := by
  have hpow : 2 ^ bits ≤ 2 ^ 8 := Nat.pow_le_pow_right (by norm_num) hbits
  have hsplit := Nat.div_add_mod fb.toNat (2 ^ bits)
  rw [hfb, Nat.add_zero] at hsplit
  rw [UInt8.toNat_or, UInt8.toNat_ofNat', Nat.mod_eq_of_lt (by omega), ← hsplit,
    Nat.two_pow_add_eq_or_of_lt hx]

/-- The bytes after a full prefix add what is left to the value, as long as it fits. -/
theorem decodeRem_encodeRem {rem value j : ℕ} (h : value + rem * 2 ^ (7 * j) < 2 ^ 32)
    (rest : Bytes) :
    decodeRem (encodeRem rem ++ rest) value (7 * j) = some (value + rem * 2 ^ (7 * j), rest) := by
  induction rem using Nat.strong_induction_on generalizing value j with
  | _ rem ih =>
    have hpos : 0 < 2 ^ (7 * j) := Nat.two_pow_pos _
    have hdm := Nat.div_add_mod rem 128
    have hlow : value + rem % 128 * 2 ^ (7 * j) ≤ value + rem * 2 ^ (7 * j) :=
      Nat.add_le_add_left (Nat.mul_le_mul_right _ (Nat.mod_le _ _)) _
    rw [encodeRem]
    split_ifs with hmore
    · have hbyte : (UInt8.ofNat (rem % 128 + 128)).toNat = rem % 128 + 128 := by
        rw [UInt8.toNat_ofNat']
        omega
      have hsplit : value + rem * 2 ^ (7 * j) =
          value + rem % 128 * 2 ^ (7 * j) + rem / 128 * 2 ^ (7 * (j + 1)) := by
        have hstep : 2 ^ (7 * (j + 1)) = 128 * 2 ^ (7 * j) := by
          rw [Nat.mul_add, pow_add, Nat.mul_comm]
          norm_num
        rw [hstep]
        nth_rewrite 1 [← hdm]
        ring
      have hroom : 7 * j + 7 ≤ 28 := by
        -- one more byte of a value below 2^32 starts below bit 32, so at bit 28 at most
        by_contra hlong
        have h32 : 2 ^ 32 ≤ 2 ^ (7 * (j + 1)) := Nat.pow_le_pow_right (by norm_num) (by omega)
        have hone : 1 ≤ rem / 128 := by omega
        have := Nat.mul_le_mul_right (2 ^ (7 * (j + 1))) hone
        omega
      have hmod : (rem % 128 + 128) % 128 = rem % 128 := by omega
      have hpart : rem % 128 * 2 ^ (7 * j) % 2 ^ 32 = rem % 128 * 2 ^ (7 * j) :=
        Nat.mod_eq_of_lt (by omega)
      have hsum : (value + rem % 128 * 2 ^ (7 * j)) % 2 ^ 32 = value + rem % 128 * 2 ^ (7 * j) :=
        Nat.mod_eq_of_lt (by omega)
      rw [hsplit] at h
      rw [List.cons_append, decodeRem]
      simp only [hbyte, hmod, hpart, hsum]
      rw [if_neg (by omega), if_neg (by omega)]
      exact (ih _ (by omega) h).trans (by rw [hsplit])
    · have hbyte : (UInt8.ofNat rem).toNat = rem := by
        rw [UInt8.toNat_ofNat']
        omega
      have hmod : rem % 128 = rem := by omega
      rw [List.singleton_append, decodeRem]
      have hpart : rem * 2 ^ (7 * j) % 2 ^ 32 = rem * 2 ^ (7 * j) := Nat.mod_eq_of_lt (by omega)
      simp only [hbyte, hmod, hpart, Nat.mod_eq_of_lt h]
      rw [if_pos (by omega)]

/-- An integer keeps the tag bits above the prefix, and is read back behind them. -/
theorem decodeInt_encodeInt {value : ℕ} (bits : ℕ) (fb : UInt8) (hbits : bits ≤ 8)
    (hfb : fb.toNat % 2 ^ bits = 0) (hvalue : value < 2 ^ 32) (rest : Bytes) :
    hpackDecodeInt (encodeInt value bits fb ++ rest) bits = some (value, rest) ∧
      ((encodeInt value bits fb ++ rest).headD 0).toNat / 2 ^ bits = fb.toNat / 2 ^ bits := by
  have hpos := Nat.two_pow_pos bits
  have hlow : ∀ x < 2 ^ bits, (fb ||| UInt8.ofNat x).toNat % 2 ^ bits = x ∧
      (fb ||| UInt8.ofNat x).toNat / 2 ^ bits = fb.toNat / 2 ^ bits := by
    intro x hx
    have hsplit := Nat.div_add_mod fb.toNat (2 ^ bits)
    rw [hfb, Nat.add_zero] at hsplit
    rw [toNat_tag hbits hfb hx, ← hsplit, Nat.mul_add_mod, Nat.mul_add_div hpos,
      Nat.mod_eq_of_lt hx, Nat.div_eq_of_lt hx, Nat.add_zero, Nat.mul_div_cancel_left _ hpos]
    exact ⟨rfl, rfl⟩
  by_cases hsmall : value < 2 ^ bits - 1
  · obtain ⟨hval, htag⟩ := hlow value (by omega)
    simp only [encodeInt, if_pos hsmall]
    refine ⟨?_, htag⟩
    simp only [List.singleton_append, hpackDecodeInt, hval]
    rw [if_pos hsmall]
  · obtain ⟨hval, htag⟩ := hlow (2 ^ bits - 1) (by omega)
    simp only [encodeInt, if_neg hsmall]
    refine ⟨?_, htag⟩
    simp only [List.cons_append, hpackDecodeInt, hval, lt_irrefl, if_false]
    have hfits : 2 ^ bits - 1 + (value - (2 ^ bits - 1)) * 2 ^ (7 * 0) = value := by
      rw [Nat.mul_zero, pow_zero, Nat.mul_one]
      omega
    have hrem := decodeRem_encodeRem (hfits ▸ hvalue) rest
    rwa [hfits] at hrem

/-! ### Strings -/

/-- The form a string is sent in, the shorter one of the two. -/
def payload (s : String) : Bytes :=
  if (hpackHuffmanEncode (utf8 s)).length < (utf8 s).length then hpackHuffmanEncode (utf8 s)
  else utf8 s

/-- The length of the form that is sent is a `u32`. -/
def Short (s : String) : Prop := (payload s).length < 2 ^ 32

/-- A form of a string under its length field, which may be too small. -/
theorem decodeString_form {form : Bytes} {huff : Bool} {len : ℕ} (hlen : len < 2 ^ 32)
    (hle : len ≤ form.length) (rest : Bytes) :
    hpackDecodeString (encodeInt len 7 (if huff then 0x80 else 0x00) ++ form ++ rest) =
      (literalBytes huff (form.take len)).bind fun bytes =>
        (fromUtf8 bytes).map fun s => (s, form.drop len ++ rest) := by
  obtain ⟨hint, htag⟩ := decodeInt_encodeInt 7 _ (by norm_num)
    (show (if huff then (0x80 : UInt8) else 0x00).toNat % 2 ^ 7 = 0 by cases huff <;> rfl)
    hlen (form ++ rest)
  have hhuff : decide (128 ≤ ((encodeInt len 7 (if huff then 0x80 else 0x00) ++
      (form ++ rest)).headD 0).toNat) = huff := by
    cases huff with
    | true =>
      have : (0x80 : UInt8).toNat / 2 ^ 7 = 1 := rfl
      rw [decide_eq_true_eq]
      simp only [if_true] at htag ⊢
      omega
    | false =>
      have : (0x00 : UInt8).toNat / 2 ^ 7 = 0 := rfl
      rw [decide_eq_false_iff_not]
      simp only [Bool.false_eq_true, if_false] at htag ⊢
      omega
  have htake : (form ++ rest).take len = form.take len := List.take_append_of_le_length hle
  have hdrop : (form ++ rest).drop len = form.drop len ++ rest :=
    List.drop_append_of_le_length hle
  have henough : ¬ (form ++ rest).length < len := by
    rw [List.length_append]
    omega
  rw [List.append_assoc]
  simp only [hpackDecodeString, hint, hhuff, htake, hdrop, if_neg henough]
  cases literalBytes huff (form.take len) with
  | none => rfl
  | some bytes => cases h : fromUtf8 bytes <;> simp [h]

theorem decodeString_encode (s : String) (rest : Bytes) :
    hpackDecodeString (encodeLiteralString s ++ rest) =
      (literalBytes (decide ((hpackHuffmanEncode (utf8 s)).length < (utf8 s).length))
        ((payload s).take ((payload s).length % 2 ^ 32))).bind fun bytes =>
          (fromUtf8 bytes).map fun s' => (s', (payload s).drop ((payload s).length % 2 ^ 32) ++ rest) := by
  rw [← decodeString_form (Nat.mod_lt _ (by norm_num)) (Nat.mod_le _ _)]
  unfold encodeLiteralString payload
  by_cases h : (hpackHuffmanEncode (utf8 s)).length < (utf8 s).length <;> simp [h]

theorem decodeString_short {s : String} (h : Short s) (rest : Bytes) :
    hpackDecodeString (encodeLiteralString s ++ rest) = some (s, rest) := by
  rw [decodeString_encode, Nat.mod_eq_of_lt h, List.take_length, List.drop_length,
    List.nil_append]
  unfold payload
  by_cases hhuff : (hpackHuffmanEncode (utf8 s)).length < (utf8 s).length
  · simp [hhuff, literalBytes, huffman_round_trip, fromUtf8_utf8]
  · simp [hhuff, literalBytes, fromUtf8_utf8]

/-- A string whose length is cut is read back as another one, if at all. -/
theorem decodeString_long {s s' : String} {rest rest' : Bytes} (h : ¬ Short s)
    (hd : hpackDecodeString (encodeLiteralString s ++ rest) = some (s', rest')) : s' ≠ s := by
  rintro rfl
  rw [decodeString_encode] at hd
  obtain ⟨bytes, hbytes, hd⟩ := Option.bind_eq_some_iff.mp hd
  obtain ⟨s, hs, heq⟩ := Option.map_eq_some_iff.mp hd
  obtain ⟨rfl, -⟩ := Prod.mk.inj heq
  obtain rfl := utf8_of_fromUtf8 hs
  have hcut : ((payload s).take ((payload s).length % 2 ^ 32)).length < (payload s).length := by
    have hlt := Nat.mod_lt (payload s).length (show 2 ^ 32 > 0 by norm_num)
    unfold Short at h
    rw [List.length_take]
    omega
  by_cases hhuff : (hpackHuffmanEncode (utf8 s)).length < (utf8 s).length
  · have hpay : payload s = hpackHuffmanEncode (utf8 s) := if_pos hhuff
    rw [decide_eq_true hhuff] at hbytes
    exact huffman_short (hpay ▸ hcut) hbytes
  · have hpay : payload s = utf8 s := if_neg hhuff
    rw [decide_eq_false hhuff] at hbytes
    have hlen := congrArg (Option.map List.length) hbytes
    simp only [literalBytes, Bool.false_eq_true, if_false, Option.map_some,
      Option.some.injEq] at hlen
    rw [hlen, hpay] at hcut
    exact lt_irrefl _ hcut

/-- A form has five bits or more for each byte of the string. -/
theorem payload_length (s : String) : 5 * (utf8 s).length ≤ 8 * (payload s).length := by
  unfold payload
  split_ifs
  · obtain ⟨k, -, hlen, -⟩ := encode_holds (utf8 s)
    have hbits : 5 * (utf8 s).length ≤ (bitsOf (utf8 s)).length := by
      induction utf8 s with
      | nil => simp
      | cons b input ih =>
        have hcode := (codeOf_range b).2.1
        have hcons : bitsOf (b :: input) = codeBits b ++ bitsOf input := List.flatMap_cons
        rw [hcons, List.length_append, codeBits_length, List.length_cons]
        omega
    rw [List.length_append, List.length_replicate] at hlen
    omega
  · omega

/-! ### Headers -/

def lowered (h : Header) : Header := (toAsciiLowercase h.1, h.2)

/-- The strings that are written out for a header are short. -/
def Fits (h : Header) : Prop :=
  lowered h ∈ hpackStaticTable ∨
    Short h.2 ∧ (toAsciiLowercase h.1 ∈ hpackStaticTable.map (·.1) ∨ Short (toAsciiLowercase h.1))

/-- The table after a header was read. -/
def after (t : HpackDynamicTable) (h : Header) : HpackDynamicTable :=
  if lowered h ∈ hpackStaticTable then t else t.insert (toAsciiLowercase h.1) h.2

theorem hpackLookup_static {p : Header → Bool} {i : ℕ} (t : HpackDynamicTable)
    (h : hpackStaticTable.findIdx? p = some i) :
    i + 1 < 62 ∧ ∃ e, p e = true ∧ e ∈ hpackStaticTable ∧ hpackLookup (i + 1) t = some e := by
  obtain ⟨hlt, hp, -⟩ := List.findIdx?_eq_some_iff_getElem.mp h
  have hlen : hpackStaticTable.length = 61 := rfl
  refine ⟨by omega, hpackStaticTable[i], hp, List.getElem_mem hlt, ?_⟩
  rw [hpackLookup, if_neg (Nat.succ_ne_zero i), if_pos (Nat.succ_le_of_lt hlt), Nat.add_sub_cancel,
    List.getElem?_eq_getElem hlt]

theorem decodeField_indexed {idx : ℕ} (hidx : idx < 2 ^ 32) (rest : Bytes)
    (t : HpackDynamicTable) :
    decodeField (encodeInt idx 7 0x80 ++ rest) t =
      (hpackLookup idx t).map fun e => (some e, rest, t) := by
  obtain ⟨hint, htag⟩ := decodeInt_encodeInt 7 0x80 (by norm_num) rfl hidx rest
  have hone : (0x80 : UInt8).toNat / 2 ^ 7 = 1 := rfl
  rw [decodeField, if_pos (by omega), hint]
  cases h : hpackLookup idx t <;> simp [h]

theorem decodeField_literal {idx : ℕ} (hidx : idx < 2 ^ 32) (rest : Bytes)
    (t : HpackDynamicTable) :
    decodeField (encodeInt idx 6 0x40 ++ rest) t =
      (decodeName idx rest t).bind fun n => (hpackDecodeString n.2).map fun v =>
        (some (n.1, v.1), v.2, t.insert n.1 v.1) := by
  obtain ⟨hint, htag⟩ := decodeInt_encodeInt 6 0x40 (by norm_num) rfl hidx rest
  have hone : (0x40 : UInt8).toNat / 2 ^ 6 = 1 := rfl
  rw [decodeField, if_neg (by omega), if_pos (by omega), decodeLiteral, hint]
  cases hn : decodeName idx rest t with
  | none => simp [hn]
  | some n => cases hv : hpackDecodeString n.2 <;> simp [hn, hv]

/-- What is read for a header, by the way its name is written. -/
theorem decodeField_encode (h : Header) (rest : Bytes) (t : HpackDynamicTable) :
    decodeField (hpackEncodeHeader h.1 h.2 ++ rest) t =
      if lowered h ∈ hpackStaticTable then some (some (lowered h), rest, t)
      else
        (if toAsciiLowercase h.1 ∈ hpackStaticTable.map (·.1) then
            some (toAsciiLowercase h.1, encodeLiteralString h.2 ++ rest)
          else hpackDecodeString (encodeLiteralString (toAsciiLowercase h.1) ++
            (encodeLiteralString h.2 ++ rest))).bind fun n =>
          (hpackDecodeString n.2).map fun v => (some (n.1, v.1), v.2, t.insert n.1 v.1) := by
  unfold hpackEncodeHeader
  cases hexact : hpackStaticTable.findIdx? (· = (toAsciiLowercase h.1, h.2)) with
  | some i =>
    obtain ⟨hi, e, he, hmem, hlook⟩ := hpackLookup_static t hexact
    obtain rfl : e = lowered h := of_decide_eq_true he
    simp only [hexact]
    rw [decodeField_indexed (by omega), hlook, if_pos hmem, Option.map_some]
  | none =>
    have hnot : lowered h ∉ hpackStaticTable := fun hmem => by
      simpa [lowered] using List.findIdx?_eq_none_iff.mp hexact _ hmem
    rw [if_neg hnot]
    cases hname : hpackStaticTable.findIdx? (·.1 = toAsciiLowercase h.1) with
    | some i =>
      obtain ⟨hi, e, he, hmem, hlook⟩ := hpackLookup_static t hname
      have he : e.1 = toAsciiLowercase h.1 := of_decide_eq_true he
      simp only [hexact, hname]
      rw [List.append_assoc, decodeField_literal (by omega), decodeName,
        if_neg (Nat.succ_ne_zero i), hlook, Option.map_some, he,
        if_pos (List.mem_map.mpr ⟨e, hmem, he⟩)]
    | none =>
      have hnone : toAsciiLowercase h.1 ∉ hpackStaticTable.map (·.1) := fun hmem => by
        obtain ⟨e, he, heq⟩ := List.mem_map.mp hmem
        simpa [heq] using List.findIdx?_eq_none_iff.mp hname _ he
      have htag : (0x40 : UInt8) :: (encodeLiteralString (toAsciiLowercase h.1) ++
          encodeLiteralString h.2) ++ rest = encodeInt 0 6 0x40 ++
            (encodeLiteralString (toAsciiLowercase h.1) ++ (encodeLiteralString h.2 ++ rest)) := by
        rw [List.cons_append, List.append_assoc]
        rfl
      simp only [hexact, hname]
      rw [htag, decodeField_literal (by norm_num), decodeName, if_pos rfl, if_neg hnone]

theorem decodeField_fits {h : Header} (hf : Fits h) (rest : Bytes) (t : HpackDynamicTable) :
    decodeField (hpackEncodeHeader h.1 h.2 ++ rest) t =
      some (some (lowered h), rest, after t h) := by
  rw [decodeField_encode, after]
  rcases hf with hmem | ⟨hvalue, hname⟩
  · rw [if_pos hmem, if_pos hmem]
  · by_cases hmem : lowered h ∈ hpackStaticTable
    · rw [if_pos hmem, if_pos hmem]
    · have hread : (if toAsciiLowercase h.1 ∈ hpackStaticTable.map (·.1) then
          some (toAsciiLowercase h.1, encodeLiteralString h.2 ++ rest)
        else hpackDecodeString (encodeLiteralString (toAsciiLowercase h.1) ++
          (encodeLiteralString h.2 ++ rest))) =
            some (toAsciiLowercase h.1, encodeLiteralString h.2 ++ rest) := by
        split_ifs with hin
        · rfl
        · exact decodeString_short (hname.resolve_left hin) _
      rw [if_neg hmem, if_neg hmem, hread, Option.bind_some, decodeString_short hvalue,
        Option.map_some]
      rfl

/-- A header with a long string is read back as another one, if at all. -/
theorem decodeField_unfit {h : Header} (hf : ¬ Fits h) {rest rest' : Bytes}
    {t t' : HpackDynamicTable} {field : Option Header}
    (hd : decodeField (hpackEncodeHeader h.1 h.2 ++ rest) t = some (field, rest', t')) :
    ∃ h', field = some h' ∧ h' ≠ lowered h := by
  obtain ⟨hmem, hlong⟩ := not_or.mp hf
  rw [decodeField_encode, if_neg hmem] at hd
  obtain ⟨⟨name, rest₁⟩, hname, hd⟩ := Option.bind_eq_some_iff.mp hd
  obtain ⟨⟨value, rest₂⟩, hvalue, hd⟩ := Option.map_eq_some_iff.mp hd
  obtain ⟨rfl, -⟩ := Prod.mk.inj hd
  refine ⟨_, rfl, fun heq => ?_⟩
  obtain ⟨hn, hv⟩ := Prod.mk.inj heq
  dsimp only at hn hv
  split_ifs at hname with hin
  · obtain ⟨-, rfl⟩ := Prod.mk.inj (Option.some.inj hname)
    exact decodeString_long (fun hs => hlong ⟨hs, .inl hin⟩) hvalue hv
  · by_cases hs : Short (toAsciiLowercase h.1)
    · rw [decodeString_short hs] at hname
      obtain ⟨-, rfl⟩ := Prod.mk.inj (Option.some.inj hname)
      exact decodeString_long (fun hs' => hlong ⟨hs', .inr hs⟩) hvalue hv
    · exact decodeString_long hs hname hn

/-! ### The table -/

theorem entriesBytes_evict (maxBytes : ℕ) (entries : List Header) :
    entriesBytes (evict maxBytes entries) ≤ maxBytes := by
  induction entries using evict.induct maxBytes with
  | case1 entries h ih => rwa [evict, if_pos h]
  | case2 entries h =>
    rw [evict, if_neg h]
    by_contra hlt
    obtain rfl : entries = [] := by
      by_contra hne
      exact h ⟨not_le.mp hlt, hne⟩
    exact hlt (Nat.zero_le _)

theorem evict_isInit (maxBytes : ℕ) (entries : List Header) : evict maxBytes entries <+: entries := by
  induction entries using evict.induct maxBytes with
  | case1 entries h ih =>
    rw [evict, if_pos h]
    exact ih.trans (List.dropLast_prefix _)
  | case2 entries h => rw [evict, if_neg h]

/-- The headers that are written out, lowercased. -/
def literals (headers : List Header) : List Header :=
  (headers.map lowered).filter (· ∉ hpackStaticTable)

theorem after_maxBytes (t : HpackDynamicTable) (h : Header) : (after t h).maxBytes = t.maxBytes := by
  unfold after HpackDynamicTable.insert
  split_ifs <;> rfl

theorem foldl_after_prefix (headers : List Header) (t : HpackDynamicTable) :
    (headers.foldl after t).entries <+: (literals headers).reverse ++ t.entries := by
  induction headers generalizing t with
  | nil => exact List.prefix_refl _
  | cons h headers ih =>
    refine (ih (after t h)).trans ?_
    by_cases hmem : lowered h ∈ hpackStaticTable
    · simp [literals, after, hmem]
    · have hlit : literals (h :: headers) = lowered h :: literals headers := by
        simp [literals, hmem]
      rw [hlit, List.reverse_cons, List.append_assoc, after, if_neg hmem]
      exact List.prefix_append_right_inj _ |>.mpr (evict_isInit _ _)

/-- The table fits when it did before, or when anything was put into it. -/
theorem foldl_after_bytes (headers : List Header) (t : HpackDynamicTable) :
    (headers.foldl after t).bytes ≤ t.maxBytes ↔ t.bytes ≤ t.maxBytes ∨ literals headers ≠ [] := by
  induction headers generalizing t with
  | nil => simp [literals]
  | cons h headers ih =>
    rw [List.foldl_cons, ← after_maxBytes t h, ih, after_maxBytes]
    by_cases hmem : lowered h ∈ hpackStaticTable
    · simp [literals, after, hmem]
    · have hfits : (after t h).bytes ≤ t.maxBytes := by
        rw [after, if_neg hmem]
        exact entriesBytes_evict _ _
      have hlit : literals (h :: headers) ≠ [] := by simp [literals, hmem]
      exact iff_of_true (.inl hfits) (.inr hlit)

/-! ### Blocks -/

theorem decodeBlockFrom_some {buf rest : Bytes} {t t' : HpackDynamicTable}
    {field : Option Header} (out : List Header) (h : decodeField buf t = some (field, rest, t')) :
    decodeBlockFrom buf t out = decodeBlockFrom rest t' (out ++ field.toList) := by
  have hne : buf ≠ [] := by
    rintro rfl
    exact absurd (decodeField_shorter h) (Nat.not_lt_zero _)
  rw [decodeBlockFrom, if_neg hne]
  split
  · rename_i hd
    rw [h] at hd
    cases hd
  · rename_i hd
    rw [h] at hd
    obtain ⟨rfl, hrest⟩ := Prod.mk.inj (Option.some.inj hd)
    obtain ⟨rfl, rfl⟩ := Prod.mk.inj hrest
    rfl

theorem decodeBlockFrom_prefix {buf : Bytes} {t : HpackDynamicTable} {out r : List Header}
    (h : (decodeBlockFrom buf t out).1 = some r) : out <+: r := by
  induction buf, t, out using decodeBlockFrom.induct with
  | case1 t out =>
    rw [decodeBlockFrom, if_pos rfl] at h
    rw [Option.some.inj h]
  | case2 buf t out hne hd =>
    rw [decodeBlockFrom, if_neg hne] at h
    split at h
    · cases h
    · rename_i hd'
      rw [hd] at hd'
      cases hd'
  | case3 buf t out hne field rest t' hd ih =>
    rw [decodeBlockFrom_some out hd] at h
    exact (List.prefix_append _ _).trans (ih h)

theorem decodeBlockFrom_none {buf : Bytes} {t : HpackDynamicTable} (out : List Header)
    (hne : buf ≠ []) (h : decodeField buf t = none) : decodeBlockFrom buf t out = (none, t) := by
  rw [decodeBlockFrom, if_neg hne]
  split
  · rfl
  · rename_i hd
    rw [h] at hd
    cases hd

theorem decodeBlock_fits {headers : List Header} (hf : ∀ h ∈ headers, Fits h)
    (t : HpackDynamicTable) (out : List Header) :
    decodeBlockFrom (hpackEncodeBlock headers) t out =
      (some (out ++ headers.map lowered), headers.foldl after t) := by
  induction headers generalizing t out with
  | nil =>
    rw [hpackEncodeBlock, List.flatMap_nil, decodeBlockFrom, if_pos rfl]
    simp
  | cons h headers ih =>
    have hblock : hpackEncodeBlock (h :: headers) =
        hpackEncodeHeader h.1 h.2 ++ hpackEncodeBlock headers := List.flatMap_cons
    rw [hblock, decodeBlockFrom_some out (decodeField_fits (hf h List.mem_cons_self) _ t),
      ih fun h' hh' => hf h' (List.mem_cons_of_mem _ hh')]
    simp

theorem hpackEncodeHeader_ne_nil (name value : String) : hpackEncodeHeader name value ≠ [] := by
  have hint : ∀ v bits fb, encodeInt v bits fb ≠ [] := by
    intro v bits fb
    by_cases h : v < 2 ^ bits - 1 <;> simp [encodeInt, h]
  unfold hpackEncodeHeader
  dsimp only
  split
  · exact hint _ _ _
  · split
    · simp [hint]
    · simp

theorem decodeBlock_unfit {headers : List Header} (hf : ¬ ∀ h ∈ headers, Fits h)
    (t : HpackDynamicTable) (out : List Header) :
    (decodeBlockFrom (hpackEncodeBlock headers) t out).1 ≠ some (out ++ headers.map lowered) := by
  induction headers generalizing t out with
  | nil => exact absurd (by simp) hf
  | cons h headers ih =>
    have hblock : hpackEncodeBlock (h :: headers) =
        hpackEncodeHeader h.1 h.2 ++ hpackEncodeBlock headers := List.flatMap_cons
    have hout : out ++ (h :: headers).map lowered = out ++ [lowered h] ++ headers.map lowered := by
      simp
    rw [hblock, hout]
    by_cases hfit : Fits h
    · rw [decodeBlockFrom_some out (decodeField_fits hfit _ t)]
      refine ih (fun hall => hf fun h' hh' => ?_) _ _
      rcases List.mem_cons.mp hh' with rfl | hin
      · exact hfit
      · exact hall h' hin
    · cases hd : decodeField (hpackEncodeHeader h.1 h.2 ++ hpackEncodeBlock headers) t with
      | none =>
        rw [decodeBlockFrom_none out (by simp [hpackEncodeHeader_ne_nil]) hd]
        simp
      | some d =>
        obtain ⟨field, rest, t'⟩ := d
        obtain ⟨h', rfl, hne⟩ := decodeField_unfit hfit hd
        rw [decodeBlockFrom_some out hd]
        intro heq
        -- the wrong header stays where it is
        have hpre := decodeBlockFrom_prefix heq
        rw [List.append_assoc, List.prefix_append_right_inj] at hpre
        exact hne (List.cons_prefix_cons.mp hpre).1

/-- What reading an encoded block gives: the headers, and a table of the newest of them
that fit before the entries that were there. -/
def RoundTrips (headers : List Header) (t : HpackDynamicTable) : Prop :=
  (hpackDecodeBlock (hpackEncodeBlock headers) t).1 = some (headers.map lowered) ∧
    (hpackDecodeBlock (hpackEncodeBlock headers) t).2.bytes ≤ t.maxBytes ∧
    (hpackDecodeBlock (hpackEncodeBlock headers) t).2.entries <+:
      (literals headers).reverse ++ t.entries

theorem block_round_trip (headers : List Header) (t : HpackDynamicTable) :
    RoundTrips headers t ↔
      (∀ h ∈ headers, Fits h) ∧ (t.bytes ≤ t.maxBytes ∨ literals headers ≠ []) := by
  by_cases hf : ∀ h ∈ headers, Fits h
  · have hd := decodeBlock_fits hf t []
    rw [RoundTrips, hpackDecodeBlock, hd, List.nil_append, foldl_after_bytes]
    exact ⟨fun h => ⟨hf, h.2.1⟩, fun h => ⟨rfl, h.2, foldl_after_prefix headers t⟩⟩
  · refine iff_of_false (fun h => ?_) fun h => hf h.1
    exact decodeBlock_unfit hf t [] h.1

theorem utf8_replicate (n : ℕ) (c : Char) :
    (utf8 (String.ofList (List.replicate n c))).length = n * c.utf8Size := by
  have hsize : (utf8 (String.ofList (List.replicate n c))).length =
      (String.ofList (List.replicate n c)).utf8ByteSize := by
    rw [← String.size_toByteArray]
    simp only [utf8, Array.length_toList]
    rfl
  rw [hsize, String.utf8ByteSize_ofList]
  clear hsize
  induction n with
  | zero => simp
  | succ n ih => rw [List.replicate_succ, String.utf8Len_cons, ih, Nat.succ_mul]

/-- A value of 2^33 bytes takes more than 2^32 in either form. -/
theorem block_cut :
    ¬ RoundTrips [("x", String.ofList (List.replicate (2 ^ 33) 'a'))] .new := by
  intro h
  refine decodeBlock_unfit (fun hf => ?_) _ [] h.1
  have hlen : (utf8 (String.ofList (List.replicate (2 ^ 33) 'a'))).length = 2 ^ 33 := by
    rw [utf8_replicate, show 'a'.utf8Size = 1 from rfl, Nat.mul_one]
  have hname : toAsciiLowercase "x" ∉ hpackStaticTable.map (·.1) := by decide +kernel
  rcases hf _ (List.mem_singleton_self _) with hmem | ⟨hshort, -⟩
  · exact hname (List.mem_map.mpr ⟨_, hmem, rfl⟩)
  · have hpay := payload_length (String.ofList (List.replicate (2 ^ 33) 'a'))
    rw [hlen] at hpay
    unfold Short at hshort
    dsimp only at hshort
    omega

end Conclave.Net.Hpack
