import Conclave.Net.ChunkedFraming

/-! Bodies of the standard's grammar: the scanner and the decoder read their size lines alike. -/

namespace Conclave.Net.Chunked

open Lib Text Sse

variable {line rest out digits ext : Bytes} {n : ℕ} {B : Body}

/-! ### Size lines -/

/-- An extension starts with its semicolon, or with white space before it. -/
theorem ChunkExt.cases_front (h : ChunkExt ext) :
    ext = [] ∨ ∃ w tail, ext = w ++ 0x3b :: tail ∧ IsBws w := by
  cases h with
  | nil => exact .inl rfl
  | name w₁ w₂ name rest hw => exact .inr ⟨w₁, _, rfl, hw⟩
  | val w₁ w₂ name w₃ w₄ val rest hw => exact .inr ⟨w₁, _, rfl, hw⟩

theorem isHexdig_cases {b : UInt8} (h : isHexdig b) :
    (0x30 ≤ b.toNat ∧ b.toNat ≤ 0x39) ∨ (0x41 ≤ b.toNat ∧ b.toNat ≤ 0x46) ∨
      (0x61 ≤ b.toNat ∧ b.toNat ≤ 0x66) := by
  simpa only [isHexdig, UInt8.le_iff_toNat_le, UInt8.reduceToNat, decide_eq_true_eq] using h

theorem isHexdig_ascii {b : UInt8} (h : isHexdig b) : b.toNat < 128 := by
  have := isHexdig_cases h
  omega

theorem isHexdig_stays {b : UInt8} (h : isHexdig b) : b ≠ 0x3b ∧ b ≠ 0x20 ∧ b ≠ 0x09 := by
  have := isHexdig_cases h
  refine ⟨?_, ?_, ?_⟩
  all_goals
    rintro rfl
    revert this
    decide

/-- What a hexadecimal digit is as a character. -/
theorem isHexdig_char {b : UInt8} (h : isHexdig b) :
    isWhitespace (Char.ofNat b.toNat) = false ∧ Char.ofNat b.toNat ≠ '+' ∧
      Char.ofNat b.toNat ≠ ';' ∧ (hexDigit (Char.ofNat b.toNat)).isSome := by
  have hall : ∀ k < 128, (0x30 ≤ k ∧ k ≤ 0x39) ∨ (0x41 ≤ k ∧ k ≤ 0x46) ∨ (0x61 ≤ k ∧ k ≤ 0x66) →
      isWhitespace (Char.ofNat k) = false ∧ Char.ofNat k ≠ '+' ∧ Char.ofNat k ≠ ';' ∧
        (hexDigit (Char.ofNat k)).isSome := by decide
  exact hall b.toNat (isHexdig_ascii h) (isHexdig_cases h)

/-- Digits are read as the number that they are. -/
theorem fromStrRadix16_digits (hne : digits ≠ []) (h : ∀ b ∈ digits, isHexdig b)
    (hfits : hexValue digits < 2 ^ 64) :
    fromStrRadix16 (asciiText digits) = some (hexValue digits) := by
  have hmap : ∀ ds : Bytes, (∀ b ∈ ds, isHexdig b) → (asciiText ds).mapM hexDigit =
      some (ds.map fun b => (hexDigit (Char.ofNat b.toNat)).getD 0) := by
    intro ds hds
    induction ds with
    | nil => rfl
    | cons b ds ih =>
      obtain ⟨d, hd⟩ := Option.isSome_iff_exists.mp (isHexdig_char (hds b (List.mem_cons_self ..))).2.2.2
      rw [asciiText, List.map_cons, List.mapM_cons, hd, ← asciiText,
        ih fun b hb => hds b (List.mem_cons_of_mem _ hb), List.map_cons, hd]
      rfl
  have hhead : (asciiText digits).head? ≠ some '+' := by
    obtain ⟨b, ds, rfl⟩ := List.exists_cons_of_ne_nil hne
    intro hplus
    exact (isHexdig_char (h b (List.mem_cons_self ..))).2.1 (Option.some.inj hplus)
  have hnil : asciiText digits ≠ [] := fun hnil => hne (List.map_eq_nil_iff.mp hnil)
  have hvalue : (digits.map fun b => (hexDigit (Char.ofNat b.toNat)).getD 0).foldl
      (fun n d => 16 * n + d) 0 = hexValue digits := List.foldl_map
  rw [fromStrRadix16]
  dsimp only
  rw [if_neg hhead, if_neg hnil, hmap digits h, Option.bind_some, hvalue, if_pos hfits]

theorem trim_digits (hne : digits ≠ []) (h : ∀ b ∈ digits, isHexdig b) {w : Bytes}
    (hw : IsBws w) : trim (asciiText digits ++ asciiText w) = asciiText digits := by
  have hkept : ∀ c ∈ asciiText digits, isWhitespace c = false := by
    intro c hc
    obtain ⟨b, hb, rfl⟩ := List.mem_map.mp hc
    exact (isHexdig_char (h b hb)).1
  have hdropped : ∀ c ∈ (asciiText w).reverse, isWhitespace c = true := by
    intro c hc
    obtain ⟨b, hb, rfl⟩ := List.mem_map.mp (List.mem_reverse.mp hc)
    rcases hw b hb with rfl | rfl <;> decide
  have hstops : Stops isWhitespace (asciiText digits).reverse := by
    intro c hc
    exact hkept c (List.mem_reverse.mp (List.mem_of_head? hc))
  have hfront : (asciiText digits ++ asciiText w).dropWhile isWhitespace =
      asciiText digits ++ asciiText w := by
    obtain ⟨b, ds, rfl⟩ := List.exists_cons_of_ne_nil hne
    exact List.dropWhile_cons_of_neg
      (Bool.eq_false_iff.mp (hkept _ (List.mem_cons_self ..)))
  rw [trim, trimMatches, hfront, List.rdropWhile, List.reverse_append,
    dropWhile_append_stops hdropped hstops, List.reverse_reverse]

/-- The scanner reads the size of a size line. -/
theorem scanSize_sizeLine (h : IsSizeLine line n) (hn : n < 2 ^ 64) : scanSize line = some n := by
  obtain ⟨digits, ext, rfl, hne, hdigits, hext, rfl⟩ := h
  have hstops : Stops (fun b : UInt8 => decide (b ≠ 0x3b ∧ b ≠ 0x20 ∧ b ≠ 0x09)) ext := by
    intro a ha
    rcases hext.cases_front with rfl | ⟨w, tail, rfl, hw⟩
    · cases ha
    · cases w with
      | nil =>
        cases ha
        rfl
      | cons b w =>
        cases ha
        rcases hw a (List.mem_cons_self ..) with rfl | rfl <;> rfl
  have hfront : (digits ++ ext).takeWhile (fun b => decide (b ≠ 0x3b ∧ b ≠ 0x20 ∧ b ≠ 0x09)) =
      digits := takeWhile_append_stops (fun b hb => decide_eq_true (isHexdig_stays (hdigits b hb))) hstops
  obtain ⟨s, hs, hchars⟩ := fromUtf8_ascii fun b hb => isHexdig_ascii (hdigits b hb)
  have htrim := trim_digits hne hdigits (w := []) nofun
  rw [show asciiText [] = [] from rfl, List.append_nil] at htrim
  rw [scanSize, sizeStr, hfront, hs, Option.elim_some, hchars, htrim,
    fromStrRadix16_digits hne hdigits hn]

/-- The decoder reads it too. -/
theorem sizeField_sizeLine (h : IsSizeLine line n) (hn : n < 2 ^ 64) {s : String}
    (hs : fromUtf8 line = some s) : fromStrRadix16 (sizeField s) = some n := by
  obtain ⟨digits, ext, rfl, hne, hdigits, hext, rfl⟩ := h
  have hbytes := utf8_of_fromUtf8 hs
  rw [utf8_eq_flatMap] at hbytes
  obtain ⟨cs, hcs, hrest⟩ := ascii_split (fun b hb => isHexdig_ascii (hdigits b hb)) hbytes
  have hsemi : ∀ c ∈ asciiText digits, decide (c ≠ ';') = true := by
    intro c hc
    obtain ⟨b, hb, rfl⟩ := List.mem_map.mp hc
    exact decide_eq_true (isHexdig_char (hdigits b hb)).2.2.1
  have hfield : ∃ w, IsBws w ∧ s.toList.takeWhile (· ≠ ';') = asciiText digits ++ asciiText w := by
    rcases hext.cases_front with rfl | ⟨w, tail, rfl, hw⟩
    · refine ⟨[], nofun, ?_⟩
      cases cs with
      | nil =>
        rw [hcs, List.append_nil, List.takeWhile_eq_self_iff.mpr hsemi]
        exact (List.append_nil _).symm
      | cons c cs =>
        rw [List.flatMap_cons, List.append_eq_nil_iff] at hrest
        exact absurd hrest.1 String.utf8EncodeChar_ne_nil
    · have hascii : ∀ b ∈ w, b.toNat < 128 := by
        intro b hb
        rcases hw b hb with rfl | rfl <;> decide
      obtain ⟨cs₁, rfl, h₁⟩ := ascii_split hascii hrest
      obtain ⟨cs₂, rfl, -⟩ := ascii_front (by decide) h₁
      refine ⟨w, hw, ?_⟩
      rw [hcs, ← List.append_assoc]
      apply takeWhile_append_stops
      · intro c hc
        rcases List.mem_append.mp hc with hc | hc
        · exact hsemi c hc
        · obtain ⟨b, hb, rfl⟩ := List.mem_map.mp hc
          rcases hw b hb with rfl | rfl <;> decide
      · intro a ha
        cases ha
        decide
  obtain ⟨w, hw, htake⟩ := hfield
  rw [sizeField, htake, trim_digits hne hdigits hw, fromStrRadix16_digits hne hdigits hn]

theorem not_mem_of_isFieldByte {w : Bytes} (h : ∀ b ∈ w, isFieldByte b) : (0x0d : UInt8) ∉ w :=
  fun hmem => absurd (h _ hmem) (by decide)

theorem not_mem_of_isToken {w : Bytes} (h : IsToken w) : (0x0d : UInt8) ∉ w :=
  fun hmem => absurd (h.2 _ hmem) (by decide)

theorem not_mem_of_isBws {w : Bytes} (h : IsBws w) : (0x0d : UInt8) ∉ w :=
  fun hmem => absurd (h _ hmem) (by decide)

theorem not_mem_of_quotedText {w : Bytes} (h : QuotedText w) : (0x0d : UInt8) ∉ w := by
  induction h with
  | nil => exact List.not_mem_nil
  | qdtext b w hb _ ih =>
    intro hmem
    rcases List.mem_cons.mp hmem with rfl | hmem
    · exact absurd hb (by decide)
    · exact ih hmem
  | quotedPair b w hb _ ih =>
    intro hmem
    rcases List.mem_cons.mp hmem with heq | hmem
    · exact absurd heq (by decide)
    rcases List.mem_cons.mp hmem with rfl | hmem
    · exact absurd hb (by decide)
    · exact ih hmem

theorem not_mem_of_chunkExt (h : ChunkExt ext) : (0x0d : UInt8) ∉ ext := by
  have hbyte : ∀ b : UInt8, b ≠ 0x0d → ∀ w : Bytes, (0x0d : UInt8) ∉ w → (0x0d : UInt8) ∉ b :: w := by
    intro b hb w hw hmem
    rcases List.mem_cons.mp hmem with rfl | hmem
    · exact hb rfl
    · exact hw hmem
  have happ : ∀ v w : Bytes, (0x0d : UInt8) ∉ v → (0x0d : UInt8) ∉ w → (0x0d : UInt8) ∉ v ++ w :=
    fun v w hv hw hmem => (List.mem_append.mp hmem).elim hv hw
  induction h with
  | nil => exact List.not_mem_nil
  | name w₁ w₂ name rest h₁ h₂ hname _ ih =>
    apply happ _ _ (not_mem_of_isBws h₁)
    apply hbyte _ (by decide)
    apply happ _ _ (not_mem_of_isBws h₂)
    exact happ _ _ (not_mem_of_isToken hname) ih
  | val w₁ w₂ name w₃ w₄ val rest h₁ h₂ hname h₃ h₄ hval _ ih =>
    have hvalue : (0x0d : UInt8) ∉ val := by
      rcases hval with htoken | ⟨t, ht, rfl⟩
      · exact not_mem_of_isToken htoken
      · apply hbyte _ (by decide)
        exact happ _ _ (not_mem_of_quotedText ht) (by decide)
    apply happ _ _ (not_mem_of_isBws h₁)
    apply hbyte _ (by decide)
    apply happ _ _ (not_mem_of_isBws h₂)
    apply happ _ _ (not_mem_of_isToken hname)
    apply happ _ _ (not_mem_of_isBws h₃)
    apply hbyte _ (by decide)
    apply happ _ _ (not_mem_of_isBws h₄)
    exact happ _ _ hvalue ih

/-- The lines of the standard have no line break in them: to ask for lines loses no body. -/
theorem isLine_rfc : (IsSizeLine line n → IsLine line) ∧ (IsFieldLine line → IsLine line) := by
  constructor
  · rintro ⟨digits, ext, rfl, -, hdigits, hext, -⟩
    apply isLine_of_not_mem
    intro hmem
    rcases List.mem_append.mp hmem with hmem | hmem
    · exact absurd (hdigits _ hmem) (by decide)
    · exact not_mem_of_chunkExt hext hmem
  · rintro ⟨name, value, rfl, hname, hvalue⟩
    apply isLine_of_not_mem
    intro hmem
    rcases List.mem_append.mp hmem with hmem | hmem
    · exact not_mem_of_isToken hname hmem
    rcases List.mem_cons.mp hmem with heq | hmem
    · exact absurd heq (by decide)
    · exact not_mem_of_isFieldByte hvalue hmem

/-! ### Bodies -/

theorem bytes_le {c : Chunk} (h : c ∈ B.chunks) : c.bytes.length ≤ B.bytes.length := by
  have hle : c.bytes.length ≤ (B.chunks.flatMap Chunk.bytes).length := by
    obtain ⟨s, t, hst⟩ := List.append_of_mem h
    rw [hst, List.flatMap_append, List.flatMap_cons, List.length_append, List.length_append]
    omega
  simp only [Body.bytes, List.length_append]
  omega

/-- A body of the standard is one of the loose grammar. -/
theorem Body.Ok.loose (h : B.Ok rfc9112) (hlen : B.bytes.length < 2 ^ 63) : B.Ok loose := by
  refine ⟨?_, h.line, scanSize_sizeLine h.size (by norm_num), ?_⟩
  · intro c hc
    have hok := h.chunks c hc
    have hle := bytes_le hc
    rw [hok.bytes_length] at hle
    exact ⟨hok.line, scanSize_sizeLine hok.size (by omega), hok.data, hok.length, trivial⟩
  · intro t ht
    obtain ⟨hline, name, value, rfl, hname, -⟩ := h.trailers t ht
    exact ⟨hline, List.append_ne_nil_of_left_ne_nil hname.1 _⟩

theorem Body.Ok.rfc (h : B.Ok strict) : B.Ok rfc9112 :=
  ⟨fun c hc => ⟨(h.chunks c hc).line, (h.chunks c hc).size.1, (h.chunks c hc).data,
      (h.chunks c hc).length, (h.chunks c hc).sep⟩,
    h.line, h.size.1, h.trailers⟩

/-! ### The decoder -/

theorem decodeFrom_line (h : IsLine line) : decodeFrom out (line ++ crlf ++ rest) =
    match fromUtf8 line with
    | none => some (.error .nonUtf8Size)
    | some sizeLine =>
      match fromStrRadix16 (sizeField sizeLine) with
      | none => some (.error (.badChunkSize (sizeField sizeLine)))
      | some size =>
        if size = 0 then some (.ok out)
        else if 2 ^ 64 ≤ size + 2 then none
        else if rest.length < size + 2 then some (.error .chunkBodyShort)
        else if (rest.drop size).take 2 ≠ crlf then some (.error .chunkNotCrlfTerminated)
        else decodeFrom (out ++ rest.take size) (rest.drop (size + 2)) := by
  rw [decodeFrom]
  split
  · next hnone => exact absurd ((findCrlf_line h rest).symm.trans hnone) (Option.some_ne_none _)
  · next p hp =>
    obtain rfl := Option.some.inj ((findCrlf_line h rest).symm.trans hp)
    dsimp only
    refine (@forall_eq' _ (_ = ·) _).mp fun v hv => ?_
    rw [take_line, drop_line]
    exact hv

/-- A chunk of the standard: its data is taken over, when its size line is UTF-8. -/
theorem decodeFrom_chunk {c : Chunk} (h : c.Ok rfc9112) (hlen : c.bytes.length < 2 ^ 63) :
    decodeFrom out (c.bytes ++ rest) =
      if (fromUtf8 c.line).isSome then decodeFrom (out ++ c.data) rest
      else some (.error .nonUtf8Size) := by
  rw [h.bytes_length] at hlen
  have hsep : c.sep = crlf := h.sep
  have hpos := h.data_pos
  rw [c.bytes_append, decodeFrom_line h.line]
  match hs : fromUtf8 c.line with
  | none => rfl
  | some s =>
    have hsize := sizeField_sizeLine h.size (by omega) hs
    have henough : ¬ (c.data ++ (c.sep ++ rest)).length < c.data.length + 2 := by
      rw [List.length_append, List.length_append, h.length]
      omega
    have htake : ((c.data ++ (c.sep ++ rest)).drop c.data.length).take 2 = crlf := by
      rw [List.drop_left, hsep]
      rfl
    dsimp only
    rw [hsize]
    dsimp only
    rw [if_neg hpos.ne', if_neg (by omega), if_neg henough, if_neg (not_not_intro htake),
      List.take_left, h.drop_data, Option.isSome_some, if_pos rfl]

theorem decodeFrom_last (h : IsLine line) (hsize : IsSizeLine line 0) :
    decodeFrom out (line ++ crlf ++ rest) =
      if (fromUtf8 line).isSome then some (.ok out) else some (.error .nonUtf8Size) := by
  rw [decodeFrom_line h]
  match hs : fromUtf8 line with
  | none => rfl
  | some s =>
    have hzero := sizeField_sizeLine hsize (by norm_num) hs
    dsimp only
    rw [hzero]
    rfl

/-- A body of the standard is decoded to its data exactly when its size lines are UTF-8. -/
theorem decode_rfc (h : B.Ok rfc9112) (hlen : B.bytes.length < 2 ^ 63) (rest : Bytes) :
    (B.Ok strict → decodeChunked (B.bytes ++ rest) = some (.ok B.data)) ∧
      ∀ d, decodeChunked (B.bytes ++ rest) = some (.ok d) → B.Ok strict := by
  have hall : ∀ (cs : List Chunk) (out : Bytes), (∀ c ∈ cs, c.Ok rfc9112 ∧ c.bytes.length < 2 ^ 63) →
      ∀ tail, decodeFrom out (cs.flatMap Chunk.bytes ++ (B.last ++ crlf ++ tail)) =
        if (∀ c ∈ cs, (fromUtf8 c.line).isSome) ∧ (fromUtf8 B.last).isSome then
          some (.ok (out ++ cs.flatMap Chunk.data))
        else some (.error .nonUtf8Size) := by
    intro cs
    induction cs with
    | nil =>
      intro out _ tail
      show decodeFrom out (B.last ++ crlf ++ tail) = _
      rw [decodeFrom_last h.line h.size]
      simp
    | cons c cs ih =>
      intro out hcs tail
      obtain ⟨hc, hlen⟩ := hcs c (List.mem_cons_self ..)
      rw [List.flatMap_cons, List.append_assoc, decodeFrom_chunk hc hlen,
        ih _ fun c hc => hcs c (List.mem_cons_of_mem _ hc), List.flatMap_cons, ← List.append_assoc]
      simp only [List.forall_mem_cons, and_assoc]
      split_ifs <;> first | rfl | tauto
  have hbytes : B.bytes ++ rest = B.chunks.flatMap Chunk.bytes ++
      (B.last ++ crlf ++ (B.trailers.flatMap (· ++ crlf) ++ crlf ++ rest)) := by
    simp only [Body.bytes, List.append_assoc]
  have hdecode : decodeChunked (B.bytes ++ rest) =
      if (∀ c ∈ B.chunks, (fromUtf8 c.line).isSome) ∧ (fromUtf8 B.last).isSome then
        some (.ok B.data) else some (.error .nonUtf8Size) := by
    rw [decodeChunked, hbytes, hall B.chunks [] fun c hc => ⟨h.chunks c hc, (bytes_le hc).trans_lt hlen⟩]
    rfl
  constructor
  · intro hstrict
    rw [hdecode, if_pos ⟨fun c hc => (hstrict.chunks c hc).size.2, hstrict.size.2⟩]
  · intro d hd
    rw [hdecode] at hd
    split_ifs at hd with hutf8
    · exact ⟨fun c hc => ⟨(h.chunks c hc).line, ⟨(h.chunks c hc).size, hutf8.1 c hc⟩,
          (h.chunks c hc).data, (h.chunks c hc).length, (h.chunks c hc).sep⟩,
        h.line, ⟨h.size, hutf8.2⟩, h.trailers⟩
    · cases hd

/-! ### Agreement -/

theorem Sound.no_overflow {b : Bytes} (h : Sound b) {p : Bytes} (hp : p <+: b) :
    chunkedBodyIsComplete p ≠ none := by
  intro hnone
  obtain ⟨chunks, line, rest, n, rfl, hok, hline, hs, hover⟩ := exists_overflow hnone
  obtain ⟨tail, rfl⟩ := hp
  have hfits := h.1 chunks line (rest ++ tail) n (by simp only [List.append_assoc]) hok hline hs
  omega

/-- Nothing shorter than the body is complete for the scanner. -/
theorem Sound.scan_shorter {b : Bytes} (h : Sound b) {B : Body} {rest : Bytes}
    (hb : b = B.bytes ++ rest) (hB : B.Ok Chunked.loose) {p : Bytes} (hp : p <+: b)
    (hlen : p.length < B.bytes.length) : chunkedBodyIsComplete p = some false := by
  match hscan : chunkedBodyIsComplete p with
  | none => exact absurd hscan (h.no_overflow hp)
  | some false => rfl
  | some true =>
    obtain ⟨B', rest', rfl, hB'⟩ := exists_loose hscan
    obtain ⟨tail, rfl⟩ := hp
    rw [List.append_assoc] at hb
    obtain rfl := loose_unique hB' hB hb
    rw [List.length_append] at hlen
    omega

theorem chunked_agree (b : Slice) : Agrees b.1 ↔ Sound b.1 := by
  obtain ⟨b, hb⟩ := b
  show Agrees b ↔ Sound b
  have hle : ∀ {B : Body} {rest : Bytes}, b = B.bytes ++ rest → B.bytes.length < 2 ^ 63 := by
    rintro B rest rfl
    rw [List.length_append] at hb
    omega
  constructor
  · rintro ⟨complete, hscan, hiff, hread⟩
    constructor
    · rintro chunks line rest n rfl hok hline hs
      by_contra hover
      have hlen : (chunks.flatMap Chunk.bytes).length + line.length + 2 + rest.length < 2 ^ 63 := by
        simpa only [List.length_append, crlf_length, ← Nat.add_assoc] using hb
      have hnone : chunkedBodyIsComplete (chunks.flatMap Chunk.bytes ++ line ++ crlf ++ rest) = none :=
        scan_overflow hok (by omega) hline hs (by omega) (by omega)
      exact absurd (hscan.symm.trans hnone) nofun
    · rintro B rest rfl hB
      have htrue := (hscan.symm.trans (scan_loose hB (hle rfl) rest))
      obtain ⟨B', rest', heq, hB', -, hdecode, -⟩ := hread (Option.some.inj htrue)
      have hlt := hle heq
      obtain rfl := loose_unique hB (hB'.loose hlt) heq
      rw [heq] at hdecode
      exact (decode_rfc hB' hlt rest').2 _ hdecode
  · intro h
    match hscan : chunkedBodyIsComplete b with
    | none => exact absurd hscan (h.no_overflow (List.prefix_rfl))
    | some false =>
      refine ⟨false, hscan, ⟨nofun, ?_⟩, nofun⟩
      rintro ⟨B, rest, heq, hB⟩
      have htrue := scan_loose (hB.loose (hle heq)) (hle heq) rest
      rw [← heq, hscan] at htrue
      exact Option.some.inj htrue
    | some true =>
      obtain ⟨B, rest, heq, hB⟩ := exists_loose hscan
      have hstrict := h.2 B rest heq hB
      refine ⟨true, hscan, ⟨fun _ => ⟨B, rest, heq, hstrict.rfc⟩, fun _ => rfl⟩,
        fun _ => ⟨B, rest, heq, hstrict.rfc, ?_, ?_, ?_⟩⟩
      · intro B' rest' heq' hB'
        obtain rfl := loose_unique hB (hB'.loose (hle heq')) (heq.symm.trans heq')
        exact le_rfl
      · rw [heq]
        exact (decode_rfc hstrict.rfc (hle heq) rest).1 hstrict
      · intro p hp hlen
        exact h.scan_shorter heq hB hp hlen

/-- One byte of data, and behind it two letters where the line break has to be. -/
def unbroken : Body := ⟨[⟨[0x31], [0x41], [0x78, 0x78]⟩], [0x30], []⟩

theorem unbroken_loose : unbroken.Ok loose := by
  have hone : IsSizeLine [0x31] 1 :=
    ⟨[0x31], [], rfl, by decide, List.forall_mem_singleton.mpr (by decide), .nil, by decide⟩
  have hzero : IsSizeLine [0x30] 0 :=
    ⟨[0x30], [], rfl, by decide, List.forall_mem_singleton.mpr (by decide), .nil, by decide⟩
  refine ⟨?_, rfl, scanSize_sizeLine hzero (by norm_num), nofun⟩
  intro c hc
  obtain rfl := List.mem_singleton.mp hc
  exact ⟨rfl, scanSize_sizeLine hone (by norm_num), by decide, rfl, trivial⟩

theorem chunked_disagree : ∃ b : Slice, chunkedBodyIsComplete b.1 = some true ∧
    ¬ ∃ B rest, b.1 = Body.bytes B ++ rest ∧ B.Ok rfc9112 := by
  have hlen : unbroken.bytes.length < 2 ^ 63 := by decide
  refine ⟨⟨unbroken.bytes, hlen⟩, ?_, ?_⟩
  · have hscan := scan_loose unbroken_loose hlen []
    rwa [List.append_nil] at hscan
  · rintro ⟨B, rest, heq, hB⟩
    have hlt : B.bytes.length < 2 ^ 63 := by
      have hle := congrArg List.length heq
      rw [List.length_append] at hle
      exact (hle ▸ Nat.le_add_right _ _).trans_lt hlen
    obtain rfl := loose_unique unbroken_loose (hB.loose hlt) ((List.append_nil _).trans heq)
    have hsep : ([0x78, 0x78] : Bytes) = crlf := (hB.chunks _ (List.mem_cons_self ..)).sep
    cases hsep

end Conclave.Net.Chunked
