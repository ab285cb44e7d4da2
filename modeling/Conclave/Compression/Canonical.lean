import Conclave.Compression.Deflate

/-! The decoder of canonical codes is exact, whatever the lengths, and no index goes wrong. -/

namespace Conclave.Compression

open Lib

/-! ### The bits of a reader -/

def byteBits (b : UInt8) : List Bool := (List.range 8).map b.toNat.testBit

namespace BitReader

/-- The bits still to come. -/
def bits (br : BitReader) : List Bool :=
  (List.range br.bitCount).map br.bitBuf.testBit ++ (br.bytes.drop br.pos).flatMap byteBits

theorem bits_load {br : BitReader} {b : UInt8} (hcount : br.bitCount = 0)
    (hb : br.bytes[br.pos]? = some b) : (br.load b).bits = br.bits := by
  have hlt := b.toNat_lt
  have hfits := br.fits
  rw [hcount, pow_zero] at hfits
  have hzero : br.bitBuf = 0 := by omega
  have hbuf : (br.load b).bitBuf = b.toNat := by
    show br.bitBuf ||| b.toNat * 2 ^ br.bitCount % 2 ^ 32 = b.toNat
    rw [hzero, hcount, pow_zero, Nat.mul_one, Nat.zero_or, Nat.mod_eq_of_lt (by omega)]
  have hcount' : (br.load b).bitCount = 8 := by
    show br.bitCount + 8 = 8
    rw [hcount]
  obtain ⟨hpos, rfl⟩ := List.getElem?_eq_some_iff.mp hb
  rw [bits, bits, hbuf, hcount', hcount, List.drop_eq_getElem_cons hpos, List.flatMap_cons]
  rfl

theorem readBits_of_pos {br : BitReader} (h : 0 < br.bitCount) :
    ∃ b br', br.readBits 1 = .ok (b.toNat, br') ∧ br.bits = b :: br'.bits := by
  obtain ⟨n, hn⟩ := Nat.exists_eq_succ_of_ne_zero h.ne'
  have hread : br.readBits 1 = .ok (br.bitBuf % 2 ^ 1, br.drop 1 h) := by
    rw [readBits, dif_neg (by omega)]
  refine ⟨br.bitBuf.testBit 0, br.drop 1 h, ?_, ?_⟩
  · rw [hread, pow_one, Nat.toNat_testBit, pow_zero, Nat.div_one]
  · have hcount : (br.drop 1 h).bitCount = n := by
      show br.bitCount - 1 = n
      omega
    have hbuf : (br.drop 1 h).bitBuf = br.bitBuf / 2 := by
      show br.bitBuf / 2 ^ 1 = br.bitBuf / 2
      rw [pow_one]
    rw [bits, bits, hcount, hbuf, hn, List.range_succ_eq_map, List.map_cons, List.map_map,
      List.cons_append]
    congr 2
    refine List.map_congr_left fun i _ => ?_
    exact (Nat.testBit_succ br.bitBuf i).symm ▸ rfl

/-- One bit is read off the bits, or there is none. -/
theorem readBits_one (br : BitReader) :
    (br.bits = [] ∧ br.readBits 1 = .error .truncated) ∨
      ∃ b br', br.readBits 1 = .ok (b.toNat, br') ∧ br.bits = b :: br'.bits := by
  by_cases h : 0 < br.bitCount
  · exact .inr (readBits_of_pos h)
  · have hcount : br.bitCount = 0 := by omega
    cases hb : br.bytes[br.pos]? with
    | none =>
      refine .inl ⟨?_, ?_⟩
      · rw [bits, hcount, List.drop_eq_nil_of_le (List.getElem?_eq_none_iff.mp hb)]
        rfl
      · rw [readBits, dif_pos (by omega), hb]
    | some b =>
      have hload : br.readBits 1 = (br.load b).readBits 1 := by
        rw [readBits, dif_pos (by omega), hb]
      rw [hload, ← bits_load hcount hb]
      exact .inr (readBits_of_pos (Nat.succ_pos _))

end BitReader

/-! ### The table -/

variable {lengths : List ℕ} {h : Huffman}

/-- How many symbols have each length; a length of zero is no code. -/
def countOf (lengths : List ℕ) (l : ℕ) : ℕ := if l = 0 then 0 else lengths.count l

/-- The code that RFC 1951 gives to a symbol. -/
def canonicalCode (lengths : List ℕ) (sym l : ℕ) : ℕ :=
  firstCode (countOf lengths) l + (lengths.take sym).count l

/-- Where the symbols of a length start among those with a code. -/
def offsetOf (lengths : List ℕ) : ℕ → ℕ
  | 0 => 0
  | l + 1 => offsetOf lengths l + countOf lengths l

/-- What the table says of the lengths. -/
structure Builds (lengths : List ℕ) (h : Huffman) : Prop where
  bounded : ∀ l ∈ lengths, l ≤ maxBits
  counts : ∀ l, h.counts[l]? = if l ≤ maxBits then some (countOf lengths l) else none
  kraft : ∀ l ≤ maxBits, 0 ≤ kraftLeft (countOf lengths) l
  symbols : ∀ sym l, lengths[sym]? = some l → l ≠ 0 →
    h.symbols[offsetOf lengths l + (lengths.take sym).count l]? = some sym

theorem countLengths_getElem? (lengths : List ℕ) (l : ℕ) :
    (countLengths lengths)[l]? = if l ≤ maxBits then some (countOf lengths l) else none := by
  have hfold : ∀ (ls counts : List ℕ), (ls.foldl (fun counts l => counts.modify l (· + 1)) counts)[l]? =
      counts[l]?.map (· + ls.count l) := by
    intro ls
    induction ls with
    | nil => intro counts; simp
    | cons x ls ih =>
      intro counts
      rw [List.foldl_cons, ih, List.getElem?_modify, List.count_cons]
      by_cases hx : x = l
      · subst hx
        cases counts[x]? with
        | none => rfl
        | some n =>
          simp
          omega
      · simp [hx]
  have hcount := hfold lengths (List.replicate (maxBits + 1) 0)
  rw [countLengths, List.getElem?_set]
  by_cases hl : l ≤ maxBits
  · rw [List.getElem?_replicate, if_pos (Nat.lt_succ_of_le hl), Option.map_some, Nat.zero_add] at hcount
    rw [if_pos hl, countOf]
    by_cases h0 : l = 0
    · subst h0
      rw [if_pos rfl, if_pos (List.getElem?_eq_some_iff.mp hcount).1, if_pos rfl]
    · rw [if_neg (Ne.symm h0), if_neg h0, hcount]
  · have h0 : ¬ 0 = l := by
      rintro rfl
      exact hl (Nat.zero_le _)
    rw [if_neg hl, if_neg h0, hcount, List.getElem?_replicate, if_neg (by omega)]
    rfl

theorem countLengths_eq (lengths : List ℕ) :
    countLengths lengths = (List.range' 0 16).map (countOf lengths) := by
  refine List.ext_getElem? fun l => ?_
  rw [countLengths_getElem? lengths, List.getElem?_map]
  by_cases hl : l ≤ maxBits
  · rw [if_pos hl, List.getElem?_range' (by simpa [maxBits] using Nat.lt_succ_of_le hl)]
    simp
  · have hlen : (List.range' 0 16).length ≤ l := by
      rw [List.length_range']
      exact not_le.mp hl
    rw [if_neg hl, List.getElem?_eq_none hlen]
    rfl

theorem leftOver_ok {c : ℕ → ℕ} {k n : ℕ} {r : ℤ}
    (h : leftOver ((List.range' (k + 1) n).map c) (kraftLeft c k) = .ok r) :
    ∀ l, k < l → l ≤ k + n → 0 ≤ kraftLeft c l := by
  induction n generalizing k with
  | zero => intro l h₁ h₂; omega
  | succ n ih =>
    rw [List.range'_succ, List.map_cons, leftOver] at h
    split_ifs at h with hneg
    intro l h₁ h₂
    obtain rfl | hlt := Nat.eq_or_lt_of_le (Nat.succ_le_of_lt h₁)
    · exact not_lt.mp hneg
    · exact ih h l hlt (by omega)

theorem offsetOf_scanl (k n : ℕ) :
    ((List.range' k n).map (countOf lengths)).scanl (· + ·) (offsetOf lengths k) =
      (List.range' k (n + 1)).map (offsetOf lengths) := by
  induction n generalizing k with
  | zero => rfl
  | succ n ih =>
    rw [List.range'_succ, List.map_cons, List.scanl_cons, List.range'_succ, List.map_cons]
    exact congrArg _ (ih (k + 1))

theorem offsetsOf_eq (lengths : List ℕ) :
    offsetsOf (countLengths lengths) = (List.range' 0 17).map (offsetOf lengths) := by
  have hscan := @offsetOf_scanl lengths 1 15
  have hone : offsetOf lengths 1 = 0 := by simp [offsetOf, countOf]
  rw [hone] at hscan
  rw [offsetsOf, countLengths_eq lengths]
  exact congrArg _ hscan

theorem offsetOf_mono {m n : ℕ} (h : m ≤ n) : offsetOf lengths m ≤ offsetOf lengths n := by
  induction n, h using Nat.le_induction with
  | base => exact le_rfl
  | succ n _ ih => exact ih.trans (Nat.le_add_right _ _)

/-- A symbol comes behind fewer symbols of its length than there are. -/
theorem count_take_lt {sym l : ℕ} (hsym : lengths[sym]? = some l) :
    (lengths.take sym).count l < lengths.count l := by
  obtain ⟨hlt, heq⟩ := List.getElem?_eq_some_iff.mp hsym
  have hle := (List.take_sublist (sym + 1) lengths).count_le l
  rw [List.take_succ_eq_append_getElem hlt, heq, List.count_append, List.count_singleton_self] at hle
  omega

/-- Every number below the count is that of a symbol. -/
theorem exists_count_take {l k : ℕ} (hk : k < lengths.count l) :
    ∃ sym, lengths[sym]? = some l ∧ (lengths.take sym).count l = k := by
  induction lengths generalizing k with
  | nil => exact absurd hk (by simp)
  | cons x lengths ih =>
    rw [List.count_cons] at hk
    by_cases hx : x = l
    · subst hx
      cases k with
      | zero => exact ⟨0, rfl, rfl⟩
      | succ k =>
        obtain ⟨sym, hsym, hcount⟩ := ih (k := k) (by simpa using hk)
        exact ⟨sym + 1, hsym, by rw [List.take_succ_cons, List.count_cons_self, hcount]⟩
    · obtain ⟨sym, hsym, hcount⟩ := ih (k := k) (by simpa [hx] using hk)
      exact ⟨sym + 1, hsym, by rw [List.take_succ_cons, List.count_cons_of_ne hx, hcount]⟩

/-- The loop that sorts the symbols, after so many of them. -/
structure Filled (lengths : List ℕ) (n : ℕ) (cursor symbols : List ℕ) : Prop where
  cursor : ∀ l ≤ maxBits, l ≠ 0 →
    cursor[l]? = some (offsetOf lengths l + (lengths.take n).count l)
  length : symbols.length = offsetOf lengths (maxBits + 1)
  symbols : ∀ sym l, sym < n → lengths[sym]? = some l → l ≠ 0 →
    symbols[offsetOf lengths l + (lengths.take sym).count l]? = some sym

/-- Two symbols have two places. -/
theorem place_inj {sym sym' l l' : ℕ} (hlt : sym < sym') (hsym : lengths[sym]? = some l)
    (hsym' : lengths[sym']? = some l') (hl : l ≠ 0) (hl' : l' ≠ 0) :
    offsetOf lengths l + (lengths.take sym).count l ≠
      offsetOf lengths l' + (lengths.take sym').count l' := by
  have hroom : ∀ {s m : ℕ}, lengths[s]? = some m → m ≠ 0 →
      offsetOf lengths m + (lengths.take s).count m < offsetOf lengths (m + 1) := by
    intro s m hs hm
    rw [offsetOf, countOf, if_neg hm]
    exact Nat.add_lt_add_left (count_take_lt hs) _
  obtain hlt' | rfl | hgt' := Nat.lt_trichotomy l l'
  · have hmono := @offsetOf_mono lengths _ _ (Nat.succ_le_of_lt hlt')
    have h₁ := hroom hsym hl
    simp only [Nat.succ_eq_add_one] at hmono
    omega
  · -- the one that comes later has the other one before it
    obtain ⟨h₁, heq⟩ := List.getElem?_eq_some_iff.mp hsym
    have hsub : (lengths.take (sym + 1)).count l ≤ (lengths.take sym').count l :=
      (List.take_sublist_take_left hlt).count_le l
    rw [List.take_succ_eq_append_getElem h₁, heq, List.count_append, List.count_singleton_self] at hsub
    omega
  · have hmono := @offsetOf_mono lengths _ _ (Nat.succ_le_of_lt hgt')
    have h₁ := hroom hsym' hl'
    simp only [Nat.succ_eq_add_one] at hmono
    omega

theorem Filled.place {n l : ℕ} {cursor symbols : List ℕ} (h : Filled lengths n cursor symbols)
    (hb : ∀ l ∈ lengths, l ≤ maxBits) (hn : lengths[n]? = some l) :
    ∃ cursor' symbols', placeSymbol (cursor, symbols) (l, n) = some (cursor', symbols') ∧
      Filled lengths (n + 1) cursor' symbols' := by
  obtain ⟨hlt, heq⟩ := List.getElem?_eq_some_iff.mp hn
  have htake : ∀ m, (lengths.take (n + 1)).count m =
      (lengths.take n).count m + if l = m then 1 else 0 := by
    intro m
    rw [List.take_succ_eq_append_getElem hlt, heq, List.count_append, List.count_singleton]
    simp
  by_cases hl : l = 0
  · refine ⟨cursor, symbols, by simp [placeSymbol, hl], ?_, h.length, ?_⟩
    · intro m hm h0
      rw [htake, if_neg (fun hlm : l = m => h0 (hlm ▸ hl)), Nat.add_zero]
      exact h.cursor m hm h0
    · intro sym m hsym hm h0
      obtain hsym | rfl := Nat.lt_succ_iff_lt_or_eq.mp hsym
      · exact h.symbols sym m hsym hm h0
      · exact absurd (Option.some.inj (hm.symm.trans hn) ▸ hl) h0
  · have hmax : l ≤ maxBits := hb l (List.mem_of_getElem? hn)
    have hcursor := h.cursor l hmax hl
    have hslot : offsetOf lengths l + (lengths.take n).count l < symbols.length := by
      have hmono := @offsetOf_mono lengths _ _ (Nat.succ_le_succ hmax)
      have hcount := count_take_lt hn
      have hnext : offsetOf lengths (l + 1) = offsetOf lengths l + lengths.count l := by
        rw [offsetOf, countOf, if_neg hl]
      rw [h.length]
      simp only [Nat.succ_eq_add_one] at hmono
      omega
    refine ⟨_, _, by simp [placeSymbol, hl, hcursor, hslot]; exact ⟨rfl, rfl⟩, ?_, ?_, ?_⟩
    · intro m hm h0
      rw [List.getElem?_modify, htake, h.cursor m hm h0]
      by_cases hlm : l = m <;> simp [hlm, Nat.add_assoc]
    · rw [List.length_set, h.length]
    · intro sym m hsym hm h0
      obtain hsym | rfl := Nat.lt_succ_iff_lt_or_eq.mp hsym
      · rw [List.getElem?_set_ne (place_inj hsym hm hn h0 hl).symm]
        exact h.symbols sym m hsym hm h0
      · obtain rfl := Option.some.inj (hm.symm.trans hn)
        rw [List.getElem?_set_self hslot]

theorem filled_lengths (hb : ∀ l ∈ lengths, l ≤ maxBits) {symbols : List ℕ}
    (hlen : symbols.length = offsetOf lengths (maxBits + 1)) :
    ∃ cursor' symbols', lengths.zipIdx.foldlM placeSymbol
        (offsetsOf (countLengths lengths), symbols) = some (cursor', symbols') ∧
      Filled lengths lengths.length cursor' symbols' := by
  have hpre : ∀ n ≤ lengths.length, ∃ cursor' symbols',
      (lengths.take n).zipIdx.foldlM placeSymbol (offsetsOf (countLengths lengths), symbols) =
        some (cursor', symbols') ∧ Filled lengths n cursor' symbols' := by
    intro n
    induction n with
    | zero =>
      refine fun _ => ⟨_, _, rfl, ?_, hlen, nofun⟩
      intro l hl _
      rw [offsetsOf_eq lengths, List.getElem?_map, List.getElem?_range' (by simp [maxBits] at hl; omega)]
      simp
    | succ n ih =>
      intro hn
      obtain ⟨cursor', symbols', hfold, hfilled⟩ := ih (by omega)
      have hlt : n < lengths.length := hn
      obtain ⟨c, s, hplace, hnext⟩ := hfilled.place hb (List.getElem?_eq_getElem hlt)
      refine ⟨c, s, ?_, hnext⟩
      rw [List.take_succ_eq_append_getElem hlt, List.zipIdx_append, List.foldlM_append, hfold]
      simpa [List.length_take, Nat.min_eq_left hlt.le] using hplace
  obtain ⟨cursor', symbols', hfold, hfilled⟩ := hpre lengths.length le_rfl
  rw [List.take_length] at hfold
  exact ⟨cursor', symbols', hfold, hfilled⟩

/-- The table is built without an index out of range, and is what it says. -/
theorem fromLengths_spec (lengths : List ℕ) :
    (∃ r, Huffman.fromLengths lengths = some r) ∧
      ∀ h, Huffman.fromLengths lengths = some (.ok h) → Builds lengths h := by
  unfold Huffman.fromLengths
  split_ifs with hany
  · exact ⟨⟨_, rfl⟩, nofun⟩
  have hb : ∀ l ∈ lengths, l ≤ maxBits := by
    intro l hl
    by_contra hgt
    exact hany (List.any_eq_true.mpr ⟨l, hl, decide_eq_true (not_le.mp hgt)⟩)
  dsimp only
  cases hleft : leftOver (countLengths lengths).tail 1 with
  | error e => exact ⟨⟨_, rfl⟩, nofun⟩
  | ok r =>
    have htotal : (offsetsOf (countLengths lengths))[maxBits + 1]? =
        some (offsetOf lengths (maxBits + 1)) := by
      rw [offsetsOf_eq lengths]
      rfl
    obtain ⟨cursor', symbols', hfold, hfilled⟩ := filled_lengths hb (List.length_replicate (a := 0))
    dsimp only
    rw [htotal]
    simp only [Option.bind_eq_bind, Option.bind_some, hfold]
    refine ⟨⟨_, rfl⟩, fun h heq => ?_⟩
    obtain rfl := Except.ok.inj (Option.some.inj heq)
    refine ⟨hb, countLengths_getElem? lengths, fun l hl => ?_, fun sym l hsym hl => ?_⟩
    · obtain rfl | hpos := Nat.eq_zero_or_pos l
      · exact zero_le_one
      · refine leftOver_ok (k := 0) (n := 15) (r := r) ?_ l hpos (by rwa [Nat.zero_add])
        rw [← hleft, countLengths_eq lengths]
        rfl
    · have hlt := (List.getElem?_eq_some_iff.mp hsym).1
      exact hfilled.symbols sym l hlt hsym hl

/-! ### Decoding -/

variable {w : List Bool} {rounds len : ℕ}

/-- The loop before its round for the length `len`, with the bits that it has read. -/
structure Reading (lengths : List ℕ) (len : ℕ) (w : List Bool) (first index : ℕ) : Prop where
  length : w.length + 1 = len
  first_eq : first = firstCode (countOf lengths) len
  index_eq : index = offsetOf lengths len
  above : first ≤ 2 * wordValue w

theorem reading_start (lengths : List ℕ) : Reading lengths 1 [] 0 0 := by
  refine ⟨rfl, ?_, ?_, Nat.zero_le _⟩ <;> simp [firstCode, offsetOf, countOf]

theorem snoc_value (w : List Bool) (b : Bool) :
    wordValue w * 2 ||| b.toNat = wordValue (w ++ [b]) := by
  rw [wordValue_snoc]
  cases b with
  | false => simp
  | true =>
    have hor := Nat.two_pow_add_eq_or_of_lt (show 1 < 2 ^ 1 by norm_num) (wordValue w)
    rw [pow_one, Nat.mul_comm] at hor
    exact hor.symm

theorem Reading.next {first index : ℕ} {b : Bool} (h : Reading lengths len w first index)
    (hmiss : ¬ wordValue (w ++ [b]) < first + countOf lengths len) :
    Reading lengths (len + 1) (w ++ [b]) ((first + countOf lengths len) * 2)
      (index + countOf lengths len) := by
  refine ⟨?_, ?_, ?_, ?_⟩
  · rw [List.length_append, List.length_singleton, h.length]
  · rw [firstCode, h.first_eq, Nat.mul_comm]
  · rw [offsetOf, h.index_eq]
  · omega

/-- A round, when there is a bit for it. -/
theorem decodeLoop_cons (hbuild : Builds lengths h) {first index : ℕ} {b : Bool}
    {br br' : BitReader} (hlen : len ≤ maxBits) (hread : br.readBits 1 = .ok (b.toNat, br'))
    (hr : Reading lengths len w first index) :
    h.decodeLoop (rounds + 1) len (wordValue w) first index br =
      if wordValue (w ++ [b]) < first + countOf lengths len then
        (h.symbols[index + (wordValue (w ++ [b]) - first)]?).map fun sym => .ok (sym, br')
      else h.decodeLoop rounds (len + 1) (wordValue (w ++ [b]))
        ((first + countOf lengths len) * 2) (index + countOf lengths len) br' := by
  have habove := hr.above
  have hnot : ¬ wordValue (w ++ [b]) < first := by
    rw [wordValue_snoc]
    omega
  rw [Huffman.decodeLoop, hread]
  simp only [snoc_value, hbuild.counts, if_pos hlen, Option.bind_eq_bind, Option.bind_some,
    if_neg hnot]
  split_ifs
  · cases h.symbols[index + (wordValue (w ++ [b]) - first)]? <;> rfl
  · rfl

theorem wordValue_append (v w : List Bool) :
    wordValue (v ++ w) = wordValue v * 2 ^ w.length + wordValue w := by
  induction w using List.reverseRecOn with
  | nil => simp [wordValue]
  | append_singleton w b ih =>
    rw [← List.append_assoc, wordValue_snoc, ih, wordValue_snoc, List.length_append,
      List.length_singleton, pow_succ]
    ring

theorem Builds.code_lt (hbuild : Builds lengths h) {sym l : ℕ} (hsym : lengths[sym]? = some l)
    (hl : l ≠ 0) : canonicalCode lengths sym l < firstCode (countOf lengths) l + countOf lengths l ∧
      canonicalCode lengths sym l < 2 ^ l := by
  have hcount : canonicalCode lengths sym l < firstCode (countOf lengths) l + countOf lengths l := by
    rw [canonicalCode, countOf, if_neg hl]
    exact Nat.add_lt_add_left (count_take_lt hsym) _
  have hkraft := hbuild.kraft l (hbuild.bounded l (List.mem_of_getElem? hsym))
  rw [kraftLeft_eq (show countOf lengths 0 = 0 from if_pos rfl)] at hkraft
  have hle : firstCode (countOf lengths) l + countOf lengths l ≤ 2 ^ l := by
    zify
    push_cast at hkraft
    omega
  exact ⟨hcount, hcount.trans_le hle⟩

/-- A symbol's code is read as the symbol, and nothing behind it. -/
theorem decodeLoop_hit (hbuild : Builds lengths h) {sym l first index : ℕ} {v rest : List Bool}
    {br : BitReader} (hsym : lengths[sym]? = some l) (hl : l ≠ 0)
    (hw : w ++ v = word (canonicalCode lengths sym l) l) (hv : v ≠ [])
    (hr : Reading lengths len w first index) (hrounds : l < len + rounds)
    (hbits : br.bits = v ++ rest) :
    ∃ br', h.decodeLoop rounds len (wordValue w) first index br = some (.ok (sym, br')) ∧
      br'.bits = rest := by
  obtain ⟨hcode, hfits⟩ := hbuild.code_lt hsym hl
  have hmax := hbuild.bounded l (List.mem_of_getElem? hsym)
  induction v generalizing rounds len w first index br with
  | nil => exact absurd rfl hv
  | cons b v ih =>
    have hwlen := congrArg List.length hw
    rw [List.length_append, List.length_cons, word_length] at hwlen
    have hlen := hr.length
    obtain ⟨rounds, rfl⟩ := Nat.exists_eq_succ_of_ne_zero (show rounds ≠ 0 by omega)
    have hone := br.readBits_one
    rw [hbits] at hone
    obtain ⟨hnil, -⟩ | ⟨b', br', hread, hcons⟩ := hone
    · cases hnil
    obtain ⟨rfl, hrest⟩ := List.cons.inj hcons
    rw [Nat.succ_eq_add_one, decodeLoop_cons hbuild (by omega) hread hr]
    have hvalue : canonicalCode lengths sym l = wordValue (w ++ [b]) * 2 ^ v.length + wordValue v := by
      rw [← wordValue_append, List.append_assoc, List.singleton_append, hw, wordValue_word hfits]
    by_cases hnil : v = []
    · subst hnil
      have hlast : len = l := by
        rw [List.length_nil] at hwlen
        omega
      have hcanon : wordValue (w ++ [b]) = canonicalCode lengths sym l := by
        rw [hvalue]
        simp [wordValue]
      rw [hr.first_eq, hr.index_eq, hlast, hcanon, if_pos hcode, canonicalCode,
        Nat.add_sub_cancel_left, hbuild.symbols sym l hsym hl]
      exact ⟨br', rfl, hrest.symm⟩
    · have hpos := List.length_pos_iff.mpr hnil
      have hlt : len < l := by omega
      -- the longer code begins above all codes of this length
      have hmiss : ¬ wordValue (w ++ [b]) < first + countOf lengths len := by
        have hend := @end_le_firstCode (countOf lengths) _ _ hlt
        have hdiff : l - len = v.length := by omega
        have hvlt := wordValue_lt v
        rw [hdiff] at hend
        rw [hr.first_eq, not_lt]
        have hle : firstCode (countOf lengths) l ≤ canonicalCode lengths sym l := Nat.le_add_right _ _
        have hmul : 2 ^ v.length * (firstCode (countOf lengths) len + countOf lengths len) <
            2 ^ v.length * (wordValue (w ++ [b]) + 1) := by
          rw [Nat.mul_succ, Nat.mul_comm _ (wordValue (w ++ [b]))]
          omega
        exact Nat.lt_succ_iff.mp (Nat.lt_of_mul_lt_mul_left hmul)
      rw [if_neg hmiss]
      refine ih ?_ hnil (hr.next hmiss) (by omega) hrest.symm
      rw [List.append_assoc, List.singleton_append, hw]

/-- What a stream is read as: a symbol whose code it starts with, or an error. -/
theorem decodeLoop_cases (hbuild : Builds lengths h) {first index : ℕ} {br : BitReader}
    (hr : Reading lengths len w first index) (hrounds : len + rounds = maxBits + 1) :
    (br.bits.length < rounds ∧
        h.decodeLoop rounds len (wordValue w) first index br = some (.error .truncated)) ∨
      h.decodeLoop rounds len (wordValue w) first index br = some (.error .badHuffmanCode) ∨
      ∃ sym l br', h.decodeLoop rounds len (wordValue w) first index br = some (.ok (sym, br')) ∧
        lengths[sym]? = some l ∧ l ≠ 0 ∧
        word (canonicalCode lengths sym l) l <+: w ++ br.bits := by
  induction rounds generalizing len w first index br with
  | zero => exact .inr (.inl rfl)
  | succ rounds ih =>
    obtain ⟨hnil, hread⟩ | ⟨b, br', hread, hcons⟩ := br.readBits_one
    · refine .inl ⟨by rw [hnil]; exact Nat.succ_pos _, ?_⟩
      rw [Huffman.decodeLoop, hread]
    have hlen := hr.length
    have habove := hr.above
    have hwhole : w ++ br.bits = (w ++ [b]) ++ br'.bits := by
      rw [hcons, List.append_assoc, List.singleton_append]
    rw [decodeLoop_cons hbuild (by omega) hread hr]
    split_ifs with hhit
    · have hl : len ≠ 0 := by omega
      rw [countOf, if_neg hl] at hhit
      have hfirst : first ≤ wordValue (w ++ [b]) := by
        rw [wordValue_snoc]
        omega
      obtain ⟨sym, hsym, hcount⟩ :=
        exists_count_take (show wordValue (w ++ [b]) - first < lengths.count len by omega)
      have hplace := hbuild.symbols sym len hsym hl
      rw [hcount, ← hr.index_eq] at hplace
      refine .inr (.inr ⟨sym, len, br', by rw [hplace]; rfl, hsym, hl, ?_⟩)
      have hcode : canonicalCode lengths sym len = wordValue (w ++ [b]) := by
        rw [canonicalCode, hcount, ← hr.first_eq]
        omega
      have hword := word_wordValue (w ++ [b])
      rw [List.length_append, List.length_singleton, hlen, ← hcode] at hword
      rw [hword, hwhole]
      exact List.prefix_append _ _
    · have hnext := @ih (w ++ [b]) (len + 1) _ _ br' (hr.next hhit) (by omega)
      rw [hwhole, hcons, List.length_cons]
      exact hnext.imp (fun ht => ⟨Nat.succ_lt_succ ht.1, ht.2⟩) id

/-- No index is out of range, a symbol's code is read as the symbol and taken off the stream,
and a stream that starts with no code is an error. -/
theorem canonical_decoding (lengths : List ℕ) : (Huffman.fromLengths lengths).isSome ∧
    ∀ h, Huffman.fromLengths lengths = some (.ok h) →
      (∀ sym l, lengths[sym]? = some l → l ≠ 0 → ∀ (br : BitReader) rest,
        br.bits = word (canonicalCode lengths sym l) l ++ rest →
        ∃ br', h.decode br = some (.ok (sym, br')) ∧ br'.bits = rest) ∧
      (∀ br : BitReader, maxBits ≤ br.bits.length →
        (∀ sym l, lengths[sym]? = some l → l ≠ 0 →
          ¬ word (canonicalCode lengths sym l) l <+: br.bits) →
        h.decode br = some (.error .badHuffmanCode)) ∧
      ∀ br, (h.decode br).isSome := by
  obtain ⟨⟨r, hr⟩, hbuilds⟩ := fromLengths_spec lengths
  refine ⟨by rw [hr]; rfl, fun h hh => ?_⟩
  have hbuild := hbuilds h hh
  have hcases := fun br : BitReader =>
    @decodeLoop_cases _ _ [] maxBits 1 hbuild 0 0 br (reading_start lengths) rfl
  refine ⟨?_, ?_, ?_⟩
  · intro sym l hsym hl br rest hbits
    have hmax := hbuild.bounded l (List.mem_of_getElem? hsym)
    refine decodeLoop_hit hbuild hsym hl rfl ?_ (reading_start lengths) (by omega) hbits
    rw [Ne, ← List.length_eq_zero_iff, word_length]
    exact hl
  · intro br hlong hnone
    obtain ⟨hshort, -⟩ | hbad | ⟨sym, l, -, -, hsym, hl, hword⟩ := hcases br
    · omega
    · exact hbad
    · exact absurd hword (hnone sym l hsym hl)
  · intro br
    obtain ⟨-, hres⟩ | hres | ⟨sym, l, br', hres, -⟩ := hcases br
    all_goals
      rw [Huffman.decode]
      exact Option.isSome_iff_exists.mpr ⟨_, hres⟩

theorem canonical_decoding_sample :
    ∃ h, Huffman.fromLengths [1, 2, 2] = some (.ok h) ∧
      ∃ br', h.decode (.new [0x83]) = some (.ok (2, br')) ∧
        br'.bits = [false, false, false, false, false, true] := by
  obtain ⟨-, hok⟩ := canonical_decoding [1, 2, 2]
  have htable : Huffman.fromLengths [1, 2, 2] = some (.ok ⟨countLengths [1, 2, 2], [0, 1, 2]⟩) := by
    decide +kernel
  obtain ⟨hread, -⟩ := hok _ htable
  exact ⟨_, htable, hread 2 2 rfl (by decide) _ _ (by decide +kernel)⟩

end Conclave.Compression
