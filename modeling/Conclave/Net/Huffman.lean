import Conclave.Lib.PrefixCode
import Conclave.Net.Hpack

/-! The Huffman form of a string is read back as the string, and no part of it is: the
code is prefix-free, its bits fill the bytes in order, and the padding is a part of the
code for the end of the string. -/

namespace Conclave.Net.Hpack

open Lib

/-! ### The code table -/

def huffmanWords : List (List Bool) := huffmanCodes.map fun c => word c.1 c.2

/-- What is read off the table; its last row is the end of the string. -/
theorem huffmanCodes_table : huffmanCodes.length = 257 ∧ prefixFree 31 huffmanWords = true ∧
    (∀ c ∈ huffmanCodes, c.1 < 2 ^ c.2 ∧ 5 ≤ c.2 ∧ c.2 ≤ 30) ∧
    huffmanCodes[256]? = some (0x3fffffff, 30) ∧ word 0x3fffffff 30 = List.replicate 30 true := by
  decide +kernel

theorem huffmanCodes_length : huffmanCodes.length = 257 := huffmanCodes_table.1

/-- Two places in the table with codes that start the same bits are one place. -/
theorem eq_of_start {i j : ℕ} {a b : ℕ × ℕ} {bits : List Bool} (hi : huffmanCodes[i]? = some a)
    (hj : huffmanCodes[j]? = some b) (ha : word a.1 a.2 <+: bits) (hb : word b.1 b.2 <+: bits) :
    i = j := by
  refine eq_of_prefixes huffmanCodes_table.2.1 ?_ ?_ ha hb
  · rw [huffmanWords, List.getElem?_map, hi, Option.map_some]
  · rw [huffmanWords, List.getElem?_map, hj, Option.map_some]

theorem codeOf_some (b : UInt8) : huffmanCodes[b.toNat]? = some (codeOf b) := by
  have hb := b.toNat_lt
  have hlt : b.toNat < huffmanCodes.length := by rw [huffmanCodes_length]; omega
  rw [codeOf, List.getD_eq_getElem?_getD, List.getElem?_eq_getElem hlt, Option.getD_some]

theorem codeOf_range (b : UInt8) :
    (codeOf b).1 < 2 ^ (codeOf b).2 ∧ 5 ≤ (codeOf b).2 ∧ (codeOf b).2 ≤ 30 :=
  huffmanCodes_table.2.2.1 _ (List.mem_of_getElem? (codeOf_some b))

theorem lookupHuffman_some {window len sym : ℕ} (h : lookupHuffman window len = some sym) :
    huffmanCodes[sym]? = some (window, len) := by
  obtain ⟨hlt, heq, -⟩ := List.findIdx?_eq_some_iff_getElem.mp h
  rw [List.getElem?_eq_getElem hlt]
  exact congrArg some (of_decide_eq_true heq)

/-! ### Bits -/

def codeBits (b : UInt8) : List Bool := word (codeOf b).1 (codeOf b).2

theorem codeBits_length (b : UInt8) : (codeBits b).length = (codeOf b).2 := word_length _ _

theorem lookupHuffman_entry {i code len : ℕ} (hi : huffmanCodes[i]? = some (code, len)) :
    lookupHuffman code len = some i := by
  cases h : lookupHuffman code len with
  | none =>
    have hnot := List.findIdx?_eq_none_iff.mp h _ (List.mem_of_getElem? hi)
    exact absurd hnot (by simp)
  | some sym =>
    rw [eq_of_start (lookupHuffman_some h) hi (List.prefix_refl (word code len))
      (List.prefix_refl (word code len))]

/-- The bits of a string, one code after the other. -/
def bitsOf (input : Bytes) : List Bool := input.flatMap codeBits

theorem bitsOf_length (input : Bytes) :
    (bitsOf input).length = (input.map fun b => (codeOf b).2).sum := by
  simp [bitsOf, List.length_flatMap, codeBits_length]

@[simp] theorem orAt_length (out : Bytes) (i bits : ℕ) : (orAt out i bits).length = out.length :=
  List.length_modify _ _ _

theorem bitAt_orAt {out : Bytes} {i bits : ℕ} (hi : i < out.length) (hbits : bits < 256)
    (p : ℕ) :
    bitAt (orAt out i bits) p = (bitAt out p || (decide (p / 8 = i) && bits.testBit (7 - p % 8))) := by
  unfold bitAt orAt
  by_cases hp : p / 8 = i
  · subst hp
    have hget : out[p / 8]? = some out[p / 8] := List.getElem?_eq_getElem hi
    simp [List.getD_eq_getElem?_getD, hget, UInt8.toNat_or, Nat.testBit_or,
      Nat.mod_eq_of_lt hbits]
  · simp [List.getD_eq_getElem?_getD, hp, Ne.symm hp]

theorem bitAt_replicate (n p : ℕ) : bitAt (List.replicate n 0) p = false := by
  unfold bitAt
  rw [List.getD_eq_getElem?_getD, List.getElem?_replicate]
  split_ifs <;> simp

/-- `w` is written at the front of `out`, and the rest is clear. -/
def Written (out : Bytes) (w : List Bool) : Prop :=
  w.length ≤ out.length * 8 ∧ ∀ p, bitAt out p = w.getD p false

/-- The next bit goes behind those that are written. -/
theorem Written.snoc {out : Bytes} {w : List Bool} (h : Written out w)
    (hroom : w.length < out.length * 8) (bit : Bool) :
    Written (orAt out (w.length / 8) (bit.toNat * 2 ^ (7 - w.length % 8))) (w ++ [bit]) := by
  refine ⟨by simpa using hroom, fun p => ?_⟩
  have hbits : bit.toNat * 2 ^ (7 - w.length % 8) < 256 := by
    have hpow : 2 ^ (7 - w.length % 8) ≤ 2 ^ 7 := Nat.pow_le_pow_right (by norm_num) (by omega)
    cases bit
    · simp
    · simp only [Bool.toNat_true, one_mul]
      omega
  rw [bitAt_orAt (by omega) hbits, h.2 p]
  have htest : (bit.toNat * 2 ^ (7 - w.length % 8)).testBit (7 - p % 8) =
      (bit && decide (7 - w.length % 8 = 7 - p % 8)) := by
    cases bit with
    | false => simp
    | true => simp [Nat.testBit_two_pow]
  rw [htest]
  rcases Nat.lt_trichotomy p w.length with hlt | heq | hgt
  · have hne : ¬ (p / 8 = w.length / 8 ∧ 7 - w.length % 8 = 7 - p % 8) := by omega
    have hoff : (decide (p / 8 = w.length / 8) &&
        (bit && decide (7 - w.length % 8 = 7 - p % 8))) = false := by
      by_cases h₁ : p / 8 = w.length / 8 <;> simp [h₁]
      intro _ h₂
      exact hne ⟨h₁, h₂⟩
    rw [hoff, Bool.or_false, List.getD_append _ _ _ _ hlt]
  · subst heq
    simp [List.getD_eq_getElem?_getD]
  · have hne : ¬ (p / 8 = w.length / 8 ∧ 7 - w.length % 8 = 7 - p % 8) := by omega
    have hoff : (decide (p / 8 = w.length / 8) &&
        (bit && decide (7 - w.length % 8 = 7 - p % 8))) = false := by
      by_cases h₁ : p / 8 = w.length / 8 <;> simp [h₁]
      intro _ h₂
      exact hne ⟨h₁, h₂⟩
    have hend : (w ++ [bit]).getD p false = w.getD p false := by
      have h₁ : (w ++ [bit]).length ≤ p := by simpa using hgt
      rw [List.getD_eq_default _ _ h₁, List.getD_eq_default _ _ hgt.le]
    rw [hoff, Bool.or_false, hend]

theorem writeCode_written {out : Bytes} {w : List Bool} (b : UInt8) (h : Written out w)
    (hroom : w.length + (codeOf b).2 ≤ out.length * 8) :
    ∃ out', writeCode (out, w.length) b = (out', (w ++ codeBits b).length) ∧
      out'.length = out.length ∧ Written out' (w ++ codeBits b) := by
  have hpre : ∀ n ≤ (codeOf b).2, ∃ out',
      (List.range n).foldl (fun p i =>
        let bit := (codeOf b).1 / 2 ^ ((codeOf b).2 - 1 - i) % 2
        (orAt p.1 (p.2 / 8) (bit * 2 ^ (7 - p.2 % 8)), p.2 + 1)) (out, w.length) =
          (out', (w ++ (codeBits b).take n).length) ∧
      out'.length = out.length ∧ Written out' (w ++ (codeBits b).take n) := by
    intro n
    induction n with
    | zero => exact fun _ => ⟨out, by simp, rfl, by simpa using h⟩
    | succ n ih =>
      intro hn
      obtain ⟨out₁, hfold, hlen, hw⟩ := ih (by omega)
      have hbit : (codeBits b).take (n + 1) = (codeBits b).take n ++
          [(codeOf b).1.testBit ((codeOf b).2 - 1 - n)] := by
        have hlt : n < (codeBits b).length := by rw [codeBits_length]; omega
        rw [List.take_add_one, List.getElem?_eq_getElem hlt]
        simp [codeBits, word]
      have hin : (w ++ (codeBits b).take n).length < out₁.length * 8 := by
        rw [hlen, List.length_append, List.length_take, codeBits_length]
        omega
      have hnext := hw.snoc hin ((codeOf b).1.testBit ((codeOf b).2 - 1 - n))
      rw [Nat.toNat_testBit, List.append_assoc, ← hbit] at hnext
      refine ⟨_, ?_, ?_, hnext⟩
      · rw [List.range_succ, List.foldl_append, hfold]
        simp only [List.foldl_cons, List.foldl_nil, hbit, List.length_append,
          List.length_singleton, Nat.add_assoc]
      · rw [orAt_length, hlen]
  obtain ⟨out', hfold, hlen, hw⟩ := hpre (codeOf b).2 le_rfl
  rw [← codeBits_length b, List.take_length] at hw
  rw [← codeBits_length b, List.take_length, codeBits_length b] at hfold
  exact ⟨out', hfold, hlen, hw⟩

theorem writeCodes_written (input : Bytes) {out : Bytes} {w : List Bool} (h : Written out w)
    (hroom : w.length + (bitsOf input).length ≤ out.length * 8) :
    ∃ out', input.foldl writeCode (out, w.length) = (out', (w ++ bitsOf input).length) ∧
      out'.length = out.length ∧ Written out' (w ++ bitsOf input) := by
  induction input generalizing out w with
  | nil => exact ⟨out, by simp [bitsOf], rfl, by simpa [bitsOf] using h⟩
  | cons b input ih =>
    have hbits : bitsOf (b :: input) = codeBits b ++ bitsOf input := List.flatMap_cons
    rw [hbits, List.length_append, codeBits_length] at hroom
    obtain ⟨out₁, hone, hlen₁, hw₁⟩ := writeCode_written b h (by omega)
    have hroom₁ : (w ++ codeBits b).length + (bitsOf input).length ≤ out₁.length * 8 := by
      rw [hlen₁, List.length_append, codeBits_length]
      omega
    obtain ⟨out₂, hrest, hlen₂, hw₂⟩ := ih hw₁ hroom₁
    refine ⟨out₂, ?_, hlen₂.trans hlen₁, ?_⟩
    · rw [List.foldl_cons, hone, hrest, hbits, List.append_assoc]
    · rwa [hbits, ← List.append_assoc]

/-- The bits of a buffer. -/
def Holds (buf : Bytes) (bits : List Bool) : Prop :=
  bits.length = buf.length * 8 ∧ ∀ p < bits.length, bitAt buf p = bits.getD p false

/-- An encoded string holds its codes and less than a byte of set bits. -/
theorem encode_holds (input : Bytes) :
    ∃ k < 8, Holds (hpackHuffmanEncode input) (bitsOf input ++ List.replicate k true) := by
  have htotal := bitsOf_length input
  set n := (bitsOf input).length with hn
  have hzero : Written (List.replicate ((n + 7) / 8) 0) [] :=
    ⟨Nat.zero_le _, fun p => by rw [bitAt_replicate]; simp⟩
  obtain ⟨out, hfold, hlen, hw⟩ := writeCodes_written input hzero (by
    rw [List.length_replicate, List.length_nil, ← hn]
    omega)
  rw [List.nil_append] at hfold hw
  rw [List.length_replicate] at hlen
  have hencode : hpackHuffmanEncode input =
      if n % 8 ≠ 0 then orAt out (n / 8) (2 ^ (8 - n % 8) - 1) else out := by
    simp only [hpackHuffmanEncode, ← htotal]
    rw [List.length_nil] at hfold
    rw [hfold]
  by_cases hpad : n % 8 = 0
  · rw [if_neg (not_not.mpr hpad)] at hencode
    refine ⟨0, by norm_num, ?_, fun p _ => ?_⟩
    · rw [List.replicate_zero, List.append_nil, hencode, hlen, ← hn]
      omega
    · rw [List.replicate_zero, List.append_nil, hencode, hw.2 p]
  · rw [if_pos hpad] at hencode
    refine ⟨8 - n % 8, by omega, ?_, fun p hp => ?_⟩
    · rw [List.length_append, List.length_replicate, hencode, orAt_length, hlen, ← hn]
      omega
    · rw [List.length_append, List.length_replicate, ← hn] at hp
      have hones : 2 ^ (8 - n % 8) - 1 < 256 := by
        have hpow : 2 ^ (8 - n % 8) ≤ 2 ^ 8 := Nat.pow_le_pow_right (by norm_num) (by omega)
        omega
      rw [hencode, bitAt_orAt (by omega) hones, hw.2 p, Nat.testBit_two_pow_sub_one]
      by_cases hlt : p < n
      · have hoff : ¬ (p / 8 = n / 8 ∧ 7 - p % 8 < 8 - n % 8) := by omega
        rw [List.getD_append _ _ _ _ hlt, ← Bool.decide_and, decide_eq_false hoff, Bool.or_false]
      · have hon : p / 8 = n / 8 ∧ 7 - p % 8 < 8 - n % 8 := by omega
        have hidx : p - n < 8 - n % 8 := by omega
        rw [List.getD_append_right _ _ _ _ (not_lt.mp hlt), ← Bool.decide_and,
          decide_eq_true hon, Bool.or_true, List.getD_replicate _ (hn ▸ hidx)]

/-! ### Reading the bits -/

variable {input : Bytes} {bits pre suf : List Bool}

theorem Holds.bitsAt (h : Holds input bits) {pos len : ℕ} (hle : pos + len ≤ bits.length) :
    bitsAt input pos len = wordValue ((bits.drop pos).take len) := by
  have hfold : ∀ n ≤ len, (List.range n).foldl
      (fun out i => out * 2 + (bitAt input (pos + i)).toNat) 0 =
        wordValue ((bits.drop pos).take n) := by
    intro n
    induction n with
    | zero => exact fun _ => by simp [wordValue]
    | succ n ih =>
      intro hn
      have hget : (bits.drop pos)[n]? = some (bitAt input (pos + n)) := by
        rw [h.2 (pos + n) (by omega), List.getElem?_drop, List.getD_eq_getElem?_getD,
          List.getElem?_eq_getElem (show pos + n < bits.length by omega), Option.getD_some]
      rw [List.range_succ, List.foldl_append, ih (by omega), List.take_add_one, hget,
        Option.toList_some, wordValue_snoc]
      rfl
  exact hfold len le_rfl

/-- A code that matches starts the bits. -/
theorem Holds.matchAt_some (h : Holds input bits) {pos sym len : ℕ}
    (hm : matchAt input pos = some (sym, len)) :
    ∃ code, huffmanCodes[sym]? = some (code, len) ∧ word code len <+: bits.drop pos := by
  obtain ⟨-, hfit, hsym⟩ := matchAt_len hm
  have hle : pos + len ≤ bits.length := h.1 ▸ hfit
  refine ⟨_, lookupHuffman_some hsym, ?_⟩
  have hlen : ((bits.drop pos).take len).length = len := by
    rw [List.length_take, List.length_drop]
    omega
  have hword := word_wordValue ((bits.drop pos).take len)
  rw [hlen] at hword
  rw [h.bitsAt hle, hword]
  exact List.take_prefix _ _

theorem matchAt_entry {i code len : ℕ} (hi : huffmanCodes[i]? = some (code, len))
    (h : Holds input (pre ++ (word code len ++ suf))) :
    matchAt input pre.length = some (i, len) := by
  have hstart : word code len <+: (pre ++ (word code len ++ suf)).drop pre.length := by
    rw [List.drop_left]
    exact List.prefix_append _ _
  cases hm : matchAt input pre.length with
  | some m =>
    obtain ⟨sym, len'⟩ := m
    obtain ⟨code', hsym, hword⟩ := h.matchAt_some hm
    obtain rfl := eq_of_start hsym hi hword hstart
    rw [hi] at hsym
    rw [(Prod.mk.inj (Option.some.inj hsym)).2]
  | none =>
    exfalso
    obtain ⟨hcode, hlow, hhigh⟩ := huffmanCodes_table.2.2.1 _ (List.mem_of_getElem? hi)
    dsimp only at hcode hlow hhigh
    have hnone := List.findSome?_eq_none_iff.mp hm len
      (List.mem_range'_1.mpr ⟨hlow, by omega⟩)
    have hfit : pre.length + len ≤ (pre ++ (word code len ++ suf)).length := by
      rw [List.length_append, List.length_append, word_length]
      omega
    have hvalue : bitsAt input pre.length len = code := by
      rw [h.bitsAt hfit, List.drop_left, List.take_left' (word_length code len)]
      exact wordValue_word hcode
    rw [if_neg (not_lt.mpr (h.1 ▸ hfit)), hvalue, lookupHuffman_entry hi] at hnone
    cases hnone

theorem matchAt_code {b : UInt8} (h : Holds input (pre ++ (codeBits b ++ suf))) :
    matchAt input pre.length = some (b.toNat, (codeOf b).2) :=
  matchAt_entry (codeOf_some b) h

/-- No code matches in the padding, which is a part of the longest one. -/
theorem matchAt_padding {k : ℕ} (hk : k < 8) (h : Holds input (pre ++ List.replicate k true)) :
    matchAt input pre.length = none := by
  cases hm : matchAt input pre.length with
  | none => rfl
  | some m =>
    exfalso
    obtain ⟨sym, len⟩ := m
    obtain ⟨code, hsym, hword⟩ := h.matchAt_some hm
    rw [List.drop_left] at hword
    obtain ⟨-, -, -, hend, hones⟩ := huffmanCodes_table
    have hshort : List.replicate k true <+: word 0x3fffffff 30 := by
      have hsplit : List.replicate 30 true =
          List.replicate k true ++ List.replicate (30 - k) true := by
        rw [← List.replicate_add]
        congr 1
        omega
      rw [hones, hsplit]
      exact List.prefix_append _ _
    obtain rfl := eq_of_start hsym hend (hword.trans hshort) (List.prefix_refl _)
    rw [hend] at hsym
    obtain ⟨-, rfl⟩ := Prod.mk.inj (Option.some.inj hsym)
    have hle := hword.length_le
    rw [word_length, List.length_replicate] at hle
    omega

theorem decodeFrom_code {b : UInt8} (h : Holds input (pre ++ (codeBits b ++ suf)))
    (out : Bytes) :
    huffmanDecodeFrom input pre.length out =
      huffmanDecodeFrom input (pre ++ codeBits b).length (out ++ [b]) := by
  have hb := b.toNat_lt
  have hlt : pre.length < input.length * 8 := by
    have hlen := h.1
    have hrange := (codeOf_range b).2.1
    rw [List.length_append, List.length_append, codeBits_length] at hlen
    omega
  rw [huffmanDecodeFrom, if_pos hlt]
  split
  · rename_i sym len hm
    rw [matchAt_code h] at hm
    obtain ⟨rfl, rfl⟩ := Prod.mk.inj (Option.some.inj hm)
    rw [if_neg (by omega), UInt8.ofNat_toNat, List.length_append, codeBits_length]
  · rename_i hm
    rw [matchAt_code h] at hm
    cases hm

theorem decodeFrom_padding {k : ℕ} (hk : k < 8) (h : Holds input (pre ++ List.replicate k true))
    (out : Bytes) : huffmanDecodeFrom input pre.length out = some out := by
  have hlen := h.1
  rw [List.length_append, List.length_replicate] at hlen
  rw [huffmanDecodeFrom]
  split_ifs with hlt
  · split
    · rename_i hm
      rw [matchAt_padding hk h] at hm
      cases hm
    · have hpad : input.length * 8 - pre.length = k := by omega
      have hones : bitsAt input pre.length k = 2 ^ k - 1 := by
        rw [h.bitsAt (by rw [List.length_append, List.length_replicate]), List.drop_left,
          List.take_of_length_le (by rw [List.length_replicate]), wordValue_ones]
      rw [hpad, if_pos ⟨by omega, hones⟩]
  · rfl

theorem decodeFrom_codes (rest : Bytes) {k : ℕ} (hk : k < 8)
    (h : Holds input (pre ++ (bitsOf rest ++ List.replicate k true))) (out : Bytes) :
    huffmanDecodeFrom input pre.length out = some (out ++ rest) := by
  induction rest generalizing pre out with
  | nil => simpa [bitsOf] using decodeFrom_padding hk (by simpa [bitsOf] using h) out
  | cons b rest ih =>
    have hbits : bitsOf (b :: rest) = codeBits b ++ bitsOf rest := List.flatMap_cons
    rw [hbits, List.append_assoc] at h
    rw [decodeFrom_code h, ih (by rwa [List.append_assoc]), List.append_assoc,
      List.singleton_append]

theorem huffman_round_trip (s : Bytes) : hpackHuffmanDecode (hpackHuffmanEncode s) = some s := by
  obtain ⟨k, hk, h⟩ := encode_holds s
  have h' : Holds (hpackHuffmanEncode s) ([] ++ (bitsOf s ++ List.replicate k true)) := h
  have hd := decodeFrom_codes s hk h' []
  simpa [hpackHuffmanDecode] using hd

/-- Whatever is decoded, its codes had room in the input. -/
theorem decodeFrom_room {pos : ℕ} {out r : Bytes} (hpos : pos ≤ input.length * 8)
    (h : huffmanDecodeFrom input pos out = some r) :
    ∃ rest, r = out ++ rest ∧ pos + (bitsOf rest).length ≤ input.length * 8 := by
  induction hd : input.length * 8 - pos using Nat.strong_induction_on generalizing pos out with
  | _ d ih =>
    have hdone : some out = some r → ∃ rest, r = out ++ rest ∧
        pos + (bitsOf rest).length ≤ input.length * 8 := fun heq =>
      ⟨[], by rw [Option.some.inj heq, List.append_nil], by simpa [bitsOf] using hpos⟩
    rw [huffmanDecodeFrom] at h
    split_ifs at h with hlt
    · split at h
      · rename_i sym len hm
        obtain ⟨h5, hfit, hsym⟩ := matchAt_len hm
        split_ifs at h with heos
        · exact hdone h
        · obtain ⟨rest, rfl, hroom⟩ := ih _ (by omega) hfit h rfl
          have hcode := lookupHuffman_some hsym
          have hsym_lt : sym < 257 := by
            rw [← huffmanCodes_length]
            exact (List.getElem?_eq_some_iff.mp hcode).1
          have hlen : (codeOf (UInt8.ofNat sym)).2 = len := by
            have hnat : (UInt8.ofNat sym).toNat = sym := by
              rw [UInt8.toNat_ofNat']
              omega
            have hself := codeOf_some (UInt8.ofNat sym)
            rw [hnat, hcode] at hself
            rw [← Option.some.inj hself]
          refine ⟨UInt8.ofNat sym :: rest, by simp, ?_⟩
          have hbits : bitsOf (UInt8.ofNat sym :: rest) =
              codeBits (UInt8.ofNat sym) ++ bitsOf rest := List.flatMap_cons
          rw [hbits, List.length_append, codeBits_length, hlen]
          omega
      · dsimp only at h
        split_ifs at h
        exact hdone h
    · exact hdone h

/-- A string takes more than its encoding without the last byte. -/
theorem encode_length (s : Bytes) :
    8 * (hpackHuffmanEncode s).length < (bitsOf s).length + 8 := by
  obtain ⟨k, hk, hlen, -⟩ := encode_holds s
  rw [List.length_append, List.length_replicate] at hlen
  omega

/-- Fewer bytes than the encoding of a string has do not decode to it. -/
theorem huffman_short {s raw : Bytes} (hlt : raw.length < (hpackHuffmanEncode s).length) :
    hpackHuffmanDecode raw ≠ some s := by
  intro h
  obtain ⟨rest, hrest, hroom⟩ := decodeFrom_room (Nat.zero_le _) h
  have := encode_length s
  rw [hrest, List.nil_append] at this
  rw [hrest, List.nil_append] at hlt
  omega

end Conclave.Net.Hpack
