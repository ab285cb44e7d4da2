import Conclave.Net.Huffman

/-! What the Huffman decoder accepts. It is what the encoder writes, but for the code of the
end of the string, at which the decoder stops as if the rest of the input were not there. -/

namespace Conclave.Net.Hpack

open Lib

variable {input : Bytes} {bits : List Bool}

/-- The code of the end of the string. -/
def eosBits : List Bool := word 0x3fffffff 30

/-- The bits of a buffer, the highest of each byte first. -/
def bufferBits (buf : Bytes) : List Bool := (List.range (buf.length * 8)).map (bitAt buf)

/-- The input does not hold the code of the end of the string behind other codes. -/
def EosFree (input : Bytes) : Prop := ∀ s, ¬ bitsOf s ++ eosBits <+: bufferBits input

theorem holds_bufferBits (buf : Bytes) : Holds buf (bufferBits buf) := by
  refine ⟨by simp [bufferBits], fun p hp => ?_⟩
  have hp' : p < buf.length * 8 := by simpa [bufferBits] using hp
  simp [bufferBits, List.getD_eq_getElem?_getD, List.getElem?_range hp']

theorem Holds.eq_bufferBits (h : Holds input bits) : bits = bufferBits input := by
  have hbuf := holds_bufferBits input
  refine List.ext_getElem (h.1.trans hbuf.1.symm) fun p hp hp' => ?_
  have hp₁ := h.2 p hp
  have hp₂ := hbuf.2 p hp'
  rw [List.getD_eq_getElem _ _ hp] at hp₁
  rw [List.getD_eq_getElem _ _ hp'] at hp₂
  rw [← hp₁, ← hp₂]

/-- Bytes with the same bits are the same. -/
theorem eq_of_holds {x y : Bytes} (hx : Holds x bits) (hy : Holds y bits) : x = y := by
  have hx₁ := hx.1
  have hy₁ := hy.1
  refine List.ext_getElem (by omega) fun i hi hi' => UInt8.toNat_inj.mp ?_
  refine Nat.eq_of_testBit_eq fun j => ?_
  by_cases hj : j < 8
  · have hp : 8 * i + (7 - j) < bits.length := by omega
    have hdiv : (8 * i + (7 - j)) / 8 = i := by omega
    have hmod : 7 - (8 * i + (7 - j)) % 8 = j := by omega
    have hbit := (hx.2 _ hp).trans (hy.2 _ hp).symm
    rwa [bitAt, bitAt, hdiv, hmod, List.getD_eq_getElem _ _ hi, List.getD_eq_getElem _ _ hi'] at hbit
  · have hpow : 2 ^ 8 ≤ 2 ^ j := Nat.pow_le_pow_right (by norm_num) (by omega)
    have hxlt := x[i].toNat_lt
    have hylt := y[i].toNat_lt
    rw [Nat.testBit_lt_two_pow (by omega), Nat.testBit_lt_two_pow (by omega)]

theorem codeOf_entry {sym code len : ℕ} (hsym : huffmanCodes[sym]? = some (code, len))
    (heos : sym ≠ 256) : codeOf (UInt8.ofNat sym) = (code, len) := by
  have hlt : sym < 257 := huffmanCodes_length ▸ (List.getElem?_eq_some_iff.mp hsym).1
  have hself := codeOf_some (UInt8.ofNat sym)
  rw [UInt8.toNat_ofNat', Nat.mod_eq_of_lt (by omega), hsym] at hself
  exact (Option.some.inj hself).symm

theorem ones_of_wordValue {w : List Bool} (h : wordValue w = 2 ^ w.length - 1) :
    w = List.replicate w.length true := by
  have hones := word_wordValue (List.replicate w.length true)
  rw [wordValue_ones, List.length_replicate, ← h, word_wordValue] at hones
  exact hones

theorem bitsOf_snoc (out : Bytes) (b : UInt8) : bitsOf (out ++ [b]) = bitsOf out ++ codeBits b := by
  rw [bitsOf, List.flatMap_append, List.flatMap_singleton]
  rfl

/-- Where decoding ends: at the end of the codes, or at the code that says so. -/
theorem decodeFrom_some {out r : Bytes} (h : Holds input bits)
    (hout : bitsOf out <+: bits) (hd : huffmanDecodeFrom input (bitsOf out).length out = some r) :
    (∃ k < 8, bits = bitsOf r ++ List.replicate k true) ∨ bitsOf r ++ eosBits <+: bits := by
  induction hn : input.length * 8 - (bitsOf out).length using Nat.strong_induction_on
    generalizing out with
  | _ n ih =>
    obtain ⟨tail, htail⟩ := hout
    have hlen := h.1
    rw [← htail, List.length_append] at hlen
    have hdrop : bits.drop (bitsOf out).length = tail := by rw [← htail, List.drop_left]
    rw [huffmanDecodeFrom] at hd
    split_ifs at hd with hlt
    · split at hd
      · rename_i sym len hm
        obtain ⟨code, hsym, hword⟩ := h.matchAt_some hm
        rw [hdrop] at hword
        split_ifs at hd with heos
        · obtain rfl := Option.some.inj hd
          rw [heos, huffmanCodes_table.2.2.2.1] at hsym
          obtain ⟨rfl, rfl⟩ := Prod.mk.inj (Option.some.inj hsym)
          exact .inr (htail ▸ (List.prefix_append_right_inj _).mpr hword)
        · have hcode := codeOf_entry hsym heos
          have hbits : codeBits (UInt8.ofNat sym) = word code len := by rw [codeBits, hcode]
          have hnext : (bitsOf out).length + len = (bitsOf (out ++ [UInt8.ofNat sym])).length := by
            rw [bitsOf_snoc, List.length_append, hbits, word_length]
          obtain ⟨hfive, hfit, -⟩ := matchAt_len hm
          rw [hnext] at hd
          refine ih _ (by omega) ?_ hd rfl
          rw [bitsOf_snoc, hbits, ← htail]
          exact (List.prefix_append_right_inj _).mpr hword
      · dsimp only at hd
        split_ifs at hd with hpad
        obtain rfl := Option.some.inj hd
        have hroom : input.length * 8 - (bitsOf out).length = tail.length := by omega
        obtain ⟨hshort, hones⟩ := hpad
        rw [hroom] at hshort hones
        have hfit : (bitsOf out).length + tail.length ≤ bits.length := by
          rw [← htail, List.length_append]
        rw [h.bitsAt hfit, hdrop, List.take_length] at hones
        refine .inl ⟨tail.length, by omega, ?_⟩
        rw [← ones_of_wordValue hones]
        exact htail.symm
    · obtain rfl := Option.some.inj hd
      have hnil : tail = [] := List.length_eq_zero_iff.mp (by omega)
      refine .inl ⟨0, by norm_num, ?_⟩
      rw [← htail, hnil]
      rfl

/-- At the code of the end the decoder stops, whatever follows. -/
theorem decode_at_eos {s : Bytes} (h : bitsOf s ++ eosBits <+: bufferBits input) :
    hpackHuffmanDecode input = some s := by
  obtain ⟨suf, hsuf⟩ := h
  have hbuf := holds_bufferBits input
  rw [← hsuf, List.append_assoc] at hbuf
  have hread : ∀ rest out, bitsOf out ++ bitsOf rest = bitsOf s →
      huffmanDecodeFrom input (bitsOf out).length out = some (out ++ rest) := by
    intro rest
    induction rest with
    | nil =>
      intro out heq
      have heos : Holds input (bitsOf out ++ (eosBits ++ suf)) := by
        have hnil : bitsOf [] = [] := rfl
        rwa [← heq, hnil, List.append_nil] at hbuf
      have hlt : (bitsOf out).length < input.length * 8 := by
        have hlen := heos.1
        rw [List.length_append, List.length_append, eosBits, word_length] at hlen
        omega
      have hm := matchAt_entry huffmanCodes_table.2.2.2.1 heos
      rw [huffmanDecodeFrom, if_pos hlt]
      split
      · rename_i sym len hm'
        obtain ⟨rfl, -⟩ := Prod.mk.inj (Option.some.inj (hm.symm.trans hm'))
        rw [if_pos rfl, List.append_nil]
      · rename_i hm'
        rw [hm] at hm'
        cases hm'
    | cons b rest ih =>
      intro out heq
      have hbits : bitsOf (b :: rest) = codeBits b ++ bitsOf rest := List.flatMap_cons
      have hcode : Holds input (bitsOf out ++ (codeBits b ++ (bitsOf rest ++ (eosBits ++ suf)))) := by
        rwa [← List.append_assoc (codeBits b), ← hbits, ← List.append_assoc, heq]
      rw [decodeFrom_code hcode, ← bitsOf_snoc, ih _ ?_, List.append_assoc, List.singleton_append]
      rw [bitsOf_snoc, List.append_assoc, ← hbits, heq]
  exact hread s [] rfl

/-- Of what the decoder accepts, exactly that without a code for the end is what the encoder
writes; and it reads what the encoder writes. -/
theorem huffman_image (x s : Bytes) : hpackHuffmanDecode (hpackHuffmanEncode s) = some s ∧
    (hpackHuffmanDecode x = some s → (x = hpackHuffmanEncode s ↔ EosFree x)) := by
  refine ⟨huffman_round_trip s, fun hd => ?_⟩
  obtain ⟨k, hk, hencode⟩ := encode_holds s
  constructor
  · rintro rfl s' heos
    obtain rfl := Option.some.inj ((decode_at_eos heos).symm.trans hd)
    have hle := heos.length_le
    rw [← hencode.eq_bufferBits, List.length_append, List.length_append, List.length_replicate,
      eosBits, word_length] at hle
    omega
  · intro hfree
    have hx := holds_bufferBits x
    have hstart : bitsOf [] <+: bufferBits x := List.nil_prefix
    rcases decodeFrom_some hx hstart hd with ⟨k', hk', hbits⟩ | heos
    · -- both fill the last byte
      have hlen := hencode.1
      have hlen' := hx.1
      rw [hbits] at hlen' hx
      rw [List.length_append, List.length_replicate] at hlen hlen'
      have hkk : k' = k := by omega
      rw [hkk] at hx
      exact eq_of_holds hx hencode
    · exact absurd heos (hfree s)

theorem huffman_image_sample : EosFree (hpackHuffmanEncode [0x58, 0x59]) :=
  ((huffman_image _ [0x58, 0x59]).2 (huffman_round_trip _)).mp rfl

/-- Four bytes that hold the code of the end are read as the empty string. -/
theorem huffman_eos : ∃ x s, hpackHuffmanDecode x = some s ∧ x ≠ hpackHuffmanEncode s := by
  refine ⟨[0xff, 0xff, 0xff, 0xff], [], decode_at_eos ?_, by decide⟩
  show eosBits <+: bufferBits [0xff, 0xff, 0xff, 0xff]
  decide

end Conclave.Net.Hpack
