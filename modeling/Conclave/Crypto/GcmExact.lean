import Conclave.Crypto.Gcm
import Conclave.Crypto.RsaVerify
import Conclave.Lib.BinaryPoly

/-! AES-GCM is exact: the hash is the value of a polynomial over the field of `2 ^ 128`
elements, and what opens is what was sealed. -/

namespace Conclave.Crypto

open Conclave.Lib Polynomial

variable {h v y state : Block} {encrypt : Block → Block} {nonce : Nonce} {aad : Bytes}

/-! ### Bits of bytes -/

/-- The bits of a byte, the top one first. -/
def byteBits (byte : UInt8) : List Bool := [7, 6, 5, 4, 3, 2, 1, 0].map byte.toNat.testBit

def bitsOf (bytes : Bytes) : List Bool := bytes.flatMap byteBits

theorem byteBits_length (byte : UInt8) : (byteBits byte).length = 8 := rfl

theorem bitsOf_length (bytes : Bytes) : (bitsOf bytes).length = 8 * bytes.length := by
  induction bytes with
  | nil => rfl
  | cons byte bytes ih =>
    rw [bitsOf, List.flatMap_cons, List.length_append, byteBits_length, List.length_cons, Nat.mul_succ,
      Nat.add_comm 8, ← ih]
    rfl

theorem forall_byte {p : UInt8 → Prop} (h : ∀ n : Fin 256, p (UInt8.ofNat n)) (byte : UInt8) :
    p byte := by
  have hbyte := h ⟨byte.toNat, byte.toNat_lt⟩
  rwa [UInt8.ofNat_toNat] at hbyte

theorem byteBits_xor (a b : UInt8) :
    byteBits (a ^^^ b) = List.zipWith Bool.xor (byteBits a) (byteBits b) := by
  simp only [byteBits, UInt8.toNat_xor, Nat.testBit_xor, List.map_cons, List.map_nil,
    List.zipWith_cons_cons, List.zipWith_nil_left]

/-- What is seen of bytes one by one: their masks, their shifts with a bit that comes in, and
that their bits give them back. -/
theorem byte_table (byte : UInt8) :
    bitMasks byte = (byteBits byte).map (fun b => if b then 0xff else 0) ∧
      decide ((0 : UInt8) = 1) :: byteBits byte =
        byteBits (byte >>> 1 ||| (0 : UInt8) <<< 7) ++ [decide (byte &&& 1 = 1)] ∧
      decide ((1 : UInt8) = 1) :: byteBits byte =
        byteBits (byte >>> 1 ||| (1 : UInt8) <<< 7) ++ [decide (byte &&& 1 = 1)] ∧
      UInt8.ofNat ((byteBits byte).foldl (fun n b => 2 * n + b.toNat) 0) = byte ∧
      (byte &&& 1 = 0 ∨ byte &&& 1 = 1) := by
  revert byte
  exact forall_byte (by decide +kernel)

theorem byteBits_mask (byte : UInt8) :
    bitMasks byte = (byteBits byte).map fun b => if b then 0xff else 0 := (byte_table byte).1

theorem byteBits_shift {carry : UInt8} (hcarry : carry = 0 ∨ carry = 1) (byte : UInt8) :
    decide (carry = 1) :: byteBits byte =
      byteBits (byte >>> 1 ||| carry <<< 7) ++ [decide (byte &&& 1 = 1)] := by
  obtain ⟨-, hzero, hone, -⟩ := byte_table byte
  rcases hcarry with rfl | rfl
  · exact hzero
  · exact hone

theorem and_one (byte : UInt8) : byte &&& 1 = 0 ∨ byte &&& 1 = 1 := (byte_table byte).2.2.2.2

theorem byteBits_injective {a b : UInt8} (h : byteBits a = byteBits b) : a = b := by
  rw [← (byte_table a).2.2.2.1, h, (byte_table b).2.2.2.1]

theorem bitsOf_injective {a b : Bytes} (hlen : a.length = b.length) (h : bitsOf a = bitsOf b) :
    a = b := by
  induction a generalizing b with
  | nil => exact (List.eq_nil_of_length_eq_zero hlen.symm).symm
  | cons x a ih =>
    obtain ⟨y, b, rfl⟩ := List.exists_cons_of_length_pos
      (show 0 < b.length by rw [← hlen]; exact Nat.succ_pos _)
    rw [bitsOf, bitsOf, List.flatMap_cons, List.flatMap_cons] at h
    obtain ⟨hbyte, hrest⟩ := List.append_inj h rfl
    rw [byteBits_injective hbyte, ih (Nat.succ.inj hlen) hrest]

theorem bitsOf_xor (a b : Bytes) (hlen : a.length = b.length) :
    bitsOf (List.zipWith (· ^^^ ·) a b) = List.zipWith Bool.xor (bitsOf a) (bitsOf b) := by
  induction a generalizing b with
  | nil => rfl
  | cons x a ih =>
    obtain ⟨y, b, rfl⟩ := List.exists_cons_of_length_pos
      (show 0 < b.length by rw [← hlen]; exact Nat.succ_pos _)
    rw [List.zipWith_cons_cons, bitsOf, bitsOf, bitsOf, List.flatMap_cons, List.flatMap_cons,
      List.flatMap_cons, byteBits_xor, List.zipWith_append (by rfl)]
    exact congrArg _ (ih b (Nat.succ.inj hlen))

/-- The carry goes in at the front of the bits, and the last one comes out. -/
theorem shiftBytes_bits {carry : UInt8} (hcarry : carry = 0 ∨ carry = 1) (bytes : Bytes) :
    let r := shiftBytes carry bytes
    (r.1 = 0 ∨ r.1 = 1) ∧
      decide (carry = 1) :: bitsOf bytes = bitsOf r.2 ++ [decide (r.1 = 1)] := by
  induction bytes generalizing carry with
  | nil => exact ⟨hcarry, rfl⟩
  | cons byte bytes ih =>
    obtain ⟨hout, hbits⟩ := ih (and_one byte)
    refine ⟨hout, ?_⟩
    rw [shiftBytes]
    dsimp only
    rw [bitsOf, bitsOf, List.flatMap_cons, List.flatMap_cons, ← List.cons_append,
      byteBits_shift hcarry, List.append_assoc, List.append_assoc, List.singleton_append]
    exact congrArg _ hbits

/-! ### Blocks as elements of the field -/

/-- The polynomial of the field, over two elements. -/
noncomputable def gcmPoly : (ZMod 2)[X] := X ^ 128 + (X ^ 7 + X ^ 2 + X + 1)

theorem gcmPoly_monic : gcmPoly.Monic := by
  unfold gcmPoly
  apply monic_X_pow_add
  compute_degree!

theorem gcmPoly_natDegree : gcmPoly.natDegree = 128 := by
  unfold gcmPoly
  compute_degree!

/-- The field: residues of the polynomial. -/
abbrev Gf := AdjoinRoot gcmPoly

theorem gf_two : (2 : Gf) = 0 := by
  rw [← map_ofNat (AdjoinRoot.of gcmPoly) 2, show (2 : ZMod 2) = 0 from rfl, map_zero]

theorem gf_neg (a : Gf) : -a = a := by
  rw [neg_eq_iff_add_eq_zero, ← two_mul, gf_two, zero_mul]

theorem aeval_gcmPoly {R : Type*} [CommRing R] [Algebra (ZMod 2) R] (x : R) :
    aeval x gcmPoly = x ^ 128 + (x ^ 7 + x ^ 2 + x + 1) := by
  unfold gcmPoly
  simp only [map_add, map_pow, map_one, aeval_X]

theorem root_pow : AdjoinRoot.root gcmPoly ^ 128 = AdjoinRoot.root gcmPoly ^ 7 +
    AdjoinRoot.root gcmPoly ^ 2 + AdjoinRoot.root gcmPoly + 1 := by
  have hroot : aeval (AdjoinRoot.root gcmPoly) gcmPoly = 0 :=
    (AdjoinRoot.aeval_eq gcmPoly).trans AdjoinRoot.mk_self
  have hsum := (aeval_gcmPoly (AdjoinRoot.root gcmPoly)).symm.trans hroot
  exact (eq_neg_of_add_eq_zero_left hsum).trans (gf_neg _)

/-- The first bit of a block is the constant coefficient. -/
noncomputable def Block.value (b : Block) : Gf := bitsAt (AdjoinRoot.root gcmPoly) (bitsOf b.bytes)

theorem Block.bits_length (b : Block) : (bitsOf b.bytes).length = 128 := by
  rw [bitsOf_length, b.length]

theorem Block.ext' {a b : Block} (hbytes : a.bytes = b.bytes) : a = b := by
  cases a
  cases b
  cases hbytes
  rfl

theorem value_injective : Function.Injective Block.value := by
  intro a b hab
  apply Block.ext'
  apply bitsOf_injective (a.length.trans b.length.symm)
  apply bitsAt_root_injective gcmPoly_monic _ _ hab
  · rw [a.bits_length, gcmPoly_natDegree]
  · rw [b.bits_length, gcmPoly_natDegree]

theorem value_xor (a b : Block) : (a.xor b).value = a.value + b.value := by
  rw [Block.value, Block.xor, bitsOf_xor _ _ (a.length.trans b.length.symm),
    bitsAt_xor gf_two (a.bits_length.trans b.bits_length.symm)]
  rfl

theorem value_zero : Block.zero.value = 0 := by
  have hbits : bitsOf Block.zero.bytes = List.replicate 128 false := by rfl
  rw [Block.value, hbits, bitsAt_replicate_false]

/-- Adding the reduced form of `x ^ 128` to the first byte. -/
theorem bitsAt_reduce (bytes : Bytes) (hlen : bytes.length = 16) :
    bitsAt (AdjoinRoot.root gcmPoly) (bitsOf (bytes.modifyHead (· ^^^ 0xe1))) =
      bitsAt (AdjoinRoot.root gcmPoly) (bitsOf bytes) + AdjoinRoot.root gcmPoly ^ 128 := by
  obtain ⟨byte, bytes, rfl⟩ := List.exists_cons_of_length_pos (show 0 < bytes.length by omega)
  have hfirst : bitsAt (AdjoinRoot.root gcmPoly) (byteBits 0xe1) = AdjoinRoot.root gcmPoly ^ 128 := by
    have hbits : byteBits 0xe1 = [true, true, true, false, false, false, false, true] := by decide
    rw [hbits, root_pow]
    simp only [bitsAt_cons, bitsAt_nil, if_true, Bool.false_eq_true, if_false]
    ring
  rw [List.modifyHead_cons, bitsOf, bitsOf, List.flatMap_cons, List.flatMap_cons, bitsAt_append,
    bitsAt_append, byteBits_xor, bitsAt_xor gf_two (by rfl), hfirst, byteBits_length, List.length_zipWith,
    byteBits_length, byteBits_length, Nat.min_self]
  ring

theorem value_shift (v : Block) : (gfShiftRight v).value = AdjoinRoot.root gcmPoly * v.value := by
  obtain ⟨hout, hbits⟩ := shiftBytes_bits (.inl rfl) v.bytes
  have hlen : (shiftBytes 0 v.bytes).2.length = 16 := (shiftBytes_length 0 v.bytes).trans v.length
  have hmul : AdjoinRoot.root gcmPoly * v.value =
      bitsAt (AdjoinRoot.root gcmPoly) (bitsOf (shiftBytes 0 v.bytes).2) +
        AdjoinRoot.root gcmPoly ^ 128 * (if (shiftBytes 0 v.bytes).1 = 1 then 1 else 0) := by
    have hshift := congrArg (bitsAt (AdjoinRoot.root gcmPoly)) hbits
    rw [bitsAt_append, bitsOf_length, hlen, bitsAt_cons, bitsAt_cons, bitsAt_nil] at hshift
    simpa [Block.value] using hshift
  have hbytes : (gfShiftRight v).bytes = if (shiftBytes 0 v.bytes).1 ≠ 0 then
      (shiftBytes 0 v.bytes).2.modifyHead (· ^^^ 0xe1) else (shiftBytes 0 v.bytes).2 := rfl
  rw [hmul, Block.value, hbytes]
  rcases hout with hzero | hone
  · simp [hzero]
  · rw [hone, if_pos (by decide), if_pos rfl, mul_one]
    exact bitsAt_reduce _ hlen

/-! ### The hash -/

theorem mask_all (v : Block) : v.mask 0xff = v := by
  have hbyte : ∀ byte : UInt8, byte &&& 0xff = byte := fun byte => UInt8.and_neg_one
  apply Block.ext'
  rw [Block.mask]
  simp [hbyte]

theorem mask_none (v : Block) : v.mask 0 = Block.zero := by
  apply Block.ext'
  simp [Block.mask, Block.zero, v.length]

theorem xor_zero (z : Block) : z.xor .zero = z :=
  value_injective (by rw [value_xor, value_zero, add_zero])

/-- Multiplication of blocks is that of the field. -/
theorem value_mul (y h : Block) : (ghashMul y h).value = y.value * h.value := by
  have hmasks : ∀ bytes : Bytes,
      bytes.flatMap bitMasks = (bitsOf bytes).map fun b => if b then 0xff else 0 := by
    intro bytes
    rw [bitsOf, List.map_flatMap]
    exact congrArg (List.flatMap · bytes) (funext byteBits_mask)
  have hstep : (fun (s : Block × Block) b =>
      (s.1.xor (s.2.mask (if b = true then 0xff else 0)), gfShiftRight s.2)) =
      fun s b => (if b = true then s.1.xor s.2 else s.1, gfShiftRight s.2) := by
    funext s b
    cases b
    · simp only [Bool.false_eq_true, if_false, mask_none, xor_zero]
    · simp only [if_true, mask_all]
  rw [ghashMul, hmasks, List.foldl_map, hstep, shift_add value_xor value_shift, value_zero, zero_add]
  rfl

theorem value_update (h state block : Block) :
    (ghashUpdate h state block).value = (state.value + block.value) * h.value := by
  rw [ghashUpdate, value_mul, value_xor]

/-- The data in blocks, the last one padded with zeros. -/
def blocks (data : Bytes) : List Block :=
  (List.range ((data.length + 15) / 16)).map fun i => .overwrite ((data.drop (i * 16)).take 16)

theorem overwrite_take (part : Bytes) : Block.overwrite (part.take 16) = .overwrite part := by
  apply Block.ext'
  change (part.take 16 ++ List.replicate 16 0).take 16 = (part ++ List.replicate 16 0).take 16
  rcases Nat.lt_or_ge 16 part.length with hlt | hle
  · rw [List.take_append_of_le_length (by rw [List.length_take]; omega),
      List.take_append_of_le_length (by omega), List.take_take, Nat.min_self]
  · rw [List.take_of_length_le hle]

theorem ghashPad_eq (h state : Block) (data : Bytes) :
    ghashPad h state data = (blocks data).foldl (ghashUpdate h) state := by
  rw [ghashPad, blocks, List.foldl_map]
  split_ifs with hrem
  · rw [show (data.length + 15) / 16 = data.length / 16 + 1 by omega, List.range_succ,
      List.foldl_append, List.foldl_cons, List.foldl_nil, overwrite_take]
  · rw [show (data.length + 15) / 16 = data.length / 16 by omega]

/-- All blocks that are hashed. -/
def ghashBlocks (aad ct : Bytes) : List Block := blocks aad ++ blocks ct ++ [lengths aad ct]

theorem ghash_eq (h : Block) (aad ct : Bytes) :
    ghash h aad ct = (ghashBlocks aad ct).foldl (ghashUpdate h) .zero := by
  rw [ghash, ghashPad_eq, ghashPad_eq, ghashBlocks, List.foldl_append, List.foldl_append]
  rfl

/-- The hash is the value at `h` of the polynomial that has the blocks for coefficients. -/
theorem value_ghash (h : Block) (aad ct : Bytes) : (ghash h aad ct).value =
    ∑ i : Fin (ghashBlocks aad ct).length, ((ghashBlocks aad ct).get i).value *
      h.value ^ ((ghashBlocks aad ct).length - i) := by
  have hfold : ∀ (bs : List Block) (s : Block), (bs.foldl (ghashUpdate h) s).value =
      (bs.map Block.value).foldl (fun s v => (s + v) * h.value) s.value := by
    intro bs
    induction bs with
    | nil => exact fun s => rfl
    | cons b bs ih =>
      intro s
      rw [List.foldl_cons, ih, value_update, List.map_cons, List.foldl_cons]
  rw [ghash_eq, hfold, foldl_horner, value_zero, zero_mul, zero_add]
  apply Fintype.sum_equiv (finCongr (List.length_map _))
  intro i
  simp

/-! ### The counter stream -/

theorem zipWith_xor_twice (a k : Bytes) :
    List.zipWith (· ^^^ ·) (List.zipWith (· ^^^ ·) a k) k = a.take k.length := by
  induction a generalizing k with
  | nil => simp
  | cons x a ih =>
    cases k with
    | nil => rfl
    | cons y k =>
      rw [List.zipWith_cons_cons, List.zipWith_cons_cons, ih, UInt8.xor_assoc, UInt8.xor_self,
        UInt8.xor_zero]
      rfl

theorem ctrLoop_length (encrypt : Block → Block) (fuel : ℕ) (counter : Block) {input : Bytes}
    (hfuel : input.length ≤ fuel) : (ctrLoop encrypt fuel counter input).length = input.length := by
  induction fuel generalizing counter input with
  | zero =>
    rw [List.eq_nil_of_length_eq_zero (Nat.le_zero.mp hfuel)]
    rfl
  | succ fuel ih =>
    rw [ctrLoop]
    split_ifs with hnil
    · rw [hnil]
    · have hpos := List.length_pos_iff.mpr hnil
      rw [List.length_append, ih, List.length_zipWith, (encrypt counter).length, List.length_drop]
      · omega
      · rw [List.length_drop]
        omega

/-- The stream applied twice is not there. -/
theorem ctrLoop_twice (encrypt : Block → Block) (fuel : ℕ) (counter : Block) {input : Bytes}
    (hfuel : input.length ≤ fuel) :
    ctrLoop encrypt fuel counter (ctrLoop encrypt fuel counter input) = input := by
  induction fuel generalizing counter input with
  | zero =>
    rw [List.eq_nil_of_length_eq_zero (Nat.le_zero.mp hfuel)]
    rfl
  | succ fuel ih =>
    by_cases hnil : input = []
    · subst hnil
      rfl
    · have hpos := List.length_pos_iff.mpr hnil
      have hrest : (input.drop 16).length ≤ fuel := by
        rw [List.length_drop]
        omega
      have hturn : ctrLoop encrypt (fuel + 1) counter input =
          List.zipWith (· ^^^ ·) input (encrypt counter).bytes ++
            ctrLoop encrypt fuel (inc32 counter) (input.drop 16) := by
        rw [ctrLoop, if_neg hnil]
      have hlen := ctrLoop_length encrypt fuel (inc32 counter) hrest
      have hne : ctrLoop encrypt (fuel + 1) counter input ≠ [] := by
        rw [← List.length_pos_iff, ctrLoop_length encrypt _ _ hfuel]
        exact hpos
      have hback : List.zipWith (· ^^^ ·) (ctrLoop encrypt (fuel + 1) counter input)
          (encrypt counter).bytes = input.take 16 ∧
          (ctrLoop encrypt (fuel + 1) counter input).drop 16 =
            ctrLoop encrypt fuel (inc32 counter) (input.drop 16) := by
        rw [hturn]
        rcases Nat.lt_or_ge input.length 16 with hlt | hge
        · have hend : ctrLoop encrypt fuel (inc32 counter) (input.drop 16) = [] := by
            rw [← List.length_eq_zero_iff, hlen, List.length_drop]
            omega
          rw [hend, List.append_nil, zipWith_xor_twice, (encrypt counter).length]
          refine ⟨rfl, List.drop_eq_nil_of_le ?_⟩
          rw [List.length_zipWith]
          omega
        · have hfirst : (List.zipWith (· ^^^ ·) input (encrypt counter).bytes).length = 16 := by
            rw [List.length_zipWith, (encrypt counter).length]
            omega
          refine ⟨?_, by rw [← hfirst, List.drop_left]⟩
          have happend := @List.zipWith_append _ _ _ (· ^^^ ·)
            (List.zipWith (· ^^^ ·) input (encrypt counter).bytes)
            (ctrLoop encrypt fuel (inc32 counter) (input.drop 16)) (encrypt counter).bytes []
            (hfirst.trans (encrypt counter).length.symm)
          rw [List.append_nil, zipWith_xor_twice, List.zipWith_nil_right, List.append_nil,
            (encrypt counter).length] at happend
          exact happend
      calc ctrLoop encrypt (fuel + 1) counter (ctrLoop encrypt (fuel + 1) counter input)
          = input.take 16 ++ ctrLoop encrypt fuel (inc32 counter)
              (ctrLoop encrypt fuel (inc32 counter) (input.drop 16)) := by
            conv_lhs => rw [ctrLoop]
            rw [if_neg hne, hback.1, hback.2]
        _ = input := by rw [ih (inc32 counter) hrest, List.take_append_drop]

theorem ctrXor_length (encrypt : Block → Block) (j0 : Block) (input : Bytes) :
    (ctrXor encrypt j0 input).length = input.length := ctrLoop_length encrypt _ _ le_rfl

theorem ctrXor_twice (encrypt : Block → Block) (j0 : Block) (input : Bytes) :
    ctrXor encrypt j0 (ctrXor encrypt j0 input) = input := by
  rw [ctrXor, ctrXor_length]
  exact ctrLoop_twice encrypt _ _ le_rfl

/-! ### Opening -/

theorem gcmOpen_append (ct tag : Bytes) (htag : tag.length = 16) :
    gcmOpen encrypt nonce aad (ct ++ tag) =
      if (gcmTag encrypt nonce aad ct).bytes = tag then .ok (ctrXor encrypt (j0 nonce) ct)
      else .error .badTag := by
  have hsplit : (ct ++ tag).length - 16 = ct.length := by
    rw [List.length_append, htag, Nat.add_sub_cancel]
  rw [gcmOpen, if_neg (by rw [List.length_append, htag]; omega), hsplit, List.take_left,
    List.drop_left]
  dsimp only
  by_cases heq : (gcmTag encrypt nonce aad ct).bytes = tag
  · rw [if_pos heq, ctEq_iff.mpr heq]
    rfl
  · have hct : ctEq (gcmTag encrypt nonce aad ct).bytes tag = false :=
      Bool.eq_false_iff.mpr fun h => heq (ctEq_iff.mp h)
    rw [if_neg heq, hct]
    rfl

theorem gcmOpen_iff (c plaintext : Bytes) :
    gcmOpen encrypt nonce aad c = .ok plaintext ↔ c = gcmSeal encrypt nonce aad plaintext := by
  constructor
  · intro h
    have hlen : 16 ≤ c.length := by
      by_contra hshort
      rw [gcmOpen, if_pos (by omega)] at h
      cases h
    rw [← List.take_append_drop (c.length - 16) c, gcmOpen_append _ _ (by
      rw [List.length_drop]
      omega)] at h
    split_ifs at h with htag
    rw [gcmSeal, ← Except.ok.inj h, ctrXor_twice, htag, List.take_append_drop]
  · rintro rfl
    rw [gcmSeal, gcmOpen_append _ _ (Block.length _), if_pos rfl, ctrXor_twice]

end Conclave.Crypto
