import Conclave.Crypto.Rsa

/-! Where the verification of RSA signatures agrees with RFC 8017. Both functions take a
signature that is not below the modulus. The one for PSS also takes an encoded message with its
leading bit set, and panics for a modulus whose bit length is one more than a multiple of
eight. -/

namespace Conclave.Crypto

open Conclave.Lib
open BigUint

/-- A verification that does not panic, and succeeds exactly when `P` holds. -/
def Gives (x : Option (Except CryptoError Unit)) (P : Prop) : Prop :=
  ∃ r, x = some r ∧ (r = .ok () ↔ P)

section Gives

variable {x : Option (Except CryptoError Unit)} {P Q : Prop} {err : CryptoError}

theorem Gives.congr (h : Gives x P) (hPQ : P ↔ Q) : Gives x Q :=
  h.imp fun _ h => ⟨h.1, h.2.trans hPQ⟩

theorem Gives.iff (h : Gives x P) (h' : Gives x Q) : P ↔ Q := by
  obtain ⟨r, hr, hP⟩ := h
  obtain ⟨r', hr', hQ⟩ := h'
  rw [hr] at hr'
  cases hr'
  exact hP.symm.trans hQ

theorem gives_ok : Gives (some (.ok ())) True := ⟨.ok (), rfl, by simp⟩

theorem gives_error : Gives (some (.error err)) False := ⟨.error err, rfl, by simp⟩

theorem not_gives_none : ¬ Gives none P := fun ⟨_, h, _⟩ => absurd h (by simp)

theorem Gives.guard {c : Prop} [Decidable c] (h : Gives x P) :
    Gives (if c then some (.error err) else x) (¬ c ∧ P) := by
  by_cases hc : c
  · rw [if_pos hc]
    exact gives_error.congr (by simp [hc])
  · rw [if_neg hc]
    exact h.congr (by simp [hc])

theorem Gives.bind {α : Type} {y : Option α} {a : α} {f : α → Option (Except CryptoError Unit)}
    (hy : y = some a) (h : Gives (f a) P) : Gives (y.bind f) P := by
  rwa [bind_of_some hy]

end Gives

section Octets

theorem beNat_stripLeadingZero (b : Bytes) : beNat (stripLeadingZero b) = beNat b := by
  induction b using stripLeadingZero.induct with
  | case1 b bytes ih =>
    rw [stripLeadingZero, if_pos rfl, ih]
    simp [beNat]
  | case2 a b bytes ha => rw [stripLeadingZero, if_neg ha]
  | case3 bytes h => rw [stripLeadingZero.eq_2 bytes h]

/-- The first byte that is left is not zero. -/
theorem two_pow_le_stripLeadingZero {b : Bytes} (h : beNat b ≠ 0) :
    2 ^ (8 * ((stripLeadingZero b).length - 1)) ≤ beNat b := by
  induction b using stripLeadingZero.induct with
  | case1 b bytes ih =>
    have hrest : beNat (0 :: b :: bytes) = beNat (b :: bytes) := by simp [beNat]
    rw [stripLeadingZero, if_pos rfl, hrest]
    exact ih (hrest ▸ h)
  | case2 a b bytes ha =>
    have hpos : 0 < a.toNat := Nat.pos_of_ne_zero fun h₀ => ha (UInt8.toNat_inj.mp h₀)
    rw [stripLeadingZero, if_neg ha, beNat]
    exact (Nat.le_mul_of_pos_left _ hpos).trans (Nat.le_add_right _ _)
  | case3 bytes hshort =>
    rw [stripLeadingZero.eq_2 bytes hshort]
    obtain _ | ⟨a, _ | ⟨b, bytes⟩⟩ := bytes
    · exact absurd rfl h
    · exact Nat.one_le_iff_ne_zero.mpr h
    · exact absurd rfl (hshort a b bytes)

/-- The length of the modulus that a key stores is its length in octets. -/
theorem nByteLen_fromComponents {nBe eBe : Bytes} (h : 1 < beNat nBe) :
    (RsaPublicKey.fromComponents nBe eBe).nByteLen = octets (beNat nBe) := by
  have hlow := two_pow_le_stripLeadingZero (show beNat nBe ≠ 0 by omega)
  have hhigh := beNat_lt (stripLeadingZero nBe)
  rw [beNat_stripLeadingZero] at hhigh
  have hlow' := Nat.lt_size.mpr hlow
  have hhigh' := Nat.size_le.mpr hhigh
  change (stripLeadingZero nBe).length = (_ + 7) / 8
  omega

theorem lt_two_pow_octets (n : ℕ) : n < 2 ^ (8 * octets n) := by
  have hle : n.size ≤ 8 * octets n := by
    unfold octets
    omega
  exact Nat.size_le.mp hle

end Octets

section Lists

variable {a b c : Bytes} {i j : ℕ}

theorem exists_append {l : Bytes} {n : ℕ} (h : n ≤ l.length) :
    ∃ a b, l = a ++ b ∧ a.length = n :=
  ⟨l.take n, l.drop n, (List.take_append_drop n l).symm, List.length_take_of_le h⟩

theorem slice_append (hi : i = a.length) (hj : j = i + b.length) :
    slice (a ++ (b ++ c)) i j = some b := by
  have hle : i ≤ j ∧ j ≤ (a ++ (b ++ c)).length := by
    rw [List.length_append, List.length_append]
    omega
  rw [slice, if_pos hle, ← List.append_assoc,
    List.take_left' (by rw [List.length_append]; omega), List.drop_left' hi.symm]

theorem slice_append_right (hi : i = a.length) (hj : j = i + b.length) :
    slice (a ++ b) i j = some b := by
  have h := slice_append (c := []) hi hj
  rwa [List.append_nil] at h

theorem all_eq_iff {ps : Bytes} {x : UInt8} :
    (¬ ps.any (· ≠ x) = true) ↔ ps = List.replicate ps.length x := by
  rw [List.eq_replicate_iff]
  simp

end Lists

section Pkcs1

variable {digest : Digest} {key : RsaPublicKey} {hash : Hash} {msg signature : Bytes}

/-- What the code finds in an encoded message of the right length is the encoding. -/
theorem verifyPkcs1V15_gives (hn : 1 < key.n.toNat)
    (hlen : signature.length = key.nByteLen) :
    Gives (verifyPkcs1V15 digest key hash msg signature)
      (emsaPkcs1 digest hash msg key.nByteLen =
        some (toBe key.nByteLen (beNat signature ^ key.e.toNat % key.n.toNat))) := by
  obtain ⟨x, hx, hvalue⟩ := @powMod_spec (fromBeBytes signature) key.e key.n hn
  rw [toNat_fromBeBytes] at hvalue
  rw [← hvalue]
  simp only [verifyPkcs1V15, Option.pure_def, Option.bind_eq_bind]
  rw [if_neg (not_not.mpr hlen), bind_of_some hx, toBeBytes_eq]
  generalize hem : toBe key.nByteLen x.toNat = em
  have hemlen : em.length = key.nByteLen := by rw [← hem, toBe_length]
  generalize hd : (digest hash msg).toList = d
  rw [emsaPkcs1, hd]
  generalize hash.digestInfoPrefix = t₁
  by_cases hroom : key.nByteLen < t₁.length + d.length + 11
  · rw [if_pos hroom]
    refine gives_error.congr ?_
    rw [if_pos (by rwa [List.length_append])]
    simp
  rw [if_neg hroom]
  -- the encoded message in its fields
  obtain ⟨l₁, l₂, hl, hl₁⟩ := exists_append (show 2 ≤ em.length by omega)
  obtain ⟨a, b, rfl⟩ := List.length_eq_two.mp hl₁
  rw [hl, List.length_append, hl₁] at hemlen
  obtain ⟨ps, l₃, rfl, hps⟩ := exists_append
    (show key.nByteLen - (t₁.length + d.length) - 3 ≤ l₂.length by omega)
  rw [List.length_append] at hemlen
  obtain ⟨l₄, tField, rfl, hl₄⟩ := exists_append (show 1 ≤ l₃.length by omega)
  obtain ⟨c, rfl⟩ := List.length_eq_one_iff.mp hl₄
  rw [List.length_append, hl₄] at hemlen
  obtain ⟨u₁, u₂, rfl, hu₁⟩ := exists_append (show t₁.length ≤ tField.length by omega)
  rw [List.length_append] at hemlen
  subst hl
  generalize hend : key.nByteLen - (t₁.length + d.length) - 1 = psEnd
  have hpsEnd : psEnd = 2 + ps.length := by omega
  have hpad : slice ([a, b] ++ (ps ++ ([c] ++ (u₁ ++ u₂)))) 2 psEnd = some ps :=
    slice_append rfl hpsEnd
  have hzero : ([a, b] ++ (ps ++ ([c] ++ (u₁ ++ u₂))))[psEnd]? = some c := by
    rw [List.getElem?_append_right (by rw [hl₁]; omega), hl₁,
      List.getElem?_append_right (by omega), show psEnd - 2 - ps.length = 0 by omega]
    rfl
  have hfield : slice ([a, b] ++ (ps ++ ([c] ++ (u₁ ++ u₂)))) (psEnd + 1)
      ([a, b] ++ (ps ++ ([c] ++ (u₁ ++ u₂)))).length = some (u₁ ++ u₂) := by
    have h := @slice_append_right ([a, b] ++ (ps ++ [c])) (u₁ ++ u₂) (psEnd + 1)
      ([a, b] ++ (ps ++ ([c] ++ (u₁ ++ u₂)))).length (by simp; omega) (by simp; omega)
    simpa using h
  have hfront : slice (u₁ ++ u₂) 0 t₁.length = some u₁ :=
    @slice_append [] u₁ u₂ 0 t₁.length rfl (by omega)
  have hback : slice (u₁ ++ u₂) t₁.length (u₁ ++ u₂).length = some u₂ :=
    slice_append_right hu₁.symm (by rw [List.length_append]; omega)
  refine (Gives.bind rfl (Gives.bind rfl (.guard (.bind hpad (.guard (.bind hzero (.guard
    (.bind hfield (.bind hfront (.guard (.bind hback (.guard gives_ok)))))))))))).congr ?_
  have hpad' : key.nByteLen - (t₁ ++ d).length - 3 = ps.length := by
    rw [List.length_append]
    omega
  rw [if_neg (by rwa [List.length_append]), Option.some_inj, hpad', all_eq_iff]
  constructor
  · rintro ⟨hab, hps', hc, hu₁', hu₂, -⟩
    rw [Bool.or_eq_true, decide_eq_true_eq, decide_eq_true_eq, not_or, not_not, not_not] at hab
    rw [hab.1, hab.2, not_not.mp hc, not_not.mp hu₁', not_not.mp hu₂, ← hps']
    rfl
  · intro h
    obtain ⟨ha, h₁⟩ := List.cons_eq_cons.mp h
    obtain ⟨hb, h₂⟩ := List.cons_eq_cons.mp h₁
    obtain ⟨hps', h₃⟩ := List.append_inj (show _ = ps ++ ([c] ++ (u₁ ++ u₂)) from h₂)
      List.length_replicate
    obtain ⟨hc, h₄⟩ := List.cons_eq_cons.mp h₃
    obtain ⟨hu₁', hu₂⟩ := List.append_inj (show _ = u₁ ++ u₂ from h₄) hu₁.symm
    refine ⟨?_, hps'.symm, not_not.mpr hc.symm, not_not.mpr hu₁'.symm, not_not.mpr hu₂.symm, trivial⟩
    simp [← ha, ← hb]

end Pkcs1

section Pss

variable {digest : Digest} {key : RsaPublicKey} {hash : Hash} {msg signature : Bytes}

theorem mgf1_eq (seed : Bytes) (maskLen : ℕ) :
    mgf1 digest hash seed maskLen = maskOf digest hash seed maskLen := by
  have hcounter : ∀ counter, toBe 4 (counter % 2 ^ 32) = toBe 4 counter := by
    intro counter
    have h := toBe_add_mul 4 (counter % 2 ^ 32) (counter / 2 ^ 32)
    rwa [show 2 ^ (8 * 4) = 2 ^ 32 from rfl, Nat.mod_add_div, eq_comm] at h
  simp only [mgf1, maskOf, hcounter]

theorem digestLen_pos (hash : Hash) : 0 < hash.digestLen := by cases hash <;> decide

/-- The hashes cover the mask. -/
theorem length_maskOf (seed : Bytes) (maskLen : ℕ) :
    (maskOf digest hash seed maskLen).length = maskLen := by
  have hpos := digestLen_pos hash
  rw [maskOf, List.length_take, List.length_flatMap, Nat.min_eq_left]
  simp only [Vector.length_toList, List.map_const', List.length_range, List.sum_replicate,
    smul_eq_mul]
  have hdm := Nat.div_add_mod (maskLen + hash.digestLen - 1) hash.digestLen
  have hlt := Nat.mod_lt (maskLen + hash.digestLen - 1) hpos
  rw [Nat.mul_comm] at hdm
  omega

theorem zeroTop_eq {bits : ℕ} {db : Bytes} (hpos : 0 < bits) (h : bits < 8) (hdb : db ≠ []) :
    zeroTop bits db = some (cleared bits db) := by
  obtain ⟨b, rest, rfl⟩ := List.exists_cons_of_ne_nil hdb
  have hmask : ∀ k : Fin 8, (0xff >>> UInt8.ofNat k : UInt8).toNat = 2 ^ (8 - k.val) - 1 := by
    decide
  have hbyte : b &&& 0xff >>> UInt8.ofNat bits = UInt8.ofNat (b.toNat % 2 ^ (8 - bits)) := by
    apply UInt8.toNat_inj.mp
    rw [UInt8.toNat_and, hmask ⟨bits, h⟩, Nat.and_two_pow_sub_one_eq_mod, UInt8.toNat_ofNat',
      Nat.mod_eq_of_lt ((Nat.mod_le _ _).trans_lt b.toNat_lt)]
  rw [zeroTop, if_neg hpos.ne', if_pos h, cleared, ← hbyte]
  rfl

theorem length_cleared (bits : ℕ) (db : Bytes) : (cleared bits db).length = db.length := by
  cases db <;> rfl

theorem foldl_or_eq_zero (l : Bytes) (acc : UInt8) :
    l.foldl (· ||| ·) acc = 0 ↔ acc = 0 ∧ ∀ x ∈ l, x = 0 := by
  have hor : ∀ a b : UInt8, a ||| b = 0 ↔ a = 0 ∧ b = 0 := by
    intro a b
    simp only [← UInt8.toNat_inj, UInt8.toNat_or, UInt8.toNat_zero, Nat.or_eq_zero_iff]
  induction l generalizing acc with
  | nil => simp
  | cons x l ih =>
    have hstep := ih (acc ||| x)
    rw [hor, and_assoc] at hstep
    rw [List.foldl_cons, List.forall_mem_cons]
    exact hstep

theorem ctEq_iff {a b : Bytes} : ctEq a b = true ↔ a = b := by
  rw [ctEq, Bool.and_eq_true, beq_iff_eq, beq_iff_eq, foldl_or_eq_zero]
  induction a generalizing b with
  | nil => cases b <;> simp
  | cons x a ih =>
    cases b with
    | nil => simp
    | cons y b =>
      rw [List.zipWith_cons_cons, List.forall_mem_cons, List.cons_eq_cons, ← ih,
        UInt8.xor_eq_zero_iff, List.length_cons, List.length_cons, Nat.add_right_cancel_iff]
      simp only [true_and]
      tauto

variable {em : Bytes} {emBits : ℕ}

/-- The data block is checked for the form of RFC 8017, apart from its leading bits. -/
theorem checkDb_gives (hroom : hash.digestLen + hash.digestLen + 2 ≤ em.length)
    (hlast : em[em.length - 1]? = some 0xbc) (hbits : emBits < 8 * em.length)
    (hbits' : 8 * em.length < emBits + 8) :
    Gives (checkDb digest hash msg em em.length emBits) (PssForm digest hash msg em emBits) := by
  have hemLen : (emBits + 7) / 8 = em.length := by omega
  obtain ⟨maskedDb, l₁, hl, hmasked⟩ := exists_append
    (show em.length - hash.digestLen - 1 ≤ em.length by omega)
  have hlen := congrArg List.length hl
  rw [List.length_append] at hlen
  obtain ⟨h, l₂, rfl, hh⟩ := exists_append (show hash.digestLen ≤ l₁.length by omega)
  rw [List.length_append] at hlen
  obtain ⟨c, rfl⟩ := List.length_eq_one_iff.mp (show l₂.length = 1 by omega)
  have hc : c = 0xbc := by
    have hget : em[em.length - 1]? = some c := by
      rw [hl, ← List.append_assoc, List.getElem?_append_right (by simp)]
      simp
    rw [hget] at hlast
    exact Option.some_inj.mp hlast
  subst hc
  have hslice₁ : slice em 0 (em.length - hash.digestLen - 1) = some maskedDb := by
    rw [hl]
    exact @slice_append [] maskedDb (h ++ [0xbc]) 0 _ rfl (by rw [← hl, hmasked, Nat.zero_add])
  have hslice₂ : slice em (em.length - hash.digestLen - 1) (em.length - 1) = some h := by
    rw [hl]
    exact slice_append (by rw [← hl]; exact hmasked.symm) (by rw [← hl]; omega)
  have hmaskLen := @length_maskOf digest hash h (em.length - hash.digestLen - 1)
  generalize hdb : List.zipWith (· ^^^ ·) maskedDb
    (maskOf digest hash h (em.length - hash.digestLen - 1)) = db
  have hdbLen : db.length = em.length - hash.digestLen - 1 := by
    rw [← hdb, List.length_zipWith, hmaskLen, hmasked, Nat.min_self]
  have hzero : zeroTop (8 * em.length - emBits) db = some (cleared (8 * em.length - emBits) db) :=
    zeroTop_eq (by omega) (by omega) (List.ne_nil_of_length_pos (by omega))
  generalize hcl : cleared (8 * em.length - emBits) db = cl at hzero
  have hclLen : cl.length = em.length - hash.digestLen - 1 := by rw [← hcl, length_cleared, hdbLen]
  obtain ⟨ps, l₃, hcl', hps⟩ := exists_append
    (show em.length - hash.digestLen - 1 - hash.digestLen - 1 ≤ cl.length by omega)
  subst hcl'
  rw [List.length_append] at hclLen
  obtain ⟨l₄, salt, rfl, hl₄⟩ := exists_append (show 1 ≤ l₃.length by omega)
  obtain ⟨c, rfl⟩ := List.length_eq_one_iff.mp hl₄
  rw [List.length_append, hl₄] at hclLen
  obtain ⟨psLen, hpsLen⟩ : ∃ k, em.length - hash.digestLen - 1 - hash.digestLen - 1 = k := ⟨_, rfl⟩
  rw [hpsLen] at hps
  have hslice₃ : slice (ps ++ ([c] ++ salt)) 0 psLen = some ps :=
    @slice_append [] ps ([c] ++ salt) 0 psLen rfl (by omega)
  have hget : (ps ++ ([c] ++ salt))[psLen]? = some c := by
    rw [List.getElem?_append_right hps.le, hps, Nat.sub_self]
    rfl
  have hslice₄ : slice (ps ++ ([c] ++ salt)) (psLen + 1) (ps ++ ([c] ++ salt)).length =
      some salt := by
    have h := @slice_append_right (ps ++ [c]) salt (psLen + 1) (ps ++ ([c] ++ salt)).length
      (by simp; omega) (by simp; omega)
    simpa using h
  simp only [checkDb, Option.pure_def, Option.bind_eq_bind, mgf1_eq]
  rw [bind_of_some hslice₁, bind_of_some hslice₂, hdb, bind_of_some hzero, hpsLen]
  refine (Gives.bind hslice₃ (.guard (.bind hget (.guard (.bind hslice₄ (.guard gives_ok)))))).congr
    ?_
  rw [Bool.not_eq_true', Bool.not_eq_false, ctEq_iff, all_eq_iff, hps]
  constructor
  · rintro ⟨hps', hc, hh', -⟩
    refine ⟨hemLen.symm, by omega, maskedDb, salt, digest hash (List.replicate 8 0 ++
      (digest hash msg).toList ++ salt), by rw [← hh', List.append_assoc]; exact hl, by omega, ?_, rfl⟩
    rw [hemLen, ← hh', hmasked, hdb, hcl, hps', not_not.mp hc,
      show psLen = em.length - hash.digestLen - hash.digestLen - 2 by omega]
    rfl
  · rintro ⟨-, -, maskedDb', salt', h', hl', hsalt, hform, hh'⟩
    have hh'len : h'.toList.length = hash.digestLen := Vector.length_toList
    have hem' := congrArg List.length hl'
    rw [List.length_append, List.length_append] at hem'
    rw [List.length_singleton, hh'len] at hem'
    rw [hl, List.append_assoc] at hl'
    obtain ⟨hmask', htail⟩ := List.append_inj hl' (by omega)
    obtain ⟨hhash, -⟩ := List.append_inj htail (by omega)
    rw [hemLen, ← hmask', ← hhash, hmasked, hdb, hcl] at hform
    obtain ⟨hps', hrest⟩ := List.append_inj hform (by rw [List.length_replicate]; omega)
    obtain ⟨hc, hsalt'⟩ := List.cons_eq_cons.mp (show c :: salt = 1 :: salt' from hrest)
    refine ⟨?_, not_not.mpr hc, ?_, trivial⟩
    · rw [hps']
      congr 1
      omega
    · rw [hhash, hsalt', ← hh']

/-- Up to the check of the data block. -/
theorem verifyPss_eq (hn : 1 < key.n.toNat) (hlen : signature.length = octets key.n.toNat) :
    verifyPss digest key hash msg signature =
      if octets key.n.toNat < hash.digestLen + hash.digestLen + 2 then some (.error .badLength)
      else ((toBe (octets key.n.toNat) (beNat signature ^ key.e.toNat % key.n.toNat))[
          octets key.n.toNat - 1]?).bind fun last =>
        if last ≠ 0xbc then some (.error .badTag)
        else checkDb digest hash msg
          (toBe (octets key.n.toNat) (beNat signature ^ key.e.toNat % key.n.toNat))
          (octets key.n.toNat) (key.n.toNat.size - 1) := by
  obtain ⟨x, hx, hvalue⟩ := @powMod_spec (fromBeBytes signature) key.e key.n hn
  rw [toNat_fromBeBytes] at hvalue
  have hsize : key.n.toNat.size ≠ 0 := fun h => by
    rw [Nat.size_eq_zero] at h
    omega
  simp only [verifyPss, bitLen_eq, Option.pure_def, Option.bind_eq_bind]
  rw [if_neg hsize]
  change (if signature.length ≠ octets key.n.toNat then _ else _) = _
  rw [if_neg (not_not.mpr hlen), bind_of_some hx, toBeBytes_eq, hvalue]
  rfl

/-- The last octet of a string of octets. -/
theorem getLast_toBe {k n : ℕ} (hk : 0 < k) : (toBe k n)[k - 1]? = some (UInt8.ofNat n) := by
  obtain ⟨k, rfl⟩ := Nat.exists_eq_add_of_le' hk
  have h := toBe_add k 1 n
  have hone : toBe 1 n = [UInt8.ofNat n] := by simp [toBe]
  rw [h, Nat.add_sub_cancel, List.getElem?_append_right (toBe_length _ _).le, toBe_length,
    Nat.sub_self, hone]
  rfl

/-- A modulus of other lengths: the form is checked, the leading bit is not. -/
theorem verifyPss_gives (hn : 1 < key.n.toNat) (hlen : signature.length = octets key.n.toNat)
    (hbits : key.n.toNat.size % 8 ≠ 1) :
    Gives (verifyPss digest key hash msg signature)
      (PssForm digest hash msg
        (toBe (octets key.n.toNat) (beNat signature ^ key.e.toNat % key.n.toNat))
        (key.n.toNat.size - 1)) := by
  rw [verifyPss_eq hn hlen]
  have hsize : 1 < key.n.toNat.size := Nat.lt_size.mpr (by omega)
  have hoct : octets key.n.toNat = (key.n.toNat.size + 7) / 8 := rfl
  generalize hem : toBe (octets key.n.toNat) (beNat signature ^ key.e.toNat % key.n.toNat) = em
  have hemlen : em.length = octets key.n.toNat := by rw [← hem, toBe_length]
  rw [← hemlen] at hoct ⊢
  by_cases hroom : em.length < hash.digestLen + hash.digestLen + 2
  · rw [if_pos hroom]
    refine gives_error.congr (iff_of_false not_false fun h => ?_)
    have hle := h.2.1
    rw [← h.1] at hle
    omega
  · rw [if_neg hroom]
    obtain ⟨last, hlast⟩ : ∃ last, em[em.length - 1]? = some last :=
      ⟨_, List.getElem?_eq_getElem (by omega)⟩
    rw [bind_of_some hlast]
    by_cases hbc : last = 0xbc
    · rw [if_neg (not_not.mpr hbc)]
      exact checkDb_gives (by omega) (hbc ▸ hlast) (by omega) (by omega)
    · rw [if_pos hbc]
      refine gives_error.congr (iff_of_false not_false fun h => hbc ?_)
      obtain ⟨-, -, maskedDb, salt, h, hl, -⟩ := h
      rw [hl, List.getElem?_append_right (by simp)] at hlast
      simpa using hlast.symm

/-- A modulus whose bit length is one more than a multiple of eight: what gets as far as the
data block panics there. -/
theorem verifyPss_wide (hn : 1 < key.n.toNat) (hlen : signature.length = octets key.n.toNat)
    (hbits : key.n.toNat.size % 8 = 1) :
    verifyPss digest key hash msg signature =
      if octets key.n.toNat < hash.digestLen + hash.digestLen + 2 then some (.error .badLength)
      else if UInt8.ofNat (beNat signature ^ key.e.toNat % key.n.toNat) ≠ 0xbc then
        some (.error .badTag)
      else none := by
  have hsize : 1 < key.n.toNat.size := Nat.lt_size.mpr (by omega)
  have hoct : octets key.n.toNat = (key.n.toNat.size + 7) / 8 := rfl
  have hbits' : 8 * octets key.n.toNat - (key.n.toNat.size - 1) = 8 := by omega
  rw [verifyPss_eq hn hlen, getLast_toBe (by omega), Option.bind_some]
  split_ifs with hroom hlast
  · rfl
  · rfl
  · generalize hem : toBe (octets key.n.toNat) (beNat signature ^ key.e.toNat % key.n.toNat) = em
    have hemlen : em.length = octets key.n.toNat := by rw [← hem, toBe_length]
    simp [checkDb, hbits', zeroTop]

end Pss

theorem toBe_beNat (b : Bytes) : toBe b.length (beNat b) = b := by
  induction b with
  | nil => rfl
  | cons x b ih =>
    have hlow := beNat_lt b
    have hhead : (x.toNat * 2 ^ (8 * b.length) + beNat b) / 2 ^ (8 * b.length) = x.toNat := by
      rw [Nat.mul_comm, Nat.mul_add_div (Nat.two_pow_pos _), Nat.div_eq_of_lt hlow, Nat.add_zero]
    have htail := toBe_add_mul b.length (beNat b) x.toNat
    rw [Nat.add_comm, Nat.mul_comm, ih] at htail
    rw [List.length_cons, toBe, beNat, hhead, htail, UInt8.ofNat_toNat]

section Agreement

variable (digest : Digest) (hash : Hash) (msg : Bytes) (n e : ℕ) (signature : Bytes)

/-- The signature is below the modulus, or does not give the encoding either way. -/
def Pkcs1Agrees : Prop :=
  signature.length ≠ octets n ∨ beNat signature < n ∨
    emsaPkcs1 digest hash msg (octets n) ≠ some (toBe (octets n) (beNat signature ^ e % n))

/-- For a modulus whose bit length is one more than a multiple of eight, the encoded message ends
the check before the data block. For the others the signature is below the modulus, the leading
bit is clear and the mask within its limit, or the encoded message lacks the form either way. -/
def PssAgrees : Prop :=
  signature.length ≠ octets n ∨
    if n.size % 8 = 1 then
      octets n < hash.digestLen + hash.digestLen + 2 ∨
        UInt8.ofNat (beNat signature ^ e % n) ≠ 0xbc
    else
      (beNat signature < n ∧ beNat signature ^ e % n < 2 ^ (n.size - 1) ∧
        octets n - hash.digestLen - 1 ≤ 2 ^ 32 * hash.digestLen) ∨
      ¬ PssForm digest hash msg (toBe (octets n) (beNat signature ^ e % n)) (n.size - 1)

variable {digest hash msg n e signature}

theorem gives_iff_of_gives {x : Option (Except CryptoError Unit)} {P Q : Prop} (h : Gives x P) :
    Gives x Q ↔ (P ↔ Q) :=
  ⟨h.iff, h.congr⟩

/-- RSASSA-PSS-VERIFY when the encoded message is as long as the modulus. -/
theorem validPss_iff (hn : 1 < n) (hlen : signature.length = octets n) (hbits : n.size % 8 ≠ 1) :
    ValidPss digest hash msg n e signature ↔
      (beNat signature < n ∧ beNat signature ^ e % n < 2 ^ (n.size - 1) ∧
        octets n - hash.digestLen - 1 ≤ 2 ^ 32 * hash.digestLen) ∧
      PssForm digest hash msg (toBe (octets n) (beNat signature ^ e % n)) (n.size - 1) := by
  have hsize : 1 < n.size := Nat.lt_size.mpr (by omega)
  have hoct : octets n = (n.size + 7) / 8 := rfl
  have hemLen : (n.size - 1 + 7) / 8 = octets n := by omega
  have hfit : beNat signature ^ e % n < 2 ^ (8 * octets n) :=
    (Nat.mod_lt _ (by omega)).trans (lt_two_pow_octets n)
  simp only [ValidPss, Consistent, hemLen, beNat_toBe, Nat.mod_eq_of_lt hfit, toBe_length, hlen, hfit]
  tauto

/-- RSASSA-PSS-VERIFY when the encoded message is one octet shorter. -/
theorem not_validPss (hbits : n.size % 8 = 1)
    (h : octets n < hash.digestLen + hash.digestLen + 2 ∨
      UInt8.ofNat (beNat signature ^ e % n) ≠ 0xbc) :
    ¬ ValidPss digest hash msg n e signature := by
  rintro ⟨-, -, -, hform, -⟩
  have hoct : octets n = (n.size + 7) / 8 := rfl
  obtain ⟨-, hroom, maskedDb, salt, hh, hl, -⟩ := hform
  obtain h | h := h
  · omega
  · have hlast := @getLast_toBe ((n.size - 1 + 7) / 8) (beNat signature ^ e % n) (by omega)
    have hlen' := congrArg List.length hl
    rw [toBe_length] at hlen'
    rw [hl, hlen', List.getElem?_append_right (by simp)] at hlast
    simp at hlast
    exact h hlast.symm

end Agreement

/-- Each function accepts what RFC 8017 accepts, without a panic, exactly under its condition. -/
theorem rsa_verify (digest : Digest) (nBe eBe : Bytes) (hn : 1 < beNat nBe) (hash : Hash)
    (msg signature : Bytes) :
    (Gives (verifyPkcs1V15 digest (.fromComponents nBe eBe) hash msg signature)
        (ValidPkcs1 digest hash msg (beNat nBe) (beNat eBe) signature) ↔
      Pkcs1Agrees digest hash msg (beNat nBe) (beNat eBe) signature) ∧
    (Gives (verifyPss digest (.fromComponents nBe eBe) hash msg signature)
        (ValidPss digest hash msg (beNat nBe) (beNat eBe) signature) ↔
      PssAgrees digest hash msg (beNat nBe) (beNat eBe) signature) := by
  have hnvalue : (RsaPublicKey.fromComponents nBe eBe).n.toNat = beNat nBe :=
    (toNat_fromBeBytes _).trans (beNat_stripLeadingZero nBe)
  have hevalue : (RsaPublicKey.fromComponents nBe eBe).e.toNat = beNat eBe :=
    (toNat_fromBeBytes _).trans (beNat_stripLeadingZero eBe)
  have hk := @nByteLen_fromComponents nBe eBe hn
  by_cases hlen : signature.length = octets (beNat nBe)
  · constructor
    · have h := @verifyPkcs1V15_gives digest (.fromComponents nBe eBe) hash msg signature
        (hnvalue ▸ hn) (hlen.trans hk.symm)
      rw [hk, hnvalue, hevalue] at h
      rw [gives_iff_of_gives h, ValidPkcs1, Pkcs1Agrees]
      tauto
    · by_cases hbits : (beNat nBe).size % 8 = 1
      · have h := @verifyPss_wide digest (.fromComponents nBe eBe) hash msg signature
          (hnvalue ▸ hn) (hnvalue ▸ hlen) (hnvalue ▸ hbits)
        rw [hnvalue, hevalue] at h
        rw [h, PssAgrees, if_pos hbits]
        split_ifs with hroom hlast
        · exact iff_of_true (gives_error.congr (iff_of_false not_false
            (not_validPss hbits (.inl hroom)))) (.inr (.inl hroom))
        · exact iff_of_true (gives_error.congr (iff_of_false not_false
            (not_validPss hbits (.inr hlast)))) (.inr (.inr hlast))
        · exact iff_of_false not_gives_none (by tauto)
      · have h := @verifyPss_gives digest (.fromComponents nBe eBe) hash msg signature
          (hnvalue ▸ hn) (hnvalue ▸ hlen) (hnvalue ▸ hbits)
        rw [hnvalue, hevalue] at h
        rw [gives_iff_of_gives h, validPss_iff hn hlen hbits, PssAgrees, if_neg hbits]
        tauto
  · have hpkcs1 : verifyPkcs1V15 digest (.fromComponents nBe eBe) hash msg signature =
        some (.error .badLength) := by
      simp [verifyPkcs1V15, hk, hlen]
    have hpss : verifyPss digest (.fromComponents nBe eBe) hash msg signature =
        some (.error .badLength) := by
      have hsize : ¬ (beNat nBe).size = 0 := fun h => by
        rw [Nat.size_eq_zero] at h
        omega
      have hlen' : ¬ signature.length = ((beNat nBe).size + 7) / 8 := hlen
      simp [verifyPss, bitLen_eq, hnvalue, hsize, hlen']
    rw [hpkcs1, hpss]
    exact ⟨iff_of_true (gives_error.congr (iff_of_false not_false fun h => hlen h.1)) (.inl hlen),
      iff_of_true (gives_error.congr (iff_of_false not_false fun h => hlen h.1)) (.inl hlen)⟩

/-- A signature that is not below the modulus, under the exponent one. -/
theorem rsa_verify_forged : ¬ ∃ digest : Digest,
    Gives (verifyPkcs1V15 digest (.fromComponents (1 :: List.replicate 61 0) [1]) .sha256 []
        (1 :: 1 :: (List.replicate 8 0xff ++ 0 :: (Hash.sha256.digestInfoPrefix ++
          (digest .sha256 []).toList))))
      (ValidPkcs1 digest .sha256 [] (beNat (1 :: List.replicate 61 0)) (beNat [1])
        (1 :: 1 :: (List.replicate 8 0xff ++ 0 :: (Hash.sha256.digestInfoPrefix ++
          (digest .sha256 []).toList)))) := by
  rintro ⟨digest, h⟩
  generalize ht : Hash.sha256.digestInfoPrefix ++ (digest .sha256 []).toList = t at h
  have htlen : t.length = 51 := by
    rw [← ht, List.length_append, Vector.length_toList]
    rfl
  have hn : beNat (1 :: List.replicate 61 0) = 2 ^ 488 := by
    rw [beNat, beNat_replicate_zero, List.length_replicate, Nat.add_zero,
      show (1 : UInt8).toNat = 1 from rfl, Nat.one_mul]
  have hbig : 1 < 2 ^ 488 := Nat.one_lt_pow (by decide) (by decide)
  have hoct : octets (2 ^ 488) = 62 := by rw [octets, Nat.size_pow]
  have hkey : (RsaPublicKey.fromComponents (1 :: List.replicate 61 0) [1]).n.toNat = 2 ^ 488 := by
    rw [← hn]
    exact (toNat_fromBeBytes _).trans (beNat_stripLeadingZero _)
  have hexp : (RsaPublicKey.fromComponents (1 :: List.replicate 61 0) [1]).e.toNat = 1 :=
    (toNat_fromBeBytes _).trans (by simp [stripLeadingZero, beNat])
  have hk : (RsaPublicKey.fromComponents (1 :: List.replicate 61 0) [1]).nByteLen = 62 := by
    rw [nByteLen_fromComponents (hn ▸ hbig), hn, hoct]
  generalize hrest : 1 :: (List.replicate 8 (0xff : UInt8) ++ 0 :: t) = rest at h
  have hrestlen : rest.length = 61 := by
    rw [← hrest]
    simp [htlen]
  have hlow : beNat rest < 2 ^ 488 := by
    have hlt := beNat_lt rest
    rwa [hrestlen, show 8 * 61 = 488 from rfl] at hlt
  have hsig : beNat (1 :: rest) = 2 ^ 488 + beNat rest := by
    rw [beNat, hrestlen, UInt8.toNat_one, Nat.one_mul]
  have hcode := @verifyPkcs1V15_gives digest (.fromComponents (1 :: List.replicate 61 0) [1]) .sha256
    [] (1 :: rest) (hkey ▸ hbig)
    (by rw [hk, List.length_cons, hrestlen])
  have hem : toBe 62 (beNat rest) = 0 :: rest := by
    rw [show 62 = 1 + 61 from rfl, toBe_add, Nat.div_eq_of_lt hlow]
    have h := toBe_beNat rest
    rw [hrestlen] at h
    rw [h]
    rfl
  have hform : emsaPkcs1 digest .sha256 [] 62 = some (0 :: rest) := by
    rw [emsaPkcs1, ht, htlen, ← hrest]
    rfl
  rw [hk, hkey, hexp, pow_one, hsig, Nat.add_mod_left, Nat.mod_eq_of_lt hlow, hem, hform] at hcode
  have hvalid := (hcode.iff h).mp rfl
  rw [hn] at hvalid
  have hlt := hvalid.2.1
  omega

/-- A modulus of 62 octets, and under the exponent one a signature that is the encoded message. -/
theorem rsa_verify_sample :
    Gives (verifyPkcs1V15 (fun _ _ => Vector.replicate _ 0)
        (.fromComponents (0xff :: List.replicate 61 0) [1]) .sha256 []
        (0 :: 1 :: (List.replicate 8 0xff ++ 0 :: (Hash.sha256.digestInfoPrefix ++
          List.replicate 32 0))))
      (ValidPkcs1 (fun _ _ => Vector.replicate _ 0) .sha256 []
        (beNat (0xff :: List.replicate 61 0)) (beNat [1])
        (0 :: 1 :: (List.replicate 8 0xff ++ 0 :: (Hash.sha256.digestInfoPrefix ++
          List.replicate 32 0)))) := by
  have hn : 1 < beNat (0xff :: List.replicate 61 0) := by decide +kernel
  refine (rsa_verify _ _ _ hn .sha256 [] _).1.mpr (.inr (.inl ?_))
  decide +kernel

end Conclave.Crypto
