import Conclave.Crypto.Hashes
import Conclave.Crypto.Octets

/-! However a message is cut into pieces, its digest is the one of the padded message; a
keyed hash and the functions that derive keys from it are those of their definitions. -/

namespace Conclave.Crypto

open Conclave.Lib

theorem toBe_mod (k n : ℕ) : toBe k (n % 2 ^ (8 * k)) = toBe k n := by
  conv_rhs => rw [← Nat.mod_add_div n (2 ^ (8 * k)), toBe_add_mul]

theorem toLe_mod (k n : ℕ) : toLe k (n % 2 ^ (8 * k)) = toLe k n := by
  rw [toLe, toBe_mod, toLe]

/-! ### Pieces -/

namespace Hasher

variable {σ : Type} {compress : σ → Bytes → σ} {n width : ℕ} {init : σ} {encode : ℕ → Bytes}

/-- What a message leaves in a hasher. -/
def holding (compress : σ → Bytes → σ) (n width : ℕ) (init : σ) (msg : Bytes) : Hasher σ :=
  ⟨absorbed compress n init msg, msg.length * 8 % 2 ^ width⟩

theorem new_eq (hn : 0 < n) : new init = holding compress n width init [] := by
  rw [holding, absorbed_nil hn, List.length_nil, Nat.zero_mul, Nat.zero_mod, new]

theorem update_holding (hn : 0 < n) (msg data : Bytes) :
    (holding compress n width init msg).update compress n width data =
      holding compress n width init (msg ++ data) := by
  rw [update, holding, absorb_absorbed hn, Nat.mod_add_mod, ← Nat.add_mul, ← List.length_append,
    holding]

theorem foldl_update (hn : 0 < n) (msg : Bytes) (pieces : List Bytes) :
    pieces.foldl (update compress n width) (holding compress n width init msg) =
      holding compress n width init (msg ++ pieces.flatten) := by
  induction pieces generalizing msg with
  | nil => rw [List.foldl_nil, List.flatten_nil, List.append_nil]
  | cons piece pieces ih =>
    rw [List.foldl_cons, update_holding hn, ih, List.flatten_cons, List.append_assoc]

theorem foldl_new (hn : 0 < n) (pieces : List Bytes) :
    pieces.foldl (update compress n width) (new init) =
      holding compress n width init pieces.flatten := by
  rw [@new_eq _ compress n width init hn, foldl_update hn, List.nil_append]

/-- Both ways to finish are the chain over the padded message. -/
theorem finish_holding (msg : Bytes)
    (hk : (encode (msg.length * 8 % 2 ^ width)).length < n) :
    (holding compress n width init msg).finish compress n width encode =
      chain compress n init (padMessage n (encode (msg.length * 8 % 2 ^ width)) msg) := by
  rw [finish, holding, update, update]
  dsimp only
  rw [absorb_pad hk, absorbed]

theorem finishInPlace_holding (msg : Bytes)
    (hk : (encode (msg.length * 8 % 2 ^ width)).length < n) :
    (holding compress n width init msg).finishInPlace compress n encode =
      chain compress n init (padMessage n (encode (msg.length * 8 % 2 ^ width)) msg) :=
  close_absorbed hk msg

end Hasher

/-! ### A count in two words -/

namespace Sha512

/-- The bits that the two words count. -/
def bits (h : Sha512) : ℕ := h.msgLenHigh.toNat * 2 ^ 64 + h.msgLenLow.toNat

theorem bits_update (h : Sha512) (data : Bytes) :
    (h.update data).bits = (h.bits + data.length * 8) % 2 ^ 128 := by
  have hlow := h.msgLenLow.toNat_lt
  have hhigh := h.msgLenHigh.toNat_lt
  unfold bits update
  generalize data.length * 8 = b
  dsimp only
  split_ifs with hlt <;>
    simp only [UInt64.lt_iff_toNat_lt, UInt64.toNat_add, UInt64.toNat_ofNat', UInt64.toNat_one,
      Nat.shiftRight_eq_div_pow] at hlt ⊢ <;>
    omega

theorem update_core (h : Sha512) (data : Bytes) :
    (h.update data).core = h.core.absorb compress 128 data := rfl

theorem foldl_update (pieces : List Bytes) :
    (pieces.foldl update new).core = absorbed compress 128 init pieces.flatten ∧
      (pieces.foldl update new).bits = pieces.flatten.length * 8 % 2 ^ 128 := by
  have hrun : ∀ (msg : Bytes) (h : Sha512), h.core = absorbed compress 128 init msg →
      h.bits = msg.length * 8 % 2 ^ 128 →
      (pieces.foldl update h).core = absorbed compress 128 init (msg ++ pieces.flatten) ∧
        (pieces.foldl update h).bits = (msg ++ pieces.flatten).length * 8 % 2 ^ 128 := by
    induction pieces with
    | nil =>
      intro msg h hcore hbits
      rw [List.flatten_nil, List.append_nil]
      exact ⟨hcore, hbits⟩
    | cons piece pieces ih =>
      intro msg h hcore hbits
      rw [List.foldl_cons, List.flatten_cons, ← List.append_assoc]
      apply ih
      · rw [update_core, hcore, absorb_absorbed (by norm_num)]
      · rw [bits_update, hbits, Nat.mod_add_mod, ← Nat.add_mul, ← List.length_append]
  have hstart : new.core = absorbed compress 128 init [] := (absorbed_nil (by norm_num)).symm
  have := hrun [] new hstart rfl
  rwa [List.nil_append] at this

theorem toBe_bits (h : Sha512) :
    toBe 8 h.msgLenHigh.toNat ++ toBe 8 h.msgLenLow.toNat = toBe 16 h.bits := by
  have hlow : h.bits / 2 ^ (8 * 8) = h.msgLenHigh.toNat := by
    have := h.msgLenLow.toNat_lt
    unfold bits
    omega
  have hmod : toBe 8 h.bits = toBe 8 h.msgLenLow.toNat := by
    rw [bits, Nat.add_comm, Nat.mul_comm]
    exact toBe_add_mul 8 _ _
  rw [show 16 = 8 + 8 from rfl, toBe_add, hlow, hmod]

/-- The two words behind the padding are one count of 128 bits. -/
theorem finalize_eq {h : Sha512} {msg : Bytes} (hcore : h.core = absorbed compress 128 init msg) :
    h.finalize = (chain compress 128 init (padMessage 128 (toBe 16 h.bits) msg)).toList.flatMap
      fun w => toBe 8 w.toNat := by
  have hpad := @absorb_pad _ compress 128 init (toBe 16 h.bits) (by rw [toBe_length]; norm_num) msg
  rw [toBe_length, ← hcore, ← toBe_bits, hcore] at hpad
  rw [absorb_absorbed (by norm_num), absorb_absorbed (by norm_num)] at hpad
  unfold finalize
  dsimp only
  rw [update_core, update_core, update_core, hcore, absorb_absorbed (by norm_num),
    absorb_absorbed (by norm_num), absorb_absorbed (by norm_num), List.append_assoc _ (toBe 8 _), hpad,
    ← toBe_bits]
  rfl

end Sha512

/-! ### The digests -/

inductive HashAlgorithm where
  | md5 | sha1 | ripemd160 | sha256 | sha384 | sha512

namespace HashAlgorithm

/-- The digest of a message that comes in pieces. -/
def digest : HashAlgorithm → List Bytes → Bytes
  | .md5, pieces => Md5.finalize (pieces.foldl Md5.update Md5.new)
  | .sha1, pieces => Sha1.finalize (pieces.foldl Sha1.update Sha1.new)
  | .ripemd160, pieces => Ripemd160.finalize (pieces.foldl Ripemd160.update Ripemd160.new)
  | .sha256, pieces => Sha256.finalize (pieces.foldl Sha256.update Sha256.new)
  | .sha384, pieces => Sha384.finalize (pieces.foldl Sha384.update Sha384.new)
  | .sha512, pieces => Sha512.finalize (pieces.foldl Sha512.update Sha512.new)

/-- The standards: the message is padded with a bit, zeros and its length in bits, and goes
through the compression function block after block. -/
def standard : HashAlgorithm → Bytes → Bytes
  | .md5, msg => (chain Md5.compress 64 Md5.init
      (padMessage 64 (toLe 8 (msg.length * 8)) msg)).toList.flatMap fun w => toLe 4 w.toNat
  | .sha1, msg => (chain Sha1.compress 64 Sha1.init
      (padMessage 64 (toBe 8 (msg.length * 8)) msg)).toList.flatMap fun w => toBe 4 w.toNat
  | .ripemd160, msg => (chain Ripemd160.compress 64 Ripemd160.init
      (padMessage 64 (toLe 8 (msg.length * 8)) msg)).toList.flatMap fun w => toLe 4 w.toNat
  | .sha256, msg => (chain Sha256.compress 64 Sha256.H0
      (padMessage 64 (toBe 8 (msg.length * 8)) msg)).toList.flatMap fun w => toBe 4 w.toNat
  | .sha384, msg => ((chain Sha512.compress 128 Sha384.H0
      (padMessage 128 (toBe 16 (msg.length * 8)) msg)).toList.take 6).flatMap fun w => toBe 8 w.toNat
  | .sha512, msg => (chain Sha512.compress 128 Sha512.init
      (padMessage 128 (toBe 16 (msg.length * 8)) msg)).toList.flatMap fun w => toBe 8 w.toNat

theorem finish_eq {σ : Type} {compress : σ → Bytes → σ} {init : σ} {encode : ℕ → Bytes}
    (hlen : ∀ n, (encode n).length = 8) (hmod : ∀ n, encode (n % 2 ^ 64) = encode n)
    (pieces : List Bytes) :
    (pieces.foldl (Hasher.update compress 64 64) (.new init)).finish compress 64 64 encode =
      chain compress 64 init (padMessage 64 (encode (pieces.flatten.length * 8)) pieces.flatten) := by
  rw [Hasher.foldl_new (by norm_num), Hasher.finish_holding _ (by rw [hlen]; norm_num), hmod]

theorem finishInPlace_eq {σ : Type} {compress : σ → Bytes → σ} {init : σ} {encode : ℕ → Bytes}
    {n k : ℕ} (hk : k < n) (hlen : ∀ m, (encode m).length = k)
    (hmod : ∀ m, encode (m % 2 ^ (8 * k)) = encode m) (pieces : List Bytes) :
    (pieces.foldl (Hasher.update compress n (8 * k)) (.new init)).finishInPlace compress n encode =
      chain compress n init (padMessage n (encode (pieces.flatten.length * 8)) pieces.flatten) := by
  rw [Hasher.foldl_new (Nat.zero_lt_of_lt hk),
    Hasher.finishInPlace_holding _ (by rw [hlen]; exact hk), hmod]

/-- Each hash of a message in pieces is the standard's of the whole. -/
theorem digest_exact (alg : HashAlgorithm) (pieces : List Bytes) :
    alg.digest pieces = alg.standard pieces.flatten := by
  have hle : ∀ n, toLe 8 (n % 2 ^ 64) = toLe 8 n := toLe_mod 8
  have hbe : ∀ n, toBe 8 (n % 2 ^ 64) = toBe 8 n := toBe_mod 8
  cases alg with
  | md5 =>
    have h := @finish_eq _ Md5.compress Md5.init _ (toLe_length 8) hle pieces
    exact congrArg (fun s => s.toList.flatMap fun w : UInt32 => toLe 4 w.toNat) h
  | sha1 =>
    have h := @finish_eq _ Sha1.compress Sha1.init _ (toBe_length 8) hbe pieces
    exact congrArg (fun s => s.toList.flatMap fun w : UInt32 => toBe 4 w.toNat) h
  | ripemd160 =>
    have h := @finish_eq _ Ripemd160.compress Ripemd160.init _ (toLe_length 8) hle pieces
    exact congrArg (fun s => s.toList.flatMap fun w : UInt32 => toLe 4 w.toNat) h
  | sha256 =>
    have h := @finishInPlace_eq _ Sha256.compress Sha256.H0 _ 64 8 (by norm_num) (toBe_length 8) hbe
      pieces
    exact congrArg (fun s => s.toList.flatMap fun w : UInt32 => toBe 4 w.toNat) h
  | sha384 =>
    have h := @finishInPlace_eq _ Sha512.compress Sha384.H0 _ 128 16 (by norm_num) (toBe_length 16)
      (toBe_mod 16) pieces
    exact congrArg (fun s => (s.toList.take 6).flatMap fun w : UInt64 => toBe 8 w.toNat) h
  | sha512 =>
    obtain ⟨hcore, hbits⟩ := Sha512.foldl_update pieces
    have hmod : toBe 16 (pieces.flatten.length * 8 % 2 ^ 128) = toBe 16 (pieces.flatten.length * 8) :=
      toBe_mod 16 _
    rw [digest, standard, Sha512.finalize_eq hcore, hbits, hmod]

end HashAlgorithm

end Conclave.Crypto
