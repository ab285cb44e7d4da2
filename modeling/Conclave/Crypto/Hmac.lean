import Conclave.Crypto.HashesExact

/-! Keyed hashes, and the keys that are derived with them. -/

namespace Conclave.Crypto

open Conclave.Lib

namespace HashAlgorithm

def blockSize : HashAlgorithm → ℕ
  | .sha384 | .sha512 => 128
  | .md5 | .sha1 | .ripemd160 | .sha256 => 64

def outputSize : HashAlgorithm → ℕ
  | .md5 => 16
  | .sha1 | .ripemd160 => 20
  | .sha256 => 32
  | .sha384 => 48
  | .sha512 => 64

end HashAlgorithm

variable (alg : HashAlgorithm)

/-- A key that is longer than a block is hashed, and zeros fill the block. -/
def hmacBlock (key : Bytes) : Bytes :=
  if alg.blockSize < key.length then
    alg.digest [key] ++ List.replicate (alg.blockSize - alg.outputSize) 0
  else key ++ List.replicate (alg.blockSize - key.length) 0

def ipad (key : Bytes) : Bytes := (hmacBlock alg key).map (· ^^^ 0x36)

def opad (key : Bytes) : Bytes := (hmacBlock alg key).map (· ^^^ 0x5c)

/-- The message comes in pieces behind the inner key. -/
def hmac (key : Bytes) (pieces : List Bytes) : Bytes :=
  alg.digest [opad alg key, alg.digest (ipad alg key :: pieces)]

def HmacSha256.oneshot (key data : Bytes) : Bytes := hmac .sha256 key [data]

def HmacSha384.oneshot (key data : Bytes) : Bytes := hmac .sha384 key [data]

/-! ### HKDF -/

def hkdfExtract (salt ikm : Bytes) : Bytes :=
  hmac alg (if salt = [] then List.replicate alg.outputSize 0 else salt) [ikm]

/-- The loop of `expand`, with what is left to write. -/
def expandFrom (prk info prev : Bytes) (counter : UInt8) (left : ℕ) : Bytes :=
  if left = 0 then []
  else
    let block := hmac alg prk [prev, info, [counter]]
    block.take left ++ expandFrom prk info block (counter + 1) (left - alg.outputSize)
termination_by left
decreasing_by
  cases alg <;> simp only [HashAlgorithm.outputSize] <;> omega

/-- More than 255 blocks fail the assertion. -/
def hkdfExpand (prk info : Bytes) (len : ℕ) : Option Bytes :=
  if len ≤ 255 * alg.outputSize then some (expandFrom alg prk info [] 1 len) else none

/-! ### The definitions -/

/-- The hash of the outer key and of the hash of the inner key and the message. -/
def keyedHash (key msg : Bytes) : Bytes :=
  let block := (if alg.blockSize < key.length then alg.standard key else key)
  let block := block ++ List.replicate (alg.blockSize - block.length) 0
  alg.standard (block.map (· ^^^ 0x5c) ++ alg.standard (block.map (· ^^^ 0x36) ++ msg))

/-- The blocks of the output: each is the keyed hash of the one before it, the context and its
number. -/
def okmBlock (prk info : Bytes) : ℕ → Bytes
  | 0 => []
  | i + 1 => keyedHash alg prk (okmBlock prk info i ++ info ++ [UInt8.ofNat (i + 1)])

variable {alg} {key prk info : Bytes}

theorem length_flatMap_words {n k : ℕ} {W : Type} (f : W → Bytes) (hf : ∀ w, (f w).length = k)
    {l : List W} (hl : l.length = n) : (l.flatMap f).length = n * k := by
  rw [List.length_flatMap, List.map_congr_left fun w _ => hf w, List.map_const', List.sum_replicate,
    hl, smul_eq_mul]

theorem standard_length (alg : HashAlgorithm) (msg : Bytes) :
    (alg.standard msg).length = alg.outputSize := by
  cases alg with
  | md5 => exact length_flatMap_words _ (fun w => toLe_length 4 _) (Vector.length_toList ..)
  | sha1 => exact length_flatMap_words _ (fun w => toBe_length 4 _) (Vector.length_toList ..)
  | ripemd160 => exact length_flatMap_words _ (fun w => toLe_length 4 _) (Vector.length_toList ..)
  | sha256 => exact length_flatMap_words _ (fun w => toBe_length 4 _) (Vector.length_toList ..)
  | sha384 =>
    refine length_flatMap_words _ (fun w => toBe_length 8 _) (n := 6) ?_
    rw [List.length_take, Vector.length_toList]
    rfl
  | sha512 => exact length_flatMap_words _ (fun w => toBe_length 8 _) (Vector.length_toList ..)

theorem hmacBlock_eq (alg : HashAlgorithm) (key : Bytes) :
    hmacBlock alg key = (if alg.blockSize < key.length then alg.standard key else key) ++
      List.replicate (alg.blockSize -
        (if alg.blockSize < key.length then alg.standard key else key).length) 0 := by
  rw [hmacBlock]
  split_ifs
  · rw [HashAlgorithm.digest_exact, List.flatten_singleton, standard_length]
  · rfl

/-- A keyed hash of a message in pieces is that of the whole. -/
theorem hmac_eq (alg : HashAlgorithm) (key : Bytes) (pieces : List Bytes) :
    hmac alg key pieces = keyedHash alg key pieces.flatten := by
  rw [hmac, HashAlgorithm.digest_exact, HashAlgorithm.digest_exact, opad, ipad, hmacBlock_eq, keyedHash,
    List.flatten_cons, List.flatten_cons, List.flatten_nil, List.append_nil, List.flatten_cons]

theorem outputSize_pos (alg : HashAlgorithm) : 0 < alg.outputSize := by
  cases alg <;> decide

theorem okmBlock_length (i : ℕ) : (okmBlock alg prk info (i + 1)).length = alg.outputSize :=
  standard_length _ _

/-- From a block on, the loop writes the blocks behind it. -/
theorem expandFrom_eq (n i left : ℕ) (h : left ≤ n * alg.outputSize) :
    expandFrom alg prk info (okmBlock alg prk info i) (UInt8.ofNat (i + 1)) left =
      ((List.range' i n).flatMap fun j => okmBlock alg prk info (j + 1)).take left := by
  induction n generalizing i left with
  | zero =>
    obtain rfl : left = 0 := by omega
    rw [expandFrom, if_pos rfl, List.take_zero]
  | succ n ih =>
    rw [expandFrom]
    split_ifs with hzero
    · rw [hzero, List.take_zero]
    · have hblock : hmac alg prk [okmBlock alg prk info i, info, [UInt8.ofNat (i + 1)]] =
          okmBlock alg prk info (i + 1) := by
        rw [hmac_eq, okmBlock, List.flatten_cons, List.flatten_cons, List.flatten_cons,
          List.flatten_nil, List.append_nil, List.append_assoc]
      have hnext : UInt8.ofNat (i + 1) + 1 = UInt8.ofNat (i + 1 + 1) := by
        rw [UInt8.ofNat_add (i + 1) 1]
        rfl
      have hleft : left - alg.outputSize ≤ n * alg.outputSize := by
        rw [Nat.succ_mul] at h
        omega
      dsimp only
      rw [hblock, hnext, ih (i + 1) _ hleft, List.range'_succ, List.flatMap_cons, List.take_append,
        okmBlock_length]

/-- The keyed hashes and the keys derived with them are those of their definitions: the message
may come in pieces, the first blocks of the output are the same for every length, and nothing but
a length of more than 255 blocks fails. -/
theorem hmac_hkdf_exact (alg : HashAlgorithm) (key prk info : Bytes) (pieces : List Bytes) (len : ℕ) :
    hmac alg key pieces = keyedHash alg key pieces.flatten ∧
      hkdfExpand alg prk info len = if 255 * alg.outputSize < len then none
        else some (((List.range 255).flatMap fun i => okmBlock alg prk info (i + 1)).take len) := by
  refine ⟨hmac_eq alg key pieces, ?_⟩
  rw [hkdfExpand]
  split_ifs with h h' h'
  · omega
  · have := @expandFrom_eq alg prk info 255 0 len h
    rw [List.range_eq_range', ← this]
    rfl
  · rfl
  · omega

end Conclave.Crypto
