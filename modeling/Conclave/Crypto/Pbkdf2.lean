import Conclave.Crypto.Hmac

/-! Keys from passwords: a keyed hash that is iterated, a block of output at a time. -/

namespace Conclave.Crypto

open Conclave.Lib

variable (alg : HashAlgorithm)

/-- The rounds behind the first: the last hash and the sum of all. -/
def pbkdf2Rounds (password : Bytes) : ℕ → Bytes × Bytes → Bytes × Bytes
  | 0, s => s
  | n + 1, (u, t) =>
    let u := hmac alg password [u]
    pbkdf2Rounds password n (u, List.zipWith (· ^^^ ·) t u)

/-- The loop of `pbkdf2`, with what is left to write. -/
def pbkdf2From (password salt : Bytes) (iterations blockIndex left : ℕ) : Bytes :=
  if left = 0 then []
  else
    let u := hmac alg password [salt ++ toBe 4 blockIndex]
    let t := (pbkdf2Rounds alg password (iterations - 1) (u, u)).2
    t.take (min left alg.outputSize) ++ pbkdf2From password salt iterations
      ((blockIndex + 1) % 2 ^ 32) (left - min left alg.outputSize)
termination_by left
decreasing_by
  have := outputSize_pos alg
  omega

def pbkdf2 (password salt : Bytes) (iterations outputLen : ℕ) : Bytes :=
  pbkdf2From alg password salt iterations 1 outputLen

def pbkdf2_sha1 (password salt : Bytes) (iterations outputLen : ℕ) : Bytes :=
  pbkdf2 .sha1 password salt iterations outputLen

def pbkdf2_sha256 (password salt : Bytes) (iterations outputLen : ℕ) : Bytes :=
  pbkdf2 .sha256 password salt iterations outputLen

def pbkdf2_sha384 (password salt : Bytes) (iterations outputLen : ℕ) : Bytes :=
  pbkdf2 .sha384 password salt iterations outputLen

def pbkdf2_sha512 (password salt : Bytes) (iterations outputLen : ℕ) : Bytes :=
  pbkdf2 .sha512 password salt iterations outputLen

/-! ### The definition -/

/-- The hashes of a block: each is the keyed hash of the one before it. -/
def saltedHash (password salt : Bytes) (blockIndex : ℕ) : ℕ → Bytes
  | 0 => keyedHash alg password (salt ++ toBe 4 blockIndex)
  | n + 1 => keyedHash alg password (saltedHash password salt blockIndex n)

/-- The exclusive sum of the first hashes of a block. -/
def hashSum (password salt : Bytes) (blockIndex rounds : ℕ) : Bytes :=
  (List.range rounds).foldl
    (fun t n => List.zipWith (· ^^^ ·) t (saltedHash alg password salt blockIndex n))
    (List.replicate alg.outputSize 0)

variable {alg} {password salt : Bytes} {iterations blockIndex : ℕ}

theorem saltedHash_length (n : ℕ) :
    (saltedHash alg password salt blockIndex n).length = alg.outputSize := by
  cases n <;> exact standard_length _ _

theorem hashSum_succ (n : ℕ) :
    hashSum alg password salt blockIndex (n + 1) =
      List.zipWith (· ^^^ ·) (hashSum alg password salt blockIndex n)
        (saltedHash alg password salt blockIndex n) := by
  rw [hashSum, List.range_succ, List.foldl_append]
  rfl

theorem hashSum_length (n : ℕ) :
    (hashSum alg password salt blockIndex n).length = alg.outputSize := by
  induction n with
  | zero => exact List.length_replicate
  | succ n ih => rw [hashSum_succ, List.length_zipWith, ih, saltedHash_length, min_self]

theorem zipWith_zero_xor (l : Bytes) :
    List.zipWith (· ^^^ ·) (List.replicate l.length 0) l = l := by
  induction l with
  | nil => rfl
  | cons b l ih => rw [List.length_cons, List.replicate_succ, List.zipWith_cons_cons, ih, UInt8.zero_xor]

theorem hashSum_one : hashSum alg password salt blockIndex 1 =
    saltedHash alg password salt blockIndex 0 := by
  have hzero := zipWith_zero_xor (saltedHash alg password salt blockIndex 0)
  rw [saltedHash_length] at hzero
  rw [hashSum_succ]
  exact hzero

/-- What the rounds keep: the last hash, and the sum up to it. -/
theorem pbkdf2Rounds_eq (n i : ℕ) :
    pbkdf2Rounds alg password n
        (saltedHash alg password salt blockIndex i, hashSum alg password salt blockIndex (i + 1)) =
      (saltedHash alg password salt blockIndex (i + n),
        hashSum alg password salt blockIndex (i + n + 1)) := by
  induction n generalizing i with
  | zero => rfl
  | succ n ih =>
    have hnext : hmac alg password [saltedHash alg password salt blockIndex i] =
        saltedHash alg password salt blockIndex (i + 1) := by
      rw [hmac_eq, List.flatten_singleton, saltedHash]
    rw [pbkdf2Rounds, hnext, ← hashSum_succ (i + 1), ih (i + 1), Nat.add_right_comm i 1 n,
      Nat.add_assoc i n 1]

/-- No iterations are one. -/
theorem block_eq : (pbkdf2Rounds alg password (iterations - 1)
      (hmac alg password [salt ++ toBe 4 blockIndex],
        hmac alg password [salt ++ toBe 4 blockIndex])).2 =
    hashSum alg password salt blockIndex (max 1 iterations) := by
  have hfirst : hmac alg password [salt ++ toBe 4 blockIndex] =
      saltedHash alg password salt blockIndex 0 := by
    rw [hmac_eq, List.flatten_singleton, saltedHash]
  have hrounds := @pbkdf2Rounds_eq alg password salt blockIndex (iterations - 1) 0
  have hcount : 0 + (iterations - 1) + 1 = max 1 iterations := by omega
  rw [hashSum_one, hcount] at hrounds
  rw [hfirst, hrounds]

/-- From a block on, the loop writes the blocks behind it. -/
theorem pbkdf2From_eq (n i left : ℕ) (h : left ≤ n * alg.outputSize) :
    pbkdf2From alg password salt iterations ((i + 1) % 2 ^ 32) left =
      ((List.range' i n).flatMap fun j =>
        hashSum alg password salt ((j + 1) % 2 ^ 32) (max 1 iterations)).take left := by
  induction n generalizing i left with
  | zero =>
    obtain rfl : left = 0 := by omega
    rw [pbkdf2From, if_pos rfl, List.take_zero]
  | succ n ih =>
    rw [pbkdf2From]
    split_ifs with hzero
    · rw [hzero, List.take_zero]
    · have hnext : ((i + 1) % 2 ^ 32 + 1) % 2 ^ 32 = (i + 1 + 1) % 2 ^ 32 := Nat.mod_add_mod ..
      have hrest : left - min left alg.outputSize = left - alg.outputSize := by omega
      have hleft : left - alg.outputSize ≤ n * alg.outputSize := by
        rw [Nat.succ_mul] at h
        omega
      have htake : ∀ t : Bytes, t.length = alg.outputSize →
          t.take (min left alg.outputSize) = t.take left := by
        intro t ht
        rw [← ht, ← List.take_take, List.take_length]
      dsimp only
      rw [block_eq, htake _ (hashSum_length _), hnext, hrest, ih (i + 1) _ hleft, List.range'_succ,
        List.flatMap_cons, List.take_append, hashSum_length]

/-- The key is cut from the blocks of the definition, so that a shorter key is the start of a
longer one. The numbers of the blocks are of 32 bits and start again behind the last. -/
theorem pbkdf2_exact (alg : HashAlgorithm) (password salt : Bytes) (iterations outputLen : ℕ) :
    pbkdf2 alg password salt iterations outputLen =
      ((List.range outputLen).flatMap fun i =>
        hashSum alg password salt ((i + 1) % 2 ^ 32) (max 1 iterations)).take outputLen := by
  rw [List.range_eq_range']
  exact pbkdf2From_eq outputLen 0 outputLen
    (Nat.le_mul_of_pos_right outputLen (outputSize_pos alg))

end Conclave.Crypto
