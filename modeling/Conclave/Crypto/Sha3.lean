import Conclave.Lib.Blocks
import Conclave.Lib.Codec
import Mathlib

/-! The sponge of SHA-3. Its permutation works in place on 25 lanes; it is that of the
definition, which works on a grid of five by five. -/

namespace Conclave.Crypto

open Conclave.Lib

namespace Sha3

/-- The lane at `(x, y)` is number `x + 5 * y`. -/
abbrev Lanes := Vector UInt64 25

def rotateLeft (w : UInt64) (k : ℕ) : UInt64 := w <<< UInt64.ofNat k ||| w >>> UInt64.ofNat (64 - k)

def rho : List ℕ :=
  [1, 3, 6, 10, 15, 21, 28, 36, 45, 55, 2, 14, 27, 41, 56, 8, 25, 43, 62, 18, 39, 61, 20, 44]

def pi : List (Fin 25) :=
  [10, 7, 11, 17, 18, 3, 5, 16, 8, 21, 24, 4, 15, 23, 19, 13, 12, 2, 20, 14, 22, 9, 6, 1]

def rc : List UInt64 :=
  [0x0000000000000001, 0x0000000000008082, 0x800000000000808a, 0x8000000080008000,
    0x000000000000808b, 0x0000000080000001, 0x8000000080008081, 0x8000000000008009,
    0x000000000000008a, 0x0000000000000088, 0x0000000080008009, 0x000000008000000a,
    0x000000008000808b, 0x800000000000008b, 0x8000000000008089, 0x8000000000008003,
    0x8000000000008002, 0x8000000000000080, 0x000000000000800a, 0x800000008000000a,
    0x8000000080008081, 0x8000000000008080, 0x0000000080000001, 0x8000000080008008]

def index (x y : Fin 5) : Fin 25 := ⟨x + 5 * y, by omega⟩

def theta (s : Lanes) : Lanes :=
  let c : Vector UInt64 5 := Vector.ofFn fun x => s.get (index x 0) ^^^ s.get (index x 1) ^^^
    s.get (index x 2) ^^^ s.get (index x 3) ^^^ s.get (index x 4)
  let d : Vector UInt64 5 := Vector.ofFn fun x => c.get (x + 4) ^^^ rotateLeft (c.get (x + 1)) 1
  Vector.ofFn fun i => s.get i ^^^ d.get ⟨i % 5, Nat.mod_lt _ (by decide)⟩

/-- The loop over both tables: the lane that is carried goes in, the one in its place comes out. -/
def carry : List (Fin 25 × ℕ) → UInt64 → Lanes → Lanes
  | [], _, s => s
  | p :: ps, t, s => carry ps (s.get p.1) (s.set p.1 (rotateLeft t p.2))

def rhoPi (s : Lanes) : Lanes := carry (pi.zip rho) s[1] s

def chi (s : Lanes) : Lanes :=
  Vector.ofFn fun i =>
    let x : Fin 5 := ⟨i % 5, Nat.mod_lt _ (by decide)⟩
    let y : Fin 5 := ⟨i / 5, by omega⟩
    s.get (index x y) ^^^ (~~~s.get (index (x + 1) y) &&& s.get (index (x + 2) y))

def iota (constant : UInt64) (s : Lanes) : Lanes := s.set 0 (s[0] ^^^ constant)

def keccak_f (s : Lanes) : Lanes :=
  rc.foldl (fun s constant => iota constant (chi (rhoPi (theta s)))) s

/-- A full buffer goes into the first lanes. -/
def absorb (rate : ℕ) (s : Lanes) (buf : Bytes) : Lanes :=
  keccak_f (Vector.ofFn fun i =>
    if i < rate / 8 then s.get i ^^^ UInt64.ofNat (leNat ((buf.drop (i * 8)).take 8)) else s.get i)

def push (rate : ℕ) (h : Buffered Lanes UInt8) (byte : UInt8) : Buffered Lanes UInt8 :=
  let buf := h.buffer ++ [byte]
  if buf.length = rate then ⟨absorb rate h.state buf, []⟩ else ⟨h.state, buf⟩

def keccak (out : ℕ) (data : Bytes) (rate : ℕ) (padByte : UInt8) : Bytes :=
  let h := data.foldl (push rate) ⟨Vector.replicate 25 0, []⟩
  let buf := h.buffer ++ padByte :: List.replicate (rate - h.buffer.length - 1) 0
  let s := absorb rate h.state (buf.modify (rate - 1) (· ||| 0x80))
  (List.range out).map fun i =>
    UInt8.ofNat ((s.getD (i / 8) 0).toNat / 2 ^ (8 * (i % 8)))

/-! ### The definition -/

/-- The lanes by their coordinates. -/
abbrev Grid := Fin 5 → Fin 5 → UInt64

namespace Grid

def column (A : Grid) (x : Fin 5) : UInt64 := A x 0 ^^^ A x 1 ^^^ A x 2 ^^^ A x 3 ^^^ A x 4

def theta (A : Grid) : Grid := fun x y =>
  A x y ^^^ (A.column (x - 1) ^^^ rotateLeft (A.column (x + 1)) 1)

/-- The walk from `(1, 0)` over all lanes but the first. -/
def walk (t : ℕ) : Fin 5 × Fin 5 := (fun p => (p.2, 2 * p.1 + 3 * p.2))^[t] (1, 0)

/-- A lane turns by the triangle number of the step that reaches it. -/
def offset (x y : Fin 5) : ℕ :=
  ((List.range 24).find? fun t => walk t = (x, y)).elim 0 fun t => (t + 1) * (t + 2) / 2 % 64

def rho (A : Grid) : Grid := fun x y => rotateLeft (A x y) (offset x y)

def pi (A : Grid) : Grid := fun x y => A (x + 3 * y) x

def chi (A : Grid) : Grid := fun x y => A x y ^^^ (~~~A (x + 1) y &&& A (x + 2) y)

/-- The shift register, its first cell the lowest bit. -/
def register (t : ℕ) : ℕ := (fun r => if r < 128 then 2 * r else (2 * r) ^^^ 0x171)^[t] 1

def roundConstant (i : ℕ) : UInt64 :=
  UInt64.ofNat ((List.range 7).map fun j => register (j + 7 * i) % 2 * 2 ^ (2 ^ j - 1)).sum

def iota (constant : UInt64) (A : Grid) : Grid := fun x y =>
  if x = 0 ∧ y = 0 then A x y ^^^ constant else A x y

def permutation (A : Grid) : Grid :=
  (List.range 24).foldl (fun A i => iota (roundConstant i) (chi (pi (rho (theta A))))) A

def absorb (rate : ℕ) (A : Grid) (block : Bytes) : Grid :=
  permutation fun x y =>
    if index x y < rate / 8 then
      A x y ^^^ UInt64.ofNat (leNat ((block.drop (index x y * 8)).take 8))
    else A x y

/-- The output is read a lane after the other, the low byte first. -/
def squeeze (out : ℕ) (A : Grid) : Bytes :=
  (List.range out).map fun i =>
    UInt8.ofNat ((A (Fin.ofNat 5 (i / 8)) (Fin.ofNat 5 (i / 8 / 5))).toNat / 2 ^ (8 * (i % 8)))

def sponge (rate out : ℕ) (msg : Bytes) : Bytes :=
  squeeze out ((fullBlocks rate msg).foldl (absorb rate) fun _ _ => 0)

end Grid

/-- The mark and the last bit fill a block, in one byte where only one is left. -/
def padding (rate : ℕ) (padByte : UInt8) (len : ℕ) : Bytes :=
  let left := rate - len % rate
  if left = 1 then [padByte ||| 0x80] else padByte :: List.replicate (left - 2) 0 ++ [0x80]

/-! ### The permutation -/

def grid (s : Lanes) : Grid := fun x y => s.get (index x y)

theorem get_ofFn {n : ℕ} (f : Fin n → UInt64) (i : Fin n) : (Vector.ofFn f).get i = f i :=
  Vector.getElem_ofFn ..

theorem index_mod (x y : Fin 5) : (⟨index x y % 5, Nat.mod_lt _ (by decide)⟩ : Fin 5) = x := by
  apply Fin.ext
  simp only [index]
  omega

theorem index_div (x y : Fin 5) (h : (index x y).val / 5 < 5) :
    (⟨index x y / 5, h⟩ : Fin 5) = y := by
  apply Fin.ext
  simp only [index]
  omega

theorem grid_theta (s : Lanes) : grid (theta s) = (grid s).theta := by
  funext x y
  have hprev : x + 4 = x - 1 := by
    revert x
    decide
  rw [grid, theta, get_ofFn, index_mod, get_ofFn, get_ofFn, get_ofFn, hprev]
  rfl

theorem grid_chi (s : Lanes) : grid (chi s) = (grid s).chi := by
  funext x y
  rw [grid, chi, get_ofFn]
  simp only [index_mod, index_div]
  rfl

theorem get_set (s : Lanes) (j k : Fin 25) (w : UInt64) :
    (s.set j w).get k = if k = j then w else s.get k := by
  have hget : ∀ s : Lanes, s.get k = s[k.val] := fun _ => rfl
  rw [hget, hget, Vector.getElem_set]
  simp only [Fin.ext_iff, eq_comm]

theorem rotateLeft_zero (w : UInt64) : rotateLeft w 0 = w := by
  have hturn : w >>> 64 = w := by
    apply UInt64.toNat_inj.mp
    rw [UInt64.toNat_shiftRight]
    rfl
  simp [rotateLeft, hturn]

theorem grid_iota (constant : UInt64) (s : Lanes) :
    grid (iota constant s) = (grid s).iota constant := by
  funext x y
  have hzero : index x y = 0 ↔ x = 0 ∧ y = 0 := by
    revert x y
    decide
  have hset : grid (iota constant s) x y =
      if index x y = 0 then s.get 0 ^^^ constant else s.get (index x y) := get_set s 0 _ _
  rw [hset, Grid.iota]
  simp only [hzero]
  split_ifs with h
  · rw [grid, hzero.mpr h]
  · rfl

/-- The lane that the loop leaves in a place, by the lanes before it. -/
def carried (s : Lanes) (k : Fin 25) : List (Fin 25 × ℕ) → UInt64 → UInt64
  | [], _ => s.get k
  | p :: ps, t => if k = p.1 then rotateLeft t p.2 else carried s k ps (s.get p.1)

theorem carried_of_notMem (s : Lanes) {k : Fin 25} {ps : List (Fin 25 × ℕ)} (t : UInt64)
    (h : k ∉ ps.map Prod.fst) : carried s k ps t = s.get k := by
  induction ps generalizing t with
  | nil => rfl
  | cons p ps ih =>
    rw [List.map_cons, List.mem_cons, not_or] at h
    rw [carried, if_neg h.1, ih _ h.2]

theorem carried_set (s : Lanes) {j k : Fin 25} {ps : List (Fin 25 × ℕ)} (t w : UInt64)
    (hj : j ∉ ps.map Prod.fst) (hk : k ≠ j) : carried (s.set j w) k ps t = carried s k ps t := by
  induction ps generalizing t with
  | nil => rw [carried, carried, get_set, if_neg hk]
  | cons p ps ih =>
    rw [List.map_cons, List.mem_cons, not_or] at hj
    rw [carried, carried, get_set, if_neg (Ne.symm hj.1), ih _ hj.2]

/-- No place is written twice, so that each lane goes where the tables say. -/
theorem carry_get (s : Lanes) (k : Fin 25) {ps : List (Fin 25 × ℕ)} (t : UInt64)
    (h : (ps.map Prod.fst).Nodup) : (carry ps t s).get k = carried s k ps t := by
  induction ps generalizing t s with
  | nil => rfl
  | cons p ps ih =>
    rw [List.map_cons, List.nodup_cons] at h
    rw [carry, ih _ _ h.2, carried]
    split_ifs with hk
    · rw [carried_of_notMem _ _ (hk ▸ h.1), get_set, if_pos hk]
    · exact carried_set _ _ _ h.1 hk

theorem grid_rhoPi (s : Lanes) : grid (rhoPi s) = (grid s).rho.pi := by
  funext x y
  rw [grid, rhoPi, carry_get _ _ _ (by decide)]
  by_cases hzero : x = 0 ∧ y = 0
  · rw [hzero.1, hzero.2]
    exact (rotateLeft_zero _).symm
  · fin_cases x <;> fin_cases y <;> first | rfl | exact absurd ⟨rfl, rfl⟩ hzero

theorem rc_eq : rc = (List.range 24).map Grid.roundConstant := by decide +kernel

theorem grid_keccak_f (s : Lanes) : grid (keccak_f s) = (grid s).permutation := by
  have hround : ∀ (s : Lanes) (i : ℕ),
      ((grid s).theta.rho.pi.chi).iota (Grid.roundConstant i) =
        grid (iota (Grid.roundConstant i) (chi (rhoPi (theta s)))) := by
    intro s i
    rw [grid_iota, grid_chi, grid_rhoPi, grid_theta]
  rw [keccak_f, rc_eq, List.foldl_map, Grid.permutation]
  exact (List.foldl_hom grid hround).symm

/-! ### The sponge -/

theorem grid_absorb (rate : ℕ) (s : Lanes) (block : Bytes) :
    grid (absorb rate s block) = (grid s).absorb rate block := by
  rw [absorb, grid_keccak_f, Grid.absorb]
  refine congrArg Grid.permutation ?_
  funext x y
  exact get_ofFn _ (index x y)

theorem push_eq {rate : ℕ} (hrate : 0 < rate) (s : Lanes) (data : Bytes) :
    data.foldl (push rate) ⟨s, []⟩ =
      ⟨(fullBlocks rate data).foldl (absorb rate) s, blockRest rate data⟩ := by
  have hnil : ([] : Bytes).length < rate := hrate
  induction data using List.reverseRecOn with
  | nil =>
    rw [fullBlocks_of_lt hnil, blockRest_of_lt hnil]
    rfl
  | append_singleton data b ih =>
    have hlt := length_blockRest hrate data
    rw [List.foldl_append, ih, List.foldl_cons, List.foldl_nil, push,
      fullBlocks_append_rest hrate, blockRest_append_rest hrate, List.foldl_append]
    dsimp only
    generalize absorb rate = f
    split_ifs with hfull
    · rw [← List.append_nil (blockRest rate data ++ [b]), fullBlocks_append hrate hfull,
        blockRest_append hrate hfull, fullBlocks_of_lt hnil, blockRest_of_lt hnil, List.append_nil,
        List.foldl_cons, List.foldl_nil]
    · have hshort : (blockRest rate data ++ [b]).length < rate := by
        rw [List.length_append, List.length_singleton] at hfull ⊢
        omega
      rw [fullBlocks_of_lt hshort, blockRest_of_lt hshort, List.foldl_nil]

theorem modify_last (f : UInt8 → UInt8) (l : Bytes) (a : UInt8) :
    (l ++ [a]).modify l.length f = l ++ [f a] := by
  induction l with
  | nil => rfl
  | cons b l ih => rw [List.cons_append, List.length_cons, List.modify_succ_cons, ih, List.cons_append]

/-- The buffer is closed with the padding. -/
theorem last_block {rate : ℕ} {buf : Bytes} (padByte : UInt8) (h : buf.length < rate) :
    (buf ++ padByte :: List.replicate (rate - buf.length - 1) 0).modify (rate - 1) (· ||| 0x80) =
      buf ++ padding rate padByte buf.length := by
  rw [padding, Nat.mod_eq_of_lt h]
  split_ifs with hone
  · have hlast : rate - 1 = buf.length := by omega
    rw [hone, hlast]
    exact modify_last ..
  · have hzeros : rate - buf.length - 1 = rate - buf.length - 2 + 1 := by omega
    have hlast : rate - 1 = (buf ++ padByte :: List.replicate (rate - buf.length - 2) 0).length := by
      rw [List.length_append, List.length_cons, List.length_replicate]
      omega
    have := modify_last (· ||| 0x80) (buf ++ padByte :: List.replicate (rate - buf.length - 2) 0) 0
    rw [← hlast] at this
    rw [hzeros, List.replicate_succ', ← List.cons_append, ← List.append_assoc, this,
      List.append_assoc]
    rfl

theorem length_padding {rate : ℕ} (hrate : 0 < rate) (padByte : UInt8) (data : Bytes) :
    (blockRest rate data ++ padding rate padByte data.length).length = rate := by
  have hlt := Nat.mod_lt data.length hrate
  have hrest : (blockRest rate data).length = data.length % rate := by
    rw [blockRest, List.length_drop, Nat.mod_eq_sub_mul_div]
  rw [List.length_append, hrest, padding]
  split_ifs with hone
  · rw [List.length_singleton]
    omega
  · rw [List.length_append, List.length_cons, List.length_replicate, List.length_singleton]
    omega

theorem getD_lane (s : Lanes) {i : ℕ} (h : i < 25) :
    s.getD i 0 = grid s (Fin.ofNat 5 i) (Fin.ofNat 5 (i / 5)) := by
  have hindex : index (Fin.ofNat 5 i) (Fin.ofNat 5 (i / 5)) = ⟨i, h⟩ := by
    apply Fin.ext
    simp only [index, Fin.ofNat]
    omega
  rw [grid, hindex, Vector.getD, Vector.get]
  simp [Array.getD, h]

theorem keccak_eq {rate out : ℕ} (hrate : 0 < rate) (hout : out ≤ 200) (data : Bytes)
    (padByte : UInt8) : keccak out data rate padByte =
      Grid.sponge rate out (data ++ padding rate padByte data.length) := by
  have hnil : ([] : Bytes).length < rate := hrate
  have hlt := length_blockRest hrate data
  have hpadding : padding rate padByte (blockRest rate data).length =
      padding rate padByte data.length := by
    rw [padding, padding, blockRest, List.length_drop, ← Nat.mod_eq_sub_mul_div, Nat.mod_mod]
  have hstart : grid (Vector.replicate 25 0) = fun _ _ => 0 := by
    funext x y
    exact Vector.getElem_replicate ..
  have hblocks : fullBlocks rate (data ++ padding rate padByte data.length) =
      fullBlocks rate data ++ [blockRest rate data ++ padding rate padByte data.length] := by
    have hlast := fullBlocks_append hrate (length_padding hrate padByte data) []
    rw [List.append_nil, fullBlocks_of_lt hnil] at hlast
    rw [fullBlocks_append_rest hrate, hlast]
  rw [keccak, push_eq hrate]
  dsimp only
  rw [last_block padByte hlt, hpadding, Grid.sponge, hblocks, List.foldl_append, ← hstart,
    List.foldl_hom grid fun s block => (grid_absorb rate s block).symm]
  refine List.map_congr_left fun i hi => ?_
  have hlane : i / 8 < 25 := by
    have := List.mem_range.mp hi
    omega
  rw [getD_lane _ hlane, List.foldl_cons, List.foldl_nil, grid_absorb]

end Sha3

def keccak256 (data : Bytes) : Bytes := Sha3.keccak 32 data 136 0x01

def sha3_256 (data : Bytes) : Bytes := Sha3.keccak 32 data 136 0x06

def sha3_512 (data : Bytes) : Bytes := Sha3.keccak 64 data 72 0x06

/-- Each of the three digests is what the sponge of the definition makes of the message with its
padding. -/
theorem sha3_exact (data : Bytes) :
    keccak256 data = Sha3.Grid.sponge 136 32 (data ++ Sha3.padding 136 0x01 data.length) ∧
      sha3_256 data = Sha3.Grid.sponge 136 32 (data ++ Sha3.padding 136 0x06 data.length) ∧
      sha3_512 data = Sha3.Grid.sponge 72 64 (data ++ Sha3.padding 72 0x06 data.length) :=
  ⟨Sha3.keccak_eq (by decide) (by decide) data _, Sha3.keccak_eq (by decide) (by decide) data _,
    Sha3.keccak_eq (by decide) (by decide) data _⟩

end Conclave.Crypto
