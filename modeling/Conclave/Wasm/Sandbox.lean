import Conclave.Wasm.Memory

/-! What the memory opcodes have to do, with addresses as natural numbers, and when they do
it: always, but for a sum of base and offset that wraps around into the memory. Growing does
what it has to in every memory that the opcodes lead to. -/

namespace Conclave.Wasm

open Lib

variable {m m' : Memory} {base offset : BitVec 32} {n address size : ℕ} {bytes : Bytes}

/-! ### Addresses -/

theorem toNat_add_of_lt (h : base.toNat + offset.toNat < 2 ^ 32) :
    (base + offset).toNat = base.toNat + offset.toNat := by
  rw [BitVec.toNat_add, Nat.mod_eq_of_lt h]

theorem toNat_add_of_le (h : 2 ^ 32 ≤ base.toNat + offset.toNat) :
    (base + offset).toNat + 2 ^ 32 = base.toNat + offset.toNat := by
  have hb := base.isLt
  have ho := offset.isLt
  rw [BitVec.toNat_add]
  omega

/-! ### Reading and writing a range -/

namespace Memory

theorem size_write (h : address + bytes.length ≤ m.size) : (m.write address bytes).size = m.size := by
  simp only [size, write, List.length_append, List.length_take, List.length_drop] at h ⊢
  omega

/-- Writing puts the bytes into its range and leaves all others. -/
theorem write_getElem? (h : address + bytes.length ≤ m.size) (i : ℕ) :
    (m.write address bytes).data[i]? =
      if address ≤ i ∧ i < address + bytes.length then bytes[i - address]? else m.data[i]? := by
  have htake : (m.data.take address).length = address :=
    List.length_take_of_le (le_trans (Nat.le_add_right _ _) h)
  rw [write, List.append_assoc]
  by_cases hlow : i < address
  · rw [List.getElem?_append_left (by rw [htake]; exact hlow), List.getElem?_take_of_lt hlow,
      if_neg fun hh => absurd hh.1 (Nat.not_le.mpr hlow)]
  · have hlow := Nat.not_lt.mp hlow
    rw [List.getElem?_append_right (by rw [htake]; exact hlow), htake]
    by_cases hhigh : i < address + bytes.length
    · rw [List.getElem?_append_left (by omega), if_pos ⟨hlow, hhigh⟩]
    · rw [List.getElem?_append_right (by omega), List.getElem?_drop, if_neg fun hh => hhigh hh.2]
      congr 1
      omega

end Memory

theorem StoreOp.length_bytes {op : StoreOp} {v : Value} (h : op.bytes v = some bytes) :
    bytes.length = op.width := by
  cases op <;> cases v <;> cases h <;> simp [toLe, toBe, StoreOp.width]

/-! ### Sandboxed -/

/-- A load from a memory of this size pushes what is in the range that starts at the sum of
base and offset, or traps. -/
def LoadOp.Sandboxed (op : LoadOp) (base offset : BitVec 32) (size : ℕ) : Prop :=
  ∀ (m : Memory) (rest : List Value) (pc : ℕ), m.size = size → rest.length < stackLimit →
    op.exec offset ⟨.i32 base :: rest, some m, pc⟩ =
      if base.toNat + offset.toNat + op.width ≤ size then
        (.ok (), ⟨op.value (m.read (base.toNat + offset.toNat) op.width) :: rest, some m, pc⟩)
      else (.error .memoryOutOfBounds, ⟨rest, some m, pc⟩)

/-- A store into a memory of this size writes that range, or traps and leaves the memory. -/
def StoreOp.Sandboxed (op : StoreOp) (base offset : BitVec 32) (size : ℕ) : Prop :=
  ∀ (m : Memory) (v : Value) (bytes : Bytes) (rest : List Value) (pc : ℕ), m.size = size →
    op.bytes v = some bytes →
    op.exec offset ⟨v :: .i32 base :: rest, some m, pc⟩ =
      if base.toNat + offset.toNat + op.width ≤ size then
        (.ok (), ⟨rest, some (m.write (base.toNat + offset.toNat) bytes), pc⟩)
      else (.error .memoryOutOfBounds, ⟨rest, some m, pc⟩)

theorem push_eq (v : Value) {rest : List Value} (o : Option Memory) (pc : ℕ)
    (hrest : rest.length < stackLimit) : push v ⟨rest, o, pc⟩ = (.ok (), ⟨v :: rest, o, pc⟩) := by
  change (if stackLimit ≤ rest.length then throw .stackOverflow
    else set (⟨v :: rest, o, pc⟩ : Machine) : Exec Unit) _ = _
  rw [if_neg (Nat.not_le.mpr hrest)]
  rfl

/-- What runs after the check runs when the range fits, from the same state. -/
theorem check_bind (m : Memory) (ea : BitVec 32) (len : ℕ) (x : Exec Unit) (s : Machine) :
    (liftM (m.check ea len) >>= fun _ => x : Exec Unit) s =
      if ea.toNat + len ≤ m.size then x s else (.error .memoryOutOfBounds, s) := by
  by_cases h : ea.toNat + len ≤ m.size
  · rw [if_pos h]
    apply run_ok
    change (m.check ea len, s) = _
    rw [Memory.check, if_neg (Nat.not_lt.mpr h)]
  · rw [if_neg h]
    apply run_error
    change (m.check ea len, s) = _
    rw [Memory.check, if_pos (Nat.not_le.mp h)]

theorem LoadOp.exec_eq (op : LoadOp) (m : Memory) {rest : List Value} (pc : ℕ)
    (hrest : rest.length < stackLimit) :
    op.exec offset ⟨.i32 base :: rest, some m, pc⟩ =
      if (base + offset).toNat + op.width ≤ m.size then
        (.ok (), ⟨op.value (m.read (base + offset).toNat op.width) :: rest, some m, pc⟩)
      else (.error .memoryOutOfBounds, ⟨rest, some m, pc⟩) := by
  rw [← push_eq _ (some m) pc hrest]
  exact check_bind m (base + offset) op.width _ ⟨rest, some m, pc⟩

/-- What a store does with the bytes of its value. -/
def StoreOp.storeBytes (op : StoreOp) (offset : BitVec 32) : Option Bytes → Exec Unit
  | none => throw .typeMismatch
  | some bytes => do
    let base ← popI32
    let m ← memory
    let ea := base + offset
    m.check ea op.width
    setMemory (m.write ea.toNat bytes)

theorem StoreOp.exec_eq (op : StoreOp) (m : Memory) {v : Value} (h : op.bytes v = some bytes)
    (rest : List Value) (pc : ℕ) :
    op.exec offset ⟨v :: .i32 base :: rest, some m, pc⟩ =
      if (base + offset).toNat + op.width ≤ m.size then
        (.ok (), ⟨rest, some (m.write (base + offset).toNat bytes), pc⟩)
      else (.error .memoryOutOfBounds, ⟨rest, some m, pc⟩) := by
  change op.storeBytes offset (op.bytes v) _ = _
  rw [h]
  exact check_bind m (base + offset) op.width _ ⟨rest, some m, pc⟩

/-! ### When they are -/

/-- The address does not wrap around into the memory. -/
def Unwrapped (base offset : BitVec 32) (width size : ℕ) : Prop :=
  base.toNat + offset.toNat < 2 ^ 32 ∨ size < (base + offset).toNat + width

instance : Decidable (Unwrapped base offset n size) := inferInstanceAs (Decidable (_ ∨ _))

/-- The sum and what it wraps around to are inside or outside together. -/
theorem Unwrapped.inside_iff (h : Unwrapped base offset n size) :
    (base + offset).toNat + n ≤ size ↔ base.toNat + offset.toNat + n ≤ size := by
  by_cases hlt : base.toNat + offset.toNat < 2 ^ 32
  · rw [toNat_add_of_lt hlt]
  · have hle := toNat_add_of_le (Nat.not_lt.mp hlt)
    have hout := h.resolve_left hlt
    omega

theorem Unwrapped.address_eq (h : Unwrapped base offset n size)
    (hin : base.toNat + offset.toNat + n ≤ size) :
    (base + offset).toNat = base.toNat + offset.toNat :=
  toNat_add_of_lt (h.resolve_right fun hout => Nat.not_lt.mpr (h.inside_iff.mpr hin) hout)

/-- A memory of zeros with a one at an address. -/
def marked (address size : ℕ) : Memory :=
  ⟨List.replicate address 0 ++ 1 :: List.replicate (size - address - 1) 0, none⟩

theorem size_marked (h : address < size) : (marked address size).size = size := by
  simp only [marked, Memory.size, List.length_append, List.length_replicate, List.length_cons]
  omega

theorem read_marked (h : address + (n + 1) ≤ size) :
    (marked address size).read address (n + 1) = 1 :: List.replicate n 0 := by
  rw [Memory.read, marked, List.drop_left' (List.length_replicate), List.take_succ_cons,
    List.take_replicate]
  congr 2
  omega

theorem read_marked_after {after : ℕ} (h : address < after) (hfit : after + n ≤ size) :
    (marked address size).read after n = List.replicate n 0 := by
  obtain ⟨k, rfl⟩ := Nat.exists_eq_add_of_lt h
  rw [Memory.read, marked, show address + k + 1 = (List.replicate address (0 : UInt8)).length +
    (k + 1) by rw [List.length_replicate]; omega, List.drop_length_add_append,
    List.drop_succ_cons, List.drop_replicate, List.take_replicate]
  congr 1
  omega

theorem LoadOp.value_marked (op : LoadOp) :
    op.value (1 :: List.replicate (op.width - 1) 0) ≠ op.value (List.replicate op.width 0) := by
  cases op <;> decide

theorem LoadOp.sandboxed_iff (op : LoadOp) :
    op.Sandboxed base offset size ↔ Unwrapped base offset op.width size := by
  constructor
  · intro h
    by_contra hbad
    obtain ⟨hwrap, hin⟩ := not_or.mp hbad
    have hsum := toNat_add_of_le (Nat.not_lt.mp hwrap)
    have hin := Nat.not_lt.mp hin
    obtain ⟨k, hwidth⟩ : ∃ k, op.width = k + 1 := by cases op <;> exact ⟨_, rfl⟩
    have hm := size_marked (show (base + offset).toNat < size by omega)
    -- A one where the sum wraps around to, which the range itself does not reach.
    have hrun := h _ [] 0 hm (by decide)
    rw [op.exec_eq _ 0 (by decide), hm, if_pos hin] at hrun
    split at hrun
    · rename_i hfit
      have hvalue := op.value_marked
      injection hrun with _ hstate
      injection hstate with hstack
      injection hstack with hread
      rw [hwidth] at hin hfit hread hvalue
      rw [read_marked hin, read_marked_after (by omega) hfit] at hread
      exact hvalue hread
    · cases hrun
  · intro h m rest pc hm hrest
    subst hm
    rw [op.exec_eq m pc hrest]
    by_cases hin : base.toNat + offset.toNat + op.width ≤ m.size
    · rw [if_pos (h.inside_iff.mpr hin), if_pos hin, h.address_eq hin]
    · rw [if_neg (mt h.inside_iff.mp hin), if_neg hin]

/-- A value whose first byte is a one. -/
def StoreOp.one : StoreOp → Value
  | i32Store | i32Store8 | i32Store16 => .i32 1
  | i64Store | i64Store8 | i64Store16 | i64Store32 => .i64 1
  | f32Store => .f32 1
  | f64Store => .f64 1

theorem StoreOp.bytes_one (op : StoreOp) :
    op.bytes op.one = some (1 :: List.replicate (op.width - 1) 0) := by
  cases op <;> decide

theorem StoreOp.sandboxed_iff (op : StoreOp) :
    op.Sandboxed base offset size ↔ Unwrapped base offset op.width size := by
  constructor
  · intro h
    by_contra hbad
    obtain ⟨hwrap, hin⟩ := not_or.mp hbad
    have hsum := toNat_add_of_le (Nat.not_lt.mp hwrap)
    have hin := Nat.not_lt.mp hin
    have hlen := op.length_bytes op.bytes_one
    have hwidth : 0 < op.width := by cases op <;> decide
    let m : Memory := ⟨List.replicate size 0, none⟩
    have hm : m.size = size := List.length_replicate
    -- The one goes to where the sum wraps around to, which the range does not reach.
    have hrun := h m op.one _ [] 0 hm op.bytes_one
    rw [op.exec_eq m op.bytes_one, hm, if_pos hin] at hrun
    split at hrun
    · rename_i hfit
      injection hrun with _ hstate
      injection hstate with _ hmemory
      have hdata := congrArg (fun m => m.data[(base + offset).toNat]?) (Option.some.inj hmemory)
      rw [Memory.write_getElem? (by rw [hlen, hm]; exact hin),
        Memory.write_getElem? (by rw [hlen, hm]; exact hfit), if_pos (by omega),
        if_neg (by omega), Nat.sub_self] at hdata
      have hzero : m.data[(base + offset).toNat]? = some 0 :=
        List.getElem?_replicate_of_lt (by omega)
      rw [hzero] at hdata
      cases hdata
    · cases hrun
  · intro h m v bytes rest pc hm hv
    subst hm
    rw [op.exec_eq m hv]
    by_cases hin : base.toNat + offset.toNat + op.width ≤ m.size
    · rw [if_pos (h.inside_iff.mpr hin), if_pos hin, h.address_eq hin]
    · rw [if_neg (mt h.inside_iff.mp hin), if_neg hin]

/-! ### Growing -/

/-- So many whole pages. -/
def Paged (m : Memory) : Prop := m.size = m.pages.toNat * pageSize

/-- Growing answers the old number of pages and appends zeros, within the maximum, or
answers minus one and leaves the memory. -/
def Grows (m : Memory) (delta : BitVec 32) : Prop :=
  m.grow delta = (-1, m) ∨
    m.grow delta =
        (m.pages, { m with data := m.data ++ List.replicate (delta.toNat * pageSize) 0 }) ∧
      m.size = m.pages.toNat * pageSize ∧
      ∀ mx, m.maxPages = some mx → m.pages.toNat + delta.toNat ≤ mx.toNat

theorem pages_eq {k : ℕ} (hm : m.size = k * pageSize) (hk : k < 2 ^ 32) : m.pages.toNat = k := by
  rw [Memory.pages, hm, Nat.mul_div_cancel k (by decide), BitVec.toNat_ofNat, Nat.mod_eq_of_lt hk]

theorem Paged.of_pages {k : ℕ} (hm : m.size = k * pageSize) (hk : k < 2 ^ 32) : Paged m := by
  rw [Paged, pages_eq hm hk, hm]

theorem paged_new (minPages : BitVec 32) (maxPages : Option (BitVec 32)) :
    Paged (Memory.new minPages maxPages) :=
  .of_pages List.length_replicate minPages.isLt

theorem resize_of_le {data : Bytes} (h : data.length ≤ n) :
    resize data n = data ++ List.replicate (n - data.length) 0 := by
  rw [resize, List.take_of_length_le h]

/-- What growing can do: the pages that it leaves fit below four gibibytes. -/
theorem Paged.grow_cases (h : Paged m) (delta : BitVec 32) :
    m.grow delta = (-1, m) ∨ m.pages.toNat + delta.toNat < 2 ^ 16 ∧ m.grow delta =
        (m.pages, { m with data := m.data ++ List.replicate (delta.toNat * pageSize) 0 }) ∧
      ∀ mx, m.maxPages = some mx → m.pages.toNat + delta.toNat ≤ mx.toNat := by
  simp only [Memory.grow]
  split
  · exact .inl rfl
  · rename_i hmax
    split
    · exact .inl rfl
    · rename_i hfit
      have hpages := m.pages.isLt
      simp only [pageSize] at hfit
      have hnew : min (m.pages.toNat + delta.toNat) (2 ^ 32 - 1) = m.pages.toNat + delta.toNat := by
        omega
      rw [hnew] at hmax ⊢
      refine .inr ⟨by omega, ?_, fun mx hmx => ?_⟩
      · have hsize : m.data.length = m.pages.toNat * pageSize := h
        rw [resize_of_le (by rw [hsize]; exact Nat.mul_le_mul_right _ (Nat.le_add_right _ _)),
          hsize, Nat.add_mul, Nat.add_sub_cancel_left]
      · rw [hmx] at hmax
        exact Nat.not_lt.mp fun hlt => hmax (decide_eq_true hlt)

theorem Paged.grows (h : Paged m) (delta : BitVec 32) : Grows m delta :=
  (h.grow_cases delta).imp_right fun ⟨_, hgrow, hmax⟩ => ⟨hgrow, h, hmax⟩

theorem Paged.grow (h : Paged m) (delta : BitVec 32) : Paged (m.grow delta).2 := by
  obtain hgrow | ⟨hlt, hgrow, -⟩ := h.grow_cases delta
  · rw [hgrow]
    exact h
  · rw [hgrow]
    have hsize : m.data.length = m.pages.toNat * pageSize := h
    refine .of_pages (k := m.pages.toNat + delta.toNat) ?_ (by omega)
    simp only [Memory.size, List.length_append, List.length_replicate, hsize, Nat.add_mul]

theorem Paged.write (h : Paged m) (hfit : address + bytes.length ≤ m.size) :
    Paged (m.write address bytes) := by
  rw [Paged, Memory.pages, Memory.size_write hfit]
  exact h

/-! ### Runs -/

variable {α β : Type} {P : Memory → Prop}

/-- The memory, if there is one, is such. -/
def Machine.Has (P : Memory → Prop) (s : Machine) : Prop := ∀ m, s.memory = some m → P m

/-- An action keeps what the memory is like, and answers so. -/
def Keeps (P : Memory → Prop) (x : Exec α) (Q : α → Prop) : Prop :=
  ∀ s, Machine.Has P s → Machine.Has P (x s).2 ∧ ∀ a, (x s).1 = .ok a → Q a

theorem Keeps.bind {x : Exec α} {f : α → Exec β} {Q : α → Prop} {R : β → Prop}
    (hx : Keeps P x Q) (hf : ∀ a, Q a → Keeps P (f a) R) : Keeps P (x >>= f) R := by
  intro s hs
  obtain ⟨hs', hq⟩ := hx s hs
  rw [run_bind]
  split
  · rename_i a s' heq
    rw [heq] at hs' hq
    exact hf a (hq a rfl) s' hs'
  · rename_i e s' heq
    rw [heq] at hs'
    exact ⟨hs', nofun⟩

theorem Keeps.pure {a : α} {Q : α → Prop} (h : Q a) : Keeps P (Pure.pure a) Q :=
  fun _ hs => ⟨hs, fun _ ha => Except.ok.inj ha ▸ h⟩

theorem keeps_throw (e : WasmError) {Q : α → Prop} : Keeps P (throw e) Q :=
  fun _ hs => ⟨hs, nofun⟩

theorem keeps_get : Keeps P get (Machine.Has P) := fun _ hs => ⟨hs, fun _ ha => Except.ok.inj ha ▸ hs⟩

theorem keeps_set {s : Machine} (h : s.Has P) : Keeps P (set s) fun _ => True :=
  fun _ _ => ⟨h, fun _ _ => trivial⟩

theorem keeps_push (v : Value) : Keeps P (push v) fun _ => True :=
  keeps_get.bind fun s hs => by
    split
    · exact keeps_throw _
    · exact keeps_set hs

theorem keeps_pop : Keeps P pop fun _ => True :=
  keeps_get.bind fun s hs => by
    split
    · exact keeps_throw _
    · exact (keeps_set hs).bind fun _ _ => .pure trivial

theorem keeps_popI32 : Keeps P popI32 fun _ => True :=
  keeps_pop.bind fun v _ => by
    split
    · exact .pure trivial
    · exact keeps_throw _

theorem keeps_memory : Keeps P memory P :=
  keeps_get.bind fun s hs => by
    split
    · exact .pure (hs _ ‹_›)
    · exact keeps_throw _

theorem keeps_setMemory (h : P m) : Keeps P (setMemory m) fun _ => True :=
  fun _ _ => ⟨fun _ hm => Option.some.inj hm ▸ h, fun _ _ => trivial⟩

theorem keeps_check (m : Memory) (ea : BitVec 32) (len : ℕ) :
    Keeps P (liftM (m.check ea len) : Exec Unit) fun _ => ea.toNat + len ≤ m.size := by
  refine fun s hs => ⟨hs, fun _ ha => ?_⟩
  change m.check ea len = _ at ha
  rw [Memory.check] at ha
  split at ha
  · cases ha
  · exact Nat.not_lt.mp ‹_›

theorem keeps_readU32 (code : Bytes) : Keeps P (readU32 code) fun _ => True :=
  keeps_get.bind fun s hs => by
    split
    · exact keeps_throw _
    · exact (keeps_set hs).bind fun _ _ => .pure trivial

theorem keeps_readMemarg (code : Bytes) : Keeps P (readMemarg code) fun _ => True :=
  (keeps_readU32 code).bind fun _ _ => (keeps_readU32 code).bind fun _ _ => .pure trivial

theorem LoadOp.keeps (op : LoadOp) (offset : BitVec 32) : Keeps P (op.exec offset) fun _ => True :=
  keeps_popI32.bind fun _ _ => keeps_memory.bind fun m _ =>
    (keeps_check m _ _).bind fun _ _ => keeps_push _

theorem StoreOp.keeps (op : StoreOp) (offset : BitVec 32) :
    Keeps Paged (op.exec offset) fun _ => True :=
  keeps_pop.bind fun v _ => by
    split
    · exact keeps_throw _
    · rename_i bytes hbytes
      refine keeps_popI32.bind fun _ _ => keeps_memory.bind fun m hm =>
        (keeps_check m _ _).bind fun _ hfit => keeps_setMemory (hm.write ?_)
      rw [op.length_bytes hbytes]
      exact hfit

theorem keeps_memoryGrow : Keeps Paged memoryGrow fun _ => True :=
  keeps_popI32.bind fun n _ => keeps_get.bind fun s hs => by
    split
    · exact keeps_push _
    · rename_i m hm
      exact (keeps_setMemory ((hs m hm).grow n)).bind fun _ _ => keeps_push _

/-- Every opcode leaves whole pages. -/
theorem MemoryOp.keeps (code : Bytes) (op : MemoryOp) :
    Keeps Paged (op.exec code) fun _ => True := by
  cases op with
  | load op => exact (keeps_readMemarg code).bind fun _ _ => op.keeps _
  | store op => exact (keeps_readMemarg code).bind fun _ _ => op.keeps _
  | size => exact (keeps_readU32 code).bind fun _ _ => keeps_get.bind fun _ _ => keeps_push _
  | grow => exact (keeps_readU32 code).bind fun _ _ => keeps_memoryGrow

/-- A memory opcode of a running function, with the stack it finds. -/
structure Activation where
  op : MemoryOp
  code : Bytes
  pc : ℕ
  stack : List Value

/-- The memory that it leaves. -/
def Memory.after (m : Memory) (a : Activation) : Memory :=
  ((a.op.exec a.code ⟨a.stack, some m, a.pc⟩).2.memory).getD m

theorem Paged.after (h : Paged m) (a : Activation) : Paged (m.after a) := by
  have hs := (a.op.keeps a.code ⟨a.stack, some m, a.pc⟩ fun _ hm => Option.some.inj hm ▸ h).1
  rw [Memory.after]
  cases hm : (a.op.exec a.code ⟨a.stack, some m, a.pc⟩).2.memory with
  | none => exact h
  | some m' => exact hs m' hm

theorem Paged.run (h : Paged m) (acts : List Activation) : Paged (acts.foldl Memory.after m) := by
  induction acts generalizing m with
  | nil => exact h
  | cons a acts ih => exact ih (h.after a)

/-- An access to memory. -/
inductive AccessOp where
  | load (op : LoadOp)
  | store (op : StoreOp)
  deriving DecidableEq, Repr

def AccessOp.width : AccessOp → ℕ
  | load op => op.width
  | store op => op.width

def AccessOp.Sandboxed : AccessOp → BitVec 32 → BitVec 32 → ℕ → Prop
  | load op => op.Sandboxed
  | store op => op.Sandboxed

theorem AccessOp.sandboxed_iff (op : AccessOp) :
    op.Sandboxed base offset size ↔ Unwrapped base offset op.width size := by
  cases op with
  | load op => exact op.sandboxed_iff
  | store op => exact op.sandboxed_iff

/-- After any run of memory opcodes on a new memory: an access to a memory of its size is
sandboxed exactly when its address does not wrap around into it, and growing is right. -/
theorem wasm_memory (minPages : BitVec 32) (maxPages : Option (BitVec 32))
    (acts : List Activation) (op : AccessOp) (base offset delta : BitVec 32) :
    (op.Sandboxed base offset (acts.foldl Memory.after (.new minPages maxPages)).size ↔
      Unwrapped base offset op.width (acts.foldl Memory.after (.new minPages maxPages)).size) ∧
      Grows (acts.foldl Memory.after (.new minPages maxPages)) delta :=
  ⟨op.sandboxed_iff, ((paged_new minPages maxPages).run acts).grows delta⟩

/-- A base at the end of the address space reaches the first byte of a memory of one page. -/
theorem wasm_memory_fails :
    ¬ ∀ (minPages : BitVec 32) (maxPages : Option (BitVec 32)) (acts : List Activation)
        (op : AccessOp) (base offset : BitVec 32),
      op.Sandboxed base offset (acts.foldl Memory.after (.new minPages maxPages)).size := by
  intro hall
  have h := (AccessOp.sandboxed_iff _).mp (hall 1 none [] (.load .i32Load8U) (-1) 1)
  have hsize : (Memory.new 1 none).size = 65536 := List.length_replicate
  change Unwrapped (-1) 1 1 (Memory.new 1 none).size at h
  rw [hsize] at h
  revert h
  decide

end Conclave.Wasm
