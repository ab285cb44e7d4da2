import Conclave.Lib.Bytes

/-! Readers and what they read. A reader takes a value off the front of a buffer,
carries a state along, and fails on a buffer that is too short. `Reads` says which
bytes a reader turns into which value; it goes along binds and repetitions, so a reader
is matched with a writer field by field, and with it goes that no part of the bytes is
enough. `Returns` says what every value of a reader has, whatever the bytes. -/

namespace Conclave.Lib

/-! ### Little-endian integers and text -/

/-- Little-endian encoding of the low `8 * k` bits of `n`. -/
def toLe (k n : ℕ) : Bytes := (toBe k n).reverse

def leNat (b : Bytes) : ℕ := beNat b.reverse

@[simp] theorem toLe_length (k n : ℕ) : (toLe k n).length = k := by simp [toLe]

theorem leNat_toLe (k n : ℕ) : leNat (toLe k n) = n % 2 ^ (8 * k) := by
  rw [leNat, toLe, List.reverse_reverse, beNat_toBe]

theorem beNat_lt (b : Bytes) : beNat b < 2 ^ (8 * b.length) := by
  induction b with
  | nil => simp [beNat]
  | cons a b ih =>
    have ha := a.toNat_lt
    rw [beNat, List.length_cons, Nat.mul_succ, Nat.pow_add]
    nlinarith

theorem leNat_lt (b : Bytes) : leNat b < 2 ^ (8 * b.length) := by
  simpa [leNat] using beNat_lt b.reverse

/-- The bytes of a string. -/
def utf8 (s : String) : Bytes := s.toByteArray.data.toList

def fromUtf8 (b : Bytes) : Option String := String.fromUTF8? ⟨b.toArray⟩

theorem fromUtf8_utf8 (s : String) : fromUtf8 (utf8 s) = some s := by
  have hb : (⟨(utf8 s).toArray⟩ : ByteArray) = s.toByteArray := by simp [utf8]
  simp only [fromUtf8, hb, String.fromUTF8?]
  rw [dif_pos s.isValidUTF8]
  rfl

theorem utf8_of_fromUtf8 {b : Bytes} {s : String} (h : fromUtf8 b = some s) : utf8 s = b := by
  unfold fromUtf8 String.fromUTF8? at h
  split_ifs at h with hv
  rw [← Option.some.inj h]
  simp [utf8, String.fromUTF8]

/-! ### Readers -/

/-- A reader over a buffer and a state. -/
def Reader (σ α : Type) := Bytes → σ → Option α × Bytes × σ

namespace Reader

variable {σ α β : Type}

instance : Monad (Reader σ) where
  pure a := fun b s => (some a, b, s)
  bind r f := fun b s =>
    match r b s with
    | (some a, b, s) => f a b s
    | (none, b, s) => (none, b, s)

def fail : Reader σ α := fun b s => (none, b, s)

/-- The next `n` bytes. -/
def take (n : ℕ) : Reader σ Bytes := fun b s =>
  if n ≤ b.length then (some (b.take n), b.drop n, s) else (none, b, s)

/-- A little-endian integer of `k` bytes. -/
def uint (k : ℕ) : Reader σ ℕ := do
  let b ← take k
  return leNat b

/-- Change the state, and give a value. -/
def state (f : σ → α × σ) : Reader σ α := fun b s => (some (f s).1, b, (f s).2)

/-- Bytes after their length in four bytes. -/
def bytes : Reader σ Bytes := do
  let n ← uint 4
  take n

def str : Reader σ String := do
  let b ← bytes
  match fromUtf8 b with
  | some s => return s
  | none => fail

def times : ℕ → Reader σ α → Reader σ (List α)
  | 0, _ => return []
  | n + 1, r => do
    let a ← r
    let as ← times n r
    return a :: as

/-- Another reader on a slice of its own, of which it may leave a part. -/
def nested (r : Reader σ α) (slice : Bytes) : Reader σ α := fun b s =>
  ((r slice s).1, b, (r slice s).2.2)

theorem bind_run (r : Reader σ α) (f : α → Reader σ β) (b : Bytes) (s : σ) :
    (r >>= f) b s = match r b s with
      | (some a, b, s) => f a b s
      | (none, b, s) => (none, b, s) := rfl

/-! ### What a reader reads -/

/-- On a buffer that starts with `w` the reader takes `w` and gives `a`, and the state
moves from `s` to `s'`; on a part of `w` it fails. -/
structure Reads (r : Reader σ α) (w : Bytes) (s s' : σ) (a : α) : Prop where
  whole : ∀ rest, r (w ++ rest) s = (some a, rest, s')
  part : ∀ p, p <+: w → p ≠ w → (r p s).1 = none

variable {r : Reader σ α} {f : α → Reader σ β} {w w' : Bytes} {s s' s'' : σ} {a : α} {c : β}

theorem Reads.pure (a : α) (s : σ) : Reads (Pure.pure a : Reader σ α) [] s s a where
  whole _ := rfl
  part _ hp hne := absurd (List.prefix_nil.mp hp) hne

/-- What the first reader reads, then what the second does. -/
theorem Reads.bind (h : Reads r w s s' a) (h' : Reads (f a) w' s' s'' c) :
    Reads (r >>= f) (w ++ w') s s'' c where
  whole rest := by
    rw [bind_run, List.append_assoc, h.whole]
    exact h'.whole rest
  part p hp hne := by
    rw [bind_run]
    obtain hpw | hwp := List.prefix_or_prefix_of_prefix hp (List.prefix_append w w')
    · by_cases heq : p = w
      · subst heq
        have hw := h.whole []
        rw [List.append_nil] at hw
        rw [hw]
        refine h'.part [] List.nil_prefix fun hnil => hne ?_
        rw [← hnil, List.append_nil]
      · have hpart := h.part p hpw heq
        rcases hr : r p s with ⟨o, b, t⟩
        rw [hr] at hpart
        simp only at hpart
        rw [hpart]
    · obtain ⟨q, rfl⟩ := hwp
      rw [h.whole q]
      refine h'.part q ((List.prefix_append_right_inj w).mp hp) fun hq => hne ?_
      rw [hq]

/-- A continuation that reads nothing more. -/
theorem Reads.bind_eq (h : Reads r w s s' a) (hf : f a = Pure.pure c) :
    Reads (r >>= f) w s s' c := by
  have h' := h.bind (hf ▸ Reads.pure c s')
  rwa [List.append_nil] at h'

theorem Reads.map {g : α → β} (h : Reads r w s s' a) :
    Reads (do let x ← r; return g x) w s s' (g a) := h.bind_eq rfl

theorem Reads.cast {a' : α} {v : Bytes} (h : Reads r w s s' a) (hw : w = v) (ha : a = a') :
    Reads r v s s' a' := by
  subst hw ha
  exact h

theorem reads_take (w : Bytes) (s : σ) : Reads (take w.length) w s s w where
  whole rest := by
    simp [take]
  part p hp hne := by
    have hlt : p.length < w.length :=
      lt_of_le_of_ne hp.length_le fun hl => hne (hp.eq_of_length hl)
    simp only [take, if_neg (not_le.mpr hlt)]

theorem reads_uint {k n : ℕ} (hn : n < 2 ^ (8 * k)) (s : σ) :
    Reads (uint k) (toLe k n) s s n := by
  have h := (reads_take (toLe k n) s).map (g := leNat)
  rw [toLe_length] at h
  exact h.cast rfl (by rw [leNat_toLe, Nat.mod_eq_of_lt hn])

theorem reads_state (g : σ → α × σ) (s : σ) : Reads (state g) [] s (g s).2 (g s).1 where
  whole _ := rfl
  part _ hp hne := absurd (List.prefix_nil.mp hp) hne

theorem reads_bytes {w : Bytes} (hw : w.length < 2 ^ 32) (s : σ) :
    Reads bytes (toLe 4 w.length ++ w) s s w :=
  (reads_uint (k := 4) hw s).bind (reads_take w s)

theorem reads_str {t : String} (ht : (utf8 t).length < 2 ^ 32) (s : σ) :
    Reads str (toLe 4 (utf8 t).length ++ utf8 t) s s t :=
  (reads_bytes ht s).bind_eq (by rw [fromUtf8_utf8])

/-- A list is read element by element. -/
theorem reads_times {γ : Type} {as : List γ} {write : γ → Bytes} {g : γ → α} (s : σ)
    (h : ∀ a ∈ as, Reads r (write a) s s (g a)) :
    Reads (times as.length r) (as.flatMap write) s s (as.map g) := by
  induction as with
  | nil => exact .pure [] s
  | cons a as ih =>
    have hrest := (ih fun a' ha' => h a' (List.mem_cons_of_mem a ha')).map (g := (g a :: ·))
    exact (h a List.mem_cons_self).bind hrest

/-! ### What a reader refuses -/

/-- On every buffer that starts with `w` the reader fails. -/
def Refuses (r : Reader σ α) (w : Bytes) (s : σ) : Prop := ∀ rest, (r (w ++ rest) s).1 = none

theorem Refuses.bind (h : Refuses r w s) : Refuses (r >>= f) (w ++ w') s := by
  intro rest
  rw [bind_run, List.append_assoc]
  have hnone := h (w' ++ rest)
  rcases hr : r (w ++ (w' ++ rest)) s with ⟨o, b, t⟩
  rw [hr] at hnone
  simp only at hnone
  rw [hnone]

theorem Reads.bind_refuses (h : Reads r w s s' a) (h' : Refuses (f a) w' s') :
    Refuses (r >>= f) (w ++ w') s := by
  intro rest
  rw [bind_run, List.append_assoc, h.whole]
  exact h' rest

/-- Reading `w` gives `a` or fails, and which of the two is known. -/
structure ReadsUnless (bad : Prop) (r : Reader σ α) (w : Bytes) (s s' : σ) (a : α) : Prop where
  reads : ¬ bad → Reads r w s s' a
  refuses : bad → Refuses r w s

variable {p q : Prop}

theorem Reads.unless (h : Reads r w s s' a) : ReadsUnless False r w s s' a := ⟨fun _ => h, False.elim⟩

theorem ReadsUnless.cast {a' : α} {v : Bytes} (h : ReadsUnless p r w s s' a) (hp : q ↔ p)
    (hw : w = v) (ha : a = a') : ReadsUnless q r v s s' a' := by
  subst hw ha
  exact ⟨fun hq => h.reads (hp.not.mp hq), fun hq => h.refuses (hp.mp hq)⟩

theorem ReadsUnless.bind (h : ReadsUnless p r w s s' a) (h' : ReadsUnless q (f a) w' s' s'' c) :
    ReadsUnless (p ∨ q) (r >>= f) (w ++ w') s s'' c where
  reads hpq := (h.reads fun hp => hpq (.inl hp)).bind (h'.reads fun hq => hpq (.inr hq))
  refuses hpq := by
    by_cases hp : p
    · exact (h.refuses hp).bind
    · exact (h.reads hp).bind_refuses (h'.refuses (hpq.resolve_left hp))

theorem Reads.bind_unless (h : Reads r w s s' a) (h' : ReadsUnless q (f a) w' s' s'' c) :
    ReadsUnless q (r >>= f) (w ++ w') s s'' c :=
  (h.unless.bind h').cast (by simp) rfl rfl

theorem ReadsUnless.map {g : α → β} (h : ReadsUnless p r w s s' a) :
    ReadsUnless p (do let x ← r; return g x) w s s' (g a) := by
  have h' := h.bind (f := fun x => Pure.pure (g x)) (Reads.pure (g a) s').unless
  exact h'.cast (by simp) (List.append_nil w) rfl

theorem ReadsUnless.nested (h : ReadsUnless p r w s s' a) :
    ReadsUnless p (nested r w) [] s s' a where
  reads hgood := by
    have hr := (h.reads hgood).whole []
    rw [List.append_nil] at hr
    exact ⟨fun rest => by simp [Reader.nested, hr], fun q hq hne =>
      absurd (List.prefix_nil.mp hq) hne⟩
  refuses hbad rest := by
    have hr := h.refuses hbad []
    rwa [List.append_nil] at hr

/-- A list is refused when one of its elements is. -/
theorem readsUnless_times {γ : Type} {as : List γ} {bad : γ → Prop} {write : γ → Bytes}
    {g : γ → α} (s : σ) (h : ∀ a ∈ as, ReadsUnless (bad a) r (write a) s s (g a)) :
    ReadsUnless (∃ a ∈ as, bad a) (times as.length r) (as.flatMap write) s s (as.map g) := by
  induction as with
  | nil => exact (Reads.pure [] s).unless.cast (by simp) rfl rfl
  | cons a as ih =>
    have hrest := (ih fun a' ha' => h a' (List.mem_cons_of_mem a ha')).map (g := (g a :: ·))
    exact ((h a List.mem_cons_self).bind hrest).cast (by simp) rfl rfl

/-! ### What a reader returns -/

/-- A property of every value that a reader returns. -/
def Returns (r : Reader σ α) (P : α → Prop) : Prop :=
  ∀ b s a b' s', r b s = (some a, b', s') → P a

variable {P : α → Prop} {Q : β → Prop}

theorem Returns.pure {a : α} (h : P a) : Returns (Pure.pure a : Reader σ α) P := by
  intro b s a' b' s' hr
  rwa [← Option.some.inj (Prod.ext_iff.mp hr).1]

theorem returns_fail : Returns (fail : Reader σ α) P := by
  intro b s a b' s' hr
  cases (Prod.ext_iff.mp hr).1

theorem Returns.bind (h : Returns r P) (h' : ∀ a, P a → Returns (f a) Q) :
    Returns (r >>= f) Q := by
  intro b s c b' s' hr
  rw [bind_run] at hr
  rcases hra : r b s with ⟨o, b₁, s₁⟩
  rw [hra] at hr
  cases o with
  | none => cases (Prod.ext_iff.mp hr).1
  | some a => exact h' a (h b s a b₁ s₁ hra) b₁ s₁ c b' s' hr

theorem Returns.mono (h : Returns r P) {P' : α → Prop} (hP : ∀ a, P a → P' a) : Returns r P' :=
  fun b s a b' s' hr => hP a (h b s a b' s' hr)

theorem returns_any (r : Reader σ α) : Returns r fun _ => True := fun _ _ _ _ _ _ => trivial

theorem returns_take (n : ℕ) : Returns (take n : Reader σ Bytes) fun b => b.length = n := by
  intro b s a b' s' hr
  unfold take at hr
  split_ifs at hr with hn
  · rw [← Option.some.inj (Prod.ext_iff.mp hr).1]
    simpa using hn
  · cases (Prod.ext_iff.mp hr).1

theorem returns_uint (k : ℕ) : Returns (uint k : Reader σ ℕ) fun n => n < 2 ^ (8 * k) :=
  (returns_take k).bind fun b hb => .pure (hb ▸ leNat_lt b)

theorem returns_times {P : α → Prop} (h : Returns r P) (n : ℕ) :
    Returns (times n r) fun as => as.length = n ∧ ∀ a ∈ as, P a := by
  induction n with
  | zero => exact .pure ⟨rfl, by simp⟩
  | succ n ih =>
    refine h.bind fun a ha => ih.bind fun as has => .pure ⟨by simp [has.1], ?_⟩
    simpa using ⟨ha, has.2⟩

/-! ### What a reader does to the state -/

/-- Whatever the buffer, the state stays. -/
def Keeps (r : Reader σ α) : Prop := ∀ b s, (r b s).2.2 = s

theorem Keeps.pure (a : α) : Keeps (Pure.pure a : Reader σ α) := fun _ _ => rfl

theorem keeps_fail : Keeps (fail : Reader σ α) := fun _ _ => rfl

theorem keeps_take (n : ℕ) : Keeps (take n : Reader σ Bytes) := by
  intro b s
  unfold take
  split_ifs <;> rfl

/-- The second reader has to keep the state after what the first one returns. -/
theorem Keeps.bind_of (h : Keeps r) (hP : Returns r P) (h' : ∀ a, P a → Keeps (f a)) :
    Keeps (r >>= f) := by
  intro b s
  have hs := h b s
  rw [bind_run]
  rcases hr : r b s with ⟨o, b₁, s₁⟩
  rw [hr] at hs
  cases o with
  | none => exact hs
  | some a => exact (h' a (hP b s a b₁ s₁ hr) b₁ s₁).trans hs

theorem Keeps.bind (h : Keeps r) (h' : ∀ a, Keeps (f a)) : Keeps (r >>= f) :=
  h.bind_of (returns_any r) fun a _ => h' a

theorem Keeps.nested (h : Keeps r) (slice : Bytes) : Keeps (nested r slice) := fun _ s => h slice s

theorem keeps_times (h : Keeps r) (n : ℕ) : Keeps (times n r) := by
  induction n with
  | zero => exact .pure []
  | succ n ih => exact h.bind fun a => ih.bind fun as => .pure (a :: as)

end Reader

end Conclave.Lib
