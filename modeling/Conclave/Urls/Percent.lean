import Conclave.Lib.Ascii
import Conclave.Lib.Cuts
import Conclave.Ipc.Hosts

/-! Percent-encoding of the components of a URL. It keeps the escapes that are there, and
what it makes of a text has nothing left to encode. -/

namespace Conclave.Urls

open Lib Ipc

def percentByte (b : ℕ) : Text := ['%', (Nat.digitChar (b / 16)).toUpper, (Nat.digitChar (b % 16)).toUpper]

def encodeByte (needsEncode : ℕ → Bool) (b : UInt8) : Text :=
  if needsEncode b.toNat || b.toNat == '%'.toNat then percentByte b.toNat
  else [Char.ofNat b.toNat]

/-- A character outside ASCII is encoded byte by byte. -/
def encodeChar (needsEncode : ℕ → Bool) (c : Char) : Text :=
  (String.utf8EncodeChar c).flatMap (encodeByte needsEncode)

def percentEncodeWith (needsEncode : ℕ → Bool) : Text → Text
  | c :: a :: b :: s =>
    -- Preserve an existing valid percent-encoded sequence.
    if c = '%' ∧ isHexDigit a ∧ isHexDigit b then
      '%' :: a.toUpper :: b.toUpper :: percentEncodeWith needsEncode s
    else encodeChar needsEncode c ++ percentEncodeWith needsEncode (a :: b :: s)
  | c :: s => encodeChar needsEncode c ++ percentEncodeWith needsEncode s
  | [] => []

def isListed (chars : List Char) (b : ℕ) : Bool := b > 0x7E || b < 0x21 || chars.any (·.toNat == b)

def pathNeedsEncode : ℕ → Bool := isListed ['"', '#', '<', '>', '?', '`', '{', '}']

def queryNeedsEncode : ℕ → Bool := isListed ['"', '#', '<', '>', '\'']

def fragmentNeedsEncode : ℕ → Bool := isListed ['"', '<', '>', '`']

def percentEncodePath : Text → Text := percentEncodeWith pathNeedsEncode

def percentEncodeQuery : Text → Text := percentEncodeWith queryNeedsEncode

def percentEncodeFragment : Text → Text := percentEncodeWith fragmentNeedsEncode

variable {needs : ℕ → Bool} {chars : List Char} {a b c : Char} {s t : Text}

/-! ### One character -/

theorem isHexDigit_lt (h : isHexDigit c) : c.toNat < 128 := by
  simp only [isHexDigit, Char.isDigit, Bool.or_eq_true, Bool.and_eq_true, decide_eq_true_eq,
    ge_iff_le, UInt32.le_iff_toNat_le] at h
  change (_ ∧ c.toNat ≤ 57 ∨ _ ∧ c.toNat ≤ 102) ∨ _ ∧ c.toNat ≤ 70 at h
  omega

theorem toUpper_hex (h : isHexDigit c) :
    (c.toUpper = '2' ↔ c = '2') ∧ ((c.toUpper = 'e' ∨ c.toUpper = 'E') ↔ (c = 'e' ∨ c = 'E')) := by
  have hall : ∀ n < 128, isHexDigit (Char.ofNat n) →
      ((Char.ofNat n).toUpper = '2' ↔ Char.ofNat n = '2') ∧
        (((Char.ofNat n).toUpper = 'e' ∨ (Char.ofNat n).toUpper = 'E') ↔
          (Char.ofNat n = 'e' ∨ Char.ofNat n = 'E')) := by decide
  have hc := hall c.toNat (isHexDigit_lt h)
  rw [Char.ofNat_toNat] at hc
  exact hc h

/-- What an escape ends with. -/
def IsUpperHex (c : Char) : Prop := ∃ n < 16, c = (Nat.digitChar n).toUpper

theorem isUpperHex_digitChar {n : ℕ} (h : n < 16) : IsUpperHex (Nat.digitChar n).toUpper :=
  ⟨n, h, rfl⟩

theorem isUpperHex_toUpper (h : isHexDigit c) : IsUpperHex c.toUpper := by
  have hall : ∀ n < 128, isHexDigit (Char.ofNat n) →
      ∃ m < 16, (Char.ofNat n).toUpper = (Nat.digitChar m).toUpper := by decide
  have hc := hall c.toNat (isHexDigit_lt h)
  rw [Char.ofNat_toNat] at hc
  exact hc h

theorem IsUpperHex.isHexDigit (h : IsUpperHex c) : isHexDigit c := by
  obtain ⟨n, hn, rfl⟩ := h
  have hall : ∀ n < 16, Ipc.isHexDigit (Nat.digitChar n).toUpper := by decide
  exact hall n hn

theorem IsUpperHex.toUpper (h : IsUpperHex c) : c.toUpper = c := by
  obtain ⟨n, hn, rfl⟩ := h
  have hall : ∀ n < 16, (Nat.digitChar n).toUpper.toUpper = (Nat.digitChar n).toUpper := by decide
  exact hall n hn

theorem isListed_eq_false {b : ℕ} (h : isListed chars b = false) :
    b < 128 ∧ ' '.toNat < b ∧ ∀ c ∈ chars, c.toNat ≠ b := by
  simp only [isListed, Bool.or_eq_false_iff, decide_eq_false_iff_not, List.any_eq_false,
    beq_iff_eq] at h
  refine ⟨by omega, ?_, h.2⟩
  change 32 < b
  omega

theorem encodeChar_kept (h : isListed chars c.toNat = false) (hpercent : c ≠ '%') :
    encodeChar (isListed chars) c = [c] := by
  have hlt := (isListed_eq_false h).1
  have hbyte : (UInt8.ofNat c.toNat).toNat = c.toNat := by
    rw [UInt8.toNat_ofNat', Nat.mod_eq_of_lt (by omega)]
  have hne : (c.toNat == '%'.toNat) = false :=
    beq_eq_false_iff_ne.mpr fun heq => hpercent (Char.toNat_inj.mp heq)
  rw [encodeChar, utf8EncodeChar_ascii hlt, List.flatMap_singleton, encodeByte, hbyte, h, hne,
    Char.ofNat_toNat]
  rfl

/-! ### Text that is encoded -/

/-- Text of escapes and of characters that need none. -/
inductive Encoded (chars : List Char) : Text → Prop
  | nil : Encoded chars []
  | escape {a b : Char} {s : Text} (ha : IsUpperHex a) (hb : IsUpperHex b) (hs : Encoded chars s) :
      Encoded chars ('%' :: a :: b :: s)
  | kept {c : Char} {s : Text} (hc : isListed chars c.toNat = false) (hpercent : c ≠ '%')
      (hs : Encoded chars s) : Encoded chars (c :: s)

namespace Encoded

theorem append (hs : Encoded chars s) (ht : Encoded chars t) : Encoded chars (s ++ t) := by
  induction hs with
  | nil => exact ht
  | escape ha hb _ ih => exact .escape ha hb ih
  | kept hc hpercent _ ih => exact .kept hc hpercent ih

theorem mem (h : Encoded chars s) (hc : c ∈ s) :
    c = '%' ∨ IsUpperHex c ∨ isListed chars c.toNat = false := by
  induction h with
  | nil => exact absurd hc List.not_mem_nil
  | escape ha hb _ ih =>
    simp only [List.mem_cons] at hc
    rcases hc with rfl | rfl | rfl | hc
    · exact .inl rfl
    · exact .inr (.inl ha)
    · exact .inr (.inl hb)
    · exact ih hc
  | kept hkept _ _ ih =>
    obtain rfl | hc := List.mem_cons.mp hc
    · exact .inr (.inr hkept)
    · exact ih hc

/-- Nothing that is encoded is left, nor a character up to the space. -/
theorem not_mem (h : Encoded chars s) (hlisted : c ∈ chars ∨ c ≤ ' ') (hpercent : c ≠ '%')
    (hhex : isHexDigit c = false) : c ∉ s := by
  intro hc
  rcases h.mem hc with heq | hupper | hkept
  · exact hpercent heq
  · rw [hupper.isHexDigit] at hhex
    cases hhex
  · obtain ⟨-, hlow, hne⟩ := isListed_eq_false hkept
    rcases hlisted with hmem | hle
    · exact hne c hmem rfl
    · exact absurd hlow (Nat.not_lt.mpr hle)

end Encoded

theorem encoded_byte (b : UInt8) : Encoded chars (encodeByte (isListed chars) b) := by
  have hb := b.toNat_lt
  unfold encodeByte
  split
  · exact .escape (isUpperHex_digitChar (by omega)) (isUpperHex_digitChar (by omega)) .nil
  · next h =>
    simp only [Bool.or_eq_true, beq_iff_eq, not_or, Bool.not_eq_true] at h
    have hlt := (isListed_eq_false h.1).1
    have hnat := toNat_ofNat_ascii hlt
    refine .kept (by rw [hnat]; exact h.1) (fun heq => h.2 ?_) .nil
    rw [← hnat, heq]

theorem encoded_char (c : Char) : Encoded chars (encodeChar (isListed chars) c) := by
  unfold encodeChar
  induction String.utf8EncodeChar c with
  | nil => exact .nil
  | cons b bytes ih => exact (encoded_byte b).append ih

theorem encoded (s : Text) : Encoded chars (percentEncodeWith (isListed chars) s) := by
  induction s using percentEncodeWith.induct with
  | case1 c a b s hescape ih =>
    rw [percentEncodeWith, if_pos hescape]
    exact .escape (isUpperHex_toUpper hescape.2.1) (isUpperHex_toUpper hescape.2.2) ih
  | case2 c a b s hescape ih =>
    rw [percentEncodeWith, if_neg hescape]
    exact (encoded_char c).append ih
  | case3 c s hshort ih =>
    rw [percentEncodeWith]
    · exact (encoded_char c).append ih
    · exact hshort
  | case4 => exact .nil

theorem percentEncodeWith_cons (h : c ≠ '%') (s : Text) :
    percentEncodeWith needs (c :: s) = encodeChar needs c ++ percentEncodeWith needs s := by
  cases s with
  | nil => rfl
  | cons a s =>
    cases s with
    | nil => rfl
    | cons b s => rw [percentEncodeWith, if_neg fun hescape => h hescape.1]

/-- Encoding leaves encoded text as it is. -/
theorem Encoded.encode_eq (h : Encoded chars s) : percentEncodeWith (isListed chars) s = s := by
  induction h with
  | nil => rfl
  | escape ha hb _ ih =>
    rw [percentEncodeWith, if_pos ⟨rfl, ha.isHexDigit, hb.isHexDigit⟩, ha.toUpper, hb.toUpper, ih]
  | kept hc hpercent _ ih =>
    rw [percentEncodeWith_cons hpercent, encodeChar_kept hc hpercent, ih]
    rfl

/-! ### Where characters come from -/

/-- A character that no escape has comes from the text. -/
theorem eq_of_mem_encodeChar (hascii : c.toNat < 128) (hpercent : c ≠ '%')
    (hhex : isHexDigit c = false) {d : Char} (h : c ∈ encodeChar needs d) : c = d := by
  rw [encodeChar, List.mem_flatMap] at h
  obtain ⟨b, hb, hmem⟩ := h
  rw [encodeByte] at hmem
  split_ifs at hmem
  · have hdigit : ∀ n < 16, c ≠ (Nat.digitChar n).toUpper := by
      rintro n hn rfl
      rw [(isUpperHex_digitChar hn).isHexDigit] at hhex
      cases hhex
    have hlt := b.toNat_lt
    simp only [percentByte, List.mem_cons, List.not_mem_nil, or_false] at hmem
    rcases hmem with heq | heq | heq
    · exact absurd heq hpercent
    · exact absurd heq (hdigit _ (by omega))
    · exact absurd heq (hdigit _ (by omega))
  · rw [List.mem_singleton] at hmem
    by_cases hd : d.toNat < 128
    · rw [utf8EncodeChar_ascii hd, List.mem_singleton] at hb
      rw [hmem, hb, UInt8.toNat_ofNat', Nat.mod_eq_of_lt (by omega), Char.ofNat_toNat]
    · have hhigh := utf8EncodeChar_high hd b hb
      have hnat : ∀ n < 256, (Char.ofNat n).toNat = n := by decide +kernel
      rw [hmem, hnat b.toNat b.toNat_lt] at hascii
      omega

theorem mem_of_mem_encode (hascii : c.toNat < 128) (hpercent : c ≠ '%')
    (hhex : isHexDigit c = false) (h : c ∈ percentEncodeWith needs s) : c ∈ s := by
  induction s using percentEncodeWith.induct with
  | case1 d a b s hescape ih =>
    have hupper : ∀ {x : Char}, isHexDigit x → c ≠ x.toUpper := by
      rintro x hx rfl
      rw [(isUpperHex_toUpper hx).isHexDigit] at hhex
      cases hhex
    rw [percentEncodeWith, if_pos hescape] at h
    rcases List.mem_cons.mp h with heq | h
    · exact absurd heq hpercent
    rcases List.mem_cons.mp h with heq | h
    · exact absurd heq (hupper hescape.2.1)
    rcases List.mem_cons.mp h with heq | h
    · exact absurd heq (hupper hescape.2.2)
    · exact List.mem_cons_of_mem _ (List.mem_cons_of_mem _ (List.mem_cons_of_mem _ (ih h)))
  | case2 d a b s hescape ih =>
    rw [percentEncodeWith, if_neg hescape] at h
    rcases List.mem_append.mp h with h | h
    · exact eq_of_mem_encodeChar hascii hpercent hhex h ▸ List.mem_cons_self ..
    · exact List.mem_cons_of_mem _ (ih h)
  | case3 d s hshort ih =>
    rw [percentEncodeWith] at h
    · rcases List.mem_append.mp h with h | h
      · exact eq_of_mem_encodeChar hascii hpercent hhex h ▸ List.mem_cons_self ..
      · exact List.mem_cons_of_mem _ (ih h)
    · exact hshort
  | case4 => exact h

/-! ### Segments -/

/-- A character that neither needs encoding nor belongs to an escape cuts the text in two. -/
theorem percentEncodeWith_append (hc : isListed chars c.toNat = false) (hpercent : c ≠ '%')
    (hhex : isHexDigit c = false) (s t : Text) :
    percentEncodeWith (isListed chars) (s ++ c :: t) =
      percentEncodeWith (isListed chars) s ++ c :: percentEncodeWith (isListed chars) t := by
  have hcut : percentEncodeWith (isListed chars) (c :: t) =
      c :: percentEncodeWith (isListed chars) t := by
    rw [percentEncodeWith_cons hpercent, encodeChar_kept hc hpercent]
    rfl
  induction s using percentEncodeWith.induct with
  | case1 d a b s hescape ih =>
    rw [List.cons_append, List.cons_append, List.cons_append, percentEncodeWith, if_pos hescape, ih,
      percentEncodeWith, if_pos hescape]
    rfl
  | case2 d a b s hescape ih =>
    rw [List.cons_append, List.cons_append, List.cons_append, percentEncodeWith, if_neg hescape,
      percentEncodeWith, if_neg hescape, List.append_assoc, ← ih]
    rfl
  | case3 d s hshort ih =>
    -- the character stands where an escape would have a digit
    have hnot : ∀ a b u, s ++ c :: t = a :: b :: u →
        ¬ (d = '%' ∧ isHexDigit a ∧ isHexDigit b) := by
      rintro a b u heq ⟨-, ha, hb⟩
      cases s with
      | nil =>
        obtain ⟨rfl, -⟩ := List.cons.inj heq
        exact absurd ha (Bool.eq_false_iff.mp hhex)
      | cons a' s =>
        cases s with
        | nil =>
          obtain ⟨-, heq⟩ := List.cons.inj heq
          obtain ⟨rfl, -⟩ := List.cons.inj heq
          exact absurd hb (Bool.eq_false_iff.mp hhex)
        | cons b' s => exact hshort a' b' s rfl
    have hwhole : percentEncodeWith (isListed chars) (d :: (s ++ c :: t)) =
        encodeChar (isListed chars) d ++ percentEncodeWith (isListed chars) (s ++ c :: t) := by
      match h : s ++ c :: t with
      | [] => rfl
      | [a] => rfl
      | a :: b :: u => rw [percentEncodeWith, if_neg (hnot a b u h)]
    rw [List.cons_append, hwhole, ih, percentEncodeWith, List.append_assoc]
    exact hshort
  | case4 => exact hcut

end Conclave.Urls
