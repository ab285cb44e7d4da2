import Conclave.Lib.Codec
import Conclave.Lib.Text

/-! Where the bytes of a text are below 128, they are its characters. -/

namespace Conclave.Lib

variable {c : Char}

theorem utf8EncodeChar_ascii (h : c.toNat < 128) :
    String.utf8EncodeChar c = [UInt8.ofNat c.toNat] := if_pos (Nat.le_of_lt_succ h)

theorem utf8EncodeChar_high (h : ¬ c.toNat < 128) :
    ∀ b ∈ String.utf8EncodeChar c, 128 ≤ b.toNat := by
  have hbyte : ∀ n m k : ℕ, 128 ≤ k → k + m ≤ 256 → 0 < m →
      128 ≤ (UInt8.ofNat (n % m + k)).toNat := by
    intro n m k hk hle hm
    have hlt := Nat.mod_lt n hm
    rw [UInt8.toNat_ofNat', Nat.mod_eq_of_lt (by omega)]
    omega
  have hv : ¬ c.val.toNat ≤ 0x7f := by
    show ¬ c.toNat ≤ 0x7f
    omega
  intro b hb
  unfold String.utf8EncodeChar at hb
  simp only [hv, if_false] at hb
  split_ifs at hb <;> simp only [List.mem_cons, List.not_mem_nil, or_false] at hb
  · rcases hb with rfl | rfl <;> exact hbyte _ _ _ (by norm_num) (by norm_num) (by norm_num)
  · rcases hb with rfl | rfl | rfl <;>
      exact hbyte _ _ _ (by norm_num) (by norm_num) (by norm_num)
  · rcases hb with rfl | rfl | rfl | rfl <;>
      exact hbyte _ _ _ (by norm_num) (by norm_num) (by norm_num)

theorem toNat_ofNat_ascii {n : ℕ} (h : n < 128) : (Char.ofNat n).toNat = n := by
  have hall : ∀ n < 128, (Char.ofNat n).toNat = n := by decide
  exact hall n h

/-- The characters that bytes below 128 are. -/
def asciiText (v : Bytes) : Text := v.map fun b => Char.ofNat b.toNat

theorem utf8_eq_flatMap (s : String) : utf8 s = s.toList.flatMap String.utf8EncodeChar := by
  rw [utf8, ← String.utf8Encode_toList, List.utf8Encode]
  simp

theorem ascii_front {cs : List Char} {a : UInt8} {w : Bytes} (ha : a.toNat < 128)
    (h : cs.flatMap String.utf8EncodeChar = a :: w) :
    ∃ cs', cs = Char.ofNat a.toNat :: cs' ∧ cs'.flatMap String.utf8EncodeChar = w := by
  cases cs with
  | nil => cases h
  | cons c cs =>
    rw [List.flatMap_cons] at h
    by_cases hc : c.toNat < 128
    · rw [utf8EncodeChar_ascii hc] at h
      obtain ⟨rfl, hw⟩ := List.cons.inj h
      refine ⟨cs, ?_, hw⟩
      rw [UInt8.toNat_ofNat', Nat.mod_eq_of_lt (by omega), Char.ofNat_toNat]
    · obtain ⟨b, bs, hbs⟩ := List.exists_cons_of_ne_nil (@String.utf8EncodeChar_ne_nil c)
      have hhigh := utf8EncodeChar_high hc b (by rw [hbs]; exact List.mem_cons_self ..)
      rw [hbs] at h
      obtain ⟨rfl, -⟩ := List.cons.inj h
      omega

/-- A text whose bytes start with bytes below 128 starts with their characters. -/
theorem ascii_split {v : Bytes} (hv : ∀ b ∈ v, b.toNat < 128) {cs : List Char} {w : Bytes}
    (h : cs.flatMap String.utf8EncodeChar = v ++ w) :
    ∃ cs', cs = asciiText v ++ cs' ∧ cs'.flatMap String.utf8EncodeChar = w := by
  induction v generalizing cs with
  | nil => exact ⟨cs, rfl, h⟩
  | cons a v ih =>
    obtain ⟨cs₁, rfl, h₁⟩ := ascii_front (hv a (List.mem_cons_self ..)) h
    obtain ⟨cs₂, rfl, h₂⟩ := ih (fun b hb => hv b (List.mem_cons_of_mem _ hb)) h₁
    exact ⟨cs₂, rfl, h₂⟩

theorem fromUtf8_ascii {v : Bytes} (hv : ∀ b ∈ v, b.toNat < 128) :
    ∃ s, fromUtf8 v = some s ∧ s.toList = asciiText v := by
  have hbytes : ∀ v : Bytes, (∀ b ∈ v, b.toNat < 128) →
      (asciiText v).flatMap String.utf8EncodeChar = v := by
    intro v hv
    induction v with
    | nil => rfl
    | cons a v ih =>
      have ha := hv a (List.mem_cons_self ..)
      rw [asciiText, List.map_cons, List.flatMap_cons, ← asciiText,
        ih fun b hb => hv b (List.mem_cons_of_mem _ hb),
        utf8EncodeChar_ascii (by rw [toNat_ofNat_ascii ha]; exact ha), toNat_ofNat_ascii ha,
        UInt8.ofNat_toNat]
      rfl
  have hlist : (String.ofList (asciiText v)).toList = asciiText v := String.toList_ofList
  refine ⟨String.ofList (asciiText v), ?_, hlist⟩
  have hutf8 : utf8 (String.ofList (asciiText v)) = v := by
    rw [utf8_eq_flatMap, hlist, hbytes v hv]
  conv_lhs => rw [← hutf8]
  exact fromUtf8_utf8 _

end Conclave.Lib
