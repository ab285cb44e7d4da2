import Conclave.Net.HpackBlocks

/-! Blocks read one after the other are the same as one block: what decodes a buffer does
not look at what comes after it. -/

namespace Conclave.Net.Hpack

open Lib

variable {buf rest : Bytes} {t t' : HpackDynamicTable} (c : Bytes)

theorem decodeRem_append {value m v : ℕ} (h : decodeRem buf value m = some (v, rest)) :
    decodeRem (buf ++ c) value m = some (v, rest ++ c) := by
  induction buf generalizing value m with
  | nil => cases h
  | cons b buf ih =>
    simp only [decodeRem, List.cons_append] at h ⊢
    split_ifs at h ⊢ with hlast hlong
    · obtain ⟨rfl, rfl⟩ := Prod.mk.inj (Option.some.inj h)
      rfl
    · exact ih h

theorem hpackDecodeInt_append {bits v : ℕ} (h : hpackDecodeInt buf bits = some (v, rest)) :
    hpackDecodeInt (buf ++ c) bits = some (v, rest ++ c) := by
  cases buf with
  | nil => cases h
  | cons b buf =>
    simp only [hpackDecodeInt, List.cons_append] at h ⊢
    split_ifs at h ⊢
    · obtain ⟨rfl, rfl⟩ := Prod.mk.inj (Option.some.inj h)
      rfl
    · exact decodeRem_append c h

theorem headD_append (h : buf ≠ []) : (buf ++ c).headD 0 = buf.headD 0 := by
  cases buf with
  | nil => exact absurd rfl h
  | cons b buf => rfl

theorem hpackDecodeString_append {s : String} (h : hpackDecodeString buf = some (s, rest)) :
    hpackDecodeString (buf ++ c) = some (s, rest ++ c) := by
  have hne : buf ≠ [] := by
    rintro rfl
    exact absurd (hpackDecodeString_shorter h) (Nat.not_lt_zero _)
  obtain ⟨len, rest₁, bytes, hint, hlen, hbytes, hs, rfl⟩ := hpackDecodeString_some h
  have hlong : ¬ (rest₁ ++ c).length < len := by
    rw [List.length_append]
    omega
  rw [hpackDecodeString, hpackDecodeInt_append c hint]
  dsimp only
  rw [if_neg hlong, headD_append c hne, List.take_append_of_le_length hlen,
    List.drop_append_of_le_length hlen, hbytes]
  simp [hs]

theorem decodeName_append {idx : ℕ} {name : String} (h : decodeName idx buf t = some (name, rest)) :
    decodeName idx (buf ++ c) t = some (name, rest ++ c) := by
  unfold decodeName at h ⊢
  split_ifs at h ⊢
  · exact hpackDecodeString_append c h
  · obtain ⟨e, he, heq⟩ := Option.map_eq_some_iff.mp h
    obtain ⟨rfl, rfl⟩ := Prod.mk.inj heq
    rw [he, Option.map_some]

theorem decodeLiteral_append {bits : ℕ} {e : Header}
    (h : decodeLiteral bits buf t = some (e, rest)) :
    decodeLiteral bits (buf ++ c) t = some (e, rest ++ c) := by
  obtain ⟨⟨idx, rest₁⟩, hint, h⟩ := Option.bind_eq_some_iff.mp h
  obtain ⟨⟨name, rest₂⟩, hname, h⟩ := Option.bind_eq_some_iff.mp h
  obtain ⟨⟨value, rest₃⟩, hvalue, h⟩ := Option.bind_eq_some_iff.mp h
  obtain ⟨rfl, rfl⟩ := Prod.mk.inj (Option.some.inj h)
  simp [decodeLiteral, hpackDecodeInt_append c hint, decodeName_append c hname,
    hpackDecodeString_append c hvalue]

theorem decodeField_append {field : Option Header}
    (h : decodeField buf t = some (field, rest, t')) :
    decodeField (buf ++ c) t = some (field, rest ++ c, t') := by
  have hne : buf ≠ [] := by
    rintro rfl
    exact absurd (decodeField_shorter h) (Nat.not_lt_zero _)
  unfold decodeField at h ⊢
  rw [headD_append c hne]
  split_ifs at h ⊢
  · obtain ⟨⟨idx, rest₁⟩, hint, h⟩ := Option.bind_eq_some_iff.mp h
    obtain ⟨e, he, h⟩ := Option.bind_eq_some_iff.mp h
    obtain ⟨rfl, hrest⟩ := Prod.mk.inj (Option.some.inj h)
    obtain ⟨rfl, rfl⟩ := Prod.mk.inj hrest
    simp [hpackDecodeInt_append c hint, he]
  · obtain ⟨⟨e, rest₁⟩, hlit, h⟩ := Option.bind_eq_some_iff.mp h
    obtain ⟨rfl, hrest⟩ := Prod.mk.inj (Option.some.inj h)
    obtain ⟨rfl, rfl⟩ := Prod.mk.inj hrest
    simp [decodeLiteral_append c hlit]
  · obtain ⟨⟨newSize, rest₁⟩, hint, h⟩ := Option.bind_eq_some_iff.mp h
    obtain ⟨rfl, hrest⟩ := Prod.mk.inj (Option.some.inj h)
    obtain ⟨rfl, rfl⟩ := Prod.mk.inj hrest
    simp [hpackDecodeInt_append c hint]
  · obtain ⟨⟨e, rest₁⟩, hlit, h⟩ := Option.bind_eq_some_iff.mp h
    obtain ⟨rfl, hrest⟩ := Prod.mk.inj (Option.some.inj h)
    obtain ⟨rfl, rfl⟩ := Prod.mk.inj hrest
    simp [decodeLiteral_append c hlit]

theorem decodeBlockFrom_append {out r : List Header}
    (h : decodeBlockFrom buf t out = (some r, t')) :
    decodeBlockFrom (buf ++ c) t out = decodeBlockFrom c t' r := by
  induction buf, t, out using decodeBlockFrom.induct with
  | case1 t out =>
    rw [decodeBlockFrom, if_pos rfl] at h
    obtain ⟨hr, rfl⟩ := Prod.mk.inj h
    rw [List.nil_append, Option.some.inj hr]
  | case2 buf t out hne hd =>
    rw [decodeBlockFrom_none out hne hd] at h
    cases h
  | case3 buf t out hne field rest t₁ hd ih =>
    rw [decodeBlockFrom_some out hd] at h
    rw [decodeBlockFrom_some out (decodeField_append c hd)]
    exact ih h

/-- The headers read before have no part in what is read. -/
theorem decodeBlockFrom_after (buf : Bytes) (t : HpackDynamicTable) (out₀ out : List Header) :
    decodeBlockFrom buf t (out₀ ++ out) =
      ((decodeBlockFrom buf t out).1.map (out₀ ++ ·), (decodeBlockFrom buf t out).2) := by
  induction buf, t, out using decodeBlockFrom.induct with
  | case1 t out =>
    rw [decodeBlockFrom, if_pos rfl, decodeBlockFrom, if_pos rfl]
    rfl
  | case2 buf t out hne hd =>
    rw [decodeBlockFrom_none _ hne hd, decodeBlockFrom_none _ hne hd]
    rfl
  | case3 buf t out hne field rest t₁ hd ih =>
    rw [decodeBlockFrom_some _ hd, decodeBlockFrom_some _ hd, List.append_assoc]
    exact ih

/-- One block and then the rest, with the headers of both. -/
theorem decodeBlockFrom_block {fields : List Header} (h : hpackDecodeBlock buf t = (some fields, t'))
    (out : List Header) :
    decodeBlockFrom (buf ++ c) t out = decodeBlockFrom c t' (out ++ fields) := by
  refine decodeBlockFrom_append c ?_
  have hafter := decodeBlockFrom_after buf t out []
  rw [List.append_nil] at hafter
  rw [hafter, ← hpackDecodeBlock, h]
  rfl

end Conclave.Net.Hpack
