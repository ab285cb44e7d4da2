import Conclave.Unicode.FourBytes

/-! Every encoding against the Encoding Standard. -/

namespace Conclave.Unicode

open Lib Encodings Decoder

/-! ### UTF-16 -/

section Utf16

variable (bigEndian : Bool)

/-- The last whole unit is a lead surrogate, and one more byte follows; the flag says so of the
unit in front of the text. -/
def cutTwice : Bool → Bytes → Bool
  | lead, [_] => lead
  | _, b :: b' :: rest => cutTwice (isLeadSurrogate (codeUnit bigEndian b b')) rest
  | _, [] => false

theorem utf16_next_first (b : UInt8) (surrogate : Option ℕ) :
    (utf16 bigEndian).next ⟨none, surrogate⟩ b = { out := [], state := ⟨some b, surrogate⟩ } := rfl

theorem run_unit (surrogate : Option ℕ) (b b' : UInt8) (rest : Bytes) :
    (utf16 bigEndian).run ⟨none, surrogate⟩ (b :: b' :: rest) =
      (utf16Next bigEndian ⟨some b, surrogate⟩ b').out ++
        (utf16 bigEndian).run (utf16Next bigEndian ⟨some b, surrogate⟩ b').state
          ((utf16Next bigEndian ⟨some b, surrogate⟩ b').restored ++ rest) := by
  rw [run_cons]
  show [] ++ (utf16 bigEndian).run ⟨some b, surrogate⟩ (b' :: rest) = _
  rw [run_cons]
  rfl

theorem codeUnit_lt (b b' : UInt8) : codeUnit bigEndian b b' < 0x10000 := by
  have hb := b.toNat_lt
  have hb' := b'.toNat_lt
  unfold codeUnit be16
  split <;> omega

theorem isLeadSurrogate_iff {unit : ℕ} : isLeadSurrogate unit ↔ 0xD800 ≤ unit ∧ unit ≤ 0xDBFF := by
  simp [isLeadSurrogate]

theorem isTrailSurrogate_iff {unit : ℕ} :
    isTrailSurrogate unit ↔ 0xDC00 ≤ unit ∧ unit ≤ 0xDFFF := by
  simp [isTrailSurrogate]

theorem not_isLeadSurrogate {unit : ℕ} (h : ¬ (0xD800 ≤ unit ∧ unit ≤ 0xDBFF)) :
    isLeadSurrogate unit = false := by
  by_contra hlead
  exact h (isLeadSurrogate_iff.mp (Bool.eq_true_of_not_eq_false hlead))

theorem not_isTrailSurrogate {unit : ℕ} (h : ¬ (0xDC00 ≤ unit ∧ unit ≤ 0xDFFF)) :
    isTrailSurrogate unit = false := by
  by_contra htrail
  exact h (isTrailSurrogate_iff.mp (Bool.eq_true_of_not_eq_false htrail))

theorem charOrReplacement_pair {lead trail : ℕ} (hlead : isLeadSurrogate lead)
    (htrail : isTrailSurrogate trail) :
    charOrReplacement (0x10000 + (lead - 0xD800) * 2 ^ 10 + (trail - 0xDC00)) =
      surrogatePair lead trail := by
  have hl := isLeadSurrogate_iff.mp hlead
  have ht := isTrailSurrogate_iff.mp htrail
  exact charOrReplacement_valid (.inr ⟨by omega, by omega⟩)

/-- One end of the queue is one error, where the loop sees two. -/
theorem decodeUtf16Loop_eq (pendingLead : Option ℕ)
    (hlead : ∀ lead ∈ pendingLead, isLeadSurrogate lead) (bytes : Bytes) :
    decodeUtf16Loop bigEndian pendingLead bytes = (utf16 bigEndian).run ⟨none, pendingLead⟩ bytes ++
      if cutTwice bigEndian pendingLead.isSome bytes then [replacement] else [] := by
  induction pendingLead, bytes using decodeUtf16Loop.induct bigEndian with
  | case1 b b' rest unit lead htrail ih =>
    have htrail' := isTrailSurrogate_iff.mpr htrail
    have hcut : isLeadSurrogate unit = false := not_isLeadSurrogate (by omega)
    have hnext : utf16Next bigEndian ⟨some b, some lead⟩ b' =
        { out := [surrogatePair lead unit], state := ⟨none, none⟩ } := if_pos htrail'
    rw [decodeUtf16Loop.eq_1, if_pos htrail, run_unit, hnext, ih nofun,
      charOrReplacement_pair (hlead lead rfl) htrail']
    show _ = [surrogatePair lead unit] ++ (utf16 bigEndian).run ⟨none, none⟩ rest ++
      if cutTwice bigEndian (isLeadSurrogate unit) rest then [replacement] else []
    rw [hcut]
    rfl
  | case2 b b' rest unit lead htrail ih =>
    have hnext : utf16Next bigEndian ⟨some b, some lead⟩ b' =
        { out := [replacement], state := ⟨none, none⟩, restored := [b, b'] } :=
      if_neg (ne_true_of_eq_false (not_isTrailSurrogate htrail))
    rw [decodeUtf16Loop.eq_1, if_neg htrail, run_unit, hnext, ih nofun]
    rfl
  | case3 b b' rest unit hunit ih =>
    have hlead' := isLeadSurrogate_iff.mpr hunit
    have hnext : utf16Next bigEndian ⟨some b, none⟩ b' =
        { out := [], state := ⟨none, some unit⟩ } := if_pos hlead'
    rw [decodeUtf16Loop.eq_2, if_pos hunit, run_unit, hnext,
      ih fun lead h => Option.some.inj h ▸ hlead']
    show _ = [] ++ (utf16 bigEndian).run ⟨none, some unit⟩ rest ++
      if cutTwice bigEndian (isLeadSurrogate unit) rest then [replacement] else []
    rw [hlead']
    rfl
  | case4 b b' rest unit hunit htrail ih =>
    have hcut := not_isLeadSurrogate hunit
    have hnext : utf16Next bigEndian ⟨some b, none⟩ b' =
        { out := [replacement], state := ⟨none, none⟩ } :=
      (if_neg (ne_true_of_eq_false hcut)).trans (if_pos (isTrailSurrogate_iff.mpr htrail))
    rw [decodeUtf16Loop.eq_2, if_neg hunit, if_pos htrail, run_unit, hnext, ih nofun]
    show _ = [replacement] ++ (utf16 bigEndian).run ⟨none, none⟩ rest ++
      if cutTwice bigEndian (isLeadSurrogate unit) rest then [replacement] else []
    rw [hcut]
    rfl
  | case5 b b' rest unit hunit htrail ih =>
    have hcut := not_isLeadSurrogate hunit
    have hnext : utf16Next bigEndian ⟨some b, none⟩ b' =
        { out := [Char.ofNat unit], state := ⟨none, none⟩ } :=
      (if_neg (ne_true_of_eq_false hcut)).trans
        (if_neg (ne_true_of_eq_false (not_isTrailSurrogate htrail)))
    have hvalid : unit.isValidChar := by
      have hlt : unit < 0x10000 := codeUnit_lt bigEndian b b'
      by_cases hlow : unit < 0xD800
      · exact .inl hlow
      · exact .inr ⟨by omega, by omega⟩
    rw [decodeUtf16Loop.eq_2, if_neg hunit, if_neg htrail, run_unit, hnext, ih nofun]
    show _ = [Char.ofNat unit] ++ (utf16 bigEndian).run ⟨none, none⟩ rest ++
      if cutTwice bigEndian (isLeadSurrogate unit) rest then [replacement] else []
    rw [hcut, charOrReplacement_valid hvalid]
    rfl
  | case6 pendingLead rest hshort =>
    rw [decodeUtf16Loop.eq_3 bigEndian pendingLead rest hshort]
    match rest with
    | [] =>
      rw [run_nil]
      cases pendingLead <;> rfl
    | [b] =>
      rw [run_cons, utf16_next_first]
      show _ = [] ++ (utf16 bigEndian).run ⟨some b, pendingLead⟩ [] ++ _
      rw [run_nil]
      cases pendingLead <;> rfl
    | b :: b' :: rest => exact absurd rfl (hshort b b' rest)

theorem decodeUtf16_iff (bytes : Bytes) :
    decodeUtf16 bytes bigEndian = (utf16 bigEndian).decode bytes ↔
      cutTwice bigEndian false bytes = false := by
  have heq : decodeUtf16 bytes bigEndian = (utf16 bigEndian).decode bytes ++
      if cutTwice bigEndian false bytes then [replacement] else [] :=
    decodeUtf16Loop_eq bigEndian none nofun bytes
  rw [heq]
  cases cutTwice bigEndian false bytes <;> simp

end Utf16

/-! ### UTF-8 -/

/-- The progress of the standard's decoder, in which the bytes needed count those seen. -/
inductive InProgress : Utf8State → Utf8Progress → Prop where
  | ground : InProgress .ground .start
  | partway {missing lower upper value seen : ℕ} (h : 0 < missing) (hlower : 0x80 ≤ lower)
    (hupper : upper ≤ 0xBF) : InProgress (.partway missing lower upper value)
      ⟨value, seen, seen + missing, lower, upper⟩

theorem utf8First_matches (b : UInt8) :
    (Utf8Progress.next .start b).out = (utf8First b.toNat).2 ∧
      (Utf8Progress.next .start b).restored = [] ∧
      InProgress (utf8First b.toNat).1 (Utf8Progress.next .start b).state := by
  have hlt := b.toNat_lt
  have hE0 : b = 0xE0 ↔ b.toNat = 0xE0 := UInt8.toNat_inj.symm
  have hED : b = 0xED ↔ b.toNat = 0xED := UInt8.toNat_inj.symm
  have hF0 : b = 0xF0 ↔ b.toNat = 0xF0 := UInt8.toNat_inj.symm
  have hF4 : b = 0xF4 ↔ b.toNat = 0xF4 := UInt8.toNat_inj.symm
  unfold utf8First Utf8Progress.next
  rw [if_pos (show Utf8Progress.start.needed = 0 from rfl)]
  simp only [ascii, between_iff, decide_eq_true_eq, hE0, hED, hF0, hF4]
  by_cases hascii : b.toNat < 0x80
  · rw [if_pos hascii, if_pos hascii]
    exact ⟨rfl, rfl, .ground⟩
  rw [if_neg hascii, if_neg hascii]
  by_cases htwo : 0xC2 ≤ b.toNat ∧ b.toNat < 0xE0
  · have hvalue : b.toNat % 2 ^ 5 = b.toNat - 0xC0 := by omega
    rw [if_pos htwo, if_pos ⟨htwo.1, by omega⟩, hvalue]
    exact ⟨rfl, rfl, .partway one_pos le_rfl le_rfl⟩
  rw [if_neg htwo, if_neg fun h => htwo ⟨h.1, by omega⟩]
  by_cases hthree : 0xE0 ≤ b.toNat ∧ b.toNat < 0xF0
  · have hvalue : b.toNat % 2 ^ 4 = b.toNat - 0xE0 := by omega
    have hlower : 0x80 ≤ if b.toNat = 0xE0 then 0xA0 else 0x80 := by split <;> decide
    have hupper : (if b.toNat = 0xED then 0x9F else 0xBF) ≤ 0xBF := by split <;> decide
    rw [if_pos hthree, if_pos ⟨hthree.1, by omega⟩, hvalue]
    exact ⟨rfl, rfl, .partway two_pos hlower hupper⟩
  rw [if_neg hthree, if_neg fun h => hthree ⟨h.1, by omega⟩]
  by_cases hfour : 0xF0 ≤ b.toNat ∧ b.toNat < 0xF5
  · have hvalue : b.toNat % 2 ^ 3 = b.toNat - 0xF0 := by omega
    have hlower : 0x80 ≤ if b.toNat = 0xF0 then 0x90 else 0x80 := by split <;> decide
    have hupper : (if b.toNat = 0xF4 then 0x8F else 0xBF) ≤ 0xBF := by split <;> decide
    rw [if_pos hfour, if_pos ⟨hfour.1, by omega⟩, hvalue]
    exact ⟨rfl, rfl, .partway three_pos hlower hupper⟩
  · rw [if_neg hfour, if_neg fun h => hfour ⟨h.1, by omega⟩]
    exact ⟨rfl, rfl, .ground⟩

/-- What the lossy reader writes from a state on. -/
def utf8Rest (s : Utf8State) (bytes : Bytes) : Text :=
  (transduce utf8Step s bytes).2 ++
    if (transduce utf8Step s bytes).1 = .ground then [] else [replacement]

theorem utf8Rest_cons (s : Utf8State) (b : UInt8) (bytes : Bytes) :
    utf8Rest s (b :: bytes) = (utf8Step s b).2 ++ utf8Rest (utf8Step s b).1 bytes := by
  simp only [utf8Rest, transduce, List.append_assoc]
  rfl

theorem run_utf8 {s : Utf8State} {t : Utf8Progress} (hst : InProgress s t) (bytes : Bytes) :
    utf8Rest s bytes = utf8.run t bytes := by
  induction bytes generalizing s t with
  | nil =>
    rw [run_nil]
    cases hst with
    | ground => rfl
    | partway h hlower hupper =>
      simp only [utf8Rest, transduce, Encodings.utf8, reduceCtorEq, if_false]
      rw [if_neg (by omega)]
      rfl
  | cons b bytes ih =>
    have hfirst : (utf8First b.toNat).2 ++ utf8Rest (utf8First b.toNat).1 bytes =
        utf8.run .start (b :: bytes) := by
      obtain ⟨hout, hrestored, hstate⟩ := utf8First_matches b
      rw [run_cons, ih hstate]
      show _ = (Utf8Progress.next .start b).out ++
        utf8.run (Utf8Progress.next .start b).state ((Utf8Progress.next .start b).restored ++ bytes)
      rw [hout, hrestored]
      rfl
    cases hst with
    | ground =>
      rw [← hfirst, utf8Rest_cons]
      rfl
    | @partway missing lower upper value seen h hlower hupper =>
      have hneeded : seen + missing ≠ 0 := by omega
      have hrun : ∀ r, Utf8Progress.next ⟨value, seen, seen + missing, lower, upper⟩ b = r →
          utf8.run ⟨value, seen, seen + missing, lower, upper⟩ (b :: bytes) =
            r.out ++ utf8.run r.state (r.restored ++ bytes) := by
        rintro _ rfl
        exact run_cons _ _ _ _
      rw [utf8Rest_cons]
      by_cases hb : lower ≤ b.toNat ∧ b.toNat ≤ upper
      · have hvalue : 64 * value + (b.toNat - 0x80) = value * 2 ^ 6 + b.toNat % 2 ^ 6 := by omega
        by_cases hlast : missing ≤ 1
        · have hstep : utf8Step (.partway missing lower upper value) b =
              (.ground, [Char.ofNat (value * 2 ^ 6 + b.toNat % 2 ^ 6)]) := by
            simp only [utf8Step, if_pos hb, if_pos hlast, hvalue]
          have hnext : Utf8Progress.next ⟨value, seen, seen + missing, lower, upper⟩ b =
              { out := [Char.ofNat (value * 2 ^ 6 + b.toNat % 2 ^ 6)], state := .start } := by
            simp only [Utf8Progress.next]
            rw [if_neg hneeded, if_pos (between_iff.mpr hb), if_pos (by omega)]
          rw [hrun _ hnext, hstep, ih .ground]
          rfl
        · have hstep : utf8Step (.partway missing lower upper value) b =
              (.partway (missing - 1) 0x80 0xBF (value * 2 ^ 6 + b.toNat % 2 ^ 6), []) := by
            simp only [utf8Step, if_pos hb, if_neg hlast, hvalue]
          have hcount : seen + missing = seen + 1 + (missing - 1) := by omega
          have hnext : Utf8Progress.next ⟨value, seen, seen + missing, lower, upper⟩ b =
              { out := []
                state := ⟨value * 2 ^ 6 + b.toNat % 2 ^ 6, seen + 1, seen + 1 + (missing - 1), 0x80,
                  0xBF⟩ } := by
            simp only [Utf8Progress.next]
            rw [if_neg hneeded, if_pos (between_iff.mpr hb), if_neg (by omega), hcount]
          rw [hrun _ hnext, hstep, ih (.partway (by omega) le_rfl le_rfl)]
          rfl
      · have hnext : Utf8Progress.next ⟨value, seen, seen + missing, lower, upper⟩ b =
            { out := [replacement], state := .start, restored := [b] } := by
          simp only [Utf8Progress.next]
          rw [if_neg hneeded, if_neg fun h => hb (between_iff.mp h)]
        have hstep : utf8Step (.partway missing lower upper value) b =
            ((utf8First b.toNat).1, replacement :: (utf8First b.toNat).2) := if_neg hb
        rw [hrun _ hnext, hstep]
        exact congrArg (replacement :: ·) hfirst

theorem fromUtf8Lossy_eq (bytes : Bytes) : fromUtf8Lossy bytes = utf8.decode bytes :=
  run_utf8 .ground bytes

/-! ### All of them -/

/-- The index of JIS X 0212, of which the code carries no table. -/
structure Jis0212 where
  index : Index
  ne_replacement : ∀ p, index p ≠ some replacement

variable (tables : Tables) (jis0212 : Jis0212)

/-- The standard's decoder of an encoding, behind the byte order mark of that encoding. -/
def standardDecode (bytes : Bytes) (enc : Encoding) : Text :=
  let body := stripBom bytes enc
  match enc with
  | .utf8 => utf8.decode body
  | .utf16Le => (utf16 false).decode body
  | .utf16Be => (utf16 true).decode body
  | .windows1252 => (singleByte (indexCodePoint tables.windows1252)).decode body
  | .iso8859_2 => (singleByte (indexCodePoint tables.iso8859_2)).decode body
  | .iso8859_15 => (singleByte (indexCodePoint tables.iso8859_15)).decode body
  | .shiftJis => (shiftJis (indexCodePoint tables.jis0208)).decode body
  | .eucJp => (eucJp (indexCodePoint tables.jis0208) jis0212.index).decode body
  | .gbk | .gb18030 => (standardGb18030 tables).decode body
  | .eucKr => (eucKr (indexCodePoint tables.eucKr)).decode body
  | .big5 => (big5 (indexCodePoint tables.big5)).decode body

/-- UTF-16 does not end in a lone surrogate and half a unit; a character of three bytes in
EUC-JP is in no index; and no byte of gb18030 goes the code's own way. -/
def Conforms (bytes : Bytes) (enc : Encoding) : Prop :=
  let body := stripBom bytes enc
  match enc with
  | .utf16Le => cutTwice false false body = false
  | .utf16Be => cutTwice true false body = false
  | .eucJp => (decodeEucJp tables.jis0208).Meets (Untabled jis0212.index) ⟨0, false⟩ body
  | .gbk | .gb18030 => (decodeGb18030 tables).Meets (Whole tables) ⟨0, 0, 0⟩ body
  | _ => True

/-- The text is the standard's where no slip is met; and apart from gb18030, where characters
that are lost may make up for ones that are added, only there. -/
theorem legacy_decoding (bytes : Bytes) (enc : Encoding) :
    (Conforms tables jis0212 bytes enc →
      decode tables bytes enc = standardDecode tables jis0212 bytes enc) ∧
    (enc ≠ .gbk → enc ≠ .gb18030 →
      decode tables bytes enc = standardDecode tables jis0212 bytes enc →
      Conforms tables jis0212 bytes enc) := by
  have hjis := decodeEucJp_iff tables.jis0208 jis0212.index jis0212.ne_replacement
  cases enc with
  | utf8 => exact ⟨fun _ => fromUtf8Lossy_eq _, fun _ _ _ => trivial⟩
  | utf16Le => exact ⟨(decodeUtf16_iff false _).mpr, fun _ _ => (decodeUtf16_iff false _).mp⟩
  | utf16Be => exact ⟨(decodeUtf16_iff true _).mpr, fun _ _ => (decodeUtf16_iff true _).mp⟩
  | windows1252 => exact ⟨fun _ => decodeSingleByte_eq _ _, fun _ _ _ => trivial⟩
  | iso8859_2 => exact ⟨fun _ => decodeSingleByte_eq _ _, fun _ _ _ => trivial⟩
  | iso8859_15 => exact ⟨fun _ => decodeSingleByte_eq _ _, fun _ _ _ => trivial⟩
  | shiftJis => exact ⟨fun _ => decodeShiftJis_eq _ _, fun _ _ _ => trivial⟩
  | eucJp => exact ⟨(hjis _).mpr, fun _ _ => (hjis _).mp⟩
  | gbk => exact ⟨decodeGb18030_run tables .none, fun h => absurd rfl h⟩
  | gb18030 => exact ⟨decodeGb18030_run tables .none, fun _ h => absurd rfl h⟩
  | eucKr => exact ⟨fun _ => decodeEucKr_eq _ _, fun _ _ _ => trivial⟩
  | big5 => exact ⟨fun _ => decodeBig5_eq _ _, fun _ _ _ => trivial⟩

/-- Tables without a character. -/
def bareTables : Tables where
  windows1252 := 0
  iso8859_2 := 0
  iso8859_15 := 0
  jis0208 := 0
  eucKr := 0
  big5 := 0
  gb18030 := 0
  rangesPtr := []
  rangesCp := []
  ranges_length := rfl
  ranges_sorted := .nil

def bareJis0212 : Jis0212 := ⟨fun _ => none, nofun⟩

/-- The sign of the euro, a third byte that is lost, and two errors for one end. -/
theorem legacy_decoding_fails :
    decode bareTables [0x80] .gb18030 ≠ standardDecode bareTables bareJis0212 [0x80] .gb18030 ∧
    decode bareTables [0x81, 0x30, 0x81, 0xFF] .gb18030 ≠
      standardDecode bareTables bareJis0212 [0x81, 0x30, 0x81, 0xFF] .gb18030 ∧
    decode bareTables [0x00, 0xD8, 0x41] .utf16Le ≠
      standardDecode bareTables bareJis0212 [0x00, 0xD8, 0x41] .utf16Le := by
  refine ⟨?_, ?_, (decodeUtf16_iff false _).not.mpr (by decide)⟩
  · have hcode : (decodeGb18030 bareTables).decode [0x80] = [replacement] := by
      simp [Decoder.decode, run_cons, run_nil, decodeGb18030, gb18030Next]
    have hstandard : (standardGb18030 bareTables).decode [0x80] = ['€'] := by
      simp [Decoder.decode, run_cons, run_nil, gb18030, Encodings.gb18030Next, ascii]
    exact ne_of_eq_of_ne hcode (ne_of_ne_of_eq (by decide) hstandard.symm)
  · have hcode : (decodeGb18030 bareTables).decode [0x81, 0x30, 0x81, 0xFF] =
        [replacement, '0', replacement, replacement] := by
      simp [Decoder.decode, run_cons, run_nil, decodeGb18030, gb18030Next, between]
    have hstandard : (standardGb18030 bareTables).decode [0x81, 0x30, 0x81, 0xFF] =
        [replacement, '0', replacement] := by
      simp [Decoder.decode, run_cons, run_nil, gb18030, Encodings.gb18030Next, ascii, between,
        gb18030Pointer, putBack]
    exact ne_of_eq_of_ne hcode (ne_of_ne_of_eq (by decide) hstandard.symm)

end Conclave.Unicode
