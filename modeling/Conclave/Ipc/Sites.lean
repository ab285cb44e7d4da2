import Conclave.Lib.Cuts
import Conclave.Ipc.RendererHost

/-! The labels of a host in site keys are those of the parsed host. -/

namespace Conclave.Ipc

open Lib

variable (casing : Casing)

/-- The last two labels, or three under a suffix of two. -/
def registrableLabels (labels : List Text) : List Text :=
  if commonTwoLabelSuffixes.contains (['.'].intercalate (labels.drop (labels.length - 2))) then
    labels.drop (labels.length - 3)
  else labels.drop (labels.length - 2)

def registrableDomain (host : Text) : List Text := registrableLabels (segments host)

/-- An address between brackets, or one of four numbers. -/
def isIpHost (host : Text) : Prop := '[' ∈ host ∨ tryParseIpv4 host ≠ .ok none

def Scheme.isHttp (s : Scheme) : Prop := s = http ∨ s = https

/-- One scheme, and one host or domain names with one registrable domain. -/
def SameSite (u v : Url) : Prop :=
  u.scheme = v.scheme ∧
    (u.host = v.host ∨
      ¬ isIpHost u.host ∧ ¬ isIpHost v.host ∧ registrableDomain u.host = registrableDomain v.host)

/-! ### Punycode -/

variable {P : Char → Prop}

theorem variableLength_forall (hdigit : ∀ d < 36, P (digitToChar d)) {bias fuel k q : ℕ}
    (h : q < fuel) : ∀ c ∈ variableLength bias fuel k q, P c := by
  induction fuel generalizing k q with
  | zero => exact absurd h q.not_lt_zero
  | succ fuel ih =>
    unfold variableLength
    intro c hc
    extract_lets t at hc
    have ht : 1 ≤ t ∧ t ≤ 26 := by
      show 1 ≤ (if k ≤ bias + 1 then 1 else if bias + 26 ≤ k then 26 else k - bias) ∧
        (if k ≤ bias + 1 then 1 else if bias + 26 ≤ k then 26 else k - bias) ≤ 26
      split_ifs <;> omega
    split at hc
    · rw [List.mem_singleton.mp hc]
      exact hdigit q (by omega)
    · cases List.mem_cons.mp hc with
      | inl h' =>
        have hmod : (q - t) % (36 - t) < 36 - t := Nat.mod_lt _ (by omega)
        rw [h']
        exact hdigit _ (by omega)
      | inr h' =>
        have hdiv : (q - t) / (36 - t) ≤ q - t := Nat.div_le_self _ _
        exact ih (by omega) c h'

theorem next_forall (hdigit : ∀ d < 36, P (digitToChar d)) {basic n : ℕ} {e : Encoder}
    (h : ∀ c ∈ e.output, P c) (cp : ℕ) : ∀ c ∈ (e.next basic n cp).output, P c := by
  unfold Encoder.next
  extract_lets delta
  split
  · intro c hc
    cases List.mem_append.mp hc with
    | inl hc => exact h c hc
    | inr hc => exact variableLength_forall hdigit (Nat.lt_succ_self delta) c hc
  · exact h

theorem encodePasses_forall (hdigit : ∀ d < 36, P (digitToChar d)) {codePoints : List ℕ}
    {basic fuel n : ℕ} {e : Encoder} (h : ∀ c ∈ e.output, P c) :
    ∀ c ∈ encodePasses codePoints basic fuel n e, P c := by
  induction fuel generalizing n e with
  | zero => exact h
  | succ fuel ih =>
    unfold encodePasses
    split
    · extract_lets m delta e'
      have hfold : ∀ c ∈ e'.output, P c :=
        List.foldlRecOn (motive := fun e => ∀ c ∈ e.output, P c) codePoints
          (Encoder.next basic m) (b := { e with delta := delta }) h
          fun e he cp _ => next_forall hdigit he cp
      exact ih hfold
    · exact h

/-- Punycode writes its digits, a dash, and the ASCII of the text. -/
theorem punycodeEncode_forall {input : Text} (hdigit : ∀ d < 36, P (digitToChar d)) (hdash : P '-')
    (hbasic : ∀ c ∈ input, isAscii c → P c) : ∀ c ∈ punycodeEncode input, P c := by
  apply encodePasses_forall hdigit
  have houtput : ∀ c ∈ input.filter isAscii, P c := fun c hc =>
    hbasic c (List.mem_filter.mp hc).1 (List.mem_filter.mp hc).2
  intro c hc
  simp only at hc
  split at hc
  · cases List.mem_append.mp hc with
    | inl hc => exact houtput c hc
    | inr hc => exact List.mem_singleton.mp hc ▸ hdash
  · exact houtput c hc

theorem digitToChar_isAlphanum {d : ℕ} (h : d < 36) : (digitToChar d).isAlphanum := by
  have hall : ∀ d < 36, (digitToChar d).isAlphanum := by decide
  exact hall d h

/-- What Punycode writes of its own accord. -/
def isPunycode (input : Text) (c : Char) : Prop :=
  c.isAlphanum ∨ c = '-' ∨ isAscii c ∧ c ∈ input

theorem punycodeEncode_isPunycode (input : Text) :
    ∀ c ∈ punycodeEncode input, isPunycode input c :=
  punycodeEncode_forall (fun _ hd => .inl (digitToChar_isAlphanum hd)) (.inr (.inl rfl))
    fun _ hc hascii => .inr (.inr ⟨hascii, hc⟩)

/-! ### Labels -/

theorem toLower_eq_dot (c : Char) : c.toLower = '.' ↔ c = '.' := Text.toLower_eq rfl rfl c

theorem isAscii_toLower (c : Char) : isAscii c.toLower = isAscii c := by
  unfold isAscii
  cases Text.toLower_cases c with
  | inl h => exact decide_eq_decide.mpr (by omega)
  | inr h => rw [h.2]

theorem all_isAscii_lower (t : Text) : (Text.toAsciiLowercase t).all isAscii = t.all isAscii := by
  rw [Text.toAsciiLowercase, List.all_map]
  congr 1
  funext c
  exact isAscii_toLower c

theorem lower_lower (t : Text) :
    Text.toAsciiLowercase (Text.toAsciiLowercase t) = Text.toAsciiLowercase t := by
  unfold Text.toAsciiLowercase
  rw [List.map_map]
  exact List.map_congr_left fun c _ => Text.toLower_toLower c

theorem normalizeLabel_lower (label : Text) :
    normalizeLabel casing (Text.toAsciiLowercase label) = normalizeLabel casing label := by
  unfold normalizeLabel
  rw [all_isAscii_lower, lower_lower, casing.toLowercase_ascii]

theorem normalizeLabel_ascii {label : Text} (h : label.all isAscii) :
    normalizeLabel casing label = Text.toAsciiLowercase label := if_pos h

theorem normalizeLabel_eq_nil (label : Text) : normalizeLabel casing label = [] ↔ label = [] := by
  unfold normalizeLabel
  split
  · exact List.map_eq_nil_iff
  · next h =>
    constructor
    · intro hnil
      exact absurd hnil (by simp)
    · rintro rfl
      exact absurd rfl h

/-- A character of a normal label that is none of Punycode's own comes from the label. -/
theorem mem_of_mem_normalizeLabel {label : Text} {c : Char} (hascii : isAscii c)
    (halnum : c.isAlphanum = false) (hdash : c ≠ '-') (h : c ∈ normalizeLabel casing label) :
    c ∈ label := by
  have hcase : c.isUpper = false ∧ c.isLower = false ∧ c.isDigit = false := by
    simpa [Char.isAlphanum, Char.isAlpha, and_assoc] using halnum
  unfold normalizeLabel at h
  split at h
  · obtain ⟨d, hd, hlower⟩ := List.mem_map.mp h
    exact (Text.toLower_eq hcase.1 hcase.2.1 d).mp hlower ▸ hd
  · cases List.mem_append.mp h with
    | inl h =>
      have hxn : c ∈ ['x', 'n', '-', '-'] := h
      simp only [List.mem_cons, List.not_mem_nil, hdash, or_false] at hxn
      rcases hxn with rfl | rfl <;> exact absurd halnum (by decide)
    | inr h =>
      rcases punycodeEncode_isPunycode _ c h with h | h | ⟨-, h⟩
      · exact absurd (halnum.symm.trans h) Bool.false_ne_true
      · exact absurd h hdash
      · cases casing.ascii_mem label c h hascii with
        | inl h => exact absurd (halnum.symm.trans h) Bool.false_ne_true
        | inr h => exact h

theorem dot_not_mem_normalizeLabel {label : Text} (h : '.' ∉ label) :
    '.' ∉ normalizeLabel casing label :=
  fun hmem => h (mem_of_mem_normalizeLabel casing rfl rfl (by decide) hmem)

/-! ### Segments -/

theorem segments_intercalate {labels : List Text} (hne : labels ≠ [])
    (h : ∀ label ∈ labels, label ≠ [] ∧ '.' ∉ label) :
    segments (['.'].intercalate labels) = labels := by
  unfold segments
  rw [List.splitOn_intercalate '.' (fun label hl => (h label hl).2) hne, List.filter_eq_self]
  exact fun label hl => decide_eq_true (h label hl).1

theorem mem_segments {host label : Text} (h : label ∈ segments host) :
    label ≠ [] ∧ '.' ∉ label :=
  ⟨of_decide_eq_true (List.mem_filter.mp h).2,
    not_mem_of_mem_splitOn '.' host label (List.mem_filter.mp h).1⟩

theorem segments_lower (host : Text) :
    segments (Text.toAsciiLowercase host) = (segments host).map Text.toAsciiLowercase := by
  unfold segments
  rw [Text.toAsciiLowercase, splitOn_map toLower_eq_dot, List.filter_map]
  congr 1
  apply List.filter_congr
  intro label _
  simp

theorem segments_rdropWhile (host : Text) :
    segments (host.rdropWhile (· = '.')) = segments host := by
  induction host using List.reverseRecOn with
  | nil => rfl
  | append_singleton host c ih =>
    rw [List.rdropWhile_concat]
    split
    · next hc =>
      obtain rfl := of_decide_eq_true hc
      rw [ih]
      unfold segments
      rw [List.splitOn_append_cons_self]
      simp
    · rfl

theorem drop_ne_nil {labels : List Text} (h : 2 < labels.length) {n : ℕ} (hn : 0 < n) :
    labels.drop (labels.length - n) ≠ [] := by
  rw [Ne, List.drop_eq_nil_iff]
  omega

/-- The labels that stay in the key of a site. -/
theorem segments_registrableHost (host : Text) :
    segments (registrableHost host) = registrableDomain (Text.toAsciiLowercase host) := by
  have hlower : segments (Text.toAsciiLowercase (host.rdropWhile (· = '.'))) =
      segments (Text.toAsciiLowercase host) := by
    rw [segments_lower, segments_rdropWhile, ← segments_lower]
  unfold registrableHost
  extract_lets lower labels
  have hlabels : labels = segments (Text.toAsciiLowercase host) := hlower
  have hmem : ∀ n, ∀ label ∈ labels.drop (labels.length - n), label ≠ [] ∧ '.' ∉ label :=
    fun n label hl => mem_segments (List.mem_of_mem_drop hl)
  unfold registrableDomain registrableLabels
  rw [← hlabels]
  simp only [List.contains_iff_mem]
  split
  · next hle =>
    have hthree : labels.length - 3 = 0 := by omega
    have htwo : labels.length - 2 = 0 := by omega
    rw [hthree, htwo, List.drop_zero, ite_self]
  · next hgt =>
    split
    · exact segments_intercalate (drop_ne_nil (by omega) (by omega)) (hmem 3)
    · exact segments_intercalate (drop_ne_nil (by omega) (by omega)) (hmem 2)

theorem suffix_chars : ∀ suffix ∈ commonTwoLabelSuffixes, ∀ c ∈ suffix, isAscii c ∧ c ≠ '-' := by
  simp [commonTwoLabelSuffixes, isAscii]

/-- A suffix is of ASCII labels alone, and those that are not never make one. -/
theorem map_normalizeLabel_of_suffix {labels : List Text}
    (hlower : ∀ label ∈ labels, Text.toAsciiLowercase label = label)
    (h : ['.'].intercalate labels ∈ commonTwoLabelSuffixes ∨
      ['.'].intercalate (labels.map (normalizeLabel casing)) ∈ commonTwoLabelSuffixes) :
    labels.map (normalizeLabel casing) = labels := by
  have hascii : ∀ label ∈ labels, label.all isAscii := by
    intro label hl
    cases h with
    | inl h =>
      exact List.all_eq_true.mpr fun c hc => (suffix_chars _ h c (mem_intercalate hl c hc)).1
    | inr h =>
      by_contra hnot
      have hdash : '-' ∈ normalizeLabel casing label := by
        rw [normalizeLabel, if_neg hnot]
        exact List.mem_append_left _ (by decide)
      exact (suffix_chars _ h '-' (mem_intercalate (List.mem_map_of_mem hl) '-' hdash)).2 rfl
  calc labels.map (normalizeLabel casing) = labels.map id :=
        List.map_congr_left fun label hl =>
          (normalizeLabel_ascii casing (hascii label hl)).trans (hlower label hl)
    _ = labels := List.map_id labels

theorem registrableLabels_map {labels : List Text}
    (hlower : ∀ label ∈ labels, Text.toAsciiLowercase label = label) :
    registrableLabels (labels.map (normalizeLabel casing)) =
      (registrableLabels labels).map (normalizeLabel casing) := by
  unfold registrableLabels
  rw [List.length_map, ← List.map_drop, ← List.map_drop]
  have hiff : ['.'].intercalate ((labels.drop (labels.length - 2)).map (normalizeLabel casing)) ∈
      commonTwoLabelSuffixes ↔
      ['.'].intercalate (labels.drop (labels.length - 2)) ∈ commonTwoLabelSuffixes := by
    have hlast : ∀ label ∈ labels.drop (labels.length - 2), Text.toAsciiLowercase label = label :=
      fun label hl => hlower label (List.mem_of_mem_drop hl)
    have hmap := map_normalizeLabel_of_suffix casing hlast
    constructor
    · exact fun h => hmap (.inr h) ▸ h
    · exact fun h => (hmap (.inl h)).symm ▸ h
  simp only [List.contains_iff_mem, hiff]
  split <;> rfl

/-! ### Hosts -/

variable {casing}

theorem normalizeHost_allowed {host normal : Text} (h : normalizeHost casing host = .ok normal) :
    ∀ c ∈ host, isForbiddenHostChar c = false := by
  unfold normalizeHost at h
  split at h
  · nomatch h
  · split at h
    · nomatch h
    · next hany =>
      intro c hc
      by_contra hforbidden
      exact hany (List.any_eq_true.mpr ⟨c, hc, Bool.eq_true_of_not_eq_false hforbidden⟩)

/-- The normal form of a host that is no number works on its labels one by one. -/
theorem normalizeHost_domain {host normal : Text} (h : normalizeHost casing host = .ok normal)
    (hdomain : tryParseIpv4 (Text.toAsciiLowercase host) = .ok none) :
    normal = ['.'].intercalate ((host.splitOn '.').map (normalizeLabel casing)) ∧
      tryParseIpv4 normal = .ok none := by
  unfold normalizeHost at h
  split at h
  · nomatch h
  · split at h
    · nomatch h
    · split at h
      · next hascii =>
        rw [hdomain] at h
        obtain rfl := Except.ok.inj h
        have hparts : (host.splitOn '.').map (normalizeLabel casing) =
            (host.splitOn '.').map Text.toAsciiLowercase :=
          List.map_congr_left fun part hpart => normalizeLabel_ascii casing
            (List.all_eq_true.mpr fun c hc =>
              List.all_eq_true.mp hascii c (mem_of_mem_splitOn hpart c hc))
        refine ⟨?_, hdomain⟩
        rw [hparts]
        show host.map Char.toLower = ['.'].intercalate ((host.splitOn '.').map (List.map Char.toLower))
        rw [← splitOn_map toLower_eq_dot, List.intercalate_splitOn]
      · next hascii =>
        obtain rfl := Except.ok.inj h
        refine ⟨rfl, ?_⟩
        -- A label outside ASCII brings its dashes along.
        obtain ⟨part, hpart, hpartAscii⟩ : ∃ part ∈ host.splitOn '.', ¬ part.all isAscii := by
          by_contra hall
          refine hascii (List.all_eq_true.mpr fun c hc => ?_)
          have hjoin : ['.'].intercalate (host.splitOn '.') = host := List.intercalate_splitOn '.'
          rw [← hjoin] at hc
          cases mem_or_of_mem_intercalate hc with
          | inl hdot => exact List.mem_singleton.mp hdot ▸ rfl
          | inr hpart =>
            obtain ⟨part, hpart, hc⟩ := hpart
            exact List.all_eq_true.mp (not_not.mp fun hnot => hall ⟨part, hpart, hnot⟩) c hc
        have hdash : '-' ∈ ['.'].intercalate ((host.splitOn '.').map (normalizeLabel casing)) := by
          apply mem_intercalate (List.mem_map_of_mem hpart)
          rw [normalizeLabel, if_neg hpartAscii]
          exact List.mem_append_left _ (by simp)
        unfold tryParseIpv4
        rw [if_pos]
        rw [Bool.not_eq_true', List.all_eq_false]
        exact ⟨'-', hdash, by decide⟩

theorem segments_normalize (host : Text) :
    segments (['.'].intercalate ((host.splitOn '.').map (normalizeLabel casing))) =
      (segments host).map (normalizeLabel casing) := by
  unfold segments
  rw [splitOn_intercalate_map fun part => dot_not_mem_normalizeLabel casing, List.filter_map]
  congr 1
  apply List.filter_congr
  intro label _
  simp [normalizeLabel_eq_nil]

/-- The registrable domain of the parsed host is that of the key, label by label. -/
theorem registrableDomain_normalizeHost {host normal : Text}
    (h : normalizeHost casing host = .ok normal)
    (hdomain : tryParseIpv4 (Text.toAsciiLowercase host) = .ok none) :
    ¬ isIpHost normal ∧
      registrableDomain normal = (segments (registrableHost host)).map (normalizeLabel casing) := by
  obtain ⟨rfl, hnone⟩ := normalizeHost_domain h hdomain
  constructor
  · rintro (hbracket | hip)
    · cases mem_or_of_mem_intercalate hbracket with
      | inl hdot => exact absurd hdot (by decide)
      | inr hpart =>
        obtain ⟨part, hpart, hmem⟩ := hpart
        obtain ⟨label, hlabel, rfl⟩ := List.mem_map.mp hpart
        have hlabelMem := mem_of_mem_normalizeLabel casing rfl rfl (by decide) hmem
        have hallowed := normalizeHost_allowed h '[' (mem_of_mem_splitOn hlabel '[' hlabelMem)
        exact absurd hallowed (by decide)
    · exact hip hnone
  · have hlower : ∀ label ∈ segments (Text.toAsciiLowercase host),
        Text.toAsciiLowercase label = label := by
      intro label hl
      rw [segments_lower] at hl
      obtain ⟨label', -, rfl⟩ := List.mem_map.mp hl
      exact lower_lower label'
    have hmap : (segments host).map (normalizeLabel casing) =
        (segments (Text.toAsciiLowercase host)).map (normalizeLabel casing) := by
      rw [segments_lower, List.map_map]
      exact List.map_congr_left fun label _ => (normalizeLabel_lower casing label).symm
    rw [segments_registrableHost, registrableDomain, segments_normalize, hmap,
      registrableLabels_map casing hlower, registrableDomain]

/-! ### Users -/

/-- What is behind the last at sign of a host, where labels stand for the host. -/
def behindUser : List Text → List Text
  | [] => []
  | part :: parts =>
    if parts.any fun part => '@' ∈ part then behindUser parts
    else part.rtakeWhile (· ≠ '@') :: parts

/-- The same without the empty ones. -/
def labelsBehindUser (labels : List Text) : List Text := (behindUser labels).filter (· ≠ [])

def hasUser (labels : List Text) : Bool := labels.any fun label => '@' ∈ label

theorem behindUser_cons (part : Text) (parts : List Text) : behindUser (part :: parts) =
    if hasUser parts then behindUser parts else part.rtakeWhile (· ≠ '@') :: parts := rfl

theorem rtakeWhile_of_notMem {t : Text} (h : '@' ∉ t) : t.rtakeWhile (· ≠ '@') = t :=
  List.rtakeWhile_eq_self_iff.mpr fun _ hc => decide_eq_true fun heq => h (heq ▸ hc)

theorem rtakeWhile_cons (c : Char) (t : Text) : (c :: t).rtakeWhile (· ≠ '@') =
    if '@' ∈ t then t.rtakeWhile (· ≠ '@') else if c = '@' then t else c :: t := by
  induction t using List.reverseRecOn with
  | nil =>
    rw [if_neg List.not_mem_nil, ← List.nil_append [c], List.rtakeWhile_concat]
    by_cases hc : c = '@'
    · simp [hc]
    · simp [hc]
  | append_singleton t d ih =>
    rw [← List.cons_append, List.rtakeWhile_concat, List.rtakeWhile_concat, ih]
    by_cases hd : d = '@'
    · simp [hd]
    · have hmem : '@' ∈ t ++ [d] ↔ '@' ∈ t := by simp [Ne.symm hd]
      simp only [hmem, hd, ne_eq, not_false_eq_true, decide_true, if_true]
      split_ifs <;> rfl

theorem hasUser_iff {labels : List Text} : hasUser labels = true ↔ ∃ l ∈ labels, '@' ∈ l := by
  simp [hasUser]

theorem hasUser_splitOn (t : Text) : hasUser (t.splitOn '.') = true ↔ '@' ∈ t := by
  rw [hasUser_iff]
  constructor
  · rintro ⟨part, hpart, hmem⟩
    exact mem_of_mem_splitOn hpart '@' hmem
  · intro hmem
    have hjoin : ['.'].intercalate (t.splitOn '.') = t := List.intercalate_splitOn '.'
    rw [← hjoin] at hmem
    exact (mem_or_of_mem_intercalate hmem).resolve_left (by decide)

theorem splitOn_rtakeWhile (t : Text) :
    (t.rtakeWhile (· ≠ '@')).splitOn '.' = behindUser (t.splitOn '.') := by
  induction t with
  | nil => rfl
  | cons c t ih =>
    have huser := hasUser_splitOn t
    rw [rtakeWhile_cons, List.splitOn_cons_eq_if_modifyHead]
    cases hparts : t.splitOn '.' with
    | nil => exact absurd hparts (List.splitOn_ne_nil _ _)
    | cons part parts =>
      rw [hparts] at ih huser
      by_cases hmem : '@' ∈ t
      · -- the last at sign is in what follows
        rw [if_pos hmem, ih]
        split_ifs
        · rw [behindUser_cons [], if_pos (huser.mpr hmem)]
        · rw [List.modifyHead_cons, behindUser_cons, behindUser_cons]
          split_ifs with hlater
          · rfl
          · have hpart : '@' ∈ part := by
              have hany := huser.mpr hmem
              rw [hasUser, List.any_cons, Bool.or_eq_true] at hany
              exact of_decide_eq_true (hany.resolve_right hlater)
            rw [rtakeWhile_cons, if_pos hpart]
      · have hnot : ¬ hasUser (part :: parts) = true := fun h => hmem (huser.mp h)
        have hboth := hnot
        rw [hasUser, List.any_cons, Bool.or_eq_true, not_or] at hboth
        have hpart : '@' ∉ part := fun h => hboth.1 (decide_eq_true h)
        have hlater : ¬ hasUser parts = true := hboth.2
        rw [if_neg hmem]
        split_ifs with hat hdot hdot
        · rw [of_decide_eq_true hdot] at hat
          exact absurd hat (by decide)
        · rw [hparts, List.modifyHead_cons, behindUser_cons, if_neg hlater, rtakeWhile_cons,
            if_neg hpart, if_pos hat]
        · rw [behindUser_cons, if_neg hnot, List.splitOn_cons_eq_if_modifyHead, if_pos hdot, hparts]
          rfl
        · rw [List.modifyHead_cons, behindUser_cons, if_neg hlater, rtakeWhile_cons, if_neg hpart,
            if_neg hat, List.splitOn_cons_eq_if_modifyHead, if_neg hdot, hparts, List.modifyHead_cons]

theorem behindUser_of_not_hasUser {labels : List Text} (h : hasUser labels = false) :
    behindUser labels = labels := by
  cases labels with
  | nil => rfl
  | cons label labels =>
    rw [hasUser, List.any_cons, Bool.or_eq_false_iff] at h
    rw [behindUser_cons, hasUser, h.2, if_neg Bool.false_ne_true,
      rtakeWhile_of_notMem (of_decide_eq_false h.1)]

theorem hasUser_filter (parts : List Text) : hasUser (parts.filter (· ≠ [])) = hasUser parts := by
  rw [Bool.eq_iff_iff, hasUser_iff, hasUser_iff]
  refine exists_congr fun part => ?_
  rw [List.mem_filter, and_assoc]
  refine and_congr_right fun _ => and_iff_right_of_imp fun hmem => ?_
  exact decide_eq_true (List.ne_nil_of_mem hmem)

theorem labelsBehindUser_filter (parts : List Text) :
    labelsBehindUser (parts.filter (· ≠ [])) = labelsBehindUser parts := by
  induction parts with
  | nil => rfl
  | cons part parts ih =>
    by_cases hlater : hasUser parts = true
    · have hright : labelsBehindUser (part :: parts) = labelsBehindUser parts := by
        rw [labelsBehindUser, behindUser_cons, if_pos hlater, labelsBehindUser]
      rw [hright, ← ih, List.filter_cons]
      split_ifs
      · rw [labelsBehindUser, behindUser_cons, hasUser_filter, if_pos hlater, labelsBehindUser]
      · rfl
    · rw [labelsBehindUser, labelsBehindUser, behindUser_cons part parts, if_neg hlater]
      by_cases hnil : part = []
      · rw [hnil, List.filter_cons_of_neg (by simp), behindUser_of_not_hasUser]
        · simp [List.rtakeWhile_nil]
        · rw [hasUser_filter]
          exact Bool.eq_false_of_not_eq_true hlater
      · rw [List.filter_cons_of_pos (by simpa using hnil), behindUser_cons, hasUser_filter,
          if_neg hlater, List.filter_cons, List.filter_cons, List.filter_filter]
        simp only [Bool.and_self]

theorem segments_rtakeWhile (t : Text) :
    segments (t.rtakeWhile (· ≠ '@')) = labelsBehindUser (segments t) := by
  rw [segments, splitOn_rtakeWhile, segments, labelsBehindUser_filter, labelsBehindUser]

theorem length_labelsBehindUser (labels : List Text) :
    (labelsBehindUser labels).length ≤ labels.length := by
  refine (List.length_filter_le _ _).trans ?_
  induction labels with
  | nil => exact le_rfl
  | cons label labels ih =>
    rw [behindUser_cons]
    split_ifs
    · exact ih.trans (Nat.le_succ _)
    · exact le_rfl

/-- The last labels, as many as there are up to a number. -/
def lastLabels (n : ℕ) (labels : List Text) : List Text := labels.drop (labels.length - n)

theorem labelsBehindUser_last {labels : List Text} (hne : ∀ label ∈ labels, label ≠ []) (n : ℕ) :
    labelsBehindUser (lastLabels n labels) = lastLabels n (labelsBehindUser labels) := by
  induction labels with
  | nil => simp [lastLabels, labelsBehindUser, behindUser]
  | cons label labels ih =>
    have hrest : ∀ label ∈ labels, label ≠ [] := fun l hl => hne l (List.mem_cons_of_mem _ hl)
    by_cases hlen : n ≤ labels.length
    · have hlast : lastLabels n (label :: labels) = lastLabels n labels := by
        have hdrop : (label :: labels).length - n = labels.length - n + 1 := by
          rw [List.length_cons]
          omega
        rw [lastLabels, hdrop, List.drop_succ_cons, lastLabels]
      rw [hlast, ih hrest]
      by_cases hlater : hasUser labels = true
      · rw [labelsBehindUser, labelsBehindUser, behindUser_cons, if_pos hlater]
      · have hself : labelsBehindUser labels = labels := by
          rw [labelsBehindUser, behindUser_of_not_hasUser (Bool.eq_false_of_not_eq_true hlater)]
          exact List.filter_eq_self.mpr fun l hl => decide_eq_true (hrest l hl)
        have hfilter : labels.filter (· ≠ []) = labels :=
          List.filter_eq_self.mpr fun l hl => decide_eq_true (hrest l hl)
        rw [hself, labelsBehindUser, behindUser_cons, if_neg hlater, List.filter_cons, hfilter]
        split_ifs
        · have hdrop : (label.rtakeWhile (· ≠ '@') :: labels).length - n = labels.length - n + 1 := by
            rw [List.length_cons]
            omega
          rw [lastLabels, lastLabels, hdrop, List.drop_succ_cons]
        · rfl
    · have hshort : (labelsBehindUser (label :: labels)).length ≤ n :=
        (length_labelsBehindUser _).trans (by rw [List.length_cons]; omega)
      rw [lastLabels, lastLabels, Nat.sub_eq_zero_of_le hshort, List.drop_zero,
        Nat.sub_eq_zero_of_le (by rw [List.length_cons]; omega), List.drop_zero]

theorem registrableLabels_behindUser {labels : List Text} (hne : ∀ label ∈ labels, label ≠ []) :
    registrableLabels (labelsBehindUser labels) = labelsBehindUser (registrableLabels labels) := by
  have hlast := labelsBehindUser_last hne
  have hcut : ∀ labels : List Text, registrableLabels labels =
      if ['.'].intercalate (lastLabels 2 labels) ∈ commonTwoLabelSuffixes then lastLabels 3 labels
      else lastLabels 2 labels := by
    intro labels
    by_cases hsuffix : ['.'].intercalate (lastLabels 2 labels) ∈ commonTwoLabelSuffixes
    · rw [if_pos hsuffix]
      exact if_pos (List.contains_iff_mem.mpr hsuffix)
    · rw [if_neg hsuffix]
      exact if_neg fun h => hsuffix (List.contains_iff_mem.mp h)
  rw [hcut, hcut, ← hlast, ← hlast]
  by_cases huser : hasUser (lastLabels 2 labels) = true
  · -- no suffix has an at sign, and the third label from the end is in front of it
    have hnot : ['.'].intercalate (lastLabels 2 labels) ∉ commonTwoLabelSuffixes := by
      intro hmem
      obtain ⟨label, hlabel, hat⟩ := hasUser_iff.mp huser
      have hnone : ∀ suffix ∈ commonTwoLabelSuffixes, '@' ∉ suffix := by
        simp [commonTwoLabelSuffixes]
      exact hnone _ hmem (mem_intercalate hlabel '@' hat)
    have hthree : labelsBehindUser (lastLabels 3 labels) = labelsBehindUser (lastLabels 2 labels) := by
      by_cases hlen : labels.length < 3
      · have hzero : labels.length - 3 = 0 ∧ labels.length - 2 = 0 := by omega
        rw [lastLabels, lastLabels, hzero.1, hzero.2]
      · obtain ⟨label, hdrop⟩ : ∃ label, lastLabels 3 labels = label :: lastLabels 2 labels := by
          have hlt : labels.length - 3 < labels.length := by omega
          have hnext : labels.length - 3 + 1 = labels.length - 2 := by omega
          exact ⟨_, (List.drop_eq_getElem_cons hlt).trans (by rw [hnext, lastLabels])⟩
        rw [hdrop, labelsBehindUser, behindUser_cons, if_pos huser, labelsBehindUser]
    rw [hthree, ite_self, if_neg hnot]
  · have hself : labelsBehindUser (lastLabels 2 labels) = lastLabels 2 labels := by
      rw [labelsBehindUser, behindUser_of_not_hasUser (Bool.eq_false_of_not_eq_true huser)]
      exact List.filter_eq_self.mpr fun l hl => decide_eq_true (hne l (List.mem_of_mem_drop hl))
    rw [hself]
    split_ifs
    · rfl
    · exact hself.symm

/-- The labels of a key without the user in front of the host. -/
theorem segments_registrableHost_user (host : Text) :
    segments (registrableHost (host.rtakeWhile (· ≠ '@'))) =
      labelsBehindUser (segments (registrableHost host)) := by
  have hlower : Text.toAsciiLowercase (host.rtakeWhile (· ≠ '@')) =
      (Text.toAsciiLowercase host).rtakeWhile (· ≠ '@') := by
    unfold Text.toAsciiLowercase
    rw [List.rtakeWhile, List.rtakeWhile, ← List.map_reverse, List.takeWhile_map, List.map_reverse]
    congr 3
    funext c
    simp [Text.toLower_eq (d := '@') rfl rfl c]
  rw [segments_registrableHost, segments_registrableHost, registrableDomain, registrableDomain,
    hlower, segments_rtakeWhile, registrableLabels_behindUser fun label hl => (mem_segments hl).1]

end Conclave.Ipc
