import Conclave.Ipc.Isolation
import Conclave.Lib.Outcome
import Conclave.Urls.Addresses
import Conclave.Urls.Parse

/-! Hosts and ports are kept: those that are parsed can be printed and parsed again. -/

namespace Conclave.Urls

open Lib Ipc

variable {casing : Casing} {c : Char} {s t : Text}

/-! ### Names -/

/-- A text in lower case has no capital of ASCII. -/
def LowerCased (casing : Casing) : Prop :=
  ∀ t, Text.toAsciiLowercase (casing.toLowercase t) = casing.toLowercase t

/-- What the characters of a host in normal form are. -/
def IsNormal (c : Char) : Prop := isAscii c ∧ c.toLower = c

theorem lower_eq_self : Text.toAsciiLowercase s = s ↔ ∀ c ∈ s, c.toLower = c := by
  rw [Text.toAsciiLowercase]
  constructor
  · intro h c hc
    obtain ⟨i, hi, rfl⟩ := List.getElem_of_mem hc
    have hget := List.getElem_of_eq h (by rwa [List.length_map])
    rwa [List.getElem_map] at hget
  · intro h
    calc s.map Char.toLower = s.map id := List.map_congr_left h
      _ = s := List.map_id s

theorem isNormal_digitToChar : ∀ d < 36, IsNormal (digitToChar d) := by
  intro d hd
  have hall : ∀ d < 36, isAscii (digitToChar d) ∧ (digitToChar d).toLower = digitToChar d := by
    decide
  exact hall d hd

theorem isNormal_lower (h : s.all isAscii) : ∀ c ∈ Text.toAsciiLowercase s, IsNormal c := by
  rw [← all_isAscii_lower] at h
  exact fun c hc => ⟨List.all_eq_true.mp h c hc, lower_eq_self.mp (lower_lower s) c hc⟩

theorem isNormal_normalizeLabel (hcase : LowerCased casing) (label : Text) :
    ∀ c ∈ normalizeLabel casing label, IsNormal c := by
  rw [normalizeLabel]
  split_ifs with hascii
  · exact isNormal_lower hascii
  · intro c hc
    rcases List.mem_append.mp hc with hc | hc
    · have hxn : "xn--".toList.all fun c => isAscii c && c.toLower == c := by decide
      have hboth := List.all_eq_true.mp hxn c hc
      rwa [Bool.and_eq_true, beq_iff_eq] at hboth
    · refine punycodeEncode_forall isNormal_digitToChar ⟨rfl, rfl⟩ (fun c hc hascii => ?_) c hc
      exact ⟨hascii, lower_eq_self.mp (hcase label) c hc⟩

theorem exists_dotted (h : tryParseIpv4 s = .ok (some t)) : ∃ addr, t = dotted addr := by
  rw [tryParseIpv4] at h
  split_ifs at h
  · cases h
  · cases h
  · cases h
  cases hparts : (s.splitOn '.').mapM parsePart with
  | error e =>
    rw [hparts] at h
    cases h
  | ok parts =>
    rw [hparts] at h
    simp only [bind, Except.bind] at h
    cases hcombine : combine parts with
    | error e =>
      rw [hcombine] at h
      cases h
    | ok addr =>
      rw [hcombine] at h
      simp only [pure, Except.pure, Except.ok.injEq, Option.map_eq_some_iff] at h
      obtain ⟨addr, -, rfl⟩ := h
      exact ⟨addr, rfl⟩

/-- A text that is normal already. -/
theorem normalizeHost_self (hne : t ≠ []) (hallowed : ∀ c ∈ t, isForbiddenHostChar c = false)
    (hnormal : ∀ c ∈ t, IsNormal c)
    (hip : tryParseIpv4 t = .ok none ∨ tryParseIpv4 t = .ok (some t)) :
    normalizeHost casing t = .ok t := by
  have hany : t.any isForbiddenHostChar = false := by
    rw [List.any_eq_false]
    exact fun c hc => Bool.eq_false_iff.mp (hallowed c hc)
  have hascii : t.all isAscii := List.all_eq_true.mpr fun c hc => (hnormal c hc).1
  have hlower : Text.toAsciiLowercase t = t := lower_eq_self.mpr fun c hc => (hnormal c hc).2
  rw [normalizeHost, if_neg hne, hany, if_neg Bool.noConfusion, if_pos hascii, hlower]
  rcases hip with hip | hip <;> rw [hip] <;> rfl

theorem forall_digit {P : Char → Prop} (h : ∀ n < 10, P (Nat.digitChar n)) (hc : c.isDigit) : P c := by
  have hrange : 48 ≤ c.toNat ∧ c.toNat ≤ 57 := by
    rw [Char.isDigit, Bool.and_eq_true, decide_eq_true_eq, decide_eq_true_eq] at hc
    exact ⟨UInt32.le_iff_toNat_le.mp hc.1, UInt32.le_iff_toNat_le.mp hc.2⟩
  have heq : c = Nat.digitChar (c.toNat - 48) := by
    rw [← Char.toNat_inj, Nat.toNat_digitChar_of_lt_ten (by omega)]
    omega
  rw [heq]
  exact h _ (by omega)

theorem normalizeHost_dotted (addr : ℕ) : normalizeHost casing (dotted addr) = .ok (dotted addr) := by
  apply normalizeHost_self
  · simp [dotted]
  · intro c hc
    rcases mem_dotted hc with hdigit | rfl
    · have hall : ∀ n < 10, isForbiddenHostChar (Nat.digitChar n) = false := by decide
      exact forall_digit (P := fun c => isForbiddenHostChar c = false) hall hdigit
    · rfl
  · intro c hc
    rcases mem_dotted hc with hdigit | rfl
    · have hall : ∀ n < 10, isAscii (Nat.digitChar n) ∧
          (Nat.digitChar n).toLower = Nat.digitChar n := by decide
      exact forall_digit hall hdigit
    · exact ⟨rfl, rfl⟩
  · exact .inr (tryParseIpv4_dotted addr)

theorem isForbidden_of_mem_normalizeLabel (hforbidden : isForbiddenHostChar c)
    (h : c ∈ normalizeLabel casing s) : c ∈ s := by
  have hall : ['\x00', '\t', '\n', '\r', ' ', '#', '/', ':', '?', '@', '[', '\\', ']'].all
      fun c => isAscii c && !c.isAlphanum && c != '-' := by decide
  have hthree := List.all_eq_true.mp hall c (of_decide_eq_true hforbidden)
  rw [Bool.and_eq_true, Bool.and_eq_true, Bool.not_eq_true', bne_iff_ne] at hthree
  obtain ⟨⟨hascii, halnum⟩, hdash⟩ := hthree
  exact mem_of_mem_normalizeLabel casing hascii halnum hdash h

theorem isForbidden_of_mem_lower (hforbidden : isForbiddenHostChar c)
    (hascii : s.all isAscii) (h : c ∈ Text.toAsciiLowercase s) : c ∈ s := by
  rw [← normalizeLabel_ascii asciiCasing hascii] at h
  exact isForbidden_of_mem_normalizeLabel hforbidden h

theorem tryParseIpv4_of_not_ascii (h : ¬ s.all isAscii) :
    tryParseIpv4 (Text.toAsciiLowercase s) = .ok none := by
  rw [← all_isAscii_lower, Bool.not_eq_true, List.all_eq_false] at h
  obtain ⟨c, hc, hascii⟩ := h
  rw [tryParseIpv4, if_pos]
  rw [Bool.not_eq_true', List.all_eq_false]
  refine ⟨c, hc, ?_⟩
  intro halnum
  apply hascii
  have hle : c.toNat ≤ 122 := by
    simp only [Bool.or_eq_true, beq_iff_eq, Char.isAlphanum, Char.isAlpha, Char.isUpper,
      Char.isLower, Char.isDigit, Bool.and_eq_true, decide_eq_true_eq, ge_iff_le,
      UInt32.le_iff_toNat_le] at halnum
    rcases halnum with ((h | h) | h) | rfl
    · exact h.2.trans (by decide)
    · exact h.2
    · exact h.2.trans (by decide)
    · decide
  exact decide_eq_true (Nat.lt_of_le_of_lt hle (by omega))

/-- The normal form of a host is its own normal form. -/
theorem normalizeHost_idem (hcase : LowerCased casing) (h : normalizeHost casing s = .ok t) :
    normalizeHost casing t = .ok t := by
  have hallowed := normalizeHost_allowed h
  have hforbidden : ∀ {c}, isForbiddenHostChar c = true → c ∉ s := by
    intro c hc hmem
    rw [hallowed c hmem] at hc
    cases hc
  by_cases hascii : s.all isAscii
  · rw [normalizeHost] at h
    split_ifs at h with hne hany
    cases hip : tryParseIpv4 (Text.toAsciiLowercase s) with
    | error e =>
      rw [hip] at h
      cases h
    | ok found =>
      rw [hip] at h
      cases found with
      | some ipv4 =>
        cases h
        obtain ⟨addr, rfl⟩ := exists_dotted hip
        exact normalizeHost_dotted addr
      | none =>
        cases h
        refine normalizeHost_self ?_ ?_ (isNormal_lower hascii) (.inl hip)
        · exact fun hnil => hne (List.map_eq_nil_iff.mp hnil)
        · intro c hc
          by_contra hc'
          rw [Bool.not_eq_false] at hc'
          exact hforbidden hc' (isForbidden_of_mem_lower hc' hascii hc)
  · obtain ⟨rfl, hip⟩ := normalizeHost_domain h (tryParseIpv4_of_not_ascii hascii)
    have hmem : ∀ c ∈ ['.'].intercalate ((s.splitOn '.').map (normalizeLabel casing)),
        c = '.' ∨ ∃ label ∈ s.splitOn '.', c ∈ normalizeLabel casing label := by
      intro c hc
      rcases mem_or_of_mem_intercalate hc with hdot | ⟨part, hpart, hc⟩
      · exact .inl (List.mem_singleton.mp hdot)
      · obtain ⟨label, hlabel, rfl⟩ := List.mem_map.mp hpart
        exact .inr ⟨label, hlabel, hc⟩
    refine normalizeHost_self ?_ ?_ ?_ (.inl hip)
    · have hjoin : ['.'].intercalate (s.splitOn '.') = s := List.intercalate_splitOn '.'
      match hparts : s.splitOn '.' with
      | [] => exact absurd hparts (List.splitOn_ne_nil _ _)
      | [p] =>
        rw [hparts, List.intercalate_singleton] at hjoin
        rw [List.map_singleton, List.intercalate_singleton, hjoin, ne_eq, normalizeLabel_eq_nil]
        rintro rfl
        exact hascii rfl
      | p :: q :: r =>
        rw [List.map_cons, List.map_cons, List.intercalate_cons_cons]
        exact List.append_ne_nil_of_left_ne_nil
          (List.append_ne_nil_of_right_ne_nil _ (List.cons_ne_nil _ _)) _
    · intro c hc
      by_contra hc'
      rw [Bool.not_eq_false] at hc'
      rcases hmem c hc with rfl | ⟨label, hlabel, hc⟩
      · exact absurd hc' (by decide)
      · exact hforbidden hc'
          (mem_of_mem_splitOn hlabel c (isForbidden_of_mem_normalizeLabel hc' hc))
    · intro c hc
      rcases hmem c hc with rfl | ⟨label, -, hc⟩
      · exact ⟨rfl, rfl⟩
      · exact isNormal_normalizeLabel hcase label c hc

/-! ### Ports -/

theorem rdropWhile_colon (h : ':' ∉ t) (s : Text) :
    (s ++ ':' :: t).rdropWhile (· ≠ ':') = s ++ [':'] := by
  rw [rdropWhile_append_kept (by simp), List.rdropWhile_eq_nil_iff.mpr]
  exact fun c hc => decide_eq_true fun heq => h (heq ▸ hc)

theorem rtakeWhile_colon (h : ':' ∉ t) (s : Text) :
    (s ++ ':' :: t).rtakeWhile (· ≠ ':') = t := by
  have hwhole : (s ++ ':' :: t).rdropWhile (· ≠ ':') ++ (s ++ ':' :: t).rtakeWhile (· ≠ ':') =
      s ++ ':' :: t := List.rdropWhile_append_rtakeWhile
  rw [rdropWhile_colon h, List.append_assoc, List.singleton_append] at hwhole
  exact (List.cons.inj (List.append_cancel_left hwhole)).2

theorem parsePortStr_decimal {p : ℕ} (h : p ≤ 0xFFFF) : parsePortStr (decimal p) = .ok p := by
  have hnumeral := decimal_isNumeral p
  have hdigits : (decimal p).all Char.isDigit :=
    List.all_eq_true.mpr fun c hc => isDigit_of_mem_decimal hc
  have hplus : (decimal p).head? ≠ some '+' :=
    fun hhead => not_mem_decimal (c := '+') rfl p (List.mem_of_head? hhead)
  have hvalue : (decimal p).foldl (fun n c => 10 * n + (c.toNat - '0'.toNat)) 0 = p := by
    refine (List.foldl_ext _ _ _ fun n c hc => ?_).trans hnumeral.value
    rw [digitValue, if_pos (isDigit_of_mem_decimal hc)]
  rw [parsePortStr, if_neg, Text.parseUnsigned]
  · rw [if_neg hplus, hvalue, if_pos ⟨hnumeral.ne_nil, hdigits, by omega⟩]
    dsimp only
    rw [if_neg (by omega)]
  · rintro (hnil | hnot)
    · exact hnumeral.ne_nil hnil
    · exact hnot hdigits

theorem parsePortStr_le {p : ℕ} (h : parsePortStr s = .ok p) : p ≤ 0xFFFF := by
  rw [parsePortStr] at h
  split_ifs at h
  split at h
  · cases h
  · split_ifs at h with hlt
    cases h
    omega

/-! ### Authorities -/

/-- A host and a port as the parser leaves them. -/
inductive IsHostPort (casing : Casing) (scheme : Scheme) : Text → Option ℕ → Prop
  | empty : IsHostPort casing scheme [] none
  | address {inner : Text} {port : Option ℕ} (h : parseIpv6 inner = .ok inner)
      (hchars : ∀ c ∈ inner, isHexDigit c ∨ c = ':') (hport : ∀ p ∈ port, p ≤ 0xFFFF) :
      IsHostPort casing scheme ('[' :: inner ++ [']']) port
  | name {host : Text} {port : Option ℕ} (h : normalizeHost casing host = .ok host)
      (hport : ∀ p ∈ port, p ≤ 0xFFFF ∧ scheme.defaultPort ≠ some p) :
      IsHostPort casing scheme host port

theorem parsePortSuffix_le {port : Option ℕ} (h : parsePortSuffix s = .ok port) :
    ∀ p ∈ port, p ≤ 0xFFFF := by
  intro p hp
  rw [parsePortSuffix.eq_def] at h
  split at h
  · cases h
    cases hp
  · obtain ⟨q, hq, hsome⟩ := bind_eq_ok.mp h
    cases hsome
    cases hp
    exact parsePortStr_le hq
  · cases h

theorem isHostPort {scheme : Scheme} {host : Text} {port : Option ℕ} (hcase : LowerCased casing)
    (h : parseHostPort casing s scheme = .ok (host, port)) : IsHostPort casing scheme host port := by
  rw [parseHostPort.eq_def] at h
  split at h
  · cases h
    exact .empty
  · split_ifs at h
    obtain ⟨inner, hinner, h⟩ := bind_eq_ok.mp h
    obtain ⟨p, hp, h⟩ := bind_eq_ok.mp h
    cases h
    obtain ⟨groups, rfl, -, -⟩ := exists_groups hinner
    exact .address (parseIpv6_idem hinner) (fun c hc => mem_serializeIpv6 hc) (parsePortSuffix_le hp)
  · by_cases hnil : beforePort s = []
    · rw [if_pos hnil] at h
      cases h
    rw [if_neg hnil] at h
    obtain ⟨name, hname, h⟩ := bind_eq_ok.mp h
    have hidem := normalizeHost_idem hcase hname
    split at h
    · obtain ⟨n, hn, h⟩ := bind_eq_ok.mp h
      have hle := parsePortStr_le hn
      cases h
      refine .name hidem fun p hp => ?_
      split_ifs at hp with hdefault
      · cases hp
      · cases hp
        exact ⟨hle, hdefault⟩
    · cases h
      exact .name hidem nofun

/-- What neither a host nor a port has. -/
def Delimits (c : Char) : Prop := c ∈ ['/', '\\', '?', '#', '@', '\t', '\n', '\r']

instance (c : Char) : Decidable (Delimits c) :=
  inferInstanceAs (Decidable (c ∈ ['/', '\\', '?', '#', '@', '\t', '\n', '\r']))

theorem Delimits.not_isHexDigit (h : Delimits c) : isHexDigit c = false ∧ isForbiddenHostChar c := by
  have hall : ['/', '\\', '?', '#', '@', '\t', '\n', '\r'].all
      fun c => !isHexDigit c && isForbiddenHostChar c := by decide
  have hboth := List.all_eq_true.mp hall c h
  rwa [Bool.and_eq_true, Bool.not_eq_true'] at hboth

theorem isDigit_isHexDigit (h : isHexDigit c = false) : c.isDigit = false := by
  rw [isHexDigit, Bool.or_eq_false_iff, Bool.or_eq_false_iff] at h
  exact h.1.1

variable {u : Url}

theorem not_mem_portText (h : Delimits c) : c ∉ u.portText := by
  have hhex := h.not_isHexDigit.1
  rw [Url.portText]
  split
  · exact List.not_mem_nil
  · split_ifs
    · exact List.not_mem_nil
    · intro hc
      rcases List.mem_cons.mp hc with rfl | hc
      · exact absurd h (by decide)
      · exact not_mem_decimal (isDigit_isHexDigit hhex) _ hc

theorem IsHostPort.not_mem {scheme : Scheme} {host : Text} {port : Option ℕ}
    (h : IsHostPort casing scheme host port) (hc : Delimits c) : c ∉ host := by
  obtain ⟨hhex, hforbidden⟩ := hc.not_isHexDigit
  cases h with
  | empty => exact List.not_mem_nil
  | address _ hchars =>
    intro hmem
    rcases List.mem_append.mp hmem with hmem | hmem
    · rcases List.mem_cons.mp hmem with rfl | hmem
      · exact absurd hc (by decide)
      · rcases hchars c hmem with hdigit | rfl
        · rw [hhex] at hdigit
          cases hdigit
        · exact absurd hc (by decide)
    · rw [List.mem_singleton.mp hmem] at hc
      exact absurd hc (by decide)
  | name hname =>
    intro hmem
    rw [normalizeHost_allowed hname c hmem] at hforbidden
    cases hforbidden

/-- What is printed parses to the host and the port, but for a default port behind brackets. -/
theorem parseHostPort_shown (h : IsHostPort casing u.scheme u.host u.port) :
    parseHostPort casing (u.host ++ u.portText) u.scheme = .ok (u.host,
      if u.host.head? = some '[' ∧ u.port = u.scheme.defaultPort then none else u.port) := by
  obtain ⟨scheme, username, password, host, port, path, query, fragment⟩ := u
  rw [Url.portText]
  dsimp only at h ⊢
  cases h with
  | empty => rfl
  | @address inner port hinner hchars hport =>
    have hclose : ∀ c ∈ inner, c ≠ ']' := by
      rintro c hc rfl
      rcases hchars _ hc with hdigit | heq
      · cases hdigit
      · cases heq
    have htake : ∀ t : Text, (inner ++ ']' :: t).takeWhile (· ≠ ']') = inner := by
      intro t
      rw [List.takeWhile_append_of_pos fun c hc => decide_eq_true (hclose c hc)]
      simp
    have hdrop : ∀ t : Text, ((inner ++ ']' :: t).dropWhile (· ≠ ']')).tail = t := by
      intro t
      rw [List.dropWhile_append_of_pos fun c hc => decide_eq_true (hclose c hc)]
      simp
    have hparse : ∀ t q, parsePortSuffix t = .ok q →
        parseHostPort casing ('[' :: inner ++ [']'] ++ t) scheme =
          .ok ('[' :: inner ++ [']'], q) := by
      intro t q hq
      have hshape : '[' :: inner ++ [']'] ++ t = '[' :: (inner ++ ']' :: t) := by simp
      rw [hshape, parseHostPort, if_pos (by simp), htake, hdrop, hinner, ok_bind, hq, ok_bind]
      rfl
    rw [List.cons_append, List.head?_cons]
    cases port with
    | none =>
      rw [ite_self]
      exact hparse [] none rfl
    | some p =>
      dsimp only
      by_cases hdefault : some p = scheme.defaultPort
      · rw [if_pos hdefault, if_pos ⟨rfl, hdefault⟩]
        exact hparse [] none rfl
      · rw [if_neg hdefault, if_neg fun h => hdefault h.2]
        apply hparse
        rw [parsePortSuffix, parsePortStr_decimal (hport p rfl)]
        rfl
  | name hname hport =>
    have hallowed := normalizeHost_allowed hname
    have hcolon : ':' ∉ host := fun hc => absurd (hallowed _ hc) (by decide)
    have hne : host ≠ [] := by
      rintro rfl
      cases hname
    obtain ⟨c, rest, rfl⟩ := List.exists_cons_of_ne_nil hne
    have hc : c ≠ '[' := by
      rintro rfl
      exact absurd (hallowed _ (List.mem_cons_self ..)) (by decide)
    have hhead : ¬ ((c :: rest).head? = some '[' ∧ port = scheme.defaultPort) :=
      fun h => hc (Option.some.inj h.1)
    rw [if_neg hhead]
    cases port with
    | none =>
      dsimp only
      rw [List.append_nil, parseHostPort.eq_def]
      split
      · next heq => cases heq
      · next heq => exact absurd (List.cons.inj heq).1 hc
      · rw [beforePort, if_neg hcolon, if_neg hne, hname]
        simp only [ok_bind]
        rw [if_neg fun h => hcolon h.1]
        rfl
    | some p =>
      obtain ⟨hle, hdefault⟩ := hport p rfl
      have hdigits : ':' ∉ decimal p := not_mem_decimal rfl p
      have hbefore : beforePort (c :: rest ++ ':' :: decimal p) = c :: rest := by
        rw [beforePort, if_pos (by simp), rdropWhile_colon hdigits, List.dropLast_concat]
      dsimp only
      rw [if_neg (Ne.symm hdefault), parseHostPort.eq_def]
      split
      · next heq => cases heq
      · next heq => exact absurd (List.cons.inj heq).1 hc
      · rw [hbefore, if_neg hne, hname, rtakeWhile_colon hdigits, parsePortStr_decimal hle]
        simp only [ok_bind]
        rw [if_pos ⟨by simp, (decimal_isNumeral p).ne_nil⟩, if_neg hdefault]
        rfl

end Conclave.Urls
