import Conclave.Lib.Outcome
import Conclave.Ipc.Sites

/-! Two ways to cut the host out of a URL: the parser's, which knows of users, backslashes
and brackets, and that of site keys, which does not. -/

namespace Conclave.Ipc

open Lib

variable {casing : Casing} {after name u : Text}

/-! ### The cut of a key -/

theorem splitOnce_eq {sep s : Text} {r : Text × Text} (h : splitOnce sep s = some r) :
    s = r.1 ++ sep ++ r.2 := by
  induction s generalizing r with
  | nil =>
    unfold splitOnce at h
    split at h
    · next hsep =>
      obtain rfl := Option.some.inj h
      rw [hsep]
      rfl
    · nomatch h
  | cons c s ih =>
    unfold splitOnce at h
    split at h
    · next hpre =>
      obtain rfl := Option.some.inj h
      exact (List.prefix_append_drop hpre).trans (by simp)
    · obtain ⟨r', hr', rfl⟩ := Option.map_eq_some_iff.mp h
      rw [ih hr']
      rfl

/-- What ends the host of a key. -/
def isHostChar (c : Char) : Bool := c ∉ [':', '/', '?', '#']

theorem takeWhile_rest {p : Char → Bool} {e : Char} (he : ∀ c, p c = false → c = e)
    (hend : isHostChar e = false) (s : Text) :
    ∃ rest, s = s.takeWhile p ++ rest ∧ Stops isHostChar rest := by
  refine ⟨s.dropWhile p, List.takeWhile_append_dropWhile.symm, fun c hc => ?_⟩
  rw [he c (stops_dropWhile p s c hc), hend]

theorem hostEnd_rest (after : Text) :
    ∃ rest, after = hostEnd after ++ rest ∧ Stops isHostChar rest := by
  unfold hostEnd
  split_ifs
  · exact takeWhile_rest (e := '/') (by simp) rfl after
  · exact takeWhile_rest (e := '?') (by simp) rfl after
  · exact takeWhile_rest (e := '#') (by simp) rfl after

theorem cutHost_rest (after : Text) :
    ∃ rest, after = cutHost after ++ rest ∧ Stops isHostChar rest := by
  obtain ⟨rest, hafter, hstops⟩ := hostEnd_rest after
  obtain ⟨port, hhost, hport⟩ :=
    takeWhile_rest (p := (· ≠ ':')) (e := ':') (by simp) rfl (hostEnd after)
  refine ⟨port ++ rest, ?_, ?_⟩
  · rw [← List.append_assoc, cutHost, ← hhost]
    exact hafter
  · cases port with
    | nil => exact hstops
    | cons c port => exact hport

theorem cutHost_not_mem (after : Text) : ':' ∉ cutHost after ∧ '/' ∉ cutHost after := by
  constructor
  · exact fun h => by simpa using List.mem_takeWhile_imp h
  · intro h
    have hmem : '/' ∈ hostEnd after := (List.takeWhile_prefix _).subset h
    unfold hostEnd at hmem
    split_ifs at hmem with hslash
    · simpa using List.mem_takeWhile_imp hmem
    · exact hslash ((List.takeWhile_prefix _).subset hmem)
    · exact hslash ((List.takeWhile_prefix _).subset hmem)

/-- The host itself, behind a user without a password. -/
def hostText (after : Text) : Text := (cutHost after).rtakeWhile (· ≠ '@')

/-- The host of the URL stands in the open: as text that both rules cut out alike, behind no
password, not between brackets, and not a number; and the parser strips nothing from it. -/
structure PlainHost (after : Text) : Prop where
  nonempty : hostText after ≠ []
  chars : ∀ c ∈ cutHost after, c ∉ ['\t', '\n', '\r', '?', '#', '\\']
  last : cutHost after = after → ∀ c ∈ after.getLast?, ' ' < c
  noBracket : (hostText after).head? ≠ some '['
  noPassword : '@' ∉ (authority after).drop (cutHost after).length
  domain : tryParseIpv4 (Text.toAsciiLowercase (hostText after)) = .ok none

/-- The scheme ends at the first colon, with two slashes after it and then a plain host. -/
def Plain (u : Text) : Prop :=
  ∃ name after, splitOnce "://".toList u = some (name, after) ∧ ':' ∉ name ∧ PlainHost after

/-! ### The cut of the parser -/

def inAuthority (c : Char) : Bool := c ∉ ['#', '?', '/', '\\']

theorem isKept_of_gt {c : Char} (h : ' ' < c) : isKept c := by
  by_contra hnot
  have hmem : c ∈ ['\t', '\n', '\r'] := not_not.mp (of_decide_eq_false (eq_false_of_ne_true hnot))
  fin_cases hmem <;> exact absurd h (by decide)

theorem PlainHost.kept (h : PlainHost after) : ∀ c ∈ cutHost after, isKept c := by
  intro c hc
  have hnot := h.chars c hc
  simp only [List.mem_cons, List.not_mem_nil, or_false, not_or] at hnot
  simp [isKept, hnot]

theorem PlainHost.inAuthority (h : PlainHost after) : ∀ c ∈ cutHost after, inAuthority c := by
  intro c hc
  have hnot := h.chars c hc
  have hslash : c ≠ '/' := fun he => (cutHost_not_mem after).2 (he ▸ hc)
  simp only [List.mem_cons, List.not_mem_nil, or_false, not_or] at hnot
  simp [Ipc.inAuthority, hnot, hslash]

theorem PlainHost.cut_ne_nil (h : PlainHost after) : cutHost after ≠ [] := by
  intro hnil
  exact h.nonempty (by rw [hostText, hnil, List.rtakeWhile_nil])

theorem inAuthority_of_not_isKept (c : Char) (h : isKept c = false) : inAuthority c := by
  have hmem : c ∈ ['\t', '\n', '\r'] := not_not.mp (of_decide_eq_false h)
  fin_cases hmem <;> rfl

theorem gt_of_not_isHostChar {c : Char} (h : isHostChar c = false) : ' ' < c := by
  have hmem : c ∈ [':', '/', '?', '#'] := not_not.mp (of_decide_eq_false h)
  fin_cases hmem <;> decide

theorem authority_eq (s : Text) : authority s = s.takeWhile inAuthority := by
  unfold authority
  rw [List.takeWhile_takeWhile, List.takeWhile_takeWhile]
  congr 1
  funext c
  simp [inAuthority, and_comm, and_left_comm]

def schemeName (name : Text) : Text := (name.dropWhile (· ≤ ' ')).filter isKept

/-- Nothing is trimmed from the end of the cut. -/
theorem rdropWhile_cut {rest : Text} (h : PlainHost after) (hafter : after = cutHost after ++ rest)
    (hstops : Stops isHostChar rest) (front : Text) :
    (front ++ (cutHost after ++ rest)).rdropWhile (fun c => decide (c ≤ ' ')) =
      front ++ (cutHost after ++ rest.rdropWhile fun c => decide (c ≤ ' ')) := by
  cases rest with
  | nil =>
    rw [List.append_nil] at hafter
    obtain ⟨cut, c, hcut⟩ := (List.eq_nil_or_concat' (cutHost after)).resolve_left h.cut_ne_nil
    have hlast : ' ' < c := by
      refine h.last hafter.symm c ?_
      rw [hafter, hcut, List.getLast?_concat]
      rfl
    have hkept := @rdropWhile_append_kept _ (fun c => decide (c ≤ ' ')) c
      (decide_eq_false (not_le.mpr hlast)) (front ++ cut) []
    rw [hcut, List.rdropWhile_nil, List.append_nil]
    simpa using hkept
  | cons c rest =>
    have hgt := gt_of_not_isHostChar (hstops c rfl)
    have hkept : ∀ front : Text, (front ++ c :: rest).rdropWhile (fun c => decide (c ≤ ' ')) =
        front ++ c :: rest.rdropWhile (fun c => decide (c ≤ ' ')) := fun front =>
      rdropWhile_append_kept (p := fun c => decide (c ≤ ' ')) (decide_eq_false (not_le.mpr hgt))
        front rest
    have hself := hkept []
    rw [List.nil_append, List.nil_append] at hself
    rw [← List.append_assoc, hkept, List.append_assoc, hself]

/-- Cleaning leaves the cut of the key in its place, and makes no at sign behind it. -/
theorem clean_plain (h : PlainHost after) (name : Text) :
    ∃ rest, clean (name ++ "://".toList ++ after) =
        schemeName name ++ ':' :: '/' :: '/' :: (cutHost after ++ rest) ∧
      Stops isHostChar rest ∧ '@' ∉ rest.takeWhile inAuthority := by
  obtain ⟨rest, hafter, hstops⟩ := cutHost_rest after
  have hhost : (cutHost after).filter isKept = cutHost after := List.filter_eq_self.mpr h.kept
  have htrim : (name ++ ':' :: '/' :: '/' :: after).trimMatches (· ≤ ' ') =
      name.dropWhile (· ≤ ' ') ++ ':' :: '/' :: '/' ::
        (cutHost after ++ rest.rdropWhile (· ≤ ' ')) := by
    unfold Text.trimMatches
    rw [dropWhile_append_kept (by decide)]
    nth_rewrite 1 [hafter]
    have hcut := rdropWhile_cut h hafter hstops (name.dropWhile (· ≤ ' ') ++ [':', '/', '/'])
    simpa using hcut
  have hclean : clean (name ++ "://".toList ++ after) = schemeName name ++
      ':' :: '/' :: '/' :: (cutHost after ++ (rest.rdropWhile (· ≤ ' ')).filter isKept) := by
    rw [List.append_assoc]
    show ((name ++ ':' :: '/' :: '/' :: after).trimMatches (· ≤ ' ')).filter isKept = _
    rw [htrim, List.filter_append, List.filter_cons_of_pos rfl, List.filter_cons_of_pos rfl,
      List.filter_cons_of_pos rfl, List.filter_append, hhost]
    rfl
  refine ⟨(rest.rdropWhile (· ≤ ' ')).filter isKept, hclean, ?_, ?_⟩
  · cases rest with
    | nil => exact nofun
    | cons c rest =>
      have hc : isHostChar c = false := hstops c rfl
      have hgt := gt_of_not_isHostChar hc
      have hdrop : (c :: rest).rdropWhile (fun c => decide (c ≤ ' ')) =
          c :: rest.rdropWhile (fun c => decide (c ≤ ' ')) :=
        rdropWhile_append_kept (p := fun c => decide (c ≤ ' ')) (decide_eq_false (not_le.mpr hgt))
          [] rest
      rw [hdrop, List.filter_cons_of_pos (isKept_of_gt hgt)]
      exact fun a ha => Option.some.inj ha ▸ hc
  · intro hat
    have hmem := mem_takeWhile_filter inAuthority_of_not_isKept hat
    have hbehind : (authority after).drop (cutHost after).length = rest.takeWhile inAuthority := by
      have hcut : after.takeWhile inAuthority = cutHost after ++ rest.takeWhile inAuthority := by
        conv_lhs => rw [hafter, List.takeWhile_append_of_pos h.inAuthority]
      rw [authority_eq, hcut, List.drop_left]
    refine h.noPassword (hbehind ▸ mem_takeWhile_prefix (List.rdropWhile_prefix _ _) hmem)

theorem splitScheme_colon {front rest scheme rest' : Text} (hcolon : ':' ∉ front)
    (h : splitScheme (front ++ ':' :: rest) = some (scheme, rest')) :
    scheme = Text.toAsciiLowercase front ∧ rest' = rest := by
  have hstops : Stops isSchemeChar (':' :: rest) := fun c hc => Option.some.inj hc ▸ rfl
  by_cases hall : ∀ c ∈ front, isSchemeChar c
  · unfold splitScheme at h
    rw [takeWhile_append_stops hall hstops, dropWhile_append_stops hall hstops] at h
    cases front with
    | nil => nomatch h
    | cons first name =>
      simp only [Option.ite_none_right_eq_some, Option.some.injEq, Prod.mk.injEq] at h
      exact ⟨h.2.1.symm, h.2.2.symm⟩
  · -- The scheme ends in front of a character that is no colon.
    have hne : front.dropWhile isSchemeChar ≠ [] := fun hnil =>
      hall (List.dropWhile_eq_nil_iff.mp hnil)
    obtain ⟨c, others, hcut⟩ := List.exists_cons_of_ne_nil hne
    have hc : c ≠ ':' := by
      rintro rfl
      exact hcolon ((List.dropWhile_suffix _).subset (hcut ▸ List.mem_cons_self))
    unfold splitScheme at h
    rw [List.dropWhile_append, if_neg (by simp [hcut]), hcut] at h
    split at h
    · next heq => exact absurd (List.cons.inj heq).1 hc
    · nomatch h

theorem parseHostPort_ok {s parsed : Text} {scheme : Scheme} {port : Option ℕ} {c : Char}
    (hc : c ≠ '[') (h : parseHostPort casing (c :: s) scheme = .ok (parsed, port)) :
    normalizeHost casing (beforePort (c :: s)) = .ok parsed := by
  unfold parseHostPort at h
  split at h
  · next heq => nomatch heq
  · next heq => exact absurd (List.cons.inj heq).1 hc
  · by_cases hnil : beforePort (c :: s) = []
    · rw [if_pos hnil] at h
      nomatch h
    · rw [if_neg hnil] at h
      obtain ⟨host, hhost, h⟩ := bind_eq_ok.mp h
      split at h
      · obtain ⟨n, -, h⟩ := bind_eq_ok.mp h
        exact (Prod.mk.inj (Except.ok.inj h)).1 ▸ hhost
      · exact (Prod.mk.inj (Except.ok.inj h)).1 ▸ hhost

/-- A port has no colon, and a host that the parser takes has none either. -/
theorem normalizeHost_beforePort {host rest parsed : Text} (hcolon : ':' ∉ host)
    (hrest : rest = [] ∨ ∃ port, rest = ':' :: port)
    (h : normalizeHost casing (beforePort (host ++ rest)) = .ok parsed) :
    normalizeHost casing host = .ok parsed := by
  rcases hrest with rfl | ⟨port, rfl⟩
  · rw [List.append_nil, beforePort, if_neg hcolon] at h
    exact h
  · have hbefore : beforePort (host ++ ':' :: port) =
        (host ++ ':' :: port.rdropWhile (· ≠ ':')).dropLast := by
      rw [beforePort, if_pos (by simp), rdropWhile_append_kept (by simp)]
    rw [hbefore] at h
    cases hport : port.rdropWhile (· ≠ ':') with
    | nil =>
      rw [hport, List.dropLast_concat] at h
      exact h
    | cons c more =>
      have hmem : ':' ∈ (host ++ ':' :: port.rdropWhile (· ≠ ':')).dropLast := by
        rw [hport, List.dropLast_append_of_ne_nil (List.cons_ne_nil _ _)]
        simp
      exact absurd (normalizeHost_allowed h ':' hmem) (by decide)

/-- What is behind the cut is empty, or begins with the colon of the port. -/
theorem takeWhile_port {rest : Text} (hrest : Stops isHostChar rest) :
    rest.takeWhile inAuthority = [] ∨ ∃ digits, rest.takeWhile inAuthority = ':' :: digits := by
  cases rest with
  | nil => exact .inl rfl
  | cons c rest =>
    have hmem : c ∈ [':', '/', '?', '#'] := not_not.mp (of_decide_eq_false (hrest c rfl))
    fin_cases hmem
    · exact .inr ⟨rest.takeWhile inAuthority, rfl⟩
    · exact .inl rfl
    · exact .inl rfl
    · exact .inl rfl

theorem isSpecial_of_isHttp {s : Scheme} (h : s.isHttp) : s.isSpecial = true := by
  rcases h with rfl | rfl <;> rfl

theorem rtakeWhile_append {p : Char → Bool} {front back : Text} (h : ∀ c ∈ back, p c) :
    (front ++ back).rtakeWhile p = front.rtakeWhile p ++ back := by
  have hback : ∀ c ∈ back.reverse, p c := fun c hc => h c (List.mem_reverse.mp hc)
  rw [List.rtakeWhile, List.reverse_append, List.takeWhile_append_of_pos hback, List.reverse_append,
    List.reverse_reverse, List.rtakeWhile]

/-- The scheme that the parser sees, and the text whose normal form is the parsed host. -/
theorem parse_plain {parsed : Url} (hsplit : splitOnce "://".toList u = some (name, after))
    (hcolon : ':' ∉ name) (h : PlainHost after)
    (hparse : Url.parse casing u = .ok parsed) (hhttp : parsed.scheme.isHttp) :
    parsed.scheme = Scheme.fromLowercase (Text.toAsciiLowercase (schemeName name)) ∧
      normalizeHost casing (hostText after) = .ok parsed.host := by
  obtain ⟨rest, hclean, hstops, hat⟩ := clean_plain h name
  have hu : u = name ++ "://".toList ++ after := splitOnce_eq hsplit
  have hfront : ':' ∉ schemeName name := fun hmem =>
    hcolon ((List.dropWhile_suffix _).subset (List.mem_filter.mp hmem).1)
  unfold Url.parse at hparse
  split at hparse
  · nomatch hparse
  · rw [hu, hclean] at hparse
    split at hparse
    · nomatch hparse
    · next scheme rest' hscheme =>
      obtain ⟨rfl, rfl⟩ := splitScheme_colon hfront hscheme
      simp only at hparse
      split at hparse
      · next hspecial =>
        -- No scheme of the web is without a host.
        obtain rfl := Except.ok.inj hparse
        exact absurd (hspecial.symm.trans (isSpecial_of_isHttp hhttp)) Bool.false_ne_true
      · have hport := takeWhile_port hstops
        have htext : (authority (dropSlashes 2 ('/' :: '/' :: (cutHost after ++ rest)))).rtakeWhile
            (· ≠ '@') = hostText after ++ rest.takeWhile inAuthority := by
          show (authority (cutHost after ++ rest)).rtakeWhile (· ≠ '@') = _
          rw [authority_eq, List.takeWhile_append_of_pos h.inAuthority, rtakeWhile_append, hostText]
          exact fun c hc => decide_eq_true fun he => hat (he ▸ hc)
        rw [htext] at hparse
        obtain ⟨⟨host, number⟩, hhostPort, hparse⟩ := bind_eq_ok.mp hparse
        have hok : parsed = ⟨Scheme.fromLowercase (Text.toAsciiLowercase (schemeName name)), host,
            number⟩ := by
          simp only at hparse
          split at hparse
          · nomatch hparse
          · exact (Except.ok.inj hparse).symm
        subst hok
        have hcolon' : ':' ∉ hostText after := fun hmem =>
          (cutHost_not_mem after).1 ((List.rtakeWhile_suffix _ _).subset hmem)
        refine ⟨rfl, normalizeHost_beforePort hcolon' hport ?_⟩
        obtain ⟨c, others, hcons⟩ := List.exists_cons_of_ne_nil h.nonempty
        rw [hcons, List.cons_append] at hhostPort ⊢
        refine parseHostPort_ok (fun he => ?_) hhostPort
        exact h.noBracket (by rw [hcons, he, List.head?_cons])

theorem siteForUrl_eq (hsplit : splitOnce "://".toList u = some (name, after)) :
    siteForUrl u = if cutHost after = [] then none
      else some (name ++ "://".toList ++ registrableHost (cutHost after)) := by
  unfold siteForUrl
  rw [hsplit]
  rfl

/-- A URL of the web that both rules read alike. -/
structure WebUrl (casing : Casing) (u : Text) (parsed : Url) : Prop where
  parse : Url.parse casing u = .ok parsed
  http : parsed.scheme.isHttp
  plain : Plain u

theorem Plain.siteForUrl (h : Plain u) : ∃ site, siteForUrl u = some site := by
  obtain ⟨name, after, hsplit, -, hhost⟩ := h
  exact ⟨_, (siteForUrl_eq hsplit).trans (if_neg hhost.cut_ne_nil)⟩

theorem WebUrl.sameSite {u v key : Text} {U V : Url} (hu : WebUrl casing u U)
    (hv : WebUrl casing v V) (hkeyu : Ipc.siteForUrl u = some key)
    (hkeyv : Ipc.siteForUrl v = some key) : SameSite U V := by
  obtain ⟨nameu, afteru, hsplitu, hcolonu, hhostu⟩ := hu.plain
  obtain ⟨namev, afterv, hsplitv, hcolonv, hhostv⟩ := hv.plain
  rw [siteForUrl_eq hsplitu, if_neg hhostu.cut_ne_nil] at hkeyu
  rw [siteForUrl_eq hsplitv, if_neg hhostv.cut_ne_nil] at hkeyv
  have hkeys : nameu ++ ':' :: '/' :: '/' :: registrableHost (cutHost afteru) =
      namev ++ ':' :: '/' :: '/' :: registrableHost (cutHost afterv) := by
    have heq := (Option.some.inj hkeyu).trans (Option.some.inj hkeyv).symm
    rw [List.append_assoc, List.append_assoc] at heq
    exact heq
  obtain ⟨rfl, hhosts⟩ := append_cons_inj hcolonu hcolonv hkeys
  have hregistrable := List.tail_eq_of_cons_eq (List.tail_eq_of_cons_eq hhosts)
  obtain ⟨hschemeu, hnormalu⟩ := parse_plain hsplitu hcolonu hhostu hu.parse hu.http
  obtain ⟨hschemev, hnormalv⟩ := parse_plain hsplitv hcolonv hhostv hv.parse hv.http
  obtain ⟨hnameu, hdomainu⟩ := registrableDomain_normalizeHost hnormalu hhostu.domain
  obtain ⟨hnamev, hdomainv⟩ := registrableDomain_normalizeHost hnormalv hhostv.domain
  refine ⟨hschemeu.trans hschemev.symm, .inr ⟨hnameu, hnamev, ?_⟩⟩
  rw [hdomainu, hdomainv, hostText, hostText, segments_registrableHost_user,
    segments_registrableHost_user, hregistrable]

end Conclave.Ipc
