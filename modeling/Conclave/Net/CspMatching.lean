import Conclave.Lib.Cuts
import Conclave.Net.Csp

/-! Source expressions against those of Content Security Policy, level 3. The code judges a
host source by its text: the scheme and the port have to be spelled as in the URL, and a path
never matches; a scheme it does not know, and what is outside the grammar, it takes for a host. -/

namespace Conclave.Net.Csp

open Lib Text Send

/-! ### Text -/

theorem toAsciiLowercase_slash (t : Text) : '/' ∈ Text.toAsciiLowercase t ↔ '/' ∈ t := by
  simp only [Text.toAsciiLowercase, List.mem_map, toLower_eq (d := '/') rfl rfl, exists_eq_right]

/-- A text without a colon, or the part before the first one and the part after it. -/
theorem colon_cases (t : Text) : ':' ∉ t ∨ ∃ a b, ':' ∉ a ∧ t = a ++ ':' :: b := by
  by_cases h : ':' ∈ t
  · obtain ⟨a, b, rfl, ha⟩ := List.eq_append_cons_of_mem h
    exact .inr ⟨a, b, ha, rfl⟩
  · exact .inl h

theorem splitOnce_of_notMem {t : Text} (h : ':' ∉ t) : splitOnce ':' t = (t, none) := by
  rw [splitOnce, if_neg h]

theorem splitOnce_colon {a : Text} (b : Text) (h : ':' ∉ a) :
    splitOnce ':' (a ++ ':' :: b) = (a, some b) := by
  have hall : ∀ c ∈ a, decide (c ≠ ':') = true := fun c hc =>
    decide_eq_true fun heq => h (heq ▸ hc)
  rw [splitOnce, if_pos (by simp), List.takeWhile_append_of_pos hall,
    List.dropWhile_append_of_pos hall]
  simp

def webSchemes : List Text := ["https", "http", "ws", "wss"].map String.toList

theorem webSchemes_chars {u : Text} (hu : u ∈ webSchemes) : ':' ∉ u ∧ '/' ∉ u := by
  revert hu
  have hall : ∀ u ∈ webSchemes, ':' ∉ u ∧ '/' ∉ u := by decide
  exact hall u

theorem stripPrefix_append (u t : Text) : stripPrefix u (u ++ t) = some t := by
  rw [stripPrefix, if_pos (List.prefix_append u t), List.drop_left]

theorem stripPrefix_none {u t : Text} (h : ¬ u <+: t) : stripPrefix u t = none := if_neg h

/-- The scheme of a pattern is what is before the first colon. -/
theorem scheme_isPrefix {u a b : Text} (hu : ':' ∉ u) (ha : ':' ∉ a)
    (h : u ++ "://".toList <+: a ++ ':' :: b) : u = a ∧ "//".toList <+: b := by
  obtain ⟨x, hx⟩ := h
  have hx' : u ++ ':' :: ("//".toList ++ x) = a ++ ':' :: b := by rw [← hx, List.append_assoc]; rfl
  obtain ⟨rfl, rfl⟩ := append_cons_inj hu ha hx'
  exact ⟨rfl, List.prefix_append _ _⟩

/-- No pattern scheme, then no scheme. -/
theorem schemeOf_none {t : Text} (h : ∀ u ∈ webSchemes, ¬ u ++ "://".toList <+: t) :
    schemeOf t = (none, t) := by
  have h₁ : stripPrefix "https://".toList t = none :=
    stripPrefix_none (h "https".toList (by decide))
  have h₂ : stripPrefix "http://".toList t = none := stripPrefix_none (h "http".toList (by decide))
  have h₃ : stripPrefix "ws://".toList t = none := stripPrefix_none (h "ws".toList (by decide))
  have h₄ : stripPrefix "wss://".toList t = none := stripPrefix_none (h "wss".toList (by decide))
  simp only [schemeOf, h₁, h₂, h₃, h₄]

theorem schemeOf_web {s : Text} (hs : s ∈ webSchemes) (rest : Text) :
    schemeOf (s ++ "://".toList ++ rest) = (some s, rest) := by
  have hother : ∀ u ∈ webSchemes, u ≠ s → stripPrefix (u ++ "://".toList)
      (s ++ "://".toList ++ rest) = none := by
    intro u hu hne
    refine stripPrefix_none fun hpre => hne ?_
    have hcut : s ++ "://".toList ++ rest = s ++ ':' :: ("//".toList ++ rest) := by
      rw [List.append_assoc]
      rfl
    rw [hcut] at hpre
    exact (scheme_isPrefix (webSchemes_chars hu).1 (webSchemes_chars hs).1 hpre).1
  have hself := stripPrefix_append (s ++ "://".toList) rest
  have h₁ : "https://".toList = "https".toList ++ "://".toList := rfl
  have h₂ : "http://".toList = "http".toList ++ "://".toList := rfl
  have h₃ : "ws://".toList = "ws".toList ++ "://".toList := rfl
  have h₄ : "wss://".toList = "wss".toList ++ "://".toList := rfl
  unfold schemeOf
  rw [h₁, h₂, h₃, h₄]
  simp only [webSchemes, List.map_cons, List.map_nil, List.mem_cons, List.not_mem_nil,
    or_false] at hs
  rcases hs with rfl | rfl | rfl | rfl
  · rw [hself]
  · rw [hother _ (by decide) (by decide), hself]
  · rw [hother _ (by decide) (by decide), hother _ (by decide) (by decide), hself]
  · rw [hother _ (by decide) (by decide), hother _ (by decide) (by decide),
      hother _ (by decide) (by decide), hself]

/-- A pattern with a slash is no pattern of a host. -/
theorem hostMatches_slash {pattern host : Text} (hp : '/' ∈ pattern) (hh : '/' ∉ host) :
    hostMatches pattern host = false := by
  rw [← toAsciiLowercase_slash] at hp hh
  unfold hostMatches
  dsimp only
  unfold stripPrefix
  split_ifs with hpre
  · obtain ⟨t, ht⟩ := hpre
    rw [← ht] at hp ⊢
    rw [List.drop_left]
    refine decide_eq_false fun hsuf => hh (hsuf.subset ?_)
    rcases List.mem_append.mp hp with hp | hp
    · exact absurd hp (by decide)
    · exact List.mem_cons_of_mem _ hp
  · exact decide_eq_false fun heq => hh (heq ▸ hp)

theorem portText_digits {n : ℕ} {c : Char} (h : c ∈ portText n) : c.isDigit = true :=
  Nat.isDigit_of_mem_toDigits (by norm_num) (by norm_num) h

/-- The port of a target has no slash, and its text is of digits. -/
theorem target_slash {port : Option ℕ} (h : '/' ∈ (port.map portText).getD []) : False := by
  cases port with
  | none => cases h
  | some n =>
    have hdigit := portText_digits h
    exact absurd hdigit (by decide)

theorem decimal_portText (n : ℕ) : Csp3.decimal (portText n) = n := Nat.ofDigitChars_ten_toDigits

/-! ### The grammar -/

section Grammar

open Csp3

theorem isScheme_chars {s : Text} (h : IsScheme s) :
    ':' ∉ s ∧ '/' ∉ s ∧ ∃ c t, s = c :: t ∧ c.isAlpha = true :=
  ⟨fun hm => absurd (h.2 _ hm) (by decide), fun hm => absurd (h.2 _ hm) (by decide), h.1⟩

theorem isName_chars {t : Text} (h : IsName t) :
    t ≠ [] ∧ ∀ c ∈ t, isHostChar c = true ∨ c = '.' := by
  obtain ⟨labels, hne, hlabels, heq⟩ := h
  have hjoin : ['.'].intercalate labels ≠ [] ∧
      ∀ c ∈ ['.'].intercalate labels, isHostChar c = true ∨ c = '.' := by
    clear heq
    induction labels with
    | nil => exact absurd rfl hne
    | cons l ls ih =>
      have hl := hlabels l List.mem_cons_self
      cases ls with
      | nil =>
        rw [List.intercalate_singleton]
        exact ⟨hl.1, fun c hc => .inl (hl.2 c hc)⟩
      | cons m ms =>
        obtain ⟨-, hrest⟩ := ih (List.cons_ne_nil _ _)
          fun l' hl' => hlabels l' (List.mem_cons_of_mem _ hl')
        rw [List.intercalate_cons_cons]
        refine ⟨by simp [hl.1], fun c hc => ?_⟩
        rcases List.mem_append.mp hc with hc | hc
        · rcases List.mem_append.mp hc with hc | hc
          · exact .inl (hl.2 c hc)
          · exact .inr (List.mem_singleton.mp hc)
        · exact hrest c hc
  rcases heq with rfl | rfl
  · exact hjoin
  · refine ⟨by simp, fun c hc => ?_⟩
    rcases List.mem_append.mp hc with hc | hc
    · exact hjoin.2 c hc
    · exact .inr (List.mem_singleton.mp hc)

theorem isHostPart_chars {h : Text} (hh : IsHostPart h) :
    h ≠ [] ∧ ∀ c ∈ h, isHostChar c = true ∨ c = '.' ∨ c = '*' := by
  rcases hh with rfl | hh | ⟨t, rfl, hh⟩
  · exact ⟨List.cons_ne_nil _ _, fun c hc => .inr (.inr (List.mem_singleton.mp hc))⟩
  · exact ⟨(isName_chars hh).1, fun c hc => ((isName_chars hh).2 c hc).imp_right .inl⟩
  · refine ⟨List.cons_ne_nil _ _, fun c hc => ?_⟩
    rcases List.mem_cons.mp hc with rfl | hc
    · exact .inr (.inr rfl)
    · rcases List.mem_cons.mp hc with rfl | hc
      · exact .inr (.inl rfl)
      · exact ((isName_chars hh).2 c hc).imp_right .inl

variable (h : HostSource)

theorem host_chars : ':' ∉ h.host ∧ '/' ∉ h.host ∧ '\'' ∉ h.host ∧ h.host ≠ [] := by
  obtain ⟨hne, hchars⟩ := isHostPart_chars h.isHost
  refine ⟨fun hm => ?_, fun hm => ?_, fun hm => ?_, hne⟩ <;>
    exact absurd (hchars _ hm) (by decide)

theorem port_chars {q : Text} (hq : h.port = some q) : q ≠ [] ∧ ':' ∉ q ∧ '/' ∉ q := by
  rcases h.isPort q hq with rfl | ⟨hne, hdigits⟩
  · decide
  · exact ⟨hne, fun hm => absurd (hdigits _ hm) (by decide),
      fun hm => absurd (hdigits _ hm) (by decide)⟩

/-- What comes after the scheme. -/
def authority : Text := h.host ++ ((h.port.elim [] (':' :: ·)) ++ h.path)

theorem text_none (hs : h.scheme = none) : h.text = authority h := by
  rw [HostSource.text, hs]
  rfl

theorem text_some {s : Text} (hs : h.scheme = some s) :
    h.text = s ++ "://".toList ++ authority h := by
  rw [HostSource.text, hs]
  rfl

/-- A path has a slash in it. -/
theorem path_slash (hp : h.path ≠ []) : '/' ∈ h.path := by
  rcases h.isPath with h0 | ⟨t, ht, -, -⟩
  · exact absurd h0 hp
  · rw [ht]
    exact List.mem_cons_self

/-- Two slashes do not follow the first colon after a host. -/
theorem authority_scheme {u : Text} (hu : u ∈ webSchemes) :
    ¬ u ++ "://".toList <+: authority h := by
  intro hpre
  obtain ⟨hcolon, hslash⟩ := webSchemes_chars hu
  cases hq : h.port with
  | some q =>
    have hauth : authority h = h.host ++ ':' :: (q ++ h.path) := by
      rw [authority, hq]
      rfl
    rw [hauth] at hpre
    obtain ⟨-, x, hx⟩ := scheme_isPrefix hcolon (host_chars h).1 hpre
    obtain ⟨hne, -, hno⟩ := port_chars h hq
    cases q with
    | nil => exact hne rfl
    | cons c q =>
      obtain ⟨rfl, -⟩ := List.cons.inj hx
      exact hno List.mem_cons_self
  | none =>
    have hauth : authority h = h.host ++ h.path := by
      rw [authority, hq]
      rfl
    rw [hauth] at hpre
    rcases colon_cases h.path with hno | ⟨a, b, ha, hpath⟩
    · have hm := hpre.subset (List.mem_append_right u (List.mem_cons_self : ':' ∈ "://".toList))
      rcases List.mem_append.mp hm with hm | hm
      · exact (host_chars h).1 hm
      · exact hno hm
    · have hcut : h.host ++ h.path = (h.host ++ a) ++ ':' :: b := by
        rw [hpath, List.append_assoc]
      rw [hcut] at hpre
      have hnot : ':' ∉ h.host ++ a := fun hm =>
        (List.mem_append.mp hm).elim (host_chars h).1 ha
      obtain ⟨rfl, -⟩ := scheme_isPrefix hcolon hnot hpre
      -- the path begins with a slash, before its first colon
      rcases h.isPath with h0 | ⟨t, ht, -, -⟩
      · rw [h0] at hpath
        simp at hpath
      · rw [ht] at hpath
        cases a with
        | nil =>
          have := (List.cons.inj hpath).1
          exact absurd this (by decide)
        | cons d a =>
          obtain ⟨rfl, -⟩ := List.cons.inj hpath
          exact hslash (by simp)

/-- The first character is no quote. -/
theorem text_quote (t : Text) : h.text ≠ '\'' :: t := by
  intro heq
  cases hs : h.scheme with
  | some s =>
    obtain ⟨-, -, c, t', rfl, hc⟩ := isScheme_chars (h.isScheme s hs)
    rw [text_some h hs] at heq
    obtain ⟨rfl, -⟩ := List.cons.inj heq
    exact absurd hc (by decide)
  | none =>
    rw [text_none h hs, authority] at heq
    obtain ⟨-, -, hquote, hne⟩ := host_chars h
    cases hh : h.host with
    | nil => exact hne hh
    | cons c t' =>
      rw [hh] at heq
      obtain ⟨rfl, -⟩ := List.cons.inj heq
      exact hquote (hh ▸ List.mem_cons_self)

/-- A host source is no scheme source. -/
theorem text_scheme {s : Text} (hcolon : ':' ∉ s) (hslash : '/' ∉ s) : h.text ≠ s ++ [':'] := by
  intro heq
  have hno : '/' ∉ h.text := by
    rw [heq]
    simp [hslash]
  cases hs : h.scheme with
  | some u =>
    rw [text_some h hs] at hno
    exact hno (by simp)
  | none =>
    have hpath : h.path = [] := by
      by_contra hp
      refine hno ?_
      rw [text_none h hs, authority]
      simp [path_slash h hp]
    rw [text_none h hs, authority, hpath, List.append_nil] at heq
    cases hq : h.port with
    | none =>
      rw [hq, Option.elim_none, List.append_nil] at heq
      exact (host_chars h).1 (by simp [heq])
    | some q =>
      rw [hq, Option.elim_some] at heq
      obtain ⟨-, hnil⟩ := append_cons_inj (host_chars h).1 hcolon heq
      exact (port_chars h hq).1 hnil

/-- The part after the scheme, for what a host source has there. -/
theorem matchesHostPort_authority (target : Url) (hhost : '/' ∉ target.host) :
    matchesHostPort (authority h) target = true ↔ hostMatches h.host target.host = true ∧
      (∀ q ∈ h.port, q = ['*'] ∨ q = (target.port.map portText).getD []) ∧ h.path = [] := by
  obtain ⟨hcolon, -, -, -⟩ := host_chars h
  have hslash : ∀ t, hostMatches (h.host ++ '/' :: t) target.host = false := fun t =>
    hostMatches_slash (by simp) hhost
  unfold matchesHostPort
  cases hq : h.port with
  | none =>
    have hauth : authority h = h.host ++ h.path := by
      rw [authority, hq]
      rfl
    rw [hauth]
    by_cases hp : h.path = []
    · rw [hp, List.append_nil, splitOnce_of_notMem hcolon]
      simp
    · refine iff_of_false ?_ fun hall => hp hall.2.2
      obtain ⟨t, ht⟩ : ∃ t, h.path = '/' :: t := by
        rcases h.isPath with h0 | ⟨t, ht, -, -⟩
        · exact absurd h0 hp
        · exact ⟨t, ht⟩
      rw [ht]
      rcases colon_cases t with hno | ⟨a, b, ha, rfl⟩
      · have hnot : ':' ∉ h.host ++ '/' :: t := by simp [hcolon, hno]
        rw [splitOnce_of_notMem hnot]
        simp [hslash]
      · have hcut : h.host ++ '/' :: (a ++ ':' :: b) = (h.host ++ '/' :: a) ++ ':' :: b := by simp
        have hnot : ':' ∉ h.host ++ '/' :: a := by simp [hcolon, ha]
        rw [hcut, splitOnce_colon b hnot]
        simp [hslash]
  | some q =>
    have hauth : authority h = h.host ++ ':' :: (q ++ h.path) := by
      rw [authority, hq]
      rfl
    rw [hauth, splitOnce_colon _ hcolon]
    obtain ⟨hne, -, hno⟩ := port_chars h hq
    by_cases hp : h.path = []
    · simp [hp]
    · refine iff_of_false ?_ fun hall => hp hall.2.2
      have hslash' : '/' ∈ q ++ h.path := List.mem_append_right _ (path_slash h hp)
      have hstar : q ++ h.path ≠ ['*'] := fun heq => by
        rw [heq] at hslash'
        exact absurd hslash' (by decide)
      have hport : q ++ h.path ≠ (target.port.map portText).getD [] := fun heq => by
        rw [heq] at hslash'
        exact target_slash hslash'
      simp only [hstar, hport]
      simp

end Grammar

/-! ### Schemes -/

def knownSchemes : List Text :=
  ["http", "https", "ws", "wss", "file", "data", "about", "blob"].map String.toList

theorem asStr_fromLowercase {s u : Text} (hu : u ∈ knownSchemes) :
    (fromLowercase s).asStr.toList = u ↔ s = u := by
  unfold fromLowercase
  split_ifs with h₁ h₂ h₃ h₄ h₅ h₆ h₇ h₈
  · rw [h₁]; exact Iff.rfl
  · rw [h₂]; exact Iff.rfl
  · rw [h₃]; exact Iff.rfl
  · rw [h₄]; exact Iff.rfl
  · rw [h₅]; exact Iff.rfl
  · rw [h₆]; exact Iff.rfl
  · rw [h₇]; exact Iff.rfl
  · rw [h₈]; exact Iff.rfl
  · refine iff_of_false (fun heq => ?_) fun heq => ?_
    · rw [← heq] at hu
      exact absurd hu (by decide)
    · rw [← heq] at hu
      simp only [knownSchemes, List.map_cons, List.map_nil, List.mem_cons, List.not_mem_nil,
        or_false] at hu
      tauto

/-! ### What the code matches -/

/-- A resource as the code has it. -/
def resourceUrl (r : Csp3.Resource) : Url := ⟨fromLowercase r.scheme, r.host, r.port⟩

/-- The host source is spelled as the URL: its scheme, its host or the end of it, its port;
and it has no path. -/
structure Literal (h : Csp3.HostSource) (r : Csp3.Resource) : Prop where
  scheme : ∀ s ∈ h.scheme, s = r.scheme ∧ s ∈ webSchemes
  host : hostMatches h.host r.host = true
  port : ∀ q ∈ h.port, q = ['*'] ∨ q = (r.port.map portText).getD []
  path : h.path = []

theorem literal_iff (h : Csp3.HostSource) (r : Csp3.Resource) :
    Literal h r ↔ (∀ s ∈ h.scheme, s = r.scheme ∧ s ∈ webSchemes) ∧
      matchesHostPort (authority h) (resourceUrl r) = true := by
  rw [matchesHostPort_authority h (resourceUrl r) r.noSlash]
  exact ⟨fun hl => ⟨hl.scheme, hl.host, hl.port, hl.path⟩, fun ⟨h₁, h₂, h₃, h₄⟩ => ⟨h₁, h₂, h₃, h₄⟩⟩

theorem matchesPattern_text (h : Csp3.HostSource) (r : Csp3.Resource) :
    matchesPattern h.text (resourceUrl r) = true ↔ Literal h r := by
  rw [literal_iff]
  cases hs : h.scheme with
  | none =>
    rw [matchesPattern, text_none h hs, schemeOf_none fun u hu => authority_scheme h hu]
    simp
  | some s =>
    obtain ⟨hcolon, -, -⟩ := isScheme_chars (h.isScheme s hs)
    by_cases hweb : s ∈ webSchemes
    · have hknown : s ∈ knownSchemes := by
        revert hweb
        have hall : ∀ u ∈ webSchemes, u ∈ knownSchemes := by decide
        exact hall s
      have hscheme : (resourceUrl r).scheme.asStr.toList = s ↔ s = r.scheme :=
        (asStr_fromLowercase hknown).trans eq_comm
      rw [matchesPattern, text_some h hs, schemeOf_web hweb]
      simp [hscheme, hweb]
    · have hcut : h.text = s ++ ':' :: ("//".toList ++ authority h) := by
        rw [text_some h hs, List.append_assoc]
        rfl
      have hnone : schemeOf h.text = (none, h.text) := by
        refine schemeOf_none fun u hu hpre => hweb ?_
        rw [hcut] at hpre
        exact (scheme_isPrefix (webSchemes_chars hu).1 hcolon hpre).1 ▸ hu
      refine iff_of_false (fun hmatch => ?_) fun hall => hweb (hall.1 s rfl).2
      rw [matchesPattern, hnone] at hmatch
      simp only [Option.any_none, Bool.false_eq_true, if_false] at hmatch
      rw [hcut, matchesHostPort, splitOnce_colon _ hcolon] at hmatch
      have hstar : "//".toList ++ authority h ≠ ['*'] := fun heq =>
        absurd (List.cons.inj heq).1 (by decide)
      have hport : "//".toList ++ authority h ≠ (r.port.map portText).getD [] := fun heq =>
        target_slash (heq ▸ List.mem_append_left _ (by decide))
      simp only [hstar, resourceUrl, hport] at hmatch
      simp at hmatch

theorem trim_eq {t : Text} (h : ∀ c ∈ t, isWhitespace c = false) : trim t = t := by
  have hdrop : t.dropWhile isWhitespace = t := by
    cases t with
    | nil => rfl
    | cons c t => rw [List.dropWhile_cons_of_neg (by simp [h c List.mem_cons_self])]
  rw [trim, trimMatches, hdrop, List.rdropWhile_eq_self_iff]
  intro hne
  rw [h _ (List.getLast_mem hne)]
  exact Bool.false_ne_true

section Sources

variable {e : Text} {page origin : Origin} {target : Url}

def sourceSchemes : List Text := ["data", "blob", "https", "http"].map String.toList

theorem matchesSource_pattern (hw : ∀ c ∈ e, isWhitespace c = false) (hany : e ≠ ['*'])
    (hquote : ∀ t, e ≠ '\'' :: t) (hscheme : ∀ s ∈ sourceSchemes, e ≠ s ++ [':']) :
    matchesSource e page origin target = matchesPattern e target := by
  have h₁ : e ≠ "*".toList := hany
  have h₂ : e ≠ "'self'".toList := hquote _
  have h₃ : e ∉ ["'unsafe-inline'", "'unsafe-eval'", "'strict-dynamic'"].map String.toList := by
    simp only [List.map_cons, List.map_nil, List.mem_cons, List.not_mem_nil, or_false, not_or]
    exact ⟨hquote _, hquote _, hquote _⟩
  have h₄ : e ≠ "data:".toList := hscheme "data".toList (by decide)
  have h₅ : e ≠ "blob:".toList := hscheme "blob".toList (by decide)
  have h₆ : e ≠ "https:".toList := hscheme "https".toList (by decide)
  have h₇ : e ≠ "http:".toList := hscheme "http".toList (by decide)
  simp only [matchesSource, trim_eq hw, List.contains_iff_mem]
  rw [if_neg h₁, if_neg h₂, if_neg h₃, if_neg h₄, if_neg h₅, if_neg h₆, if_neg h₇]

/-- The keywords that match no URL. -/
def keywords : List Text := ["'unsafe-inline'", "'unsafe-eval'", "'strict-dynamic'"].map String.toList

/-- What no other rule takes is a pattern, or a keyword that matches nothing. -/
theorem matchesSource_other (hw : ∀ c ∈ e, isWhitespace c = false) (hany : e ≠ ['*'])
    (hself : e ≠ "'self'".toList) (hscheme : ∀ s ∈ sourceSchemes, e ≠ s ++ [':']) :
    matchesSource e page origin target = true ↔ e ∉ keywords ∧ matchesPattern e target = true := by
  have h₁ : e ≠ "*".toList := hany
  have h₄ : e ≠ "data:".toList := hscheme "data".toList (by decide)
  have h₅ : e ≠ "blob:".toList := hscheme "blob".toList (by decide)
  have h₆ : e ≠ "https:".toList := hscheme "https".toList (by decide)
  have h₇ : e ≠ "http:".toList := hscheme "http".toList (by decide)
  simp only [matchesSource, trim_eq hw]
  rw [if_neg h₁, if_neg hself, if_neg h₄, if_neg h₅, if_neg h₆, if_neg h₇]
  have hmem : (["'unsafe-inline'", "'unsafe-eval'", "'strict-dynamic'"].map String.toList).contains
      e = true ↔ e ∈ keywords := List.contains_iff_mem
  by_cases hkey : e ∈ keywords
  · rw [if_pos (hmem.mpr hkey)]
    exact iff_of_false Bool.false_ne_true fun h => h.1 hkey
  · rw [if_neg fun h => hkey (hmem.mp h)]
    exact (and_iff_right hkey).symm

theorem matchesSource_text {h : Csp3.HostSource} (r : Csp3.Resource)
    (hw : ∀ c ∈ h.text, isWhitespace c = false) (hany : h.text ≠ ['*']) :
    matchesSource h.text page origin (resourceUrl r) = true ↔ Literal h r := by
  rw [matchesSource_pattern hw hany (text_quote h), matchesPattern_text]
  have hall : ∀ s ∈ sourceSchemes, ':' ∉ s ∧ '/' ∉ s := by decide
  exact fun s hs => text_scheme h (hall s hs).1 (hall s hs).2

/-- A scheme that the code knows as a source. -/
theorem matchesSource_scheme {s : Text} (r : Csp3.Resource) (hs : s ∈ sourceSchemes) :
    matchesSource (s ++ [':']) page origin (resourceUrl r) = true ↔ r.scheme = s := by
  have hknown : ∀ u ∈ sourceSchemes, u ∈ knownSchemes := by decide
  have hcode : matchesSource (s ++ [':']) page origin (resourceUrl r) =
      decide ((resourceUrl r).scheme.asStr = String.ofList s) := by
    simp only [sourceSchemes, List.map_cons, List.map_nil, List.mem_cons, List.not_mem_nil,
      or_false] at hs
    rcases hs with rfl | rfl | rfl | rfl <;> rfl
  rw [hcode, decide_eq_true_iff, ← String.toList_inj, String.toList_ofList]
  exact asStr_fromLowercase (hknown s hs)

/-- What is taken for the host in an expression. -/
def patternHost (e : Text) : Text := (splitOnce ':' (schemeOf e).2).1

def patternPort (e : Text) : Option Text := (splitOnce ':' (schemeOf e).2).2

/-- An expression that is taken for a host fits: the scheme in front of it is the URL's, the host
is the URL's or an end of it, and the port is spelled as there. -/
structure Fits (e : Text) (r : Csp3.Resource) : Prop where
  scheme : ∀ s, (schemeOf e).1 = some s → r.scheme = s
  host : hostMatches (patternHost e) r.host = true
  port : ∀ q, patternPort e = some q → q = ['*'] ∨ q = (r.port.map portText).getD []

theorem schemeOf_known (e s : Text) (h : (schemeOf e).1 = some s) : s ∈ knownSchemes := by
  unfold schemeOf at h
  cases h₁ : stripPrefix "https://".toList e with
  | some rest =>
    simp only [h₁, Option.some.injEq] at h
    exact h ▸ by decide
  | none =>
    cases h₂ : stripPrefix "http://".toList e with
    | some rest =>
      simp only [h₁, h₂, Option.some.injEq] at h
      exact h ▸ by decide
    | none =>
      cases h₃ : stripPrefix "ws://".toList e with
      | some rest =>
        simp only [h₁, h₂, h₃, Option.some.injEq] at h
        exact h ▸ by decide
      | none =>
        cases h₄ : stripPrefix "wss://".toList e with
        | some rest =>
          simp only [h₁, h₂, h₃, h₄, Option.some.injEq] at h
          exact h ▸ by decide
        | none =>
          simp only [h₁, h₂, h₃, h₄] at h
          cases h

theorem matchesHostPort_iff (rest : Text) (target : Url) :
    matchesHostPort rest target = true ↔ hostMatches (splitOnce ':' rest).1 target.host = true ∧
      ∀ q, (splitOnce ':' rest).2 = some q → q = ['*'] ∨ q = (target.port.map portText).getD [] := by
  unfold matchesHostPort
  dsimp only
  cases (splitOnce ':' rest).2 with
  | none => simp
  | some q => simp

theorem matchesPattern_iff (e : Text) (r : Csp3.Resource) :
    matchesPattern e (resourceUrl r) = true ↔ Fits e r := by
  have hscheme : ∀ s, (schemeOf e).1 = some s →
      ((resourceUrl r).scheme.asStr.toList = s ↔ r.scheme = s) := fun s hs =>
    asStr_fromLowercase (schemeOf_known e s hs)
  have hrest := matchesHostPort_iff (schemeOf e).2 (resourceUrl r)
  have hfits : Fits e r ↔ (∀ s, (schemeOf e).1 = some s → r.scheme = s) ∧
      matchesHostPort (schemeOf e).2 (resourceUrl r) = true := by
    rw [hrest]
    exact ⟨fun h => ⟨h.scheme, h.host, h.port⟩, fun h => ⟨h.1, h.2.1, h.2.2⟩⟩
  rw [hfits, matchesPattern]
  dsimp only
  cases hs : (schemeOf e).1 with
  | none => simp
  | some s =>
    have := hscheme s hs
    simp [this]

end Sources

/-! ### Host sources are told apart by their text -/

section Spelling

open Csp3

def inHost (c : Char) : Bool := c ≠ ':' && c ≠ '/'

theorem inHost_of_not_mem {t : Text} (hcolon : ':' ∉ t) (hslash : '/' ∉ t) :
    ∀ c ∈ t, inHost c = true := by
  intro c hc
  have h₁ : c ≠ ':' := fun he => hcolon (he ▸ hc)
  have h₂ : c ≠ '/' := fun he => hslash (he ▸ hc)
  simp [inHost, h₁, h₂]

theorem authority_inj {h h' : HostSource} (heq : authority h = authority h') :
    h.host = h'.host ∧ h.port = h'.port ∧ h.path = h'.path := by
  have hhost : ∀ h : HostSource, ∀ c ∈ h.host, inHost c = true := fun h =>
    inHost_of_not_mem (host_chars h).1 (host_chars h).2.1
  have hpath : ∀ h : HostSource, Stops (· ≠ '/') h.path := by
    intro h
    rcases h.isPath with h0 | ⟨t, ht, -, -⟩
    · rw [h0]
      exact fun a ha => by cases ha
    · rw [ht]
      exact fun a ha => by
        obtain rfl := Option.some.inj ha
        decide
  have hrest : ∀ h : HostSource, Stops inHost ((h.port.elim [] (':' :: ·)) ++ h.path) := by
    intro h
    cases h.port with
    | none =>
      intro a ha
      have hslash := hpath h a ha
      simp only [ne_eq, decide_not, Bool.not_eq_eq_eq_not, Bool.not_false, decide_eq_true_eq] at hslash
      rw [hslash]
      rfl
    | some q =>
      intro a ha
      obtain rfl := Option.some.inj ha
      rfl
  have hcut := congrArg (List.takeWhile inHost) heq
  have hdrop := congrArg (List.dropWhile inHost) heq
  rw [authority, authority, takeWhile_append_stops (hhost h) (hrest h),
    takeWhile_append_stops (hhost h') (hrest h')] at hcut
  rw [authority, authority, dropWhile_append_stops (hhost h) (hrest h),
    dropWhile_append_stops (hhost h') (hrest h')] at hdrop
  refine ⟨hcut, ?_⟩
  have hdigits : ∀ (h : HostSource) q, h.port = some q → ∀ c ∈ q, decide (c ≠ '/') = true :=
    fun h q hq c hc => decide_eq_true fun he => (port_chars h hq).2.2 (he ▸ hc)
  have hnot : ∀ (h : HostSource) (t : Text), h.path ≠ ':' :: t := by
    intro h t heq
    have := hpath h ':' (by rw [heq, List.head?_cons])
    exact absurd this (by decide)
  cases hq : h.port with
  | none =>
    cases hq' : h'.port with
    | none =>
      rw [hq, hq'] at hdrop
      exact ⟨rfl, hdrop⟩
    | some q' =>
      rw [hq, hq'] at hdrop
      exact absurd hdrop (hnot h _)
  | some q =>
    cases hq' : h'.port with
    | none =>
      rw [hq, hq'] at hdrop
      exact absurd hdrop.symm (hnot h' _)
    | some q' =>
      rw [hq, hq'] at hdrop
      have htail : q ++ h.path = q' ++ h'.path := (List.cons.inj hdrop).2
      have h₁ := congrArg (List.takeWhile (· ≠ '/')) htail
      have h₂ := congrArg (List.dropWhile (· ≠ '/')) htail
      rw [takeWhile_append_stops (hdigits h q hq) (hpath h),
        takeWhile_append_stops (hdigits h' q' hq') (hpath h')] at h₁
      rw [dropWhile_append_stops (hdigits h q hq) (hpath h),
        dropWhile_append_stops (hdigits h' q' hq') (hpath h')] at h₂
      exact ⟨by rw [h₁], h₂⟩

/-- Two slashes follow the first colon only behind a scheme. -/
theorem authority_slashes (h : HostSource) {s : Text} (hs : ':' ∉ s) (hslash : '/' ∉ s) (t : Text) :
    authority h ≠ s ++ "://".toList ++ t := by
  intro heq
  have hcut : s ++ "://".toList ++ t = s ++ ':' :: ("//".toList ++ t) := by
    rw [List.append_assoc]
    rfl
  rw [hcut] at heq
  cases hq : h.port with
  | some q =>
    have hauth : authority h = h.host ++ ':' :: (q ++ h.path) := by
      rw [authority, hq]
      rfl
    rw [hauth] at heq
    obtain ⟨-, hrest⟩ := append_cons_inj (host_chars h).1 hs heq
    obtain ⟨hne, -, hno⟩ := port_chars h hq
    cases q with
    | nil => exact hne rfl
    | cons c q =>
      obtain ⟨rfl, -⟩ := List.cons.inj hrest
      exact hno List.mem_cons_self
  | none =>
    have hauth : authority h = h.host ++ h.path := by
      rw [authority, hq]
      rfl
    rw [hauth] at heq
    rcases h.isPath with h0 | ⟨t', ht', -, -⟩
    · rw [h0, List.append_nil] at heq
      exact (host_chars h).1 (by rw [heq]; simp)
    · -- the path begins with a slash, in front of which there is no colon
      rw [ht'] at heq
      have hhost := inHost_of_not_mem (host_chars h).1 (host_chars h).2.1
      have hscheme := inHost_of_not_mem hs hslash
      have hdrop := congrArg (List.dropWhile inHost) heq
      rw [List.dropWhile_append_of_pos hhost, List.dropWhile_append_of_pos hscheme,
        List.dropWhile_cons_of_neg (by decide), List.dropWhile_cons_of_neg (by decide)] at hdrop
      exact absurd (List.cons.inj hdrop).1 (by decide)

theorem text_inj {h h' : HostSource} (heq : h.text = h'.text) : h.scheme = h'.scheme ∧
    h.host = h'.host ∧ h.port = h'.port ∧ h.path = h'.path := by
  cases hs : h.scheme with
  | none =>
    cases hs' : h'.scheme with
    | none =>
      rw [text_none h hs, text_none h' hs'] at heq
      exact ⟨rfl, authority_inj heq⟩
    | some s' =>
      obtain ⟨hcolon, hslash, -⟩ := isScheme_chars (h'.isScheme s' hs')
      rw [text_none h hs, text_some h' hs'] at heq
      exact absurd heq (authority_slashes h hcolon hslash _)
  | some s =>
    obtain ⟨hcolon, hslash, -⟩ := isScheme_chars (h.isScheme s hs)
    cases hs' : h'.scheme with
    | none =>
      rw [text_some h hs, text_none h' hs'] at heq
      exact absurd heq.symm (authority_slashes h' hcolon hslash _)
    | some s' =>
      obtain ⟨hcolon', -, -⟩ := isScheme_chars (h'.isScheme s' hs')
      rw [text_some h hs, text_some h' hs', List.append_assoc, List.append_assoc] at heq
      have hcut : s ++ ':' :: ('/' :: '/' :: authority h) =
          s' ++ ':' :: ('/' :: '/' :: authority h') := heq
      obtain ⟨rfl, hrest⟩ := append_cons_inj hcolon hcolon' hcut
      exact ⟨rfl, authority_inj (List.cons.inj (List.cons.inj hrest).2).2⟩

end Spelling

/-! ### Origins -/

section Origins

open Csp3

variable {page r : Resource}

theorem isNetwork_known {s : Text} (h : isNetwork s) : s ∈ knownSchemes := by
  unfold isNetwork defaultPort at h
  split_ifs at h with h₁ h₂
  · rcases h₁ with rfl | rfl <;> decide
  · rcases h₂ with rfl | rfl <;> decide
  · exact absurd rfl h

theorem portText_inj {m n : ℕ} (h : portText m = portText n) : m = n := by
  rw [← decimal_portText m, h, decimal_portText]

/-- The text of an origin with a known scheme and a host. -/
theorem origin_text (hs : r.scheme ∈ knownSchemes) (hhost : r.host ≠ []) :
    Origin.of (resourceUrl r) = r.scheme ++ ':' :: '/' :: '/' :: (Text.toAsciiLowercase r.host ++
      (r.port.elim [] fun p => ':' :: portText p)) := by
  have hscheme : (fromLowercase r.scheme).asStr.toList = r.scheme := (asStr_fromLowercase hs).mpr rfl
  have hne : r.scheme ≠ [] := by
    rintro heq
    rw [heq] at hs
    exact absurd hs (by decide)
  unfold Origin.of
  simp only [resourceUrl, hscheme, if_neg (not_or.mpr ⟨hne, hhost⟩)]
  cases r.port with
  | none => simp
  | some p => simp

/-- What an origin's text looks like, if it is not that of one that is opaque. -/
theorem origin_cases (r : Resource) : Origin.of (resourceUrl r) = "null".toList ∨
    r.scheme ∈ knownSchemes ∧ r.host ≠ [] := by
  by_cases hs : r.scheme ∈ knownSchemes
  · by_cases hhost : r.host = []
    · left
      unfold Origin.of
      simp only [resourceUrl, hhost, or_true, if_true]
    · exact .inr ⟨hs, hhost⟩
  · left
    have hother : (fromLowercase r.scheme).asStr.toList = [] := by
      unfold fromLowercase
      split_ifs with h₁ h₂ h₃ h₄ h₅ h₆ h₇ h₈
      all_goals first
        | rfl
        | exact absurd (by simp only [*]; decide) hs
    unfold Origin.of
    simp only [resourceUrl, hother, true_or, if_true]

theorem knownSchemes_colon {s : Text} (hs : s ∈ knownSchemes) : ':' ∉ s := by
  have hall : ∀ s ∈ knownSchemes, ':' ∉ s := by decide
  exact hall s hs

/-- Origins with one host and one text are spelled alike. -/
theorem origin_inj (hs : page.scheme ∈ knownSchemes) (hhost : page.host ≠ [])
    (hhosts : Text.toAsciiLowercase page.host = Text.toAsciiLowercase r.host)
    (heq : Origin.of (resourceUrl page) = Origin.of (resourceUrl r)) :
    page.scheme = r.scheme ∧ page.port = r.port := by
  rw [origin_text hs hhost] at heq
  rcases origin_cases r with hnull | ⟨hs', hhost'⟩
  · rw [hnull] at heq
    have hmem : ':' ∈ "null".toList := by rw [← heq]; simp
    exact absurd hmem (by decide)
  · rw [origin_text hs' hhost'] at heq
    obtain ⟨hscheme, hrest⟩ := append_cons_inj (knownSchemes_colon hs) (knownSchemes_colon hs') heq
    refine ⟨hscheme, ?_⟩
    rw [hhosts] at hrest
    have hport := List.append_cancel_left (List.cons.inj (List.cons.inj hrest).2).2
    cases hp : page.port with
    | none =>
      cases hp' : r.port with
      | none => rfl
      | some n =>
        rw [hp, hp'] at hport
        cases hport
    | some m =>
      cases hp' : r.port with
      | none =>
        rw [hp, hp'] at hport
        cases hport
      | some n =>
        rw [hp, hp'] at hport
        rw [portText_inj (List.cons.inj hport).2]

theorem selfMatches_hosts (h : SelfMatches page r) : page.host ≠ [] ∧
    Text.toAsciiLowercase page.host = Text.toAsciiLowercase r.host := by
  rcases h with ⟨-, -, hne, hhosts, -⟩ | ⟨hne, hhosts, -, -⟩
  · exact ⟨hne, hhosts⟩
  · exact ⟨hne, hhosts⟩

/-- A page that matches, with an origin of one text, has a network scheme. -/
theorem selfMatches_network (h : SelfMatches page r)
    (heq : Origin.of (resourceUrl page) = Origin.of (resourceUrl r)) : isNetwork page.scheme := by
  rcases h with ⟨hnetwork, -⟩ | ⟨hne, hhosts, -, hscheme⟩
  · exact hnetwork
  · have hnetwork : isNetwork r.scheme := by
      rcases hscheme with hs | hs | ⟨-, hs⟩
      all_goals
        rw [hs]
        simp [isNetwork, defaultPort]
    have hne' : r.host ≠ [] := by
      intro hnil
      rw [hnil] at hhosts
      exact hne (List.map_eq_nil_iff.mp hhosts)
    obtain ⟨hs, -⟩ := @origin_inj r page (isNetwork_known hnetwork) hne' hhosts.symm heq.symm
    exact hs ▸ hnetwork

end Origins

/-! ### Expressions judged alike -/

section Alike

open Csp3

variable (page r : Resource)

/-- One of the four schemes that the code knows matches no other scheme, and any other one
matches where its text fits as a host. -/
structure SchemeAlike (s : Text) : Prop where
  known : s ∈ sourceSchemes → schemePart s r.scheme → r.scheme = s
  other : s ∉ sourceSchemes → (schemePart s r.scheme ↔ Fits (s ++ [':']) r)

/-- A literal fit is one that counts: the page's scheme takes the URL's when none is asked
for, the host is a domain, and the port is the default one when none is asked for. A fit
that counts is a literal one. -/
structure HostAlike (h : HostSource) : Prop where
  scheme : Literal h r → h.scheme = none → schemePart page.scheme r.scheme
  domain : Literal h r → IsDomain r.host
  port : Literal h r → h.port = none → portPart none r
  spelledScheme : h.Matches page r → ∀ s ∈ h.scheme, s = r.scheme ∧ s ∈ webSchemes
  spelledHost : h.Matches page r → hostMatches h.host r.host = true
  spelledPort : h.Matches page r → ∀ q ∈ h.port, q = ['*'] ∨ q = (r.port.map portText).getD []
  noPath : h.Matches page r → h.path = []

/-- Where the origins of the page and the URL are one text, they have a network scheme and one
host; and where `'self'` matches, they are spelled with one scheme and one port. With other
letters it matches where its text fits as a host. -/
structure SelfAlike (e : Text) : Prop where
  network : e = "'self'".toList → Origin.of (resourceUrl page) = Origin.of (resourceUrl r) →
    isNetwork page.scheme ∧ page.host ≠ [] ∧
      Text.toAsciiLowercase page.host = Text.toAsciiLowercase r.host
  spelled : e = "'self'".toList → SelfMatches page r →
    page.scheme = r.scheme ∧ page.port = r.port
  upper : e ≠ "'self'".toList → (SelfMatches page r ↔ Fits e r)

structure Alike (e : Text) : Prop where
  any : e = ['*'] → r.scheme = "http".toList ∨ r.scheme = "https".toList ∨ r.scheme = page.scheme ∨
    schemePart page.scheme r.scheme ∧ IsDomain r.host ∧ portPart none r
  scheme : ∀ s, IsScheme s → e = s ++ [':'] → SchemeAlike r s
  host : ∀ h : HostSource, e = h.text → e ≠ ['*'] → HostAlike page r h
  self : IsSelf e → SelfAlike page r e
  other : ¬ IsSchemeSource e → ¬ IsHostSource e → ¬ IsSelf e → e ∉ keywords → ¬ Fits e r

variable {page r}

theorem hostMatches_iff {pattern host : Text} (hstar : pattern ≠ ['*']) :
    hostMatches pattern host = true ↔
      (∃ t, pattern = '*' :: '.' :: t ∧
          Text.toAsciiLowercase ('.' :: t) <:+ Text.toAsciiLowercase host) ∨
        ((∀ t, pattern ≠ '*' :: '.' :: t) ∧
          Text.toAsciiLowercase pattern = Text.toAsciiLowercase host) := by
  by_cases hwild : ∃ t, pattern = '*' :: '.' :: t
  · obtain ⟨t, rfl⟩ := hwild
    have hstrip : stripPrefix "*.".toList (Text.toAsciiLowercase ('*' :: '.' :: t)) =
        some (Text.toAsciiLowercase t) := stripPrefix_append "*.".toList (Text.toAsciiLowercase t)
    simp only [hostMatches, hstrip, decide_eq_true_eq]
    refine ⟨fun h => .inl ⟨t, rfl, h⟩, ?_⟩
    rintro (⟨t', heq, h⟩ | ⟨hno, -⟩)
    · obtain rfl := (List.cons.inj (List.cons.inj heq).2).2
      exact h
    · exact absurd rfl (hno t)
  · have hno : ∀ t, pattern ≠ '*' :: '.' :: t := fun t heq => hwild ⟨t, heq⟩
    have hstrip : stripPrefix "*.".toList (Text.toAsciiLowercase pattern) = none := by
      refine stripPrefix_none fun hpre => ?_
      obtain ⟨x, hx⟩ := hpre
      cases pattern with
      | nil => cases hx
      | cons c pattern =>
        cases pattern with
        | nil => cases (List.cons.inj hx).2
        | cons d t =>
          obtain ⟨hc, hx⟩ := List.cons.inj hx
          obtain ⟨hd, -⟩ := List.cons.inj hx
          have hc := (toLower_eq (d := '*') rfl rfl c).mp hc.symm
          have hd := (toLower_eq (d := '.') rfl rfl d).mp hd.symm
          exact hno t (by rw [hc, hd])
    simp only [hostMatches, hstrip, decide_eq_true_eq]
    refine ⟨fun h => .inr ⟨hno, h⟩, ?_⟩
    rintro (⟨t, heq, -⟩ | ⟨-, h⟩)
    · exact absurd heq (hno t)
    · exact h

theorem literal_matches (h : HostSource) :
    HostAlike page r h ↔ (Literal h r ↔ h.Matches page r) := by
  constructor
  · intro ha
    constructor
    · intro hl
      have hdomain := ha.domain hl
      refine ⟨?_, ⟨hdomain, ?_⟩, ?_, ?_⟩
      · cases hs : h.scheme with
        | none => exact ha.scheme hl hs
        | some s =>
          rw [Option.getD_some, (hl.scheme s hs).1]
          exact .inl rfl
      · by_cases hstar : h.host = ['*']
        · exact .inl hstar
        · exact .inr ((hostMatches_iff hstar).mp hl.host)
      · cases hq : h.port with
        | none => exact ha.port hl hq
        | some q =>
          rcases hl.port q hq with hstar | hport
          · exact .inl hstar
          · refine .inr (.inl ?_)
            cases hr : r.port with
            | none =>
              rw [hr] at hport
              exact absurd hport (port_chars h hq).1
            | some n =>
              rw [hr] at hport
              rw [hport, Option.map_some, Option.getD_some, decimal_portText]
      · rw [hl.path]
        exact .inl rfl
    · exact fun hm => ⟨ha.spelledScheme hm, ha.spelledHost hm, ha.spelledPort hm, ha.noPath hm⟩
  · intro hiff
    refine ⟨fun hl hs => ?_, fun hl => (hiff.mp hl).2.1.1, fun hl hq => ?_,
      fun hm => (hiff.mpr hm).scheme, fun hm => (hiff.mpr hm).host, fun hm => (hiff.mpr hm).port,
      fun hm => (hiff.mpr hm).path⟩
    · have hscheme := (hiff.mp hl).1
      rwa [hs] at hscheme
    · have hport := (hiff.mp hl).2.2.1
      rwa [hq] at hport

theorem isSelf_quote {e : Text} (h : IsSelf e) : ∃ t, e = '\'' :: t := by
  cases e with
  | nil => cases h
  | cons c t =>
    have hc := (toLower_eq (d := '\'') rfl rfl c).mp (List.cons.inj h).1
    exact ⟨t, by rw [hc]⟩

theorem isScheme_ne_quote {s t : Text} (hs : IsScheme s) : s ++ [':'] ≠ '\'' :: t := by
  intro heq
  obtain ⟨-, -, c, t', rfl, hc⟩ := isScheme_chars hs
  obtain ⟨rfl, -⟩ := List.cons.inj heq
  exact absurd hc (by decide)

theorem not_isScheme_star {s : Text} (hs : IsScheme s) : s ++ [':'] ≠ ['*'] := by
  intro heq
  obtain ⟨-, -, c, t', rfl, hc⟩ := isScheme_chars hs
  obtain ⟨rfl, -⟩ := List.cons.inj heq
  exact absurd hc (by decide)

/-- The host `*` alone. -/
def starHost : HostSource := ⟨none, ['*'], none, [], by simp, .inl rfl, by simp, .inl rfl⟩

theorem text_star {h : HostSource} (heq : h.text = ['*']) :
    h.scheme = none ∧ h.host = ['*'] ∧ h.port = none ∧ h.path = [] :=
  @text_inj h starHost heq

theorem matches_any : Matches ['*'] page r ↔
    r.scheme = "http".toList ∨ r.scheme = "https".toList ∨ r.scheme = page.scheme ∨
      schemePart page.scheme r.scheme ∧ IsDomain r.host ∧ portPart none r := by
  constructor
  · rintro (⟨-, h | h | h⟩ | ⟨s, hs, heq, -⟩ | ⟨h, heq, hm⟩ | ⟨hself, -⟩)
    · exact .inl h
    · exact .inr (.inl h)
    · exact .inr (.inr (.inl h))
    · exact absurd heq.symm (not_isScheme_star hs)
    · obtain ⟨hs, -, hq, -⟩ := text_star heq.symm
      obtain ⟨hscheme, ⟨hdomain, -⟩, hport, -⟩ := hm
      rw [hs] at hscheme
      rw [hq] at hport
      exact .inr (.inr (.inr ⟨hscheme, hdomain, hport⟩))
    · obtain ⟨t, ht⟩ := isSelf_quote hself
      cases ht
  · rintro (h | h | h | ⟨hscheme, hdomain, hport⟩)
    · exact .inl ⟨rfl, .inl h⟩
    · exact .inl ⟨rfl, .inr (.inl h)⟩
    · exact .inl ⟨rfl, .inr (.inr h)⟩
    · exact .inr (.inr (.inl ⟨starHost, rfl, hscheme, ⟨hdomain, .inl rfl⟩, hport, .inl rfl⟩))

theorem matches_scheme {s : Text} (hs : IsScheme s) :
    Matches (s ++ [':']) page r ↔ schemePart s r.scheme := by
  obtain ⟨hcolon, hslash, -⟩ := isScheme_chars hs
  constructor
  · rintro (⟨heq, -⟩ | ⟨s', -, heq, hp⟩ | ⟨h, heq, -⟩ | ⟨hself, -⟩)
    · exact absurd heq (not_isScheme_star hs)
    · rwa [List.append_cancel_right heq]
    · exact absurd heq.symm (text_scheme h hcolon hslash)
    · obtain ⟨t, ht⟩ := isSelf_quote hself
      exact absurd ht (isScheme_ne_quote hs)
  · exact fun hp => .inr (.inl ⟨_, hs, rfl, hp⟩)

theorem matches_host {h : HostSource} (hany : h.text ≠ ['*']) :
    Matches h.text page r ↔ h.Matches page r := by
  constructor
  · rintro (⟨heq, -⟩ | ⟨s, hs, heq, -⟩ | ⟨h', heq, hm⟩ | ⟨hself, -⟩)
    · exact absurd heq hany
    · obtain ⟨hcolon, hslash, -⟩ := isScheme_chars hs
      exact absurd heq (text_scheme h hcolon hslash)
    · obtain ⟨h₁, h₂, h₃, h₄⟩ := text_inj heq
      rw [HostSource.Matches, h₁, h₂, h₃, h₄]
      exact hm
    · obtain ⟨t, ht⟩ := isSelf_quote hself
      exact absurd ht (text_quote h t)
  · exact fun hm => .inr (.inr (.inl ⟨h, rfl, hm⟩))

theorem matches_rest {e : Text} (hany : e ≠ ['*']) (hscheme : ¬ IsSchemeSource e)
    (hhost : ¬ IsHostSource e) : Matches e page r ↔ IsSelf e ∧ SelfMatches page r := by
  constructor
  · rintro (⟨heq, -⟩ | ⟨s, hs, heq, -⟩ | ⟨h, heq, -⟩ | hself)
    · exact absurd heq hany
    · exact absurd ⟨s, hs, heq⟩ hscheme
    · exact absurd ⟨h, heq⟩ hhost
    · exact hself
  · exact fun hself => .inr (.inr (.inr hself))

theorem sourceSchemes_isScheme {s : Text} (hs : s ∈ sourceSchemes) : IsScheme s := by
  have hgrammar : ∀ s ∈ sourceSchemes, (s.head?.any Char.isAlpha ∧ s.all isSchemeChar) := by decide
  obtain ⟨hhead, hall⟩ := hgrammar s hs
  refine ⟨?_, List.all_eq_true.mp hall⟩
  cases s with
  | nil => cases hhead
  | cons c t => exact ⟨c, t, rfl, by simpa using hhead⟩

variable {e : Text}

/-- The text of the code's judgement. -/
abbrev Code (page r : Resource) (e : Text) : Prop :=
  matchesSource e (.of (resourceUrl page)) (.of (resourceUrl r)) (resourceUrl r) = true

theorem schemeAlike_iff {s : Text} (hs : IsScheme s) (hw : ∀ c ∈ s ++ [':'], isWhitespace c = false) :
    SchemeAlike r s ↔ (Code page r (s ++ [':']) ↔ Matches (s ++ [':']) page r) := by
  rw [matches_scheme hs]
  by_cases hknown : s ∈ sourceSchemes
  · have hcode : Code page r (s ++ [':']) ↔ r.scheme = s := matchesSource_scheme r hknown
    rw [hcode]
    constructor
    · intro ha
      refine ⟨fun heq => ?_, ha.known hknown⟩
      rw [heq]
      exact .inl rfl
    · exact fun hiff => ⟨fun _ => hiff.mpr, fun h => absurd hknown h⟩
  · have hcode : Code page r (s ++ [':']) ↔ Fits (s ++ [':']) r := by
      rw [Code, matchesSource_pattern hw (not_isScheme_star hs) (fun _ => isScheme_ne_quote hs),
        matchesPattern_iff]
      exact fun s' hs' heq => hknown (List.append_cancel_right heq ▸ hs')
    rw [hcode]
    exact ⟨fun ha => (ha.other hknown).symm, fun hiff => ⟨fun h => absurd h hknown, fun _ => hiff.symm⟩⟩

theorem selfAlike_iff (hself : IsSelf e) (hw : ∀ c ∈ e, isWhitespace c = false) (hany : e ≠ ['*'])
    (hnot : ∀ s ∈ sourceSchemes, e ≠ s ++ [':']) :
    SelfAlike page r e ↔ (Code page r e ↔ SelfMatches page r) := by
  by_cases hlower : e = "'self'".toList
  · subst hlower
    have hcode : Code page r "'self'".toList ↔
        Origin.of (resourceUrl page) = Origin.of (resourceUrl r) := decide_eq_true_iff
    rw [hcode]
    constructor
    · intro ha
      constructor
      · intro heq
        obtain ⟨hnetwork, hne, hhosts⟩ := ha.network rfl heq
        obtain ⟨hscheme, hport⟩ := origin_inj (isNetwork_known hnetwork) hne hhosts heq
        exact .inl ⟨hnetwork, hscheme, hne, hhosts, by rw [hscheme, hport]⟩
      · intro hm
        obtain ⟨hscheme, hport⟩ := ha.spelled rfl hm
        obtain ⟨hne, hhosts⟩ := selfMatches_hosts hm
        have hne' : r.host ≠ [] := by
          intro hnil
          rw [hnil] at hhosts
          exact hne (List.map_eq_nil_iff.mp hhosts)
        unfold Origin.of
        simp only [resourceUrl, hscheme, hport, hhosts, hne, hne']
    · intro hiff
      refine ⟨fun _ heq => ?_, fun _ hm => ?_, fun hne => absurd rfl hne⟩
      · have hm := hiff.mp heq
        exact ⟨selfMatches_network hm heq, selfMatches_hosts hm⟩
      · have heq := hiff.mpr hm
        obtain ⟨hne, hhosts⟩ := selfMatches_hosts hm
        exact origin_inj (isNetwork_known (selfMatches_network hm heq)) hne hhosts heq
  · have hkey : e ∉ keywords := by
      intro hmem
      have hall : ∀ k ∈ keywords, Text.toAsciiLowercase k ≠ "'self'".toList := by decide
      exact hall e hmem hself
    have hcode : Code page r e ↔ Fits e r := by
      rw [Code, matchesSource_other hw hany hlower hnot, matchesPattern_iff]
      exact and_iff_right hkey
    rw [hcode]
    exact ⟨fun ha => (ha.upper hlower).symm, fun hiff => ⟨fun h => absurd h hlower,
      fun h => absurd h hlower, fun _ => hiff.symm⟩⟩

/-- An expression is judged alike exactly when the code takes it for what level 3 does. -/
theorem alike_iff (hw : ∀ c ∈ e, isWhitespace c = false) :
    Alike page r e ↔ (Code page r e ↔ Matches e page r) := by
  by_cases hany : e = ['*']
  · subst hany
    have hcode : Code page r ['*'] := rfl
    rw [iff_true_left hcode, matches_any]
    refine ⟨fun ha => ha.any rfl, fun h => ⟨fun _ => h, fun s hs heq => ?_, fun _ _ hne => ?_,
      fun hself => ?_, fun _ hno => ?_⟩⟩
    · exact absurd heq.symm (not_isScheme_star hs)
    · exact absurd rfl hne
    · obtain ⟨t, ht⟩ := isSelf_quote hself
      cases ht
    · exact absurd ⟨starHost, rfl⟩ hno
  by_cases hscheme : IsSchemeSource e
  · obtain ⟨s, hs, rfl⟩ := hscheme
    obtain ⟨hcolon, hslash, -⟩ := isScheme_chars hs
    rw [← schemeAlike_iff hs hw]
    refine ⟨fun ha => ha.scheme s hs rfl, fun h => ⟨fun heq => absurd heq hany, fun s' _ heq => ?_,
      fun h heq => ?_, fun hself => ?_, fun hno => ?_⟩⟩
    · rwa [← List.append_cancel_right heq]
    · exact absurd heq.symm (text_scheme h hcolon hslash)
    · obtain ⟨t, ht⟩ := isSelf_quote hself
      exact absurd ht (isScheme_ne_quote hs)
    · exact absurd ⟨s, hs, rfl⟩ hno
  by_cases hhost : IsHostSource e
  · obtain ⟨h, rfl⟩ := hhost
    have hcode : Code page r h.text ↔ Literal h r := matchesSource_text r hw hany
    rw [hcode, matches_host hany, ← literal_matches]
    refine ⟨fun ha => ha.host h rfl hany, fun ha => ⟨fun heq => absurd heq hany,
      fun s hs heq => absurd ⟨s, hs, heq⟩ hscheme, fun h' heq _ => ?_, fun hself => ?_, fun _ hno => ?_⟩⟩
    · -- the text has one reading as a host source
      obtain ⟨h₁, h₂, h₃, h₄⟩ := text_inj heq
      have hsame : h' = h := by
        cases h
        cases h'
        simp only at h₁ h₂ h₃ h₄
        simp only [h₁, h₂, h₃, h₄]
      rwa [hsame]
    · obtain ⟨t, ht⟩ := isSelf_quote hself
      exact absurd ht (text_quote h t)
    · exact absurd ⟨h, rfl⟩ hno
  have hnot : ∀ s ∈ sourceSchemes, e ≠ s ++ [':'] := fun s hs heq =>
    hscheme ⟨s, sourceSchemes_isScheme hs, heq⟩
  rw [matches_rest hany hscheme hhost]
  by_cases hself : IsSelf e
  · rw [and_iff_right hself, ← selfAlike_iff hself hw hany hnot]
    exact ⟨fun ha => ha.self hself, fun h => ⟨fun heq => absurd heq hany,
      fun s hs heq => absurd ⟨s, hs, heq⟩ hscheme, fun h heq _ => absurd ⟨h, heq⟩ hhost, fun _ => h,
      fun _ _ hno => absurd hself hno⟩⟩
  · have hlower : e ≠ "'self'".toList := fun heq => hself (heq ▸ rfl)
    have hcode : Code page r e ↔ e ∉ keywords ∧ Fits e r := by
      rw [Code, matchesSource_other hw hany hlower hnot, matchesPattern_iff]
    have hright : ¬ (IsSelf e ∧ SelfMatches page r) := fun h => hself h.1
    rw [hcode, iff_false_right hright]
    constructor
    · exact fun ha hc => ha.other hscheme hhost hself hc.1 hc.2
    · intro hno
      exact ⟨fun heq => absurd heq hany, fun s hs heq => absurd ⟨s, hs, heq⟩ hscheme,
        fun h heq _ => absurd ⟨h, heq⟩ hhost, fun h => absurd h hself,
        fun _ _ _ hkey hfits => hno ⟨hkey, hfits⟩⟩

end Alike

end Conclave.Net.Csp
