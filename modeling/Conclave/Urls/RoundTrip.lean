import Conclave.Urls.Authority
import Conclave.Urls.Resolution

/-! The round trip of URLs: printing what was parsed, and parsing it again. -/

namespace Conclave.Urls

open Lib Ipc

variable {casing : Casing} {c ch : Char} {s t : Text} {u v : Url} {scheme : Scheme}

theorem special_cases (h : scheme.isSpecial) :
    scheme = .http ∨ scheme = .https ∨ scheme = .ws ∨ scheme = .wss ∨ scheme = .file := by
  cases scheme <;> simp [Scheme.isSpecial] at h ⊢

/-! ### Parsed components -/

/-- What neither a user nor a password has. -/
def Cuts (c : Char) : Prop := c ∈ ['/', '\\', '?', '#', '\t', '\n', '\r']

instance (c : Char) : Decidable (Cuts c) :=
  inferInstanceAs (Decidable (c ∈ ['/', '\\', '?', '#', '\t', '\n', '\r']))

/-- The components of a URL with an authority, as the parser leaves them. -/
structure Parsed (casing : Casing) (u : Url) : Prop where
  special : u.scheme.isSpecial
  username : ∀ c ∈ u.username, c ≠ ':' ∧ ¬ Cuts c
  password : ∀ c ∈ u.password, ¬ Cuts c
  hostPort : IsHostPort casing u.scheme u.host u.port
  host : u.scheme ≠ .file → u.host ≠ []
  root : u.path.head? = some '/'
  path : Encoded ['"', '#', '<', '>', '?', '`', '{', '}'] u.path
  backslash : '\\' ∉ u.path
  query : ∀ q ∈ u.query, Encoded ['"', '#', '<', '>', '\''] q
  fragment : ∀ f ∈ u.fragment, Encoded ['"', '<', '>', '`'] f

/-- What the parser makes of a special scheme and the text behind it. -/
theorem parse_eq (name rest : Text) (h : splitScheme (clean s) = some (name, rest)) :
    parse casing s = if (Scheme.fromLowercase name).isSpecial then
      parseSpecial casing (Scheme.fromLowercase name) (dropSlashes 2 rest)
    else .ok (uncut (Scheme.fromLowercase name) rest) := by
  have hne : s.trimMatches (· ≤ ' ') ≠ [] := by
    intro hnil
    rw [clean, hnil] at h
    cases h
  rw [parse, if_neg hne, h]

theorem exists_splitScheme (h : parse casing s = .ok u) :
    ∃ name rest, splitScheme (clean s) = some (name, rest) := by
  cases hsplit : splitScheme (clean s) with
  | some r => exact ⟨r.1, r.2, rfl⟩
  | none =>
    rw [parse, hsplit] at h
    split_ifs at h

theorem parsePath_root (s : Text) : (parsePath (s.dropWhile fun c => !isSlash c)).head? = some '/' ∧
    Encoded ['"', '#', '<', '>', '?', '`', '{', '}'] (parsePath (s.dropWhile fun c => !isSlash c)) ∧
    '\\' ∉ parsePath (s.dropWhile fun c => !isSlash c) := by
  obtain ⟨t, hback, hpath⟩ := exists_slash s
  rw [hpath]
  refine ⟨?_, encoded _, fun hmem => hback (mem_of_mem_encode (by decide) (by decide) rfl hmem)⟩
  rw [encode_slash]
  rfl

theorem mem_dropSlashes {n : ℕ} (h : c ∈ dropSlashes n s) : c ∈ s := by
  induction n generalizing s with
  | zero => exact h
  | succ n ih =>
    cases s with
    | nil => exact h
    | cons d s =>
      rw [dropSlashes] at h
      split_ifs at h
      · exact List.mem_cons_of_mem _ (ih h)
      · exact h

theorem splitScheme_suffix {name rest : Text} (h : splitScheme s = some (name, rest)) :
    rest <:+ s := by
  rw [splitScheme] at h
  split at h
  · next first name' rest' htake hdrop =>
    split_ifs at h
    cases h
    have hsuffix := List.dropWhile_suffix isSchemeChar (l := s)
    rw [hdrop] at hsuffix
    exact (List.suffix_cons _ _).trans hsuffix
  · cases h

theorem isKept_of_mem_clean (h : c ∈ clean s) : isKept c := (List.mem_filter.mp h).2

/-- The authority that the parser cuts off. -/
theorem not_cuts_of_mem_authority {name rest : Text} (h : splitScheme (clean s) = some (name, rest))
    (hc : c ∈ authority (dropSlashes 2 rest)) : ¬ Cuts c := by
  have htake : ∀ {p : Char → Bool} {t : Text}, c ∈ t.takeWhile p → p c ∧ c ∈ t :=
    fun hmem => ⟨List.mem_takeWhile_imp hmem, (List.takeWhile_prefix _).mem hmem⟩
  rw [authority] at hc
  obtain ⟨hslash, hc⟩ := htake hc
  obtain ⟨hmark, hc⟩ := htake hc
  obtain ⟨hhash, hc⟩ := htake hc
  have hkept := isKept_of_mem_clean ((splitScheme_suffix h).mem (mem_dropSlashes hc))
  intro hcuts
  simp only [Cuts, List.mem_cons, List.not_mem_nil, or_false] at hcuts
  rcases hcuts with rfl | rfl | rfl | rfl | rfl | rfl | rfl
  · cases hslash
  · cases hslash
  · simp at hmark
  · simp at hhash
  · cases hkept
  · cases hkept
  · cases hkept

theorem mem_splitUserinfo :
    (∀ c ∈ (splitUserinfo s).1, c ≠ ':' ∧ c ∈ s) ∧ ∀ c ∈ (splitUserinfo s).2, c ∈ s := by
  rw [splitUserinfo]
  split_ifs with hat
  · have hsub : ∀ c ∈ (s.rdropWhile (· ≠ '@')).dropLast, c ∈ s :=
      fun c hc => (List.rdropWhile_prefix _ _).mem (List.mem_of_mem_dropLast hc)
    constructor
    · intro c hc
      refine ⟨?_, hsub c ((List.takeWhile_prefix _).mem hc)⟩
      simpa using List.mem_takeWhile_imp hc
    · intro c hc
      exact hsub c ((List.dropWhile_suffix _).mem (List.mem_of_mem_tail hc))
  · exact ⟨nofun, nofun⟩

/-- What the parser made of the text before the path. -/
theorem parseSpecial_inv (h : parseSpecial casing scheme s = .ok u) :
    u.scheme = scheme ∧ (u.username, u.password) = splitUserinfo (authority s) ∧
      parseHostPort casing ((authority s).rtakeWhile (· ≠ '@')) scheme = .ok (u.host, u.port) ∧
      (scheme ≠ .file → u.host ≠ []) := by
  have hauthority : authority s = (splitOff (splitOff s '#').1 '?').1.takeWhile fun c => !isSlash c :=
    rfl
  rw [hauthority]
  rw [parseSpecial] at h
  dsimp only at h
  split at h
  · cases h
  · next host port hhost =>
    split_ifs at h with hnone
    cases h
    exact ⟨rfl, rfl, hhost, fun hfile hnil => hnone ⟨hfile, hnil⟩⟩

theorem parsed (hcase : LowerCased casing) (h : parse casing s = .ok u)
    (hspecial : u.scheme.isSpecial) : Parsed casing u := by
  obtain ⟨name, rest, hsplit⟩ := exists_splitScheme h
  rw [parse_eq name rest hsplit] at h
  split_ifs at h with hname
  · have hcuts := fun c => not_cuts_of_mem_authority (c := c) hsplit
    obtain ⟨hscheme, huser, hhost, hne⟩ := parseSpecial_inv h
    obtain ⟨-, hpath, hquery, hfragment⟩ := parseSpecial_ok h
    have hname := congrArg Prod.fst huser
    have hpassword := congrArg Prod.snd huser
    dsimp only at hname hpassword
    obtain ⟨husers, hpasswords⟩ := mem_splitUserinfo (s := authority (dropSlashes 2 rest))
    obtain ⟨hroot, hencoded, hback⟩ := parsePath_root
      (splitOff (splitOff (dropSlashes 2 rest) '#').1 '?').1
    rw [← hpath] at hroot hencoded hback
    refine ⟨hspecial, ?_, ?_, ?_, ?_, hroot, hencoded, hback, ?_, ?_⟩
    · intro c hc
      obtain ⟨hcolon, hmem⟩ := husers c (hname ▸ hc)
      exact ⟨hcolon, hcuts c hmem⟩
    · exact fun c hc => hcuts c (hpasswords c (hpassword ▸ hc))
    · rw [hscheme]
      exact isHostPort hcase hhost
    · rw [hscheme]
      exact hne
    · intro q hq
      rw [hquery, Option.mem_def, Option.map_eq_some_iff] at hq
      obtain ⟨q, -, rfl⟩ := hq
      exact encoded q
    · intro f hf
      rw [hfragment, Option.mem_def, Option.map_eq_some_iff] at hf
      obtain ⟨f, -, rfl⟩ := hf
      exact encoded f
  · cases h
    exact absurd hspecial hname

/-! ### Printed components -/

/-- The text before the path. -/
def shownAuthority (u : Url) : Text := u.userinfo ++ (u.host ++ u.portText)

/-- The text behind the scheme and its slashes. -/
def shown (u : Url) : Text :=
  shownAuthority u ++ u.path ++ u.query.elim [] ('?' :: ·) ++ u.fragment.elim [] ('#' :: ·)

theorem display_eq (u : Url) : u.display = asStr u.scheme ++ "://".toList ++ shown u := by
  simp only [Url.display, shown, shownAuthority, List.append_assoc]

theorem splitOff_elim (h : ch ∉ s) (o : Option Text) :
    splitOff (s ++ o.elim [] (ch :: ·)) ch = (s, o) := by
  induction s with
  | nil =>
    cases o with
    | none => rfl
    | some t => exact splitOff_self ch t
  | cons c s ih =>
    rw [List.mem_cons, not_or] at h
    rw [List.cons_append, splitOff_cons (Ne.symm h.1), ih h.2]

namespace Parsed

theorem not_mem_userinfo (h : Parsed casing u) (hc : Cuts c) : c ∉ u.userinfo := by
  have hat : c ≠ '@' := by
    rintro rfl
    exact absurd hc (by decide)
  have hcolon : c ≠ ':' := by
    rintro rfl
    exact absurd hc (by decide)
  rw [Url.userinfo]
  split_ifs with hnone hpassword
  · exact List.not_mem_nil
  · intro hmem
    rw [List.append_nil] at hmem
    rcases List.mem_append.mp hmem with hmem | hmem
    · exact (h.username c hmem).2 hc
    · exact hat (List.mem_singleton.mp hmem)
  · intro hmem
    rcases List.mem_append.mp hmem with hmem | hmem
    · rcases List.mem_append.mp hmem with hmem | hmem
      · exact (h.username c hmem).2 hc
      · rcases List.mem_cons.mp hmem with heq | hmem
        · exact hcolon heq
        · exact h.password c hmem hc
    · exact hat (List.mem_singleton.mp hmem)

theorem delimits_of_cuts (h : Cuts c) : Delimits c := by
  simp only [Cuts, List.mem_cons, List.not_mem_nil, or_false] at h
  rcases h with rfl | rfl | rfl | rfl | rfl | rfl | rfl <;> decide

theorem not_mem_authority (h : Parsed casing u) (hc : Cuts c) : c ∉ shownAuthority u := by
  intro hmem
  rcases List.mem_append.mp hmem with hmem | hmem
  · exact h.not_mem_userinfo hc hmem
  · rcases List.mem_append.mp hmem with hmem | hmem
    · exact h.hostPort.not_mem (delimits_of_cuts hc) hmem
    · exact not_mem_portText (delimits_of_cuts hc) hmem

theorem not_mem_hostPort (h : Parsed casing u) : '@' ∉ u.host ++ u.portText := by
  have hat : Delimits '@' := by decide
  intro hmem
  rcases List.mem_append.mp hmem with hmem | hmem
  · exact h.hostPort.not_mem hat hmem
  · exact not_mem_portText hat hmem

/-- The authority is cut into what was printed. -/
theorem splitUserinfo_shown (h : Parsed casing u) :
    splitUserinfo (shownAuthority u) = (u.username, u.password) ∧
      (shownAuthority u).rtakeWhile (· ≠ '@') = u.host ++ u.portText := by
  have hhost := h.not_mem_hostPort
  have hall : ∀ c ∈ u.host ++ u.portText, decide (c ≠ '@') = true :=
    fun c hc => decide_eq_true fun heq => hhost (heq ▸ hc)
  have hcut : ∀ t : Text, (t ++ '@' :: (u.host ++ u.portText)).rdropWhile (· ≠ '@') = t ++ ['@'] := by
    intro t
    rw [rdropWhile_append_kept (by simp), List.rdropWhile_eq_nil_iff.mpr hall]
  have htail : ∀ t : Text,
      (t ++ '@' :: (u.host ++ u.portText)).rtakeWhile (· ≠ '@') = u.host ++ u.portText := by
    intro t
    have hwhole : (t ++ '@' :: (u.host ++ u.portText)).rdropWhile (· ≠ '@') ++
        (t ++ '@' :: (u.host ++ u.portText)).rtakeWhile (· ≠ '@') =
          t ++ '@' :: (u.host ++ u.portText) := List.rdropWhile_append_rtakeWhile
    rw [hcut t, List.append_assoc, List.singleton_append] at hwhole
    exact (List.cons.inj (List.append_cancel_left hwhole)).2
  rw [shownAuthority, Url.userinfo]
  split_ifs with hnone hpassword
  · rw [List.nil_append, splitUserinfo, if_neg hhost, hnone.1, hnone.2]
    exact ⟨rfl, List.rtakeWhile_eq_self_iff.mpr hall⟩
  · have hcolon : ∀ c ∈ u.username, decide (c ≠ ':') = true :=
      fun c hc => decide_eq_true (h.username c hc).1
    rw [List.append_nil, List.append_assoc, List.singleton_append, splitUserinfo, if_pos (by simp),
      hcut, List.dropLast_concat]
    dsimp only
    rw [List.takeWhile_eq_self_iff.mpr hcolon, List.dropWhile_eq_nil_iff.mpr hcolon, hpassword]
    exact ⟨rfl, htail _⟩
  · have hcolon : ∀ c ∈ u.username, decide (c ≠ ':') = true :=
      fun c hc => decide_eq_true (h.username c hc).1
    rw [List.append_assoc, List.singleton_append, splitUserinfo, if_pos (by simp), hcut,
      List.dropLast_concat]
    dsimp only
    rw [List.takeWhile_append_of_pos hcolon, List.dropWhile_append_of_pos hcolon]
    exact ⟨by simp, htail _⟩

theorem gt_of_encoded {chars : List Char} (h : Encoded chars s) (hc : c ∈ s) : ' ' < c := by
  by_contra hle
  rw [not_lt] at hle
  have hnat : c.toNat ≤ 32 := hle
  refine h.not_mem (.inr hle) ?_ ?_ hc
  · rintro rfl
    exact absurd hnat (by decide)
  · have hlow : ∀ n ≤ 32, isHexDigit (Char.ofNat n) = false := by decide
    have hlow := hlow c.toNat hnat
    rwa [Char.ofNat_toNat] at hlow

theorem isKept_of_gt (h : ' ' < c) : isKept c := by
  have hnat : 32 < c.toNat := h
  rw [isKept, decide_eq_true_eq]
  intro hmem
  simp only [List.mem_cons, List.not_mem_nil, or_false] at hmem
  rcases hmem with rfl | rfl | rfl <;> exact absurd hnat (by decide)

theorem isKept_of_not_cuts (h : ¬ Cuts c) : isKept c := by
  rw [isKept, decide_eq_true_eq]
  intro hmem
  apply h
  simp only [List.mem_cons, List.not_mem_nil, or_false] at hmem
  rcases hmem with rfl | rfl | rfl <;> decide

/-- The path and what follows it are of characters above the space. -/
theorem gt_of_mem_tail (h : Parsed casing u)
    (hc : c ∈ u.path ++ u.query.elim [] ('?' :: ·) ++ u.fragment.elim [] ('#' :: ·)) : ' ' < c := by
  rcases List.mem_append.mp hc with hc | hc
  · rcases List.mem_append.mp hc with hc | hc
    · exact gt_of_encoded h.path hc
    · cases hquery : u.query with
      | none =>
        rw [hquery] at hc
        cases hc
      | some q =>
        rw [hquery] at hc
        rcases List.mem_cons.mp hc with rfl | hc
        · decide
        · exact gt_of_encoded (h.query q hquery) hc
  · cases hfragment : u.fragment with
    | none =>
      rw [hfragment] at hc
      cases hc
    | some f =>
      rw [hfragment] at hc
      rcases List.mem_cons.mp hc with rfl | hc
      · decide
      · exact gt_of_encoded (h.fragment f hfragment) hc

theorem path_ne_nil (h : Parsed casing u) : u.path ≠ [] := by
  intro hnil
  have hroot := h.root
  rw [hnil] at hroot
  cases hroot

theorem clean_display (h : Parsed casing u) : clean u.display = u.display := by
  have hshown : shown u = shownAuthority u ++
      (u.path ++ u.query.elim [] ('?' :: ·) ++ u.fragment.elim [] ('#' :: ·)) := by
    rw [shown, List.append_assoc, List.append_assoc, ← List.append_assoc u.path]
  have htail : u.path ++ u.query.elim [] ('?' :: ·) ++ u.fragment.elim [] ('#' :: ·) ≠ [] :=
    List.append_ne_nil_of_left_ne_nil (List.append_ne_nil_of_left_ne_nil h.path_ne_nil _) _
  have hscheme : (∀ c ∈ asStr u.scheme ++ "://".toList, isKept c) ∧
      ∀ t, ∀ c ∈ (asStr u.scheme ++ "://".toList ++ t).head?, ' ' < c := by
    rcases special_cases h.special with hu | hu | hu | hu | hu <;> rw [hu]
    all_goals exact ⟨List.all_eq_true.mp (by decide), fun t c hc => by cases hc; decide⟩
  rw [display_eq, hshown, clean_eq_self]
  refine ⟨?_, hscheme.2 _, ?_⟩
  · intro c hc
    rcases List.mem_append.mp hc with hc | hc
    · exact hscheme.1 c hc
    · rcases List.mem_append.mp hc with hc | hc
      · exact isKept_of_not_cuts fun hcuts => h.not_mem_authority hcuts hc
      · exact isKept_of_gt (h.gt_of_mem_tail hc)
  · intro c hc
    rw [← List.append_assoc, List.getLast?_append_of_ne_nil _ htail] at hc
    exact h.gt_of_mem_tail (List.mem_of_getLast? hc)

theorem splitScheme_display (h : Parsed casing u) :
    splitScheme (clean u.display) = some (asStr u.scheme, '/' :: '/' :: shown u) ∧
      Scheme.fromLowercase (asStr u.scheme) = u.scheme := by
  rw [h.clean_display, display_eq]
  rcases special_cases h.special with hu | hu | hu | hu | hu <;> rw [hu] <;> exact ⟨rfl, rfl⟩

/-- What is printed parses to the components, as far as the host and the port do. -/
theorem parse_display (h : Parsed casing u) : parse casing u.display = .ok { u with
    port := if u.host.head? = some '[' ∧ u.port = u.scheme.defaultPort then none else u.port } := by
  obtain ⟨hsplit, hscheme⟩ := h.splitScheme_display
  obtain ⟨hsplitUser, hhost⟩ := h.splitUserinfo_shown
  have hhash : Cuts '#' := by decide
  have hmark : Cuts '?' := by decide
  have hpathHash : '#' ∉ u.path := h.path.not_mem (.inl (by decide)) (by decide) rfl
  have hpathMark : '?' ∉ u.path := h.path.not_mem (.inl (by decide)) (by decide) rfl
  have hqueryHash : '#' ∉ u.query.elim [] ('?' :: ·) := by
    cases hquery : u.query with
    | none => exact List.not_mem_nil
    | some q =>
      intro hmem
      rcases List.mem_cons.mp hmem with heq | hmem
      · cases heq
      · exact (h.query q hquery).not_mem (.inl (by decide)) (by decide) rfl hmem
  have hfragment : splitOff (shown u) '#' =
      (shownAuthority u ++ u.path ++ u.query.elim [] ('?' :: ·), u.fragment) := by
    apply splitOff_elim
    simp only [List.mem_append, not_or]
    exact ⟨⟨h.not_mem_authority hhash, hpathHash⟩, hqueryHash⟩
  have hquery : splitOff (shownAuthority u ++ u.path ++ u.query.elim [] ('?' :: ·)) '?' =
      (shownAuthority u ++ u.path, u.query) := by
    apply splitOff_elim
    simp only [List.mem_append, not_or]
    exact ⟨h.not_mem_authority hmark, hpathMark⟩
  obtain ⟨t, ht⟩ := List.head?_eq_some_iff.mp h.root
  have hinside : ∀ c ∈ shownAuthority u, (!isSlash c) = true := by
    intro c hc
    rw [Bool.not_eq_true']
    by_contra hslash
    rw [Bool.not_eq_false, isSlash, Bool.or_eq_true, beq_iff_eq, beq_iff_eq] at hslash
    rcases hslash with rfl | rfl
    · exact h.not_mem_authority (by decide) hc
    · exact h.not_mem_authority (by decide) hc
  have htake : ((shownAuthority u ++ u.path).takeWhile fun c => !isSlash c) = shownAuthority u := by
    rw [List.takeWhile_append_of_pos hinside, ht]
    exact List.append_nil _
  have hdrop : ((shownAuthority u ++ u.path).dropWhile fun c => !isSlash c) = u.path := by
    rw [List.dropWhile_append_of_pos hinside, ht]
    rfl
  have hpath : parsePath u.path = u.path := by
    have hmap : u.path.map (fun c => if c = '\\' then '/' else c) = u.path := by
      calc u.path.map (fun c => if c = '\\' then '/' else c) = u.path.map id :=
            List.map_congr_left fun c hc => if_neg fun (heq : c = '\\') => h.backslash (heq ▸ hc)
        _ = u.path := List.map_id _
    rw [parsePath, if_neg h.path_ne_nil, hmap]
    exact h.path.encode_eq
  have hqueries : u.query.map percentEncodeQuery = u.query := by
    cases hq : u.query with
    | none => rfl
    | some q => rw [Option.map_some, percentEncodeQuery, queryNeedsEncode, (h.query q hq).encode_eq]
  have hfragments : u.fragment.map percentEncodeFragment = u.fragment := by
    cases hf : u.fragment with
    | none => rfl
    | some f =>
      rw [Option.map_some, percentEncodeFragment, fragmentNeedsEncode, (h.fragment f hf).encode_eq]
  rw [parse_eq _ _ hsplit, hscheme, if_pos h.special,
    show dropSlashes 2 ('/' :: '/' :: shown u) = shown u from rfl, parseSpecial, hfragment]
  dsimp only
  rw [hquery]
  dsimp only
  rw [htake, hdrop, hsplitUser, hhost, parseHostPort_shown h.hostPort, hpath, hqueries, hfragments]
  dsimp only
  rw [if_neg]
  rintro ⟨hfile, hnil⟩
  exact h.host hfile hnil

end Parsed

/-! ### The round trip -/

/-- An address between brackets with the default port written out. -/
def DefaultBehindBrackets (scheme : Scheme) (hostPort : Text) : Prop :=
  ∃ stripped p, hostPort = '[' :: stripped ∧ scheme.defaultPort = some p ∧
    parsePortSuffix (stripped.dropWhile (· ≠ ']')).tail = .ok (some p)

/-- A special scheme, and no such address. -/
def Printable (s : Text) : Prop :=
  ∃ name rest, splitScheme (clean s) = some (name, rest) ∧
    (Scheme.fromLowercase name).isSpecial ∧
    ¬ DefaultBehindBrackets (Scheme.fromLowercase name)
      ((authority (dropSlashes 2 rest)).rtakeWhile (· ≠ '@'))

theorem defaultBehindBrackets {hostPort host : Text} {port : Option ℕ} (hcase : LowerCased casing)
    (h : parseHostPort casing hostPort scheme = .ok (host, port)) :
    DefaultBehindBrackets scheme hostPort ↔
      host.head? = some '[' ∧ port = scheme.defaultPort ∧ port ≠ none := by
  constructor
  · rintro ⟨stripped, p, rfl, hdefault, hsuffix⟩
    rw [parseHostPort] at h
    split_ifs at h
    obtain ⟨inner, -, h⟩ := bind_eq_ok.mp h
    rw [hsuffix, ok_bind] at h
    cases h
    exact ⟨rfl, hdefault.symm, Option.some_ne_none p⟩
  · rintro ⟨hhead, hdefault, hport⟩
    have hname : ¬ normalizeHost casing host = .ok host := by
      intro hname
      exact absurd (normalizeHost_allowed hname _ (List.mem_of_head? hhead)) (by decide)
    rw [parseHostPort.eq_def] at h
    split at h
    · cases h
      cases hhead
    · split_ifs at h
      obtain ⟨inner, -, h⟩ := bind_eq_ok.mp h
      obtain ⟨q, hq, h⟩ := bind_eq_ok.mp h
      cases h
      obtain ⟨p, rfl⟩ := Option.ne_none_iff_exists'.mp hport
      exact ⟨_, p, rfl, hdefault.symm, hq⟩
    · next c _ hbracket =>
      by_cases hnil : beforePort hostPort = []
      · rw [if_pos hnil] at h
        cases h
      rw [if_neg hnil] at h
      obtain ⟨found, hfound, h⟩ := bind_eq_ok.mp h
      have hidem := normalizeHost_idem hcase hfound
      split at h
      · obtain ⟨n, -, h⟩ := bind_eq_ok.mp h
        cases h
        exact absurd hidem hname
      · cases h
        exact absurd hidem hname

theorem getLast_clean (h : (clean s).getLast? = some c) : ' ' < c := by
  rw [clean] at h
  rcases List.eq_nil_or_concat' (s.trimMatches (· ≤ ' ')) with hnil | ⟨l, d, hlast⟩
  · rw [hnil] at h
    cases h
  · have hne : (s.dropWhile (· ≤ ' ')).rdropWhile (· ≤ ' ') ≠ [] := by
      rw [show (s.dropWhile (· ≤ ' ')).rdropWhile (· ≤ ' ') = l ++ [d] from hlast]
      exact List.append_ne_nil_of_right_ne_nil _ (List.cons_ne_nil _ _)
    have hd : ' ' < d := by
      have hnot := List.rdropWhile_last_not (· ≤ ' ') _ hne
      simpa [show (s.dropWhile (· ≤ ' ')).rdropWhile (· ≤ ' ') = l ++ [d] from hlast] using hnot
    rw [hlast, List.filter_append, List.filter_cons_of_pos (Parsed.isKept_of_gt hd), List.filter_nil,
      List.getLast?_concat] at h
    rwa [← Option.some.inj h]

/-- Without an authority, the slashes that are printed become part of the path. -/
theorem parse_display_uncut {name rest : Text} (h : splitScheme (clean s) = some (name, rest))
    (hspecial : ¬ scheme.isSpecial) :
    parse casing (uncut scheme rest).display ≠ .ok (uncut scheme rest) := by
  have hdisplay : (uncut scheme rest).display = asStr scheme ++ ':' :: '/' :: '/' :: rest := by
    simp [Url.display, uncut, Url.userinfo, Url.portText]
  have hkept : ∀ c ∈ rest, isKept c :=
    fun c hc => isKept_of_mem_clean ((splitScheme_suffix h).mem hc)
  have hclean : clean (uncut scheme rest).display = (uncut scheme rest).display := by
    have hscheme : (asStr scheme).all isKept := by cases scheme <;> decide
    rw [hdisplay, clean_eq_self]
    refine ⟨?_, ?_, ?_⟩
    · intro c hc
      rcases List.mem_append.mp hc with hc | hc
      · exact List.all_eq_true.mp hscheme c hc
      · simp only [List.mem_cons] at hc
        rcases hc with rfl | rfl | rfl | hc
        · rfl
        · rfl
        · rfl
        · exact hkept c hc
    · intro c hc
      cases scheme <;> cases hc <;> decide
    · intro c hc
      rw [List.getLast?_append_of_ne_nil _ (List.cons_ne_nil _ _), List.getLast?_cons_cons,
        List.getLast?_cons_cons] at hc
      by_cases hnil : rest = []
      · rw [hnil] at hc
        cases hc
        decide
      · obtain ⟨front, hfront⟩ := splitScheme_suffix h
        have hlast : ('/' :: rest).getLast? = rest.getLast? :=
          List.getLast?_append_of_ne_nil ['/'] hnil
        rw [hlast, ← List.getLast?_append_of_ne_nil front hnil, hfront] at hc
        exact getLast_clean hc
  intro hparse
  obtain ⟨name', rest', hsplit⟩ := exists_splitScheme hparse
  rw [parse_eq name' rest' hsplit] at hparse
  split_ifs at hparse with hname
  · have hscheme := (parseSpecial_inv hparse).1
    rw [← hscheme] at hname
    exact hspecial hname
  · rw [hclean, hdisplay] at hsplit
    have hrest : rest' = rest := congrArg Url.path (Except.ok.inj hparse)
    subst hrest
    have hlonger : ∀ l : Text, '/' :: '/' :: l ≠ l := by
      intro l heq
      have hlen := congrArg List.length heq
      simp only [List.length_cons] at hlen
      omega
    cases scheme
    all_goals first
      | exact absurd rfl hspecial
      | exact absurd (congrArg Prod.snd (Option.some.inj hsplit)) (hlonger _)
      | cases hsplit

theorem display_iff (hcase : LowerCased casing) (h : parse casing s = .ok u) :
    parse casing u.display = .ok u ↔ Printable s := by
  obtain ⟨name, rest, hsplit⟩ := exists_splitScheme h
  have hparse := h
  rw [parse_eq name rest hsplit] at hparse
  have hprintable : Printable s ↔ (Scheme.fromLowercase name).isSpecial ∧
      ¬ DefaultBehindBrackets (Scheme.fromLowercase name)
        ((authority (dropSlashes 2 rest)).rtakeWhile (· ≠ '@')) := by
    constructor
    · rintro ⟨name', rest', hsplit', hboth⟩
      rw [hsplit] at hsplit'
      cases hsplit'
      exact hboth
    · exact fun hboth => ⟨name, rest, hsplit, hboth⟩
  rw [hprintable]
  split_ifs at hparse with hspecial
  · obtain ⟨hscheme, -, hhost, -⟩ := parseSpecial_inv hparse
    rw [← hscheme] at hhost hspecial ⊢
    rw [(parsed hcase h hspecial).parse_display, defaultBehindBrackets hcase hhost,
      and_iff_right hspecial]
    constructor
    · rintro heq ⟨hhead, hdefault, hport⟩
      have hsame := congrArg Url.port (Except.ok.inj heq)
      dsimp only at hsame
      rw [if_pos ⟨hhead, hdefault⟩] at hsame
      exact hport hsame.symm
    · intro hnot
      have hsame : (if u.host.head? = some '[' ∧ u.port = u.scheme.defaultPort then none
          else u.port) = u.port := by
        split_ifs with hboth
        · by_contra hport
          exact hnot ⟨hboth.1, hboth.2, Ne.symm hport⟩
        · rfl
      rw [hsame]
  · cases hparse
    rw [iff_false_intro fun hboth : _ ∧ _ => hspecial hboth.1, iff_false]
    exact parse_display_uncut hsplit hspecial

/-! ### Origins -/

/-- Two texts of one scheme, which differ by the default port behind the authority. -/
structure DefaultLeftOut (s t : Text) (auth digits after : Text) : Prop where
  schemes : ∃ name rest rest', splitScheme (clean s) = some (name, rest) ∧
    splitScheme (clean t) = some (name, rest') ∧
    dropSlashes 2 rest = auth ++ ':' :: digits ++ after ∧ dropSlashes 2 rest' = auth ++ after ∧
    ∃ p, (Scheme.fromLowercase name).defaultPort = some p ∧ parsePortStr digits = .ok p
  inside : ∀ c ∈ auth, inAuthority c
  stops : Stops inAuthority after

theorem isDigit_of_parsePortStr {p : ℕ} (h : parsePortStr s = .ok p) : ∀ c ∈ s, c.isDigit := by
  rw [parsePortStr] at h
  split_ifs at h with hshape
  rw [not_or, not_not] at hshape
  exact List.all_eq_true.mp hshape.2

/-- A default port behind a host changes nothing but what is written. -/
theorem parseHostPort_default {hostPort digits host host' : Text} {port port' : Option ℕ} {p : ℕ}
    (hdefault : scheme.defaultPort = some p) (hdigits : parsePortStr digits = .ok p)
    (hwith : parseHostPort casing (hostPort ++ ':' :: digits) scheme = .ok (host, port))
    (hwithout : parseHostPort casing hostPort scheme = .ok (host', port')) :
    host = host' ∧ port.or scheme.defaultPort = port'.or scheme.defaultPort := by
  have hall := isDigit_of_parsePortStr hdigits
  have hcolon : ':' ∉ digits := fun hc => absurd (hall _ hc) (by decide)
  cases hostPort with
  | nil =>
    have hnil : beforePort (':' :: digits) = [] := by
      rw [beforePort, if_pos (List.mem_cons_self ..), ← List.nil_append (':' :: digits),
        rdropWhile_colon hcolon]
      rfl
    rw [List.nil_append, parseHostPort.eq_def] at hwith
    split at hwith
    · next heq => cases heq
    · next heq => cases heq
    · rw [if_pos hnil] at hwith
      cases hwith
  | cons c rest =>
    by_cases hbracket : c = '['
    · subst hbracket
      rw [parseHostPort] at hwithout
      rw [List.cons_append, parseHostPort] at hwith
      split_ifs at hwithout with hclose
      obtain ⟨front, back, rfl, hfront⟩ := List.eq_append_cons_of_mem hclose
      have hstops : ∀ l : Text, Stops (· ≠ ']') (']' :: l) := by
        intro l a ha
        cases ha
        rfl
      have hpass : ∀ a ∈ front, decide (a ≠ ']') = true :=
        fun a ha => decide_eq_true fun heq => hfront (heq ▸ ha)
      rw [takeWhile_append_stops hpass (hstops _), dropWhile_append_stops hpass (hstops _)] at hwithout
      rw [if_pos (by simp), List.append_assoc, List.cons_append,
        takeWhile_append_stops hpass (hstops _), dropWhile_append_stops hpass (hstops _)] at hwith
      obtain ⟨inner, hinner, hwith⟩ := bind_eq_ok.mp hwith
      obtain ⟨q, hq, hwith⟩ := bind_eq_ok.mp hwith
      rw [hinner, ok_bind] at hwithout
      obtain ⟨q', hq', hwithout⟩ := bind_eq_ok.mp hwithout
      cases hwith
      cases hwithout
      refine ⟨rfl, ?_⟩
      rw [List.tail_cons] at hq hq'
      cases back with
      | nil =>
        rw [List.nil_append, parsePortSuffix, hdigits] at hq
        cases hq
        cases hq'
        exact hdefault.symm
      | cons d more =>
        rw [parsePortSuffix.eq_def] at hq'
        split at hq'
        · next heq => cases heq
        · next heq =>
          cases heq
          -- a port cannot hold another colon
          rw [List.cons_append, parsePortSuffix] at hq
          obtain ⟨n, hn, -⟩ := bind_eq_ok.mp hq
          exact absurd (isDigit_of_parsePortStr hn ':' (by simp)) (by decide)
        · cases hq'
    · have hbefore : beforePort (c :: rest ++ ':' :: digits) = c :: rest := by
        rw [beforePort, if_pos (by simp), rdropWhile_colon hcolon, List.dropLast_concat]
      rw [parseHostPort.eq_def] at hwith
      split at hwith
      · next heq => cases heq
      · next heq => exact absurd (List.cons.inj heq).1 hbracket
      rw [hbefore, if_neg (List.cons_ne_nil _ _), rtakeWhile_colon hcolon, hdigits] at hwith
      obtain ⟨name, hname, hwith⟩ := bind_eq_ok.mp hwith
      have hnone : ':' ∉ c :: rest := fun hc => absurd (normalizeHost_allowed hname _ hc) (by decide)
      have hne : digits ≠ [] := by
        rintro rfl
        cases hdigits
      rw [if_pos ⟨by simp, hne⟩, ok_bind, if_pos hdefault] at hwith
      cases hwith
      rw [parseHostPort.eq_def] at hwithout
      split at hwithout
      · next heq => cases heq
      · next heq => exact absurd (List.cons.inj heq).1 hbracket
      rw [beforePort, if_neg hnone, if_neg (List.cons_ne_nil _ _), hname, ok_bind,
        if_neg fun h => hnone h.1] at hwithout
      cases hwithout
      exact ⟨rfl, rfl⟩

theorem same_origin {auth digits after : Text} (h : DefaultLeftOut s t auth digits after)
    (hs : parse casing s = .ok u) (ht : parse casing t = .ok v) : u.origin = v.origin := by
  obtain ⟨⟨name, rest, rest', hsplit, hsplit', hrest, hrest', p, hdefault, hdigits⟩, hinside,
    hstops⟩ := h
  have hspecial : (Scheme.fromLowercase name).isSpecial := by
    cases hscheme : Scheme.fromLowercase name <;> rw [hscheme] at hdefault <;> first
      | rfl
      | cases hdefault
  have hall := isDigit_of_parsePortStr hdigits
  have hport : ∀ c ∈ ':' :: digits, inAuthority c ∧ c ≠ '@' := by
    intro c hc
    rcases List.mem_cons.mp hc with rfl | hc
    · decide
    · have hdigit : ∀ n < 10, inAuthority (Nat.digitChar n) ∧ Nat.digitChar n ≠ '@' := by decide
      exact forall_digit (P := fun c => inAuthority c ∧ c ≠ '@') hdigit (hall c hc)
  have hwith : authority (dropSlashes 2 rest) = auth ++ ':' :: digits := by
    rw [hrest, authority_eq, takeWhile_append_stops _ hstops]
    intro c hc
    rcases List.mem_append.mp hc with hc | hc
    · exact hinside c hc
    · exact (hport c hc).1
  have hwithout : authority (dropSlashes 2 rest') = auth := by
    rw [hrest', authority_eq, takeWhile_append_stops hinside hstops]
  have hcut : (auth ++ ':' :: digits).rtakeWhile (· ≠ '@') =
      auth.rtakeWhile (· ≠ '@') ++ ':' :: digits := by
    have hpos : ∀ c ∈ (':' :: digits).reverse, decide (c ≠ '@') = true :=
      fun c hc => decide_eq_true (hport c (List.mem_reverse.mp hc)).2
    rw [List.rtakeWhile, List.reverse_append, List.takeWhile_append_of_pos hpos,
      List.reverse_append, List.reverse_reverse]
    rfl
  rw [parse_eq name rest hsplit, if_pos hspecial] at hs
  rw [parse_eq name rest' hsplit', if_pos hspecial] at ht
  obtain ⟨hscheme, -, hhost, -⟩ := parseSpecial_inv hs
  obtain ⟨hscheme', -, hhost', -⟩ := parseSpecial_inv ht
  rw [hwith, hcut] at hhost
  rw [hwithout] at hhost'
  obtain ⟨hhosts, hports⟩ := parseHostPort_default hdefault hdigits hhost hhost'
  rw [Url.origin, Url.origin, hscheme, hscheme', hhosts, hports]

/-- What was parsed comes back from what is printed exactly for the special schemes without a
default port behind brackets, and the default port never changes the origin. -/
theorem round_trip (hcase : LowerCased casing) (h : parse casing s = .ok u) :
    (parse casing u.display = .ok u ↔ Printable s) ∧
      ∀ t auth digits after v, DefaultLeftOut s t auth digits after → parse casing t = .ok v →
        u.origin = v.origin :=
  ⟨display_iff hcase h, fun _ _ _ _ _ hleft ht => same_origin hleft h ht⟩

theorem round_trip_sample :
    parse asciiCasing (Url.display ⟨.http, [], [], "h".toList, none, "/a".toList, none, none⟩) =
      .ok ⟨.http, [], [], "h".toList, none, "/a".toList, none, none⟩ := by
  have hparse : parse asciiCasing "http://h/a".toList =
      .ok ⟨.http, [], [], "h".toList, none, "/a".toList, none, none⟩ := by decide +kernel
  have hhost : (authority (dropSlashes 2 "//h/a".toList)).rtakeWhile (· ≠ '@') = "h".toList := by
    decide +kernel
  refine (round_trip (fun t => lower_lower t) hparse).1.mpr
    ⟨"http".toList, "//h/a".toList, by decide +kernel, rfl, ?_⟩
  rintro ⟨stripped, p, heq, -⟩
  rw [hhost] at heq
  cases heq

/-- A path without an authority, and a default port behind brackets. -/
theorem round_trip_fails :
    (∃ u, parse asciiCasing "data:x".toList = .ok u ∧ parse asciiCasing u.display ≠ .ok u) ∧
    ∃ u, parse asciiCasing "http://[::1]:80/".toList = .ok u ∧
      parse asciiCasing u.display ≠ .ok u := by
  refine ⟨⟨uncut .data "x".toList, by decide +kernel, by decide +kernel⟩,
    ⟨⟨.http, [], [], "[::1]".toList, some 80, "/".toList, none, none⟩, by decide +kernel,
      by decide +kernel⟩⟩

end Conclave.Urls
