import Conclave.Urls.References

/-! The resolution of references, shape by shape, and that it keeps to the standard exactly when
its condition holds. -/

namespace Conclave.Urls

open Lib Ipc

variable {c ch : Char} {s t r : Text} {u v : Url} {segs : List Text} {casing : Casing}

/-! ### Cutting references -/

theorem splitOff_self (ch : Char) (s : Text) : splitOff (ch :: s) ch = ([], some s) := by
  simp [splitOff]

theorem splitOff_cons (h : c ≠ ch) (s : Text) :
    splitOff (c :: s) ch = (c :: (splitOff s ch).1, (splitOff s ch).2) := by
  simp [splitOff, h, h.symm]

theorem stripPrefix_cons_cons (c d : Char) (s : Text) :
    Text.stripPrefix "//".toList (c :: d :: s) = if c = '/' ∧ d = '/' then some s else none := by
  have hprefix : "//".toList <+: (c :: d :: s) ↔ c = '/' ∧ d = '/' := by
    rw [show "//".toList = ['/', '/'] from rfl, List.cons_prefix_cons, List.cons_prefix_cons]
    simp [eq_comm]
  simp only [Text.stripPrefix, hprefix]
  rfl

theorem stripPrefix_short (h : s.length < 2) : Text.stripPrefix "//".toList s = none := by
  rw [Text.stripPrefix, if_neg]
  intro hprefix
  exact absurd hprefix.length_le (Nat.not_le.mpr h)

/-- Cutting a reference keeps that it does not start with two slashes. -/
theorem stripPrefix_cut (h : Text.stripPrefix "//".toList s = none) (ch : Char) :
    Text.stripPrefix "//".toList (splitOff s ch).1 = none := by
  match s with
  | [] => exact h
  | [c] =>
    apply stripPrefix_short
    rw [splitOff]
    exact Nat.lt_of_le_of_lt (List.takeWhile_prefix _).length_le (by simp)
  | c :: d :: s =>
    rw [stripPrefix_cons_cons] at h
    by_cases hc : c = ch
    · subst hc
      rw [splitOff_self]
      rfl
    rw [splitOff_cons hc]
    by_cases hd : d = ch
    · subst hd
      rw [splitOff_self]
      exact stripPrefix_short (Nat.lt_succ_self 1)
    rw [splitOff_cons hd, stripPrefix_cons_cons]
    split_ifs at h ⊢
    rfl

/-! ### The shapes of references -/

theorem split_authority (s : Text) : (Reference.split ('/' :: '/' :: s)).authority.isSome := by
  have hhash : '/' ≠ '#' := by decide
  have hmark : '/' ≠ '?' := by decide
  rw [Reference.split, splitOff_cons hhash, splitOff_cons hhash]
  dsimp only
  rw [splitOff_cons hmark, splitOff_cons hmark, stripPrefix_cons_cons]
  rfl

theorem split_fragment (s : Text) : Reference.split ('#' :: s) = ⟨none, [], none, some s⟩ := by
  rw [Reference.split, splitOff_self]
  rfl

theorem split_query (s : Text) : Reference.split ('?' :: s) =
    ⟨none, [], some (splitOff s '#').1, (splitOff s '#').2⟩ := by
  rw [Reference.split, splitOff_cons (by decide)]
  dsimp only
  rw [splitOff_self]
  rfl

/-- Other references have a path. -/
theorem split_path (h : Text.stripPrefix "//".toList s = none) :
    Reference.split s = ⟨none, (splitOff (splitOff s '#').1 '?').1,
      (splitOff (splitOff s '#').1 '?').2, (splitOff s '#').2⟩ := by
  rw [Reference.split]
  dsimp only
  rw [stripPrefix_cut (stripPrefix_cut h '#') '?']

/-! ### The code's shapes -/

theorem parse_of_noScheme (h : NoScheme r) (w : Url) : parse casing r ≠ .ok w := by
  intro hw
  rw [parse] at hw
  split_ifs at hw
  rw [show splitScheme (clean r) = none from h] at hw
  cases hw

theorem resolve_nil {reference : Text} (h : reference.trim = []) :
    u.resolve casing reference = some (.ok u) := by
  rw [Url.resolve, h]
  exact if_pos rfl

theorem resolve_absolute {reference : Text} (hne : reference.trim ≠ [])
    (h : parse casing reference.trim = .ok v) : u.resolve casing reference = some (.ok v) := by
  rw [Url.resolve]
  dsimp only
  rw [if_neg hne, h]

/-- What is left when a reference is neither empty nor a URL of its own. -/
theorem resolve_relative {reference : Text} (hne : reference.trim ≠ [])
    (h : ∀ w, parse casing reference.trim ≠ .ok w) : u.resolve casing reference =
      match Text.stripPrefix "//".toList reference.trim, reference.trim with
      | some rest, _ => some (parse casing (asStr u.scheme ++ "://".toList ++ rest))
      | none, '#' :: frag => some (.ok { u with fragment := some (percentEncodeFragment frag) })
      | none, '?' :: q => some (.ok { u with
          query := some (percentEncodeQuery (splitOff q '#').1)
          fragment := (splitOff q '#').2.map percentEncodeFragment })
      | none, r => (resolvePath u r).map .ok := by
  rw [Url.resolve]
  dsimp only
  rw [if_neg hne]
  cases hparse : parse casing reference.trim with
  | ok w => exact absurd hparse (h w)
  | error e => rfl

/-- A path that is not cut between two characters. -/
theorem throughLastSlash_eq_none :
    throughLastSlash s = none ↔ '/' ∉ s ∧ ∀ c ∈ s.head?, isAscii c = false := by
  rw [throughLastSlash.eq_def]
  by_cases hslash : '/' ∈ s
  · simp [hslash]
  · cases s with
    | nil => simp
    | cons c s =>
      rw [if_neg hslash]
      dsimp only
      cases hc : isAscii c <;> simp [hc, hslash]

theorem resolvePath_eq_none : resolvePath u r = none ↔
    (splitOff (splitOff r '#').1 '?').1.head? ≠ some '/' ∧ throughLastSlash u.path = none := by
  rw [resolvePath]
  dsimp only
  split_ifs with hhead
  · simp [hhead]
  · cases throughLastSlash u.path <;> simp [hhead]

/-- Resolution panics at a character it cuts in two, and nowhere else. -/
theorem resolve_eq_none {reference : Text} :
    u.resolve casing reference = none ↔ CutsChar casing u reference.trim := by
  by_cases hne : reference.trim = []
  · rw [resolve_nil hne, hne]
    simp [CutsChar]
  by_cases hparse : ∃ w, parse casing reference.trim = .ok w
  · obtain ⟨w, hw⟩ := hparse
    rw [resolve_absolute hne hw, CutsChar]
    constructor
    · intro h
      cases h
    · rintro ⟨-, hnone, -⟩
      exact absurd hw (hnone w)
  rw [not_exists] at hparse
  rw [resolve_relative hne hparse, CutsChar]
  generalize reference.trim = r at *
  obtain ⟨c, s, rfl⟩ := List.exists_cons_of_ne_nil hne
  cases hstrip : Text.stripPrefix "//".toList (c :: s) with
  | some rest =>
    have hc : c = '/' := by
      by_contra hc
      rw [Text.stripPrefix, if_neg] at hstrip
      · cases hstrip
      · rw [show "//".toList = ['/', '/'] from rfl, List.cons_prefix_cons]
        exact fun h => hc h.1.symm
    simp [hc]
  | none =>
    split
    · next heq => cases heq
    · next heq => cases heq; simp
    · next heq => cases heq; simp
    · next hhash hmark =>
      have hhash : c ≠ '#' := fun h => hhash s (by rw [h])
      have hmark : c ≠ '?' := fun h => hmark s (by rw [h])
      rw [Option.map_eq_none_iff, resolvePath_eq_none, splitOff_cons hhash,
        splitOff_cons hmark, throughLastSlash_eq_none]
      simp [hparse, hhash, hmark]

/-! ### References without a path -/

theorem rooted_splitOn (t : Text) : rooted (t.splitOn '/') = '/' :: t := by
  rw [rooted, join, List.intercalate_splitOn]

theorem noDots_slash (t : Text) :
    NoDots ('/' :: t) ↔ ∀ x ∈ t.splitOn '/', isDots x = false := by
  rw [← rooted_splitOn, noDots_rooted (not_mem_of_mem_splitOn '/' t) (List.splitOn_ne_nil _ _)]

theorem noDots_encode (t : Text) :
    NoDots (percentEncodePath ('/' :: t)) ↔ NoDots ('/' :: t) := by
  obtain ⟨segs, hne, hslash, heq⟩ := exists_rooted t
  rw [heq, encode_rooted, noDots_rooted (no_slash_map_encode hslash) (by simpa using hne),
    noDots_rooted hslash hne, List.forall_mem_map]
  simp only [isDots_encode]

theorem Based.head (h : Based u segs) : u.path.head? = some '/' := by
  rw [h.path]
  rfl

/-- The path is that of the base, which nothing looks at. -/
theorem resolved_without_path {ref : Reference} (h : Based u segs) (hauthority : ref.authority = none)
    (hpath : ref.path = []) (hquery : v.query = targetQuery u ref)
    (hfragment : v.fragment = ref.fragment.map percentEncodeFragment)
    (hrest : v.scheme = u.scheme ∧ v.username = u.username ∧ v.password = u.password ∧
      v.host = u.host ∧ v.port = u.port ∧ v.path = u.path) :
    Resolved u v ref ↔ NoDots u.path := by
  obtain ⟨hscheme, huser, hpassword, hhost, hport, hsame⟩ := hrest
  constructor
  · intro hright
    rw [← hsame]
    exact hright.noDots
  · intro hdots
    have htarget : targetPath u ref = u.path := by
      rw [targetPath, hauthority, hpath]
      rfl
    exact ⟨hscheme, fun _ => ⟨huser, hpassword, hhost, hport⟩,
      by rw [hsame, htarget, h.encoded], by rw [hsame, h.head], by rwa [hsame], hquery, hfragment⟩

theorem resolved_empty (h : Based u segs) :
    Resolved u u (Reference.split []) ↔ u.fragment = none ∧ NoDots u.path := by
  constructor
  · intro hright
    exact ⟨hright.fragment, hright.noDots⟩
  · rintro ⟨hfragment, hdots⟩
    exact (resolved_without_path h rfl rfl rfl hfragment ⟨rfl, rfl, rfl, rfl, rfl, rfl⟩).mpr hdots

/-! ### References with a path -/

theorem Based.mem_slash (h : Based u segs) : '/' ∈ u.path := by
  rw [h.path]
  exact List.mem_cons_self ..

/-- The merged path starts with a slash. -/
theorem Based.fullPath (h : Based u segs) (ref : Reference) :
    ∃ t, fullPath u ref = '/' :: t := by
  rw [Urls.fullPath]
  split_ifs with hhead
  · exact List.head?_eq_some_iff.mp hhead
  · have hne : u.path ≠ [] := List.ne_nil_of_mem h.mem_slash
    have hkeep : u.path.rdropWhile (· ≠ '/') ≠ [] := by
      rw [ne_eq, List.rdropWhile_eq_nil_iff]
      intro hall
      exact absurd (hall '/' h.mem_slash) (by decide)
    obtain ⟨d, t, heq⟩ := List.exists_cons_of_ne_nil hkeep
    have hhead := h.head
    obtain ⟨rest, hrest⟩ := List.rdropWhile_prefix (· ≠ '/') u.path
    rw [← hrest, heq] at hhead
    cases hhead
    rw [merge, if_neg hne, heq]
    exact ⟨_, rfl⟩

theorem resolvePath_eq (h : Based u segs) (hstrip : Text.stripPrefix "//".toList r = none) :
    resolvePath u r = some { u with
      path := percentEncodePath (removeDotSegments (fullPath u (Reference.split r)))
      query := (Reference.split r).query.map percentEncodeQuery
      fragment := (Reference.split r).fragment.map percentEncodeFragment } := by
  have hmerge : throughLastSlash u.path = some (u.path.rdropWhile (· ≠ '/')) := by
    rw [throughLastSlash.eq_def, if_pos h.mem_slash]
  have hne : u.path ≠ [] := List.ne_nil_of_mem h.mem_slash
  rw [split_path hstrip, resolvePath, fullPath]
  dsimp only
  split_ifs
  · rfl
  · rw [hmerge, merge, if_neg hne]
    rfl

/-- What comes out is right unless a slash is lost. -/
theorem resolved_with_path {ref : Reference} (h : Based u segs) (hauthority : ref.authority = none)
    (hpath : ref.path ≠ []) :
    Resolved u { u with
      path := percentEncodePath (removeDotSegments (fullPath u ref))
      query := ref.query.map percentEncodeQuery
      fragment := ref.fragment.map percentEncodeFragment } ref ↔
    ¬ Lost ((fullPath u ref).tail.splitOn '/') := by
  obtain ⟨t, ht⟩ := h.fullPath ref
  have hslash : ∀ x ∈ t.splitOn '/', '/' ∉ x := not_mem_of_mem_splitOn '/' t
  have hne : t.splitOn '/' ≠ [] := List.splitOn_ne_nil _ _
  have htarget : targetPath u ref = rooted (withoutDots (t.splitOn '/')) := by
    rw [targetPath, hauthority, if_neg Bool.noConfusion, if_neg hpath, ht]
    rfl
  have hwithout := no_slash_withoutDots hslash
  rw [ht, List.tail_cons, ← rooted_splitOn]
  constructor
  · intro hright hlost
    obtain ⟨l, hl, hlne, heq, hlen⟩ := removeDotSegments_lost hslash hne hlost
    have hsame := hright.path
    -- the slashes of the two paths can be counted
    dsimp only at hsame
    rw [heq, htarget, encode_rooted, encode_rooted] at hsame
    have hsegs := congrArg (List.splitOn '/') hsame
    rw [splitOn_rooted (no_slash_map_encode hl) (by simpa using hlne),
      splitOn_rooted (no_slash_map_encode hwithout) (by simpa using withoutDots_ne_nil hne)] at hsegs
    have hlength := congrArg List.length hsegs
    simp only [List.length_cons, List.length_map] at hlength
    omega
  · intro hlost
    have hkept := removeDotSegments_kept hslash hne hlost
    refine ⟨rfl, fun _ => ⟨rfl, rfl, rfl, rfl⟩, ?_, ?_, ?_, ?_, rfl⟩
    · dsimp only
      rw [hkept, htarget]
    · dsimp only
      rw [hkept, rooted, encode_slash]
      rfl
    · dsimp only
      rw [hkept, rooted, noDots_encode]
      exact (noDots_rooted hwithout (withoutDots_ne_nil hne)).mpr
        fun x hx => not_isDots_of_mem_withoutDots x hx
    · rw [targetQuery, if_neg]
      rintro ⟨-, hnil, -⟩
      exact hpath hnil

/-! ### References with an authority -/

theorem splitScheme_asStr {scheme : Scheme} (h : scheme.isHttp) (r : Text) :
    splitScheme (asStr scheme ++ ':' :: r) = some (asStr scheme, r) := by
  rcases h with rfl | rfl <;> rfl

theorem fromLowercase_asStr {scheme : Scheme} (h : scheme.isHttp) :
    Scheme.fromLowercase (asStr scheme) = scheme := by
  rcases h with rfl | rfl <;> rfl

/-- Text that is clean stays so behind a scheme. -/
theorem clean_scheme {scheme : Scheme} (h : scheme.isHttp) (hne : r ≠ []) (hclean : clean r = r) :
    clean (asStr scheme ++ ':' :: r) = asStr scheme ++ ':' :: r := by
  obtain ⟨hkept, -, hlast⟩ := clean_eq_self.mp hclean
  rw [clean_eq_self]
  refine ⟨?_, ?_, ?_⟩
  · intro c hc
    rcases List.mem_append.mp hc with hc | hc
    · have hall : ∀ c ∈ asStr scheme, isKept c := by
        rcases h with rfl | rfl <;> exact List.all_eq_true.mp (by decide)
      exact hall c hc
    · rcases List.mem_cons.mp hc with rfl | hc
      · rfl
      · exact hkept c hc
  · rcases h with rfl | rfl <;> simp [asStr]
  · intro c hc
    apply hlast c
    rw [List.getLast?_append_of_ne_nil _ (List.cons_ne_nil _ _), List.getLast?_cons] at hc
    rw [List.getLast?_eq_some_getLast hne] at hc ⊢
    exact hc

theorem dropWhile_slash {s : Text} (h : '\\' ∉ s) :
    (s.takeWhile fun c => !isSlash c) = s.takeWhile (· ≠ '/') ∧
      (s.dropWhile fun c => !isSlash c) = s.dropWhile (· ≠ '/') := by
  induction s with
  | nil => exact ⟨rfl, rfl⟩
  | cons c s ih =>
    rw [List.mem_cons, not_or] at h
    obtain ⟨htake, hdrop⟩ := ih h.2
    have hback : (c == '\\') = false := beq_eq_false_iff_ne.mpr (Ne.symm h.1)
    by_cases hc : c = '/'
    · subst hc
      exact ⟨rfl, rfl⟩
    · have hslash : isSlash c = false := by
        rw [isSlash, hback, beq_eq_false_iff_ne.mpr hc]
        rfl
      simp only [List.takeWhile_cons, List.dropWhile_cons, hslash, hc, Bool.not_false, decide_true,
        ne_eq, not_false_eq_true, if_true, htake, hdrop, and_self]

/-- The parser's components, behind the slashes. -/
theorem parseSpecial_ok {scheme : Scheme} (h : parseSpecial casing scheme s = .ok v) :
    v.scheme = scheme ∧
      v.path = parsePath ((splitOff (splitOff s '#').1 '?').1.dropWhile fun c => !isSlash c) ∧
      v.query = (splitOff (splitOff s '#').1 '?').2.map percentEncodeQuery ∧
      v.fragment = (splitOff s '#').2.map percentEncodeFragment := by
  rw [parseSpecial] at h
  dsimp only at h
  split at h
  · cases h
  · split_ifs at h
    cases h
    exact ⟨rfl, rfl, rfl, rfl⟩

theorem parse_synthetic {scheme : Scheme} (h : scheme.isHttp)
    (hclean : clean ('/' :: '/' :: s) = '/' :: '/' :: s)
    (hparse : parse casing (asStr scheme ++ "://".toList ++ s) = .ok v) :
    parseSpecial casing scheme s = .ok v := by
  have hwhole := clean_scheme h (List.cons_ne_nil _ _) hclean
  rw [List.append_assoc, show "://".toList ++ s = ':' :: '/' :: '/' :: s from rfl, parse] at hparse
  split_ifs at hparse
  rw [hwhole, splitScheme_asStr h] at hparse
  dsimp only at hparse
  rw [fromLowercase_asStr h, if_pos (isSpecial_of_isHttp h)] at hparse
  exact hparse

theorem split_double (s : Text) : Reference.split ('/' :: '/' :: s) =
    let noQuery := (splitOff (splitOff s '#').1 '?').1
    ⟨some (noQuery.takeWhile (· ≠ '/')), noQuery.dropWhile (· ≠ '/'),
      (splitOff (splitOff s '#').1 '?').2, (splitOff s '#').2⟩ := by
  have hhash : '/' ≠ '#' := by decide
  have hmark : '/' ≠ '?' := by decide
  rw [Reference.split, splitOff_cons hhash, splitOff_cons hhash]
  dsimp only
  rw [splitOff_cons hmark, splitOff_cons hmark, stripPrefix_cons_cons]
  rfl

/-- Behind two slashes nothing is removed, so nothing may have to be. -/
theorem resolved_with_authority (h : u.scheme.isHttp)
    (hdots : NoDots (Reference.split ('/' :: '/' :: s)).path)
    (hback : '\\' ∉ (Reference.split ('/' :: '/' :: s)).authority.getD [] ++
      (Reference.split ('/' :: '/' :: s)).path)
    (hclean : clean ('/' :: '/' :: s) = '/' :: '/' :: s)
    (hparse : parse casing (asStr u.scheme ++ "://".toList ++ s) = .ok v) :
    Resolved u v (Reference.split ('/' :: '/' :: s)) := by
  obtain ⟨hscheme, hpath, hquery, hfragment⟩ := parseSpecial_ok (parse_synthetic h hclean hparse)
  rw [split_double] at hdots hback ⊢
  dsimp only at hdots hback ⊢
  generalize (splitOff (splitOff s '#').1 '?').1 = noQuery at hdots hback hpath ⊢
  rw [Option.getD_some, List.takeWhile_append_dropWhile] at hback
  have hback' : '\\' ∉ noQuery.dropWhile (· ≠ '/') :=
    fun hmem => hback ((List.dropWhile_suffix _).mem hmem)
  rw [(dropWhile_slash hback).2] at hpath
  -- what the path of the reference stands for
  have htarget : ∃ t, NoDots ('/' :: t) ∧ v.path = percentEncodePath ('/' :: t) ∧
      (if noQuery.dropWhile (· ≠ '/') = [] then ['/'] else noQuery.dropWhile (· ≠ '/')) =
        '/' :: t := by
    rw [parsePath] at hpath
    split_ifs at hpath ⊢ with hnil
    · exact ⟨[], by decide, hpath, rfl⟩
    · obtain ⟨d, t, heq⟩ := List.exists_cons_of_ne_nil hnil
      obtain rfl : d = '/' := by simpa using not_of_dropWhile_cons heq
      refine ⟨t, heq ▸ hdots, ?_, heq⟩
      rw [hpath, ← heq]
      congr 1
      calc (noQuery.dropWhile (· ≠ '/')).map (fun c => if c = '\\' then '/' else c)
          = (noQuery.dropWhile (· ≠ '/')).map id :=
            List.map_congr_left fun c hc => if_neg fun (h : c = '\\') => hback' (h ▸ hc)
        _ = noQuery.dropWhile (· ≠ '/') := List.map_id _
  obtain ⟨t, hnodots, hencoded, hsame⟩ := htarget
  refine ⟨hscheme, fun hnone => absurd hnone (Option.some_ne_none _), ?_, ?_, ?_, ?_, hfragment⟩
  · rw [hencoded, targetPath]
    dsimp only
    rw [Option.isSome_some, if_pos rfl, hsame, removeDots,
      withoutDots_of_no_dots ((noDots_slash t).mp hnodots), rooted_splitOn]
  · rw [hencoded, encode_slash]
    rfl
  · rw [hencoded, noDots_encode]
    exact hnodots
  · rw [hquery, targetQuery, if_neg]
    rintro ⟨hnone, -, -⟩
    cases hnone

/-! ### Resolution as a whole -/

/-- What the base and the reference must be for resolution to be right. -/
def Resolvable (casing : Casing) (u : Url) (r : Text) : Prop :=
  ¬ CutsChar casing u r ∧ (u.scheme.isHttp → NoScheme r → Keeps casing u r)

theorem exists_of_stripPrefix (h : Text.stripPrefix "//".toList r = some s) :
    r = '/' :: '/' :: s := by
  match r with
  | [] => cases h
  | [c] =>
    rw [stripPrefix_short (show [c].length < 2 from Nat.lt_succ_self 1)] at h
    cases h
  | c :: d :: t =>
    rw [stripPrefix_cons_cons] at h
    split_ifs at h with hslashes
    obtain ⟨rfl, rfl⟩ := hslashes
    cases h
    rfl

/-- For a base of http or https and a reference that is neither a URL nor has an authority, the
result is there, and it is right when the base and the reference keep what they must. -/
theorem resolve_inner {reference : Text} (hb : Based u segs) (hscheme : NoScheme reference.trim)
    (hstrip : Text.stripPrefix "//".toList reference.trim = none) :
    (Reference.split reference.trim).authority = none ∧
      ∃ v, u.resolve casing reference = some (.ok v) ∧
        (Resolved u v (Reference.split reference.trim) ↔ Keeps casing u reference.trim) := by
  have hauthority : (Reference.split reference.trim).authority = none := by
    rw [split_path hstrip]
  refine ⟨hauthority, ?_⟩
  rw [Keeps, hauthority, Option.isSome_none]
  by_cases hne : reference.trim = []
  · refine ⟨u, resolve_nil hne, ?_⟩
    rw [if_pos hne, hne]
    exact resolved_empty hb
  rw [resolve_relative hne fun w => parse_of_noScheme hscheme w, if_neg hne,
    if_neg Bool.noConfusion]
  generalize reference.trim = r at *
  obtain ⟨c, t, rfl⟩ := List.exists_cons_of_ne_nil hne
  rw [hstrip]
  by_cases hhash : c = '#'
  · subst hhash
    refine ⟨_, rfl, ?_⟩
    rw [split_fragment, if_pos rfl]
    exact resolved_without_path hb rfl rfl rfl rfl ⟨rfl, rfl, rfl, rfl, rfl, rfl⟩
  by_cases hmark : c = '?'
  · subst hmark
    refine ⟨_, rfl, ?_⟩
    rw [split_query, if_pos rfl]
    refine resolved_without_path hb rfl rfl ?_ rfl ⟨rfl, rfl, rfl, rfl, rfl, rfl⟩
    rw [targetQuery, if_neg]
    · rfl
    · rintro ⟨-, -, hnone⟩
      cases hnone
  · have hpath : (Reference.split (c :: t)).path ≠ [] := by
      rw [split_path hstrip, splitOff_cons hhash]
      dsimp only
      rw [splitOff_cons hmark]
      exact List.cons_ne_nil _ _
    refine ⟨_, ?_, (resolved_with_path hb hauthority hpath).trans (by rw [if_neg hpath])⟩
    split
    · next heq => cases heq
    · next heq => exact absurd (List.cons.inj heq).1 hhash
    · next heq => exact absurd (List.cons.inj heq).1 hmark
    · rw [resolvePath_eq hb hstrip]
      rfl

/-- Resolution against what parsed is total and right when its condition holds, and only then
unless the reference has an authority. -/
theorem resolve_right {input : Text} (h : parse casing input = .ok u) (reference : Text) :
    (Resolvable casing u reference.trim → ResolvesRight casing u reference) ∧
      (Text.stripPrefix "//".toList reference.trim = none →
        ResolvesRight casing u reference → Resolvable casing u reference.trim) := by
  constructor
  · rintro ⟨hcuts, hkeeps⟩
    have hsome : u.resolve casing reference ≠ none := fun hnone => hcuts (resolve_eq_none.mp hnone)
    obtain ⟨res, hres⟩ := Option.ne_none_iff_exists'.mp hsome
    refine ⟨res, hres, fun hhttp hscheme => ?_⟩
    obtain ⟨segs, hb⟩ := based h hhttp
    have hkeep := hkeeps hhttp hscheme
    cases hstrip : Text.stripPrefix "//".toList reference.trim with
    | none =>
      obtain ⟨-, v, hv, hright⟩ := resolve_inner hb hscheme hstrip
      rw [hres] at hv
      cases hv
      refine ⟨fun _ => ⟨v, rfl⟩, fun w hw => ?_⟩
      cases hw
      exact hright.mpr hkeep
    | some s =>
      have hr := exists_of_stripPrefix hstrip
      have hne : reference.trim ≠ [] := by
        rw [hr]
        exact List.cons_ne_nil _ _
      rw [resolve_relative hne fun w => parse_of_noScheme hscheme w, hstrip] at hres
      cases hres
      have hauthority := split_authority s
      refine ⟨fun hnone => ?_, fun v hv => ?_⟩
      · rw [hr] at hnone
        rw [hnone] at hauthority
        cases hauthority
      · rw [hr] at hkeep ⊢
        rw [Keeps, if_neg (List.cons_ne_nil _ _), if_pos hauthority] at hkeep
        obtain ⟨hdots, hback, hclean⟩ := hkeep ⟨v, by
          rw [← hv, List.append_assoc]
          rfl⟩
        exact resolved_with_authority hhttp hdots hback hclean hv
  · intro hstrip hright
    obtain ⟨res, hres, hresolved⟩ := hright
    constructor
    · intro hcuts
      rw [resolve_eq_none.mpr hcuts] at hres
      cases hres
    · intro hhttp hscheme
      obtain ⟨segs, hb⟩ := based h hhttp
      obtain ⟨-, v, hv, hiff⟩ := resolve_inner hb hscheme hstrip
      rw [hres] at hv
      cases hv
      exact hiff.mp ((hresolved hhttp hscheme).2 v rfl)

theorem resolve_right_sample : ResolvesRight asciiCasing
    ⟨.http, [], [], "h".toList, none, "/a/b".toList, none, none⟩ "../c?q".toList := by
  refine (@resolve_right _ _ "http://h/a/b".toList (by decide +kernel) "../c?q".toList).1
    ⟨?_, fun _ _ => ?_⟩
  · rintro ⟨-, -, hslash, -⟩
    exact absurd hslash (by decide)
  · have htrim : Text.trim "../c?q".toList = "../c?q".toList := by decide +kernel
    have hsplit : Reference.split "../c?q".toList =
        ⟨none, "../c".toList, some "q".toList, none⟩ := by decide +kernel
    have hsegs : (fullPath ⟨.http, [], [], "h".toList, none, "/a/b".toList, none, none⟩
        ⟨none, "../c".toList, some "q".toList, none⟩).tail.splitOn '/' =
          ["a".toList, "..".toList, "c".toList] := by decide +kernel
    have hne : "../c?q".toList ≠ [] := List.cons_ne_nil _ _
    have hpath : "../c".toList ≠ [] := List.cons_ne_nil _ _
    rw [htrim, Keeps, if_neg hne, hsplit, if_neg Bool.noConfusion, if_neg hpath, hsegs]
    rintro (⟨hclimbs, -⟩ | ⟨hend, -⟩)
    · exact absurd hclimbs (by decide +kernel)
    · exact absurd hend (by decide +kernel)

/-- A base without a path is cut behind its end, and the root is lost to an empty segment. -/
theorem resolve_wrong :
    (∃ u, parse asciiCasing "about:".toList = .ok u ∧ ¬ ResolvesRight asciiCasing u "x".toList) ∧
    ∃ u, parse asciiCasing "http://h/a".toList = .ok u ∧
      ¬ ResolvesRight asciiCasing u "/..//x".toList := by
  refine ⟨⟨uncut .about [], by decide +kernel, ?_⟩,
    ⟨⟨.http, [], [], "h".toList, none, "/a".toList, none, none⟩, by decide +kernel, ?_⟩⟩
  · rintro ⟨res, hres, -⟩
    have hnone : (uncut .about []).resolve asciiCasing "x".toList = none := by decide +kernel
    rw [hnone] at hres
    cases hres
  · rintro ⟨res, hres, hright⟩
    have hsome : (⟨.http, [], [], "h".toList, none, "/a".toList, none, none⟩ : Url).resolve
        asciiCasing "/..//x".toList =
          some (.ok ⟨.http, [], [], "h".toList, none, "/x".toList, none, none⟩) := by
      decide +kernel
    rw [hsome] at hres
    cases hres
    have hpath := ((hright (.inl rfl) (by decide +kernel)).2 _ rfl).path
    exact absurd hpath (by decide +kernel)

end Conclave.Urls
