import Conclave.Ipc.Isolation
import Conclave.Urls.Segments

/-! References: what RFC 3986 makes of them in 5.2.2 to 5.2.4, and when the code does so. -/

namespace Conclave.Urls

open Lib Ipc

variable {segs : List Text} {s t : Text} {u v : Url}

/-! ### Segments of encoded paths -/

theorem encode_slash (t : Text) : percentEncodePath ('/' :: t) = '/' :: percentEncodePath t :=
  percentEncodeWith_append (by decide) (by decide) (by decide) [] t

/-- The segments are encoded one by one. -/
theorem encode_rooted (segs : List Text) :
    percentEncodePath (rooted segs) = rooted (segs.map percentEncodePath) := by
  have hjoin : ∀ l : List Text, percentEncodePath (join l) = join (l.map percentEncodePath) := by
    intro l
    induction l with
    | nil => rfl
    | cons x l ih =>
      by_cases hl : l = []
      · subst hl
        simp
      · rw [join_cons x hl, List.map_cons, join_cons _ (by simpa using hl), ← ih]
        exact percentEncodeWith_append (by decide) (by decide) (by decide) x (join l)
  rw [rooted, encode_slash, hjoin]
  rfl

theorem no_slash_map_encode (h : ∀ x ∈ segs, '/' ∉ x) :
    ∀ x ∈ segs.map percentEncodePath, '/' ∉ x := by
  intro x hx hmem
  obtain ⟨y, hy, rfl⟩ := List.mem_map.mp hx
  exact h y hy (mem_of_mem_encode (by decide) (by decide) rfl hmem)

theorem isDots_encode (seg : Text) : isDots (percentEncodePath seg) = isDots seg := by
  have hdot : isDotSegment (percentEncodePath seg) = isDotSegment seg := by
    rw [Bool.eq_iff_iff, isDotSegment_iff, isDotSegment_iff, dots_percentEncodePath]
  have hdotdot : isDotdotSegment (percentEncodePath seg) = isDotdotSegment seg := by
    rw [Bool.eq_iff_iff, isDotdotSegment_iff, isDotdotSegment_iff, dots_percentEncodePath]
  rw [isDots, isDots, hdot, hdotdot]

def NoDots (path : Text) : Prop := ∀ seg ∈ path.splitOn '/', isDots seg = false

instance (path : Text) : Decidable (NoDots path) :=
  inferInstanceAs (Decidable (∀ seg ∈ path.splitOn '/', isDots seg = false))

theorem noDots_rooted (h : ∀ x ∈ segs, '/' ∉ x) (hne : segs ≠ []) :
    NoDots (rooted segs) ↔ ∀ x ∈ segs, isDots x = false := by
  rw [NoDots, splitOn_rooted h hne, List.forall_mem_cons]
  exact and_iff_right rfl

/-! ### What RFC 3986 says -/

structure Reference where
  authority : Option Text
  path : Text
  query : Option Text
  fragment : Option Text
  deriving DecidableEq, Repr

/-- The components of a reference without a scheme. -/
def Reference.split (r : Text) : Reference :=
  let (s, fragment) := splitOff r '#'
  let (s, query) := splitOff s '?'
  match Text.stripPrefix "//".toList s with
  | some s => ⟨some (s.takeWhile (· ≠ '/')), s.dropWhile (· ≠ '/'), query, fragment⟩
  | none => ⟨none, s, query, fragment⟩

/-- 5.2.3, for a base with an authority. -/
def merge (base path : Text) : Text :=
  if base = [] then '/' :: path else base.rdropWhile (· ≠ '/') ++ path

/-- 5.2.4, for escaped dots too. -/
def removeDots : Text → Text
  | '/' :: t => rooted (withoutDots (t.splitOn '/'))
  | t => t

/-- The path before its dots are removed, for a reference that has one. -/
def fullPath (u : Url) (r : Reference) : Text :=
  if r.path.head? = some '/' then r.path else merge u.path r.path

/-- An empty path behind an authority is the root. -/
def targetPath (u : Url) (r : Reference) : Text :=
  if r.authority.isSome then removeDots (if r.path = [] then ['/'] else r.path)
  else if r.path = [] then u.path
  else removeDots (fullPath u r)

def targetQuery (u : Url) (r : Reference) : Option Text :=
  if r.authority = none ∧ r.path = [] ∧ r.query = none then u.query
  else r.query.map percentEncodeQuery

structure Resolved (u v : Url) (r : Reference) : Prop where
  scheme : v.scheme = u.scheme
  authority : r.authority = none →
    v.username = u.username ∧ v.password = u.password ∧ v.host = u.host ∧ v.port = u.port
  path : v.path = percentEncodePath (targetPath u r)
  root : v.path.head? = some '/'
  noDots : NoDots v.path
  query : v.query = targetQuery u r
  fragment : v.fragment = r.fragment.map percentEncodeFragment

def NoScheme (r : Text) : Prop := splitScheme (clean r) = none

instance (r : Text) : Decidable (NoScheme r) :=
  inferInstanceAs (Decidable (splitScheme (clean r) = none))

/-- Resolution does not panic, and for a base of http or https and a reference without a scheme
its result is the right one. Only an authority can make it fail. -/
def ResolvesRight (casing : Casing) (u : Url) (reference : Text) : Prop :=
  ∃ res, u.resolve casing reference = some res ∧
    (u.scheme.isHttp → NoScheme reference.trim →
      ((Reference.split reference.trim).authority = none → ∃ v, res = .ok v) ∧
      ∀ v, res = .ok v → Resolved u v (Reference.split reference.trim))

/-! ### When the code does so -/

/-- A path without a slash that does not start with a character of one byte, and a reference
that is merged with it. -/
def CutsChar (casing : Casing) (u : Url) (r : Text) : Prop :=
  (∃ c ∈ r.head?, c ∉ ['/', '#', '?']) ∧ (∀ w, parse casing r ≠ .ok w) ∧ '/' ∉ u.path ∧
    ∀ c ∈ u.path.head?, isAscii c = false

/-- What the code does not look at has no dot segments, and what it looks at loses no slash.
Behind two slashes that is only asked of what can be parsed. -/
def Keeps (casing : Casing) (u : Url) (r : Text) : Prop :=
  let ref := Reference.split r
  if r = [] then u.fragment = none ∧ NoDots u.path
  else if ref.authority.isSome then
    (∃ v, parse casing (asStr u.scheme ++ ':' :: r) = .ok v) →
      NoDots ref.path ∧ '\\' ∉ ref.authority.getD [] ++ ref.path ∧ clean r = r
  else if ref.path = [] then NoDots u.path
  else ¬ Lost ((fullPath u ref).tail.splitOn '/')

/-! ### Bases -/

theorem not_of_dropWhile_cons {p : Char → Bool} {c : Char} (h : s.dropWhile p = c :: t) :
    p c = false := by
  have hne : s.dropWhile p ≠ [] := by
    rw [h]
    exact List.cons_ne_nil _ _
  have hhead := List.head_dropWhile_not p hne
  simpa [h] using hhead

/-- The path that is parsed starts with a slash, and has no backslash. -/
theorem exists_slash (s : Text) : ∃ t, '\\' ∉ '/' :: t ∧
    parsePath (s.dropWhile fun c => !isSlash c) = percentEncodePath ('/' :: t) := by
  rw [parsePath]
  split_ifs with hnil
  · exact ⟨[], by decide, rfl⟩
  · obtain ⟨d, t, heq⟩ := List.exists_cons_of_ne_nil hnil
    have hd : isSlash d := by simpa using not_of_dropWhile_cons heq
    have hslash : (if d = '\\' then '/' else d) = '/' := by
      split_ifs with hback
      · rfl
      · simpa [isSlash, hback] using hd
    have hmap : (d :: t).map (fun c => if c = '\\' then '/' else c) =
        '/' :: t.map fun c => if c = '\\' then '/' else c := by
      rw [List.map_cons, hslash]
    refine ⟨_, ?_, by rw [heq, hmap]⟩
    rw [← hmap]
    intro hmem
    obtain ⟨e, -, he⟩ := List.mem_map.mp hmem
    split_ifs at he with hback
    · cases he
    · exact hback he

theorem parse_path {casing : Casing} {input : Text} (h : parse casing input = .ok u)
    (hspecial : u.scheme.isSpecial) : ∃ t, u.path = percentEncodePath ('/' :: t) := by
  unfold parse at h
  split_ifs at h
  cases hsplit : splitScheme (clean input) with
  | none =>
    rw [hsplit] at h
    cases h
  | some r =>
    obtain ⟨name, rest⟩ := r
    rw [hsplit] at h
    dsimp only at h
    split_ifs at h with hname
    · unfold parseSpecial at h
      dsimp only at h
      split at h
      · cases h
      · split_ifs at h
        cases h
        obtain ⟨t, -, ht⟩ := exists_slash (splitOff (splitOff (dropSlashes 2 rest) '#').1 '?').1
        exact ⟨t, ht⟩
    · cases h
      exact absurd hspecial hname

/-- The path of a base with an authority. -/
structure Based (u : Url) (segs : List Text) : Prop where
  path : u.path = rooted segs
  encoded : percentEncodePath u.path = u.path
  slash : ∀ x ∈ segs, '/' ∉ x
  ne_nil : segs ≠ []

theorem based {casing : Casing} {input : Text} (h : parse casing input = .ok u)
    (hhttp : u.scheme.isHttp) : ∃ segs, Based u segs := by
  have hspecial : u.scheme.isSpecial := by
    rcases hhttp with hscheme | hscheme <;> rw [hscheme] <;> rfl
  obtain ⟨t, ht⟩ := parse_path h hspecial
  obtain ⟨segs, hne, hslash, heq⟩ := exists_rooted t
  refine ⟨segs.map percentEncodePath, ?_, ?_, no_slash_map_encode hslash, by simpa using hne⟩
  · rw [ht, heq, encode_rooted]
  · rw [ht]
    exact (encoded _).encode_eq

end Conclave.Urls
