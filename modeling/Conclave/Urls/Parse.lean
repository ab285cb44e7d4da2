import Conclave.Ipc.Url
import Conclave.Urls.Percent

/-! URLs with all their components: parsing, printing, and the resolution of references. -/

namespace Conclave.Urls

open Lib Ipc

def asStr : Scheme → Text
  | .http => "http".toList
  | .https => "https".toList
  | .ws => "ws".toList
  | .wss => "wss".toList
  | .file => "file".toList
  | .data => "data".toList
  | .about => "about".toList
  | .blob => "blob".toList
  | .other => []

structure Origin where
  scheme : Scheme
  host : Text
  port : Option ℕ
  deriving DecidableEq, Repr

structure Url where
  scheme : Scheme
  username : Text
  password : Text
  host : Text
  port : Option ℕ
  path : Text
  query : Option Text
  fragment : Option Text
  deriving DecidableEq, Repr

/-- What stands before the first such character, and after it if there is one. -/
def splitOff (s : Text) (ch : Char) : Text × Option Text :=
  (s.takeWhile (· ≠ ch), if ch ∈ s then some (s.dropWhile (· ≠ ch)).tail else none)

def isSlash (c : Char) : Bool := c == '/' || c == '\\'

/-- The user and the password, which the first colon separates. -/
def splitUserinfo (authority : Text) : Text × Text :=
  if '@' ∈ authority then
    let userinfo := (authority.rdropWhile (· ≠ '@')).dropLast
    (userinfo.takeWhile (· ≠ ':'), (userinfo.dropWhile (· ≠ ':')).tail)
  else ([], [])

/-- For special schemes a backslash is a slash. -/
def parsePath (pathRest : Text) : Text :=
  if pathRest = [] then ['/']
  else percentEncodePath (pathRest.map fun c => if c = '\\' then '/' else c)

variable (casing : Casing)

/-- What follows the scheme and its slashes. -/
def parseSpecial (scheme : Scheme) (s : Text) : Except UrlError Url :=
  let (noFrag, fragment) := splitOff s '#'
  let (noQuery, query) := splitOff noFrag '?'
  let authority := noQuery.takeWhile fun c => !isSlash c
  let pathRest := noQuery.dropWhile fun c => !isSlash c
  let (username, password) := splitUserinfo authority
  match parseHostPort casing (authority.rtakeWhile (· ≠ '@')) scheme with
  | .error e => .error e
  | .ok (host, port) =>
    if scheme ≠ .file ∧ host = [] then .error .missingHost
    else .ok ⟨scheme, username, password, host, port, parsePath pathRest,
      query.map percentEncodeQuery, fragment.map percentEncodeFragment⟩

/-- The rest of a URL whose scheme is not special is its path. -/
def uncut (scheme : Scheme) (rest : Text) : Url := ⟨scheme, [], [], [], none, rest, none, none⟩

def parse (input : Text) : Except UrlError Url :=
  if input.trimMatches (· ≤ ' ') = [] then .error .empty
  else match splitScheme (clean input) with
    | none => .error .invalidScheme
    | some (name, rest) =>
      let scheme := Scheme.fromLowercase name
      if scheme.isSpecial then parseSpecial casing scheme (dropSlashes 2 rest)
      else .ok (uncut scheme rest)

namespace Url

def origin (u : Url) : Origin := ⟨u.scheme, u.host, u.port.or u.scheme.defaultPort⟩

def userinfo (u : Url) : Text :=
  if u.username = [] ∧ u.password = [] then []
  else u.username ++ (if u.password = [] then [] else ':' :: u.password) ++ ['@']

def portText (u : Url) : Text :=
  match u.port with
  | none => []
  | some p => if some p = u.scheme.defaultPort then [] else ':' :: decimal p

/-- `Display`. -/
def display (u : Url) : Text :=
  asStr u.scheme ++ "://".toList ++ u.userinfo ++ u.host ++ u.portText ++ u.path ++
    u.query.elim [] ('?' :: ·) ++ u.fragment.elim [] ('#' :: ·)

end Url

/-! ### Dot segments -/

def isDotSegment (seg : Text) : Bool :=
  seg == ".".toList || Text.toAsciiLowercase seg == "%2e".toList

def isDotdotSegment (seg : Text) : Bool :=
  seg == "..".toList || Text.toAsciiLowercase seg == "%2e%2e".toList ||
    Text.toAsciiLowercase seg == ".%2e".toList || Text.toAsciiLowercase seg == "%2e.".toList

/-- The segments that are kept, and whether a slash must follow them. -/
def dotLoop : List Text → List Text → Bool → List Text × Bool
  | [], out, trailingSlash => (out, trailingSlash)
  | seg :: segs, out, trailingSlash =>
    if isDotSegment seg then dotLoop segs out (trailingSlash || segs.isEmpty)
    else if isDotdotSegment seg then dotLoop segs out.dropLast (trailingSlash || segs.isEmpty)
    else dotLoop segs (out ++ [seg]) false

def removeDotSegments (input : Text) : Text :=
  let (out, trailingSlash) := dotLoop (input.splitOn '/') [] false
  let s := ['/'].intercalate out
  -- Preserve leading slash.
  let s := if input.head? = some '/' ∧ s.head? ≠ some '/' then '/' :: s else s
  let needsTrailing := trailingSlash || input.getLast? = some '/'
  let s := if needsTrailing ∧ s.getLast? ≠ some '/' then s ++ ['/'] else s
  if s = [] then ['/'] else s

/-! ### References -/

/-- The base path up to its last slash; a path without one is cut after its first byte,
which panics when there is no such boundary. -/
def throughLastSlash (base : Text) : Option Text :=
  if '/' ∈ base then some (base.rdropWhile (· ≠ '/'))
  else match base with
    | c :: _ => if isAscii c then some [c] else none
    | [] => none

/-- None for a panic. -/
def resolvePath (u : Url) (r : Text) : Option Url := do
  let (pathQ, frag) := splitOff r '#'
  let (rpath, rquery) := splitOff pathQ '?'
  let mergedPath ← if rpath.head? = some '/' then some rpath
    else (throughLastSlash u.path).map (· ++ rpath)
  return { u with
    path := percentEncodePath (removeDotSegments mergedPath)
    query := rquery.map percentEncodeQuery
    fragment := frag.map percentEncodeFragment }

/-- None for a panic. -/
def Url.resolve (u : Url) (reference : Text) : Option (Except UrlError Url) :=
  let r := reference.trim
  if r = [] then some (.ok u)
  else match parse casing r with
    | .ok v => some (.ok v)
    | .error _ =>
      match Text.stripPrefix "//".toList r, r with
      | some rest, _ => some (parse casing (asStr u.scheme ++ "://".toList ++ rest))
      | none, '#' :: frag => some (.ok { u with fragment := some (percentEncodeFragment frag) })
      | none, '?' :: q =>
        let (qMain, frag) := splitOff q '#'
        some (.ok { u with
          query := some (percentEncodeQuery qMain), fragment := frag.map percentEncodeFragment })
      | none, r => (resolvePath u r).map .ok

/-! ### The parser of hosts alone -/

theorem parse_hosts (input : Text) :
    Ipc.Url.parse casing input = (parse casing input).map fun u => ⟨u.scheme, u.host, u.port⟩ := by
  unfold Ipc.Url.parse parse
  split_ifs with hempty
  · rfl
  cases hsplit : splitScheme (clean input) with
  | none => rfl
  | some r =>
    obtain ⟨name, rest⟩ := r
    dsimp only
    cases hspecial : (Scheme.fromLowercase name).isSpecial with
    | false => rfl
    | true =>
      have hauthority : authority (dropSlashes 2 rest) =
          ((splitOff (splitOff (dropSlashes 2 rest) '#').1 '?').1.takeWhile fun c => !isSlash c) :=
        rfl
      rw [if_neg Bool.noConfusion, if_pos rfl, parseSpecial, hauthority]
      dsimp only
      cases parseHostPort casing _ (Scheme.fromLowercase name) with
      | error e => rfl
      | ok hp =>
        obtain ⟨host, port⟩ := hp
        simp only [bind, Except.bind]
        split_ifs <;> rfl

/-! ### Clean text -/

theorem clean_eq_self {s : Text} : clean s = s ↔
    (∀ c ∈ s, isKept c) ∧ (∀ c ∈ s.head?, ' ' < c) ∧ ∀ c ∈ s.getLast?, ' ' < c := by
  constructor
  · intro h
    have hsuffix : (s.dropWhile (· ≤ ' ')) <:+ s := List.dropWhile_suffix _
    have hprefix : s.trimMatches (· ≤ ' ') <+: s.dropWhile (· ≤ ' ') := List.rdropWhile_prefix _ _
    have hlen := congrArg List.length h
    rw [clean] at hlen
    have hfilter := List.length_filter_le isKept (s.trimMatches (· ≤ ' '))
    have hdrop : s.dropWhile (· ≤ ' ') = s :=
      hsuffix.eq_of_length_le (by have := hprefix.length_le; omega)
    have htrim : s.trimMatches (· ≤ ' ') = s := by
      rw [hdrop] at hprefix
      exact hprefix.eq_of_length_le (by omega)
    refine ⟨?_, ?_, ?_⟩
    · rw [clean, htrim] at h
      exact List.filter_eq_self.mp h
    · intro c hc
      obtain ⟨t, rfl⟩ := List.head?_eq_some_iff.mp hc
      have hhead := List.dropWhile_eq_self_iff.mp hdrop (Nat.succ_pos _)
      simpa using hhead
    · intro c hc
      rw [Text.trimMatches, hdrop, List.rdropWhile_eq_self_iff] at htrim
      have hne : s ≠ [] := by
        rintro rfl
        cases hc
      have hlast := htrim hne
      rw [List.getLast?_eq_some_getLast hne] at hc
      cases hc
      simpa using hlast
  · rintro ⟨hkept, hhead, hlast⟩
    have hdrop : s.dropWhile (· ≤ ' ') = s := by
      cases s with
      | nil => rfl
      | cons c s =>
        rw [List.dropWhile_cons_of_neg]
        simpa using hhead c rfl
    have htrim : s.trimMatches (· ≤ ' ') = s := by
      rw [Text.trimMatches, hdrop, List.rdropWhile_eq_self_iff]
      intro hne
      simpa using hlast _ (List.getLast?_eq_some_getLast hne)
    rw [clean, htrim]
    exact List.filter_eq_self.mpr hkept

end Conclave.Urls
