import Conclave.Lib.Codec
import Conclave.Lib.Text

/-! Content Security Policy, level 3: the directives of a policy, the grammar of source
expressions, and when an expression matches a URL for a page. Expressions are told apart
by what they are written as, so that anything outside the grammar matches nothing. -/

namespace Conclave.Lib.Csp3

open Text

/-- A URL, or where a page comes from. Parsers give the scheme in lower case and hosts
without slashes. -/
structure Resource where
  scheme : Text
  host : Text
  port : Option ℕ
  path : Text
  schemeLower : toAsciiLowercase scheme = scheme
  noSlash : '/' ∉ host

def defaultPort (scheme : Text) : Option ℕ :=
  if scheme = "http".toList ∨ scheme = "ws".toList then some 80
  else if scheme = "https".toList ∨ scheme = "wss".toList then some 443
  else none

/-! ### Directives -/

def isAsciiWhitespace (c : Char) : Bool := c.toNat ∈ [0x9, 0xa, 0xc, 0xd, 0x20]

def words (space : Char → Bool) (t : Text) : List Text := (t.splitOnP space).filter (· ≠ [])

/-- Names and source lists, in the order they stand in. -/
def directives (policy : Text) : List (Text × List Text) :=
  (policy.splitOn ';').filterMap fun token =>
    if token.all fun c => c.toNat < 128 then
      match words isAsciiWhitespace token with
      | [] => none
      | name :: sources => some (toAsciiLowercase name, sources)
    else none

/-- The first directive of a name counts. -/
def lookup (policy name : Text) : Option (List Text) :=
  ((directives policy).find? fun d => d.1 = name).map Prod.snd

/-- The source list of the first name in a chain that the policy has. -/
def governing (policy : Text) (chain : List Text) : Option (List Text) :=
  chain.findSome? (lookup policy)

/-! ### The grammar of sources -/

def isSchemeChar (c : Char) : Bool := c.isAlphanum || c ∈ ['+', '-', '.']

def IsScheme (s : Text) : Prop :=
  (∃ c t, s = c :: t ∧ c.isAlpha = true) ∧ ∀ c ∈ s, isSchemeChar c = true

def isHostChar (c : Char) : Bool := c.isAlphanum || c = '-'

/-- Labels between dots, and one more dot perhaps. -/
def IsName (h : Text) : Prop :=
  ∃ labels : List Text, labels ≠ [] ∧
    (∀ label ∈ labels, label ≠ [] ∧ ∀ c ∈ label, isHostChar c = true) ∧
    (h = ['.'].intercalate labels ∨ h = ['.'].intercalate labels ++ ['.'])

def IsHostPart (h : Text) : Prop :=
  h = ['*'] ∨ IsName h ∨ ∃ t, h = '*' :: '.' :: t ∧ IsName t

def IsPort (p : Text) : Prop := p = ['*'] ∨ p ≠ [] ∧ ∀ c ∈ p, c.isDigit = true

def isHexDigit (c : Char) : Bool :=
  c.isDigit || ('a' ≤ c && c ≤ 'f') || ('A' ≤ c && c ≤ 'F')

/-- A character of a path other than a percent sign. -/
def isPathChar (c : Char) : Bool :=
  c.isAlphanum || c ∈ ['-', '.', '_', '~', '!', '$', '&', '\'', '(', ')', '*', '+', '=', ':', '@', '/']

def isPathText : Text → Bool
  | [] => true
  | '%' :: a :: b :: t => isHexDigit a && isHexDigit b && isPathText t
  | c :: t => isPathChar c && isPathText t

def IsPath (p : Text) : Prop :=
  p = [] ∨ ∃ t, p = '/' :: t ∧ t.head? ≠ some '/' ∧ isPathText t = true

/-- `[scheme "://"] host [":" port] [path]`. -/
structure HostSource where
  scheme : Option Text
  host : Text
  port : Option Text
  path : Text
  isScheme : ∀ s ∈ scheme, IsScheme s
  isHost : IsHostPart host
  isPort : ∀ p ∈ port, IsPort p
  isPath : IsPath path

def HostSource.text (h : HostSource) : Text :=
  (h.scheme.elim [] fun s => s ++ "://".toList) ++ (h.host ++ ((h.port.elim [] (':' :: ·)) ++ h.path))

/-! ### Matching -/

def schemePart (a b : Text) : Prop :=
  let a := toAsciiLowercase a
  let b := toAsciiLowercase b
  a = b ∨ (a = "http".toList ∧ b = "https".toList) ∨
    (a = "ws".toList ∧ (b = "wss".toList ∨ b = "http".toList ∨ b = "https".toList)) ∨
    (a = "wss".toList ∧ b = "https".toList)

/-- The last label of an address is a number. -/
def endsInNumber (host : Text) : Bool :=
  let labels := host.splitOn '.'
  let labels := if labels.getLast? = some [] then labels.dropLast else labels
  labels.getLast?.any fun label => label ≠ [] && label.all Char.isDigit

def IsDomain (host : Text) : Prop :=
  host ≠ [] ∧ host.head? ≠ some '[' ∧ endsInNumber host = false

def hostPart (pattern host : Text) : Prop :=
  IsDomain host ∧
    (pattern = ['*'] ∨
      (∃ t, pattern = '*' :: '.' :: t ∧ toAsciiLowercase ('.' :: t) <:+ toAsciiLowercase host) ∨
      ((∀ t, pattern ≠ '*' :: '.' :: t) ∧ toAsciiLowercase pattern = toAsciiLowercase host))

def decimal (p : Text) : ℕ := p.foldl (fun n c => 10 * n + (c.toNat - '0'.toNat)) 0

def portPart (port : Option Text) (r : Resource) : Prop :=
  match port with
  | none => r.port = none ∨ r.port = defaultPort r.scheme
  | some p =>
    p = ['*'] ∨ r.port = some (decimal p) ∨ (r.port = none ∧ defaultPort r.scheme = some (decimal p))

def hexValue (c : Char) : ℕ :=
  if c.isDigit then c.toNat - '0'.toNat
  else if 'a' ≤ c then c.toNat - 'a'.toNat + 10 else c.toNat - 'A'.toNat + 10

def percentDecode : Text → Bytes
  | [] => []
  | '%' :: a :: b :: t =>
    if isHexDigit a && isHexDigit b then
      UInt8.ofNat (16 * hexValue a + hexValue b) :: percentDecode t
    else utf8 "%" ++ percentDecode (a :: b :: t)
  | c :: t => utf8 (String.ofList [c]) ++ percentDecode t

/-- A path that ends in a slash matches all that is below it. -/
def pathPart (a b : Text) : Prop :=
  a = [] ∨ (a = ['/'] ∧ b = []) ∨
    (let as := a.splitOn '/'
     let bs := b.splitOn '/'
     if a.getLast? = some '/' then
       as.length ≤ bs.length ∧ as.dropLast.map percentDecode <+: bs.map percentDecode
     else as.map percentDecode = bs.map percentDecode)

def HostSource.Matches (h : HostSource) (page r : Resource) : Prop :=
  schemePart (h.scheme.getD page.scheme) r.scheme ∧ hostPart h.host r.host ∧
    portPart h.port r ∧ pathPart h.path r.path

def isNetwork (scheme : Text) : Prop := defaultPort scheme ≠ none

def SameOrigin (page r : Resource) : Prop :=
  isNetwork page.scheme ∧ page.scheme = r.scheme ∧ page.host ≠ [] ∧
    toAsciiLowercase page.host = toAsciiLowercase r.host ∧
    page.port.or (defaultPort page.scheme) = r.port.or (defaultPort r.scheme)

/-- The same host, asked over a safer scheme. -/
def Upgraded (page r : Resource) : Prop :=
  page.host ≠ [] ∧ toAsciiLowercase page.host = toAsciiLowercase r.host ∧
    (page.port = r.port ∨
      (page.port.or (defaultPort page.scheme) = defaultPort page.scheme ∧
        r.port.or (defaultPort r.scheme) = defaultPort r.scheme)) ∧
    (r.scheme = "https".toList ∨ r.scheme = "wss".toList ∨
      (page.scheme = "http".toList ∧ r.scheme = "ws".toList))

/-- The keyword for the page's own origin. -/
def SelfMatches (page r : Resource) : Prop := SameOrigin page r ∨ Upgraded page r

def IsSchemeSource (e : Text) : Prop := ∃ s, IsScheme s ∧ e = s ++ [':']

def IsHostSource (e : Text) : Prop := ∃ h : HostSource, e = h.text

def IsSelf (e : Text) : Prop := toAsciiLowercase e = "'self'".toList

/-- `'none'`, the other keywords, nonces and hashes match no URL. -/
def Matches (e : Text) (page r : Resource) : Prop :=
  (e = ['*'] ∧ (r.scheme = "http".toList ∨ r.scheme = "https".toList ∨ r.scheme = page.scheme)) ∨
    (∃ s, IsScheme s ∧ e = s ++ [':'] ∧ schemePart s r.scheme) ∨
    (∃ h : HostSource, e = h.text ∧ h.Matches page r) ∨
    (IsSelf e ∧ SelfMatches page r)

/-- A list that is empty, or holds only `'none'`, allows nothing. -/
def Allows (policy : Text) (chain : List Text) (page r : Resource) : Prop :=
  ∀ sources, governing policy chain = some sources → ∃ e ∈ sources, Matches e page r

/-! ### Telling expressions apart -/

theorem words_chars {space : Char → Bool} {t w : Text} (h : w ∈ words space t) :
    w ≠ [] ∧ ∀ c ∈ w, c ∈ t ∧ space c = false := by
  obtain ⟨hmem, hne⟩ := List.mem_filter.mp h
  refine ⟨of_decide_eq_true hne, ?_⟩
  clear hne h
  induction t generalizing w with
  | nil =>
    rw [List.splitOnP_nil, List.mem_singleton] at hmem
    subst hmem
    exact nofun
  | cons c t ih =>
    have hlater : ∀ {w}, w ∈ t.splitOnP space → ∀ d ∈ w, d ∈ c :: t ∧ space d = false :=
      fun hw d hd => ⟨List.mem_cons_of_mem _ (ih hw d hd).1, (ih hw d hd).2⟩
    rw [List.splitOnP_cons_eq_if_modifyHead] at hmem
    split_ifs at hmem with hc
    · rcases List.mem_cons.mp hmem with rfl | hmem
      · exact nofun
      · exact hlater hmem
    · cases hs : t.splitOnP space with
      | nil => exact absurd hs (List.splitOnP_ne_nil _ _)
      | cons v vs =>
        rw [hs] at hlater
        rw [hs, List.modifyHead_cons] at hmem
        rcases List.mem_cons.mp hmem with rfl | hmem
        · intro d hd
          rcases List.mem_cons.mp hd with rfl | hd
          · exact ⟨List.mem_cons_self, Bool.eq_false_of_not_eq_true hc⟩
          · exact hlater List.mem_cons_self d hd
        · exact hlater (List.mem_cons_of_mem _ hmem)

end Conclave.Lib.Csp3
