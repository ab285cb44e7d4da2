import Conclave.Net.Send
import Conclave.Lib.Csp3

/-! Content security policies: parsing a header into source lists, and whether a URL may be
loaded under one of them. -/

namespace Conclave.Net.Csp

open Lib Text Send

/-- The scheme of a URL, by its name in lower case. -/
def fromLowercase (s : Text) : Scheme :=
  if s = "http".toList then .http
  else if s = "https".toList then .https
  else if s = "ws".toList then .ws
  else if s = "wss".toList then .wss
  else if s = "file".toList then .file
  else if s = "data".toList then .data
  else if s = "about".toList then .about
  else if s = "blob".toList then .blob
  else .other

/-- What of a URL is looked at. -/
structure Url where
  scheme : Scheme
  host : Text
  port : Option ℕ
  deriving DecidableEq, Repr

abbrev Origin := Text

def portText (port : ℕ) : Text := Nat.toDigits 10 port

def Origin.of (url : Url) : Origin :=
  let scheme := url.scheme.asStr.toList
  if scheme = [] ∨ url.host = [] then "null".toList
  else
    let host := Text.toAsciiLowercase url.host
    match url.port with
    | some p => scheme ++ "://".toList ++ host ++ ":".toList ++ portText p
    | none => scheme ++ "://".toList ++ host

/-! ### Policies -/

structure Policy where
  defaultSrc : List Text
  scriptSrc : Option (List Text)
  styleSrc : Option (List Text)
  imgSrc : Option (List Text)
  connectSrc : Option (List Text)
  fontSrc : Option (List Text)
  frameSrc : Option (List Text)
  mediaSrc : Option (List Text)
  objectSrc : Option (List Text)
  formAction : Option (List Text)
  upgradeInsecureRequests : Bool
  blockAllMixedContent : Bool
  raw : Text
  deriving DecidableEq, Repr

def Policy.default : Policy :=
  ⟨[], none, none, none, none, none, none, none, none, none, false, false, []⟩

inductive CspDirective where
  | script | style | img | connect | font | frame | media | object | formAction
  deriving DecidableEq, Repr

def splitWhitespace (t : Text) : List Text := Csp3.words isWhitespace t

def Policy.set (p : Policy) (name : String) (sources : List Text) : Policy :=
  if name = "default-src" then { p with defaultSrc := sources }
  else if name = "script-src" then { p with scriptSrc := some sources }
  else if name = "style-src" then { p with styleSrc := some sources }
  else if name = "img-src" then { p with imgSrc := some sources }
  else if name = "connect-src" then { p with connectSrc := some sources }
  else if name = "font-src" then { p with fontSrc := some sources }
  else if name = "frame-src" then { p with frameSrc := some sources }
  else if name = "media-src" then { p with mediaSrc := some sources }
  else if name = "object-src" then { p with objectSrc := some sources }
  else if name = "form-action" then { p with formAction := some sources }
  else if name = "upgrade-insecure-requests" then { p with upgradeInsecureRequests := true }
  else if name = "block-all-mixed-content" then { p with blockAllMixedContent := true }
  else p

def parseDirective (p : Policy) (directive : Text) : Policy :=
  match splitWhitespace (trim directive) with
  | [] => p
  | name :: sources => p.set (String.ofList (Text.toAsciiLowercase name)) sources

def parseCsp (value : Text) : Policy :=
  (value.splitOn ';').foldl parseDirective { Policy.default with raw := value }

namespace Policy

def specific (p : Policy) : CspDirective → Option (List Text)
  | .script => p.scriptSrc
  | .style => p.styleSrc
  | .img => p.imgSrc
  | .connect => p.connectSrc
  | .font => p.fontSrc
  | .frame => p.frameSrc
  | .media => p.mediaSrc
  | .object => p.objectSrc
  | .formAction => p.formAction

/-- The list for a directive, or that of `default-src`. -/
def sourceList (p : Policy) (directive : CspDirective) : List Text :=
  (p.specific directive).getD p.defaultSrc

end Policy

/-! ### Matching -/

def hostMatches (pattern host : Text) : Bool :=
  let host := Text.toAsciiLowercase host
  let pattern := Text.toAsciiLowercase pattern
  match stripPrefix "*.".toList pattern with
  | some rest => '.' :: rest <:+ host
  | none => pattern = host

/-- What is before the first such character and, if there is one, what is after it. -/
def splitOnce (c : Char) (t : Text) : Text × Option Text :=
  if c ∈ t then (t.takeWhile (· ≠ c), some (t.dropWhile (· ≠ c)).tail) else (t, none)

/-- The scheme that a pattern asks for, and the rest of it. -/
def schemeOf (s : Text) : Option Text × Text :=
  match stripPrefix "https://".toList s with
  | some rest => (some "https".toList, rest)
  | none =>
    match stripPrefix "http://".toList s with
    | some rest => (some "http".toList, rest)
    | none =>
      match stripPrefix "ws://".toList s with
      | some rest => (some "ws".toList, rest)
      | none =>
        match stripPrefix "wss://".toList s with
        | some rest => (some "wss".toList, rest)
        | none => (none, s)

/-- The part of `matches_source` after the scheme of a host pattern. -/
def matchesHostPort (rest : Text) (target : Url) : Bool :=
  let (hostPat, portPat) := splitOnce ':' rest
  if !hostMatches hostPat target.host then false
  else
    match portPat with
    | none => true
    | some port => port = ['*'] || port = (target.port.map portText).getD []

/-- The part of `matches_source` for hostnames and host patterns. -/
def matchesPattern (s : Text) (target : Url) : Bool :=
  let (scheme, rest) := schemeOf s
  if scheme.any fun s => target.scheme.asStr.toList ≠ s then false
  else matchesHostPort rest target

def matchesSource (src : Text) (pageOrigin targetOrigin : Origin) (target : Url) : Bool :=
  let s := trim src
  if s = "*".toList then true
  else if s = "'self'".toList then pageOrigin = targetOrigin
  else if (["'unsafe-inline'", "'unsafe-eval'", "'strict-dynamic'"].map String.toList).contains s then
    false
  else if s = "data:".toList then target.scheme.asStr = "data"
  else if s = "blob:".toList then target.scheme.asStr = "blob"
  else if s = "https:".toList then target.scheme.asStr = "https"
  else if s = "http:".toList then target.scheme.asStr = "http"
  else matchesPattern s target

def Policy.allowsSource (p : Policy) (directive : CspDirective) (pageOrigin : Origin)
    (candidate : Url) : Bool :=
  let list := p.sourceList directive
  if list = [] then true
  else if list.contains "'none'".toList then false
  else list.any fun src => matchesSource src pageOrigin (.of candidate) candidate

/-! ### The lists of a policy -/

/-- The name of the directive that has a list of its own. -/
def name : CspDirective → String
  | .script => "script-src"
  | .style => "style-src"
  | .img => "img-src"
  | .connect => "connect-src"
  | .font => "font-src"
  | .frame => "frame-src"
  | .media => "media-src"
  | .object => "object-src"
  | .formAction => "form-action"

theorem set_specific (p : Policy) (n : String) (sources : List Text) (d : CspDirective) :
    (p.set n sources).specific d = if n = name d then some sources else p.specific d := by
  by_cases hn : n = name d
  · subst hn
    rw [if_pos rfl]
    cases d <;> rfl
  · rw [if_neg hn]
    cases d <;> unfold name at hn <;>
      simp only [Policy.set, Policy.specific, apply_ite Policy.scriptSrc, apply_ite Policy.styleSrc,
        apply_ite Policy.imgSrc, apply_ite Policy.connectSrc, apply_ite Policy.fontSrc,
        apply_ite Policy.frameSrc, apply_ite Policy.mediaSrc, apply_ite Policy.objectSrc,
        apply_ite Policy.formAction, if_neg hn, ite_self]

theorem set_defaultSrc (p : Policy) (n : String) (sources : List Text) :
    (p.set n sources).defaultSrc = if n = "default-src" then sources else p.defaultSrc := by
  simp only [Policy.set, apply_ite Policy.defaultSrc, ite_self]

end Conclave.Net.Csp
