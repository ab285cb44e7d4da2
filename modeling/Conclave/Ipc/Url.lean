import Conclave.Ipc.Hosts

/-! The URL parser up to the host and the port. The path, the query and the fragment are
cut off here as there, and cannot make a URL fail. -/

namespace Conclave.Ipc

open Lib

inductive Scheme where
  | http
  | https
  | ws
  | wss
  | file
  | data
  | about
  | blob
  | other
  deriving DecidableEq, Repr

namespace Scheme

def fromLowercase (s : Text) : Scheme :=
  if s = "http".toList then http
  else if s = "https".toList then https
  else if s = "ws".toList then ws
  else if s = "wss".toList then wss
  else if s = "file".toList then file
  else if s = "data".toList then data
  else if s = "about".toList then about
  else if s = "blob".toList then blob
  else other

def isSpecial : Scheme → Bool
  | http | https | ws | wss | file => true
  | _ => false

def defaultPort : Scheme → Option ℕ
  | http | ws => some 80
  | https | wss => some 443
  | _ => none

end Scheme

structure Url where
  scheme : Scheme
  host : Text
  port : Option ℕ
  deriving DecidableEq, Repr

def isSchemeChar (c : Char) : Bool := c.isAlphanum || c == '+' || c == '-' || c == '.'

/-- The scheme in lower case, and what follows its colon. -/
def splitScheme (s : Text) : Option (Text × Text) :=
  match s.takeWhile isSchemeChar, s.dropWhile isSchemeChar with
  | first :: name, ':' :: rest =>
    if first.isAlpha then some (Text.toAsciiLowercase (first :: name), rest) else none
  | _, _ => none

/-- At most so many slashes or backslashes taken off. -/
def dropSlashes : ℕ → Text → Text
  | n + 1, c :: s => if c = '/' ∨ c = '\\' then dropSlashes n s else c :: s
  | _, s => s

variable (casing : Casing)

def parsePortStr (s : Text) : Except UrlError ℕ :=
  if s = [] ∨ ¬ s.all Char.isDigit then .error .invalidPort
  else match Text.parseUnsigned 32 s with
    | none => .error .invalidPort
    | some v => if 0xFFFF < v then .error .invalidPort else .ok v

def parsePortSuffix : Text → Except UrlError (Option ℕ)
  | [] => .ok none
  | ':' :: rest => do return some (← parsePortStr rest)
  | _ => .error .invalidPort

/-- The text before the last colon. -/
def beforePort (s : Text) : Text :=
  if ':' ∈ s then (s.rdropWhile (· ≠ ':')).dropLast else s

def parseHostPort (s : Text) (scheme : Scheme) : Except UrlError (Text × Option ℕ) :=
  match s with
  | [] => .ok ([], none)
  | '[' :: stripped =>
    if ']' ∈ stripped then do
      let validated ← parseIpv6 (stripped.takeWhile (· ≠ ']'))
      let port ← parsePortSuffix (stripped.dropWhile (· ≠ ']')).tail
      return ('[' :: validated ++ [']'], port)
    else .error .invalidHost
  | s => do
    if beforePort s = [] then throw .invalidHost
    let host ← normalizeHost casing (beforePort s)
    if ':' ∈ s ∧ s.rtakeWhile (· ≠ ':') ≠ [] then
      let n ← parsePortStr (s.rtakeWhile (· ≠ ':'))
      return (host, if scheme.defaultPort = some n then none else some n)
    else return (host, none)

/-- The characters that are not taken out of the middle of a URL. -/
def isKept (c : Char) : Bool := c ∉ ['\t', '\n', '\r']

/-- The text without tabs and line breaks, nor control characters and spaces at its ends. -/
def clean (input : Text) : Text := (input.trimMatches (· ≤ ' ')).filter isKept

/-- What stands before the first of these characters. -/
def authority (s : Text) : Text :=
  ((s.takeWhile (· ≠ '#')).takeWhile (· ≠ '?')).takeWhile fun c => !(c == '/' || c == '\\')

def Url.parse (input : Text) : Except UrlError Url :=
  if input.trimMatches (· ≤ ' ') = [] then .error .empty
  else match splitScheme (clean input) with
    | none => .error .invalidScheme
    | some (name, rest) =>
      let scheme := Scheme.fromLowercase name
      if scheme.isSpecial = false then .ok ⟨scheme, [], none⟩
      else do
        -- The user and the password end at the last at sign.
        let hostPort := (authority (dropSlashes 2 rest)).rtakeWhile (· ≠ '@')
        let (host, port) ← parseHostPort casing hostPort scheme
        if scheme ≠ .file ∧ host = [] then throw .missingHost
        return ⟨scheme, host, port⟩

end Conclave.Ipc
