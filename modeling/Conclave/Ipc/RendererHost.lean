import Conclave.Lib.Run
import Conclave.Ipc.Url

/-! The broker of renderer processes: the key of the site that a URL belongs to, one
renderer for each key, and where a command of the user interface goes. -/

namespace Conclave.Ipc

open Lib

/-! ### Site keys -/

def commonTwoLabelSuffixes : List Text :=
  ["ac.uk", "co.jp", "co.kr", "co.nz", "co.uk", "com.au", "com.br", "com.cn", "com.mx", "com.tr",
    "gov.uk", "net.au", "org.au", "org.uk"].map String.toList

/-- The labels of a host, without empty ones. -/
def segments (host : Text) : List Text := (host.splitOn '.').filter (· ≠ [])

def registrableHost (host : Text) : Text :=
  let host := Text.toAsciiLowercase (host.rdropWhile (· = '.'))
  let segments := segments host
  if segments.length ≤ 2 then host
  else
    let lastTwo := ['.'].intercalate (segments.drop (segments.length - 2))
    if lastTwo ∈ commonTwoLabelSuffixes then
      ['.'].intercalate (segments.drop (segments.length - 3))
    else lastTwo

/-- The text up to the first slash; without one, up to the first question mark; without
that, up to the first hash. -/
def hostEnd (s : Text) : Text :=
  if '/' ∈ s then s.takeWhile (· ≠ '/')
  else if '?' ∈ s then s.takeWhile (· ≠ '?')
  else s.takeWhile (· ≠ '#')

/-- The host as it is cut out of the text after the scheme, up to the first colon. -/
def cutHost (afterScheme : Text) : Text := (hostEnd afterScheme).takeWhile (· ≠ ':')

def siteForUrl (url : Text) : Option Text := do
  let (scheme, afterScheme) ← splitOnce "://".toList url
  let host := cutHost afterScheme
  if host = [] then none
  else some (scheme ++ "://".toList ++ registrableHost host)

/-! ### Renderers -/

structure RendererRecord where
  childId : ℕ
  refcount : ℕ
  deriving DecidableEq, Repr

/-- The records by site, and the id after the largest of a child. -/
structure RendererHost where
  bySite : Text → Option RendererRecord
  nextChildId : ℕ

/-- The sum of two numbers of 32 bits, which wraps around. -/
def addU32 (a b : ℕ) : ℕ := (a + b) % 2 ^ 32

namespace RendererHost

def new : RendererHost := ⟨fun _ => none, 0⟩

/-- `spawned` is the id that a new child gets when one is needed. -/
def lookupOrSpawn (h : RendererHost) (site : Text) (spawned : ℕ) : ℕ × RendererHost :=
  match h.bySite site with
  | some rec =>
    (rec.childId, { h with
      bySite := Function.update h.bySite site
        (some { rec with refcount := addU32 rec.refcount 1 }) })
  | none =>
    (spawned, {
      bySite := Function.update h.bySite site (some ⟨spawned, 1⟩)
      nextChildId := addU32 (max h.nextChildId spawned) 1 })

/-- The child to tear down, when this was its last reference. -/
def release (h : RendererHost) (site : Text) : Option ℕ × RendererHost :=
  match h.bySite site with
  | none => (none, h)
  | some rec =>
    if rec.refcount - 1 = 0 then
      (some rec.childId, { h with bySite := Function.update h.bySite site none })
    else (none, { h with
      bySite := Function.update h.bySite site (some { rec with refcount := rec.refcount - 1 }) })

end RendererHost

/-! ### Routing -/

inductive RouteClass where
  | topLevelNavigation (url site : Text)
  | activeRenderer
  | shutdown
  deriving DecidableEq, Repr

inductive RouteDecision where
  | sendToActive
  | sameSite (site : Text)
  | crossSiteSwap (site url : Text) (previousSite : Option Text)
  | shutdown
  deriving DecidableEq, Repr

def stripDisplaySegment (s : Text) : Text := ((splitOnce "|||".toList s).map Prod.fst).getD s

/-- The absolute URL that a command navigates to, when it can be told from the command. -/
def navTargetUrl (cmd : Text) : Option Text :=
  if cmd = "back://".toList ∨ cmd = "forward://".toList ∨ cmd = "reload://".toList then none
  else match Text.stripPrefix "tb-link-click:".toList cmd with
    | some rest =>
      let href := ((splitOnce "|||".toList rest).map Prod.snd).getD []
      if contains "://".toList href then some (stripDisplaySegment href) else none
    | none =>
      if "tb-".toList <+: cmd ∨ "javascript:".toList <+: cmd then none
      else
        let url := stripDisplaySegment cmd
        if contains "://".toList url then some url else none

def classifyCommand (cmd : Text) : RouteClass :=
  if cmd = "__shutdown__".toList then .shutdown
  else match navTargetUrl cmd with
    | some url => match siteForUrl url with
      | some site => .topLevelNavigation url site
      | none => .activeRenderer
    | none => .activeRenderer

def routeDecision (cmd : Text) (activeSite : Option Text) : RouteDecision :=
  match classifyCommand cmd with
  | .shutdown => .shutdown
  | .activeRenderer => .sendToActive
  | .topLevelNavigation url site =>
    if activeSite = some site then .sameSite site else .crossSiteSwap site url activeSite

end Conclave.Ipc
