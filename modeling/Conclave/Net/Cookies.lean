import Conclave.Lib.Run
import Conclave.Lib.Text

/-! The cookie jar: `Set-Cookie` headers read and stored, and the `Cookie` strings made of
what is stored. The clock, the range of its times and the public suffixes are parameters;
times are in nanoseconds. A panic gives `none`, and arithmetic that overflows is one. -/

namespace Conclave.Net.Cookies

open Lib

inductive RequestSite where
  | sameSite
  | crossSite
  deriving DecidableEq, Repr

inductive SameSite where
  | strict
  | lax
  | none
  | unset
  deriving DecidableEq, Repr

def sameSitePermits (policy : SameSite) (site : RequestSite) (isTopLevelNav isHttps : Bool) : Bool :=
  match policy with
  | .strict => site = .sameSite
  | .lax | .unset =>
    match site with
    | .sameSite => true
    | .crossSite => isTopLevelNav
  | .none => isHttps

/-- The public suffix of a host, and the registrable domain. -/
structure Psl where
  publicSuffix : Text → Text
  registrableDomain : Text → Text

/-- The times that the clocks of a platform can hold: from a floor on, and below a limit. -/
structure Platform where
  instantFloor : ℤ
  instantLimit : ℤ
  systemFloor : ℤ
  systemLimit : ℤ

def second : ℤ := 1000000000

def Platform.unix : Platform :=
  ⟨-2 ^ 63 * second, 2 ^ 63 * second, -2 ^ 63 * second, 2 ^ 63 * second⟩

/-- Instants are unsigned here, and system times count steps of 100 ns from the year 1601. -/
def Platform.windows : Platform :=
  ⟨0, 2 ^ 64 * second, (-2 ^ 63 * 100) - 11644473600 * second,
    2 ^ 63 * 100 - 11644473600 * second⟩

/-- What the two clocks show: the system clock from the epoch on. -/
structure Clock where
  instant : ℤ
  system : ℤ

def Clock.unixNow (clock : Clock) : ℕ := (clock.system / second).toNat

structure StoredCookie where
  name : Text
  value : Text
  domain : Text
  hostOnly : Bool
  path : Text
  expiresAt : Option ℤ
  expiresUnix : Option ℕ
  secure : Bool
  httpOnly : Bool
  sameSite : SameSite
  partitionKey : Option Text
  deriving DecidableEq, Repr

abbrev CookieStore := List StoredCookie

/-! ### Matching -/

def domainMatches (host cookieDomain : Text) (hostOnly : Bool) : Bool :=
  if host = cookieDomain then true
  else if hostOnly then false
  else cookieDomain.length < host.length && decide (cookieDomain <:+ host) &&
    host[host.length - cookieDomain.length - 1]? == some '.'

def pathMatches (requestPath cookiePath : Text) : Bool :=
  if requestPath = cookiePath then true
  else if ¬ cookiePath <+: requestPath then false
  else cookiePath.getLast? == some '/' || requestPath[cookiePath.length]? == some '/'

def defaultPath (requestPath : Text) : Text :=
  if requestPath.head? ≠ some '/' then ['/']
  else
    let front := (requestPath.rdropWhile (· ≠ '/')).dropLast
    if front = [] then ['/'] else front

def cookieApplies (c : StoredCookie) (host path : Text) (isHttps : Bool) : Bool :=
  if c.secure && !isHttps then false
  else if !domainMatches host c.domain c.hostOnly then false
  else pathMatches path c.path

def startsWithAsciiCi (s prefix' : Text) : Bool :=
  prefix'.length ≤ s.length &&
    Text.toAsciiLowercase (s.take prefix'.length) == Text.toAsciiLowercase prefix'

def partitionKeyForSite (psl : Psl) (topLevelHost : Text) (isHttps : Bool) : Text :=
  let scheme := if isHttps then "https".toList else "http".toList
  let reg := psl.registrableDomain (Text.toAsciiLowercase topLevelHost)
  scheme ++ "://".toList ++ if reg = [] then Text.toAsciiLowercase topLevelHost else reg

/-! ### Dates -/

/-- A signed number of so many bits, after a sign at most. -/
def parseSigned (bits : ℕ) (t : Text) : Option ℤ :=
  match t with
  | '-' :: digits =>
    if digits.head? = some '+' then none
    else
      match Text.parseUnsigned bits digits with
      | some n => if n ≤ 2 ^ (bits - 1) then some (-n) else none
      | none => none
  | t =>
    match Text.parseUnsigned bits t with
    | some n => if n < 2 ^ (bits - 1) then some n else none
    | none => none

def isAsciiWhitespace (c : Char) : Bool := c.toNat ∈ [0x20, 0x9, 0xa, 0xc, 0xd]

/-- `split_ascii_whitespace`: the pieces that are not empty. -/
def splitAsciiWhitespace (t : Text) : List Text := (t.splitOnP isAsciiWhitespace).filter (· ≠ [])

def parseMonthAbbrev (s : Text) : Option ℕ :=
  let months := ["jan", "feb", "mar", "apr", "may", "jun", "jul", "aug", "sep", "oct", "nov", "dec"]
  (months.findIdx? fun m => decide (m.toList = Text.toAsciiLowercase s)).map (· + 1)

def parseHms (s : Text) : Option (ℕ × ℕ × ℕ) :=
  match s.splitOn ':' with
  | h :: m :: sec :: _ => do
    let h ← Text.parseUnsigned 32 h
    let m ← Text.parseUnsigned 32 m
    let sec ← Text.parseUnsigned 32 sec
    if 23 < h ∨ 59 < m ∨ 60 < sec then none else return (h, m, sec)
  | _ => none

structure Civil where
  year : ℤ
  month : ℕ
  day : ℕ
  hour : ℕ
  minute : ℕ
  sec : ℕ
  deriving DecidableEq, Repr

namespace Civil

def valid (d : Civil) : Bool := 1 ≤ d.month && d.month ≤ 12 && 1 ≤ d.day && d.day ≤ 31

def shiftedYear (d : Civil) : ℤ := if d.month ≤ 2 then d.year - 1 else d.year

def shiftedMonth (d : Civil) : ℕ := if d.month ≤ 2 then d.month + 9 else d.month - 3

/-- The numerator of the era, where `/` rounds towards zero. -/
def eraYear (d : Civil) : ℤ := if 0 ≤ d.shiftedYear then d.shiftedYear else d.shiftedYear - 399

def era (d : Civil) : ℤ := d.eraYear.tdiv 400

def totalSecs (d : Civil) : ℤ :=
  let yoe := d.shiftedYear - d.era * 400
  let doy : ℤ := (153 * d.shiftedMonth + 2) / 5 + d.day - 1
  let doe := yoe * 365 + yoe / 4 - yoe / 100 + doy
  let daysFromEpoch := d.era * 146097 + doe - 719468
  daysFromEpoch * 86400 + d.hour * 3600 + d.minute * 60 + d.sec

/-- The years are computed in 32 bits, and the platform has the time. -/
def inRange (p : Platform) (d : Civil) : Bool :=
  -2 ^ 31 ≤ d.shiftedYear && -2 ^ 31 ≤ d.eraYear &&
    p.systemFloor ≤ d.totalSecs * second && d.totalSecs * second < p.systemLimit

/-- The date in nanoseconds. -/
def toSystemTime (p : Platform) (d : Civil) : Option (Option ℤ) :=
  if ¬ d.valid then some none
  else if d.inRange p then some (some (d.totalSecs * second))
  else none

end Civil

def splitAfterComma (s : Text) : Option (Text × Text) :=
  if ',' ∈ s then some (s.takeWhile (· ≠ ','), (s.dropWhile (· ≠ ',')).tail) else none

/-- A zone, which may be missing. -/
def isGmt (zone : List Text) : Bool :=
  match zone with
  | [] => true
  | z :: _ => Text.toAsciiLowercase z = "gmt".toList || Text.toAsciiLowercase z = "utc".toList

def imfFixdate (s : Text) : Option Civil := do
  let (_, rest) ← splitAfterComma s
  match splitAsciiWhitespace (rest.dropWhile Text.isWhitespace) with
  | day :: month :: year :: time :: zone => do
    let day ← Text.parseUnsigned 32 day
    let month ← parseMonthAbbrev month
    let year ← parseSigned 32 year
    if ¬ isGmt zone then none
    else
      let (h, m, sec) ← parseHms time
      return ⟨year, month, day, h, m, sec⟩
  | _ => none

/-- The day, the month and the year of two digits, and the text of the time. -/
def rfc850Date (s : Text) : Option (ℕ × ℕ × ℤ × Text) := do
  let (_, rest) ← splitAfterComma s
  match splitAsciiWhitespace (rest.dropWhile Text.isWhitespace) with
  | date :: time :: zone =>
    if ¬ isGmt zone then none
    else
      match date.splitOn '-' with
      | day :: month :: yy :: _ => do
        let day ← Text.parseUnsigned 32 day
        let month ← parseMonthAbbrev month
        let yy ← parseSigned 32 yy
        return (day, month, yy, time)
      | _ => none
  | _ => none

/-- The year is computed before the time is read. -/
def rfc850 (s : Text) : Option (Option Civil) :=
  match rfc850Date s with
  | none => some none
  | some (day, month, yy, time) =>
    let year := if yy < 70 then 2000 + yy else 1900 + yy
    if year < 2 ^ 31 then
      some ((parseHms time).map fun (h, m, sec) => ⟨year, month, day, h, m, sec⟩)
    else none

def asctime (s : Text) : Option Civil :=
  match splitAsciiWhitespace s with
  | _ :: month :: day :: time :: year :: _ => do
    let month ← parseMonthAbbrev month
    let day ← Text.parseUnsigned 32 day
    let year ← parseSigned 32 year
    let (h, m, sec) ← parseHms time
    return ⟨year, month, day, h, m, sec⟩
  | _ => none

/-- The three forms that are tried, each with the date that it gives. -/
def civilDates (s : Text) : List (Option (Option Civil)) :=
  let s := Text.trim s
  [some (imfFixdate s), rfc850 s, some (asctime s)]

/-- The first date that is valid, unless there is a panic before it. -/
def firstDate (p : Platform) : List (Option (Option Civil)) → Option (Option ℤ)
  | [] => some none
  | none :: _ => none
  | some none :: dates => firstDate p dates
  | some (some d) :: dates =>
    match d.toSystemTime p with
    | none => none
    | some none => firstDate p dates
    | some (some t) => some (some t)

def parseHttpDate (p : Platform) (s : Text) : Option (Option ℤ) := firstDate p (civilDates s)

/-! ### Set-Cookie -/

structure Attributes where
  domain : Option Text
  path : Option Text
  maxAge : Option ℤ
  expires : Option ℤ
  secure : Bool
  httpOnly : Bool
  sameSite : SameSite
  partitioned : Bool
  deriving DecidableEq, Repr

namespace Attributes

def new : Attributes := ⟨none, none, none, none, false, false, .unset, false⟩

def splitEq (t : Text) : Text × Option Text :=
  if '=' ∈ t then (t.takeWhile (· ≠ '='), some (t.dropWhile (· ≠ '=')).tail) else (t, none)

/-- The name of an attribute in lower case, and its value. -/
def keyed (attr : Text) : Text × Option Text :=
  let (k, v) := splitEq (Text.trim attr)
  (Text.toAsciiLowercase (Text.trim k), v.map Text.trim)

def withDomain (a : Attributes) : Option Text → Attributes
  | some v =>
    let trimmed := Text.toAsciiLowercase (v.dropWhile (· = '.'))
    if trimmed = [] then a else { a with domain := some trimmed }
  | none => a

def withPath (a : Attributes) : Option Text → Attributes
  | some v => if v.head? = some '/' then { a with path := some v } else a
  | none => a

def withMaxAge (a : Attributes) : Option Text → Attributes
  | some v =>
    match parseSigned 64 v with
    | some n => { a with maxAge := some n }
    | none => a
  | none => a

def withExpires (p : Platform) (a : Attributes) : Option Text → Option Attributes
  | some v =>
    (parseHttpDate p v).map fun t =>
      match t with
      | some t => { a with expires := some t }
      | none => a
  | none => some a

def withSameSite (a : Attributes) : Option Text → Attributes
  | some v =>
    let v := Text.toAsciiLowercase v
    { a with sameSite :=
        if v = "strict".toList then .strict
        else if v = "lax".toList then .lax
        else if v = "none".toList then .none
        else .unset }
  | none => a

def read (p : Platform) (a : Attributes) (attr : Text) : Option Attributes :=
  if Text.trim attr = [] then some a
  else
    let (k, v) := keyed attr
    if k = "domain".toList then some (a.withDomain v)
    else if k = "path".toList then some (a.withPath v)
    else if k = "max-age".toList then some (a.withMaxAge v)
    else if k = "expires".toList then a.withExpires p v
    else if k = "secure".toList then some { a with secure := true }
    else if k = "httponly".toList then some { a with httpOnly := true }
    else if k = "partitioned".toList then some { a with partitioned := true }
    else if k = "samesite".toList then some (a.withSameSite v)
    else some a

def readAll (p : Platform) (parts : List Text) : Option Attributes := parts.foldlM (read p) new

/-- The domain of the cookie and whether it is for one host only. -/
def resolveDomain (psl : Psl) (a : Attributes) (hostLc : Text) : Option (Text × Bool) :=
  match a.domain with
  | some d =>
    if !domainMatches hostLc d false && hostLc != d then none
    else if psl.publicSuffix d = d then if hostLc = d then some (hostLc, true) else none
    else some (d, false)
  | none => some (hostLc, true)

/-- The time of expiry by the two clocks, before it is known whether there is such an
instant. -/
def expiryTimes (clock : Clock) (a : Attributes) : Option (ℤ × ℕ) :=
  match a.maxAge, a.expires with
  | some n, _ =>
    if n ≤ 0 then some (clock.instant - second, clock.unixNow - 1)
    else some (clock.instant + n * second, min (clock.unixNow + n.toNat) (2 ^ 64 - 1))
  | none, some target =>
    let absUnix := (target / second).toNat
    if clock.system ≤ target then some (clock.instant + (target - clock.system), absUnix)
    else some (clock.instant - second, min absUnix (clock.unixNow - 1))
  | none, none => none

def instantFits (p : Platform) : Option (ℤ × ℕ) → Bool
  | some (t, _) => p.instantFloor ≤ t && t < p.instantLimit
  | none => true

end Attributes

/-- The request that a `Set-Cookie` header answers. -/
structure Origin where
  host : Text
  path : Text
  isHttps : Bool
  topLevelPartitionKey : Option Text

def securePrefix : Text := "__Secure-".toList

def hostPrefix : Text := "__Host-".toList

/-- The cookie but for its expiry, if it is not rejected. -/
def Attributes.accept (psl : Psl) (o : Origin) (name val : Text) (a : Attributes) :
    Option StoredCookie :=
  match a.resolveDomain psl (Text.toAsciiLowercase o.host) with
  | none => none
  | some (domain, hostOnly) =>
    if a.secure ∧ ¬ o.isHttps then none
    else
      let path := a.path.getD (defaultPath o.path)
      if startsWithAsciiCi name securePrefix ∧ ¬ a.secure then none
      else if startsWithAsciiCi name hostPrefix ∧ (¬ a.secure ∨ ¬ hostOnly ∨ path ≠ ['/']) then none
      else if a.partitioned ∧ (¬ a.secure ∨ path ≠ ['/']) then none
      else
        let partitionKey :=
          if a.partitioned then
            some (o.topLevelPartitionKey.getD (partitionKeyForSite psl domain o.isHttps))
          else none
        some ⟨name, val, domain, hostOnly, path, none, none, a.secure, a.httpOnly, a.sameSite,
          partitionKey⟩

/-- The name and the value, and the texts of the attributes. -/
def nameValue (value : Text) : Option (Text × Text × List Text) :=
  match value.splitOn ';' with
  | [] => none
  | nv :: parts =>
    match Attributes.splitEq (Text.trim nv) with
    | (_, none) => none
    | (name, some val) => if Text.trim name = [] then none else some (Text.trim name, Text.trim val, parts)

/-- `none` is a panic, `some none` a header that is ignored. -/
def parseSetCookiePartitioned (p : Platform) (psl : Psl) (clock : Clock) (value : Text) (o : Origin) :
    Option (Option StoredCookie) :=
  match nameValue value with
  | none => some none
  | some (name, val, parts) =>
    match Attributes.readAll p parts with
    | none => none
    | some a =>
      match a.accept psl o name val with
      | none => some none
      | some c =>
        let times := a.expiryTimes clock
        if Attributes.instantFits p times then
          some (some { c with
            expiresAt := times.map Prod.fst
            expiresUnix := times.map Prod.snd })
        else none

/-! ### The jar -/

/-- The name, the domain, the path and the partition. -/
def StoredCookie.identity (c : StoredCookie) : Text × Text × Text × Option Text :=
  (c.name, c.domain, c.path, c.partitionKey)

def upsert (store : CookieStore) (c : StoredCookie) : CookieStore :=
  match store.findIdx? fun e => decide (e.identity = c.identity) with
  | some i => store.set i c
  | none => store ++ [c]

def StoredCookie.live (now : ℤ) (c : StoredCookie) : Bool :=
  match c.expiresAt with
  | some t => now < t
  | none => true

def sweepExpired (now : ℤ) (store : CookieStore) : CookieStore := store.filter (·.live now)

/-- The `Set-Cookie` headers of a response, each with the clock when it is read, and the time
of the sweep. A response that is absorbed without a partition has no key. -/
structure Response where
  origin : Origin
  headers : List (Text × Text × Clock)
  now : ℤ

def isSetCookie (k : Text) : Bool := Text.toAsciiLowercase k == "set-cookie".toList

def absorbHeader (p : Platform) (psl : Psl) (o : Origin) (store : CookieStore)
    (header : Text × Text × Clock) : Option CookieStore :=
  if ¬ isSetCookie header.1 then some store
  else
    (parseSetCookiePartitioned p psl header.2.2 header.2.1 o).map fun c =>
      match c with
      | some c => upsert store c
      | none => store

def absorb (p : Platform) (psl : Psl) (store : CookieStore) (r : Response) : Option CookieStore :=
  (r.headers.foldlM (absorbHeader p psl r.origin) store).map (sweepExpired r.now)

/-! ### Cookie strings -/

def utf8Length (t : Text) : ℕ := (t.map Char.utf8Size).sum

/-- Longer paths first, and otherwise in the order of the jar. -/
def sortByPath (cookies : List StoredCookie) : List StoredCookie :=
  cookies.mergeSort fun a b => decide (utf8Length b.path ≤ utf8Length a.path)

def StoredCookie.render (c : StoredCookie) : Text := c.name ++ '=' :: c.value

def render (matched : List StoredCookie) : Option Text :=
  if matched = [] then none
  else some ("; ".toList.intercalate (matched.map StoredCookie.render))

/-- The functions that make a `Cookie` string. -/
inductive Builder where
  | cookieHeaderPartitioned (site : RequestSite) (isTopLevelNav : Bool)
  | cookieHeaderForRequest (site : RequestSite) (isTopLevelNav : Bool)
  | cookieHeader
  | cookieHeaderScriptVisible
  deriving DecidableEq, Repr

/-- A request or a script read, under a top-level site. -/
structure Request where
  host : Text
  path : Text
  isHttps : Bool
  topLevelPartitionKey : Text

def Builder.permits (b : Builder) (r : Request) (c : StoredCookie) : Bool :=
  match b with
  | .cookieHeaderPartitioned site nav =>
    sameSitePermits c.sameSite site nav r.isHttps &&
      match c.partitionKey with
      | none => true
      | some pk => pk = r.topLevelPartitionKey
  | .cookieHeaderForRequest site nav => sameSitePermits c.sameSite site nav r.isHttps
  | .cookieHeader => sameSitePermits c.sameSite .sameSite true r.isHttps
  | .cookieHeaderScriptVisible => !c.httpOnly

def Builder.includes (b : Builder) (r : Request) (c : StoredCookie) : Bool :=
  cookieApplies c (Text.toAsciiLowercase r.host) r.path r.isHttps && b.permits r c

/-- The cookies that go into the string. -/
def Builder.matched (b : Builder) (store : CookieStore) (now : ℤ) (r : Request) :
    List StoredCookie :=
  sortByPath ((sweepExpired now store).filter (b.includes r))

def Builder.header (b : Builder) (store : CookieStore) (now : ℤ) (r : Request) : Option Text :=
  render (b.matched store now r)

end Conclave.Net.Cookies
