import Conclave.Lib.Text

/-! Hosts that have asked for TLS. A valid header of a host replaces what was stored for
it, or removes it when the header gives no time; a host is upgraded for an entry of its
own, or for one of a parent domain that covers the subdomains. -/

namespace Conclave.Net.Hsts

open Lib Text

structure HstsEntry where
  /-- In seconds, saturated. -/
  expiryUnix : ℕ
  includeSubdomains : Bool
  deriving DecidableEq, Repr

abbrev Store := Text → Option HstsEntry

def preloaded : List String := [
  "google.com", "youtube.com", "gmail.com", "googlemail.com", "android.com", "googleapis.com",
  "gstatic.com", "googletagmanager.com", "doubleclick.net", "facebook.com", "twitter.com",
  "github.com", "githubusercontent.com", "githubassets.com", "stackoverflow.com",
  "stackexchange.com", "wikipedia.org", "wikimedia.org", "mozilla.org", "mozilla.com",
  "mozilla.net", "cloudflare.com", "cloudflareinsights.com", "cloudfront.net", "amazon.com",
  "amazonaws.com", "aws.amazon.com", "apple.com", "icloud.com", "microsoft.com", "live.com",
  "office.com", "office365.com", "windows.com", "outlook.com", "msftauth.net", "azure.com",
  "azurewebsites.net", "office.net", "msn.com", "bing.com", "linkedin.com", "twitch.tv",
  "tiktok.com", "reddit.com", "pinterest.com", "instagram.com", "whatsapp.com",
  "messenger.com", "fb.com", "fbcdn.net", "paypal.com", "paypalobjects.com", "stripe.com",
  "shopify.com", "cloudflare.net", "duckduckgo.com", "1password.com", "lastpass.com",
  "bitwarden.com", "protonmail.com", "proton.me", "signal.org", "telegram.org",
  "discord.com", "discordapp.com", "slack.com", "zoom.us", "dropbox.com",
  "drive.google.com", "docs.google.com", "mail.google.com", "accounts.google.com",
  "play.google.com", "developer.mozilla.org", "letsencrypt.org", "digicert.com",
  "sectigo.com"]

def isPreloaded (host : Text) : Bool := (preloaded.map String.toList).contains host

/-- One directive; a later `max-age` replaces an earlier one, also when it has no number. -/
def parsePart (acc : Option ℕ × Bool) (rawPart : Text) : Option ℕ × Bool :=
  let part := trim rawPart
  if part = [] then acc
  else
    let lc := toAsciiLowercase part
    match stripPrefix "max-age".toList lc with
    | some rest =>
      let rest := rest.dropWhile fun c => c = ' ' ∨ c = '='
      let rest := trim (trimMatches (fun c => c = '\"') rest)
      (parseUnsigned 64 rest, acc.2)
    | none => if lc = "includesubdomains".toList then (acc.1, true) else acc

/-- The `max-age` of a header, and whether it covers the subdomains. -/
def parse (value : Text) : Option (ℕ × Bool) :=
  let acc := (value.splitOn ';').foldl parsePart (none, false)
  acc.1.map fun maxAge => (maxAge, acc.2)

def saturatingAdd (a b : ℕ) : ℕ := min (a + b) (2 ^ 64 - 1)

/-- Whether the header was valid, and the store after it. -/
def record (store : Store) (now : ℕ) (host headerValue : Text) : Bool × Store :=
  match parse headerValue with
  | none => (false, store)
  | some (maxAge, includeSubdomains) =>
    (true, Function.update store (toAsciiLowercase host)
      (if maxAge = 0 then none else some ⟨saturatingAdd now maxAge, includeSubdomains⟩))

/-- What stands after each dot. -/
def parents : Text → List Text
  | [] => []
  | c :: rest => if c = '.' then rest :: parents rest else parents rest

def mustUpgrade (store : Store) (now : ℕ) (host : Text) : Bool :=
  let lc := toAsciiLowercase host
  isPreloaded lc || (store lc).any (fun e => e.expiryUnix > now) ||
    (parents lc).any fun s =>
      isPreloaded s || (store s).any fun e => e.expiryUnix > now ∧ e.includeSubdomains

/-! ### What was recorded -/

/-- A header that a host sent at some time. -/
structure Seen where
  host : Text
  headerValue : Text
  now : ℕ
  deriving DecidableEq, Repr

def afterAll (log : List Seen) : Store :=
  log.foldl (fun store s => (record store s.now s.host s.headerValue).2) fun _ => none

/-- What a valid header asks for. -/
structure Wish where
  maxAge : ℕ
  includeSubdomains : Bool
  now : ℕ
  deriving DecidableEq, Repr

def Seen.wish (s : Seen) : Option Wish :=
  (parse s.headerValue).map fun (maxAge, includeSubdomains) => ⟨maxAge, includeSubdomains, s.now⟩

/-- The latest valid header of a host. -/
def latest (log : List Seen) (host : Text) : Option Wish :=
  (log.filterMap fun s => if toAsciiLowercase s.host = host then s.wish else none).getLast?

/-- A wish for some time that is not over. -/
def Wish.Live (w : Wish) (now : ℕ) : Prop := 0 < w.maxAge ∧ now < saturatingAdd w.now w.maxAge

/-- The entry that a wish leaves. -/
def Wish.entry (w : Wish) : Option HstsEntry :=
  if w.maxAge = 0 then none else some ⟨saturatingAdd w.now w.maxAge, w.includeSubdomains⟩

theorem afterAll_eq (log : List Seen) (host : Text) :
    afterAll log host = (latest log host).bind Wish.entry := by
  induction log using List.reverseRecOn with
  | nil => rfl
  | append_singleton log s ih =>
    have hstore : afterAll (log ++ [s]) = (record (afterAll log) s.now s.host s.headerValue).2 := by
      simp [afterAll]
    rw [hstore, record, latest, List.filterMap_append]
    cases hp : parse s.headerValue with
    | none => simpa [Seen.wish, hp, latest] using ih
    | some p =>
      by_cases hhost : toAsciiLowercase s.host = host
      · subst hhost
        simp [Seen.wish, hp, Wish.entry]
      · simpa [Seen.wish, hp, hhost, Function.update_of_ne (Ne.symm hhost), latest] using ih

theorem live_iff (o : Option Wish) (now : ℕ) :
    (o.bind Wish.entry).any (fun e => e.expiryUnix > now) = true ↔
      ∃ w ∈ o, w.Live now := by
  cases o with
  | none => simp
  | some w =>
    unfold Wish.entry Wish.Live
    simp only [Option.bind_some]
    split_ifs with h <;> simp [h, Nat.pos_iff_ne_zero]

theorem covers_iff (o : Option Wish) (now : ℕ) :
    (o.bind Wish.entry).any (fun e => e.expiryUnix > now ∧ e.includeSubdomains) = true ↔
      ∃ w ∈ o, w.Live now ∧ w.includeSubdomains = true := by
  cases o with
  | none => simp
  | some w =>
    unfold Wish.entry Wish.Live
    simp only [Option.bind_some]
    split_ifs with h <;> simp [h, Nat.pos_iff_ne_zero]

/-- The latest wishes of a host and of its parent domains decide, and the preloaded ones. -/
theorem mustUpgrade_iff (log : List Seen) (now : ℕ) (host : Text) :
    mustUpgrade (afterAll log) now host = true ↔
      (∃ d ∈ toAsciiLowercase host :: parents (toAsciiLowercase host), isPreloaded d = true) ∨
      (∃ w ∈ latest log (toAsciiLowercase host), w.Live now) ∨
      ∃ d ∈ parents (toAsciiLowercase host),
        ∃ w ∈ latest log d, w.Live now ∧ w.includeSubdomains = true := by
  simp only [mustUpgrade, Bool.or_eq_true, List.any_eq_true, afterAll_eq, live_iff, covers_iff,
    List.mem_cons, exists_eq_or_imp]
  constructor
  · rintro ((h | h) | ⟨d, hd, h | h⟩)
    · exact .inl (.inl h)
    · exact .inr (.inl h)
    · exact .inl (.inr ⟨d, hd, h⟩)
    · exact .inr (.inr ⟨d, hd, h⟩)
  · rintro ((h | ⟨d, hd, h⟩) | h | ⟨d, hd, h⟩)
    · exact .inl (.inl h)
    · exact .inr ⟨d, hd, .inl h⟩
    · exact .inl (.inr h)
    · exact .inr ⟨d, hd, .inr h⟩

end Conclave.Net.Hsts
