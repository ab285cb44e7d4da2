import Conclave.Lib.Codec
import Conclave.Lib.Run
import Conclave.Lib.Utf8
import Mathlib.Data.List.AList

/-! The HTTP cache: entries, the memory store with its order of use, and the files of the
disk store. The clock and what the file system does are inputs. -/

namespace Conclave.Net.Cache

open Lib

structure CacheControl where
  noStore : Bool
  noCache : Bool
  mustRevalidate : Bool
  immutable : Bool
  isPrivate : Bool
  maxAge : Option ℕ
  sMaxAge : Option ℕ
  swr : Option ℕ
  deriving DecidableEq, Repr

namespace CacheControl

def default : CacheControl := ⟨false, false, false, false, false, none, none, none⟩

/-- The name of a directive and its value, which is empty when there is no equals sign. -/
def directive (tok : Text) : Text × Text :=
  if '=' ∈ tok then
    (Text.trim (tok.takeWhile (· ≠ '=')),
      Text.trimMatches (· == '"') (Text.trim (tok.dropWhile (· ≠ '=')).tail))
  else (tok, [])

def set (cc : CacheControl) (tok : Text) : CacheControl :=
  let (name, val) := directive (Text.trim tok)
  let name := Text.toAsciiLowercase name
  if name = "no-store".toList then { cc with noStore := true }
  else if name = "no-cache".toList then { cc with noCache := true }
  else if name = "must-revalidate".toList then { cc with mustRevalidate := true }
  else if name = "immutable".toList then { cc with immutable := true }
  else if name = "private".toList then { cc with isPrivate := true }
  else if name = "max-age".toList then { cc with maxAge := Text.parseUnsigned 64 val }
  else if name = "s-maxage".toList then { cc with sMaxAge := Text.parseUnsigned 64 val }
  else if name = "stale-while-revalidate".toList then { cc with swr := Text.parseUnsigned 64 val }
  else cc

def parse (value : String) : CacheControl := (value.toList.splitOn ',').foldl set default

end CacheControl

/-- A response with what is known of its age. A body is never as long as the address
space. -/
structure CachedEntry where
  status : UInt16
  reason : String
  headers : List (String × String)
  body : Bytes
  storedAt : UInt64
  maxAge : Option UInt64
  etag : Option String
  lastModified : Option String
  vary : List String
  varyRequestHeaders : List (String × String)
  mustRevalidate : Bool
  size : body.length < 2 ^ 63
  deriving DecidableEq, Repr

def toAsciiLowercase (s : String) : Text := Text.toAsciiLowercase s.toList

def eqIgnoreAsciiCase (s t : String) : Bool := toAsciiLowercase s == toAsciiLowercase t

namespace CachedEntry

/-- The time is in seconds. -/
def isFresh (e : CachedEntry) (now : UInt64) : Bool :=
  if e.mustRevalidate then false
  else
    match e.maxAge with
    | some s => now.toNat - e.storedAt.toNat < s.toNat
    | none => false

/-- One header of a 304 response takes the place of the stored one. -/
def refreshHeader (e : CachedEntry) (header : String × String) : CachedEntry :=
  let (k, v) := header
  if toAsciiLowercase k = "etag".toList then { e with etag := some v }
  else if toAsciiLowercase k = "last-modified".toList then { e with lastModified := some v }
  else if toAsciiLowercase k = "cache-control".toList then
    let cc := CacheControl.parse v
    { e with
      headers := e.headers.filter (fun h => !eqIgnoreAsciiCase h.1 "cache-control") ++ [(k, v)]
      maxAge := cc.maxAge.map UInt64.ofNat
      mustRevalidate := cc.noCache || cc.mustRevalidate }
  else
    match e.headers.findIdx? fun h => eqIgnoreAsciiCase h.1 k with
    | some pos => { e with headers := e.headers.modify pos fun h => (h.1, v) }
    | none => { e with headers := e.headers ++ [(k, v)] }

def refreshAfter304 (e : CachedEntry) (now : UInt64) (headers : List (String × String)) :
    CachedEntry :=
  headers.foldl refreshHeader { e with storedAt := now }

@[simp] theorem refreshHeader_body (e : CachedEntry) (h : String × String) :
    (e.refreshHeader h).body = e.body := by
  unfold refreshHeader
  dsimp only
  split_ifs
  · rfl
  · rfl
  · rfl
  · cases e.headers.findIdx? fun h' => eqIgnoreAsciiCase h'.1 h.1 <;> rfl

end CachedEntry

/-! ### The memory store -/

def maxMemEntries : ℕ := 4096

def maxMemBytes : ℕ := 256 * 1024 * 1024

abbrev Map := AList fun _ : String => CachedEntry

/-- The head of the order is the key that was not used for the longest time. -/
structure CacheStore where
  map : Map
  order : List String
  bytes : ℕ

namespace CacheStore

def new : CacheStore := ⟨∅, [], 0⟩

def len (s : CacheStore) : ℕ := s.map.entries.length

def touch (s : CacheStore) (url : String) : CacheStore :=
  if url ∈ s.order then { s with order := s.order.erase url ++ [url] } else s

def remove (s : CacheStore) (url : String) : CacheStore :=
  match s.map.lookup url with
  | some e => ⟨s.map.erase url, s.order.erase url, s.bytes - e.body.length⟩
  | none => { s with order := s.order.erase url }

/-- The store as `insert` leaves it to its loop. The old entry's place in the order goes
with it. `none` when the counter overflows. -/
def pushed (s : CacheStore) (url : String) (entry : CachedEntry) : Option CacheStore :=
  let s : CacheStore :=
    match s.map.lookup url with
    | some old => ⟨s.map.erase url, s.order.erase url, s.bytes - old.body.length⟩
    | none => s
  if s.bytes + entry.body.length < 2 ^ 64 then
    some ⟨s.map.insert url entry, s.order ++ [url], s.bytes + entry.body.length⟩
  else none

def overCap (s : CacheStore) : Prop :=
  maxMemEntries < s.len ∨ (maxMemBytes < s.bytes ∧ 1 < s.len)

instance (s : CacheStore) : Decidable s.overCap := inferInstanceAs (Decidable (_ ∨ _ ∧ _))

/-- One turn of the loop, with its victim. -/
def evictOne (s : CacheStore) : Option (String × CacheStore) :=
  if s.overCap then
    match s.order with
    | [] => none
    | victim :: order =>
      match s.map.lookup victim with
      | some e => some (victim, ⟨s.map.erase victim, order, s.bytes - e.body.length⟩)
      | none => some (victim, { s with order := order })
  else none

def evict : ℕ → CacheStore → CacheStore
  | 0, s => s
  | fuel + 1, s =>
    match s.evictOne with
    | some (_, s) => evict fuel s
    | none => s

/-- Each turn takes a key off the order. -/
def insert (s : CacheStore) (url : String) (entry : CachedEntry) : Option CacheStore :=
  (s.pushed url entry).map fun s => evict s.order.length s

end CacheStore

/-! ### The disk store -/

structure SipState where
  v0 : UInt64
  v1 : UInt64
  v2 : UInt64
  v3 : UInt64

namespace SipState

def rotl (x : UInt64) (b : UInt64) : UInt64 := x <<< b ||| x >>> (64 - b)

def round (s : SipState) : SipState :=
  let v0 := s.v0 + s.v1
  let v1 := rotl s.v1 13 ^^^ v0
  let v0 := rotl v0 32
  let v2 := s.v2 + s.v3
  let v3 := rotl s.v3 16 ^^^ v2
  let v0 := v0 + v3
  let v3 := rotl v3 21 ^^^ v0
  let v2 := v2 + v1
  let v1 := rotl v1 17 ^^^ v2
  ⟨v0, v1, rotl v2 32, v3⟩

def absorb (s : SipState) (m : UInt64) : SipState :=
  let s := round { s with v3 := s.v3 ^^^ m }
  { s with v0 := s.v0 ^^^ m }

end SipState

/-- The standard library's hasher, which is SipHash-1-3 with both keys zero. -/
def defaultHasher (message : Bytes) : UInt64 :=
  let words := (List.range (message.length / 8)).map fun i =>
    UInt64.ofNat (leNat ((message.drop (8 * i)).take 8))
  let last := UInt64.ofNat (leNat (message.drop (8 * (message.length / 8)))) |||
    UInt64.ofNat message.length <<< 56
  let s := (words ++ [last]).foldl SipState.absorb
    ⟨0x736f6d6570736575, 0x646f72616e646f6d, 0x6c7967656e657261, 0x7465646279746573⟩
  let s := (({ s with v2 := s.v2 ^^^ 0xff } : SipState).round).round.round
  s.v0 ^^^ s.v1 ^^^ s.v2 ^^^ s.v3

/-- The hash of a string takes a byte 0xff after its bytes. -/
def cacheFilename (url : String) : String :=
  let digits := Nat.toDigits 16 (defaultHasher (utf8 url ++ [0xff])).toNat
  String.ofList (List.replicate (16 - digits.length) '0' ++ digits ++ ".tbc".toList)

def wrStr (s : String) : Bytes := toLe 4 (utf8 s).length ++ utf8 s

def wrOptU64 : Option UInt64 → Bytes
  | some n => 1 :: toLe 8 n.toNat
  | none => [0]

def wrOptStr : Option String → Bytes
  | some s => 1 :: wrStr s
  | none => [0]

def wrPair (h : String × String) : Bytes := wrStr h.1 ++ wrStr h.2

def serializeEntry (e : CachedEntry) : Bytes :=
  utf8 "TBC2" ++ toLe 2 e.status.toNat ++ wrStr e.reason ++
    toLe 4 e.headers.length ++ e.headers.flatMap wrPair ++
    toLe 8 e.body.length ++ e.body ++ toLe 8 e.storedAt.toNat ++
    wrOptU64 e.maxAge ++ wrOptStr e.etag ++ wrOptStr e.lastModified ++
    toLe 4 e.vary.length ++ e.vary.flatMap wrStr ++
    toLe 4 e.varyRequestHeaders.length ++ e.varyRequestHeaders.flatMap wrPair ++
    [if e.mustRevalidate then 1 else 0]

abbrev EntryReader := Reader Unit

namespace EntryReader

/-- Text that is not UTF-8 is mended. -/
def rdStr : EntryReader String := do
  let b ← Reader.bytes
  return (fromUtf8 b).getD (String.ofList (fromUtf8Lossy b))

def rdPair : EntryReader (String × String) := do
  let k ← rdStr
  let v ← rdStr
  return (k, v)

def rdOpt {α : Type} (r : EntryReader α) : EntryReader (Option α) := do
  let tag ← Reader.uint 1
  if tag = 0 then return none
  else
    let a ← r
    return some a

def rdU64 : EntryReader UInt64 := do
  let n ← Reader.uint 8
  return UInt64.ofNat n

/-- A list under its length. -/
def rdList {α : Type} (r : EntryReader α) : EntryReader (List α) := do
  let n ← Reader.uint 4
  Reader.times n r

/-- The older format has no request headers, and its flag comes from the response's. -/
def mustRevalidateOf (headers : List (String × String)) : Bool :=
  headers.any fun (k, v) => eqIgnoreAsciiCase k "cache-control" &&
    (decide ("no-cache".toList <:+: toAsciiLowercase v) ||
      decide ("must-revalidate".toList <:+: toAsciiLowercase v))

def entry : EntryReader CachedEntry := do
  let magic ← Reader.take 4
  if magic ≠ utf8 "TBC2" ∧ magic ≠ utf8 "TBC1" then Reader.fail
  else
    let status ← Reader.uint 2
    let reason ← rdStr
    let headers ← rdList rdPair
    let blen ← Reader.uint 8
    let body ← Reader.take blen
    let storedAt ← rdU64
    let maxAge ← rdOpt rdU64
    let etag ← rdOpt rdStr
    let lastModified ← rdOpt rdStr
    let vary ← rdList rdStr
    let (varyRequestHeaders, mustRevalidate) ←
      if magic = utf8 "TBC2" then do
        let vrh ← rdList rdPair
        let mr ← Reader.uint 1
        pure (vrh, decide (mr ≠ 0))
      else pure ([], mustRevalidateOf headers)
    -- A file that was read is itself shorter than that.
    if size : body.length < 2 ^ 63 then
      return ⟨UInt16.ofNat status, reason, headers, body, storedAt, maxAge, etag, lastModified,
        vary, varyRequestHeaders, mustRevalidate, size⟩
    else Reader.fail

end EntryReader

def deserializeEntry (b : Bytes) : Option CachedEntry := (EntryReader.entry b ()).1

/-- The files by their names, when a directory is set. -/
structure HttpCache where
  inner : CacheStore
  disk : Option (String → Option Bytes)

namespace HttpCache

def withDiskDir : HttpCache := ⟨.new, some fun _ => none⟩

/-- `readable` is whether a file that is there can be read. -/
def get (c : HttpCache) (url : String) (readable : Bool) :
    Option (Option CachedEntry × HttpCache) :=
  match c.inner.map.lookup url with
  | some e => some (some e, { c with inner := c.inner.touch url })
  | none =>
    match c.disk.bind (· (cacheFilename url)) with
    | none => some (none, c)
    | some bytes =>
      if readable then
        match deserializeEntry bytes with
        | none => some (none, c)
        | some entry =>
          (c.inner.insert url entry).map fun inner => (some entry, { c with inner := inner })
      else some (none, c)

/-- `written` is whether the file could be written and moved to its place. -/
def put (c : HttpCache) (url : String) (entry : CachedEntry) (written : Bool) : Option HttpCache :=
  let disk := c.disk.map fun files =>
    if written then Function.update files (cacheFilename url) (some (serializeEntry entry))
    else files
  (c.inner.insert url entry).map fun inner => ⟨inner, disk⟩

/-- `removed` is whether the file could be removed. -/
def invalidate (c : HttpCache) (url : String) (removed : Bool) : HttpCache :=
  ⟨c.inner.remove url, c.disk.map fun files =>
    if removed then Function.update files (cacheFilename url) none else files⟩

/-- A new process finds the files. -/
def restart (c : HttpCache) : HttpCache := { c with inner := .new }

end HttpCache

end Conclave.Net.Cache
