import Conclave.Lib.Decimal
import Conclave.Net.Cache

/-! What is stored of a response, and what a 304 response makes of it. An entry is consistent
when its headers, validators and lifetime are those of the body it holds. -/

namespace Conclave.Net.Cache

open Lib

variable {e e' : CachedEntry} {headers : List (String × String)} {name : Text}

/-- The values of the headers of a name, in order. -/
def values (name : Text) (headers : List (String × String)) : List String :=
  (headers.filter fun h => toAsciiLowercase h.1 = name).map Prod.snd

/-! ### Storing -/

/-- What the loop over the headers of a response finds. -/
structure Found where
  ccValues : List String
  etag : Option String
  lastModified : Option String
  vary : List String

def Found.header (found : Found) (header : String × String) : Found :=
  let (k, v) := header
  if toAsciiLowercase k = "cache-control".toList then
    { found with ccValues := found.ccValues ++ [v] }
  else if toAsciiLowercase k = "etag".toList then { found with etag := some v }
  else if toAsciiLowercase k = "last-modified".toList then { found with lastModified := some v }
  else if toAsciiLowercase k = "vary".toList then
    { found with vary := found.vary ++
        (v.toList.splitOn ',').map fun s => String.ofList (Text.trim s) }
  else found

def found (headers : List (String × String)) : Found :=
  headers.foldl Found.header ⟨[], none, none, []⟩

/-- Lines of one header as a single one. -/
def joined (lines : List String) : String := ", ".intercalate lines

/-- The lifetime in seconds. -/
def CacheControl.lifetime (cc : CacheControl) : Option UInt64 := cc.maxAge.map UInt64.ofNat

/-- The entry is asked for again before every use. -/
def CacheControl.revalidates (cc : CacheControl) : Bool := cc.noCache || cc.mustRevalidate

/-- The stored headers describe the decoded body. -/
def normalized (headers : List (String × String)) (body : Bytes) : List (String × String) :=
  (headers.filter fun h =>
    !eqIgnoreAsciiCase h.1 "content-encoding" && !eqIgnoreAsciiCase h.1 "transfer-encoding" &&
      !eqIgnoreAsciiCase h.1 "content-length") ++ [("Content-Length", toString body.length)]

def buildEntryIfCacheable (status : UInt16) (reason : String) (headers : List (String × String))
    (body : Bytes) (size : body.length < 2 ^ 63) (requestHeaders : List (String × String))
    (now : UInt64) : Option CachedEntry :=
  if status = 206 then none
  else
    let found := found headers
    let cc := CacheControl.parse (joined found.ccValues)
    if cc.noStore then none
    else if status ∉ [200, 203, 204, 300, 301, 308, 404, 405, 410, 414, 501] ∧
        found.ccValues = [] then none
    else if "*" ∈ found.vary then none
    else some
      { status := status
        reason := reason
        headers := normalized headers body
        body := body
        storedAt := now
        maxAge := cc.lifetime
        etag := found.etag
        lastModified := found.lastModified
        vary := found.vary
        varyRequestHeaders := found.vary.map fun field => (field,
          ((requestHeaders.find? fun h => eqIgnoreAsciiCase h.1 field).map Prod.snd).getD "")
        mustRevalidate := cc.revalidates
        size := size }

/-! ### Values -/

@[simp] theorem values_nil : values name [] = [] := rfl

theorem values_cons (h : String × String) : values name (h :: headers) =
    if toAsciiLowercase h.1 = name then h.2 :: values name headers else values name headers := by
  rw [values, List.filter_cons]
  split_ifs with hname hname' hname' <;> simp_all [values]

theorem values_append (front back : List (String × String)) :
    values name (front ++ back) = values name front ++ values name back := by
  rw [values, List.filter_append, List.map_append]
  rfl

theorem values_filter {p : String × String → Bool}
    (hp : ∀ h, toAsciiLowercase h.1 = name → p h = true) :
    values name (headers.filter p) = values name headers := by
  rw [values, List.filter_filter, values]
  congr 1
  apply List.filter_congr
  intro h _
  by_cases hname : toAsciiLowercase h.1 = name
  · simp [hname, hp h hname]
  · simp [hname]

/-- The first header of a name gets another value, and no other header does. -/
theorem values_modify {k v : String} {pos : ℕ}
    (hpos : headers.findIdx? (fun h => eqIgnoreAsciiCase h.1 k) = some pos) :
    (toAsciiLowercase k = name → values name (headers.modify pos fun h => (h.1, v)) =
      v :: (values name headers).tail) ∧
    (toAsciiLowercase k ≠ name → values name (headers.modify pos fun h => (h.1, v)) =
      values name headers) := by
  induction headers generalizing pos with
  | nil => cases hpos
  | cons h headers ih =>
    rw [List.findIdx?_cons] at hpos
    by_cases hfirst : eqIgnoreAsciiCase h.1 k
    · rw [if_pos hfirst] at hpos
      obtain rfl := Option.some.inj hpos
      have heq : toAsciiLowercase h.1 = toAsciiLowercase k := by
        simpa [eqIgnoreAsciiCase] using hfirst
      rw [List.modify_zero_cons, values_cons, values_cons, heq]
      constructor
      · intro hname
        rw [if_pos hname, if_pos hname, List.tail_cons]
      · intro hname
        rw [if_neg hname, if_neg hname]
    · rw [if_neg hfirst] at hpos
      obtain ⟨i, hi, rfl⟩ := Option.map_eq_some_iff.mp hpos
      have hne : toAsciiLowercase h.1 ≠ toAsciiLowercase k := by
        simpa [eqIgnoreAsciiCase] using hfirst
      obtain ⟨hsame, hother⟩ := ih hi
      rw [List.modify_succ_cons, values_cons, values_cons]
      constructor
      · rintro rfl
        rw [if_neg hne, if_neg hne, hsame rfl]
      · intro hname
        rw [hother hname]

theorem values_eq_nil {k : String}
    (hnone : headers.findIdx? (fun h => eqIgnoreAsciiCase h.1 k) = none) :
    values (toAsciiLowercase k) headers = [] := by
  rw [values, List.map_eq_nil_iff, List.filter_eq_nil_iff]
  intro h hmem hname
  have hnot := List.findIdx?_eq_none_iff.mp hnone h hmem
  exact absurd (of_decide_eq_true hname) (by simpa [eqIgnoreAsciiCase] using hnot)

theorem eqIgnoreAsciiCase_eq {t : String} (ht : toAsciiLowercase t = name) (s : String) :
    eqIgnoreAsciiCase s t = decide (toAsciiLowercase s = name) := by
  rw [eqIgnoreAsciiCase, ht]
  exact Bool.beq_eq_decide_eq _ _

/-- The names of the headers that are not stored as they come. -/
def dropped : List Text :=
  ["content-encoding".toList, "transfer-encoding".toList, "content-length".toList]

theorem normalized_eq (headers : List (String × String)) (body : Bytes) :
    normalized headers body = (headers.filter fun h => toAsciiLowercase h.1 ∉ dropped) ++
      [("Content-Length", toString body.length)] := by
  have hcoding := @eqIgnoreAsciiCase_eq "content-encoding".toList "content-encoding" (by decide)
  have htransfer := @eqIgnoreAsciiCase_eq "transfer-encoding".toList "transfer-encoding" (by decide)
  have hlength := @eqIgnoreAsciiCase_eq "content-length".toList "content-length" (by decide)
  rw [normalized]
  congr 2
  funext h
  rw [hcoding, htransfer, hlength, Bool.eq_iff_iff]
  simp only [Bool.and_eq_true, Bool.not_eq_true', decide_eq_false_iff_not, decide_eq_true_eq, dropped,
    List.mem_cons, List.not_mem_nil, or_false, not_or, and_assoc]

theorem values_length (v : String) :
    values name [("Content-Length", v)] = if name = "content-length".toList then [v] else [] := by
  have hlower : toAsciiLowercase "Content-Length" = "content-length".toList := by decide
  rw [values_cons, values_nil, hlower]
  split_ifs with h h' h'
  · rfl
  · exact absurd h.symm h'
  · exact absurd h'.symm h
  · rfl

theorem values_normalized (body : Bytes) : values name (normalized headers body) =
    if name = "content-length".toList then [toString body.length]
    else if name ∈ dropped then [] else values name headers := by
  rw [normalized_eq, values_append, values_length]
  by_cases hdropped : name ∈ dropped
  · have hnone : values name (headers.filter fun h => toAsciiLowercase h.1 ∉ dropped) = [] := by
      rw [values, List.filter_filter, List.map_eq_nil_iff, List.filter_eq_nil_iff]
      intro h _ hboth
      rw [Bool.and_eq_true, decide_eq_true_eq, decide_eq_true_eq] at hboth
      exact hboth.2 (hboth.1.symm ▸ hdropped)
    rw [hnone, if_pos hdropped, List.nil_append]
  · have hlength : name ≠ "content-length".toList := by
      rintro rfl
      exact hdropped (by decide)
    rw [if_neg hlength, if_neg hlength, if_neg hdropped, List.append_nil, values_filter]
    rintro h rfl
    exact decide_eq_true hdropped

/-- What depends on the headers of one name only goes through the values of that name. -/
theorem foldl_headers {σ β : Type} {step : σ → String × String → σ} (get : σ → β)
    (f : β → String → β) (hstep : ∀ s h, get (step s h) =
      if toAsciiLowercase h.1 = name then f (get s) h.2 else get s)
    (headers : List (String × String)) (s : σ) :
    get (headers.foldl step s) = (values name headers).foldl f (get s) := by
  induction headers generalizing s with
  | nil => rfl
  | cons h headers ih =>
    rw [List.foldl_cons, ih, hstep, values_cons]
    split_ifs
    · rfl
    · rfl

theorem foldl_last {β : Type} (f : String → β) (vs : List String) (b : β) :
    vs.foldl (fun _ v => f v) b = (vs.getLast?.map f).getD b := by
  induction vs using List.reverseRecOn with
  | nil => rfl
  | append_singleton vs v _ => simp

/-! ### What is found -/

theorem found_ccValues (headers : List (String × String)) :
    (found headers).ccValues = values "cache-control".toList headers := by
  have happend : ∀ vs front : List String, vs.foldl (fun l v => l ++ [v]) front = front ++ vs := by
    intro vs
    induction vs with
    | nil => simp
    | cons v vs ih => simp [ih]
  rw [found, foldl_headers Found.ccValues (fun l v => l ++ [v]), happend, List.nil_append]
  intro found h
  unfold Found.header
  dsimp only
  split_ifs <;> rfl

theorem found_etag (headers : List (String × String)) :
    (found headers).etag = (values "etag".toList headers).getLast? := by
  rw [found, foldl_headers Found.etag (fun _ v => some v), foldl_last]
  · cases (values "etag".toList headers).getLast? <;> rfl
  intro found h
  unfold Found.header
  dsimp only
  split_ifs with h₁ h₂
  · rw [h₁] at h₂
    exact absurd h₂ (by decide)
  all_goals rfl

theorem found_lastModified (headers : List (String × String)) :
    (found headers).lastModified = (values "last-modified".toList headers).getLast? := by
  rw [found, foldl_headers Found.lastModified (fun _ v => some v), foldl_last]
  · cases (values "last-modified".toList headers).getLast? <;> rfl
  intro found h
  unfold Found.header
  dsimp only
  split_ifs with h₁ h₂ h₃ h₄
  · rw [h₁] at h₂
    exact absurd h₂ (by decide)
  · rfl
  · rw [h₃] at h₄
    exact absurd h₄ (by decide)
  all_goals rfl

/-! ### A 304 response -/

namespace CachedEntry

/-- The names that are not looked up among the stored headers. -/
def special : List Text := ["etag".toList, "last-modified".toList, "cache-control".toList]

theorem values_refreshHeader (hname : name ∉ special) (e : CachedEntry) (h : String × String) :
    values name (e.refreshHeader h).headers = if toAsciiLowercase h.1 = name
      then h.2 :: (values name e.headers).tail else values name e.headers := by
  simp only [special, List.mem_cons, List.not_mem_nil, or_false, not_or] at hname
  obtain ⟨hetag, hmodified, hcontrol⟩ := hname
  obtain ⟨k, v⟩ := h
  unfold refreshHeader
  dsimp only
  by_cases h₁ : toAsciiLowercase k = "etag".toList
  · rw [if_pos h₁, if_neg fun h => hetag (h.symm.trans h₁)]
  by_cases h₂ : toAsciiLowercase k = "last-modified".toList
  · rw [if_neg h₁, if_pos h₂, if_neg fun h => hmodified (h.symm.trans h₂)]
  by_cases h₃ : toAsciiLowercase k = "cache-control".toList
  · rw [if_neg h₁, if_neg h₂, if_pos h₃, if_neg fun h => hcontrol (h.symm.trans h₃)]
    dsimp only
    rw [values_append, values_cons, if_neg fun h => hcontrol (h.symm.trans h₃), values_nil,
      List.append_nil, values_filter]
    rintro h rfl
    rw [@eqIgnoreAsciiCase_eq "cache-control".toList "cache-control" (by decide),
      decide_eq_false hcontrol]
    rfl
  · rw [if_neg h₁, if_neg h₂, if_neg h₃]
    cases hpos : e.headers.findIdx? fun h => eqIgnoreAsciiCase h.1 k with
    | some pos =>
      obtain ⟨hsame, hother⟩ := @values_modify e.headers name k v pos hpos
      dsimp only
      split_ifs with hk
      · exact hsame hk
      · exact hother hk
    | none =>
      dsimp only
      rw [values_append, values_cons, values_nil]
      split_ifs with hk
      · rw [← hk, values_eq_nil hpos]
        rfl
      · rw [List.append_nil]

/-- The validators of an entry are not looked up, and its list keeps its own. -/
theorem validators_refreshHeader (hname : name = "etag".toList ∨ name = "last-modified".toList)
    (e : CachedEntry) (h : String × String) :
    values name (e.refreshHeader h).headers = values name e.headers := by
  have hcontrol : name ≠ "cache-control".toList := by
    rcases hname with rfl | rfl <;> decide
  obtain ⟨k, v⟩ := h
  unfold refreshHeader
  dsimp only
  by_cases h₁ : toAsciiLowercase k = "etag".toList
  · rw [if_pos h₁]
  by_cases h₂ : toAsciiLowercase k = "last-modified".toList
  · rw [if_neg h₁, if_pos h₂]
  have hk : toAsciiLowercase k ≠ name := by
    rcases hname with rfl | rfl
    · exact h₁
    · exact h₂
  by_cases h₃ : toAsciiLowercase k = "cache-control".toList
  · rw [if_neg h₁, if_neg h₂, if_pos h₃]
    dsimp only
    rw [values_append, values_cons, if_neg hk, values_nil, List.append_nil, values_filter]
    rintro h rfl
    rw [@eqIgnoreAsciiCase_eq "cache-control".toList "cache-control" (by decide),
      decide_eq_false hcontrol]
    rfl
  · rw [if_neg h₁, if_neg h₂, if_neg h₃]
    cases hpos : e.headers.findIdx? fun h => eqIgnoreAsciiCase h.1 k with
    | some pos => exact (@values_modify e.headers name k v pos hpos).2 hk
    | none =>
      dsimp only
      rw [values_append, values_cons, if_neg hk, values_nil, List.append_nil]

/-- What no header changes. -/
theorem foldl_refreshHeader_const {β : Type} (get : CachedEntry → β)
    (hstep : ∀ e h, get (e.refreshHeader h) = get e) (headers : List (String × String))
    (e : CachedEntry) : get (headers.foldl refreshHeader e) = get e := by
  induction headers generalizing e with
  | nil => rfl
  | cons h headers ih => rw [List.foldl_cons, ih, hstep]

theorem foldl_cons_tail (vs : List String) (old : List String) :
    vs.foldl (fun old v => v :: old.tail) old =
      (vs.getLast?.map fun v => v :: old.tail).getD old := by
  induction vs using List.reverseRecOn with
  | nil => rfl
  | append_singleton vs v ih =>
    rw [List.foldl_append, ih, List.foldl_cons, List.foldl_nil]
    cases vs.getLast? <;> simp

variable (now : UInt64) (headers304 : List (String × String))

theorem refresh_body (e : CachedEntry) : (e.refreshAfter304 now headers304).body = e.body :=
  foldl_refreshHeader_const CachedEntry.body refreshHeader_body headers304 _

theorem refresh_values (hname : name ∉ special) (e : CachedEntry) :
    values name (e.refreshAfter304 now headers304).headers =
      ((values name headers304).getLast?.map fun v => v :: (values name e.headers).tail).getD
        (values name e.headers) := by
  rw [← foldl_cons_tail]
  exact foldl_headers (fun e : CachedEntry => values name e.headers) (fun old v => v :: old.tail)
    (values_refreshHeader hname) headers304 _

theorem refresh_validators (hname : name = "etag".toList ∨ name = "last-modified".toList)
    (e : CachedEntry) :
    values name (e.refreshAfter304 now headers304).headers = values name e.headers :=
  foldl_refreshHeader_const (fun e => values name e.headers) (validators_refreshHeader hname)
    headers304 _

theorem refresh_etag (e : CachedEntry) : (e.refreshAfter304 now headers304).etag =
    ((values "etag".toList headers304).getLast?.map some).getD e.etag := by
  rw [← foldl_last]
  refine foldl_headers CachedEntry.etag (fun _ v => some v) (fun e h => ?_) headers304 _
  unfold refreshHeader
  dsimp only
  split_ifs
  · rfl
  · rfl
  · rfl
  · cases e.headers.findIdx? fun h' => eqIgnoreAsciiCase h'.1 h.1 <;> rfl

theorem refresh_lastModified (e : CachedEntry) : (e.refreshAfter304 now headers304).lastModified =
    ((values "last-modified".toList headers304).getLast?.map some).getD e.lastModified := by
  rw [← foldl_last]
  refine foldl_headers CachedEntry.lastModified (fun _ v => some v) (fun e h => ?_) headers304 _
  unfold refreshHeader
  dsimp only
  split_ifs with h₁ h₂
  · rw [h₁] at h₂
    exact absurd h₂ (by decide)
  · rfl
  · rfl
  · rfl
  · cases e.headers.findIdx? fun h' => eqIgnoreAsciiCase h'.1 h.1 <;> rfl

theorem refresh_maxAge (e : CachedEntry) : (e.refreshAfter304 now headers304).maxAge =
    ((values "cache-control".toList headers304).getLast?.map fun v =>
      (CacheControl.parse v).lifetime).getD e.maxAge := by
  rw [← foldl_last]
  refine foldl_headers CachedEntry.maxAge (fun _ v => (CacheControl.parse v).lifetime)
    (fun e h => ?_) headers304 _
  unfold refreshHeader
  dsimp only
  split_ifs with h₁ h₂ h₃ h₄
  · rw [h₁] at h₂
    exact absurd h₂ (by decide)
  · rfl
  · rw [h₃] at h₄
    exact absurd h₄ (by decide)
  · rfl
  · rfl
  · cases e.headers.findIdx? fun h' => eqIgnoreAsciiCase h'.1 h.1 <;> rfl

theorem refresh_mustRevalidate (e : CachedEntry) :
    (e.refreshAfter304 now headers304).mustRevalidate =
      ((values "cache-control".toList headers304).getLast?.map fun v =>
        (CacheControl.parse v).revalidates).getD e.mustRevalidate := by
  rw [← foldl_last]
  refine foldl_headers CachedEntry.mustRevalidate (fun _ v => (CacheControl.parse v).revalidates)
    (fun e h => ?_) headers304 _
  unfold refreshHeader
  dsimp only
  split_ifs with h₁ h₂ h₃ h₄
  · rw [h₁] at h₂
    exact absurd h₂ (by decide)
  · rfl
  · rw [h₃] at h₄
    exact absurd h₄ (by decide)
  · rfl
  · rfl
  · cases e.headers.findIdx? fun h' => eqIgnoreAsciiCase h'.1 h.1 <;> rfl

end CachedEntry

/-! ### Consistency -/

/-- The lines on caching that hold after a 304 response: its own if it has any. -/
def ccLines (stored : CachedEntry) (headers304 : List (String × String)) : List String :=
  if values "cache-control".toList headers304 = [] then
    values "cache-control".toList stored.headers
  else values "cache-control".toList headers304

/-- The entry keeps its body; its headers describe that body, its validators are those of its
headers, and its lifetime is that of the lines on caching taken together, none at all where they
say that it is asked for again. -/
structure Consistent (stored : CachedEntry) (headers304 : List (String × String))
    (e : CachedEntry) : Prop where
  body : e.body = stored.body
  coding : values "content-encoding".toList e.headers = [] ∧
    values "transfer-encoding".toList e.headers = []
  length : ∀ v ∈ values "content-length".toList e.headers,
    Text.parseUnsigned 64 v.toList = some e.body.length
  etag : e.etag = (values "etag".toList e.headers).getLast?
  lastModified : e.lastModified = (values "last-modified".toList e.headers).getLast?
  lifetime : e.maxAge = (CacheControl.parse (joined (ccLines stored headers304))).lifetime
  revalidates : e.mustRevalidate =
    (CacheControl.parse (joined (ccLines stored headers304))).revalidates

/-- A consistent entry is fresh for as long as one that was stored of a response with its lines. -/
theorem Consistent.isFresh_eq {stored e' : CachedEntry} {headers304 : List (String × String)}
    (h : Consistent stored headers304 e)
    (hage : e'.maxAge = (CacheControl.parse (joined (ccLines stored headers304))).lifetime)
    (hagain : e'.mustRevalidate =
      (CacheControl.parse (joined (ccLines stored headers304))).revalidates)
    (htime : e'.storedAt = e.storedAt) (now : UInt64) : e.isFresh now = e'.isFresh now := by
  rw [CachedEntry.isFresh, CachedEntry.isFresh, h.lifetime, h.revalidates, hage, hagain, htime]

/-- A 304 response that says nothing about the coding or another length of the body, has no
other validators, and whose last line on caching has the lifetime of all of them, and asks for
the entry again where they do. -/
structure Harmless (stored : CachedEntry) (headers304 : List (String × String)) : Prop where
  coding : values "content-encoding".toList headers304 = [] ∧
    values "transfer-encoding".toList headers304 = []
  length : ∀ v, (values "content-length".toList headers304).getLast? = some v →
    Text.parseUnsigned 64 v.toList = some stored.body.length
  etag : ∀ v, (values "etag".toList headers304).getLast? = some v → stored.etag = some v
  lastModified : ∀ v, (values "last-modified".toList headers304).getLast? = some v →
    stored.lastModified = some v
  lifetime : ∀ v, (values "cache-control".toList headers304).getLast? = some v →
    (CacheControl.parse (joined (values "cache-control".toList headers304))).lifetime =
      (CacheControl.parse v).lifetime
  revalidates : ∀ v, (values "cache-control".toList headers304).getLast? = some v →
    (CacheControl.parse (joined (values "cache-control".toList headers304))).revalidates =
      (CacheControl.parse v).revalidates

/-- An entry as it is stored. -/
structure Stored (e : CachedEntry) : Prop where
  coding : values "content-encoding".toList e.headers = [] ∧
    values "transfer-encoding".toList e.headers = []
  length : values "content-length".toList e.headers = [toString e.body.length]
  etag : e.etag = (values "etag".toList e.headers).getLast?
  lastModified : e.lastModified = (values "last-modified".toList e.headers).getLast?
  lifetime : e.maxAge =
    (CacheControl.parse (joined (values "cache-control".toList e.headers))).lifetime
  revalidates : e.mustRevalidate =
    (CacheControl.parse (joined (values "cache-control".toList e.headers))).revalidates

theorem buildEntry_stored {status : UInt16} {reason : String} {body : Bytes}
    {size : body.length < 2 ^ 63} {requestHeaders : List (String × String)} {now : UInt64}
    (h : buildEntryIfCacheable status reason headers body size requestHeaders now = some e) :
    Stored e := by
  unfold buildEntryIfCacheable at h
  split_ifs at h
  dsimp only at h
  split_ifs at h
  obtain rfl := Option.some.inj h
  have hkept : ∀ name, name ∉ dropped → values name (normalized headers body) = values name headers := by
    intro name hname
    rw [values_normalized, if_neg, if_neg hname]
    rintro rfl
    exact hname (by decide)
  constructor
  · dsimp only
    rw [values_normalized, values_normalized, if_neg (by decide), if_pos (by decide),
      if_neg (by decide), if_pos (by decide)]
    exact ⟨rfl, rfl⟩
  · dsimp only
    rw [values_normalized, if_pos rfl]
  · dsimp only
    rw [hkept _ (by decide), found_etag]
  · dsimp only
    rw [hkept _ (by decide), found_lastModified]
  · dsimp only
    rw [hkept _ (by decide), found_ccValues]
  · dsimp only
    rw [hkept _ (by decide), found_ccValues]

theorem getLast?_map_getD_eq {vs : List String} {o : Option String} :
    ((vs.getLast?.map some).getD o = o) ↔ ∀ v, vs.getLast? = some v → o = some v := by
  cases vs.getLast? with
  | none => simp
  | some v =>
    constructor
    · rintro h w hw
      rw [← Option.some.inj hw]
      exact h.symm
    · exact fun h => (h v rfl).symm

/-- What the last line on caching gives is what all of them give, or what was there before when
there is none. -/
theorem lines_iff {β : Type} (f : CacheControl → β) {old : β}
    (hold : old = f (CacheControl.parse (joined (values "cache-control".toList e.headers))))
    (headers304 : List (String × String)) :
    ((values "cache-control".toList headers304).getLast?.map fun v =>
        f (CacheControl.parse v)).getD old =
        f (CacheControl.parse (joined (ccLines e headers304))) ↔
      ∀ v, (values "cache-control".toList headers304).getLast? = some v →
        f (CacheControl.parse (joined (values "cache-control".toList headers304))) =
          f (CacheControl.parse v) := by
  rw [ccLines]
  rcases List.eq_nil_or_concat (values "cache-control".toList headers304) with
    hvs | ⟨front, v, hvs⟩
  · rw [hvs, if_pos rfl, hold]
    simp
  · rw [hvs, if_neg (by simp)]
    simp [eq_comm]

/-- A refreshed entry is consistent exactly when the 304 response is harmless. -/
theorem refresh_consistent (hstored : Stored e) (now : UInt64)
    (headers304 : List (String × String)) :
    Consistent e headers304 (e.refreshAfter304 now headers304) ↔ Harmless e headers304 := by
  have hcoding : ∀ name, name ∉ CachedEntry.special → values name e.headers = [] →
      (values name (e.refreshAfter304 now headers304).headers = [] ↔
        values name headers304 = []) := by
    intro name hname hnil
    rw [CachedEntry.refresh_values now headers304 hname, hnil]
    rcases List.eq_nil_or_concat (values name headers304) with hvs | ⟨front, v, hvs⟩
    · simp [hvs]
    · simp [hvs]
  have hlength : values "content-length".toList (e.refreshAfter304 now headers304).headers =
      [(values "content-length".toList headers304).getLast?.getD (toString e.body.length)] := by
    rw [CachedEntry.refresh_values now headers304 (by decide), hstored.length]
    cases (values "content-length".toList headers304).getLast? <;> rfl
  have hbody := CachedEntry.refresh_body now headers304 e
  have hsize : Text.parseUnsigned 64 (toString e.body.length).toList = some e.body.length :=
    Text.parseUnsigned_repr (e.size.trans (by norm_num))
  have hlen : (∀ v ∈ values "content-length".toList (e.refreshAfter304 now headers304).headers,
      Text.parseUnsigned 64 v.toList = some (e.refreshAfter304 now headers304).body.length) ↔
      ∀ v, (values "content-length".toList headers304).getLast? = some v →
        Text.parseUnsigned 64 v.toList = some e.body.length := by
    rw [hlength, hbody]
    cases (values "content-length".toList headers304).getLast? with
    | none => simpa using hsize
    | some v => simp
  have hetag : (e.refreshAfter304 now headers304).etag =
      (values "etag".toList (e.refreshAfter304 now headers304).headers).getLast? ↔
      ∀ v, (values "etag".toList headers304).getLast? = some v → e.etag = some v := by
    rw [CachedEntry.refresh_validators now headers304 (.inl rfl), ← hstored.etag,
      CachedEntry.refresh_etag, getLast?_map_getD_eq]
  have hmodified : (e.refreshAfter304 now headers304).lastModified =
      (values "last-modified".toList (e.refreshAfter304 now headers304).headers).getLast? ↔
      ∀ v, (values "last-modified".toList headers304).getLast? = some v →
        e.lastModified = some v := by
    rw [CachedEntry.refresh_validators now headers304 (.inr rfl), ← hstored.lastModified,
      CachedEntry.refresh_lastModified, getLast?_map_getD_eq]
  have hlifetime := lines_iff CacheControl.lifetime hstored.lifetime headers304
  have hrevalidates := lines_iff CacheControl.revalidates hstored.revalidates headers304
  rw [← CachedEntry.refresh_maxAge now] at hlifetime
  rw [← CachedEntry.refresh_mustRevalidate now] at hrevalidates
  constructor
  · intro h
    exact ⟨⟨(hcoding _ (by decide) hstored.coding.1).mp h.coding.1,
      (hcoding _ (by decide) hstored.coding.2).mp h.coding.2⟩, hlen.mp h.length, hetag.mp h.etag,
      hmodified.mp h.lastModified, hlifetime.mp h.lifetime, hrevalidates.mp h.revalidates⟩
  · intro h
    exact ⟨hbody, ⟨(hcoding _ (by decide) hstored.coding.1).mpr h.coding.1,
      (hcoding _ (by decide) hstored.coding.2).mpr h.coding.2⟩, hlen.mpr h.length,
      hetag.mpr h.etag, hmodified.mpr h.lastModified, hlifetime.mpr h.lifetime,
      hrevalidates.mpr h.revalidates⟩

/-- An entry that was stored of a response is consistent after a 304 response exactly when
that response is harmless. -/
theorem refresh_after_304 (status : UInt16) (reason : String) (headers : List (String × String))
    (body : Bytes) (size : body.length < 2 ^ 63) (requestHeaders : List (String × String))
    (stored refreshed : UInt64) (e : CachedEntry)
    (h : buildEntryIfCacheable status reason headers body size requestHeaders stored = some e)
    (headers304 : List (String × String)) :
    Consistent e headers304 (e.refreshAfter304 refreshed headers304) ↔ Harmless e headers304 :=
  refresh_consistent (buildEntry_stored h) refreshed headers304

/-- A response with a validator and two lines on caching, in a coding, and its 304. -/
def sampleHeaders : List (String × String) :=
  [("ETag", "\"a\""), ("Content-Encoding", "gzip"), ("Cache-Control", "max-age=60"),
    ("Cache-Control", "public")]

def sample304 : List (String × String) :=
  [("ETag", "\"a\""), ("Content-Length", "3"), ("Cache-Control", "public, max-age=120")]

theorem refresh_after_304_sample : ∃ e,
    buildEntryIfCacheable 200 "OK" sampleHeaders [1, 2, 3] (by decide) [] 0 = some e ∧
      Consistent e sample304 (e.refreshAfter304 100 sample304) := by
  have hentry : (buildEntryIfCacheable 200 "OK" sampleHeaders [1, 2, 3] (by decide) [] 0).map
      (fun e => (e.body, e.etag)) = some ([1, 2, 3], some "\"a\"") := by decide +kernel
  obtain ⟨e, he, hboth⟩ := Option.map_eq_some_iff.mp hentry
  obtain ⟨hbody, hetag⟩ := Prod.mk.inj hboth
  have hlength : (values "content-length".toList sample304).getLast? = some "3" := by decide +kernel
  have hvalidator : (values "etag".toList sample304).getLast? = some "\"a\"" := by decide +kernel
  have hmodified : (values "last-modified".toList sample304).getLast? = none := by decide +kernel
  have hlines : values "cache-control".toList sample304 = ["public, max-age=120"] := by
    decide +kernel
  refine ⟨e, he, (refresh_after_304 200 "OK" sampleHeaders [1, 2, 3] (by decide) [] 0 100 e he
    sample304).mpr ⟨⟨by decide +kernel, by decide +kernel⟩, fun v hv => ?_, fun v hv => ?_,
    fun v hv => ?_, fun v hv => ?_, fun v hv => ?_⟩⟩
  · obtain rfl := Option.some.inj (hlength.symm.trans hv)
    rw [hbody]
    decide +kernel
  · exact hetag.trans (hvalidator.symm.trans hv)
  · cases hmodified.symm.trans hv
  · rw [hlines] at hv ⊢
    obtain rfl := Option.some.inj hv
    rfl
  · rw [hlines] at hv ⊢
    obtain rfl := Option.some.inj hv
    rfl

/-- A 304 response that names the coding of the body on the wire. -/
theorem refresh_after_304_coded : ¬ ∀ status reason headers body size requestHeaders stored
    refreshed e, buildEntryIfCacheable status reason headers body size requestHeaders stored = some e →
      ∀ headers304, Consistent e headers304 (e.refreshAfter304 refreshed headers304) := by
  intro hall
  have hbuild : buildEntryIfCacheable 200 "OK" [] [] (by decide) [] 0 = some _ := rfl
  have hconsistent := hall 200 "OK" [] [] _ [] 0 1 _ hbuild [("Content-Encoding", "gzip")]
  have hcoding := ((refresh_consistent (buildEntry_stored hbuild) 1 _).mp hconsistent).coding.1
  exact absurd hcoding (by decide)

end Conclave.Net.Cache
