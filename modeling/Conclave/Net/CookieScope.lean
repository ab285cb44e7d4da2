import Conclave.Net.CookiePartitions

/-! The scope of cookies over whole runs of the jar: who may set a cookie for whom, and
where it is sent. -/

namespace Conclave.Net.Cookies

open Lib

variable {p : Platform} {psl : Psl} {store store' : CookieStore} {now : ℤ} {r : Request} {b : Builder}
  {c e : StoredCookie} {o : Origin} {host domain path cookiePath name val : Text} {a : Attributes}
  {clock : Clock} {value : Text}

/-! ### Matching -/

/-- Four decimal numbers of a byte, or an address in brackets. -/
def IsIpAddress (host : Text) : Prop :=
  host.head? = some '[' ∨ (host.splitOn '.').length = 4 ∧
    ∀ part ∈ host.splitOn '.', (Text.parseUnsigned 8 part).isSome ∧ part.head? ≠ some '+'

instance (host : Text) : Decidable (IsIpAddress host) := inferInstanceAs (Decidable (_ ∨ _ ∧ _))

/-- The host is the domain, or a name under it. -/
def DomainMatch (host domain : Text) : Prop :=
  host = domain ∨ ('.' :: domain <:+ host ∧ ¬ IsIpAddress host)

def PathMatch (path cookiePath : Text) : Prop :=
  path = cookiePath ∨ cookiePath <+: path ∧
    (cookiePath.getLast? = some '/' ∨ cookiePath ++ ['/'] <+: path)

theorem domainMatches_iff {hostOnly : Bool} :
    domainMatches host domain hostOnly = true ↔
      host = domain ∨ hostOnly = false ∧ '.' :: domain <:+ host := by
  unfold domainMatches
  by_cases heq : host = domain
  · simp [heq]
  rw [if_neg heq]
  cases hostOnly with
  | true => simp [heq]
  | false =>
    simp only [Bool.false_eq_true, if_false, Bool.and_eq_true, decide_eq_true_eq, beq_iff_eq,
      heq, false_or, true_and]
    constructor
    · rintro ⟨⟨hlt, front, rfl⟩, hdot⟩
      rw [List.length_append] at hlt hdot
      have hpos : front ≠ [] := by
        rintro rfl
        simp at hlt
      have hindex : front.length + domain.length - domain.length - 1 = front.length - 1 := by omega
      rw [hindex, List.getElem?_append_left (by
        have := List.length_pos_iff.mpr hpos
        omega), ← List.getLast?_eq_getElem?] at hdot
      obtain ⟨init, rfl⟩ := List.getLast?_eq_some_iff.mp hdot
      exact ⟨init, by simp⟩
    · rintro ⟨front, rfl⟩
      refine ⟨⟨by simp; omega, front ++ ['.'], by simp⟩, ?_⟩
      have hindex : (front ++ '.' :: domain).length - domain.length - 1 = front.length := by
        simp only [List.length_append, List.length_cons]
        omega
      rw [hindex, List.getElem?_append_right le_rfl, Nat.sub_self]
      rfl

theorem pathMatches_iff : pathMatches path cookiePath = true ↔ PathMatch path cookiePath := by
  unfold pathMatches PathMatch
  by_cases heq : path = cookiePath
  · simp [heq]
  rw [if_neg heq]
  by_cases hpre : cookiePath <+: path
  · obtain ⟨rest, rfl⟩ := hpre
    simp only [List.prefix_append, not_true_eq_false, if_false, Bool.or_eq_true, beq_iff_eq, heq,
      false_or, true_and]
    refine or_congr Iff.rfl ?_
    rw [List.getElem?_append_right le_rfl, Nat.sub_self, List.prefix_append_right_inj]
    cases rest with
    | nil => simp
    | cons d rest =>
      rw [List.getElem?_cons_zero, Option.some.injEq, List.cons_prefix_cons]
      exact ⟨fun h => ⟨h.symm, List.nil_prefix⟩, fun h => h.1.symm⟩
  · simp [hpre, heq]

/-! ### Reading a header -/

/-- The dates that are tried are read without an overflow. -/
def DatesFit (p : Platform) : List (Option (Option Civil)) → Prop
  | [] => True
  | none :: _ => False
  | some none :: dates => DatesFit p dates
  | some (some d) :: dates => if d.valid then d.inRange p = true else DatesFit p dates

theorem firstDate_of_fit {dates : List (Option (Option Civil))} (h : DatesFit p dates) :
    ∃ t, firstDate p dates = some t := by
  induction dates with
  | nil => exact ⟨_, rfl⟩
  | cons d dates ih =>
    match d, h with
    | some none, h => exact ih h
    | some (some d), h =>
      unfold DatesFit at h
      unfold firstDate Civil.toSystemTime
      split_ifs at h with hvalid
      · rw [if_neg (not_not.mpr hvalid), if_pos h]
        exact ⟨_, rfl⟩
      · rw [if_pos hvalid]
        exact ih h

/-- The dates of an `Expires` attribute fit. -/
def AttributeFits (p : Platform) (attr : Text) : Prop :=
  ∀ v, Attributes.keyed attr = ("expires".toList, some v) → DatesFit p (civilDates v)

theorem read_of_fits {attr : Text} (h : AttributeFits p attr) (a : Attributes) :
    ∃ a', a.read p attr = some a' := by
  unfold Attributes.read
  split_ifs with hempty
  · exact ⟨_, rfl⟩
  cases hkeyed : Attributes.keyed attr with
  | mk k v =>
    dsimp only
    split_ifs with h1 h2 h3 h4
    · exact ⟨_, rfl⟩
    · exact ⟨_, rfl⟩
    · exact ⟨_, rfl⟩
    · cases v with
      | none => exact ⟨_, rfl⟩
      | some v =>
        obtain ⟨t, ht⟩ := firstDate_of_fit (h v (h4 ▸ hkeyed))
        exact ⟨_, congrArg (Option.map _) ht⟩
    all_goals exact ⟨_, rfl⟩

theorem readAll_of_fits {parts : List Text} (h : ∀ attr ∈ parts, AttributeFits p attr)
    (a : Attributes) : ∃ a', parts.foldlM (Attributes.read p) a = some a' := by
  induction parts generalizing a with
  | nil => exact ⟨a, rfl⟩
  | cons attr parts ih =>
    obtain ⟨a₁, h₁⟩ := read_of_fits (h attr List.mem_cons_self) a
    obtain ⟨a₂, h₂⟩ := ih (fun attr hattr => h attr (List.mem_cons_of_mem _ hattr)) a₁
    exact ⟨a₂, by rw [List.foldlM_cons, h₁]; exact h₂⟩

/-- The clocks can hold the dates and the time of expiry, and an address names no domain but
itself. -/
def HeaderFits (p : Platform) (psl : Psl) (clock : Clock) (value : Text) (o : Origin) : Prop :=
  ∀ name val parts, nameValue value = some (name, val, parts) →
    (∀ attr ∈ parts, AttributeFits p attr) ∧
      ∀ a c, Attributes.readAll p parts = some a → a.accept psl o name val = some c →
        Attributes.instantFits p (a.expiryTimes clock) = true ∧
          (IsIpAddress (Text.toAsciiLowercase o.host) →
            c.domain = Text.toAsciiLowercase o.host)

/-- What a cookie that a host may set looks like. -/
structure Scoped (psl : Psl) (o : Origin) (c : StoredCookie) : Prop where
  hostOnly : c.hostOnly = true → c.domain = Text.toAsciiLowercase o.host
  domain : DomainMatch (Text.toAsciiLowercase o.host) c.domain
  suffix : c.hostOnly = false → psl.publicSuffix c.domain ≠ c.domain
  secure : c.secure = true → o.isHttps = true
  securePrefix : startsWithAsciiCi c.name securePrefix = true → c.secure = true
  hostPrefix : startsWithAsciiCi c.name hostPrefix = true →
    c.secure = true ∧ c.hostOnly = true ∧ c.path = ['/']

theorem resolveDomain_spec {hostOnly : Bool}
    (h : a.resolveDomain psl host = some (domain, hostOnly)) :
    hostOnly = true ∧ domain = host ∨
      hostOnly = false ∧ (host = domain ∨ '.' :: domain <:+ host) ∧ psl.publicSuffix domain ≠ domain := by
  unfold Attributes.resolveDomain at h
  cases hdomain : a.domain with
  | none =>
    rw [hdomain] at h
    obtain ⟨rfl, rfl⟩ := Prod.mk.inj (Option.some.inj h)
    exact .inl ⟨rfl, rfl⟩
  | some d =>
    simp only [hdomain] at h
    split_ifs at h with hmatch hsuffix heq
    · obtain ⟨rfl, rfl⟩ := Prod.mk.inj (Option.some.inj h)
      exact .inl ⟨rfl, rfl⟩
    · obtain ⟨rfl, rfl⟩ := Prod.mk.inj (Option.some.inj h)
      refine .inr ⟨rfl, ?_, hsuffix⟩
      by_cases heq : host = d
      · exact .inl heq
      · have hmatch' : domainMatches host d false = true := by
          simpa [heq] using hmatch
        exact (domainMatches_iff.mp hmatch').imp_right And.right

theorem accept_spec (h : a.accept psl o name val = some c)
    (hip : IsIpAddress (Text.toAsciiLowercase o.host) → c.domain = Text.toAsciiLowercase o.host) :
    Scoped psl o c := by
  unfold Attributes.accept at h
  cases hresolve : a.resolveDomain psl (Text.toAsciiLowercase o.host) with
  | none => simp [hresolve] at h
  | some r =>
    obtain ⟨domain, hostOnly⟩ := r
    simp only [hresolve] at h
    split_ifs at h with hsecure hsp hhp hpart
    all_goals
      obtain rfl := Option.some.inj h
      have hspec := resolveDomain_spec hresolve
      constructor
      · intro hhost
        rcases hspec with ⟨-, heq⟩ | ⟨hfalse, -⟩
        · exact heq
        · exact absurd (hhost.symm.trans hfalse) nofun
      · rcases hspec with ⟨-, heq⟩ | ⟨-, heq | hsuffix, -⟩
        · exact .inl heq.symm
        · exact .inl heq
        · by_cases haddr : IsIpAddress (Text.toAsciiLowercase o.host)
          · exact .inl (hip haddr).symm
          · exact .inr ⟨hsuffix, haddr⟩
      · intro hhost
        rcases hspec with ⟨htrue, -⟩ | ⟨-, -, hne⟩
        · exact absurd (htrue.symm.trans hhost) nofun
        · exact hne
      · intro htrue
        by_contra hhttps
        exact hsecure ⟨htrue, hhttps⟩
      · intro hpre
        by_contra hnot
        exact hsp ⟨hpre, hnot⟩
      · intro hpre
        have hall := fun hbad => hhp ⟨hpre, hbad⟩
        refine ⟨not_not.mp fun h => hall (.inl h), not_not.mp fun h => hall (.inr (.inl h)),
          not_not.mp fun h => hall (.inr (.inr h))⟩

/-- A header that fits is read or ignored. -/
theorem parse_spec (h : HeaderFits p psl clock value o) :
    ∃ r, parseSetCookiePartitioned p psl clock value o = some r ∧ ∀ c, r = some c → Scoped psl o c := by
  unfold parseSetCookiePartitioned
  cases hname : nameValue value with
  | none => exact ⟨none, rfl, nofun⟩
  | some parsed =>
    obtain ⟨name, val, parts⟩ := parsed
    obtain ⟨hattrs, hexpiry⟩ := h name val parts hname
    obtain ⟨a, ha⟩ := readAll_of_fits hattrs Attributes.new
    have hread : Attributes.readAll p parts = some a := ha
    dsimp only
    rw [hread]
    dsimp only
    cases haccept : a.accept psl o name val with
    | none => exact ⟨none, rfl, nofun⟩
    | some c =>
      obtain ⟨hfits, hip⟩ := hexpiry a c hread haccept
      dsimp only
      rw [if_pos hfits]
      refine ⟨_, rfl, fun c' hc' => ?_⟩
      obtain rfl := Option.some.inj hc'
      have hscoped := accept_spec haccept hip
      exact ⟨hscoped.hostOnly, hscoped.domain, hscoped.suffix, hscoped.secure, hscoped.securePrefix,
        hscoped.hostPrefix⟩

/-! ### The jar -/

/-- Each identity once, and each cookie set by a response that may set it. -/
structure Kept (psl : Psl) (origins : Origin → Prop) (store : CookieStore) : Prop where
  nodup : (store.map StoredCookie.identity).Nodup
  owned : ∀ c ∈ store, ∃ o, origins o ∧ Scoped psl o c

variable {origins : Origin → Prop}

/-- A cookie takes the place of the one with its identity, or comes last. -/
theorem upsert_cases (store : CookieStore) (c : StoredCookie) :
    (∃ i, ∃ h : i < store.length, (store[i]).identity = c.identity ∧ upsert store c = store.set i c) ∨
      (∀ e ∈ store, e.identity ≠ c.identity) ∧ upsert store c = store ++ [c] := by
  unfold upsert
  cases hfind : store.findIdx? fun e => decide (e.identity = c.identity) with
  | some i =>
    obtain ⟨hlt, heq, -⟩ := List.findIdx?_eq_some_iff_getElem.mp hfind
    exact .inl ⟨i, hlt, of_decide_eq_true heq, rfl⟩
  | none =>
    have hnone := List.findIdx?_eq_none_iff.mp hfind
    exact .inr ⟨fun e he => of_decide_eq_false (hnone e he), rfl⟩

theorem mem_upsert (h : e ∈ upsert store c) : e ∈ store ∨ e = c := by
  rcases upsert_cases store c with ⟨i, -, -, heq⟩ | ⟨-, heq⟩
  · exact List.mem_or_eq_of_mem_set (heq ▸ h)
  · exact (List.mem_append.mp (heq ▸ h)).imp_right List.mem_singleton.mp

theorem nodup_upsert (h : (store.map StoredCookie.identity).Nodup) (c : StoredCookie) :
    ((upsert store c).map StoredCookie.identity).Nodup := by
  rcases upsert_cases store c with ⟨i, hlt, hid, heq⟩ | ⟨hnew, heq⟩
  · have hmap : (store.set i c).map StoredCookie.identity = store.map StoredCookie.identity := by
      rw [List.map_set, ← hid]
      have hlt' : i < (store.map StoredCookie.identity).length := by simpa using hlt
      have hget : (store[i]).identity = (store.map StoredCookie.identity)[i] := by simp
      rw [hget, List.set_getElem_self]
    rw [heq, hmap]
    exact h
  · rw [heq, List.map_append, List.nodup_append]
    refine ⟨h, List.nodup_singleton _, fun x hx y hy => ?_⟩
    obtain ⟨e, he, rfl⟩ := List.mem_map.mp hx
    rw [List.map_singleton, List.mem_singleton] at hy
    rw [hy]
    exact hnew e he

theorem Kept.upsert (h : Kept psl origins store) (ho : origins o) (hc : Scoped psl o c) :
    Kept psl origins (upsert store c) :=
  ⟨nodup_upsert h.nodup c, fun e he =>
    (mem_upsert he).elim (h.owned e) fun heq => ⟨o, ho, heq ▸ hc⟩⟩

theorem Kept.sweep (h : Kept psl origins store) : Kept psl origins (sweepExpired now store) :=
  ⟨h.nodup.sublist (List.filter_sublist.map _), fun c hc => h.owned c (List.mem_of_mem_filter hc)⟩

inductive Act where
  | absorb (r : Response)
  /-- A string is made, or the cookies are counted. -/
  | sweep (now : ℤ)
  | clear

def step (p : Platform) (psl : Psl) (store : CookieStore) : Act → Option CookieStore
  | .absorb r => absorb p psl store r
  | .sweep now => some (sweepExpired now store)
  | .clear => some []

/-- The headers of a response fit. -/
def Settled (p : Platform) (psl : Psl) (_ : CookieStore) : Act → Prop
  | .absorb r => ∀ header ∈ r.headers, isSetCookie header.1 →
      HeaderFits p psl header.2.2 header.2.1 r.origin
  | _ => True

theorem absorbHeaders_spec {headers : List (Text × Text × Clock)} (h : Kept psl origins store)
    (ho : origins o)
    (hfits : ∀ header ∈ headers, isSetCookie header.1 → HeaderFits p psl header.2.2 header.2.1 o) :
    ∃ store', headers.foldlM (absorbHeader p psl o) store = some store' ∧
      Kept psl origins store' := by
  induction headers generalizing store with
  | nil => exact ⟨store, rfl, h⟩
  | cons header headers ih =>
    have hrest := fun header hheader => hfits header (List.mem_cons_of_mem _ hheader)
    rw [List.foldlM_cons, absorbHeader]
    by_cases hset : isSetCookie header.1
    · obtain ⟨r, hr, hscoped⟩ := parse_spec (hfits header List.mem_cons_self hset)
      rw [if_neg (not_not.mpr hset), hr]
      cases r with
      | none => exact ih h hrest
      | some c => exact ih (h.upsert ho (hscoped c rfl)) hrest
    · rw [if_pos hset]
      exact ih h hrest

theorem step_spec {act : Act} (h : Kept psl origins store)
    (ho : ∀ r, act = .absorb r → origins r.origin) (hok : Settled p psl store act) :
    ∃ store', step p psl store act = some store' ∧ Kept psl origins store' := by
  cases act with
  | absorb r =>
    obtain ⟨store', hrun, hkept⟩ := absorbHeaders_spec h (ho r rfl) hok
    exact ⟨_, congrArg (Option.map _) hrun, hkept.sweep⟩
  | sweep now => exact ⟨_, rfl, h.sweep⟩
  | clear => exact ⟨_, rfl, List.nodup_nil, nofun⟩

theorem runs_kept {acts : List Act} (h : Kept psl origins store)
    (ho : ∀ r, Act.absorb r ∈ acts → origins r.origin)
    (hok : RunsWith (step p psl) (Settled p psl) store acts) :
    ∃ store', runs (step p psl) store acts = some store' ∧ Kept psl origins store' := by
  induction acts generalizing store with
  | nil => exact ⟨store, rfl, h⟩
  | cons act acts ih =>
    obtain ⟨store₁, h₁, hkept⟩ :=
      step_spec h (fun r hr => ho r (hr ▸ List.mem_cons_self)) hok.1
    obtain ⟨store₂, h₂, hkept'⟩ :=
      ih hkept (fun r hr => ho r (List.mem_cons_of_mem _ hr)) (hok.2 _ h₁)
    exact ⟨store₂, by rw [runs, h₁]; exact h₂, hkept'⟩

/-- What a cookie that goes into a string looks like. -/
structure Sent (b : Builder) (now : ℤ) (r : Request) (c : StoredCookie) : Prop where
  domain : DomainMatch (Text.toAsciiLowercase r.host) c.domain
  hostOnly : c.hostOnly = true → Text.toAsciiLowercase r.host = c.domain
  path : PathMatch r.path c.path
  secure : c.secure = true → r.isHttps = true
  live : ∀ t, c.expiresAt = some t → now < t
  script : b = .cookieHeaderScriptVisible → c.httpOnly = false

/-- No stored domain is the end of an address. -/
def Addressed (store : CookieStore) (r : Request) : Prop :=
  IsIpAddress (Text.toAsciiLowercase r.host) →
    ∀ c ∈ store, c.hostOnly = false → ¬ '.' :: c.domain <:+ Text.toAsciiLowercase r.host

theorem matched_sent (haddr : Addressed store r) (hc : c ∈ b.matched store now r) :
    Sent b now r c := by
  obtain ⟨hstore, hlive, hincludes⟩ := mem_matched.mp hc
  obtain ⟨happlies, hpermits⟩ := Bool.and_eq_true_iff.mp hincludes
  unfold cookieApplies at happlies
  split_ifs at happlies with hsecure hdomain
  have hmatch := domainMatches_iff.mp (by simpa using hdomain)
  constructor
  · rcases hmatch with heq | ⟨hfalse, hsuffix⟩
    · exact .inl heq
    · exact .inr ⟨hsuffix, fun hip => haddr hip c hstore hfalse hsuffix⟩
  · intro hhost
    exact hmatch.resolve_right fun h => absurd (hhost.symm.trans h.1) nofun
  · exact pathMatches_iff.mp happlies
  · intro htrue
    by_contra hnot
    exact hsecure (by simp [htrue, hnot])
  · intro t ht
    rw [StoredCookie.live, ht] at hlive
    exact of_decide_eq_true hlive
  · rintro rfl
    simpa [Builder.permits] using hpermits

/-- In every run whose headers fit nothing panics, each identity is stored once, each cookie
was set by a host that may set it, and where a cookie is sent it matches. -/
theorem cookie_scope {acts : List Act} (hok : RunsWith (step p psl) (Settled p psl) [] acts) :
    ∃ s, runs (step p psl) [] acts = some s ∧ (s.map StoredCookie.identity).Nodup ∧
      (∀ c ∈ s, ∃ r, Act.absorb r ∈ acts ∧ Scoped psl r.origin c) ∧
      (∀ act, Settled p psl s act → (step p psl s act).isSome) ∧
      ∀ b now r, Addressed s r → ∀ c ∈ b.matched s now r, Sent b now r c := by
  have hempty : Kept psl (fun o => ∃ r, Act.absorb r ∈ acts ∧ r.origin = o) [] :=
    ⟨List.nodup_nil, nofun⟩
  obtain ⟨s, hrun, hkept⟩ := runs_kept hempty (fun r hr => ⟨r, hr, rfl⟩) hok
  refine ⟨s, hrun, hkept.nodup, fun c hc => ?_, fun act hact => ?_, fun b now r haddr c hc => ?_⟩
  · obtain ⟨o, ⟨r, hr, rfl⟩, hscoped⟩ := hkept.owned c hc
    exact ⟨r, hr, hscoped⟩
  · have hany : Kept psl (fun _ => True) s :=
      ⟨hkept.nodup, fun c hc => (hkept.owned c hc).imp fun _ h => ⟨trivial, h.2⟩⟩
    obtain ⟨s', hstep, -⟩ := step_spec hany (fun _ _ => trivial) hact
    rw [hstep]
    rfl
  · exact matched_sent haddr hc

theorem cookie_scope_domain :
    let acts := [Act.absorb ⟨⟨"www.example.com".toList, "/a/b".toList, true, none⟩,
      [("Set-Cookie".toList, "id=1; Domain=example.com; Secure; Max-Age=60".toList, ⟨0, 0⟩)], 0⟩]
    ∃ s, runs (step .windows lastLabels) [] acts = some s ∧
      ∀ b now r, Addressed s r → ∀ c ∈ b.matched s now r, Sent b now r c := by
  have hfits : HeaderFits .windows lastLabels ⟨0, 0⟩
      "id=1; Domain=example.com; Secure; Max-Age=60".toList
      ⟨"www.example.com".toList, "/a/b".toList, true, none⟩ := by
    intro name val parts hname
    have hparts : nameValue "id=1; Domain=example.com; Secure; Max-Age=60".toList =
        some ("id".toList, "1".toList,
          [" Domain=example.com".toList, " Secure".toList, " Max-Age=60".toList]) := by
      decide +kernel
    obtain ⟨rfl, hrest⟩ := Prod.mk.inj (Option.some.inj (hparts.symm.trans hname))
    obtain ⟨rfl, rfl⟩ := Prod.mk.inj hrest
    refine ⟨fun attr hattr v hkeyed => ?_, fun a c hread haccept => ?_⟩
    · have hno : ∀ attr ∈ [" Domain=example.com".toList, " Secure".toList, " Max-Age=60".toList],
          (Attributes.keyed attr).1 ≠ "expires".toList := by decide +kernel
      exact absurd (congrArg Prod.fst hkeyed) (hno attr hattr)
    · have ha : Attributes.readAll .windows
          [" Domain=example.com".toList, " Secure".toList, " Max-Age=60".toList] =
          some ⟨some "example.com".toList, none, some 60, none, true, false, .unset, false⟩ := by
        decide +kernel
      obtain rfl := Option.some.inj (ha.symm.trans hread)
      exact ⟨by decide +kernel, fun hip => absurd hip (by decide +kernel)⟩
  obtain ⟨s, hrun, -, -, -, hsent⟩ := @cookie_scope .windows lastLabels
    [.absorb ⟨⟨"www.example.com".toList, "/a/b".toList, true, none⟩,
      [("Set-Cookie".toList, "id=1; Domain=example.com; Secure; Max-Age=60".toList, ⟨0, 0⟩)], 0⟩]
    ⟨fun header hheader _ => by
      obtain rfl := List.mem_singleton.mp hheader
      exact hfits, fun _ _ => trivial⟩
  exact ⟨s, hrun, hsent⟩

/-- Dates and ages that the clocks cannot hold are panics, and one address sets a cookie for
others. -/
theorem cookie_scope_fails :
    absorb .windows lastLabels [] ⟨⟨"a.example".toList, "/".toList, true, none⟩,
      [("Set-Cookie".toList, "a=1; Expires=Fri, 01 Jan 99999 00:00:00 GMT".toList,
        ⟨60 * second, 0⟩)], 60 * second⟩ = none ∧
      absorb .unix lastLabels [] ⟨⟨"a.example".toList, "/".toList, true, none⟩,
        [("Set-Cookie".toList, "a=1; Max-Age=9223372036854775807".toList, ⟨60 * second, 0⟩)],
        60 * second⟩ = none ∧
      ∃ store, absorb .unix lastLabels [] ⟨⟨"1.2.3.4".toList, "/".toList, true, none⟩,
          [("Set-Cookie".toList, "a=1; Domain=3.4".toList, ⟨0, 0⟩)], 0⟩ = some store ∧
        Builder.cookieHeader.header store 0 ⟨"5.6.3.4".toList, "/".toList, true, []⟩ =
          some "a=1".toList ∧
        ∀ c ∈ store, ¬ DomainMatch "5.6.3.4".toList c.domain := by
  refine ⟨by decide +kernel, by decide +kernel, [⟨"a".toList, "1".toList, "3.4".toList, false,
    "/".toList, none, none, false, false, .unset, none⟩], by decide +kernel, ?_, ?_⟩
  · rw [header_singleton]
    decide +kernel
  · intro c hc
    rw [List.mem_singleton.mp hc]
    rintro (heq | ⟨-, hip⟩)
    · exact absurd heq (by decide +kernel)
    · exact hip (by decide +kernel)

end Conclave.Net.Cookies
