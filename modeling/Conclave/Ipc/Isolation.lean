import Conclave.Lib.Run
import Conclave.Ipc.Cutting

/-! Site isolation over runs of the broker: who holds which renderer, and when one is given
up. -/

namespace Conclave.Ipc

open Lib

/-! ### Runs -/

inductive Act where
  | lookup (url : Text) (spawned : ℕ)
  | release (url : Text)

/-- The broker, with the references to each site that have not been released, and the ids
that spawning has returned. -/
structure Broker where
  host : RendererHost
  refs : Text → ℕ
  used : List ℕ

namespace Broker

def new : Broker := ⟨RendererHost.new, fun _ => 0, []⟩

def lookup (b : Broker) (site : Text) (spawned : ℕ) : Broker where
  host := (b.host.lookupOrSpawn site spawned).2
  refs := Function.update b.refs site (b.refs site + 1)
  used := if (b.host.bySite site).isSome then b.used else spawned :: b.used

def release (b : Broker) (site : Text) : Broker :=
  { b with
    host := (b.host.release site).2
    refs := Function.update b.refs site (b.refs site - 1) }

/-- A URL without a site changes nothing. -/
def step (b : Broker) : Act → Option Broker
  | .lookup url spawned =>
    match siteForUrl url with
    | none => some b
    | some site => some (b.lookup site spawned)
  | .release url =>
    match siteForUrl url with
    | none => some b
    | some site => some (b.release site)

/-- A new child gets an id that no child had, and one more reference fits its count. -/
def Fresh (b : Broker) : Act → Prop
  | .lookup url spawned => ∀ site, siteForUrl url = some site →
    (b.host.bySite site = none → spawned ∉ b.used) ∧ b.refs site + 1 < 2 ^ 32
  | .release _ => True

/-- The records count the references, and no child serves two sites. -/
structure Kept (b : Broker) : Prop where
  counts : ∀ site, ((b.host.bySite site).map RendererRecord.refcount).getD 0 = b.refs site
  live : ∀ site rec, b.host.bySite site = some rec → 0 < rec.refcount ∧ rec.childId ∈ b.used
  apart : ∀ site site' rec rec', b.host.bySite site = some rec → b.host.bySite site' = some rec' →
    rec.childId = rec'.childId → site = site'

theorem kept_new : Kept new := ⟨fun _ => rfl, nofun, nofun⟩

/-- A record put under a site, in place of one that had the same child or under a new child. -/
theorem Kept.update {b : Broker} (h : Kept b) {site : Text} {record : RendererRecord}
    {next : ℕ} {refs : Text → ℕ} {used : List ℕ} (hpos : 0 < record.refcount)
    (hrefs : refs = Function.update b.refs site record.refcount)
    (hused : record.childId ∈ used ∧ ∀ id ∈ b.used, id ∈ used)
    (hchild : ∀ site' rec, b.host.bySite site' = some rec → rec.childId = record.childId →
      site' = site) :
    Kept ⟨⟨Function.update b.host.bySite site (some record), next⟩, refs, used⟩ := by
  subst hrefs
  constructor
  · intro site'
    by_cases hs : site' = site
    · subst hs
      simp
    · simpa [hs] using h.counts site'
  · intro site' rec hrec
    by_cases hs : site' = site
    · subst hs
      simp only [Function.update_self, Option.some.injEq] at hrec
      exact hrec ▸ ⟨hpos, hused.1⟩
    · simp only [Function.update_of_ne hs] at hrec
      exact (h.live site' rec hrec).imp_right (hused.2 _)
  · intro site₁ site₂ rec₁ rec₂ h₁ h₂ heq
    by_cases hs₁ : site₁ = site <;> by_cases hs₂ : site₂ = site
    · exact hs₁.trans hs₂.symm
    · subst hs₁
      simp only [Function.update_self, Function.update_of_ne hs₂, Option.some.injEq] at h₁ h₂
      exact (hchild site₂ rec₂ h₂ (heq.symm.trans (h₁ ▸ rfl))).symm
    · subst hs₂
      simp only [Function.update_self, Function.update_of_ne hs₁, Option.some.injEq] at h₁ h₂
      exact hchild site₁ rec₁ h₁ (heq.trans (h₂ ▸ rfl))
    · simp only [Function.update_of_ne hs₁, Function.update_of_ne hs₂] at h₁ h₂
      exact h.apart site₁ site₂ rec₁ rec₂ h₁ h₂ heq

theorem Kept.remove {b : Broker} (h : Kept b) (site : Text) :
    Kept ⟨⟨Function.update b.host.bySite site none, b.host.nextChildId⟩,
      Function.update b.refs site 0, b.used⟩ := by
  have hkept : ∀ site' rec, Function.update b.host.bySite site none site' = some rec →
      b.host.bySite site' = some rec := by
    intro site' rec hrec
    by_cases hs : site' = site
    · rw [hs, Function.update_self] at hrec
      nomatch hrec
    · rwa [Function.update_of_ne hs] at hrec
  constructor
  · intro site'
    by_cases hs : site' = site
    · subst hs
      simp
    · simpa [hs] using h.counts site'
  · exact fun site' rec hrec => h.live site' rec (hkept site' rec hrec)
  · exact fun site₁ site₂ rec₁ rec₂ h₁ h₂ =>
      h.apart site₁ site₂ rec₁ rec₂ (hkept site₁ rec₁ h₁) (hkept site₂ rec₂ h₂)

theorem Kept.lookup {b : Broker} (h : Kept b) {site : Text} {spawned : ℕ}
    (hfresh : b.host.bySite site = none → spawned ∉ b.used) (hroom : b.refs site + 1 < 2 ^ 32) :
    Kept (b.lookup site spawned) := by
  have hcount := h.counts site
  unfold Broker.lookup RendererHost.lookupOrSpawn
  cases hrec : b.host.bySite site with
  | some rec =>
    rw [hrec] at hcount
    have hcounts : rec.refcount = b.refs site := hcount
    have hrefcount : addU32 rec.refcount 1 = b.refs site + 1 := by
      rw [addU32, hcounts, Nat.mod_eq_of_lt hroom]
    refine h.update ?_ ?_ ?_ ?_
    · show 0 < addU32 rec.refcount 1
      omega
    · rw [hrefcount]
    · exact ⟨(h.live site rec hrec).2, fun id hid => hid⟩
    · exact fun site' rec' hrec' heq => h.apart site' site rec' rec hrec' hrec heq
  | none =>
    rw [hrec] at hcount
    have hzero : b.refs site = 0 := hcount.symm
    refine h.update Nat.one_pos ?_ ?_ ?_
    · rw [hzero]
    · exact ⟨List.mem_cons_self, fun id hid => List.mem_cons_of_mem spawned hid⟩
    · intro site' rec' hrec' heq
      have heq' : rec'.childId = spawned := heq
      exact absurd (heq' ▸ (h.live site' rec' hrec').2) (hfresh hrec)

theorem Kept.release {b : Broker} (h : Kept b) (site : Text) : Kept (b.release site) := by
  have hcount := h.counts site
  unfold Broker.release RendererHost.release
  cases hrec : b.host.bySite site with
  | none =>
    rw [hrec] at hcount
    have hzero : b.refs site = 0 := hcount.symm
    have hrefs : Function.update b.refs site (b.refs site - 1) = b.refs := by
      rw [hzero]
      exact Function.update_eq_iff.mpr ⟨hzero.symm, fun _ _ => rfl⟩
    rw [hrefs]
    exact h
  | some rec =>
    rw [hrec] at hcount
    have hcounts : rec.refcount = b.refs site := hcount
    simp only
    split
    · next hzero =>
      rw [← hcounts, hzero]
      exact h.remove site
    · next hmore =>
      refine h.update (by show 0 < rec.refcount - 1; omega) ?_ ?_ ?_
      · rw [← hcounts]
      · exact ⟨(h.live site rec hrec).2, fun id hid => hid⟩
      · exact fun site' rec' hrec' heq => h.apart site' site rec' rec hrec' hrec heq


/-- The child is given up with its last reference, and with no other. -/
theorem Kept.release_eq_some {b : Broker} (h : Kept b) (site : Text) (child : ℕ) :
    (b.host.release site).1 = some child ↔
      b.refs site = 1 ∧ (b.host.bySite site).map RendererRecord.childId = some child := by
  have hcount := h.counts site
  unfold RendererHost.release
  cases hrec : b.host.bySite site with
  | none =>
    rw [hrec] at hcount
    simp
  | some rec =>
    have hpos := (h.live site rec hrec).1
    rw [hrec] at hcount
    have hcounts : rec.refcount = b.refs site := hcount
    simp only [Option.map_some, Option.some.injEq]
    split
    · next hzero =>
      have hone : b.refs site = 1 := by omega
      simp [hone]
    · next hmore =>
      have hne : b.refs site ≠ 1 := by omega
      simp [hne]

theorem kept_run {acts : List Act} {b : Broker} (hrun : runs step new acts = some b)
    (hfresh : RunsWith step Fresh new acts) : Kept b := by
  refine runsWith_keeps (fun b a b' hb hok hstep => ?_) kept_new hfresh hrun
  cases a with
  | lookup url spawned =>
    cases hsite : siteForUrl url with
    | none =>
      simp only [step, hsite] at hstep
      exact Option.some.inj hstep ▸ hb
    | some site =>
      simp only [step, hsite] at hstep
      obtain ⟨hfresh, hroom⟩ := hok site hsite
      exact Option.some.inj hstep ▸ hb.lookup hfresh hroom
  | release url =>
    cases hsite : siteForUrl url with
    | none =>
      simp only [step, hsite] at hstep
      exact Option.some.inj hstep ▸ hb
    | some site =>
      simp only [step, hsite] at hstep
      exact Option.some.inj hstep ▸ hb.release site

end Broker

/-! ### Routes -/

theorem routeDecision_plain {cmd u : Text} (hcmd : navTargetUrl cmd = some u) (h : Plain u)
    (active : Option Text) : ∃ site, siteForUrl u = some site ∧
      routeDecision cmd active =
        if active = some site then .sameSite site else .crossSiteSwap site u active := by
  obtain ⟨site, hsite⟩ := h.siteForUrl
  have hne : cmd ≠ "__shutdown__".toList := by
    rintro rfl
    have hnone : navTargetUrl "__shutdown__".toList = none := by decide +kernel
    nomatch hnone.symm.trans hcmd
  refine ⟨site, hsite, ?_⟩
  unfold routeDecision classifyCommand
  simp only [if_neg hne, hcmd, hsite]

/-! ### Isolation -/

variable (casing : Casing)

/-- Plain URLs with one key, or with one live child, are of one site; a child is given up with
the last reference to it, as long as the count holds; and a navigation to another site swaps the
renderer. -/
theorem site_isolation :
    (∀ u v key U V, WebUrl casing u U → WebUrl casing v V → siteForUrl u = some key →
      siteForUrl v = some key → SameSite U V) ∧
    (∀ acts b, runs Broker.step Broker.new acts = some b →
      RunsWith Broker.step Broker.Fresh Broker.new acts →
      (∀ u v U V ru rv, WebUrl casing u U → WebUrl casing v V →
        (siteForUrl u).bind b.host.bySite = some ru →
        (siteForUrl v).bind b.host.bySite = some rv → ru.childId = rv.childId →
        SameSite U V) ∧
      ∀ site child, (b.host.release site).1 = some child ↔
        b.refs site = 1 ∧ (b.host.bySite site).map RendererRecord.childId = some child) ∧
    ∀ cmd active u v U V, navTargetUrl cmd = some u → WebUrl casing u U → WebUrl casing v V →
      siteForUrl v = some active → ¬ SameSite U V →
      ∃ site, siteForUrl u = some site ∧
        routeDecision cmd (some active) = .crossSiteSwap site u (some active) := by
  refine ⟨fun u v key U V hu hv => hu.sameSite hv, fun acts b hrun hfresh => ?_, ?_⟩
  · have hkept := Broker.kept_run hrun hfresh
    refine ⟨fun u v U V ru rv hu hv hru hrv hchild => ?_, hkept.release_eq_some⟩
    obtain ⟨siteu, hsiteu, hru⟩ := Option.bind_eq_some_iff.mp hru
    obtain ⟨sitev, hsitev, hrv⟩ := Option.bind_eq_some_iff.mp hrv
    obtain rfl := hkept.apart siteu sitev ru rv hru hrv hchild
    exact hu.sameSite hv hsiteu hsitev
  · intro cmd active u v U V hcmd hu hv hactive hnot
    obtain ⟨site, hsite, hroute⟩ := routeDecision_plain hcmd hu.plain (some active)
    refine ⟨site, hsite, hroute.trans (if_neg fun heq => ?_)⟩
    obtain rfl := Option.some.inj heq
    exact hnot (hu.sameSite hv hsite hactive)

/-- Casing as it is on ASCII. -/
def asciiCasing : Casing where
  toLowercase := Text.toAsciiLowercase
  toLowercase_ascii := lower_lower
  ascii_mem := by
    intro t c hc _
    obtain ⟨d, hd, rfl⟩ := List.mem_map.mp hc
    cases Text.toLower_cases d with
    | inl h =>
      have hlower : d.toLower.isLower := by
        simp only [Char.isLower, ge_iff_le, UInt32.le_iff_toNat_le, Bool.and_eq_true,
          decide_eq_true_eq]
        show 97 ≤ d.toLower.toNat ∧ d.toLower.toNat ≤ 122
        omega
      exact .inl (by simp [Char.isAlphanum, Char.isAlpha, hlower])
    | inr h => exact .inr (h.2.symm ▸ hd)

theorem site_isolation_sample :
    SameSite ⟨.https, "a.go\x01od.com".toList, some 8⟩ ⟨.https, "b.go\x01od.com".toList, none⟩ := by
  have hisolation := (site_isolation asciiCasing).1 "https://me@a.go\x01od.com:8/x".toList
    "https://b.go\x01od.com/".toList "https://go\x01od.com".toList
    ⟨.https, "a.go\x01od.com".toList, some 8⟩ ⟨.https, "b.go\x01od.com".toList, none⟩
  have hu : cutHost "me@a.go\x01od.com:8/x".toList = "me@a.go\x01od.com".toList := by decide +kernel
  have hv : cutHost "b.go\x01od.com/".toList = "b.go\x01od.com".toList := by decide +kernel
  refine hisolation ⟨by decide +kernel, .inr rfl, ?_⟩ ⟨by decide +kernel, .inr rfl, ?_⟩
    (by decide +kernel) (by decide +kernel)
  · exact ⟨"https".toList, "me@a.go\x01od.com:8/x".toList, by decide +kernel, by decide +kernel,
      by decide +kernel, by rw [hu]; simp, fun h => absurd h (by decide +kernel),
      by decide +kernel, by decide +kernel, by decide +kernel⟩
  · exact ⟨"https".toList, "b.go\x01od.com/".toList, by decide +kernel, by decide +kernel,
      by decide +kernel, by rw [hv]; simp, fun h => absurd h (by decide +kernel),
      by decide +kernel, by decide +kernel, by decide +kernel⟩

/-- Two users of one name give their hosts one key. -/
theorem site_isolation_fails :
    ∃ u v key U V, Url.parse asciiCasing u = .ok U ∧ Url.parse asciiCasing v = .ok V ∧
      U.scheme.isHttp ∧ V.scheme.isHttp ∧ siteForUrl u = some key ∧ siteForUrl v = some key ∧
      ¬ SameSite U V := by
  refine ⟨"https://user:x@good.com/".toList, "https://user:x@evil.org/".toList,
    "https://user".toList, ⟨.https, "good.com".toList, none⟩, ⟨.https, "evil.org".toList, none⟩,
    by decide +kernel, by decide +kernel, .inr rfl, .inr rfl, by decide +kernel,
    by decide +kernel, ?_⟩
  rintro ⟨-, h | ⟨-, -, h⟩⟩
  · exact absurd h (by decide +kernel)
  · exact absurd h (by decide +kernel)

end Conclave.Ipc
