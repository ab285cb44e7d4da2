import Conclave.Net.Retry

/-! Requests to hosts that have asked for TLS. What was recorded decides which hosts these
are, next to a list that is built in; a request to such a host only meets connections that
were dialed over TLS, to the port of its URL where that names one. -/

namespace Conclave.Net.Send

open Lib Text Hsts

theorem routeOrigin_ok {url : Url} {isHttps : Bool} {origin : Origin}
    (h : route.origin url isHttps = .ok origin) :
    origin = ⟨url.host, url.effectivePort.getD (if isHttps then 443 else 80), isHttps⟩ := by
  unfold route.origin at h
  by_cases hhost : url.host = []
  · rw [if_pos hhost] at h
    cases h
  · rw [if_neg hhost] at h
    cases h
    rfl

/-- A request has an origin over TLS for its scheme, or as its host asks for it. -/
theorem route_ok {store : Store} {now : ℕ} {url : Url} {origin : Origin}
    (h : route store now url = .ok origin) :
    ∃ isHttps, (isHttps = true ∨ isHttps = mustUpgrade store now url.host) ∧
      origin = ⟨url.host, url.effectivePort.getD (if isHttps then 443 else 80), isHttps⟩ := by
  unfold route at h
  split at h
  · exact ⟨_, .inr rfl, routeOrigin_ok h⟩
  · exact ⟨_, .inl rfl, routeOrigin_ok h⟩
  · cases h

/-- Whom the store makes use TLS, and what comes of a request for such a host. -/
theorem hsts_upgrade :
    (∀ (log : List Seen) (now : ℕ) (host : Text), mustUpgrade (afterAll log) now host = true ↔
      (∃ d ∈ toAsciiLowercase host :: parents (toAsciiLowercase host), isPreloaded d = true) ∨
      (∃ w ∈ latest log (toAsciiLowercase host), w.Live now) ∨
      ∃ d ∈ parents (toAsciiLowercase host),
        ∃ w ∈ latest log d, w.Live now ∧ w.includeSubdomains = true) ∧
    ∀ (req : Request) (t : Trip), mustUpgrade t.store t.unixNow req.url.host = true →
      ∀ x ∈ (sendOnce req t).tries, x.target.isHttps = true ∧ x.target.host = req.url.host ∧
        ∀ port, req.url.port = some port → x.target.port = port := by
  refine ⟨mustUpgrade_iff, fun req t hup x hx => ?_⟩
  obtain ⟨origin, hroute, -, rfl⟩ := sendOnce_for req t x hx
  obtain ⟨isHttps, hhttps, htarget⟩ := route_ok hroute
  rw [htarget]
  refine ⟨hhttps.elim id fun h => h.trans hup, rfl, fun port hport => ?_⟩
  simp [Url.effectivePort, hport]

def google : Text := "google.com".toList

def toGoogle : Request := ⟨"GET", ⟨.http, google, some 8080⟩, true⟩

/-- A policy that was seen for a host goes for the hosts below it, port and all. -/
def pledge : List Seen := [⟨"a.test".toList, "max-age=9; includeSubDomains".toList, 0⟩]

def toSubdomain : Request := ⟨"GET", ⟨.http, "www.a.test".toList, some 8080⟩, true⟩

def afterPledge : Trip := { afterIdle .timedOut with store := afterAll pledge, unixNow := 1 }

theorem hsts_upgrade_sample :
    mustUpgrade (afterAll pledge) 1 "www.a.test".toList = true ∧
      (transact .pooledConn ⟨⟨"www.a.test".toList, 8080, true⟩, ""⟩ toSubdomain
        ⟨.timedOut, .timedOut, false⟩).target = ⟨"www.a.test".toList, 8080, true⟩ := by
  have hup : mustUpgrade (afterAll pledge) 1 "www.a.test".toList = true := by decide +kernel
  have hroute : route afterPledge.store afterPledge.unixNow toSubdomain.url =
      .ok ⟨"www.a.test".toList, 8080, true⟩ := by
    change route.origin toSubdomain.url (mustUpgrade (afterAll pledge) 1 "www.a.test".toList) = _
    rw [hup]
    rfl
  have hmem : transact .pooledConn ⟨⟨"www.a.test".toList, 8080, true⟩, ""⟩ toSubdomain
      ⟨.timedOut, .timedOut, false⟩ ∈ (sendOnce toSubdomain afterPledge).tries := by
    rw [sendOnce, hroute]
    exact List.mem_cons_self
  have h := hsts_upgrade.2 toSubdomain afterPledge hup _ hmem
  exact ⟨hup, Origin.ext h.2.1 (h.2.2 8080 rfl) h.1⟩

/-- A host that is built in with nothing recorded, a trailing dot that hides a host, and an
address that is upgraded. -/
theorem hsts_not_exact :
    (¬∀ (log : List Seen) (now : ℕ) (host : Text), mustUpgrade (afterAll log) now host = true ↔
      (∃ w ∈ latest log (toAsciiLowercase host), w.Live now) ∨
      ∃ d ∈ parents (toAsciiLowercase host),
        ∃ w ∈ latest log d, w.Live now ∧ w.includeSubdomains = true) ∧
    mustUpgrade (afterAll [⟨"a.test".toList, "max-age=9".toList, 0⟩]) 1 "a.test.".toList = false ∧
    mustUpgrade (afterAll [⟨"1.2.3.4".toList, "max-age=9".toList, 0⟩]) 1 "1.2.3.4".toList =
      true := by
  refine ⟨fun h => ?_, by decide +kernel, by decide +kernel⟩
  obtain ⟨w, hw, -⟩ | ⟨d, -, w, hw, -⟩ := (h [] 0 google).1 (by decide +kernel)
  · cases hw
  · cases hw

end Conclave.Net.Send
