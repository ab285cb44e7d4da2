import Conclave.Net.Cookies

/-! Cookies of other partitions. The function that is given the partition of a request
leaves them out; the others do so only when nothing else admits them. -/

namespace Conclave.Net.Cookies

open Lib

variable {store store' : CookieStore} {now : ℤ} {r : Request} {b : Builder} {c : StoredCookie}

/-- A cookie of this partition, or of none. -/
def Own (p : Text) (c : StoredCookie) : Prop := c.partitionKey = none ∨ c.partitionKey = some p

instance (p : Text) (c : StoredCookie) : Decidable (Own p c) := inferInstanceAs (Decidable (_ ∨ _))

/-- The jar without the cookies of other partitions. -/
def purge (p : Text) (store : CookieStore) : CookieStore := store.filter fun c => decide (Own p c)

/-- No live cookie of another partition passes the filters of the builder. -/
def Clean (b : Builder) (store : CookieStore) (now : ℤ) (r : Request) : Prop :=
  ∀ c ∈ store, c.live now → b.includes r c → Own r.topLevelPartitionKey c

theorem mem_matched :
    c ∈ b.matched store now r ↔ c ∈ store ∧ c.live now ∧ b.includes r c := by
  rw [Builder.matched, sortByPath, List.mem_mergeSort, List.mem_filter, sweepExpired,
    List.mem_filter, and_assoc]

theorem clean_partitioned {site : RequestSite} {nav : Bool} :
    Clean (.cookieHeaderPartitioned site nav) store now r := by
  intro c _ _ hincludes
  have hpermits := (Bool.and_eq_true_iff.mp hincludes).2
  have hkey := (Bool.and_eq_true_iff.mp hpermits).2
  cases hpk : c.partitionKey with
  | none => exact .inl hpk
  | some pk =>
    rw [hpk] at hkey
    exact .inr (hpk.trans (congrArg some (of_decide_eq_true hkey)))

/-- What a clean jar gives does not depend on the cookies of other partitions. -/
theorem matched_purge (h : Clean b store now r) :
    b.matched (purge r.topLevelPartitionKey store) now r = b.matched store now r := by
  unfold Builder.matched
  congr 1
  rw [sweepExpired, sweepExpired, purge, List.filter_filter, List.filter_filter, List.filter_filter]
  apply List.filter_congr
  intro c hc
  have hown := h c hc
  cases hlive : c.live now <;> cases hincludes : b.includes r c <;>
    simp_all

/-- The cookies in a string are of the request's partition or of none, and those of other
partitions make no difference to it, exactly when none of these passes the other filters. -/
theorem partitions_apart (b : Builder) (store : CookieStore) (now : ℤ) (r : Request) :
    (((∀ c ∈ b.matched store now r, Own r.topLevelPartitionKey c) ∧
      b.header (purge r.topLevelPartitionKey store) now r = b.header store now r) ↔
        Clean b store now r) ∧
      (∀ site nav, b = .cookieHeaderPartitioned site nav → Clean b store now r) ∧
      ∀ store', Clean b store now r → Clean b store' now r →
        purge r.topLevelPartitionKey store = purge r.topLevelPartitionKey store' →
        b.header store now r = b.header store' now r := by
  refine ⟨⟨fun h c hc hlive hincludes => ?_, fun h => ⟨fun c hc => ?_, ?_⟩⟩, ?_, ?_⟩
  · exact h.1 c (mem_matched.mpr ⟨hc, hlive, hincludes⟩)
  · obtain ⟨hstore, hlive, hincludes⟩ := mem_matched.mp hc
    exact h c hstore hlive hincludes
  · rw [Builder.header, Builder.header, matched_purge h]
  · rintro site nav rfl
    exact clean_partitioned
  · intro store' h h' heq
    rw [Builder.header, Builder.header, ← matched_purge h, ← matched_purge h', heq]

/-- The rule that the last label is the suffix. -/
def lastLabels : Psl where
  publicSuffix host := host.rtakeWhile (· ≠ '.')
  registrableDomain host :=
    ".".toList.intercalate ((host.splitOn '.').reverse.take 2).reverse

/-- The string of a jar with one cookie. -/
theorem header_singleton (b : Builder) (c : StoredCookie) (now : ℤ) (r : Request) :
    b.header [c] now r = if c.live now && b.includes r c then some c.render else none := by
  rw [Builder.header, Builder.matched, sortByPath, sweepExpired]
  cases hlive : c.live now
  · simp [hlive, render]
  · cases hincludes : b.includes r c
    · simp [hlive, hincludes, render]
    · simp [hlive, hincludes, render, List.intercalate]

/-- A partitioned cookie of one site goes into the strings of another one. -/
theorem partitions_apart_fails :
    ∃ store, absorb .unix lastLabels [] ⟨⟨"ads.example".toList, "/".toList, true,
        some "https://one.example".toList⟩,
        [("Set-Cookie".toList, "id=1; Secure; Path=/; Partitioned".toList, ⟨0, 0⟩)], 0⟩ =
        some store ∧
      let r : Request := ⟨"ads.example".toList, "/".toList, true, "https://two.example".toList⟩
      purge r.topLevelPartitionKey store = [] ∧
        Builder.cookieHeader.header store 0 r = some "id=1".toList ∧
        (Builder.cookieHeaderForRequest .sameSite true).header store 0 r = some "id=1".toList ∧
        Builder.cookieHeaderScriptVisible.header store 0 r = some "id=1".toList ∧
        (Builder.cookieHeaderPartitioned .sameSite true).header store 0 r = none := by
  refine ⟨[⟨"id".toList, "1".toList, "ads.example".toList, true, "/".toList, none, none, true, false,
    .unset, some "https://one.example".toList⟩], by decide +kernel, ?_⟩
  refine ⟨by decide +kernel, ?_, ?_, ?_, ?_⟩
  all_goals
    rw [header_singleton]
    decide +kernel

end Conclave.Net.Cookies
