import Conclave.Net.CacheStore

/-! The disk store. An entry is read back as it was written when its lengths fit; whose
entry a file holds is known only as far as the file names tell URLs apart. -/

namespace Conclave.Net.Cache

open Lib Reader EntryReader

/-! ### Records -/

theorem reads_rdStr {t : String} (ht : (utf8 t).length < 2 ^ 32) : Reads rdStr (wrStr t) () () t :=
  (reads_bytes ht ()).bind_eq (by rw [fromUtf8_utf8]; rfl)

theorem reads_rdPair {h : String × String} (h1 : (utf8 h.1).length < 2 ^ 32)
    (h2 : (utf8 h.2).length < 2 ^ 32) : Reads rdPair (wrPair h) () () h :=
  (reads_rdStr h1).bind (reads_rdStr h2).map

theorem reads_rdU64 (v : UInt64) : Reads rdU64 (toLe 8 v.toNat) () () v :=
  ((reads_uint (k := 8) v.toNat_lt ()).map (g := UInt64.ofNat)).cast rfl UInt64.ofNat_toNat

theorem toLe_one (n : ℕ) : toLe 1 n = [UInt8.ofNat n] := by simp [toLe, toBe]

theorem reads_tag {n : ℕ} (hn : n < 256) : Reads (uint 1 : EntryReader ℕ) [UInt8.ofNat n] () () n :=
  (reads_uint (k := 1) hn ()).cast (toLe_one n) rfl

theorem reads_none {α : Type} (r : EntryReader α) : Reads (rdOpt r) [0] () () none :=
  (reads_tag (n := 0) (by norm_num)).bind_eq (if_pos rfl)

theorem reads_some {α : Type} {r : EntryReader α} {w : Bytes} {a : α} (h : Reads r w () () a) :
    Reads (rdOpt r) (1 :: w) () () (some a) := by
  have htag : Reads (uint 1 : EntryReader ℕ) [1] () () 1 := reads_tag (by norm_num)
  refine htag.bind ?_
  rw [if_neg one_ne_zero]
  exact h.map

theorem reads_optU64 (v : Option UInt64) : Reads (rdOpt rdU64) (wrOptU64 v) () () v := by
  cases v with
  | none => exact reads_none _
  | some v => exact reads_some (reads_rdU64 v)

theorem reads_optStr {t : Option String} (ht : ∀ s, t = some s → (utf8 s).length < 2 ^ 32) :
    Reads (rdOpt rdStr) (wrOptStr t) () () t := by
  cases t with
  | none => exact reads_none _
  | some s => exact reads_some (reads_rdStr (ht s rfl))

theorem reads_rdList {α : Type} {r : EntryReader α} {as : List α} {write : α → Bytes}
    (hlen : as.length < 2 ^ 32) (h : ∀ a ∈ as, Reads r (write a) () () a) :
    Reads (rdList r) (toLe 4 as.length ++ as.flatMap write) () () as :=
  ((reads_uint (k := 4) hlen ()).bind (reads_times (g := id) () h)).cast rfl (List.map_id as)

/-- The lengths of the strings and of the lists are below 2 ^ 32. -/
structure Fits (e : CachedEntry) : Prop where
  reason : (utf8 e.reason).length < 2 ^ 32
  headers : e.headers.length < 2 ^ 32
  header : ∀ h ∈ e.headers, (utf8 h.1).length < 2 ^ 32 ∧ (utf8 h.2).length < 2 ^ 32
  etag : ∀ s, e.etag = some s → (utf8 s).length < 2 ^ 32
  lastModified : ∀ s, e.lastModified = some s → (utf8 s).length < 2 ^ 32
  varyLength : e.vary.length < 2 ^ 32
  vary : ∀ s ∈ e.vary, (utf8 s).length < 2 ^ 32
  requestHeaders : e.varyRequestHeaders.length < 2 ^ 32
  requestHeader : ∀ h ∈ e.varyRequestHeaders,
    (utf8 h.1).length < 2 ^ 32 ∧ (utf8 h.2).length < 2 ^ 32

theorem reads_flag (b : Bool) : Reads (uint 1 : EntryReader ℕ) [if b then 1 else 0] () ()
    (if b then 1 else 0) := by
  cases b
  · exact reads_tag (n := 0) (by norm_num)
  · exact reads_tag (n := 1) (by norm_num)

theorem reads_entry {e : CachedEntry} (he : Fits e) : Reads entry (serializeEntry e) () () e := by
  have hmagic : (utf8 "TBC2").length = 4 := by decide
  have hstatus : e.status.toNat < 2 ^ (8 * 2) := e.status.toNat_lt
  have hbody : e.body.length < 2 ^ (8 * 8) := e.size.trans (by norm_num)
  have hread : Reads entry (utf8 "TBC2" ++ (toLe 2 e.status.toNat ++ (wrStr e.reason ++
      ((toLe 4 e.headers.length ++ e.headers.flatMap wrPair) ++ (toLe 8 e.body.length ++ (e.body ++
      (toLe 8 e.storedAt.toNat ++ (wrOptU64 e.maxAge ++ (wrOptStr e.etag ++
      (wrOptStr e.lastModified ++ ((toLe 4 e.vary.length ++ e.vary.flatMap wrStr) ++
      ((toLe 4 e.varyRequestHeaders.length ++ e.varyRequestHeaders.flatMap wrPair) ++
      [if e.mustRevalidate then 1 else 0])))))))))))) () () e := by
    refine (hmagic ▸ reads_take (utf8 "TBC2") ()).bind ?_
    rw [if_neg (fun h => h.1 rfl)]
    refine (reads_uint (k := 2) hstatus ()).bind ?_
    refine (reads_rdStr he.reason).bind ?_
    refine (reads_rdList he.headers fun h hh => reads_rdPair (he.header h hh).1 (he.header h hh).2).bind ?_
    refine (reads_uint (k := 8) hbody ()).bind ?_
    refine (reads_take e.body ()).bind ?_
    refine (reads_rdU64 e.storedAt).bind ?_
    refine (reads_optU64 e.maxAge).bind ?_
    refine (reads_optStr he.etag).bind ?_
    refine (reads_optStr he.lastModified).bind ?_
    refine (reads_rdList he.varyLength fun s hs => reads_rdStr (he.vary s hs)).bind ?_
    rw [if_pos rfl]
    refine (reads_rdList he.requestHeaders fun h hh =>
      reads_rdPair (he.requestHeader h hh).1 (he.requestHeader h hh).2).bind ?_
    refine (reads_flag e.mustRevalidate).bind_eq ?_
    have hflag : decide ((if e.mustRevalidate then 1 else 0) ≠ 0) = e.mustRevalidate := by
      cases e.mustRevalidate <;> rfl
    rw [hflag, UInt16.ofNat_toNat]
    exact dif_pos e.size
  refine hread.cast ?_ rfl
  simp only [serializeEntry, List.append_assoc]

theorem deserialize_serialize {e : CachedEntry} (he : Fits e) :
    deserializeEntry (serializeEntry e) = some e := by
  have h := (reads_entry he).whole []
  rw [List.append_nil] at h
  rw [deserializeEntry, h]

/-! ### Histories -/

namespace CacheStore

variable {s t : CacheStore} {k k' : String} {e e' : CachedEntry} {acts : List Act}

theorem lookup_evictOne {v : String} (h : s.evictOne = some (v, t))
    (hk : t.map.lookup k = some e) : s.map.lookup k = some e := by
  unfold evictOne at h
  split_ifs at h
  cases horder : s.order with
  | nil => simp [horder] at h
  | cons victim order =>
    rw [horder] at h
    cases hv : s.map.lookup victim with
    | none =>
      simp only [hv, Option.some.injEq, Prod.mk.injEq] at h
      obtain ⟨-, rfl⟩ := h
      exact hk
    | some old =>
      simp only [hv, Option.some.injEq, Prod.mk.injEq] at h
      obtain ⟨-, rfl⟩ := h
      by_cases heq : k = victim
      · subst heq
        rw [AList.lookup_erase] at hk
        cases hk
      · rwa [AList.lookup_erase_ne heq] at hk

/-- Evictions only take entries away. -/
theorem lookup_evict {fuel : ℕ} (hk : (evict fuel s).map.lookup k = some e) :
    s.map.lookup k = some e := by
  induction fuel generalizing s with
  | zero => exact hk
  | succ fuel ih =>
    unfold evict at hk
    cases h : s.evictOne with
    | none => rwa [h] at hk
    | some p =>
      rw [h] at hk
      exact lookup_evictOne h (ih hk)

theorem lookup_insert (h : s.insert k' e' = some t) (hk : t.map.lookup k = some e) :
    k = k' ∧ e = e' ∨ s.map.lookup k = some e := by
  obtain ⟨t', hpushed, rfl⟩ := Option.map_eq_some_iff.mp h
  have hk' := lookup_evict hk
  unfold pushed at hpushed
  dsimp only at hpushed
  by_cases heq : k = k'
  · subst heq
    left
    split_ifs at hpushed
    obtain rfl := Option.some.inj hpushed
    rw [AList.lookup_insert] at hk'
    exact ⟨rfl, (Option.some.inj hk').symm⟩
  · right
    split_ifs at hpushed
    obtain rfl := Option.some.inj hpushed
    rw [AList.lookup_insert_ne heq] at hk'
    cases hold : s.map.lookup k' with
    | none => simpa [hold] using hk'
    | some old => simpa [hold, AList.lookup_erase_ne heq] using hk'

theorem lookup_remove (hk : (s.remove k').map.lookup k = some e) : s.map.lookup k = some e := by
  unfold remove at hk
  cases hold : s.map.lookup k' with
  | none => simpa [hold] using hk
  | some old =>
    by_cases heq : k = k'
    · subst heq
      simp [hold] at hk
    · simpa [hold, AList.lookup_erase_ne heq] using hk

end CacheStore

namespace HttpCache

inductive Act where
  | put (url : String) (entry : CachedEntry) (written : Bool)
  | get (url : String) (readable : Bool)
  | invalidate (url : String) (removed : Bool)
  | restart

def step (c : HttpCache) : Act → Option HttpCache
  | .put url entry written => c.put url entry written
  | .get url readable => (c.get url readable).map Prod.snd
  | .invalidate url removed => some (c.invalidate url removed)
  | .restart => some c.restart

variable {c c' : HttpCache} {u v : String} {e : CachedEntry} {stored : String → CachedEntry → Prop}

/-- What is in memory and in the files was stored, for some URL with the same file. -/
structure Holds (stored : String → CachedEntry → Prop) (c : HttpCache) : Prop where
  sound : ∃ acts, CacheStore.Sound acts c.inner
  capped : c.inner.Capped
  memory : ∀ u e, c.inner.map.lookup u = some e → ∃ v, cacheFilename v = cacheFilename u ∧ stored v e
  files : ∀ files, c.disk = some files → ∀ name bytes, files name = some bytes →
    ∃ v e, cacheFilename v = name ∧ stored v e ∧ bytes = serializeEntry e

namespace Holds

/-- Storing an entry in memory. -/
theorem insert (h : Holds stored c) (hv : cacheFilename v = cacheFilename u) (he : stored v e) :
    ∃ inner, c.inner.insert u e = some inner ∧ Holds stored { c with inner := inner } := by
  obtain ⟨acts, hs⟩ := h.sound
  obtain ⟨⟨inner, hinsert, hs', hc'⟩, -⟩ :=
    @CacheStore.insert_spec _ _ e _ (.insert u e) hs h.capped rfl
  refine ⟨inner, hinsert, ⟨_, hs'⟩, hc', fun k e' hk => ?_, h.files⟩
  rcases CacheStore.lookup_insert hinsert hk with ⟨rfl, rfl⟩ | hold
  · exact ⟨v, hv, he⟩
  · exact h.memory k e' hold

theorem fresh (h : Holds stored c) : Holds stored c.restart := by
  refine ⟨⟨[], .refl _, List.Pairwise.nil, rfl⟩, ⟨Nat.zero_le _, .inl (Nat.zero_le _)⟩, ?_, h.files⟩
  intro u e hlookup
  have hnone : CacheStore.new.map.lookup u = none := AList.lookup_empty u
  exact absurd (hnone.symm.trans hlookup) nofun

theorem put (h : Holds stored c) (he : stored u e) (written : Bool) :
    ∃ c', c.put u e written = some c' ∧ Holds stored c' := by
  obtain ⟨inner, hinsert, hinner⟩ := h.insert (v := u) rfl he
  refine ⟨_, congrArg (Option.map _) hinsert, hinner.sound, hinner.capped, hinner.memory, ?_⟩
  intro files hfiles name bytes hname
  obtain ⟨old, hold, rfl⟩ := Option.map_eq_some_iff.mp hfiles
  cases written with
  | false => exact h.files old hold name bytes hname
  | true =>
    rw [if_pos rfl] at hname
    by_cases heq : name = cacheFilename u
    · rw [heq, Function.update_self] at hname
      exact ⟨u, e, heq.symm, he, (Option.some.inj hname).symm⟩
    · rw [Function.update_of_ne heq] at hname
      exact h.files old hold name bytes hname

theorem invalidate (h : Holds stored c) (removed : Bool) : Holds stored (c.invalidate u removed) := by
  obtain ⟨acts, hs⟩ := h.sound
  refine ⟨⟨acts, hs.remove u⟩, CacheStore.capped_remove hs h.capped,
    fun k e hk => h.memory k e (CacheStore.lookup_remove hk), ?_⟩
  intro files hfiles name bytes hname
  obtain ⟨old, hold, rfl⟩ := Option.map_eq_some_iff.mp hfiles
  cases removed with
  | false => exact h.files old hold name bytes hname
  | true =>
    rw [if_pos rfl] at hname
    by_cases heq : name = cacheFilename u
    · rw [heq, Function.update_self] at hname
      cases hname
    · rw [Function.update_of_ne heq] at hname
      exact h.files old hold name bytes hname

/-- A lookup gives what was stored for a URL with the same file. -/
theorem get (h : Holds stored c) (hfits : ∀ v e, stored v e → Fits e) (u : String)
    (readable : Bool) :
    ∃ r c', c.get u readable = some (r, c') ∧ Holds stored c' ∧
      ∀ e, r = some e → ∃ v, cacheFilename v = cacheFilename u ∧ stored v e := by
  unfold HttpCache.get
  cases hlookup : c.inner.map.lookup u with
  | some e =>
    obtain ⟨acts, hs⟩ := h.sound
    have hhit : c.inner.hit u = c.inner.touch u := if_pos (by rw [hlookup]; rfl)
    have hmap : (c.inner.touch u).map = c.inner.map := by
      unfold CacheStore.touch
      split_ifs <;> rfl
    refine ⟨_, _, rfl, ⟨⟨_, hhit ▸ hs.hit (a := .get u) rfl⟩, hhit ▸ CacheStore.capped_hit h.capped,
      fun k e' hk => h.memory k e' (hmap ▸ hk), h.files⟩, fun e' he' => ?_⟩
    exact Option.some.inj he' ▸ h.memory u e hlookup
  | none =>
    cases hfile : c.disk.bind (· (cacheFilename u)) with
    | none => exact ⟨none, c, rfl, h, nofun⟩
    | some bytes =>
      obtain ⟨files, hdisk, hname⟩ := Option.bind_eq_some_iff.mp hfile
      obtain ⟨v, e, hv, he, rfl⟩ := h.files files hdisk _ _ hname
      cases readable with
      | false => exact ⟨none, c, rfl, h, nofun⟩
      | true =>
        obtain ⟨inner, hinsert, hinner⟩ := h.insert hv he
        simp only [if_true, deserialize_serialize (hfits v e he), hinsert, Option.map_some]
        refine ⟨_, _, rfl, hinner, fun e' he' => ?_⟩
        exact Option.some.inj he' ▸ ⟨v, hv, he⟩

theorem step {a : Act} (h : Holds stored c) (hfits : ∀ v e, stored v e → Fits e)
    (ha : ∀ u e written, a = .put u e written → stored u e) :
    ∃ c', step c a = some c' ∧ Holds stored c' := by
  cases a with
  | put u e written => exact h.put (ha u e written rfl) written
  | get u readable =>
    obtain ⟨r, c', hget, hc', -⟩ := h.get hfits u readable
    exact ⟨c', congrArg (Option.map _) hget, hc'⟩
  | invalidate u removed => exact ⟨_, rfl, h.invalidate removed⟩
  | restart => exact ⟨_, rfl, h.fresh⟩

theorem runs {acts : List Act} (h : Holds stored c) (hfits : ∀ v e, stored v e → Fits e)
    (ha : ∀ u e written, .put u e written ∈ acts → stored u e) :
    ∃ c', runs HttpCache.step c acts = some c' ∧ Holds stored c' := by
  induction acts generalizing c with
  | nil => exact ⟨c, rfl, h⟩
  | cons a acts ih =>
    obtain ⟨c₁, h₁, hc₁⟩ :=
      h.step hfits fun u e written ha' => ha u e written (ha' ▸ List.mem_cons_self)
    obtain ⟨c₂, h₂, hc₂⟩ :=
      ih hc₁ fun u e written ha' => ha u e written (List.mem_cons_of_mem _ ha')
    exact ⟨c₂, by rw [Lib.runs, h₁]; exact h₂, hc₂⟩

end Holds

/-- Records are read back, and in every history of entries that fit, a lookup gives an entry
that was stored for the URL when no other stored URL has its file. -/
theorem disk_cache (acts : List Act) :
    (∀ e, Fits e → deserializeEntry (serializeEntry e) = some e) ∧
      ((∀ u e written, Act.put u e written ∈ acts → Fits e) →
        ∃ c, runs step withDiskDir acts = some c ∧
          ∀ u readable, ∃ r c', c.get u readable = some (r, c') ∧ ∀ e, r = some e →
            (∀ v e' written, Act.put v e' written ∈ acts → cacheFilename v = cacheFilename u → v = u) →
            ∃ written, Act.put u e written ∈ acts) := by
  refine ⟨fun e he => deserialize_serialize he, fun hfits => ?_⟩
  have hstored : ∀ v e, (∃ written, Act.put v e written ∈ acts) → Fits e :=
    fun v e ⟨written, h⟩ => hfits v e written h
  have hstart : Holds (fun v e => ∃ written, Act.put v e written ∈ acts) withDiskDir := by
    refine ⟨⟨[], .refl _, List.Pairwise.nil, rfl⟩, ⟨Nat.zero_le _, .inl (Nat.zero_le _)⟩, ?_, ?_⟩
    · intro u e hlookup
      have hnone : CacheStore.new.map.lookup u = none := AList.lookup_empty u
      exact absurd (hnone.symm.trans hlookup) nofun
    · intro files hfiles name bytes hname
      obtain rfl := Option.some.inj hfiles
      cases hname
  obtain ⟨c, hrun, hc⟩ := hstart.runs hstored fun u e written h => ⟨written, h⟩
  refine ⟨c, hrun, fun u readable => ?_⟩
  obtain ⟨r, c', hget, -, hr⟩ := hc.get hstored u readable
  refine ⟨r, c', hget, fun e he hapart => ?_⟩
  obtain ⟨v, hv, written, hput⟩ := hr e he
  exact ⟨written, hapart v e written hput hv ▸ hput⟩

def firstUrl : String := "http://a.example/?x=abcdhggpddhflpiehncj"

def secondUrl : String := "http://a.example/?x=abcdoklcjidemjmabjja"

/-- An entry with an empty body. -/
def emptyEntry : CachedEntry :=
  ⟨200, "OK", [], [], 0, none, none, none, [], [], false, by decide⟩

/-- A new process takes what it finds in the file. -/
theorem get_file {files : String → Option Bytes} (he : Fits e)
    (hfile : files (cacheFilename u) = some (serializeEntry e)) :
    ∃ c', (⟨.new, some files⟩ : HttpCache).get u true = some (some e, c') := by
  have hnone : CacheStore.new.map.lookup u = none := AList.lookup_empty u
  simp only [get, hnone, Option.bind_some, hfile, if_true, deserialize_serialize he,
    CacheStore.insert_new, Option.map_some]
  exact ⟨_, rfl⟩

/-- A text that is put in, and found by the next process. -/
def textEntry : CachedEntry :=
  ⟨200, "OK", [("Content-Type", "text/plain"), ("ETag", "\"1\"")], [104, 105], 7, some 60,
    some "\"1\"", none, [], [], false, by decide⟩

theorem disk_cache_sample :
    ∃ c c', runs step withDiskDir [.put firstUrl textEntry true, .restart] = some c ∧
      c.get firstUrl true = some (some textEntry, c') ∧
      ∃ written, Act.put firstUrl textEntry written ∈ [.put firstUrl textEntry true, .restart] := by
  have hfits : Fits textEntry :=
    ⟨by decide, by decide, by decide, by decide, nofun, by decide, nofun, by decide, nofun⟩
  have hput : ∀ u e written,
      Act.put u e written ∈ [.put firstUrl textEntry true, .restart] → u = firstUrl ∧ e = textEntry := by
    intro u e written h
    rcases List.mem_cons.mp h with heq | h
    · cases heq
      exact ⟨rfl, rfl⟩
    · cases List.mem_singleton.mp h
  obtain ⟨c, hrun, hget⟩ := (disk_cache [.put firstUrl textEntry true, .restart]).2
    fun u e written h => (hput u e written h).2 ▸ hfits
  obtain ⟨r, c', hr, hstored⟩ := hget firstUrl true
  have hfile : Function.update (fun _ => none) (cacheFilename firstUrl)
      (some (serializeEntry textEntry)) (cacheFilename firstUrl) =
        some (serializeEntry textEntry) := Function.update_self ..
  obtain ⟨c'', hfound⟩ := get_file hfits hfile
  have hdisk : runs step withDiskDir [.put firstUrl textEntry true, .restart] =
      some ⟨.new, some (Function.update (fun _ => none) (cacheFilename firstUrl)
        (some (serializeEntry textEntry)))⟩ := by
    simp only [runs, step, put, withDiskDir, CacheStore.insert_new]
    rfl
  obtain rfl := Option.some.inj (hdisk.symm.trans hrun)
  obtain ⟨rfl, -⟩ := Prod.mk.inj (Option.some.inj (hfound.symm.trans hr))
  exact ⟨_, c', hrun, hr, hstored textEntry rfl fun v e' written h _ => (hput v e' written h).1⟩

/-- The two URLs have one file, and what was stored for the first is found for the second. -/
theorem disk_cache_fails :
    firstUrl ≠ secondUrl ∧ cacheFilename firstUrl = cacheFilename secondUrl ∧
      ∃ c c', runs step withDiskDir [.put firstUrl emptyEntry true, .restart] = some c ∧
        c.get secondUrl true = some (some emptyEntry, c') := by
  have hname : cacheFilename secondUrl = cacheFilename firstUrl := by decide +kernel
  have hfits : Fits emptyEntry :=
    ⟨by decide, by decide, nofun, nofun, nofun, by decide, nofun, by decide, nofun⟩
  have hfile : Function.update (fun _ => none) (cacheFilename firstUrl)
      (some (serializeEntry emptyEntry)) (cacheFilename secondUrl) =
        some (serializeEntry emptyEntry) := by
    rw [hname, Function.update_self]
  obtain ⟨c', hget⟩ := get_file hfits hfile
  refine ⟨by decide, hname.symm, _, c', ?_, hget⟩
  simp only [runs, step, put, withDiskDir, CacheStore.insert_new]
  rfl

end HttpCache

end Conclave.Net.Cache
