import Conclave.Lib.Recency
import Conclave.Net.Cache

/-! The accounts of the memory store over whole runs: the order of use, the byte counter,
the caps and who is evicted. -/

namespace Conclave.Net.Cache

open Lib

inductive Act where
  | insert (url : String) (entry : CachedEntry)
  | get (url : String)
  | remove (url : String)
  /-- A 304 response came for the entry. -/
  | refresh (url : String) (now : UInt64) (headers : List (String × String))

namespace Act

def uses : Act → Option String
  | insert url _ | get url | refresh url _ _ => some url
  | remove _ => none

end Act

namespace CacheStore

variable {s t : CacheStore} {url v k : String} {entry e : CachedEntry} {acts : List Act} {a : Act}
  {map : Map}

/-- An entry that is used is at hand. -/
def hit (s : CacheStore) (url : String) : CacheStore :=
  if (s.map.lookup url).isSome then s.touch url else s

def step (s : CacheStore) : Act → Option CacheStore
  | .insert url entry => s.insert url entry
  | .get url => some (s.hit url)
  | .remove url => some (s.remove url)
  | .refresh url now headers =>
    match s.map.lookup url with
    | some e => (s.hit url).insert url (e.refreshAfter304 now headers)
    | none => some s

/-- The victims of the loop, each with the store it was evicted from. -/
def evictions : ℕ → CacheStore → List (String × CacheStore)
  | 0, _ => []
  | fuel + 1, s =>
    match s.evictOne with
    | some (victim, s') => (victim, s) :: evictions fuel s'
    | none => []

def insertEvictions (s : CacheStore) (url : String) (entry : CachedEntry) :
    List (String × CacheStore) :=
  (s.pushed url entry).elim [] fun t => evictions t.order.length t

/-- The evictions of an act. -/
def evicted (s : CacheStore) : Act → List (String × CacheStore)
  | .insert url entry => s.insertEvictions url entry
  | .refresh url now headers =>
    (s.map.lookup url).elim [] fun e =>
      (s.hit url).insertEvictions url (e.refreshAfter304 now headers)
  | _ => []

/-! ### The stored bytes -/

def total (map : Map) : ℕ := (map.entries.map fun p => p.2.body.length).sum

theorem entries_of_lookup (h : map.lookup k = some e) :
    ∃ l₁ l₂, map.entries = l₁ ++ ⟨k, e⟩ :: l₂ ∧ (map.erase k).entries = l₁ ++ l₂ := by
  have hk : k ∈ map.entries.keys := AList.lookup_isSome.mp (h ▸ rfl)
  obtain ⟨e', l₁, l₂, hl₁, heq, herase⟩ := List.exists_of_kerase hk
  have hmem : (⟨k, e'⟩ : Sigma fun _ => CachedEntry) ∈ map.entries := by simp [heq]
  have he : map.lookup k = some e' := AList.mem_lookup_iff.mpr hmem
  obtain rfl := Option.some.inj (h.symm.trans he)
  exact ⟨l₁, l₂, heq, herase⟩

theorem total_erase (h : map.lookup k = some e) :
    total (map.erase k) + e.body.length = total map := by
  obtain ⟨l₁, l₂, heq, herase⟩ := entries_of_lookup h
  simp only [total, heq, herase, List.map_append, List.map_cons, List.sum_append, List.sum_cons]
  omega

theorem le_total (h : map.lookup k = some e) : e.body.length ≤ total map := by
  have := total_erase h
  omega

theorem total_insert (h : k ∉ map) : total (map.insert k e) = e.body.length + total map := by
  rw [total, AList.entries_insert_of_notMem h, List.map_cons, List.sum_cons]
  rfl

/-! ### What every operation keeps -/

/-- The order is that of the last uses of the keys, and the counter that of the bodies. -/
structure Sound (acts : List Act) (s : CacheStore) : Prop where
  perm : s.order.Perm s.map.keys
  byUse : ByUse Act.uses acts s.order
  bytes : s.bytes = total s.map

/-- One entry may be as large as it likes. -/
structure Capped (s : CacheStore) : Prop where
  len : s.len ≤ maxMemEntries
  bytes : s.bytes ≤ maxMemBytes ∨ s.len = 1

theorem capped_of_not_overCap (h : ¬ s.overCap) (hs : Sound acts s) : Capped s := by
  simp only [overCap, not_or, not_and, not_lt] at h
  refine ⟨h.1, ?_⟩
  by_cases hb : s.bytes ≤ maxMemBytes
  · exact .inl hb
  · right
    have hle := h.2 (by omega)
    have hpos : s.len ≠ 0 := by
      intro hzero
      have hnil : s.map.entries = [] := List.length_eq_zero_iff.mp hzero
      have hbytes := hs.bytes
      rw [total, hnil] at hbytes
      exact hb (hbytes ▸ Nat.zero_le _)
    omega

namespace Sound

theorem nodup (hs : Sound acts s) : s.order.Nodup :=
  hs.perm.nodup_iff.mpr s.map.keys_nodup

theorem mem_order (hs : Sound acts s) : k ∈ s.order ↔ k ∈ s.map := hs.perm.mem_iff

theorem length (hs : Sound acts s) : s.order.length = s.len := by
  rw [hs.perm.length_eq, AList.keys, List.keys, List.length_map, len]

/-- An act that uses no stored key. -/
theorem snoc (hs : Sound acts s) (ha : ∀ k ∈ s.map, a.uses ≠ some k) : Sound (acts ++ [a]) s :=
  ⟨hs.perm, hs.byUse.snoc fun k hk => ha k (hs.mem_order.mp hk), hs.bytes⟩

/-- A key is taken out of all three. -/
theorem erase (hs : Sound acts s) (h : s.map.lookup k = some e) :
    Sound acts ⟨s.map.erase k, s.order.erase k, s.bytes - e.body.length⟩ where
  perm := by
    rw [AList.keys_erase]
    exact hs.perm.erase k
  byUse := hs.byUse.sublist List.erase_sublist
  bytes := by
    have := total_erase h
    have := hs.bytes
    dsimp only
    omega

/-- A new key goes to the end of the order. -/
theorem push (hs : Sound acts s) (ha : a.uses = some k) (hk : k ∉ s.map) :
    Sound (acts ++ [a]) ⟨s.map.insert k e, s.order ++ [k], s.bytes + e.body.length⟩ where
  perm := by
    have hkeys : k ∉ s.map.keys := hk
    rw [AList.keys_insert, List.erase_of_not_mem hkeys]
    exact List.perm_append_comm.trans (hs.perm.cons k)
  byUse := hs.byUse.use ha fun h => hk (hs.mem_order.mp h)
  bytes := by
    dsimp only
    rw [total_insert hk, hs.bytes, Nat.add_comm]

theorem hit (hs : Sound acts s) (ha : a.uses = some k) : Sound (acts ++ [a]) (s.hit k) := by
  unfold CacheStore.hit
  split_ifs with h
  · have hmem : k ∈ s.order := hs.mem_order.mpr (AList.lookup_isSome.mp h)
    rw [touch, if_pos hmem]
    refine ⟨?_, ?_, hs.bytes⟩
    · exact (List.perm_append_comm.trans (List.perm_cons_erase hmem).symm).trans hs.perm
    · exact (hs.byUse.sublist List.erase_sublist).use ha (hs.nodup.not_mem_erase)
  · refine hs.snoc fun j hj heq => h ?_
    obtain rfl := Option.some.inj (ha.symm.trans heq)
    exact AList.lookup_isSome.mpr hj

theorem remove (hs : Sound acts s) (k : String) : Sound acts (s.remove k) := by
  unfold CacheStore.remove
  cases h : s.map.lookup k with
  | some e => exact hs.erase h
  | none =>
    have hk : k ∉ s.order := fun hmem => AList.lookup_eq_none.mp h (hs.mem_order.mp hmem)
    rw [List.erase_of_not_mem hk]
    exact hs

end Sound

/-! ### The loop -/

/-- A victim is the key that was not used for the longest time. -/
structure Oldest (acts : List Act) (v : String) (s : CacheStore) : Prop where
  stored : ∃ e, s.map.lookup v = some e ∧ e.body.length ≤ s.bytes
  oldest : ∀ k ∈ s.map, k ≠ v → lastUse Act.uses acts v < lastUse Act.uses acts k

theorem evictOne_spec (hs : Sound acts s) (h : s.evictOne = some (v, t)) :
    Sound acts t ∧ t.order.length + 1 = s.order.length ∧ Oldest acts v s := by
  unfold evictOne at h
  split_ifs at h
  cases horder : s.order with
  | nil => simp [horder] at h
  | cons victim order =>
    have hmem : victim ∈ s.map := hs.mem_order.mp (horder ▸ List.mem_cons_self)
    obtain ⟨e, he⟩ := Option.isSome_iff_exists.mp (AList.lookup_isSome.mpr hmem)
    simp only [horder, he, Option.some.injEq, Prod.mk.injEq] at h
    obtain ⟨rfl, rfl⟩ := h
    have herase := hs.erase he
    rw [horder, List.erase_cons_head] at herase
    refine ⟨herase, rfl, ⟨e, he, hs.bytes ▸ le_total he⟩, fun k hk hne => ?_⟩
    have hby := hs.byUse
    rw [horder] at hby
    have hk' := hs.mem_order.mpr hk
    rw [horder] at hk'
    exact (List.pairwise_cons.mp hby).1 k ((List.mem_cons.mp hk').resolve_left hne)

theorem evictOne_none (hs : Sound acts s) (h : s.evictOne = none) : Capped s := by
  refine capped_of_not_overCap (fun hover => ?_) hs
  unfold evictOne at h
  rw [if_pos hover] at h
  cases horder : s.order with
  | nil =>
    have hlen := hs.length
    rw [horder] at hlen
    rcases hover with hover | hover
    · exact absurd hover (by rw [← hlen]; simp)
    · exact absurd hover.2 (by rw [← hlen]; simp)
  | cons victim order =>
    simp only [horder] at h
    cases hv : s.map.lookup victim <;> simp [hv] at h

theorem evict_spec {fuel : ℕ} (hs : Sound acts s) (hfuel : s.order.length ≤ fuel) :
    Sound acts (evict fuel s) ∧ Capped (evict fuel s) := by
  induction fuel generalizing s with
  | zero =>
    refine ⟨hs, capped_of_not_overCap ?_ hs⟩
    have hlen : s.len = 0 := by rw [← hs.length]; omega
    rintro (hover | ⟨-, hover⟩)
    · exact absurd (hlen ▸ hover) (Nat.not_lt_zero _)
    · exact absurd (hlen ▸ hover) (by decide)
  | succ fuel ih =>
    unfold evict
    cases h : s.evictOne with
    | none => exact ⟨hs, evictOne_none hs h⟩
    | some p =>
      obtain ⟨ht, hlen, -⟩ := evictOne_spec hs h
      exact ih ht (by omega)

theorem evictions_spec {fuel : ℕ} (hs : Sound acts s) :
    ∀ p ∈ evictions fuel s, Oldest acts p.1 p.2 := by
  induction fuel generalizing s with
  | zero => exact fun p hp => absurd hp List.not_mem_nil
  | succ fuel ih =>
    unfold evictions
    cases h : s.evictOne with
    | none => exact fun p hp => absurd hp List.not_mem_nil
    | some q =>
      obtain ⟨ht, -, hold⟩ := evictOne_spec hs h
      intro p hp
      rcases List.mem_cons.mp hp with rfl | hp
      · exact hold
      · exact ih ht p hp

/-! ### Acts -/

/-- The old entry goes out and the new one in, and the counter does not overflow. -/
theorem pushed_spec (hs : Sound acts s) (hc : Capped s) (ha : a.uses = some k) :
    ∃ t, s.pushed k entry = some t ∧ Sound (acts ++ [a]) t := by
  have hsmall : s.bytes < 2 ^ 63 := by
    rcases hc.bytes with hb | hone
    · exact hb.trans_lt (by decide)
    · obtain ⟨p, hp⟩ := List.length_eq_one_iff.mp hone
      rw [hs.bytes, total, hp]
      simpa using p.2.size
  have hentry := entry.size
  unfold pushed
  cases h : s.map.lookup k with
  | some old =>
    dsimp only
    rw [if_pos (by omega)]
    exact ⟨_, rfl, (hs.erase h).push ha fun hk => (AList.mem_erase.mp hk).1 rfl⟩
  | none =>
    dsimp only
    rw [if_pos (by omega)]
    exact ⟨_, rfl, hs.push ha (AList.lookup_eq_none.mp h)⟩

theorem insert_spec (hs : Sound acts s) (hc : Capped s) (ha : a.uses = some k) :
    (∃ t, s.insert k entry = some t ∧ Sound (acts ++ [a]) t ∧ Capped t) ∧
      ∀ p ∈ s.insertEvictions k entry, Oldest (acts ++ [a]) p.1 p.2 := by
  obtain ⟨t, ht, hsound⟩ := @pushed_spec _ _ entry _ _ hs hc ha
  rw [insert, insertEvictions, ht]
  exact ⟨⟨_, rfl, evict_spec hsound le_rfl⟩, evictions_spec hsound⟩

/-- A hit just before makes no difference to an insertion. -/
theorem pushed_hit (hs : Sound acts s) : (s.hit k).pushed k entry = s.pushed k entry := by
  unfold CacheStore.hit
  split_ifs with h
  · have hmem : k ∈ s.order := hs.mem_order.mpr (AList.lookup_isSome.mp h)
    obtain ⟨old, hold⟩ := Option.isSome_iff_exists.mp h
    have herase : (s.order.erase k ++ [k]).erase k = s.order.erase k := by
      rw [List.erase_append_right _ hs.nodup.not_mem_erase, List.erase_cons_head, List.append_nil]
    simp only [touch, if_pos hmem, pushed, hold, herase]
  · rfl

theorem capped_hit (hc : Capped s) : Capped (s.hit k) := by
  unfold CacheStore.hit touch
  split_ifs <;> exact ⟨hc.len, hc.bytes⟩

/-- Taking a key out keeps the caps. -/
theorem capped_remove (hs : Sound acts s) (hc : Capped s) : Capped (s.remove k) := by
  unfold CacheStore.remove
  cases h : s.map.lookup k with
  | none => exact ⟨hc.len, hc.bytes⟩
  | some e =>
    obtain ⟨l₁, l₂, heq, herase⟩ := entries_of_lookup h
    have hlen : (⟨s.map.erase k, s.order.erase k, s.bytes - e.body.length⟩ : CacheStore).len + 1 =
        s.len := by
      simp only [len, heq, herase, List.length_append, List.length_cons]
      omega
    refine capped_of_not_overCap ?_ (hs.erase h)
    have hmax := hc.len
    dsimp only
    rintro (hover | ⟨hbytes, hover⟩)
    · omega
    · rcases hc.bytes with hb | hone
      · have hle : s.bytes - e.body.length ≤ maxMemBytes := (Nat.sub_le _ _).trans hb
        exact absurd hbytes (not_lt.mpr hle)
      · omega

theorem step_spec (hs : Sound acts s) (hc : Capped s) (a : Act) :
    (∃ t, step s a = some t ∧ Sound (acts ++ [a]) t ∧ Capped t) ∧
      ∀ p ∈ s.evicted a, Oldest (acts ++ [a]) p.1 p.2 := by
  cases a with
  | insert url entry => exact insert_spec hs hc rfl
  | get url =>
    exact ⟨⟨_, rfl, hs.hit rfl, capped_hit hc⟩, fun p hp => absurd hp List.not_mem_nil⟩
  | remove url =>
    refine ⟨⟨_, rfl, (hs.remove url).snoc fun _ _ => nofun, capped_remove hs hc⟩,
      fun p hp => absurd hp List.not_mem_nil⟩
  | refresh url now headers =>
    cases h : s.map.lookup url with
    | none =>
      refine ⟨⟨s, by rw [step, h], hs.snoc fun j hj heq => ?_, hc⟩, fun p hp => ?_⟩
      · obtain rfl := Option.some.inj heq
        exact AList.lookup_eq_none.mp h hj
      · rw [evicted, h] at hp
        exact absurd hp List.not_mem_nil
    | some e =>
      have hspec := @insert_spec _ _ (e.refreshAfter304 now headers) _
        (.refresh url now headers) hs hc rfl
      rw [insert, insertEvictions, ← pushed_hit hs, ← insert, ← insertEvictions] at hspec
      simp only [step, evicted, h]
      exact hspec

theorem runs_sound (acts : List Act) : ∃ s, runs step new acts = some s ∧ Sound acts s ∧ Capped s := by
  induction acts using List.reverseRecOn with
  | nil =>
    exact ⟨new, rfl, ⟨.refl _, List.Pairwise.nil, rfl⟩, Nat.zero_le _, .inl (Nat.zero_le _)⟩
  | append_singleton acts a ih =>
    obtain ⟨s, hrun, hs, hc⟩ := ih
    obtain ⟨t, ht, hkept⟩ := (step_spec hs hc a).1
    refine ⟨t, ?_, hkept⟩
    rw [runs_append, hrun, Option.bind_some, runs, ht]
    rfl

/-- No run fails, and after each one the order holds the keys without repetition, the counter
is the sum of the bodies, the entries are as many as they may be at most and so are the bytes,
unless they are those of a single entry; what the next act evicts was not used for the longest
time. -/
theorem cache_accounting (acts : List Act) :
    ∃ s, runs step new acts = some s ∧ s.order.Nodup ∧ s.order.Perm s.map.keys ∧
      s.bytes = total s.map ∧ s.len ≤ maxMemEntries ∧ (s.bytes ≤ maxMemBytes ∨ s.len = 1) ∧
      (∀ k e, s.map.lookup k = some e → e.body.length ≤ s.bytes) ∧
      ∀ a, ∀ p ∈ s.evicted a, Oldest (acts ++ [a]) p.1 p.2 := by
  obtain ⟨s, hrun, hs, hc⟩ := runs_sound acts
  exact ⟨s, hrun, hs.nodup, hs.perm, hs.bytes, hc.len, hc.bytes,
    fun k e h => hs.bytes ▸ le_total h, fun a => (step_spec hs hc a).2⟩

/-- An entry with so many zero bytes. -/
def zeros (n : ℕ) (h : n < 2 ^ 63) : CachedEntry :=
  ⟨200, "OK", [], List.replicate n 0, 0, none, none, none, [], [], false, by
    rwa [List.length_replicate]⟩

theorem length_zeros (n : ℕ) (h : n < 2 ^ 63) : (zeros n h).body.length = n :=
  List.length_replicate

/-- A single entry stays, however large it is. -/
theorem insert_new (url : String) (entry : CachedEntry) :
    new.insert url entry =
      some ⟨AList.insert url entry ∅, [url], 0 + entry.body.length⟩ := by
  have hsize := entry.size
  have hbytes : new.bytes + entry.body.length < 2 ^ 64 := by
    show 0 + entry.body.length < 2 ^ 64
    omega
  have hpushed : new.pushed url entry =
      some ⟨AList.insert url entry ∅, [url], 0 + entry.body.length⟩ := if_pos hbytes
  have hlen : (⟨AList.insert url entry ∅, [url], 0 + entry.body.length⟩ : CacheStore).len = 1 := rfl
  have hcalm : ¬ overCap ⟨AList.insert url entry ∅, [url], 0 + entry.body.length⟩ := by
    rintro (hover | ⟨-, hover⟩)
    · rw [hlen] at hover
      exact absurd hover (by decide)
    · rw [hlen] at hover
      exact absurd hover (lt_irrefl 1)
  rw [insert, hpushed]
  simp only [Option.map_some, List.length_singleton, evict, evictOne, if_neg hcalm]

theorem runs_insert_new (url : String) (entry : CachedEntry) :
    runs step new [.insert url entry] =
      some ⟨AList.insert url entry ∅, [url], 0 + entry.body.length⟩ := by
  rw [runs, step, insert_new]
  rfl

theorem cache_accounting_fails :
    ∃ s, runs step new [.insert "http://a.example/" (zeros (maxMemBytes + 1) (by decide))] = some s ∧
      maxMemBytes < s.bytes := by
  refine ⟨_, runs_insert_new _ _, ?_⟩
  rw [length_zeros, Nat.zero_add]
  exact Nat.lt_succ_self _

end CacheStore

end Conclave.Net.Cache
