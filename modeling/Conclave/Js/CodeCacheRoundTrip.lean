import Conclave.Js.CodeCacheReads

/-! A script that was written comes back under its key, unless a site of it went megamorphic:
the key is of the shapes that such a site had, and the site is read back without them. -/

namespace Conclave.Js

open Lib Reader CodeReader

variable {t : ShapeTable} {engine : Engine} {source : String} {m : Module} {blob : Bytes}

/-- The inline cache of a site, where there is one. -/
def BcFunction.icAt (f : BcFunction) (ip : ℕ) : PropIc := f.ic.getD ip .INVALID

/-- No site has gone megamorphic. -/
def Module.Polymorphic (m : Module) : Prop := ∀ f ∈ m.fns, ∀ ic ∈ f.ic, ic.mega = false

theorem validate_of_reads {key : UInt64} {m' : Module} {rest rest' : Bytes}
    (hheader : readHeader blob t = (some key, rest, t))
    (hmodule : deserializeModule key blob t = (some m', rest', t)) :
    validateAndDeserialize engine source blob t =
      if computeKey engine source t m' ≠ key then (none, t) else (some m', t) := by
  simp only [validateAndDeserialize, hheader, hmodule]

/-- What a script is read back as, and whether it is taken. -/
theorem validateAndDeserialize_eq (hin : t.Interned) (hkeys : t.KeysSized) (hm : m.Warmed t)
    (hsized : m.Sized) (hlimits : m.WithinLimits)
    (hblob : serializeModule engine source t m = some blob) :
    validateAndDeserialize engine source blob t =
      if computeKey engine source t m.reload ≠ computeKey engine source t m then (none, t)
      else (some m.reload, t) := by
  rw [serializeModule_eq] at hblob
  obtain ⟨body, hbody, hwritten⟩ := Option.map_eq_some_iff.mp hblob
  generalize computeKey engine source t m = key at hwritten ⊢
  have hheader := (reads_header key t).whole body
  have hmodule := (reads_module hin hkeys hm hsized hlimits hbody key).whole []
  rw [hwritten] at hheader
  rw [List.append_nil, hwritten] at hmodule
  exact validate_of_reads hheader hmodule

theorem reload_site {ic : PropIc} (h : ic.WellFormed t) (hmega : ic.mega = false) :
    ic.reload = ⟨ic.portable, false, .INVALID⟩ := by
  rw [h.reload_eq, hmega]
  rfl

theorem portable_portable (ic : PropIc) :
    (⟨ic.portable, false, .INVALID⟩ : PropIc).portable = ic.portable := by
  simp [PropIc.portable]

theorem siteFeedback_reload {ic : PropIc} (h : ic.WellFormed t) (hmega : ic.mega = false) (ip : ℕ) :
    siteFeedback t ic.reload ip = siteFeedback t ic ip := by
  have hdescr : descriptors t ic.reload = descriptors t ic := by
    rw [reload_site h hmega]
    simp [descriptors, PropIc.serializeOwn, PropIc.portable]
  have hkeeps : keeps ic.reload = keeps ic := by
    rw [reload_site h hmega, keeps, keeps, portable_portable]
    by_cases hnil : ic.portable = []
    · simp [hnil, hmega]
    · have hpos : ic.entries ≠ [] := by
        intro heq
        exact hnil (by rw [PropIc.portable, heq, List.filter_nil])
      simp [PropIc.hasFeedback, hnil, hmega, List.length_pos_iff.mpr hpos, List.length_pos_iff.mpr hnil]
  have hmega' : ic.reload.mega = ic.mega := by rw [reload_site h hmega, hmega]
  rw [siteFeedback_eq, siteFeedback_eq, hdescr, hkeeps, hmega']

/-- A function leaves the same feedback once it is read back. -/
theorem portableFeedback_reload {f : BcFunction} (hf : f.Warmed t) (hmega : ∀ ic ∈ f.ic, ic.mega = false) :
    portableFeedback t f.reload = portableFeedback t f := by
  by_cases hkept : keptSites f.ic = []
  · rw [portableFeedback_eq, portableFeedback_eq, BcFunction.reload, if_pos hkept, hkept]
    rfl
  · have hics : f.reload.ic = f.ic.map PropIc.reload := by rw [BcFunction.reload, if_neg hkept]
    have hwf : ∀ ic ∈ f.ic, ic.WellFormed t := fun ic hic => (hf.recorded ic hic).wellFormed
    rw [portableFeedback, hics, portableFeedback, List.zipIdx_map, List.filterMap_map]
    apply List.filterMap_congr
    rintro ⟨ic, ip⟩ hs
    have hic := List.fst_mem_of_mem_zipIdx hs
    exact siteFeedback_reload (hwf ic hic) (hmega ic hic) ip

theorem computeKey_reload (hm : m.Warmed t) (hpoly : m.Polymorphic) :
    computeKey engine source t m.reload = computeKey engine source t m := by
  have hshapes : shapeAssumptions t m.reload = shapeAssumptions t m := by
    rw [shapeAssumptions, Module.reload, List.zipIdx_map, List.flatMap_map, shapeAssumptions]
    apply List.flatMap_congr
    rintro ⟨f, fi⟩ hs
    have hf := List.fst_mem_of_mem_zipIdx hs
    simp only [Prod.map_apply, id_eq, portableFeedback_reload (hm f hf) (hpoly f hf)]
  rw [computeKey, computeKey, hshapes]

theorem icAt_reload {f : BcFunction} (hf : f.Warmed t) (ip : ℕ) :
    f.reload.icAt ip = (f.icAt ip).reload := by
  have hnone : PropIc.INVALID.reload = .INVALID := rfl
  rw [BcFunction.icAt, BcFunction.icAt, BcFunction.reload, List.getD_eq_getElem?_getD,
    List.getD_eq_getElem?_getD]
  split_ifs with hkept
  · cases hic : f.ic[ip]? with
    | none => rfl
    | some ic =>
      have hmem : (ic, ip) ∈ f.ic.zipIdx := List.mk_mem_zipIdx_iff_getElem?.mpr hic
      have hkeeps := List.filter_eq_nil_iff.mp hkept _ hmem
      have hwf := (hf.recorded ic (List.mem_of_getElem? hic)).wellFormed
      exact (reload_of_not_keeps hwf (Bool.eq_false_of_not_eq_true hkeeps)).symm
  · rw [List.getElem?_map]
    cases f.ic[ip]? <;> rfl

theorem lookup_iff_mem {es : List (ℕ × ℕ)} (hnd : (Entries.keys es).Nodup) {a b : ℕ} :
    es.lookup a = some b ↔ (a, b) ∈ es := by
  induction es with
  | nil => simp
  | cons e es ih =>
    obtain ⟨hnew, hnd⟩ := List.nodup_cons.mp hnd
    rw [List.lookup_cons, List.mem_cons]
    by_cases h : a = e.1
    · subst h
      have hnot : (e.1, b) ∉ es := fun hmem => hnew (List.mem_map.mpr ⟨_, hmem, rfl⟩)
      simp only [beq_self_eq_true, Option.some.injEq, hnot, or_false]
      exact ⟨fun heq => heq ▸ rfl, fun heq => (congrArg Prod.snd heq).symm⟩
    · rw [beq_false_of_ne h]
      refine (ih hnd).trans (or_iff_right fun heq => h ?_).symm
      rw [← heq]

/-- A cache answers after the reload as before, where its answer can be written. -/
theorem lookup_reload {ic : PropIc} (h : ic.WellFormed t) (hmega : ic.mega = false)
    {shape slot : ℕ} (hslot : slot ≠ NO_SLOT) :
    ic.reload.lookup shape = some slot ↔ ic.lookup shape = some slot := by
  have hnodup : (Entries.keys ic.portable).Nodup := h.nodup.sublist (List.filter_sublist.map _)
  rw [reload_site h hmega, PropIc.lookup, PropIc.lookup, hmega]
  simp only [Bool.false_eq_true, if_false]
  rw [lookup_iff_mem hnodup, lookup_iff_mem h.nodup, PropIc.portable, List.mem_filter]
  refine and_iff_left_of_imp fun hmem => ?_
  exact decide_eq_true ⟨(h.entry _ hmem).2.1, hslot⟩

/-- Without a megamorphic site the script that is read is the one that was written, function for
function but for the type feedback, which is empty, and the caches of prototypes, which are cold;
and each inline cache answers as before with every slot that is one. -/
theorem code_cache_round_trip (hgrown : t.Grown) (hkeys : t.KeysSized) (hm : m.Warmed t)
    (hsized : m.Sized) (hlimits : m.WithinLimits) (hpoly : m.Polymorphic)
    (hblob : serializeModule engine source t m = some blob) :
    ∃ m', validateAndDeserialize engine source blob t = (some m', t) ∧
      m'.scriptForinitSyncs = m.scriptForinitSyncs ∧
      List.Forall₂ (fun f f' => f' = { f with ic := f'.ic, feedback := [] } ∧
        ∀ ip, (f'.icAt ip).mega = false ∧ (f'.icAt ip).proto = .INVALID ∧
          ∀ shape slot, slot ≠ NO_SLOT →
            ((f'.icAt ip).lookup shape = some slot ↔ (f.icAt ip).lookup shape = some slot))
        m.fns m'.fns := by
  refine ⟨m.reload, ?_, rfl, ?_⟩
  · rw [validateAndDeserialize_eq hgrown.interned hkeys hm hsized hlimits hblob, if_neg]
    exact not_not.mpr (computeKey_reload hm hpoly)
  · rw [Module.reload, List.forall₂_map_right_iff, List.forall₂_same]
    intro f hf
    refine ⟨rfl, fun ip => ?_⟩
    have hsite : (f.icAt ip).WellFormed t ∧ (f.icAt ip).mega = false := by
      rw [BcFunction.icAt, List.getD_eq_getElem?_getD]
      cases hic : f.ic[ip]? with
      | none => exact ⟨PropIc.Recorded.invalid.wellFormed, rfl⟩
      | some ic =>
        have hmem := List.mem_of_getElem? hic
        exact ⟨((hm f hf).recorded ic hmem).wellFormed, hpoly f hf ic hmem⟩
    rw [icAt_reload (hm f hf)]
    refine ⟨?_, ?_, fun shape slot hslot => lookup_reload hsite.1 hsite.2 hslot⟩
    · rw [reload_site hsite.1 hsite.2]
    · rw [reload_site hsite.1 hsite.2]

/-- A function whose one site has met the empty shape, and whose one instruction has met small
numbers. -/
def sampleFn : BcFunction where
  name := "f"
  nParams := 0
  restReg := none
  nRegs := 1
  consts := []
  code := [.ret 0]
  ic := [(PropIc.INVALID.record 0 0).protoRecord 0 0 64 0 0]
  feedback := [⟨.signedSmall, NO_SLOT, true⟩]
  strict := false

theorem code_cache_round_trip_warmed : ∃ blob m',
    validateAndDeserialize ⟨0, false⟩ "f()" blob .new = (some m', .new) ∧
      m'.scriptForinitSyncs = [] ∧
      List.Forall₂ (fun f f' => f' = { f with ic := f'.ic, feedback := [] } ∧
        ∀ ip, (f'.icAt ip).mega = false ∧ (f'.icAt ip).proto = .INVALID ∧
          ∀ shape slot, slot ≠ NO_SLOT →
            ((f'.icAt ip).lookup shape = some slot ↔ (f.icAt ip).lookup shape = some slot))
        [sampleFn] m'.fns := by
  have hsized : Module.Sized ⟨[sampleFn], []⟩ := by
    refine ⟨fun f hf => ?_, fun s hs => absurd hs List.not_mem_nil⟩
    obtain rfl := List.mem_singleton.mp hf
    exact ⟨by decide, by decide, fun v hv => absurd hv List.not_mem_nil, by decide⟩
  have hwarmed : Module.Warmed .new ⟨[sampleFn], []⟩ := by
    intro f hf
    obtain rfl := List.mem_singleton.mp hf
    refine ⟨.inr rfl, fun ic hic => ?_⟩
    obtain rfl := List.mem_singleton.mp hic
    exact .protoRecord (.record .invalid (.inl (by decide)) (by decide)) 0 0 64 0 0
  have hkeys : ShapeTable.KeysSized .new := by
    intro id hid
    obtain rfl : id = 0 := Nat.lt_one_iff.mp hid
    exact ⟨by decide, fun k hk => absurd hk List.not_mem_nil⟩
  have hpoly : Module.Polymorphic ⟨[sampleFn], []⟩ := by
    intro f hf ic hic
    obtain rfl := List.mem_singleton.mp hf
    obtain rfl := List.mem_singleton.mp hic
    rfl
  exact ⟨_, code_cache_round_trip .new hkeys hwarmed hsized ⟨by decide, by decide⟩ hpoly rfl⟩

end Conclave.Js
