import Conclave.Js.CodeCache
import Conclave.Js.Interning

/-! What is written of a script is read back: instructions and constants as they were,
inline caches as far as they outlive the process. -/

namespace Conclave.Js

open Lib Reader CodeReader

variable {t : ShapeTable}

/-! ### Fields -/

theorem reads_bool (b : Bool) (t : ShapeTable) : Reads CodeReader.bool (writeBool b) t t b := by
  cases b
  · exact (reads_uint (k := 1) (n := 0) (by norm_num) t).map (g := fun n => decide (n ≠ 0))
  · exact (reads_uint (k := 1) (n := 1) (by norm_num) t).map (g := fun n => decide (n ≠ 0))

theorem reads_u8 (v : UInt8) (t : ShapeTable) : Reads u8 (toLe 1 v.toNat) t t v :=
  ((reads_uint (k := 1) v.toNat_lt t).map (g := UInt8.ofNat)).cast rfl UInt8.ofNat_toNat

theorem reads_u16 (v : UInt16) (t : ShapeTable) : Reads u16 (toLe 2 v.toNat) t t v :=
  ((reads_uint (k := 2) v.toNat_lt t).map (g := UInt16.ofNat)).cast rfl UInt16.ofNat_toNat

theorem reads_u64 (v : UInt64) (t : ShapeTable) : Reads u64 (toLe 8 v.toNat) t t v :=
  ((reads_uint (k := 8) v.toNat_lt t).map (g := UInt64.ofNat)).cast rfl UInt64.ofNat_toNat

/-- The elements of a list under their count. -/
theorem reads_counted {α : Type} {n : ℕ} {item : CodeReader α} {w : Bytes} {as : List α}
    (hn : n < 2 ^ 32) (h : Reads (times n item) w t t as) :
    Reads (counted item) (toLe 4 n ++ w) t t as :=
  (reads_uint (k := 4) hn t).bind h

theorem reads_limited {α : Type} {n limit : ℕ} {item : CodeReader α} {w : Bytes} {as : List α}
    (hn : n ≤ limit) (hlimit : limit < 2 ^ 32) (h : Reads (times n item) w t t as) :
    Reads (limited limit item) (toLe 4 n ++ w) t t as := by
  refine (reads_uint (k := 4) (hn.trans_lt hlimit) t).bind ?_
  rwa [if_neg (not_lt.mpr hn)]

/-! ### Instructions -/

theorem reads_op0 (c : Op) (t : ShapeTable) : Reads (op0 c) [] t t c := .pure c t

theorem reads_op1 (c : UInt16 → Op) (r₁ : UInt16) (t : ShapeTable) :
    Reads (op1 c) (toLe 2 r₁.toNat ++ []) t t (c r₁) :=
  (reads_u16 r₁ t).bind (.pure _ t)

theorem reads_op2 (c : UInt16 → UInt16 → Op) (r₁ r₂ : UInt16) (t : ShapeTable) :
    Reads (op2 c) (toLe 2 r₁.toNat ++ (toLe 2 r₂.toNat ++ [])) t t (c r₁ r₂) :=
  (reads_u16 r₁ t).bind (reads_op1 _ r₂ t)

theorem reads_op3 (c : UInt16 → UInt16 → UInt16 → Op) (r₁ r₂ r₃ : UInt16) (t : ShapeTable) :
    Reads (op3 c) (toLe 2 r₁.toNat ++ (toLe 2 r₂.toNat ++ (toLe 2 r₃.toNat ++ []))) t t
      (c r₁ r₂ r₃) :=
  (reads_u16 r₁ t).bind (reads_op2 _ r₂ r₃ t)

theorem reads_op0b (c : UInt8 → Op) (n : UInt8) (t : ShapeTable) :
    Reads (op0b c) (toLe 1 n.toNat ++ []) t t (c n) :=
  (reads_u8 n t).bind (.pure _ t)

theorem reads_op1b (c : UInt16 → UInt8 → Op) (r₁ : UInt16) (n : UInt8) (t : ShapeTable) :
    Reads (op1b c) (toLe 2 r₁.toNat ++ (toLe 1 n.toNat ++ [])) t t (c r₁ n) :=
  (reads_u16 r₁ t).bind (reads_op0b _ n t)

theorem reads_op2b (c : UInt16 → UInt16 → UInt8 → Op) (r₁ r₂ : UInt16) (n : UInt8)
    (t : ShapeTable) :
    Reads (op2b c) (toLe 2 r₁.toNat ++ (toLe 2 r₂.toNat ++ (toLe 1 n.toNat ++ []))) t t
      (c r₁ r₂ n) :=
  (reads_u16 r₁ t).bind (reads_op1b _ r₂ n t)

theorem reads_op3b (c : UInt16 → UInt16 → UInt16 → UInt8 → Op) (r₁ r₂ r₃ : UInt16) (n : UInt8)
    (t : ShapeTable) :
    Reads (op3b c) (toLe 2 r₁.toNat ++ (toLe 2 r₂.toNat ++ (toLe 2 r₃.toNat ++
      (toLe 1 n.toNat ++ [])))) t t (c r₁ r₂ r₃ n) :=
  (reads_u16 r₁ t).bind (reads_op2b _ r₂ r₃ n t)

theorem reads_op4b (c : UInt16 → UInt16 → UInt16 → UInt16 → UInt8 → Op)
    (r₁ r₂ r₃ r₄ : UInt16) (n : UInt8) (t : ShapeTable) :
    Reads (op4b c) (toLe 2 r₁.toNat ++ (toLe 2 r₂.toNat ++ (toLe 2 r₃.toNat ++
      (toLe 2 r₄.toNat ++ (toLe 1 n.toNat ++ []))))) t t (c r₁ r₂ r₃ r₄ n) :=
  (reads_u16 r₁ t).bind (reads_op3b _ r₂ r₃ r₄ n t)

theorem tag_lt (op : Op) : op.tag < 2 ^ (8 * 1) := by
  have h : op.tag < 64 := by cases op <;> simp only [Op.tag, Nat.reduceLT]
  exact h.trans (by norm_num)

/-- Each code is read with the operands that are written for it. -/
theorem reads_op (op : Op) (t : ShapeTable) : Reads readOp (writeOp op) t t op := by
  refine (reads_uint (tag_lt op) t).bind ?_
  cases op with
  | tryExit => exact reads_op0 _ t
  | loadTrue | loadFalse | loadNull | loadUndef | jmp | loadThis | loadSelf | newObject | throw
  | ret => exact reads_op1 _ _ t
  | loadConst | move | neg | not | bitNot | toNumber | typeof | toStr | jmpIfFalse | jmpIfTrue
  | loadGlobal | loadGlobalChecked | storeGlobal | arrayPush | arrayPushSpread | tryEnter
  | enumKeys => exact reads_op2 _ _ _ t
  | add | sub | mul | div | mod | pow | eq | neq | looseEq | looseNeq | lt | le | gt | ge
  | bitAnd | bitOr | bitXor | shl | shr | ushr | isIn | instanceof | deleteProp | deleteIdx
  | makeRegex | getProp | getIdx | setProp | setIdx => exact reads_op3 _ _ _ _ t
  | loadUp | storeUp => exact reads_op1b _ _ _ t
  | newArray => exact reads_op2b _ _ _ _ t
  | callFn | new | makeClosure => exact reads_op3b _ _ _ _ _ t
  | callValue => exact reads_op4b _ _ _ _ _ _ t

/-! ### Constants -/

/-- Elements that are written one by one, if all of them can be. -/
theorem reads_written {α γ : Type} {as : List γ} {ws : List Bytes} {write : γ → Option Bytes}
    {g : γ → α} {item : CodeReader α} (hw : as.mapM write = some ws)
    (h : ∀ a ∈ as, ∀ w, write a = some w → Reads item w t t (g a)) :
    Reads (times as.length item) ws.flatten t t (as.map g) := by
  induction as generalizing ws with
  | nil =>
    obtain rfl : ws = [] := by simpa using hw.symm
    exact .pure [] t
  | cons a as ih =>
    rw [List.mapM_cons] at hw
    obtain ⟨w, hwa, hw⟩ := Option.bind_eq_some_iff.mp hw
    obtain ⟨ws', hws, hw⟩ := Option.bind_eq_some_iff.mp hw
    obtain rfl := Option.some.inj hw
    have hrest := (ih hws fun a' ha' => h a' (List.mem_cons_of_mem a ha')).map (g := (g a :: ·))
    exact (h a List.mem_cons_self w hwa).bind hrest

def Value.Sized : Value → Prop
  | .string s => (utf8 s).length < 2 ^ 32
  | _ => True

theorem reads_const {v : Value} {w : Bytes} (hv : v.Sized) (hw : writeConst v = some w) :
    Reads readConst w t t v := by
  have htag : ∀ tag < 5, Reads (uint 1) (toLe 1 tag) t t tag := fun tag h =>
    reads_uint (k := 1) (h.trans (by norm_num)) t
  cases v with
  | undefined =>
    obtain rfl := Option.some.inj hw
    exact (htag 0 (by norm_num)).bind (.pure _ t)
  | null =>
    obtain rfl := Option.some.inj hw
    exact (htag 1 (by norm_num)).bind (.pure _ t)
  | bool b =>
    obtain rfl := Option.some.inj hw
    exact (htag 2 (by norm_num)).bind (reads_bool b t).map
  | number bits =>
    obtain rfl := Option.some.inj hw
    exact (htag 3 (by norm_num)).bind (reads_u64 bits t).map
  | string s =>
    obtain rfl := Option.some.inj hw
    exact (htag 4 (by norm_num)).bind (reads_str hv t).map
  | other => cases hw

/-! ### Inline caches -/

/-- What a site may have recorded: shapes of the process, and slots of 32 bits. -/
inductive PropIc.Recorded (t : ShapeTable) : PropIc → Prop where
  | invalid : Recorded t .INVALID
  | record {ic : PropIc} {shape slot : ℕ} (h : Recorded t ic)
    (hshape : shape < t.shapes.length ∨ shape = DICT_SHAPE) (hslot : slot < 2 ^ 32) :
    Recorded t (ic.record shape slot)
  | protoRecord {ic : PropIc} (h : Recorded t ic)
    (objShape protoSlot protoPtr protoShape keySlot : ℕ) :
    Recorded t (ic.protoRecord objShape protoSlot protoPtr protoShape keySlot)

/-- The entries of a cache: at most four, of distinct shapes, never of a dictionary. -/
structure PropIc.WellFormed (t : ShapeTable) (ic : PropIc) : Prop where
  length : ic.entries.length ≤ IC_POLY_CAP
  nodup : (Entries.keys ic.entries).Nodup
  entry : ∀ e ∈ ic.entries, e.1 < t.shapes.length ∧ e.1 ≠ DICT_SHAPE ∧ e.2 < 2 ^ 32

theorem PropIc.Recorded.wellFormed {ic : PropIc} (h : ic.Recorded t) : ic.WellFormed t := by
  induction h with
  | invalid => exact ⟨Nat.zero_le _, List.nodup_nil, fun e he => by cases he⟩
  | @record ic shape slot _ hshape hslot ih =>
    unfold PropIc.record
    split_ifs with hdict hmega hmem hroom
    · exact ih
    · exact ih
    · refine ⟨?_, ?_, fun e he => ?_⟩
      · simpa [Entries.modify] using ih.length
      · rw [Entries.keys_modify]
        exact ih.nodup
      · obtain ⟨e₀, he₀, rfl⟩ := List.mem_map.mp he
        obtain ⟨hlt, hne, hs⟩ := ih.entry e₀ he₀
        split_ifs
        · exact ⟨hlt, hne, hslot⟩
        · exact ⟨hlt, hne, hs⟩
    · refine ⟨?_, ?_, fun e he => ?_⟩
      · rw [List.length_append]
        exact hroom
      · rw [Entries.keys, List.map_append]
        refine List.nodup_append.mpr ⟨ih.nodup, by simp, fun a ha b hb => ?_⟩
        obtain rfl : b = shape := by simpa using hb
        exact fun heq => hmem (heq ▸ ha)
      · rcases List.mem_append.mp he with he | he
        · exact ih.entry e he
        · obtain rfl : e = (shape, slot) := by simpa using he
          exact ⟨hshape.resolve_right hdict, hdict, hslot⟩
    · exact ⟨ih.length, ih.nodup, ih.entry⟩
  | protoRecord _ objShape protoSlot protoPtr protoShape keySlot ih =>
    unfold PropIc.protoRecord
    split_ifs
    · exact ih
    · exact ⟨ih.length, ih.nodup, ih.entry⟩

/-- The entries that outlive the process. -/
def PropIc.portable (ic : PropIc) : List (ℕ × ℕ) :=
  ic.entries.filter fun e => e.1 ≠ DICT_SHAPE ∧ e.2 ≠ NO_SLOT

/-- The cache that is read for a site. -/
def PropIc.reload (ic : PropIc) : PropIc := .fromSerializedOwn ic.portable ic.mega

theorem restore_eq {acc es : List (ℕ × ℕ)} (hes : ∀ e ∈ es, e.1 ≠ DICT_SHAPE ∧ e.2 ≠ NO_SLOT)
    (hlen : acc.length + es.length ≤ IC_POLY_CAP) (hnd : (Entries.keys (acc ++ es)).Nodup) :
    PropIc.restore acc es = ⟨acc ++ es, false, .INVALID⟩ := by
  induction es generalizing acc with
  | nil => rw [PropIc.restore, List.append_nil]
  | cons e es ih =>
    obtain ⟨hdict, hslot⟩ := hes e List.mem_cons_self
    have hnew : e.1 ∉ Entries.keys acc := by
      have hsplit : Entries.keys (acc ++ e :: es) = Entries.keys acc ++ e.1 :: Entries.keys es := by
        simp [Entries.keys]
      rw [hsplit] at hnd
      exact fun hmem => (List.nodup_append.mp hnd).2.2 _ hmem _ List.mem_cons_self rfl
    have happ : acc ++ e :: es = acc ++ [e] ++ es := by simp
    rw [List.length_cons] at hlen
    rw [PropIc.restore, if_neg (not_or.mpr ⟨hslot, hdict⟩), if_neg (by omega), if_neg hnew, happ]
    refine ih (fun e' he' => hes e' (List.mem_cons_of_mem e he')) ?_ (happ ▸ hnd)
    rw [List.length_append, List.length_singleton]
    omega

theorem PropIc.WellFormed.reload_eq {ic : PropIc} (h : ic.WellFormed t) :
    ic.reload = if ic.mega then ⟨[], true, .INVALID⟩ else ⟨ic.portable, false, .INVALID⟩ := by
  unfold PropIc.reload PropIc.fromSerializedOwn
  split_ifs with hmega
  · rfl
  · have hsub : ic.portable.Sublist ic.entries := List.filter_sublist
    refine restore_eq (fun e he => ?_) ?_ ?_
    · simpa [PropIc.portable] using (List.mem_filter.mp he).2
    · rw [List.length_nil, Nat.zero_add]
      exact hsub.length_le.trans h.length
    · rw [List.nil_append]
      exact h.nodup.sublist (hsub.map _)

/-- The keys of the shapes fit the counts and lengths of the format. -/
def ShapeTable.KeysSized (t : ShapeTable) : Prop :=
  ∀ id < t.shapes.length, (t.shape id).properties.length < 2 ^ 32 ∧
    ∀ k ∈ (t.shape id).properties, (utf8 k).length < 2 ^ 32

/-- A shape of the process is read back as itself. -/
theorem reads_descriptor (hin : t.Interned) (hkeys : t.KeysSized) {e : ℕ × ℕ}
    (hid : e.1 < t.shapes.length) (hslot : e.2 < 2 ^ 32) :
    Reads readDescriptor (writeDescriptor ((t.shape e.1).properties, e.2)) t t e := by
  obtain ⟨hcount, hlen⟩ := hkeys _ hid
  have hstate : t.addProperties t.emptyId (t.shape e.1).properties = (e.1, t) := hin _ hid
  generalize (t.shape e.1).properties = keys at hcount hlen hstate
  have hnames := reads_counted hcount (reads_times (g := id) t fun k hk => reads_str (hlen k hk) t)
  rw [List.map_id] at hnames
  have hintern : Reads (state fun u : ShapeTable => u.addProperties u.emptyId keys) [] t t e.1 := by
    have h := reads_state (fun u : ShapeTable => u.addProperties u.emptyId keys) t
    rwa [hstate] at h
  exact hnames.bind (((reads_uint (k := 4) hslot t).bind hintern.map).cast (List.append_nil _) rfl)

theorem reads_feedback (hin : t.Interned) (hkeys : t.KeysSized) {ic : PropIc} {ip : ℕ}
    (hic : ic.WellFormed t) (hip : ip < 2 ^ 32) :
    Reads readFeedback (writeFeedback ⟨ip, descriptors t ic, ic.mega⟩) t t (ip, ic.reload) := by
  have hsub : ∀ e ∈ ic.portable, e ∈ ic.entries := fun e he => (List.mem_filter.mp he).1
  have hlen : ic.portable.length < 2 ^ 32 :=
    ((List.length_filter_le _ _).trans hic.length).trans_lt (by decide)
  have hdescr := reads_counted hlen (reads_times (g := id) t fun e he =>
    reads_descriptor hin hkeys (hic.entry e (hsub e he)).1 (hic.entry e (hsub e he)).2.2)
  rw [List.map_id] at hdescr
  have hwrite : toLe 4 (descriptors t ic).length ++ (descriptors t ic).flatMap writeDescriptor =
      toLe 4 ic.portable.length ++ ic.portable.flatMap fun e =>
        writeDescriptor ((t.shape e.1).properties, e.2) := by
    simp [descriptors, PropIc.portable, PropIc.serializeOwn, List.flatMap_map]
  simp only [writeFeedback, List.append_assoc]
  rw [hwrite]
  exact (reads_uint (k := 4) hip t).bind ((reads_bool ic.mega t).bind hdescr.map)

/-- The site leaves something on disk. -/
def keeps (ic : PropIc) : Bool := ic.hasFeedback && (ic.portable ≠ [] || ic.mega)

theorem siteFeedback_eq (t : ShapeTable) (ic : PropIc) (ip : ℕ) :
    siteFeedback t ic ip = if keeps ic then some ⟨ip, descriptors t ic, ic.mega⟩ else none := by
  have hnil : descriptors t ic = [] ↔ ic.portable = [] := by
    simp [descriptors, PropIc.portable, PropIc.serializeOwn]
  unfold siteFeedback keeps
  by_cases hf : ic.hasFeedback = true
  · by_cases hp : ic.portable = []
    · cases hm : ic.mega <;> simp [hf, hp, hm, hnil, PropIc.serializeOwn]
    · simp [hf, hp, hnil, PropIc.serializeOwn]
  · simp [hf]

def keptSites (ics : List PropIc) : List (PropIc × ℕ) := ics.zipIdx.filter fun s => keeps s.1

theorem portableFeedback_eq (t : ShapeTable) (f : BcFunction) :
    portableFeedback t f =
      (keptSites f.ic).map fun s => ⟨s.2, descriptors t s.1, s.1.mega⟩ := by
  unfold portableFeedback keptSites
  simp only [siteFeedback_eq]
  induction f.ic.zipIdx with
  | nil => rfl
  | cons s sites ih =>
    rw [List.filterMap_cons, ih]
    by_cases h : keeps s.1 = true <;> simp [h]

/-- A site that leaves nothing is as good as new. -/
theorem reload_of_not_keeps {ic : PropIc} (h : ic.WellFormed t) (hk : keeps ic = false) :
    ic.reload = .INVALID := by
  have hmega : ic.mega = false := by
    cases hm : ic.mega
    · rfl
    · simp [keeps, PropIc.hasFeedback, hm] at hk
  have hnil : ic.portable = [] := by
    by_contra hne
    have hpos : 0 < ic.entries.length :=
      (List.length_pos_iff.mpr hne).trans_le (List.length_filter_le _ _)
    simp [keeps, PropIc.hasFeedback, hpos, hne] at hk
  rw [h.reload_eq, hmega, hnil]
  rfl

theorem warm_eq {ics : List PropIc} (h : ∀ ic ∈ ics, ic.WellFormed t) (pre : List PropIc) :
    (((ics.zipIdx pre.length).filter fun s => keeps s.1).map fun s => (s.2, s.1.reload)).foldl
      (fun ics s => ics.set s.1 s.2) (pre ++ List.replicate ics.length PropIc.INVALID) =
        pre ++ ics.map PropIc.reload := by
  induction ics generalizing pre with
  | nil => simp
  | cons ic ics ih =>
    have hrest := ih (fun ic' hic' => h ic' (List.mem_cons_of_mem ic hic')) (pre ++ [ic.reload])
    have hsplit : pre ++ (ic :: ics).map PropIc.reload =
        pre ++ [ic.reload] ++ ics.map PropIc.reload := by simp
    rw [List.length_append, List.length_singleton] at hrest
    rw [hsplit, ← hrest, List.zipIdx_cons, List.length_cons, List.replicate_succ]
    by_cases hk : keeps ic = true
    · have hset : (pre ++ PropIc.INVALID :: List.replicate ics.length PropIc.INVALID).set pre.length
          ic.reload = pre ++ [ic.reload] ++ List.replicate ics.length PropIc.INVALID := by
        simp
      rw [List.filter_cons_of_pos (by simpa using hk), List.map_cons, List.foldl_cons, hset]
    · have hnew := reload_of_not_keeps (h ic List.mem_cons_self) (by simpa using hk)
      rw [List.filter_cons_of_neg (by simpa using hk), hnew]
      simp

/-! ### Functions -/

structure BcFunction.Sized (f : BcFunction) : Prop where
  name : (utf8 f.name).length < 2 ^ 32
  consts : f.consts.length < 2 ^ 32
  const : ∀ v ∈ f.consts, v.Sized
  code : f.code.length < 2 ^ 32

/-- The inline caches of a function: none yet, or one for each instruction, in a state that
recording leads to. -/
structure BcFunction.Warmed (t : ShapeTable) (f : BcFunction) : Prop where
  length : f.ic = [] ∨ f.ic.length = f.code.length
  recorded : ∀ ic ∈ f.ic, ic.Recorded t

/-- The function that is read for one that was written. -/
def BcFunction.reload (f : BcFunction) : BcFunction :=
  { f with
    ic := if keptSites f.ic = [] then [] else f.ic.map PropIc.reload
    feedback := [] }

theorem reads_restReg (r : Option UInt16) (t : ShapeTable) :
    Reads readRestReg (writeRestReg r) t t r := by
  cases r with
  | none => exact (reads_uint (k := 1) (n := 0) (by norm_num) t).bind_eq (if_pos rfl)
  | some r => exact (reads_uint (k := 1) (n := 1) (by norm_num) t).bind (reads_u16 r t).map

theorem reads_sites (hin : t.Interned) (hkeys : t.KeysSized) {f : BcFunction} (hf : f.Warmed t)
    (hcode : f.code.length < 2 ^ 32) :
    Reads (counted readFeedback) (toLe 4 (portableFeedback t f).length ++
      (portableFeedback t f).flatMap writeFeedback) t t
        ((keptSites f.ic).map fun s => (s.2, s.1.reload)) := by
  have hlen : f.ic.length ≤ f.code.length := by
    rcases hf.length with h | h
    · simp [h]
    · exact h.le
  have hsites : (keptSites f.ic).length < 2 ^ 32 := by
    refine (List.length_filter_le _ _).trans_lt ?_
    rw [List.length_zipIdx]
    exact hlen.trans_lt hcode
  have hsite : ∀ s ∈ keptSites f.ic, Reads readFeedback
      (writeFeedback ⟨s.2, descriptors t s.1, s.1.mega⟩) t t (s.2, s.1.reload) := by
    intro s hs
    have hmem := List.mem_zipIdx (List.mem_filter.mp hs).1
    have hic : s.1 ∈ f.ic := by
      rw [hmem.2.2]
      exact List.getElem_mem _
    exact reads_feedback hin hkeys (hf.recorded _ hic).wellFormed (by omega)
  rw [portableFeedback_eq, List.length_map, List.flatMap_map]
  exact reads_counted hsites (reads_times t hsite)

theorem warm_sites {f : BcFunction} (hf : f.Warmed t) :
    warm f.code.length ((keptSites f.ic).map fun s => (s.2, s.1.reload)) = f.reload.ic := by
  unfold warm BcFunction.reload
  simp only [List.map_eq_nil_iff]
  split_ifs with hnil
  · rfl
  · have hlen : f.ic.length = f.code.length := hf.length.resolve_left fun h => hnil (by simp [h, keptSites])
    rw [← hlen]
    exact warm_eq (fun ic hic => (hf.recorded ic hic).wellFormed) []

theorem reads_fn (hin : t.Interned) (hkeys : t.KeysSized) {f : BcFunction} (hf : f.Warmed t)
    (hsized : f.Sized) {w : Bytes} (hw : writeFn t f = some w) : Reads readFn w t t f.reload := by
  obtain ⟨consts, hconsts, hw⟩ := Option.bind_eq_some_iff.mp hw
  obtain rfl := Option.some.inj hw
  have hconst := reads_counted (t := t) hsized.consts (reads_written (g := id) hconsts
    fun v hv w hw => reads_const (hsized.const v hv) hw)
  have hcode := reads_counted hsized.code
    (reads_times (g := id) t fun op (_ : op ∈ f.code) => reads_op op t)
  rw [List.map_id] at hconst hcode
  have hsites := reads_sites hin hkeys hf hsized.code
  simp only [List.append_assoc]
  rw [← List.append_assoc (toLe 4 f.consts.length), ← List.append_assoc (toLe 4 f.code.length)]
  refine (reads_str hsized.name t).bind ?_
  refine (reads_u8 f.nParams t).bind ?_
  refine (reads_bool f.strict t).bind ?_
  refine (reads_restReg f.restReg t).bind ?_
  refine (reads_u16 f.nRegs t).bind ?_
  refine hconst.bind (hcode.bind (hsites.bind_eq ?_))
  rw [warm_sites hf]
  rfl

/-! ### Scripts -/

structure Module.Sized (m : Module) : Prop where
  fns : ∀ f ∈ m.fns, f.Sized
  syncs : ∀ s ∈ m.scriptForinitSyncs, (utf8 s.1).length < 2 ^ 32

def Module.Warmed (t : ShapeTable) (m : Module) : Prop := ∀ f ∈ m.fns, f.Warmed t

/-- The counts of a script are within the limits of the reader. -/
def Module.WithinLimits (m : Module) : Prop :=
  m.fns.length ≤ 2 ^ 20 ∧ m.scriptForinitSyncs.length ≤ 2 ^ 16

/-- The script that is read for one that was written. -/
def Module.reload (m : Module) : Module := { m with fns := m.fns.map BcFunction.reload }

theorem reads_header (key : UInt64) (t : ShapeTable) :
    Reads readHeader (writeHeader key) t t key := by
  simp only [writeHeader, List.append_assoc]
  refine (reads_uint (k := 4) (n := CACHE_MAGIC) (by decide) t).bind ?_
  rw [if_neg (not_not.mpr rfl)]
  refine (reads_uint (k := 4) (n := FORMAT_VERSION) (by decide) t).bind ?_
  rw [if_neg (not_not.mpr rfl)]
  refine (reads_uint (k := 4) (n := ENGINE_VERSION) (by decide) t).bind ?_
  rw [if_neg (not_not.mpr rfl)]
  exact reads_u64 key t

/-- The bytes of a script after its header. -/
def writeBody (t : ShapeTable) (m : Module) : Option Bytes := do
  let fns ← m.fns.mapM (writeFn t)
  return toLe 4 m.fns.length ++ fns.flatten ++ (toLe 4 m.scriptForinitSyncs.length ++
    m.scriptForinitSyncs.flatMap writeSync)

theorem serializeModule_eq (engine : Engine) (source : String) (t : ShapeTable) (m : Module) :
    serializeModule engine source t m =
      (writeBody t m).map fun body => writeHeader (computeKey engine source t m) ++ body := by
  unfold serializeModule writeBody
  cases m.fns.mapM (writeFn t) with
  | none => rfl
  | some fns => simp [List.append_assoc]

/-- A script is read from its bytes under any key. -/
theorem reads_module (hin : t.Interned) (hkeys : t.KeysSized) {m : Module} (hm : m.Warmed t)
    (hsized : m.Sized) (hlimits : m.WithinLimits) {body : Bytes} (hbody : writeBody t m = some body)
    (key : UInt64) :
    Reads (deserializeModule key) (writeHeader key ++ body) t t m.reload := by
  obtain ⟨fns, hfns, hbody⟩ := Option.bind_eq_some_iff.mp hbody
  obtain rfl := Option.some.inj hbody
  have hfn := reads_limited hlimits.1 (by norm_num) (reads_written hfns
    fun f hf w hw => reads_fn hin hkeys (hm f hf) (hsized.fns f hf) hw)
  have hsync : ∀ s ∈ m.scriptForinitSyncs, Reads readSync (writeSync s) t t (id s) := fun s hs =>
    (reads_str (hsized.syncs s hs) t).bind (reads_u16 s.2 t).map
  have hsyncs := reads_limited hlimits.2 (by norm_num) (reads_times t hsync)
  rw [List.map_id] at hsyncs
  refine (reads_header key t).bind ?_
  rw [if_neg (not_not.mpr rfl)]
  exact hfn.bind hsyncs.map

end Conclave.Js
