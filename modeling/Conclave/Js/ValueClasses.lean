import Conclave.Js.Redundancy

/-! What the classes of a block mean, and that the rewritten instructions do what the
instructions did, in every run, as long as no block runs out of class numbers. -/

namespace Conclave.Js

open Lib

variable {V : Type*} {M : Values V} {consts : List V} {regs : UInt16 → V}

/-! ### Instructions -/

namespace Op

/-- The registers of an instruction are below a bound. -/
def Below (n : ℕ) (op : Op) : Prop := ∀ r ∈ op.defReg.toList ++ op.uses, r.toNat < n

instance (n : ℕ) (op : Op) : Decidable (op.Below n) :=
  List.decidableBAll (fun r : UInt16 => r.toNat < n) (op.defReg.toList ++ op.uses)

theorem binary_spec {op : Op} {b : BinOp} {dst lhs rhs : UInt16}
    (h : op.binary = some (b, dst, lhs, rhs)) :
    op.defReg = some dst ∧ op.isMove = false ∧ op.uses = [lhs, rhs] ∧
      op.effect M consts regs =
        some (.fall (Function.update regs dst (M.binary b (regs lhs) (regs rhs)))) := by
  cases op <;> cases h <;> exact ⟨rfl, rfl, rfl, rfl⟩

theorem binary_defReg {op : Op} {b : BinOp} {dst lhs rhs : UInt16}
    (h : op.binary = some (b, dst, lhs, rhs)) : op.defReg = some dst := by
  cases op <;> cases h <;> rfl

theorem vnKey_eq {op : Op} {tag : ℕ} {lhs rhs : UInt16} (h : op.vnKey = some (tag, lhs, rhs)) :
    ∃ b dst, op.binary = some (b, dst, lhs, rhs) ∧ tag = b.tag := by
  obtain ⟨⟨b, dst, lhs', rhs'⟩, hb, heq⟩ := Option.map_eq_some_iff.mp h
  cases heq
  exact ⟨b, dst, hb, rfl⟩

theorem rebuild_defReg (f : UInt16 → UInt16) (op : Op) : (op.rebuild f).defReg = op.defReg := by
  cases op <;> rfl

theorem rebuild_isMove (f : UInt16 → UInt16) (op : Op) : (op.rebuild f).isMove = op.isMove := by
  cases op <;> rfl

theorem rebuild_uses (f : UInt16 → UInt16) (op : Op) :
    (op.rebuild f).uses = op.uses.map f := by
  cases op <;> rfl

theorem rebuild_effect {f : UInt16 → UInt16} {op : Op} (h : ∀ r ∈ op.uses, regs (f r) = regs r) :
    (op.rebuild f).effect M consts regs = op.effect M consts regs := by
  cases op
  all_goals
    first
      | rfl
      | simp only [uses, binary, Option.elim_some, List.forall_mem_cons] at h
        simp only [rebuild, effect, writes, binary, Option.map_some, h]

/-- An instruction that falls through writes its register and nothing else. -/
theorem effect_fall {op : Op} {d : UInt16} {e : Effect V} (hd : op.defReg = some d)
    (he : op.effect M consts regs = some e) : ∃ v, e = .fall (Function.update regs d v) := by
  have hwrites : ∀ w : Option (UInt16 × V), (∀ x ∈ w, x.1 = d) →
      w.map (fun x => Effect.fall (Function.update regs x.1 x.2)) = some e →
      ∃ v, e = .fall (Function.update regs d v) := by
    intro w hw hmap
    obtain ⟨⟨d', v⟩, hx, rfl⟩ := Option.map_eq_some_iff.mp hmap
    obtain rfl : d' = d := hw _ hx
    exact ⟨v, rfl⟩
  cases op <;> cases hd
  case loadConst k =>
    refine hwrites (consts[k.toNat]?.map fun v => (d, v)) ?_ he
    intro x hx
    obtain ⟨v, -, rfl⟩ := Option.map_eq_some_iff.mp hx
    rfl
  all_goals
    exact ⟨_, (Option.some.inj he).symm⟩

theorem effect_of_none {op : Op} {regs' : UInt16 → V} (hd : op.defReg = none)
    (he : op.effect M consts regs = some (.fall regs')) : regs' = regs := by
  cases op <;> cases hd
  case jmpIfFalse cond target =>
    have h := Option.some.inj he
    split_ifs at h
    exact (Effect.fall.inj h).symm
  case jmpIfTrue cond target =>
    have h := Option.some.inj he
    split_ifs at h
    exact (Effect.fall.inj h).symm
  all_goals
    cases he

theorem effect_jump {op : Op} {target : UInt16} (he : op.effect M consts regs = some (.jump target)) :
    op.jumpTarget = some target := by
  have hwrites : ∀ w : Option (UInt16 × V),
      w.map (fun x => Effect.fall (Function.update regs x.1 x.2)) ≠ some (.jump target) := by
    intro w hw
    obtain ⟨x, -, hx⟩ := Option.map_eq_some_iff.mp hw
    cases hx
  cases op
  case jmp t => cases he; rfl
  case jmpIfFalse cond t =>
    have h := Option.some.inj he
    split_ifs at h
    cases h
    rfl
  case jmpIfTrue cond t =>
    have h := Option.some.inj he
    split_ifs at h
    cases h
    rfl
  case loadConst dst k => exact absurd he (hwrites (consts[k.toNat]?.map fun v => (dst, v)))
  all_goals
    cases he

end Op

/-! ### What the classes mean -/

namespace Numbering

/-- Among the class numbers given out since a start. -/
def Given (base k c : ℕ) : Prop := ∃ i < k, c = (base + i) % 2 ^ 32

theorem Given.mono {base k k' c : ℕ} (h : Given base k c) (hk : k ≤ k') : Given base k' c := by
  obtain ⟨i, hi, hc⟩ := h
  exact ⟨i, hi.trans_le hk, hc⟩

theorem not_given {base k : ℕ} (hk : k < 2 ^ 32) : ¬ Given base k ((base + k) % 2 ^ 32) := by
  rintro ⟨i, hi, hc⟩
  omega

/-- Every live class has a value: a register holds that of its class, the holder of a class is
a register of it, and an expression that is available has the value of its class. -/
structure Holds (M : Values V) (nr : ℕ) (t : Numbering) (regs : UInt16 → V) (base k : ℕ)
    (live : Set ℕ) (val : ℕ → V) : Prop where
  length : t.classes.length = nr
  next : t.nextClass = (base + k) % 2 ^ 32
  given : ∀ c ∈ live, Given base k c
  held : ∀ c r, t.holder c = some r → Given base k c
  register : ∀ r : UInt16, r.toNat < nr → t.classOf r ∈ live ∧ regs r = val (t.classOf r)
  holder : ∀ c ∈ live, ∀ r, t.holder c = some r → r.toNat < nr ∧ t.classOf r = c
  available : ∀ b c₁ c₂ c, t.avail (BinOp.tag b, c₁, c₂) = some c →
    c₁ ∈ live ∧ c₂ ∈ live ∧ c ∈ live ∧ val c = M.binary b (val c₁) (val c₂)

variable {nr base k : ℕ} {live : Set ℕ} {val : ℕ → V} {t : Numbering}

theorem classOf_set {d : UInt16} {c : ℕ} (hd : d.toNat < t.classes.length) (r : UInt16) :
    (t.classes.set d.toNat c)[r.toNat]?.getD 0 = if r = d then c else t.classOf r := by
  rw [List.getElem?_set]
  split_ifs with hnat hrd hrd
  · rfl
  · exact absurd (UInt16.toNat_inj.mp hnat).symm hrd
  · exact absurd (congrArg UInt16.toNat hrd).symm hnat
  · rfl

namespace Holds

theorem holder_value (h : Holds M nr t regs base k live val) {c : ℕ} (hc : c ∈ live) {r : UInt16}
    (hr : t.holder c = some r) : regs r = val c := by
  obtain ⟨hlt, hclass⟩ := h.holder c hc r hr
  rw [(h.register r hlt).2, hclass]

/-- An operand is read from a register that holds the same value. -/
theorem sub_value (h : Holds M nr t regs base k live val) {r : UInt16} (hr : r.toNat < nr) :
    regs (t.sub r) = regs r ∧ (t.sub r).toNat < nr := by
  obtain ⟨hlive, hval⟩ := h.register r hr
  rw [sub]
  match hh : t.holder (t.classOf r) with
  | none => exact ⟨rfl, hr⟩
  | some r' => exact ⟨(h.holder_value hlive hh).trans hval.symm, (h.holder _ hlive r' hh).1⟩

theorem rewrite_effect (h : Holds M nr t regs base k live val) {op : Op} (hop : op.Below nr) :
    (op.rebuild t.sub).effect M consts regs = op.effect M consts regs := by
  apply Op.rebuild_effect
  intro r hr
  exact (h.sub_value (hop r (List.mem_append_right _ hr))).1

theorem rewrite_below (h : Holds M nr t regs base k live val) {op : Op} (hop : op.Below nr) :
    (op.rebuild t.sub).Below nr := by
  intro r hr
  rw [Op.rebuild_defReg, Op.rebuild_uses] at hr
  rcases List.mem_append.mp hr with hdef | huse
  · exact hop r (List.mem_append_left _ hdef)
  · obtain ⟨r', hr', rfl⟩ := List.mem_map.mp huse
    exact (h.sub_value (hop r' (List.mem_append_right _ hr'))).2

end Holds

theorem lookup_spec {allow : Allow} {op : Op} {prev : UInt16} (h : t.lookup allow op = some prev) :
    ∃ b dst lhs rhs c, op.binary = some (b, dst, lhs, rhs) ∧
      t.avail (b.tag, t.classOf lhs, t.classOf rhs) = some c ∧ t.holder c = some prev := by
  obtain ⟨⟨tag, lhs, rhs⟩, hkey, hrest⟩ := Option.bind_eq_some_iff.mp h
  obtain ⟨dst, -, hrest⟩ := Option.bind_eq_some_iff.mp hrest
  obtain ⟨c, hc, hrest⟩ := Option.bind_eq_some_iff.mp hrest
  obtain ⟨prev', hprev, hrest⟩ := Option.bind_eq_some_iff.mp hrest
  obtain ⟨b, dst', hb, htag⟩ := Op.vnKey_eq hkey
  split_ifs at hrest
  obtain rfl := Option.some.inj hrest
  exact ⟨b, dst', lhs, rhs, c, hb, htag ▸ hc, hprev⟩

/-- An instruction is left as it is, or it is an expression whose value a register holds. -/
theorem fold_cases (t : Numbering) (allow : Allow) (op : Op) :
    (t.fold allow op).1 = op ∨ ∃ prev b dst lhs rhs c, (t.fold allow op).1 = .move dst prev ∧
      op.binary = some (b, dst, lhs, rhs) ∧
      t.avail (b.tag, t.classOf lhs, t.classOf rhs) = some c ∧ t.holder c = some prev := by
  rw [fold]
  match hl : t.lookup allow op with
  | none => exact .inl rfl
  | some prev =>
    obtain ⟨b, dst, lhs, rhs, c, hb, hc, hprev⟩ := lookup_spec hl
    rw [Op.binary_defReg hb]
    exact .inr ⟨prev, b, dst, lhs, rhs, c, rfl, hb, hc, hprev⟩

namespace Holds

theorem fold_effect (h : Holds M nr t regs base k live val) (allow : Allow) {op : Op}
    (hop : op.Below nr) :
    (t.fold allow op).1.effect M consts regs = op.effect M consts regs ∧
      (t.fold allow op).1.Below nr := by
  rcases fold_cases t allow op with hsame | ⟨prev, b, dst, lhs, rhs, c, hmove, hb, hc, hprev⟩
  · rw [hsame]
    exact ⟨rfl, hop⟩
  · obtain ⟨hdef, -, huses, heffect⟩ := @Op.binary_spec V M consts regs _ _ _ _ _ hb
    rw [Op.Below, hdef, huses] at hop
    have hlhs := (h.register lhs (hop lhs (by simp))).2
    have hrhs := (h.register rhs (hop rhs (by simp))).2
    obtain ⟨-, -, hlive, hval⟩ := h.available b _ _ c hc
    have hvalue : regs prev = M.binary b (regs lhs) (regs rhs) := by
      rw [h.holder_value hlive hprev, hval, hlhs, hrhs]
    rw [hmove, heffect, ← hvalue]
    refine ⟨rfl, ?_⟩
    intro r hr
    rcases List.mem_cons.mp hr with rfl | hr
    · exact hop r (by simp)
    · obtain rfl := List.mem_singleton.mp hr
      exact (h.holder c hlive r hprev).1

/-- The register that is about to be written holds no class any more. -/
theorem drop (h : Holds M nr t regs base k live val) (d : UInt16) :
    Holds M nr (t.drop d) regs base k live val ∧ ∀ c ∈ live, (t.drop d).holder c ≠ some d := by
  have hheld : ∀ c r, (t.drop d).holder c = some r →
      t.holder c = some r ∧ (c = t.classOf d → r ≠ d) := by
    intro c r hr
    rw [Numbering.drop] at hr
    split_ifs at hr with hd
    · dsimp only at hr
      rcases eq_or_ne c (t.classOf d) with rfl | hne
      · rw [Function.update_self] at hr
        cases hr
      · rw [Function.update_of_ne hne] at hr
        exact ⟨hr, fun heq => absurd heq hne⟩
    · refine ⟨hr, ?_⟩
      rintro rfl rfl
      exact hd hr
  have hrest : (t.drop d).classes = t.classes ∧ (t.drop d).nextClass = t.nextClass ∧
      (t.drop d).avail = t.avail := by
    rw [Numbering.drop]
    split_ifs <;> exact ⟨rfl, rfl, rfl⟩
  have hclass : ∀ r, (t.drop d).classOf r = t.classOf r := by
    intro r
    rw [classOf, hrest.1, classOf]
  refine ⟨⟨hrest.1 ▸ h.length, hrest.2.1.trans h.next, h.given, ?_, ?_, ?_, ?_⟩, ?_⟩
  · intro c r hr
    exact h.held c r (hheld c r hr).1
  · intro r hr
    rw [hclass]
    exact h.register r hr
  · intro c hc r hr
    rw [hclass]
    exact h.holder c hc r (hheld c r hr).1
  · rw [hrest.2.2]
    exact h.available
  · intro c hc hr
    obtain ⟨hold, hne⟩ := hheld c d hr
    exact hne (h.holder c hc d hold).2.symm rfl

/-- A new class, for a value and perhaps for an expression that has the value. -/
theorem fresh (h : Holds M nr t regs base k live val) (hk : k < 2 ^ 32) {op : Op} {v : V}
    (hv : ∀ tag lhs rhs, op.vnKey = some (tag, lhs, rhs) → lhs.toNat < nr ∧ rhs.toNat < nr ∧
      ∀ b, tag = BinOp.tag b → v = M.binary b (regs lhs) (regs rhs)) :
    t.nextClass ∉ live ∧ t.holder t.nextClass = none ∧
    Holds M nr { t with
      nextClass := bump t.nextClass
      avail := op.vnKey.elim t.avail fun (tag, lhs, rhs) =>
        Function.update t.avail (tag, t.classOf lhs, t.classOf rhs) (some t.nextClass) }
      regs base (k + 1) (insert t.nextClass live) (Function.update val t.nextClass v) := by
  have hnew : ¬ Given base k t.nextClass := by
    rw [h.next]
    exact not_given hk
  have hfresh : t.nextClass ∉ live := fun hc => hnew (h.given _ hc)
  have hkeep : ∀ c ∈ live, Function.update val t.nextClass v c = val c := by
    intro c hc
    apply Function.update_of_ne
    rintro rfl
    exact hfresh hc
  have hnone : t.holder t.nextClass = none := by
    match hh : t.holder t.nextClass with
    | none => rfl
    | some r => exact absurd (h.held _ r hh) hnew
  refine ⟨hfresh, hnone, h.length, ?_, ?_, ?_, ?_, ?_, ?_⟩
  · show bump t.nextClass = _
    rw [bump, h.next]
    omega
  · rintro c (rfl | hc)
    · exact ⟨k, Nat.lt_succ_self k, h.next⟩
    · exact (h.given c hc).mono (Nat.le_succ k)
  · intro c r hr
    exact (h.held c r hr).mono (Nat.le_succ k)
  · intro r hr
    obtain ⟨hlive, hval⟩ := h.register r hr
    refine ⟨.inr hlive, ?_⟩
    rw [hval]
    exact (hkeep _ hlive).symm
  · rintro c (rfl | hc) r hr
    · exact absurd (hnone.symm.trans hr) nofun
    · exact h.holder c hc r hr
  · intro b c₁ c₂ c hc
    have hold : t.avail (b.tag, c₁, c₂) = some c → c₁ ∈ insert t.nextClass live ∧
        c₂ ∈ insert t.nextClass live ∧ c ∈ insert t.nextClass live ∧
        Function.update val t.nextClass v c =
          M.binary b (Function.update val t.nextClass v c₁) (Function.update val t.nextClass v c₂) := by
      intro hc
      obtain ⟨h₁, h₂, h₃, hval⟩ := h.available b c₁ c₂ c hc
      rw [hkeep c₁ h₁, hkeep c₂ h₂, hkeep c h₃]
      exact ⟨.inr h₁, .inr h₂, .inr h₃, hval⟩
    match hkey : op.vnKey with
    | none =>
      simp only [hkey, Option.elim_none] at hc
      exact hold hc
    | some (tag, lhs, rhs) =>
      simp only [hkey, Option.elim_some] at hc
      rw [Function.update_apply] at hc
      split_ifs at hc with heq
      · obtain ⟨rfl, rfl, rfl⟩ := heq
        obtain rfl := Option.some.inj hc
        obtain ⟨hlhs, hrhs, hvalue⟩ := hv _ lhs rhs hkey
        obtain ⟨hl, hlval⟩ := h.register lhs hlhs
        obtain ⟨hr, hrval⟩ := h.register rhs hrhs
        refine ⟨.inr hl, .inr hr, .inl rfl, ?_⟩
        rw [Function.update_self, hkeep _ hl, hkeep _ hr, ← hlval, ← hrval]
        exact hvalue b rfl
      · exact hold hc

/-- A register that holds no class gets a live one, with its value. -/
theorem assign (h : Holds M nr t regs base k live val) {d : UInt16} {c : ℕ} (hd : d.toNat < nr)
    (hfree : ∀ c' ∈ live, t.holder c' ≠ some d) (hc : c ∈ live) :
    ∃ t', t.assign d c = some t' ∧
      Holds M nr t' (Function.update regs d (val c)) base k live val := by
  have hlen : d.toNat < t.classes.length := h.length.symm ▸ hd
  rw [Numbering.assign, if_pos hlen]
  refine ⟨_, rfl, ?_, h.next, h.given, ?_, ?_, ?_, h.available⟩
  · rw [List.length_set]
    exact h.length
  · intro c' r hr
    dsimp only at hr
    split_ifs at hr with hnone
    · rw [Function.update_apply] at hr
      split_ifs at hr with heq
      · exact heq ▸ h.given c hc
      · exact h.held c' r hr
    · exact h.held c' r hr
  · intro r hr
    rw [classOf, classOf_set hlen, Function.update_apply]
    split_ifs with heq
    · exact ⟨hc, rfl⟩
    · exact h.register r hr
  · intro c' hc' r hr
    have hold : t.holder c' = some r → r.toNat < nr ∧
        (t.classes.set d.toNat c)[r.toNat]?.getD 0 = c' := by
      intro hold
      obtain ⟨hlt, hclass⟩ := h.holder c' hc' r hold
      have hne : r ≠ d := fun heq => hfree c' hc' (heq ▸ hold)
      refine ⟨hlt, ?_⟩
      rw [classOf_set hlen, if_neg hne, hclass]
    dsimp only at hr
    split_ifs at hr with hnone
    · rw [Function.update_apply] at hr
      split_ifs at hr with heq
      · obtain rfl := Option.some.inj hr
        refine ⟨hd, ?_⟩
        rw [classOf, classOf_set hlen, if_pos rfl, heq]
      · exact hold hr
    · exact hold hr

end Holds

/-! ### One instruction -/

/-- How many classes an instruction can take. -/
def newClasses (op : Op) : ℕ := if op.defReg.isSome && !op.isMove then 1 else 0

theorem define_of_not_move {op : Op} (hop : op.isMove = false) (t : Numbering) :
    t.define op = ({ t with
      nextClass := bump t.nextClass
      avail := op.vnKey.elim t.avail fun (tag, lhs, rhs) =>
        Function.update t.avail (tag, t.classOf lhs, t.classOf rhs) (some t.nextClass) },
      t.nextClass) := by
  cases op <;> first | rfl | cases hop

theorem drop_classes (t : Numbering) (d : UInt16) : (t.drop d).classes = t.classes := by
  rw [drop]
  split_ifs <;> rfl

theorem define_classes (t : Numbering) (op : Op) : (t.define op).1.classes = t.classes := by
  cases op <;> rfl

theorem update_some {op : Op} (hlen : t.classes.length = nr)
    (hop : ∀ d, op.defReg = some d → d.toNat < nr) :
    ∃ t', t.update op = some t' ∧ t'.classes.length = nr := by
  rw [update]
  match hd : op.defReg with
  | none => exact ⟨t, rfl, hlen⟩
  | some d =>
    have hlt : d.toNat < nr := hop d hd
    have hclasses : ((t.drop d).define op).1.classes = t.classes := by
      rw [define_classes, drop_classes]
    show ∃ t', ((t.drop d).define op).1.assign d ((t.drop d).define op).2 = some t' ∧ _
    rw [assign, if_pos (by rw [hclasses, hlen]; exact hlt)]
    refine ⟨_, rfl, ?_⟩
    rw [List.length_set, hclasses, hlen]

namespace Holds

/-- What the classes mean does not depend on the knowledge about numbers. -/
theorem frame (h : Holds M nr t regs base k live val) (proven : List Bool)
    (stats : RedundancyStats) :
    Holds M nr { t with proven := proven, stats := stats } regs base k live val :=
  ⟨h.length, h.next, h.given, h.held, h.register, h.holder, h.available⟩

theorem update (h : Holds M nr t regs base k live val) {op : Op} {regs' : UInt16 → V}
    (hop : op.Below nr) (hk : k + newClasses op ≤ 2 ^ 32)
    (he : op.effect M consts regs = some (.fall regs')) :
    ∃ t' k' live' val', t.update op = some t' ∧ k' ≤ k + newClasses op ∧
      Holds M nr t' regs' base k' live' val' := by
  rw [Numbering.update]
  match hd : op.defReg with
  | none =>
    obtain rfl := Op.effect_of_none hd he
    exact ⟨t, k, live, val, rfl, Nat.le_add_right _ _, h⟩
  | some d =>
    have hlt : d.toNat < nr := hop d (List.mem_append_left _ (by rw [hd]; exact .head _))
    obtain ⟨hdrop, hfree⟩ := h.drop d
    cases hmove : op.isMove with
    | true =>
      -- the class of the source, and its value
      obtain ⟨dst, src, rfl⟩ : ∃ dst src, op = .move dst src := by
        cases op
        case move dst src => exact ⟨dst, src, rfl⟩
        all_goals cases hmove
      cases hd
      cases he
      obtain ⟨hlive, hval⟩ := hdrop.register src (hop src (by simp [Op.uses]))
      obtain ⟨t', ht', hassign⟩ := hdrop.assign hlt hfree hlive
      rw [← hval] at hassign
      exact ⟨t', k, live, val, ht', Nat.le_add_right _ _, hassign⟩
    | false =>
      have hnew : newClasses op = 1 := by
        rw [newClasses, hd, hmove]
        rfl
      obtain ⟨v, hv⟩ := Op.effect_fall hd he
      obtain rfl := Effect.fall.inj hv
      have hvalue : ∀ tag lhs rhs, op.vnKey = some (tag, lhs, rhs) → lhs.toNat < nr ∧
          rhs.toNat < nr ∧ ∀ b, tag = BinOp.tag b → v = M.binary b (regs lhs) (regs rhs) := by
        intro tag lhs rhs hkey
        obtain ⟨b, dst, hb, rfl⟩ := Op.vnKey_eq hkey
        obtain ⟨hdst, -, huses, heffect⟩ := @Op.binary_spec V M consts regs _ _ _ _ _ hb
        rw [Op.Below, huses] at hop
        refine ⟨hop lhs (by simp), hop rhs (by simp), ?_⟩
        intro b' hb'
        obtain rfl := BinOp.tag_injective hb'
        obtain rfl := Option.some.inj (hdst.symm.trans hd)
        have hsame := Effect.fall.inj (Option.some.inj (he.symm.trans heffect))
        simpa only [Function.update_self] using congrFun hsame dst
      obtain ⟨-, hnone, hfresh⟩ := hdrop.fresh (by omega) hvalue
      have hfree' : ∀ c ∈ insert (t.drop d).nextClass live, (t.drop d).holder c ≠ some d := by
        rintro c (rfl | hc) hsome
        · exact absurd (hnone.symm.trans hsome) nofun
        · exact hfree c hc hsome
      obtain ⟨t', ht', hassign⟩ := hfresh.assign hlt hfree' (.inl rfl)
      rw [Function.update_self] at hassign
      refine ⟨t', k + 1, _, _, ?_, by omega, hassign⟩
      show ((t.drop d).define op).1.assign d ((t.drop d).define op).2 = some t'
      rw [define_of_not_move hmove]
      exact ht'

end Holds

theorem fold_newClasses (t : Numbering) (allow : Allow) (op : Op) :
    newClasses (t.fold allow op).1 ≤ newClasses op := by
  rcases fold_cases t allow op with hsame | ⟨prev, b, dst, lhs, rhs, c, hmove, -⟩
  · rw [hsame]
  · rw [hmove]
    exact Nat.zero_le _

/-- An instruction is rewritten to one that does the same, and the numbering goes with what
it does. -/
theorem Holds.visit (h : Holds M nr t regs base k live val) {isNumber : ℕ → Bool} {allow : Allow}
    {op op' : Op} {t' : Numbering} (hop : op.Below nr) (hk : k + newClasses op ≤ 2 ^ 32)
    (hvisit : t.visit isNumber allow op = some (op', t')) :
    op'.effect M consts regs = op.effect M consts regs ∧
      ∀ regs', op.effect M consts regs = some (.fall regs') →
        ∃ k' live' val', k' ≤ k + newClasses op ∧ Holds M nr t' regs' base k' live' val' := by
  obtain ⟨t₁, ht₁, heq⟩ := Option.bind_eq_some_iff.mp hvisit
  obtain ⟨rfl, rfl⟩ := Prod.mk.inj (Option.some.inj heq)
  obtain ⟨heffect, hbelow⟩ := @fold_effect V M consts regs nr base k live val t h allow _
    (h.rewrite_below hop)
  have hsame := heffect.trans (h.rewrite_effect hop)
  refine ⟨hsame, ?_⟩
  intro regs' hregs
  have hnew : newClasses (t.fold allow (op.rebuild t.sub)).1 ≤ newClasses op := by
    refine (fold_newClasses t allow _).trans_eq ?_
    rw [newClasses, newClasses, Op.rebuild_defReg, Op.rebuild_isMove]
  obtain ⟨t₂, k', live', val', ht₂, hk', hholds⟩ :=
    h.update hbelow ((Nat.add_le_add_left hnew k).trans hk) (hsame.trans hregs)
  obtain rfl := Option.some.inj (ht₁.symm.trans ht₂)
  exact ⟨k', live', val', hk'.trans (Nat.add_le_add_left hnew k), hholds.frame _ _⟩

theorem fold_defReg (t : Numbering) (allow : Allow) (op : Op) :
    (t.fold allow op).1.defReg = op.defReg := by
  rw [fold]
  match t.lookup allow op with
  | none => rfl
  | some prev =>
    match hd : op.defReg with
    | none => exact hd
    | some dst => rfl

theorem visit_some (isNumber : ℕ → Bool) (allow : Allow) {op : Op} (hlen : t.classes.length = nr)
    (hop : ∀ d, op.defReg = some d → d.toNat < nr) :
    ∃ op' t', t.visit isNumber allow op = some (op', t') ∧ t'.classes.length = nr := by
  have hdef : ∀ d, (t.fold allow (op.rebuild t.sub)).1.defReg = some d → d.toNat < nr := by
    intro d hd
    rw [fold_defReg, Op.rebuild_defReg] at hd
    exact hop d hd
  obtain ⟨t', ht', hlen'⟩ := update_some hlen hdef
  exact ⟨_, _, Option.bind_eq_some_iff.mpr ⟨t', ht', rfl⟩, hlen'⟩

/-! ### The start of a block -/

/-- Which register holds which of the classes that follow a number. -/
def holders (base n : ℕ) : ℕ → Option UInt16 :=
  (List.range n).foldl
    (fun holder r => Function.update holder ((base + r) % 2 ^ 32) (some (.ofNat r))) fun _ => none

theorem holders_succ (base n : ℕ) : holders base (n + 1) =
    Function.update (holders base n) ((base + n) % 2 ^ 32) (some (.ofNat n)) := by
  rw [holders, List.range_succ, List.foldl_concat]
  rfl

theorem holders_given {base n c : ℕ} {r : UInt16} (h : holders base n c = some r) :
    Given base n c := by
  induction n with
  | zero => cases h
  | succ n ih =>
    rw [holders_succ, Function.update_apply] at h
    split_ifs at h with heq
    · exact ⟨n, Nat.lt_succ_self n, heq⟩
    · exact (ih h).mono (Nat.le_succ n)

theorem holders_at {base n r : ℕ} (hr : r < n) (hn : n ≤ 2 ^ 32) :
    holders base n ((base + r) % 2 ^ 32) = some (.ofNat r) := by
  induction n with
  | zero => exact absurd hr (Nat.not_lt_zero r)
  | succ n ih =>
    rw [holders_succ, Function.update_apply]
    split_ifs with heq
    · have hrn : r = n := by omega
      rw [hrn]
    · have hlt : r < n := by
        have hne : r ≠ n := by
          rintro rfl
          exact heq rfl
        omega
      exact ih hlt (by omega)

/-- At the start of a block every register is alone in its class. -/
theorem startBlock_holds (M : Values V) (hlen : t.classes.length = nr) (hnr : nr ≤ 2 ^ 32)
    (regs : UInt16 → V) :
    ∃ live val, Holds M nr t.startBlock regs t.nextClass nr live val := by
  have hclass : ∀ r : UInt16, r.toNat < nr →
      t.startBlock.classOf r = (t.nextClass + r.toNat) % 2 ^ 32 := by
    intro r hr
    show ((List.range t.classes.length).map _)[r.toNat]?.getD 0 = _
    rw [hlen, List.getElem?_map, List.getElem?_range hr]
    rfl
  have hholder : t.startBlock.holder = holders t.nextClass nr := by
    rw [holders, ← hlen]
    rfl
  have hheld : ∀ r : UInt16, r.toNat < nr →
      t.startBlock.holder ((t.nextClass + r.toNat) % 2 ^ 32) = some r := by
    intro r hr
    rw [hholder, holders_at hr hnr, UInt16.ofNat_toNat]
  refine ⟨{c | ∃ r : UInt16, r.toNat < nr ∧ c = (t.nextClass + r.toNat) % 2 ^ 32},
    fun c => regs ((t.startBlock.holder c).getD 0), ?_, ?_, ?_, ?_, ?_, ?_, ?_⟩
  · show ((List.range t.classes.length).map _).length = nr
    rw [List.length_map, List.length_range, hlen]
  · show (t.nextClass + t.classes.length) % 2 ^ 32 = _
    rw [hlen]
  · rintro c ⟨r, hr, rfl⟩
    exact ⟨r.toNat, hr, rfl⟩
  · intro c r hr
    rw [hholder] at hr
    exact holders_given hr
  · intro r hr
    rw [hclass r hr, hheld r hr]
    exact ⟨⟨r, hr, rfl⟩, rfl⟩
  · rintro c ⟨r, hr, rfl⟩ r' hr'
    rw [hheld r hr] at hr'
    obtain rfl := Option.some.inj hr'
    exact ⟨hr, hclass r hr⟩
  · intro b c₁ c₂ c hc
    cases hc

/-! ### All instructions -/

/-- No block takes more classes than there are numbers for them; the second number is how many
its instructions have taken up to here. -/
def ClassesFit (nr : ℕ) : ℕ → List (Op × Bool) → Prop
  | _, [] => True
  | used, (op, start) :: rest =>
    (if start then nr else used) + newClasses op ≤ 2 ^ 32 ∧
      ClassesFit nr ((if start then nr else used) + newClasses op) rest

instance decidableClassesFit (nr : ℕ) :
    ∀ (used : ℕ) (l : List (Op × Bool)), Decidable (ClassesFit nr used l)
  | _, [] => isTrue trivial
  | used, (op, start) :: rest =>
    have := decidableClassesFit nr ((if start then nr else used) + newClasses op) rest
    inferInstanceAs (Decidable (_ ∧ _))

theorem startBlock_length (t : Numbering) : t.startBlock.classes.length = t.classes.length := by
  show ((List.range t.classes.length).map _).length = _
  rw [List.length_map, List.length_range]

theorem visitAll_some (isNumber : ℕ → Bool) (allow : Allow) {l : List (Op × Bool)}
    (hlen : t.classes.length = nr) (hregs : ∀ x ∈ l, ∀ d, x.1.defReg = some d → d.toNat < nr) :
    ∃ ops t', visitAll isNumber allow l t = some (ops, t') ∧ ops.length = l.length := by
  induction l generalizing t with
  | nil => exact ⟨[], t, rfl, rfl⟩
  | cons x rest ih =>
    obtain ⟨op, start⟩ := x
    have hlen₀ : (if start then t.startBlock else t).classes.length = nr := by
      split_ifs
      · rw [startBlock_length, hlen]
      · exact hlen
    obtain ⟨op', t₁, hvisit, hlen₁⟩ :=
      visit_some isNumber allow hlen₀ (hregs _ (List.mem_cons_self ..))
    obtain ⟨ops, t', hrest, hops⟩ := ih hlen₁ fun x hx => hregs x (List.mem_cons_of_mem _ hx)
    refine ⟨op' :: ops, t', ?_, congrArg (· + 1) hops⟩
    rw [visitAll, hvisit]
    simp only [Option.bind_eq_bind, Option.bind_some, hrest]
    rfl

/-- What the pass makes of the instructions from some point on: the numbering there, how many
classes its block has taken, and what the classes mean for the registers. -/
structure Follows (M : Values V) (nr : ℕ) (isNumber : ℕ → Bool) (allow : Allow)
    (l : List (Op × Bool)) (out : List Op) (regs : UInt16 → V) (t : Numbering) (used : ℕ) :
    Prop where
  visits : ∃ t', visitAll isNumber allow l t = some (out, t')
  length : t.classes.length = nr
  fits : ClassesFit nr used l
  holds : (∀ x ∈ l.head?, x.2 = true) ∨
    ∃ base k live val, k ≤ used ∧ Holds M nr t regs base k live val

variable {isNumber : ℕ → Bool} {allow : Allow} {l rest : List (Op × Bool)} {out : List Op}
  {used : ℕ} {op : Op} {start : Bool}

/-- One instruction further on: it does what it did, and if it falls through, the classes
follow it. -/
theorem Follows.cons (consts : List V)
    (h : Follows M nr isNumber allow ((op, start) :: rest) out regs t used) (hop : op.Below nr) :
    ∃ op' out' t' used', out = op' :: out' ∧
      op'.effect M consts regs = op.effect M consts regs ∧
      (∃ t'', visitAll isNumber allow rest t' = some (out', t'')) ∧ t'.classes.length = nr ∧
      ClassesFit nr used' rest ∧ ∀ regs', op.effect M consts regs = some (.fall regs') →
        Follows M nr isNumber allow rest out' regs' t' used' := by
  obtain ⟨t'', hvisits⟩ := h.visits
  obtain ⟨⟨op', t'⟩, hvisit, hrest⟩ := Option.bind_eq_some_iff.mp hvisits
  obtain ⟨⟨out', t₂⟩, hall, heq⟩ := Option.bind_eq_some_iff.mp hrest
  obtain ⟨rfl, rfl⟩ := Prod.mk.inj (Option.some.inj heq)
  have hlen₀ : (if start then t.startBlock else t).classes.length = nr := by
    split_ifs
    · rw [startBlock_length, h.length]
    · exact h.length
  obtain ⟨op₂, t₃, hvisit', hlen'⟩ := visit_some isNumber allow hlen₀
    fun d hd => hop d (List.mem_append_left _ (by rw [hd]; exact .head _))
  obtain ⟨rfl, rfl⟩ := Prod.mk.inj (Option.some.inj (hvisit'.symm.trans hvisit))
  obtain ⟨hfit, hfits⟩ := h.fits
  have hholds : ∃ base k live val, k ≤ (if start then nr else used) ∧
      Holds M nr (if start then t.startBlock else t) regs base k live val := by
    cases start with
    | true =>
      obtain ⟨live, val, hh⟩ := startBlock_holds M h.length (by simp at hfit; omega) regs
      exact ⟨_, nr, live, val, le_rfl, hh⟩
    | false =>
      rcases h.holds with hstart | hh
      · exact absurd (hstart _ rfl) nofun
      · exact hh
  obtain ⟨base, k, live, val, hk, hh⟩ := hholds
  obtain ⟨heffect, hfall⟩ := hh.visit hop ((Nat.add_le_add_right hk _).trans hfit) hvisit
  refine ⟨op₂, out', t₃, _, rfl, heffect, ⟨_, hall⟩, hlen', hfits, ?_⟩
  intro regs' hregs
  obtain ⟨k', live', val', hk', hh'⟩ := hfall regs' hregs
  exact ⟨⟨_, hall⟩, hlen', hfits,
    .inr ⟨base, k', live', val', hk'.trans (Nat.add_le_add_right hk _), hh'⟩⟩

/-- The pass from any instruction on. -/
theorem visitAll_drop (hvisit : ∃ t', visitAll isNumber allow l t = some (out, t'))
    (hlen : t.classes.length = nr) (hfits : ClassesFit nr used l)
    (hregs : ∀ x ∈ l, x.1.Below nr) (i : ℕ) :
    ∃ t₁ used₁, (∃ t', visitAll isNumber allow (l.drop i) t₁ = some (out.drop i, t')) ∧
      t₁.classes.length = nr ∧ ClassesFit nr used₁ (l.drop i) := by
  induction i generalizing l out t used with
  | zero => exact ⟨t, used, hvisit, hlen, hfits⟩
  | succ i ih =>
    cases l with
    | nil =>
      obtain ⟨t', ht'⟩ := hvisit
      obtain ⟨rfl, -⟩ := Prod.mk.inj (Option.some.inj ht')
      exact ⟨t, used, ⟨t, rfl⟩, hlen, trivial⟩
    | cons x rest =>
      obtain ⟨t'', hvisits⟩ := hvisit
      obtain ⟨⟨op', t'⟩, hvisit, hrest⟩ := Option.bind_eq_some_iff.mp hvisits
      obtain ⟨⟨out', t₂⟩, hall, heq⟩ := Option.bind_eq_some_iff.mp hrest
      obtain ⟨rfl, rfl⟩ := Prod.mk.inj (Option.some.inj heq)
      have hlen₀ : (if x.2 then t.startBlock else t).classes.length = nr := by
        split_ifs
        · rw [startBlock_length, hlen]
        · exact hlen
      obtain ⟨op₂, t₃, hvisit', hlen'⟩ := visit_some isNumber allow hlen₀
        fun d hd => hregs x (List.mem_cons_self ..) d
          (List.mem_append_left _ (by rw [hd]; exact .head _))
      obtain ⟨rfl, rfl⟩ := Prod.mk.inj (Option.some.inj (hvisit'.symm.trans hvisit))
      exact ih ⟨_, hall⟩ hlen' hfits.2 fun x hx => hregs x (List.mem_cons_of_mem _ hx)

end Numbering

/-! ### Runs -/

theorem blockStarts_length (code : List Op) : (blockStarts code).length = code.length := by
  rw [blockStarts, List.length_map, List.length_range]

theorem blockStarts_zero {code : List Op} (h : 0 < code.length) :
    (blockStarts code)[0]? = some true := by
  rw [blockStarts, List.getElem?_map, List.getElem?_range h]
  rfl

theorem blockStarts_target {code : List Op} {op : Op} {target : UInt16} (hop : op ∈ code)
    (htarget : op.jumpTarget = some target) (h : target.toNat < code.length) :
    (blockStarts code)[target.toNat]? = some true := by
  rw [blockStarts, List.getElem?_map, List.getElem?_range h, Option.map_some]
  congr 1
  have hany : code.any (fun op => op.jumpTarget.any (·.toNat = target.toNat)) = true := by
    rw [List.any_eq_true]
    refine ⟨op, hop, ?_⟩
    rw [htarget]
    exact decide_eq_true rfl
  rw [hany, Bool.or_true, Bool.true_or]

/-- The marked instructions at an index, and behind it. -/
theorem zip_drop {code : List Op} {i : ℕ} {op : Op} (h : code[i]? = some op) :
    ∃ start, (blockStarts code)[i]? = some start ∧
      (code.zip (blockStarts code)).drop i =
        (op, start) :: (code.zip (blockStarts code)).drop (i + 1) := by
  obtain ⟨hlt, rfl⟩ := List.getElem?_eq_some_iff.mp h
  have hstart : i < (blockStarts code).length := (blockStarts_length code).symm ▸ hlt
  refine ⟨(blockStarts code)[i], List.getElem?_eq_getElem hstart, ?_⟩
  rw [List.drop_eq_getElem_cons (by rw [List.length_zip]; omega), List.getElem_zip]

/-- Rewritten or not, the instructions lead through the same registers, the same places and to
the same result, as long as the class numbers of every block suffice. -/
theorem redundancyEliminate_lockstep (M : Values V) (isNumber : V → Bool) (code : List Op)
    (nRegs : ℕ) (consts : List V) (allow : Allow) (hregs : ∀ op ∈ code, op.Below nRegs)
    (hfits : Numbering.ClassesFit (nRegs + 1) 0 (code.zip (blockStarts code))) :
    ∃ out stats, redundancyEliminate isNumber code nRegs consts allow = some (out, stats) ∧
      out.length = code.length ∧ ∀ n regs,
        runFor (stepCode M consts out) n (regs, 0) = runFor (stepCode M consts code) n (regs, 0) := by
  set l := code.zip (blockStarts code) with hl
  set known : ℕ → Bool := fun k => consts[k]?.any isNumber with hknown
  have hbelow : ∀ op ∈ code, op.Below (nRegs + 1) :=
    fun op hop r hr => (hregs op hop r hr).trans (Nat.lt_succ_self _)
  have hmem : ∀ x ∈ l, x.1.Below (nRegs + 1) := fun x hx => hbelow x.1 (List.of_mem_zip hx).1
  have hlen : (Numbering.start nRegs).classes.length = nRegs + 1 := by
    show ((List.range (nRegs + 1)).map _).length = _
    rw [List.length_map, List.length_range]
  obtain ⟨out, t', hall, hout⟩ := Numbering.visitAll_some known allow hlen
    fun x hx d hd => hmem x hx d (List.mem_append_left _ (by rw [hd]; exact .head _))
  rw [hl, List.length_zip, blockStarts_length, min_self] at hout
  refine ⟨out, t'.stats, ?_, hout, ?_⟩
  · rw [redundancyEliminate, ← hl, ← hknown, hall]
    rfl
  intro n regs
  apply runFor_lockstep (P := fun s => ∃ t used,
    Numbering.Follows M (nRegs + 1) known allow (l.drop s.2) (out.drop s.2) s.1 t used)
  · rintro ⟨regs, pc⟩ ⟨t, used, hfollows⟩
    rw [stepCode, stepCode]
    match hop : code[pc]? with
    | none =>
      rw [List.getElem?_eq_none_iff, ← hout, ← List.getElem?_eq_none_iff] at hop
      rw [hop]
    | some op =>
      obtain ⟨start, -, hdrop⟩ := zip_drop hop
      rw [← hl] at hdrop
      rw [hdrop] at hfollows
      obtain ⟨op', out', t₁, used₁, hcons, heffect, -⟩ :=
        hfollows.cons consts (hbelow op (List.mem_of_getElem? hop))
      have hat : out[pc]? = some op' := by
        have h0 := congrArg (·[0]?) hcons
        simpa only [List.getElem?_drop, Nat.add_zero, List.getElem?_cons_zero] using h0
      rw [hat, Option.bind_some, Option.bind_some, heffect]
  · rintro ⟨regs, pc⟩ ⟨regs', pc'⟩ ⟨t, used, hfollows⟩ hstep
    obtain ⟨op, hop, hstep⟩ := Option.bind_eq_some_iff.mp hstep
    obtain ⟨e, he, hnext⟩ := Option.map_eq_some_iff.mp hstep
    obtain ⟨start, -, hdrop⟩ := zip_drop hop
    rw [← hl] at hdrop
    rw [hdrop] at hfollows
    obtain ⟨op', out', t₁, used₁, hcons, -, -, -, -, hfall⟩ :=
      hfollows.cons consts (hbelow op (List.mem_of_getElem? hop))
    cases e with
    | fall regs₁ =>
      cases hnext
      have hdrop' : out.drop (pc + 1) = out' := by
        rw [← List.drop_drop, hcons]
        rfl
      exact ⟨t₁, used₁, hdrop'.symm ▸ hfall regs' he⟩
    | jump target =>
      cases hnext
      obtain ⟨t₂, used₂, hvisits, hlen₂, hfits₂⟩ :=
        Numbering.visitAll_drop ⟨t', hall⟩ hlen hfits hmem target.toNat
      refine ⟨t₂, used₂, hvisits, hlen₂, hfits₂, .inl ?_⟩
      intro x hx
      match htop : code[target.toNat]? with
      | none =>
        rw [List.getElem?_eq_none_iff] at htop
        rw [hl, List.drop_eq_nil_of_le (by rw [List.length_zip]; omega)] at hx
        cases hx
      | some top =>
        obtain ⟨start', hstart, hdrop'⟩ := zip_drop htop
        have htrue := blockStarts_target (List.mem_of_getElem? hop) (Op.effect_jump he)
          (List.getElem?_eq_some_iff.mp htop).1
        rw [hl, hdrop'] at hx
        cases hx
        exact Option.some.inj (hstart.symm.trans htrue)
    | returned v => cases hnext
  · refine ⟨.start nRegs, 0, ⟨t', hall⟩, hlen, hfits, .inl ?_⟩
    intro x hx
    match hop : code[0]? with
    | none =>
      rw [List.getElem?_eq_none_iff] at hop
      rw [hl, List.drop_eq_nil_of_le (by rw [List.length_zip]; omega)] at hx
      cases hx
    | some op =>
      obtain ⟨start, hstart, hdrop⟩ := zip_drop hop
      rw [hl, hdrop] at hx
      cases hx
      have htrue := blockStarts_zero (List.getElem?_eq_some_iff.mp hop).1
      exact Option.some.inj (hstart.symm.trans htrue)

/-- A machine of numbers. -/
def numbers : Values ℕ := ⟨Bool.toNat, 0, 0, fun _ a b => a + b, fun v => v ≠ 0⟩

theorem redundancyEliminate_lockstep_sample :
    ∃ out stats, redundancyEliminate (fun _ : ℕ => true) [.mul 1 0 0, .mul 2 0 0, .ret 2] 3 [] .always =
        some (out, stats) ∧ out.length = 3 ∧ ∀ n regs,
      runFor (stepCode numbers [] out) n (regs, 0) =
        runFor (stepCode numbers [] [.mul 1 0 0, .mul 2 0 0, .ret 2]) n (regs, 0) := by
  refine redundancyEliminate_lockstep numbers (fun _ => true) _ 3 [] .always ?_ ?_
  · decide
  · decide +kernel

/-! ### When the numbers do not suffice -/

namespace Numbering

/-- One sum, made over and over. -/
def sum : Op := .add 0 1 1

/-- So many sums, and a register is returned. -/
def sums (n : ℕ) (r : UInt16) : List Op := List.replicate n sum ++ [.ret r]

/-- The numbering behind so many sums: the class of the first register moves on, the second
register keeps the class 5. -/
structure Spins (t : Numbering) (c : ℕ) : Prop where
  classes : t.classes = [c, 5, 6]
  next : 6 < t.nextClass ∨ t.nextClass ≤ 5
  ne : c ≠ 5
  second : t.holder 5 = some 1
  first : t.holder c = some 0
  held : ∀ c' r, t.holder c' = some r → c' = c ∨ c' = 5 ∨ c' = 6
  available : ∀ c', t.avail (0, 5, 5) = some c' → c' = c

/-- A sum stays as it is, and takes the next class. -/
theorem Spins.visit {t : Numbering} {c : ℕ} (h : t.Spins c) (hnext : t.nextClass ≠ c)
    (isNumber : ℕ → Bool) (allow : Allow) :
    ∃ t', t.visit isNumber allow sum = some (sum, t') ∧ t'.classes = [t.nextClass, 5, 6] ∧
      t'.nextClass = bump t.nextClass ∧ t'.holder 5 = some 1 ∧
      t'.avail (0, 5, 5) = some t.nextClass ∧
      (t.nextClass ≠ 5 → t'.holder t.nextClass = some 0) ∧
      ∀ c' r, t'.holder c' = some r → c' = t.nextClass ∨ c' = 5 ∨ c' = 6 := by
  have hone : t.classOf 1 = 5 := by
    rw [classOf, h.classes]
    rfl
  have hzero : t.classOf 0 = c := by
    rw [classOf, h.classes]
    rfl
  have hsub : t.sub 1 = 1 := by
    rw [sub, hone, h.second]
    rfl
  have hrebuild : sum.rebuild t.sub = sum := by
    show Op.add 0 (t.sub 1) (t.sub 1) = _
    rw [hsub]
    rfl
  have hlookup : t.lookup allow sum = none := by
    show ((t.avail (0, t.classOf 1, t.classOf 1)).bind fun res => (t.holder res).bind fun prev =>
      if (allow = .always ∨ t.isProven 1 ∧ t.isProven 1) ∧ prev ≠ 0 then some prev else none) = none
    rw [hone]
    match ha : t.avail (0, 5, 5) with
    | none => rfl
    | some c' =>
      obtain rfl := h.available c' ha
      rw [Option.bind_some, h.first, Option.bind_some, if_neg]
      rintro ⟨-, hne⟩
      exact hne rfl
  have hfold : t.fold allow sum = (sum, 0) := by
    rw [fold, hlookup]
  have hdrop : t.drop 0 = { t with holder := Function.update t.holder c none } := by
    rw [drop, hzero, if_pos h.first]
  have hone' : (t.drop 0).classOf 1 = 5 := by
    rw [classOf, drop_classes]
    exact hone
  have hheld : ∀ c' r, (t.drop 0).holder c' = some r → c' = 5 ∨ c' = 6 := by
    intro c' r hr
    rw [hdrop] at hr
    dsimp only at hr
    rw [Function.update_apply] at hr
    split_ifs at hr with heq
    exact (h.held c' r hr).resolve_left heq
  have hsecond : (t.drop 0).holder 5 = some 1 := by
    rw [hdrop]
    dsimp only
    rw [Function.update_of_ne h.ne.symm, h.second]
  have hnextDrop : (t.drop 0).nextClass = t.nextClass := by rw [hdrop]
  have hclasses : (t.drop 0).classes = [c, 5, 6] := by rw [drop_classes, h.classes]
  obtain ⟨t₁, ht₁⟩ : ∃ t₁ : Numbering, t₁ = { t.drop 0 with
      classes := [t.nextClass, 5, 6]
      nextClass := bump t.nextClass
      avail := Function.update (t.drop 0).avail (0, 5, 5) (some t.nextClass)
      holder := if (t.drop 0).holder t.nextClass = none then
        Function.update (t.drop 0).holder t.nextClass (some 0) else (t.drop 0).holder } := ⟨_, rfl⟩
  have hupdate : t.update sum = some t₁ := by
    show ((t.drop 0).define sum).1.assign 0 ((t.drop 0).define sum).2 = _
    have hdefine : (t.drop 0).define sum = ({ t.drop 0 with
        nextClass := bump t.nextClass
        avail := Function.update (t.drop 0).avail (0, 5, 5) (some t.nextClass) }, t.nextClass) := by
      rw [← hnextDrop, ← hone']
      rfl
    have hroom : (0 : UInt16).toNat < (t.drop 0).classes.length := by
      rw [hclasses]
      exact Nat.succ_pos 2
    rw [hdefine, assign, if_pos hroom, ht₁]
    dsimp only
    rw [hclasses]
    rfl
  refine ⟨{ t₁ with
    proven := t.transfer isNumber sum
    stats := ⟨t.stats.cseFolded + 0, t.stats.copiesForwarded + (t.rewriteUsesByClass sum).2⟩ },
    ?_, ?_⟩
  · simp only [Numbering.visit, rewriteUsesByClass, hrebuild, hfold, hupdate]
    rfl
  subst ht₁
  dsimp only
  refine ⟨rfl, rfl, ?_, Function.update_self .., ?_, ?_⟩
  · split_ifs with hnone
    · rw [Function.update_apply, hsecond]
      split_ifs with heq
      · rw [← heq, hsecond] at hnone
        cases hnone
      · rfl
    · exact hsecond
  · intro hne
    rw [if_pos, Function.update_self]
    match hh : (t.drop 0).holder t.nextClass with
    | none => rfl
    | some r =>
      have hfive := hheld _ r hh
      have h6 := h.next
      omega
  · intro c' r hr
    split_ifs at hr with hnone
    · rw [Function.update_apply] at hr
      split_ifs at hr with heq
      · exact .inl heq
      · exact .inr (hheld c' r hr)
    · exact .inr (hheld c' r hr)

/-- The class of the first register behind so many sums. -/
def spun (j : ℕ) : ℕ := if j = 0 then 4 else (6 + j) % 2 ^ 32

/-- The sum that takes the class 5 gives it to both registers, and the second is read from
then on. -/
theorem spins_out (isNumber : ℕ → Bool) (allow : Allow) {n : ℕ} (hn : n ≠ 0) {t : Numbering}
    {j : ℕ} (hj : j + n = 2 ^ 32 - 1) (h : t.Spins (spun j)) (hnext : t.nextClass = (7 + j) % 2 ^ 32) :
    ∃ t', visitAll isNumber allow (List.replicate n (sum, false) ++ [(.ret 0, false)]) t =
      some (sums n 1, t') := by
  induction n generalizing t j with
  | zero => exact absurd rfl hn
  | succ n ih =>
    have hne : t.nextClass ≠ spun j := by
      rw [hnext, spun]
      split_ifs <;> omega
    obtain ⟨t₁, hvisit, hclasses, hnext₁, hsecond, havail, hfirst, hheld⟩ :=
      h.visit hne isNumber allow
    rcases Nat.eq_zero_or_pos n with rfl | hpos
    · have hfive : t.nextClass = 5 := by omega
      have hsub : t₁.sub 0 = 1 := by
        rw [sub, classOf, hclasses, hfive]
        show (t₁.holder 5).getD 0 = 1
        rw [hsecond]
        rfl
      obtain ⟨t₂, hret⟩ : ∃ t₂, t₁.visit isNumber allow (.ret 0) = some (.ret (t₁.sub 0), t₂) :=
        ⟨_, rfl⟩
      rw [hsub] at hret
      refine ⟨t₂, ?_⟩
      simp only [List.replicate_succ, List.replicate_zero, List.cons_append, List.nil_append,
        visitAll, Bool.false_eq_true, if_false, hvisit, hret, Option.bind_eq_bind, Option.bind_some]
      rfl
    · have hspun : spun (j + 1) = t.nextClass := by
        rw [hnext, spun, if_neg (Nat.succ_ne_zero j)]
        omega
      have hnot : t.nextClass ≠ 5 := by omega
      have hspins : t₁.Spins (spun (j + 1)) := by
        rw [hspun]
        refine ⟨hclasses, ?_, hnot, hsecond, hfirst hnot, hheld, ?_⟩
        · rw [hnext₁, bump]
          omega
        · intro c hc
          exact (Option.some.inj (havail.symm.trans hc)).symm
      obtain ⟨t', ht'⟩ := ih hpos.ne' (j := j + 1) (by omega) hspins (by rw [hnext₁, hnext, bump]; omega)
      refine ⟨t', ?_⟩
      rw [sums, List.replicate_succ, List.replicate_succ, List.cons_append, List.cons_append,
        visitAll]
      simp only [Bool.false_eq_true, if_false, hvisit, ht', Option.bind_eq_bind, Option.bind_some]
      rfl

/-- The instructions of the sums, marked. -/
theorem zip_sums (n : ℕ) :
    (sums (n + 1) 0).zip (blockStarts (sums (n + 1) 0)) =
      (sum, true) :: (List.replicate n (sum, false) ++ [(.ret 0, false)]) := by
  set code := sums (n + 1) 0 with hcode
  have hmem : ∀ op ∈ code, op.jumpTarget = none := by
    intro op hop
    rcases List.mem_append.mp hop with hop | hop
    · rw [List.eq_of_mem_replicate hop]
      rfl
    · rw [List.mem_singleton.mp hop]
      rfl
  have hstarts : blockStarts code = true :: List.replicate (n + 1) false := by
    apply List.ext_getElem?
    intro i
    have hlen : code.length = n + 2 := by simp [hcode, sums]
    rw [blockStarts, List.getElem?_map]
    rcases Nat.lt_or_ge i (n + 2) with hi | hi
    · rw [List.getElem?_range (hlen.symm ▸ hi), Option.map_some]
      have hany : code.any (fun op => op.jumpTarget.any (·.toNat = i)) = false := by
        rw [List.any_eq_false]
        intro op hop
        rw [hmem op hop]
        exact Bool.false_ne_true
      cases i with
      | zero => rfl
      | succ i =>
        have hat : code[i]? = some sum := by
          rw [hcode, sums, List.getElem?_append_left (by rw [List.length_replicate]; omega),
            List.getElem?_replicate_of_lt (by omega)]
        rw [hany, Nat.add_sub_cancel, hat, List.getElem?_cons_succ,
          List.getElem?_replicate_of_lt (by omega)]
        rfl
    · rw [List.getElem?_eq_none (by rw [List.length_range]; omega), Option.map_none,
        List.getElem?_eq_none (by rw [List.length_cons, List.length_replicate]; omega)]
  have hmarked : ∀ l : List Op, l.zip (List.replicate l.length false) = l.map (·, false) := by
    intro l
    induction l with
    | nil => rfl
    | cons op l ih => exact congrArg _ ih
  have htail : (sums n 0).length = n + 1 := by simp [sums]
  rw [hstarts, hcode, sums, List.replicate_succ, List.cons_append, List.zip_cons_cons, ← htail]
  show (sum, true) :: (sums n 0).zip _ = _
  rw [hmarked, sums, List.map_append, List.map_replicate]
  rfl

theorem startBlock_spins : (Numbering.start 2).startBlock.Spins 4 := by
  refine ⟨rfl, .inl (by decide), by decide, rfl, rfl, ?_, ?_⟩
  · intro c r hr
    obtain ⟨i, hi, rfl⟩ := @holders_given 4 3 c r hr
    omega
  · intro c hc
    cases hc

/-- Sums, and then a register is returned. -/
theorem runFor_sums (N n i : ℕ) (r : UInt16) (regs : UInt16 → ℕ) (hi : i + n = N)
    (hone : regs 1 = 1) :
    runFor (stepCode numbers [] (sums N r)) (n + 1) (regs, i) =
      some (.inr ((if n = 0 then regs else Function.update regs 0 2) r)) := by
  induction n generalizing i regs with
  | zero =>
    have hat : (sums N r)[i]? = some (.ret r) := by
      rw [sums, List.getElem?_append_right (by rw [List.length_replicate]; omega), List.length_replicate,
        show i - N = 0 by omega]
      rfl
    rw [runFor, stepCode, hat]
    rfl
  | succ n ih =>
    have hat : (sums N r)[i]? = some sum := by
      rw [sums, List.getElem?_append_left (by rw [List.length_replicate]; omega),
        List.getElem?_replicate_of_lt (by omega)]
    have hstep : stepCode numbers [] (sums N r) (regs, i) =
        some (.inl (Function.update regs 0 2, i + 1)) := by
      rw [stepCode, hat, Option.bind_some]
      show some (Sum.inl (Function.update regs 0 (regs 1 + regs 1), i + 1)) = _
      rw [hone]
    rw [runFor, hstep]
    show runFor _ (n + 1) _ = _
    rw [ih (i + 1) _ (by omega) (by rw [Function.update_of_ne (by decide), hone]),
      Function.update_idem, ite_self, if_neg (Nat.succ_ne_zero n)]

theorem sums_below (n : ℕ) : ∀ op ∈ sums n 0, op.Below 2 := by
  intro op hop
  rcases List.mem_append.mp hop with hop | hop
  · rw [List.eq_of_mem_replicate hop]
    decide
  · rw [List.mem_singleton.mp hop]
    decide

/-- Of 2^32 - 1 equal sums the last gets the class of an operand. -/
theorem redundancyEliminate_sums {n : ℕ} (hn : n + 1 = 2 ^ 32 - 1) (isNumber : ℕ → Bool) :
    ∃ stats, redundancyEliminate isNumber (sums (n + 1) 0) 2 [] .always =
      some (sums (n + 1) 1, stats) := by
  obtain ⟨t', ht'⟩ := spins_out (fun k => ([] : List ℕ)[k]?.any isNumber) .always
    (Nat.succ_ne_zero n) ((Nat.zero_add (n + 1)).trans hn) startBlock_spins rfl
  refine ⟨t'.stats, ?_⟩
  rw [redundancyEliminate, zip_sums]
  exact congrArg _ ht'

end Numbering

open Conclave.Js.Numbering in
/-- The last of 2^32 - 1 equal sums gets the class of its operand, and the operand is returned
for the sum. -/
theorem redundancyEliminate_wraps :
    (∀ op ∈ sums (2 ^ 32 - 1) 0, op.Below 2) ∧
      ∃ out stats, redundancyEliminate (fun _ : ℕ => true) (sums (2 ^ 32 - 1) 0) 2 [] .always =
          some (out, stats) ∧
        ∃ n regs, runFor (stepCode numbers [] out) n (regs, 0) ≠
          runFor (stepCode numbers [] (sums (2 ^ 32 - 1) 0)) n (regs, 0) := by
  obtain ⟨n, hn⟩ : ∃ n, n + 1 = 2 ^ 32 - 1 := ⟨2 ^ 32 - 2, by norm_num⟩
  rw [← hn]
  obtain ⟨stats, hout⟩ := redundancyEliminate_sums hn fun _ => true
  refine ⟨sums_below _, _, stats, hout, n + 1 + 1, fun _ => 1, ?_⟩
  rw [runFor_sums (n + 1) (n + 1) 0 1 _ (Nat.zero_add _) rfl,
    runFor_sums (n + 1) (n + 1) 0 0 _ (Nat.zero_add _) rfl, if_neg (Nat.succ_ne_zero n)]
  simp

end Conclave.Js
