import Conclave.Ipc.Cutting
import Conclave.Lib.Outcome
import Conclave.Urls.Addresses

/-! Which texts are IPv6 addresses, and what the parser makes of them. The groups are
those the grammar of addresses gives a text; the slots are those the code fills from
both ends. A double colon beside eight groups stands for no group at all, and the
parser takes it. -/

namespace Conclave.Urls

open Lib Ipc

variable {s t before after piece : Text} {g n idx ridx : ℕ} {l m groups : List ℕ}

/-! ### The grammar -/

/-- One to four hexadecimal digits. -/
def Group (piece : Text) (g : ℕ) : Prop := IsNumeral 16 piece g ∧ piece.length ≤ 4

/-- Groups with a colon between any two of them. -/
def Groups (s : Text) (groups : List ℕ) : Prop :=
  ∃ pieces, s = colons pieces ∧ List.Forall₂ Group pieces groups

/-- The address of a text: eight groups, or fewer than eight around a double colon. -/
inductive Denotes : Text → List ℕ → Prop
  | full {s : Text} {groups : List ℕ} : Groups s groups → groups.length = 8 → Denotes s groups
  | compressed {before after : Text} {l m : List ℕ} : Groups before l → Groups after m →
    l.length + m.length < 8 → Denotes (before ++ "::".toList ++ after)
      (l ++ List.replicate (8 - l.length - m.length) 0 ++ m)

/-- Eight groups beside a double colon, which then stands for none. Where all of them are
on its right, anything may come in front of them that brings no second one. -/
inductive Overfull : Text → List ℕ → Prop
  | beside {before after : Text} {l m : List ℕ} : Groups before l → Groups after m →
    l.length + m.length = 8 → Overfull (before ++ "::".toList ++ after) (l ++ m)
  | behind {ignored after : Text} {m : List ℕ} : Groups after m → m.length = 8 →
    contains "::".toList (ignored ++ ':' :: after) = false →
    Overfull ([] ++ "::".toList ++ (ignored ++ ':' :: after)) m

/-! ### Pieces -/

theorem parseIpv6Piece_iff : parseIpv6Piece piece = .ok g ↔ Group piece g := by
  rw [parseIpv6Piece]
  constructor
  · intro h
    split_ifs at h with hshape
    simp only [not_or, not_lt, not_not] at hshape
    rw [fromRadix] at h
    split_ifs at h with hdigits
    refine ⟨⟨hdigits.1, fun c hc => ?_, Except.ok.inj h⟩, hshape.2.1⟩
    have hboth := List.all_eq_true.mp hdigits.2.1 c hc
    rwa [Bool.and_eq_true, decide_eq_true_eq] at hboth
  · rintro ⟨hnumeral, hlen⟩
    have hlt : g < 2 ^ 32 := by
      have hpow : 16 ^ piece.length ≤ 16 ^ 4 := Nat.pow_le_pow_right (by omega) hlen
      have hvalue := foldl_lt piece (fun c hc => (hnumeral.digits c hc).2) 0
      rw [hnumeral.value] at hvalue
      omega
    rw [if_neg, hnumeral.fromRadix hlt]
    rintro (hnil | hlong | hnot)
    · exact hnumeral.ne_nil hnil
    · omega
    · exact hnot (List.all_eq_true.mpr fun c hc => (hnumeral.digits c hc).1)

theorem parseIpv6Piece_error {e : UrlError} (h : parseIpv6Piece piece = .error e) :
    e = .invalidHost := by
  rw [parseIpv6Piece, fromRadix] at h
  split_ifs at h <;> cases h <;> rfl

theorem group_hex (h : g < 2 ^ 16) : Group (hex g) g :=
  parseIpv6Piece_iff.mp (parseIpv6Piece_hex h)

theorem Group.notMem (h : Group piece g) : ':' ∉ piece := by
  intro hmem
  have hcolon := (h.1.digits ':' hmem).1
  cases hcolon

theorem mapM_iff {pieces : List Text} :
    pieces.mapM parseIpv6Piece = .ok groups ↔ List.Forall₂ Group pieces groups := by
  induction pieces generalizing groups with
  | nil =>
    rw [List.mapM_nil, List.forall₂_nil_left_iff]
    exact ⟨fun h => (Except.ok.inj h).symm, fun h => h ▸ rfl⟩
  | cons piece pieces ih =>
    rw [List.mapM_cons, List.forall₂_cons_left_iff, bind_eq_ok]
    constructor
    · rintro ⟨g, hg, h⟩
      obtain ⟨rest, hrest, h⟩ := bind_eq_ok.mp h
      exact ⟨g, rest, parseIpv6Piece_iff.mp hg, ih.mp hrest, (Except.ok.inj h).symm⟩
    · rintro ⟨g, rest, hg, hrest, rfl⟩
      exact ⟨g, parseIpv6Piece_iff.mpr hg, bind_eq_ok.mpr ⟨rest, ih.mpr hrest, rfl⟩⟩

theorem pieces_of_group {pieces : List Text} (h : List.Forall₂ Group pieces groups) :
    Pieces pieces := by
  induction h with
  | nil => exact nofun
  | cons hg _ ih =>
    intro x hx
    rcases List.mem_cons.mp hx with rfl | hx
    · exact ⟨hg.1.ne_nil, hg.notMem⟩
    · exact ih x hx

/-! ### Groups -/

theorem groups_iff : Groups s groups ↔ List.Forall₂ Group (colonParts s) groups := by
  constructor
  · rintro ⟨pieces, rfl, h⟩
    rwa [colonParts_colons (pieces_of_group h)]
  · intro h
    refine ⟨colonParts s, ?_, h⟩
    rw [colonParts]
    split_ifs with hnil
    · rw [hnil]
      rfl
    · exact (List.intercalate_splitOn ':').symm

theorem Groups.mapM (h : Groups s groups) : (colonParts s).mapM parseIpv6Piece = .ok groups :=
  mapM_iff.mpr (groups_iff.mp h)

theorem Groups.unique {groups' : List ℕ} (h : Groups s groups) (h' : Groups s groups') :
    groups = groups' := by
  have hsame := h.mapM
  rw [h'.mapM] at hsame
  exact (Except.ok.inj hsame).symm

theorem Groups.length (h : Groups s groups) : (colonParts s).length = groups.length :=
  (groups_iff.mp h).length_eq

theorem Groups.cut_append (h : Groups s groups) (t : Text) : splitOnce "::".toList (s ++ t) =
    (splitOnce "::".toList t).map fun r => (s ++ r.1, r.2) := by
  obtain ⟨pieces, rfl, hpieces⟩ := h
  exact splitOnce_colons (pieces_of_group hpieces) t

theorem Groups.cut_none (h : Groups s groups) : splitOnce "::".toList s = none := by
  have hnone := h.cut_append []
  rwa [List.append_nil] at hnone

theorem splitOnce_double (t : Text) : splitOnce "::".toList ("::".toList ++ t) = some ([], t) := by
  rw [show "::".toList ++ t = ':' :: ':' :: t from rfl, splitOnce, if_pos]
  · rfl
  · exact List.prefix_append "::".toList t

theorem Groups.cut_double (h : Groups before l) (after : Text) :
    splitOnce "::".toList (before ++ "::".toList ++ after) = some (before, after) := by
  rw [List.append_assoc, h.cut_append, splitOnce_double, Option.map_some, List.append_nil]

theorem groups_nil : Groups [] [] := ⟨[], rfl, .nil⟩

theorem groups_hex (h : ∀ g ∈ groups, g < 2 ^ 16) : Groups (colons (groups.map hex)) groups :=
  ⟨groups.map hex, rfl, by
    rw [List.forall₂_map_left_iff, List.forall₂_same]
    exact fun g hg => group_hex (h g hg)⟩

/-! ### The pieces on the right -/

/-- What is read on the right: everything when there is room, or the last pieces down to
the place 0 when nothing stands on the left. -/
theorem fillRight_iff {parts : List Text} {filled right : List ℕ} :
    fillRight idx ridx parts filled = .ok right ↔ ∃ read rest groups, parts = read ++ rest ∧
      List.Forall₂ Group read groups ∧ right = groups.reverse ++ filled ∧
      (rest = [] ∧ (read = [] ∨ idx + read.length ≤ ridx + 1) ∨ idx = 0 ∧ read.length = ridx + 1) := by
  induction parts generalizing ridx filled with
  | nil =>
    rw [fillRight]
    constructor
    · intro h
      obtain rfl := Except.ok.inj h
      exact ⟨[], [], [], rfl, .nil, rfl, .inl ⟨rfl, .inl rfl⟩⟩
    · rintro ⟨read, rest, groups, hparts, hgroups, rfl, -⟩
      obtain ⟨rfl, rfl⟩ := List.append_eq_nil_iff.mp hparts.symm
      obtain rfl := List.forall₂_nil_left_iff.mp hgroups
      rfl
  | cons part parts ih =>
    rw [fillRight.eq_def]
    dsimp only
    constructor
    · intro h
      split_ifs at h with hlow
      obtain ⟨g, hg, hrest⟩ := bind_eq_ok.mp h
      have hgroup := parseIpv6Piece_iff.mp hg
      cases ridx with
      | zero =>
        obtain rfl := Except.ok.inj hrest
        exact ⟨[part], parts, [g], rfl, .cons hgroup .nil, rfl, .inr ⟨by omega, rfl⟩⟩
      | succ ridx =>
        obtain ⟨read, rest, groups, rfl, hread, rfl, hends⟩ := ih.mp hrest
        refine ⟨part :: read, rest, g :: groups, rfl, .cons hgroup hread, by simp, ?_⟩
        rw [List.length_cons]
        rcases hends with ⟨hnil, hroom⟩ | ⟨hzero, hlen⟩
        · refine .inl ⟨hnil, .inr ?_⟩
          rcases hroom with rfl | hroom
          · rw [List.length_nil]
            omega
          · omega
        · exact .inr ⟨hzero, by omega⟩
    · rintro ⟨read, rest, groups, hparts, hread, rfl, hends⟩
      cases read with
      | nil =>
        rcases hends with ⟨rfl, -⟩ | ⟨-, hlen⟩
        · cases hparts
        · rw [List.length_nil] at hlen
          omega
      | cons piece read =>
        obtain ⟨rfl, rfl⟩ := List.cons.inj hparts
        obtain ⟨g, groups, hg, hmore, rfl⟩ := List.forall₂_cons_left_iff.mp hread
        have hroom : idx + read.length ≤ ridx := by
          rw [List.length_cons] at hends
          rcases hends with ⟨-, hnil | hroom⟩ | ⟨hzero, hlen⟩
          · cases hnil
          · omega
          · omega
        rw [if_neg (by omega), parseIpv6Piece_iff.mpr hg, ok_bind]
        cases ridx with
        | zero =>
          obtain rfl := List.eq_nil_of_length_eq_zero (show read.length = 0 by omega)
          obtain rfl := List.forall₂_nil_left_iff.mp hmore
          rfl
        | succ ridx =>
          apply ih.mpr
          refine ⟨read, rest, groups, rfl, hmore, by simp, ?_⟩
          rw [List.length_cons] at hends
          rcases hends with ⟨hnil, -⟩ | ⟨hzero, hlen⟩
          · exact .inl ⟨hnil, .inr (by omega)⟩
          · exact .inr ⟨hzero, by omega⟩

/-! ### What is parsed -/

theorem parseIpv6_double (hbefore : Groups before l) (hlen : l.length ≤ 8)
    (hafter : contains "::".toList after = false)
    (hright : fillRight l.length 7 (colonParts after).reverse [] = .ok m) :
    parseIpv6 (before ++ "::".toList ++ after) =
      .ok (serializeIpv6 (l ++ List.replicate (8 - l.length - m.length) 0 ++ m)) := by
  rw [parseIpv6, hbefore.cut_double]
  dsimp only
  rw [if_neg (by rw [hafter]; exact Bool.noConfusion), hbefore.length, if_neg (by omega),
    hbefore.mapM]
  simp only [bind, Except.bind, pure, Except.pure, hright]

theorem colons_append {front back : List Text} (hfront : front ≠ []) (hback : back ≠ []) :
    colons (front ++ back) = colons front ++ ':' :: colons back := by
  obtain ⟨piece, front, rfl⟩ := List.exists_cons_of_ne_nil hfront
  obtain ⟨next, back, rfl⟩ := List.exists_cons_of_ne_nil hback
  rw [List.cons_append, colons_cons, colons_cons, colons_cons]
  simp

theorem fillRight_groups (h : Groups after m) (hroom : idx + m.length ≤ 8) :
    fillRight idx 7 (colonParts after).reverse [] = .ok m := by
  apply fillRight_iff.mpr
  refine ⟨(colonParts after).reverse, [], m.reverse, by simp, ?_, by simp, .inl ⟨rfl, .inr ?_⟩⟩
  · exact List.rel_reverse (groups_iff.mp h)
  · rw [List.length_reverse, h.length]
    omega

theorem splitOn_behind (ignored : Text) (h : Groups after m) (hne : m ≠ []) :
    colonParts (ignored ++ ':' :: after) = ignored.splitOn ':' ++ colonParts after := by
  have hafter : after ≠ [] := by
    rintro rfl
    exact hne (h.unique groups_nil)
  rw [colonParts, if_neg (by simp), List.splitOn_append_cons_self, colonParts, if_neg hafter]

theorem fillRight_behind (ignored : Text) (h : Groups after m) (hlen : m.length = 8) :
    fillRight 0 7 (colonParts (ignored ++ ':' :: after)).reverse [] = .ok m := by
  apply fillRight_iff.mpr
  refine ⟨(colonParts after).reverse, (ignored.splitOn ':').reverse, m.reverse, ?_, ?_, by simp,
    .inr ⟨rfl, ?_⟩⟩
  · rw [splitOn_behind ignored h (List.ne_nil_of_length_pos (by omega)), List.reverse_append]
  · exact List.rel_reverse (groups_iff.mp h)
  · rw [List.length_reverse, h.length, hlen]

theorem contains_groups (h : Groups s groups) : contains "::".toList s = false := by
  rw [contains, h.cut_none]
  rfl

theorem parseIpv6_of_denotes (h : Denotes s groups) :
    parseIpv6 s = .ok (serializeIpv6 groups) := by
  cases h with
  | full hgroups hlen =>
    have hne : s ≠ [] := by
      rintro rfl
      rw [hgroups.unique groups_nil] at hlen
      cases hlen
    have hparts : s.splitOn ':' = colonParts s := (if_neg hne).symm
    rw [parseIpv6, hgroups.cut_none]
    dsimp only
    rw [hparts, hgroups.length, if_neg (by omega), hgroups.mapM]
    rfl
  | compressed hbefore hafter hlen =>
    exact parseIpv6_double hbefore (by omega) (contains_groups hafter)
      (fillRight_groups hafter (by omega))

theorem parseIpv6_of_overfull (h : Overfull s groups) :
    parseIpv6 s = .ok (serializeIpv6 groups) := by
  cases h with
  | @beside before after l m hbefore hafter hlen =>
    have hparse := parseIpv6_double hbefore (by omega) (contains_groups hafter)
      (fillRight_groups hafter (by omega))
    rwa [show 8 - l.length - m.length = 0 by omega, List.replicate_zero, List.append_nil] at hparse
  | @behind ignored after _ hafter hlen hnot =>
    have hparse := parseIpv6_double groups_nil (by simp) hnot (fillRight_behind ignored hafter hlen)
    rwa [hlen] at hparse

theorem denotes_or_overfull (h : parseIpv6 s = .ok t) :
    ∃ groups, (Denotes s groups ∨ Overfull s groups) ∧ serializeIpv6 groups = t := by
  rw [parseIpv6] at h
  cases hsplit : splitOnce "::".toList s with
  | none =>
    rw [hsplit] at h
    dsimp only at h
    split_ifs at h with hlen
    obtain ⟨groups, hparts, h⟩ := bind_eq_ok.mp h
    refine ⟨groups, .inl (.full ⟨s.splitOn ':', ?_, mapM_iff.mp hparts⟩ ?_), Except.ok.inj h⟩
    · exact (List.intercalate_splitOn ':').symm
    · rw [← (mapM_iff.mp hparts).length_eq]
      exact not_not.mp hlen
  | some r =>
    obtain ⟨before, after⟩ := r
    obtain rfl := splitOnce_eq hsplit
    rw [hsplit] at h
    dsimp only at h ⊢
    split_ifs at h with hcontains hlong
    · cases h
    obtain ⟨l, hl, h⟩ := bind_eq_ok.mp h
    obtain ⟨m, hm, h⟩ := bind_eq_ok.mp h
    have hbefore := groups_iff.mpr (mapM_iff.mp hl)
    have hlen := hbefore.length
    obtain ⟨read, rest, groups, hparts, hread, hgroups, hends⟩ := fillRight_iff.mp hm
    rw [List.append_nil] at hgroups
    have hback : List.Forall₂ Group read.reverse m := hgroups ▸ List.rel_reverse hread
    have hsame : read.length = m.length := by rw [← hback.length_eq, List.length_reverse]
    refine ⟨_, ?_, Except.ok.inj h⟩
    by_cases hrest : rest = []
    · subst hrest
      have hafter : Groups after m := by
        apply groups_iff.mpr
        rwa [← List.reverse_reverse (colonParts after), hparts, List.append_nil]
      have hroom : l.length + m.length ≤ 8 := by
        rcases hends with ⟨-, rfl | hroom⟩ | ⟨hzero, hread⟩
        · rw [List.length_nil] at hsame
          omega
        · omega
        · omega
      rcases Nat.lt_or_eq_of_le hroom with hlt | heq
      · exact .inl (.compressed hbefore hafter hlt)
      · rw [show 8 - l.length - m.length = 0 by omega, List.replicate_zero, List.append_nil]
        exact .inr (.beside hbefore hafter heq)
    · obtain ⟨hzero, hread⟩ := hends.resolve_left fun hends => hrest hends.1
      obtain rfl := List.eq_nil_of_length_eq_zero hzero
      obtain ⟨pieces, rfl, hpieces⟩ := hbefore
      obtain rfl := List.forall₂_nil_right_iff.mp hpieces
      have hne : colonParts after ≠ [] := by
        intro hnil
        rw [hnil] at hparts
        exact hrest (List.append_eq_nil_iff.mp hparts.symm).2
      have hafter : after = colons rest.reverse ++ ':' :: colons read.reverse := by
        rw [← colons_append (by simpa using hrest)
          (by rw [← List.length_pos_iff, List.length_reverse]; omega),
          ← List.reverse_append, ← hparts, List.reverse_reverse]
        rw [colonParts] at hne ⊢
        split_ifs at hne ⊢
        · exact absurd rfl hne
        · exact (List.intercalate_splitOn ':').symm
      rw [List.length_nil, show 8 - 0 - m.length = 0 by omega, List.replicate_zero,
        List.nil_append, List.nil_append, hafter]
      rw [hafter] at hcontains
      exact .inr (.behind ⟨_, rfl, hback⟩ (by omega) (by simpa using hcontains))

/-! ### One address a text -/

theorem Denotes.unique {groups' : List ℕ} (h : Denotes s groups) (h' : Denotes s groups') :
    groups = groups' := by
  cases h with
  | full hgroups hlen =>
    generalize hs : s = u at h'
    cases h' with
    | full hgroups' _ => exact hgroups.unique (hs ▸ hgroups')
    | compressed hbefore _ _ =>
      have hcut := hgroups.cut_none
      rw [hs, hbefore.cut_double] at hcut
      cases hcut
  | @compressed before after l m hbefore hafter hlen =>
    generalize hs : before ++ "::".toList ++ after = u at h'
    have hcut := hbefore.cut_double after
    rw [hs] at hcut
    cases h' with
    | full hgroups' _ =>
      rw [hgroups'.cut_none] at hcut
      cases hcut
    | compressed hbefore' hafter' _ =>
      rw [hbefore'.cut_double] at hcut
      cases hcut
      rw [hbefore.unique hbefore', hafter.unique hafter']

theorem Overfull.not_denotes {groups' : List ℕ} (h : Overfull s groups) : ¬ Denotes s groups' := by
  intro h'
  cases h with
  | @beside before after l m hbefore hafter hlen =>
    generalize hs : before ++ "::".toList ++ after = u at h'
    have hcut := hbefore.cut_double after
    rw [hs] at hcut
    cases h' with
    | full hgroups' _ =>
      rw [hgroups'.cut_none] at hcut
      cases hcut
    | compressed hbefore' hafter' hlen' =>
      rw [hbefore'.cut_double] at hcut
      cases hcut
      rw [hbefore.unique hbefore', hafter.unique hafter'] at hlen
      omega
  | @behind ignored after _ hafter hlen _ =>
    generalize hs : [] ++ "::".toList ++ (ignored ++ ':' :: after) = u at h'
    have hcut := groups_nil.cut_double (ignored ++ ':' :: after)
    rw [hs] at hcut
    cases h' with
    | full hgroups' _ =>
      rw [hgroups'.cut_none] at hcut
      cases hcut
    | compressed hbefore' hafter' hlen' =>
      rw [hbefore'.cut_double] at hcut
      cases hcut
      have hcount := hafter'.length
      rw [splitOn_behind ignored hafter (List.ne_nil_of_length_pos (by omega)), List.length_append,
        hafter.length] at hcount
      omega

/-- The text of eight groups denotes them. -/
theorem denotes_serialize (hlen : groups.length = 8) (h : ∀ g ∈ groups, g < 2 ^ 16) :
    Denotes (serializeIpv6 groups) groups := by
  rcases serializeIpv6_cases groups with htext | ⟨l, n, m, rfl, hn, htext⟩
  · rw [htext]
    exact .full (groups_hex h) hlen
  · have hl : ∀ g ∈ l, g < 2 ^ 16 := fun g hg => h g (by simp [hg])
    have hm : ∀ g ∈ m, g < 2 ^ 16 := fun g hg => h g (by simp [hg])
    rw [List.length_append, List.length_append, List.length_replicate] at hlen
    rw [htext]
    convert Denotes.compressed (groups_hex hl) (groups_hex hm) (by omega) using 3
    rw [show 8 - l.length - m.length = n by omega]

theorem Groups.lt (h : Groups s groups) : ∀ g ∈ groups, g < 2 ^ 16 := (mem_of_mapM h.mapM).2

theorem Denotes.eight (h : Denotes s groups) : groups.length = 8 ∧ ∀ g ∈ groups, g < 2 ^ 16 := by
  cases h with
  | full hgroups hlen => exact ⟨hlen, hgroups.lt⟩
  | compressed hbefore hafter hlen =>
    refine ⟨by simp only [List.length_append, List.length_replicate]; omega, fun g hg => ?_⟩
    rcases List.mem_append.mp hg with hg | hg
    · rcases List.mem_append.mp hg with hg | hg
      · exact hbefore.lt g hg
      · rw [List.eq_of_mem_replicate hg]
        omega
    · exact hafter.lt g hg

theorem parseIpv6_eq_iff {groups' : List ℕ} (h : Denotes s groups) (h' : Denotes t groups') :
    parseIpv6 s = parseIpv6 t ↔ groups = groups' := by
  rw [parseIpv6_of_denotes h, parseIpv6_of_denotes h']
  constructor
  · intro heq
    have hback := denotes_serialize h.eight.1 h.eight.2
    rw [Except.ok.inj heq] at hback
    exact hback.unique (denotes_serialize h'.eight.1 h'.eight.2)
  · rintro rfl
    rfl

/-! ### The slots -/

abbrev Slots := List (Option ℕ)

/-- A write into the slots; none at an index out of range. -/
def setPiece (pieces : Slots) (i g : ℕ) : Option Slots :=
  if i < pieces.length then some (pieces.set i (some g)) else none

def writeLeft : List Text → ℕ → Slots → Option (Except UrlError (ℕ × Slots))
  | [], idx, pieces => some (.ok (idx, pieces))
  | part :: parts, idx, pieces =>
    if 8 ≤ idx then some (.error .invalidHost)
    else match parseIpv6Piece part with
      | .error e => some (.error e)
      | .ok g => (setPiece pieces idx g).bind (writeLeft parts (idx + 1))

def writeRight (idx : ℕ) : ℕ → List Text → Slots → Option (Except UrlError Slots)
  | _, [], pieces => some (.ok pieces)
  | ridx, part :: parts, pieces =>
    if ridx < idx then some (.error .invalidHost)
    else match parseIpv6Piece part with
      | .error e => some (.error e)
      | .ok g => (setPiece pieces ridx g).bind fun pieces =>
        match ridx with
        | 0 => some (.ok pieces)
        | ridx + 1 => writeRight idx ridx parts pieces

def writeEach : List Text → ℕ → Slots → Option (Except UrlError Slots)
  | [], _, pieces => some (.ok pieces)
  | part :: parts, i, pieces =>
    match parseIpv6Piece part with
    | .error e => some (.error e)
    | .ok g => (setPiece pieces i g).bind (writeEach parts (i + 1))

/-- The parser on its eight slots; the ones that stay open are zero. -/
def parseIpv6Slots (inner : Text) : Option (Except UrlError Text) :=
  match splitOnce "::".toList inner with
  | some (before, after) =>
    if contains "::".toList after then some (.error .invalidHost)
    else (writeLeft (colonParts before) 0 (List.replicate 8 none)).bind fun
      | .error e => some (.error e)
      | .ok (idx, pieces) =>
        (writeRight idx 7 (colonParts after).reverse pieces).map fun filled =>
          filled.map fun pieces => serializeIpv6 (pieces.map (·.getD 0))
  | none =>
    if (inner.splitOn ':').length ≠ 8 then some (.error .invalidHost)
    else (writeEach (inner.splitOn ':') 0 (List.replicate 8 none)).map fun filled =>
      filled.map fun pieces => serializeIpv6 (pieces.map (·.getD 0))

theorem setPiece_open (front : Slots) (k g : ℕ) (back : Slots) :
    setPiece (front ++ List.replicate (k + 1) none ++ back) (front.length + k) g =
      some (front ++ List.replicate k none ++ some g :: back) := by
  have hlt : front.length + k < (front ++ List.replicate (k + 1) none ++ back).length := by
    simp only [List.length_append, List.length_replicate]
    omega
  rw [setPiece, if_pos hlt, List.append_assoc,
    List.set_append_right _ _ (by omega), Nat.add_sub_cancel_left, List.replicate_succ',
    List.append_assoc, List.set_append_right _ _ (by rw [List.length_replicate])]
  simp

theorem setPiece_next (front : Slots) (k g : ℕ) :
    setPiece (front ++ List.replicate (k + 1) none) front.length g =
      some (front ++ [some g] ++ List.replicate k none) := by
  have hlt : front.length < (front ++ List.replicate (k + 1) none).length := by simp
  rw [setPiece, if_pos hlt, List.set_append_right _ _ le_rfl, Nat.sub_self, List.replicate_succ]
  simp

theorem writeEach_eq (parts : List Text) (filled : List ℕ)
    (hroom : filled.length + parts.length = 8) :
    writeEach parts filled.length (filled.map some ++ List.replicate parts.length none) =
      some ((parts.mapM parseIpv6Piece).map fun groups => (filled ++ groups).map some) := by
  induction parts generalizing filled with
  | nil =>
    rw [writeEach, List.mapM_nil]
    simp [pure, Except.pure, Except.map]
  | cons part parts ih =>
    rw [List.length_cons] at hroom
    rw [writeEach, List.mapM_cons]
    cases hg : parseIpv6Piece part with
    | error e => rfl
    | ok g =>
      have hset := setPiece_next (filled.map some) parts.length g
      rw [List.length_map] at hset
      have hrest := ih (filled ++ [g]) (by rw [List.length_append, List.length_singleton]; omega)
      rw [List.length_append, List.length_singleton, List.map_append, List.map_singleton] at hrest
      dsimp only
      rw [List.length_cons, hset, Option.bind_some, hrest, ok_bind]
      cases parts.mapM parseIpv6Piece with
      | error e => rfl
      | ok groups => simp [pure, Except.pure, Except.map, ok_bind]

theorem writeLeft_eq (parts : List Text) (filled : List ℕ) (hroom : filled.length ≤ 8) :
    writeLeft parts filled.length (filled.map some ++ List.replicate (8 - filled.length) none) =
      some (if 8 < filled.length + parts.length then .error .invalidHost
        else (parts.mapM parseIpv6Piece).map fun groups => ((filled ++ groups).length,
          (filled ++ groups).map some ++ List.replicate (8 - (filled ++ groups).length) none)) := by
  induction parts generalizing filled with
  | nil =>
    rw [writeLeft, List.mapM_nil, List.length_nil, if_neg (by omega)]
    simp [pure, Except.pure, Except.map]
  | cons part parts ih =>
    rw [writeLeft, List.mapM_cons, List.length_cons]
    by_cases hfull : 8 ≤ filled.length
    · rw [if_pos hfull, if_pos (by omega)]
    · rw [if_neg hfull]
      cases hg : parseIpv6Piece part with
      | error e =>
        obtain rfl := parseIpv6Piece_error hg
        rw [error_bind]
        split_ifs <;> rfl
      | ok g =>
        have hset := setPiece_next (filled.map some) (7 - filled.length) g
        rw [List.length_map, show 7 - filled.length + 1 = 8 - filled.length by omega] at hset
        have hrest := ih (filled ++ [g]) (by rw [List.length_append, List.length_singleton]; omega)
        rw [List.length_append, List.length_singleton, List.map_append, List.map_singleton,
          show 8 - (filled.length + 1) = 7 - filled.length by omega,
          show filled.length + 1 + parts.length = filled.length + (parts.length + 1) by omega]
          at hrest
        dsimp only
        rw [hset, Option.bind_some, hrest, ok_bind]
        split_ifs
        · rfl
        · cases parts.mapM parseIpv6Piece with
          | error e => rfl
          | ok groups => simp [pure, Except.pure, Except.map, ok_bind]

/-- The slots between the two sides: `l` stands on the left, `filled` on the right. -/
def slots (l filled : List ℕ) : Slots :=
  l.map some ++ List.replicate (8 - l.length - filled.length) none ++ filled.map some

theorem slots_getD (l filled : List ℕ) : (slots l filled).map (·.getD 0) =
    l ++ List.replicate (8 - l.length - filled.length) 0 ++ filled := by
  simp [slots, Function.comp_def]

theorem writeRight_eq (parts : List Text) (filled : List ℕ) (hplace : filled.length + ridx = 7)
    (hroom : l.length + filled.length ≤ 8) :
    writeRight l.length ridx parts (slots l filled) =
      some ((fillRight l.length ridx parts filled).map (slots l)) := by
  induction parts generalizing filled ridx with
  | nil =>
    rw [writeRight, fillRight]
    rfl
  | cons part parts ih =>
    rw [writeRight.eq_def, fillRight.eq_def]
    dsimp only
    split_ifs with hlow
    · rfl
    · cases hg : parseIpv6Piece part with
      | error e => rfl
      | ok g =>
        have hset : setPiece (slots l filled) ridx g = some (slots l (g :: filled)) := by
          have hopen := setPiece_open (l.map some) (ridx - l.length) g (filled.map some)
          rwa [List.length_map, show l.length + (ridx - l.length) = ridx by omega,
            show ridx - l.length + 1 = 8 - l.length - filled.length by omega,
            show ridx - l.length = 8 - l.length - (g :: filled).length by
              rw [List.length_cons]; omega] at hopen
        dsimp only
        rw [hset, Option.bind_some, ok_bind]
        cases ridx with
        | zero => rfl
        | succ ridx =>
          exact ih (g :: filled) (by rw [List.length_cons]; omega) (by rw [List.length_cons]; omega)

/-- No index leaves the slots, and they hold what the parser returns. -/
theorem parseIpv6Slots_eq (s : Text) : parseIpv6Slots s = some (parseIpv6 s) := by
  rw [parseIpv6Slots, parseIpv6]
  cases splitOnce "::".toList s with
  | none =>
    dsimp only
    split_ifs with hlen
    · rfl
    · have heach := writeEach_eq (s.splitOn ':') [] (by simpa using hlen)
      rw [not_not.mp hlen, List.length_nil, List.map_nil, List.nil_append] at heach
      rw [heach]
      cases (s.splitOn ':').mapM parseIpv6Piece with
      | error e => rfl
      | ok groups => simp [Except.map, ok_bind, Function.comp_def, pure, Except.pure]
  | some r =>
    obtain ⟨before, after⟩ := r
    dsimp only
    split_ifs with hcontains hlong
    · rfl
    · have hleft := writeLeft_eq (colonParts before) [] (by simp)
      rw [List.length_nil, List.map_nil, List.nil_append, Nat.sub_zero, Nat.zero_add,
        if_pos hlong] at hleft
      rw [hleft]
      rfl
    · have hleft := writeLeft_eq (colonParts before) [] (by simp)
      rw [List.length_nil, List.map_nil, List.nil_append, Nat.sub_zero, Nat.zero_add,
        if_neg hlong] at hleft
      rw [hleft]
      cases hl : (colonParts before).mapM parseIpv6Piece with
      | error e => rfl
      | ok l =>
        have hlen := (mem_of_mapM hl).1
        have hright := @writeRight_eq 7 l (colonParts after).reverse [] (by simp)
          (by rw [List.length_nil]; omega)
        rw [slots, List.length_nil, Nat.sub_zero, List.map_nil, List.append_nil] at hright
        simp only [Except.map, Option.bind_some, List.nil_append, ok_bind]
        rw [hright]
        cases fillRight l.length 7 (colonParts after).reverse [] with
        | error e => rfl
        | ok m =>
          simp only [Except.map, Option.map_some, slots_getD]
          rfl

/-! ### The parser and the grammar -/

/-- A text is parsed as the grammar says: taken exactly when it denotes an address, to the
text of that address, which parses to itself and which no other address has. -/
structure Exact (s : Text) : Prop where
  accepts : (∃ t, parseIpv6 s = .ok t) ↔ ∃ groups, Denotes s groups
  result : ∀ groups, Denotes s groups → parseIpv6 s = .ok (serializeIpv6 groups)
  again : ∀ t, parseIpv6 s = .ok t → parseIpv6 t = .ok t
  same : ∀ groups s' groups', Denotes s groups → Denotes s' groups' →
    (parseIpv6 s = parseIpv6 s' ↔ groups = groups')
  inRange : ∃ r, parseIpv6Slots s = some r

/-- A text is parsed as the grammar says unless a double colon stands beside eight groups. -/
theorem ipv6_exact_iff (s : Text) : Exact s ↔ ¬ ∃ groups, Overfull s groups := by
  constructor
  · rintro h ⟨groups, hover⟩
    obtain ⟨groups', hdenotes⟩ := h.accepts.mp ⟨_, parseIpv6_of_overfull hover⟩
    exact hover.not_denotes hdenotes
  · intro hnot
    refine ⟨⟨?_, ?_⟩, fun groups => parseIpv6_of_denotes, fun t => parseIpv6_idem,
      fun groups s' groups' => parseIpv6_eq_iff, ⟨_, parseIpv6Slots_eq s⟩⟩
    · rintro ⟨t, ht⟩
      obtain ⟨groups, hgroups, -⟩ := denotes_or_overfull ht
      exact ⟨groups, hgroups.resolve_right fun hover => hnot ⟨groups, hover⟩⟩
    · rintro ⟨groups, hgroups⟩
      exact ⟨_, parseIpv6_of_denotes hgroups⟩

/-- Eight groups and a double colon behind them are taken for an address. -/
theorem ipv6_exact_trailing : ¬ Exact "1:2:3:4:5:6:7:8::".toList := by
  intro h
  obtain ⟨groups, hgroups⟩ := h.accepts.mp ⟨"1:2:3:4:5:6:7:8".toList, by decide⟩
  have hlong : colonParts "1:2:3:4:5:6:7:8".toList =
      ["1".toList, "2".toList, "3".toList, "4".toList, "5".toList, "6".toList, "7".toList,
        "8".toList] := by decide
  have hover : Groups "1:2:3:4:5:6:7:8".toList [1, 2, 3, 4, 5, 6, 7, 8] := by
    rw [groups_iff, hlong]
    simp only [List.forall₂_cons, List.forall₂_nil_left_iff, ← parseIpv6Piece_iff]
    decide
  exact (Overfull.beside hover groups_nil rfl).not_denotes hgroups

end Conclave.Urls
