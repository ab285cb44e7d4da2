import Conclave.Ipc.Sites

/-! Addresses are kept: the text of a parsed address parses to itself. -/

namespace Conclave.Urls

open Lib Ipc

variable {b d n : ℕ} {c : Char} {s t : Text}

/-! ### Numerals -/

theorem digitValue_digitChar (h : d < 16) :
    isHexDigit (Nat.digitChar d) ∧ digitValue (Nat.digitChar d) = d := by
  have hall : ∀ d < 16, isHexDigit (Nat.digitChar d) ∧ digitValue (Nat.digitChar d) = d := by
    decide
  exact hall d h

/-- The digits of a number in a base up to 16. -/
structure IsNumeral (b : ℕ) (s : Text) (n : ℕ) : Prop where
  ne_nil : s ≠ []
  digits : ∀ c ∈ s, isHexDigit c ∧ digitValue c < b
  value : s.foldl (fun n c => b * n + digitValue c) 0 = n

theorem isNumeral_toDigits (hb : 1 < b) (hle : b ≤ 16) (n : ℕ) :
    IsNumeral b (Nat.toDigits b n) n := by
  induction n using Nat.strong_induction_on with
  | h n ih =>
    rw [Nat.toDigits_eq_if hb]
    split_ifs with hlt
    · obtain ⟨hhex, hval⟩ := digitValue_digitChar (d := n) (by omega)
      refine ⟨List.cons_ne_nil _ _, fun c hc => ?_, ?_⟩
      · rw [List.mem_singleton.mp hc, hval]
        exact ⟨hhex, hlt⟩
      · rw [List.foldl_cons, List.foldl_nil, hval]
        omega
    · have hmod := Nat.mod_lt n (show b > 0 by omega)
      obtain ⟨hhex, hval⟩ := digitValue_digitChar (d := n % b) (by omega)
      have hpre := ih (n / b) (Nat.div_lt_self (by omega) hb)
      refine ⟨List.append_ne_nil_of_right_ne_nil _ (List.cons_ne_nil _ _), fun c hc => ?_, ?_⟩
      · rcases List.mem_append.mp hc with hc | hc
        · exact hpre.digits c hc
        · rw [List.mem_singleton.mp hc, hval]
          exact ⟨hhex, hmod⟩
      · rw [List.foldl_append, hpre.value, List.foldl_cons, List.foldl_nil, hval]
        exact Nat.div_add_mod n b

theorem IsNumeral.fromRadix (h : IsNumeral b s n) (hn : n < 2 ^ 32) : fromRadix b s = .ok n := by
  rw [Ipc.fromRadix, h.value, if_pos]
  refine ⟨h.ne_nil, List.all_eq_true.mpr fun c hc => ?_, hn⟩
  rw [Bool.and_eq_true, decide_eq_true_eq]
  exact h.digits c hc

theorem hex_isNumeral (n : ℕ) : IsNumeral 16 (hex n) n := isNumeral_toDigits (by omega) le_rfl n

theorem decimal_eq (n : ℕ) : decimal n = Nat.toDigits 10 n := Nat.toList_repr

theorem decimal_isNumeral (n : ℕ) : IsNumeral 10 (decimal n) n := by
  rw [decimal_eq]
  exact isNumeral_toDigits (by omega) (by omega) n

theorem isDigit_of_mem_decimal (h : c ∈ decimal n) : c.isDigit := by
  rw [decimal_eq] at h
  exact Nat.isDigit_of_mem_toDigits (by omega) (by omega) h

theorem not_mem_hex (h : isHexDigit c = false) (n : ℕ) : c ∉ hex n := by
  intro hc
  rw [((hex_isNumeral n).digits c hc).1] at h
  cases h

theorem not_mem_decimal (h : c.isDigit = false) (n : ℕ) : c ∉ decimal n := by
  intro hc
  rw [isDigit_of_mem_decimal hc] at h
  cases h

/-- A numeral does not start with zero unless it is zero. -/
theorem head_decimal (h : (decimal n).head? = some '0') : n = 0 := by
  rw [decimal_eq] at h
  induction n using Nat.strong_induction_on with
  | h n ih =>
    rw [Nat.toDigits_eq_if (by omega)] at h
    split_ifs at h with hlt
    · have hzero : ∀ n < 10, Nat.digitChar n = '0' → n = 0 := by decide
      exact hzero n hlt (Option.some.inj h)
    · rw [List.head?_append_of_ne_nil _ Nat.toDigits_ne_nil] at h
      have hdiv := ih (n / 10) (by omega) h
      omega

/-! ### IPv4 -/

theorem stripHex_decimal (n : ℕ) : stripHex (decimal n) = none := by
  have hnot : ∀ x : Char, x.isDigit = false → Text.stripPrefix ['0', x] (decimal n) = none := by
    intro x hx
    rw [Text.stripPrefix, if_neg]
    intro hpre
    exact not_mem_decimal hx n (hpre.subset (List.mem_cons_of_mem _ (List.mem_cons_self ..)))
  rw [stripHex, show "0x".toList = ['0', 'x'] from rfl, show "0X".toList = ['0', 'X'] from rfl,
    hnot 'x' rfl, hnot 'X' rfl]
  rfl

theorem looksNumeric_decimal (n : ℕ) : looksNumeric (decimal n) := by
  rw [looksNumeric, stripHex_decimal]
  dsimp only
  rw [Bool.and_eq_true, bne_iff_ne]
  exact ⟨(decimal_isNumeral n).ne_nil, List.all_eq_true.mpr fun c hc => isDigit_of_mem_decimal hc⟩

theorem parsePart_decimal (h : n < 2 ^ 32) : parsePart (decimal n) = .ok n := by
  rw [parsePart, stripHex_decimal]
  dsimp only
  rw [if_neg]
  · exact (decimal_isNumeral n).fromRadix h
  · rintro ⟨hlen, hhead⟩
    obtain rfl := head_decimal hhead
    exact absurd hlen (by decide)

theorem splitOn_dotted (addr : ℕ) : (dotted addr).splitOn '.' =
    [decimal (addr / 2 ^ 24 % 256), decimal (addr / 2 ^ 16 % 256), decimal (addr / 2 ^ 8 % 256),
      decimal (addr % 256)] := by
  have hjoin : dotted addr = ['.'].intercalate [decimal (addr / 2 ^ 24 % 256),
      decimal (addr / 2 ^ 16 % 256), decimal (addr / 2 ^ 8 % 256), decimal (addr % 256)] := by
    simp [dotted, List.intercalate, List.intersperse]
  rw [hjoin]
  apply List.splitOn_intercalate
  · intro part hpart
    simp only [List.mem_cons, List.not_mem_nil, or_false] at hpart
    rcases hpart with rfl | rfl | rfl | rfl <;> exact not_mem_decimal rfl _
  · exact List.cons_ne_nil _ _

theorem mem_dotted {addr : ℕ} (h : c ∈ dotted addr) : c.isDigit ∨ c = '.' := by
  simp only [dotted, List.mem_append, List.mem_cons] at h
  rcases h with ((h | rfl | h) | rfl | h) | rfl | h
  all_goals first
    | exact .inr rfl
    | exact .inl (isDigit_of_mem_decimal h)

theorem octets {w x y z : ℕ} (hw : w < 256) (hx : x < 256) (hy : y < 256) (hz : z < 256) :
    let addr := w * 2 ^ 24 + x * 2 ^ 16 + y * 2 ^ 8 + z
    addr / 2 ^ 24 % 256 = w ∧ addr / 2 ^ 16 % 256 = x ∧ addr / 2 ^ 8 % 256 = y ∧
      addr % 256 = z := by
  dsimp only
  omega

theorem dotted_octets (addr : ℕ) : dotted (addr / 2 ^ 24 % 256 * 2 ^ 24 +
    addr / 2 ^ 16 % 256 * 2 ^ 16 + addr / 2 ^ 8 % 256 * 2 ^ 8 + addr % 256) = dotted addr := by
  have hlt : ∀ n, n % 256 < 256 := fun n => Nat.mod_lt n (by omega)
  obtain ⟨hw, hx, hy, hz⟩ :=
    octets (hlt (addr / 2 ^ 24)) (hlt (addr / 2 ^ 16)) (hlt (addr / 2 ^ 8)) (hlt addr)
  rw [dotted, hw, hx, hy, hz, dotted]

/-- The text of an address is the text of what it parses to. -/
theorem tryParseIpv4_dotted (addr : ℕ) : tryParseIpv4 (dotted addr) = .ok (some (dotted addr)) := by
  have hchars : (dotted addr).all fun c => c.isAlphanum || c == '.' := by
    rw [List.all_eq_true]
    intro c hc
    rcases mem_dotted hc with hdigit | rfl
    · rw [Char.isAlphanum, hdigit, Bool.or_true]
      rfl
    · rfl
  have hnumeric : ((dotted addr).splitOn '.').all looksNumeric := by
    rw [splitOn_dotted]
    simp only [List.all_cons, List.all_nil, looksNumeric_decimal, Bool.and_true]
  have hparts : ((dotted addr).splitOn '.').mapM parsePart = .ok
      [addr / 2 ^ 24 % 256, addr / 2 ^ 16 % 256, addr / 2 ^ 8 % 256, addr % 256] := by
    rw [splitOn_dotted]
    simp only [List.mapM_cons, List.mapM_nil]
    rw [parsePart_decimal (by omega), parsePart_decimal (by omega), parsePart_decimal (by omega),
      parsePart_decimal (by omega)]
    rfl
  rw [tryParseIpv4, hchars, hnumeric, hparts, splitOn_dotted]
  simp only [Bool.not_true, Bool.false_eq_true, if_false, List.length_cons, List.length_nil]
  rw [if_neg (by omega)]
  simp only [bind, Except.bind, combine]
  rw [if_neg (by omega)]
  simp only [pure, Except.pure, Option.map_some, dotted_octets]

/-! ### The text of groups -/

def colons (pieces : List Text) : Text := [':'].intercalate pieces

theorem colons_cons (piece : Text) (pieces : List Text) :
    colons (piece :: pieces) = piece ++ pieces.flatMap (':' :: ·) := by
  rw [colons]
  induction pieces generalizing piece with
  | nil => simp
  | cons next pieces ih =>
    rw [List.intercalate_cons_cons, ih next]
    simp

/-- A group behind what is there already. -/
def addGroup (out : Text) (g : ℕ) : Text :=
  if out ≠ [] ∧ ¬ "::".toList <:+ out then out ++ ':' :: hex g else out ++ hex g

theorem getLast_of_suffix (h : "::".toList <:+ s) : s.getLast? = some ':' := by
  obtain ⟨t, rfl⟩ := h
  rw [List.getLast?_append_of_ne_nil _ (show "::".toList ≠ [] from List.cons_ne_nil _ _)]
  rfl

theorem getLast_hex (out : Text) (n : ℕ) : ∃ c ∈ hex n, (out ++ hex n).getLast? = some c := by
  have hne := (hex_isNumeral n).ne_nil
  rw [List.getLast?_append_of_ne_nil _ hne, List.getLast?_eq_some_getLast hne]
  exact ⟨_, List.getLast_mem hne, rfl⟩

theorem foldl_addGroup_inside (groups : List ℕ) {out : Text} (hne : out ≠ [])
    (hlast : out.getLast? ≠ some ':') :
    groups.foldl addGroup out = out ++ (groups.map hex).flatMap (':' :: ·) := by
  induction groups generalizing out with
  | nil => simp
  | cons g groups ih =>
    have hadd : addGroup out g = out ++ ':' :: hex g :=
      if_pos ⟨hne, fun hsuffix => hlast (getLast_of_suffix hsuffix)⟩
    rw [List.foldl_cons, hadd, ih]
    · simp
    · simp
    · obtain ⟨c, hc, hget⟩ := getLast_hex (out ++ [':']) g
      rw [List.append_assoc, List.singleton_append] at hget
      rw [hget]
      intro heq
      obtain rfl := Option.some.inj heq
      exact not_mem_hex rfl g hc

/-- At the start and behind a double colon, the first group comes without a colon. -/
theorem foldl_addGroup (groups : List ℕ) {out : Text} (h : out = [] ∨ "::".toList <:+ out) :
    groups.foldl addGroup out = out ++ colons (groups.map hex) := by
  cases groups with
  | nil => simp [colons]
  | cons g groups =>
    have hadd : addGroup out g = out ++ hex g := by
      rw [addGroup, if_neg]
      rintro ⟨hne, hnot⟩
      exact h.elim hne hnot
    have hne : out ++ hex g ≠ [] :=
      List.append_ne_nil_of_right_ne_nil _ (hex_isNumeral g).ne_nil
    have hlast : (out ++ hex g).getLast? ≠ some ':' := by
      obtain ⟨c, hc, hget⟩ := getLast_hex out g
      rw [hget]
      intro heq
      obtain rfl := Option.some.inj heq
      exact not_mem_hex rfl g hc
    rw [List.foldl_cons, hadd, foldl_addGroup_inside groups hne hlast, List.map_cons, colons_cons,
      List.append_assoc]

/-! ### The run of zeros that is left out -/

/-- The groups seen have such a run, and end in the current one. -/
structure ZeroRun.Of (r : ZeroRun) (seen : List ℕ) : Prop where
  best : ∃ l m, seen = l ++ List.replicate r.bestLen 0 ++ m ∧ (0 < r.bestLen → l.length = r.bestStart)
  cur : ∃ l, seen = l ++ List.replicate r.curLen 0 ∧ (0 < r.curLen → l.length = r.curStart)

theorem ZeroRun.Of.next {r : ZeroRun} {seen : List ℕ} (h : ZeroRun.Of r seen) (g : ℕ) :
    ZeroRun.Of (r.next g seen.length) (seen ++ [g]) := by
  obtain ⟨⟨l, m, hbest, hstart⟩, ⟨k, hcur, hcurStart⟩⟩ := h
  have hkeep : ∃ l m, seen ++ [g] = l ++ List.replicate r.bestLen 0 ++ m ∧
      (0 < r.bestLen → l.length = r.bestStart) :=
    ⟨l, m ++ [g], by rw [hbest, List.append_assoc], hstart⟩
  rw [ZeroRun.next]
  by_cases hg : g = 0
  · subst hg
    have hgrow : seen ++ [0] = k ++ List.replicate (r.curLen + 1) 0 := by
      rw [List.replicate_succ', ← List.append_assoc, ← hcur]
    have hlen : k.length = if r.curLen = 0 then seen.length else r.curStart := by
      split_ifs with hzero
      · rw [hcur, hzero]
        simp
      · exact hcurStart (by omega)
    rw [if_pos rfl]
    dsimp only
    generalize (if r.curLen = 0 then seen.length else r.curStart) = start at hlen ⊢
    split_ifs
    · exact ⟨⟨k, [], by rw [hgrow, List.append_nil], fun _ => hlen⟩, ⟨k, hgrow, fun _ => hlen⟩⟩
    · exact ⟨hkeep, ⟨k, hgrow, fun _ => hlen⟩⟩
  · rw [if_neg hg]
    exact ⟨hkeep, ⟨seen ++ [g], by simp, fun h => absurd h (lt_irrefl 0)⟩⟩

theorem zeroRun (groups : List ℕ) : ZeroRun.Of
    (groups.zipIdx.foldl (fun r g => r.next g.1 g.2) ⟨0, 0, 0, 0⟩) groups := by
  induction groups using List.reverseRecOn with
  | nil => exact ⟨⟨[], [], rfl, nofun⟩, ⟨[], rfl, nofun⟩⟩
  | append_singleton seen g ih =>
    rw [List.zipIdx_append, List.foldl_append]
    simpa using ih.next g

/-! ### The text of an address -/

theorem foldl_outside (zeros : ZeroRun) (groups : List ℕ) {i : ℕ} (out : Text)
    (h : 2 ≤ zeros.bestLen → i + groups.length ≤ zeros.bestStart ∨
      zeros.bestStart + zeros.bestLen ≤ i) :
    (groups.zipIdx i).foldl (fun out g => serializeGroup zeros out g.1 g.2) out =
      groups.foldl addGroup out := by
  induction groups generalizing i out with
  | nil => rfl
  | cons g groups ih =>
    have hgroup : serializeGroup zeros out g i = addGroup out g := by
      rw [serializeGroup, if_neg, if_neg]
      · rfl
      · rintro ⟨hlen, hlo, hhi⟩
        have := h hlen
        rw [List.length_cons] at this
        omega
      · rintro ⟨hlen, heq⟩
        have := h hlen
        rw [List.length_cons] at this
        omega
    rw [List.zipIdx_cons, List.foldl_cons, List.foldl_cons, hgroup]
    apply ih
    intro hlen
    have := h hlen
    rw [List.length_cons] at this
    omega

theorem foldl_inside (zeros : ZeroRun) (groups : List ℕ) {i : ℕ} (out : Text)
    (hlen : 2 ≤ zeros.bestLen) (hlo : zeros.bestStart < i)
    (hhi : i + groups.length ≤ zeros.bestStart + zeros.bestLen) :
    (groups.zipIdx i).foldl (fun out g => serializeGroup zeros out g.1 g.2) out = out := by
  induction groups generalizing i out with
  | nil => rfl
  | cons g groups ih =>
    rw [List.length_cons] at hhi
    have hgroup : serializeGroup zeros out g i = out := by
      rw [serializeGroup, if_neg (by omega), if_pos ⟨hlen, hlo, by omega⟩]
    rw [List.zipIdx_cons, List.foldl_cons, hgroup]
    exact ih out (by omega) (by omega)

/-- Either all groups stand in the text, or a run of at least two zeros is left out. -/
theorem serializeIpv6_cases (groups : List ℕ) : serializeIpv6 groups = colons (groups.map hex) ∨
    ∃ l n m, groups = l ++ List.replicate n 0 ++ m ∧ 2 ≤ n ∧
      serializeIpv6 groups = colons (l.map hex) ++ "::".toList ++ colons (m.map hex) := by
  obtain ⟨⟨l, m, hgroups, hstart⟩, -⟩ := zeroRun groups
  rw [serializeIpv6]
  generalize (groups.zipIdx.foldl (fun r g => r.next g.1 g.2) ⟨0, 0, 0, 0⟩ : ZeroRun) = zeros
    at hgroups hstart ⊢
  by_cases hlen : 2 ≤ zeros.bestLen
  · right
    have hl := hstart (by omega)
    refine ⟨l, zeros.bestLen, m, hgroups, hlen, ?_⟩
    obtain ⟨n, hn⟩ := Nat.exists_eq_add_of_le' (show 1 ≤ zeros.bestLen by omega)
    have hreplicate : List.replicate zeros.bestLen 0 = 0 :: List.replicate n 0 := by
      rw [hn]
      rfl
    have hopen : ∀ out, serializeGroup zeros out 0 l.length = out ++ "::".toList :=
      fun out => if_pos ⟨hlen, hl⟩
    have hrun := foldl_inside zeros (List.replicate n 0) (i := l.length + 1)
      (colons (l.map hex) ++ "::".toList) hlen (by omega) (by rw [List.length_replicate]; omega)
    have hrest := foldl_outside zeros m (i := (l ++ 0 :: List.replicate n 0).length)
      (colons (l.map hex) ++ "::".toList) fun _ => .inr (by
        rw [List.length_append, List.length_cons, List.length_replicate]
        omega)
    rw [hgroups, List.zipIdx_append, List.zipIdx_append, List.foldl_append, List.foldl_append,
      foldl_outside zeros l [] (fun _ => .inl (by omega)), foldl_addGroup l (.inl rfl),
      List.nil_append, hreplicate, List.zipIdx_cons, List.foldl_cons, Nat.zero_add, hopen, hrun,
      Nat.zero_add, hrest, foldl_addGroup m (.inr (List.suffix_append _ _))]
  · left
    rw [foldl_outside zeros groups [] (fun h => absurd h hlen), foldl_addGroup groups (.inl rfl)]
    rfl

theorem mem_colons_hex {groups : List ℕ} (h : c ∈ colons (groups.map hex)) :
    isHexDigit c ∨ c = ':' := by
  cases mem_or_of_mem_intercalate h with
  | inl hcolon => exact .inr (List.mem_singleton.mp hcolon)
  | inr hpiece =>
    obtain ⟨piece, hpiece, hc⟩ := hpiece
    obtain ⟨g, -, rfl⟩ := List.mem_map.mp hpiece
    exact .inl ((hex_isNumeral g).digits c hc).1

theorem mem_serializeIpv6 {groups : List ℕ} (h : c ∈ serializeIpv6 groups) :
    isHexDigit c ∨ c = ':' := by
  rcases serializeIpv6_cases groups with htext | ⟨l, n, m, -, -, htext⟩
  · rw [htext] at h
    exact mem_colons_hex h
  · rw [htext] at h
    rcases List.mem_append.mp h with h | h
    · rcases List.mem_append.mp h with h | h
      · exact mem_colons_hex h
      · rw [show "::".toList = [':', ':'] from rfl] at h
        simp only [List.mem_cons, List.not_mem_nil, or_false, or_self] at h
        exact .inr h
    · exact mem_colons_hex h

/-! ### IPv6 -/

/-- Pieces that can be told apart: none is empty or has a colon. -/
def Pieces (pieces : List Text) : Prop := ∀ piece ∈ pieces, piece ≠ [] ∧ ':' ∉ piece

theorem pieces_hex (groups : List ℕ) : Pieces (groups.map hex) := by
  intro piece hpiece
  obtain ⟨g, -, rfl⟩ := List.mem_map.mp hpiece
  exact ⟨(hex_isNumeral g).ne_nil, not_mem_hex rfl g⟩

theorem splitOnce_append (h : ':' ∉ s) (t : Text) : splitOnce "::".toList (s ++ t) =
    (splitOnce "::".toList t).map fun r => (s ++ r.1, r.2) := by
  induction s with
  | nil => simp
  | cons c s ih =>
    rw [List.mem_cons, not_or] at h
    rw [List.cons_append, splitOnce, if_neg, ih h.2, Option.map_map]
    · rfl
    · rw [show "::".toList = [':', ':'] from rfl, List.cons_prefix_cons]
      exact fun hprefix => h.1 hprefix.1

theorem splitOnce_colon (h : t.head? ≠ some ':') : splitOnce "::".toList (':' :: t) =
    (splitOnce "::".toList t).map fun r => (':' :: r.1, r.2) := by
  rw [splitOnce, if_neg]
  rw [show "::".toList = [':', ':'] from rfl, List.cons_prefix_cons]
  rintro ⟨-, hprefix⟩
  obtain ⟨u, rfl⟩ := hprefix
  exact h rfl

/-- No double colon stands within pieces. -/
theorem splitOnce_colons {pieces : List Text} (h : Pieces pieces) (t : Text) :
    splitOnce "::".toList (colons pieces ++ t) =
      (splitOnce "::".toList t).map fun r => (colons pieces ++ r.1, r.2) := by
  cases pieces with
  | nil => simp [colons]
  | cons piece pieces =>
    obtain ⟨hne, hpiece⟩ := h piece (List.mem_cons_self ..)
    have hrest : ∀ pieces, Pieces pieces →
        splitOnce "::".toList (pieces.flatMap (':' :: ·) ++ t) =
          (splitOnce "::".toList t).map fun r => (pieces.flatMap (':' :: ·) ++ r.1, r.2) := by
      intro pieces hpieces
      induction pieces with
      | nil => simp
      | cons piece pieces ih =>
        obtain ⟨hne, hpiece⟩ := hpieces piece (List.mem_cons_self ..)
        obtain ⟨c, s, rfl⟩ := List.exists_cons_of_ne_nil hne
        have hc : c ≠ ':' := fun heq => hpiece (heq ▸ List.mem_cons_self ..)
        rw [List.flatMap_cons, List.append_assoc, List.cons_append, splitOnce_colon (by simpa using hc),
          splitOnce_append hpiece, ih fun x hx => hpieces x (List.mem_cons_of_mem _ hx),
          Option.map_map, Option.map_map]
        congr 1
        funext r
        simp
    rw [colons_cons, List.append_assoc, splitOnce_append hpiece,
      hrest pieces fun x hx => h x (List.mem_cons_of_mem _ hx), Option.map_map]
    congr 1
    funext r
    simp

theorem splitOn_colons {pieces : List Text} (h : Pieces pieces) (hne : pieces ≠ []) :
    (colons pieces).splitOn ':' = pieces :=
  List.splitOn_intercalate ':' (fun x hx => (h x hx).2) hne

theorem colonParts_colons {pieces : List Text} (h : Pieces pieces) :
    colonParts (colons pieces) = pieces := by
  cases pieces with
  | nil => rfl
  | cons piece pieces =>
    rw [colonParts, if_neg, splitOn_colons h (List.cons_ne_nil _ _)]
    rw [colons_cons]
    exact List.append_ne_nil_of_left_ne_nil (h piece (List.mem_cons_self ..)).1 _

theorem parseIpv6Piece_hex (h : n < 2 ^ 16) : parseIpv6Piece (hex n) = .ok n := by
  have hlen : (hex n).length ≤ 4 := (Nat.length_toDigits_le_iff (by omega) (by omega)).mpr h
  have hall : (hex n).all isHexDigit :=
    List.all_eq_true.mpr fun c hc => ((hex_isNumeral n).digits c hc).1
  rw [parseIpv6Piece, if_neg]
  · exact (hex_isNumeral n).fromRadix (by omega)
  · rintro (hnil | hlong | hnot)
    · exact (hex_isNumeral n).ne_nil hnil
    · omega
    · exact hnot hall

theorem mapM_parseIpv6Piece {groups : List ℕ} (h : ∀ g ∈ groups, g < 2 ^ 16) :
    (groups.map hex).mapM parseIpv6Piece = .ok groups := by
  induction groups with
  | nil => rfl
  | cons g groups ih =>
    rw [List.map_cons, List.mapM_cons, parseIpv6Piece_hex (h g (List.mem_cons_self ..)),
      ih fun x hx => h x (List.mem_cons_of_mem _ hx)]
    rfl

theorem fillRight_hex {groups : List ℕ} (h : ∀ g ∈ groups, g < 2 ^ 16) {idx ridx : ℕ}
    (hroom : idx + groups.length ≤ ridx + 1) (filled : List ℕ) :
    fillRight idx ridx (groups.map hex).reverse filled = .ok (groups ++ filled) := by
  induction groups using List.reverseRecOn generalizing ridx filled with
  | nil => rw [List.map_nil, List.reverse_nil, fillRight, List.nil_append]
  | append_singleton groups g ih =>
    rw [List.length_append, List.length_singleton] at hroom
    rw [List.map_append, List.reverse_append, List.map_singleton, List.reverse_singleton,
      List.singleton_append, fillRight.eq_def]
    dsimp only
    rw [if_neg (by omega), parseIpv6Piece_hex (h g (by simp))]
    cases ridx with
    | zero =>
      obtain rfl : groups = [] := List.eq_nil_of_length_eq_zero (by omega)
      rfl
    | succ ridx =>
      have hrest := @ih (fun x hx => h x (List.mem_append_left _ hx)) ridx (by omega)
        (g :: filled)
      rw [List.append_assoc, List.singleton_append, ← hrest]
      rfl

/-- The text of eight groups parses to itself. -/
theorem parseIpv6_serialize {groups : List ℕ} (hlen : groups.length = 8)
    (h : ∀ g ∈ groups, g < 2 ^ 16) :
    parseIpv6 (serializeIpv6 groups) = .ok (serializeIpv6 groups) := by
  rcases serializeIpv6_cases groups with htext | ⟨l, n, m, hgroups, hn, htext⟩
  · have hsplit : splitOnce "::".toList (serializeIpv6 groups) = none := by
      have hcolons := splitOnce_colons (pieces_hex groups) []
      rwa [List.append_nil, ← htext] at hcolons
    have hparts : (serializeIpv6 groups).splitOn ':' = groups.map hex := by
      rw [htext]
      refine splitOn_colons (pieces_hex groups) ?_
      intro hnil
      rw [List.map_eq_nil_iff.mp hnil] at hlen
      cases hlen
    rw [parseIpv6, hsplit]
    dsimp only
    rw [hparts, List.length_map, if_neg (by omega), mapM_parseIpv6Piece h]
    rfl
  · have hl : ∀ g ∈ l, g < 2 ^ 16 := fun g hg => h g (by rw [hgroups]; simp [hg])
    have hm : ∀ g ∈ m, g < 2 ^ 16 := fun g hg => h g (by rw [hgroups]; simp [hg])
    have hlens : l.length + n + m.length = 8 := by
      rw [← hlen, hgroups, List.length_append, List.length_append, List.length_replicate]
    have hsplit : splitOnce "::".toList (serializeIpv6 groups) =
        some (colons (l.map hex), colons (m.map hex)) := by
      have hopen : splitOnce "::".toList ("::".toList ++ colons (m.map hex)) =
          some ([], colons (m.map hex)) := by
        rw [show "::".toList ++ colons (m.map hex) = ':' :: ':' :: colons (m.map hex) from rfl,
          splitOnce, if_pos]
        · rfl
        · exact List.prefix_append _ _
      rw [htext, List.append_assoc, splitOnce_colons (pieces_hex l), hopen, Option.map_some,
        List.append_nil]
    have hnone : contains "::".toList (colons (m.map hex)) = false := by
      have hcolons := splitOnce_colons (pieces_hex m) []
      rw [List.append_nil] at hcolons
      rw [contains, hcolons]
      rfl
    rw [parseIpv6, hsplit]
    dsimp only
    rw [hnone, colonParts_colons (pieces_hex l), colonParts_colons (pieces_hex m),
      if_neg Bool.noConfusion, List.length_map, if_neg (by omega), mapM_parseIpv6Piece hl]
    have hright := @fillRight_hex _ hm l.length 7 (by omega) []
    simp only [bind, Except.bind, pure, Except.pure]
    rw [hright, List.append_nil]
    dsimp only
    rw [show 8 - l.length - m.length = n by omega, ← hgroups]

/-! ### What the parsers return -/

theorem foldl_lt (s : Text) (hs : ∀ c ∈ s, digitValue c < b) (n : ℕ) :
    s.foldl (fun n c => b * n + digitValue c) n < b ^ s.length * (n + 1) := by
  induction s generalizing n with
  | nil => simp
  | cons c s ih =>
    have hc := hs c (List.mem_cons_self ..)
    calc (c :: s).foldl (fun n c => b * n + digitValue c) n
        < b ^ s.length * (b * n + digitValue c + 1) :=
          ih (fun x hx => hs x (List.mem_cons_of_mem _ hx)) _
      _ ≤ b ^ s.length * (b * (n + 1)) := by
          apply Nat.mul_le_mul_left
          rw [Nat.mul_add]
          omega
      _ = b ^ (c :: s).length * (n + 1) := by
          rw [List.length_cons, pow_succ, Nat.mul_assoc]

theorem parseIpv6Piece_lt (h : parseIpv6Piece s = .ok n) : n < 2 ^ 16 := by
  rw [parseIpv6Piece] at h
  split_ifs at h with hshape
  rw [not_or, not_or, not_not] at hshape
  rw [fromRadix] at h
  split_ifs at h with hdigits
  obtain rfl := Except.ok.inj h
  have hvalues : ∀ c ∈ s, digitValue c < 16 := by
    intro c hc
    have hboth := List.all_eq_true.mp hdigits.2.1 c hc
    rw [Bool.and_eq_true, decide_eq_true_eq] at hboth
    exact hboth.2
  calc s.foldl (fun n c => 16 * n + digitValue c) 0 < 16 ^ s.length * (0 + 1) :=
        foldl_lt s hvalues 0
    _ ≤ 16 ^ 4 := by
        rw [Nat.mul_one]
        exact Nat.pow_le_pow_right (by omega) (by omega)

theorem mem_of_mapM {groups : List ℕ} {pieces : List Text}
    (h : pieces.mapM parseIpv6Piece = .ok groups) :
    groups.length = pieces.length ∧ ∀ g ∈ groups, g < 2 ^ 16 := by
  induction pieces generalizing groups with
  | nil =>
    cases h
    exact ⟨rfl, nofun⟩
  | cons piece pieces ih =>
    rw [List.mapM_cons] at h
    cases hpiece : parseIpv6Piece piece with
    | error e =>
      rw [hpiece] at h
      cases h
    | ok g =>
      cases hrest : pieces.mapM parseIpv6Piece with
      | error e =>
        rw [hpiece, hrest] at h
        cases h
      | ok rest =>
        rw [hpiece, hrest] at h
        cases h
        obtain ⟨hlen, hlt⟩ := ih hrest
        refine ⟨by rw [List.length_cons, List.length_cons, hlen], fun x hx => ?_⟩
        rcases List.mem_cons.mp hx with rfl | hx
        · exact parseIpv6Piece_lt hpiece
        · exact hlt x hx

theorem mem_of_fillRight {idx ridx : ℕ} {parts : List Text} {filled right : List ℕ}
    (h : fillRight idx ridx parts filled = .ok right) (hplace : filled.length + ridx = 7)
    (hroom : idx + filled.length ≤ 8) (hfilled : ∀ g ∈ filled, g < 2 ^ 16) :
    idx + right.length ≤ 8 ∧ ∀ g ∈ right, g < 2 ^ 16 := by
  induction parts generalizing ridx filled with
  | nil =>
    rw [fillRight] at h
    cases h
    exact ⟨hroom, hfilled⟩
  | cons part parts ih =>
    rw [fillRight.eq_def] at h
    dsimp only at h
    split_ifs at h with hlow
    cases hpiece : parseIpv6Piece part with
    | error e =>
      rw [hpiece] at h
      cases h
    | ok g =>
      have hadd : ∀ x ∈ g :: filled, x < 2 ^ 16 := by
        intro x hx
        rcases List.mem_cons.mp hx with rfl | hx
        · exact parseIpv6Piece_lt hpiece
        · exact hfilled x hx
      rw [hpiece] at h
      cases ridx with
      | zero =>
        cases h
        refine ⟨?_, hadd⟩
        rw [List.length_cons]
        omega
      | succ ridx =>
        apply ih h
        · rw [List.length_cons]
          omega
        · rw [List.length_cons]
          omega
        · exact hadd

theorem exists_groups (h : parseIpv6 s = .ok t) :
    ∃ groups, t = serializeIpv6 groups ∧ groups.length = 8 ∧ ∀ g ∈ groups, g < 2 ^ 16 := by
  rw [parseIpv6] at h
  cases hsplit : splitOnce "::".toList s with
  | none =>
    rw [hsplit] at h
    dsimp only at h
    split_ifs at h with hlen
    rw [not_not] at hlen
    cases hparts : (s.splitOn ':').mapM parseIpv6Piece with
    | error e =>
      rw [hparts] at h
      cases h
    | ok groups =>
      rw [hparts] at h
      cases h
      obtain ⟨hsame, hlt⟩ := mem_of_mapM hparts
      exact ⟨groups, rfl, hsame.trans hlen, hlt⟩
  | some r =>
    obtain ⟨before, after⟩ := r
    rw [hsplit] at h
    dsimp only at h
    split_ifs at h with hcontains hlong
    · cases h
    cases hleft : (colonParts before).mapM parseIpv6Piece with
    | error e =>
      rw [hleft] at h
      cases h
    | ok left =>
      cases hright : fillRight left.length 7 (colonParts after).reverse [] with
      | error e =>
        rw [hleft] at h
        simp only [bind, Except.bind, hright] at h
        cases h
      | ok right =>
        rw [hleft] at h
        simp only [bind, Except.bind, hright] at h
        cases h
        obtain ⟨hlen, hleftLt⟩ := mem_of_mapM hleft
        obtain ⟨hroom, hrightLt⟩ := mem_of_fillRight hright rfl
          (by rw [List.length_nil]; omega) nofun
        refine ⟨_, rfl, ?_, ?_⟩
        · rw [List.length_append, List.length_append, List.length_replicate]
          omega
        · intro g hg
          rcases List.mem_append.mp hg with hg | hg
          · rcases List.mem_append.mp hg with hg | hg
            · exact hleftLt g hg
            · rw [List.eq_of_mem_replicate hg]
              omega
          · exact hrightLt g hg

/-- What the parser returns parses to itself. -/
theorem parseIpv6_idem (h : parseIpv6 s = .ok t) : parseIpv6 t = .ok t := by
  obtain ⟨groups, rfl, hlen, hlt⟩ := exists_groups h
  exact parseIpv6_serialize hlen hlt

end Conclave.Urls
