import Conclave.Urls.Dots

/-! What the removal of dot segments keeps of a path that starts with a slash, and when it
loses a slash. -/

namespace Conclave.Urls

open Lib Ipc

variable {seg : Text} {segs out : List Text}

/-! ### Segments without dots -/

def isDots (seg : Text) : Bool := isDotSegment seg || isDotdotSegment seg

/-- What is kept below the root: two dots take the segment before them away. -/
def kept : List Text → List Text → List Text
  | out, [] => out
  | out, seg :: segs =>
    if isDotSegment seg then kept out segs
    else if isDotdotSegment seg then kept out.dropLast segs
    else kept (out ++ [seg]) segs

/-- Two dots stand where nothing is left to take away. -/
def climbs : List Text → List Text → Bool
  | _, [] => false
  | out, seg :: segs =>
    if isDotSegment seg then climbs out segs
    else if isDotdotSegment seg then out.isEmpty || climbs out.dropLast segs
    else climbs (out ++ [seg]) segs

/-- The last segment is a dot segment. -/
def endsInDots (segs : List Text) : Bool := segs.getLast?.any isDots

/-- The segments below the root without dot segments: dots at the end leave the slash before
them. -/
def withoutDots (segs : List Text) : List Text :=
  kept [] segs ++ if endsInDots segs then [[]] else []

/-- The segments below the root whose slashes are not all put back: the root is lost to an empty
segment once two dots went above it, and a slash at the end to an empty segment before it. -/
def Lost (segs : List Text) : Prop :=
  (climbs [] segs ∧ ∃ x y, kept [] segs = [] :: x :: y) ∨
    (endsInDots segs ∧ ∃ l, kept [] segs = l ++ [[]])

/-- Nothing that is kept is a dot segment. -/
theorem not_isDots_of_mem_kept (segs : List Text) {out : List Text}
    (hout : ∀ x ∈ out, isDots x = false) : ∀ x ∈ kept out segs, isDots x = false := by
  induction segs generalizing out with
  | nil => exact hout
  | cons seg segs ih =>
    rw [kept]
    split_ifs with hdot hdots
    · exact ih hout
    · exact ih fun x hx => hout x (List.mem_of_mem_dropLast hx)
    · apply ih
      intro x hx
      rcases List.mem_append.mp hx with hx | hx
      · exact hout x hx
      · obtain rfl := List.mem_singleton.mp hx
        rw [isDots, Bool.or_eq_false_iff]
        exact ⟨Bool.eq_false_iff.mpr hdot, Bool.eq_false_iff.mpr hdots⟩

/-- What is kept is segments of the path. -/
theorem mem_of_mem_kept (segs : List Text) {out : List Text} :
    ∀ x ∈ kept out segs, x ∈ out ∨ x ∈ segs := by
  induction segs generalizing out with
  | nil => exact fun x hx => .inl hx
  | cons seg segs ih =>
    intro x hx
    rw [kept] at hx
    split_ifs at hx with hdot hdots
    · exact (ih x hx).imp_right (List.mem_cons_of_mem _)
    · exact (ih x hx).imp List.mem_of_mem_dropLast (List.mem_cons_of_mem _)
    · rcases ih x hx with hx | hx
      · rcases List.mem_append.mp hx with hx | hx
        · exact .inl hx
        · exact .inr (List.mem_singleton.mp hx ▸ List.mem_cons_self ..)
      · exact .inr (List.mem_cons_of_mem _ hx)

theorem kept_of_no_dots (h : ∀ x ∈ segs, isDots x = false) : kept out segs = out ++ segs := by
  induction segs generalizing out with
  | nil => exact (List.append_nil out).symm
  | cons seg segs ih =>
    have hseg := h seg (List.mem_cons_self ..)
    rw [isDots, Bool.or_eq_false_iff] at hseg
    rw [kept, if_neg (Bool.eq_false_iff.mp hseg.1), if_neg (Bool.eq_false_iff.mp hseg.2),
      ih fun x hx => h x (List.mem_cons_of_mem _ hx), List.append_assoc]
    rfl

theorem withoutDots_of_no_dots (h : ∀ x ∈ segs, isDots x = false) : withoutDots segs = segs := by
  have hends : endsInDots segs = false := by
    rw [endsInDots]
    match hlast : segs.getLast? with
    | none => rfl
    | some x => exact h x (List.mem_of_getLast? hlast)
  rw [withoutDots, kept_of_no_dots h, hends]
  exact List.append_nil _

theorem not_isDots_of_mem_withoutDots : ∀ x ∈ withoutDots segs, isDots x = false := by
  intro x hx
  rcases List.mem_append.mp hx with hx | hx
  · exact not_isDots_of_mem_kept segs (fun x hx => absurd hx List.not_mem_nil) x hx
  · split_ifs at hx
    · rw [List.mem_singleton.mp hx]
      rfl
    · cases hx

theorem no_slash_withoutDots (h : ∀ x ∈ segs, '/' ∉ x) : ∀ x ∈ withoutDots segs, '/' ∉ x := by
  intro x hx
  rcases List.mem_append.mp hx with hx | hx
  · rcases mem_of_mem_kept segs x hx with hx | hx
    · cases hx
    · exact h x hx
  · split_ifs at hx
    · rw [List.mem_singleton.mp hx]
      exact List.not_mem_nil
    · cases hx

/-! ### The loop -/

theorem dotLoop_flag (segs out : List Text) (trailingSlash : Bool) :
    (dotLoop segs out trailingSlash).2 =
      if segs = [] then trailingSlash else endsInDots segs := by
  induction segs generalizing out trailingSlash with
  | nil => rfl
  | cons seg segs ih =>
    rw [if_neg (List.cons_ne_nil _ _)]
    have hends : endsInDots (seg :: segs) = if segs = [] then isDots seg else endsInDots segs := by
      cases segs <;> rfl
    rw [hends, dotLoop]
    by_cases hdot : isDotSegment seg
    · rw [if_pos hdot, ih]
      split_ifs with hnil
      · simp [hnil, isDots, hdot]
      · rfl
    · rw [if_neg hdot]
      by_cases hdots : isDotdotSegment seg
      · rw [if_pos hdots, ih]
        split_ifs with hnil
        · simp [hnil, isDots, hdots]
        · rfl
      · rw [if_neg hdots, ih]
        split_ifs with hnil
        · simp [isDots, hdot, hdots]
        · rfl

/-- Above the root, nothing marks the root any more. -/
theorem dotLoop_climbed (segs out : List Text) (trailingSlash : Bool) :
    (dotLoop segs out trailingSlash).1 = kept out segs := by
  induction segs generalizing out trailingSlash with
  | nil => rfl
  | cons seg segs ih =>
    rw [dotLoop, kept]
    split_ifs
    · exact ih _ _
    · exact ih _ _
    · exact ih _ _

theorem dotLoop_rooted (segs out : List Text) (trailingSlash : Bool) :
    (dotLoop segs ([] :: out) trailingSlash).1 =
      if climbs out segs then kept out segs else [] :: kept out segs := by
  induction segs generalizing out trailingSlash with
  | nil => rfl
  | cons seg segs ih =>
    rw [dotLoop, kept, climbs]
    by_cases hdot : isDotSegment seg
    · rw [if_pos hdot, if_pos hdot, if_pos hdot]
      exact ih _ _
    rw [if_neg hdot, if_neg hdot, if_neg hdot]
    by_cases hdots : isDotdotSegment seg
    · rw [if_pos hdots, if_pos hdots, if_pos hdots]
      cases out with
      | nil => exact dotLoop_climbed _ _ _
      | cons x out => exact ih _ _
    · rw [if_neg hdots, if_neg hdots, if_neg hdots]
      exact ih _ _

/-! ### The text that is put together -/

/-- The path of some segments below the root. -/
def rooted (segs : List Text) : Text := '/' :: join segs

theorem rooted_concat_nil (segs : List Text) : rooted (segs ++ [[]]) =
    if segs = [] then ['/'] else rooted segs ++ ['/'] := by
  split_ifs with hnil
  · subst hnil
    rfl
  · rw [rooted, join_concat hnil]
    rfl

theorem rooted_eq_join (hne : segs ≠ []) : rooted segs = join ([] :: segs) := (join_cons [] hne).symm

theorem splitOn_join (h : ∀ x ∈ segs, '/' ∉ x) (hne : segs ≠ []) : (join segs).splitOn '/' = segs :=
  List.splitOn_intercalate _ h hne

theorem splitOn_rooted (h : ∀ x ∈ segs, '/' ∉ x) (hne : segs ≠ []) :
    (rooted segs).splitOn '/' = [] :: segs := by
  rw [rooted_eq_join hne]
  apply splitOn_join
  · intro x hx
    rcases List.mem_cons.mp hx with rfl | hx
    · exact List.not_mem_nil
    · exact h x hx
  · exact List.cons_ne_nil _ _

/-- A path that starts with a slash is that of the segments behind it. -/
theorem exists_rooted (t : Text) :
    ∃ segs, segs ≠ [] ∧ (∀ x ∈ segs, '/' ∉ x) ∧ '/' :: t = rooted segs := by
  refine ⟨t.splitOn '/', List.splitOn_ne_nil _ _, not_mem_of_mem_splitOn '/' t, ?_⟩
  rw [rooted, join, List.intercalate_splitOn]

theorem kept_concat (last : Text) : kept out (segs ++ [last]) =
    if isDotSegment last then kept out segs
    else if isDotdotSegment last then (kept out segs).dropLast
    else kept out segs ++ [last] := by
  induction segs generalizing out with
  | nil => rfl
  | cons seg segs ih =>
    rw [List.cons_append, kept, kept]
    split_ifs at ih ⊢ <;> exact ih

theorem withoutDots_ne_nil (hne : segs ≠ []) : withoutDots segs ≠ [] := by
  rw [← List.dropLast_concat_getLast hne, withoutDots, endsInDots, List.getLast?_concat,
    kept_concat]
  by_cases hdots : isDots (segs.getLast hne)
  · rw [Option.any_some, if_pos hdots]
    exact List.append_ne_nil_of_right_ne_nil _ (List.cons_ne_nil _ _)
  · have hkinds : isDotSegment (segs.getLast hne) = false ∧ isDotdotSegment (segs.getLast hne) = false :=
      Bool.or_eq_false_iff.mp (Bool.eq_false_iff.mpr hdots)
    rw [if_neg (Bool.eq_false_iff.mp hkinds.1), if_neg (Bool.eq_false_iff.mp hkinds.2)]
    simp

/-- An empty segment at the end is kept. -/
theorem kept_concat_nil : kept out (segs ++ [[]]) = kept out segs ++ [[]] := kept_concat []

theorem getLast_rooted (h : ∀ x ∈ segs, '/' ∉ x) :
    (rooted segs).getLast? = some '/' ↔ segs = [] ∨ ∃ l, segs = l ++ [[]] := by
  by_cases hne : segs = []
  · subst hne
    simp [rooted]
  · have hroot : ∀ x ∈ [] :: segs, '/' ∉ x := by
      intro x hx
      rcases List.mem_cons.mp hx with rfl | hx
      · exact List.not_mem_nil
      · exact h x hx
    rw [rooted_eq_join hne, getLast_join hroot]
    constructor
    · rintro ⟨l, hl, heq⟩
      obtain ⟨first, l, rfl⟩ := List.exists_cons_of_ne_nil hl
      exact .inr ⟨l, (List.cons.inj heq).2⟩
    · rintro (hnil | ⟨l, rfl⟩)
      · exact absurd hnil hne
      · exact ⟨[] :: l, List.cons_ne_nil _ _, rfl⟩

/-! ### The removal as a whole -/

/-- A slash at the end. -/
def closed (s : Text) : Text := if s.getLast? = some '/' then s else s ++ ['/']

theorem removeDotSegments_eq (h : ∀ x ∈ segs, '/' ∉ x) (hne : segs ≠ []) :
    removeDotSegments (rooted segs) =
      let s := if climbs [] segs ∧ (join (kept [] segs)).head? = some '/' then join (kept [] segs)
        else rooted (kept [] segs)
      if endsInDots segs ∨ (rooted segs).getLast? = some '/' then closed s else s := by
  have hloop : dotLoop ([] :: segs) [] false = dotLoop segs [[]] false := rfl
  have hout := dotLoop_rooted segs [] false
  have hflag := dotLoop_flag segs [[]] false
  rw [if_neg hne] at hflag
  have hhead : (rooted segs).head? = some '/' := rfl
  have hs : (if (rooted segs).head? = some '/' ∧
      (join (dotLoop segs [[]] false).1).head? ≠ some '/' then
        '/' :: join (dotLoop segs [[]] false).1 else join (dotLoop segs [[]] false).1) =
      if climbs [] segs ∧ (join (kept [] segs)).head? = some '/' then join (kept [] segs)
      else rooted (kept [] segs) := by
    rw [hout, hhead]
    by_cases hclimbs : climbs [] segs
    · simp only [hclimbs, if_true, true_and, ite_not, rooted]
    · simp only [hclimbs, Bool.false_eq_true, if_false, true_and, false_and, ite_not]
      by_cases hkept : kept [] segs = []
      · simp [hkept, rooted]
      · rw [← rooted_eq_join hkept]
        exact if_pos rfl
  rw [removeDotSegments, splitOn_rooted h hne, hloop]
  dsimp only
  rw [show ['/'].intercalate (dotLoop segs [[]] false).1 = join (dotLoop segs [[]] false).1 from rfl,
    hs, hflag]
  have hstart : (if climbs [] segs ∧ (join (kept [] segs)).head? = some '/' then
      join (kept [] segs) else rooted (kept [] segs)).head? = some '/' := by
    split_ifs with hlost
    · exact hlost.2
    · rfl
  generalize (if climbs [] segs ∧ (join (kept [] segs)).head? = some '/' then join (kept [] segs)
    else rooted (kept [] segs)) = s at hstart ⊢
  have hnil : s ≠ [] := by
    rintro rfl
    cases hstart
  simp only [Bool.or_eq_true, decide_eq_true_eq, closed]
  by_cases hend : endsInDots segs ∨ (rooted segs).getLast? = some '/'
  · by_cases hlast : s.getLast? = some '/'
    · simp [hend, hlast, hnil]
    · simp [hend, hlast]
  · simp [hend, hnil]

theorem no_slash_kept (h : ∀ x ∈ segs, '/' ∉ x) : ∀ x ∈ kept [] segs, '/' ∉ x :=
  fun x hx => h x ((mem_of_mem_kept segs x hx).resolve_left List.not_mem_nil)

/-- A slash at the end stays there. -/
theorem kept_of_getLast (h : ∀ x ∈ segs, '/' ∉ x) (hne : segs ≠ [])
    (hlast : (rooted segs).getLast? = some '/') :
    ∃ l, segs = l ++ [[]] ∧ kept [] segs = kept [] l ++ [[]] := by
  obtain ⟨l, rfl⟩ := ((getLast_rooted h).mp hlast).resolve_left hne
  exact ⟨l, rfl, kept_concat_nil⟩

/-- With no slash lost, what is left is the segments without dots. -/
theorem removeDotSegments_kept (h : ∀ x ∈ segs, '/' ∉ x) (hne : segs ≠ []) (hlost : ¬ Lost segs) :
    removeDotSegments (rooted segs) = rooted (withoutDots segs) := by
  rw [Lost, not_or] at hlost
  obtain ⟨hroot, hend⟩ := hlost
  have hkept := no_slash_kept h
  have hstart : ¬ (climbs [] segs ∧ (join (kept [] segs)).head? = some '/') :=
    fun hc => hroot ⟨hc.1, (head_join hkept).mp hc.2⟩
  rw [removeDotSegments_eq h hne]
  dsimp only
  rw [if_neg hstart]
  by_cases hdots : endsInDots segs
  · rw [if_pos (.inl hdots), withoutDots, if_pos hdots, rooted_concat_nil, closed]
    by_cases hnil : kept [] segs = []
    · rw [if_pos hnil, hnil]
      rfl
    · rw [if_neg hnil, if_neg]
      intro hlast
      exact hend ⟨hdots, ((getLast_rooted hkept).mp hlast).resolve_left hnil⟩
  · rw [withoutDots, if_neg hdots, List.append_nil]
    by_cases hlast : (rooted segs).getLast? = some '/'
    · obtain ⟨l, -, hl⟩ := kept_of_getLast h hne hlast
      rw [if_pos (.inr hlast), closed, if_pos]
      exact (getLast_rooted hkept).mpr (.inr ⟨_, hl⟩)
    · rw [if_neg]
      rintro (hc | hc)
      · exact hdots hc
      · exact hlast hc

theorem closed_rooted {l : List Text} (h : ∀ x ∈ l, '/' ∉ x) (hne : l ≠ []) :
    closed (rooted l) = if l.getLast? = some [] then rooted l else rooted (l ++ [[]]) := by
  have hiff : (rooted l).getLast? = some '/' ↔ l.getLast? = some [] := by
    rw [getLast_rooted h, List.getLast?_eq_some_iff]
    exact or_iff_right hne
  rw [closed, rooted_concat_nil, if_neg hne]
  simp only [hiff]

/-- With a slash lost, there are fewer segments left. -/
theorem removeDotSegments_lost (h : ∀ x ∈ segs, '/' ∉ x) (hne : segs ≠ []) (hlost : Lost segs) :
    ∃ l, (∀ x ∈ l, '/' ∉ x) ∧ l ≠ [] ∧ removeDotSegments (rooted segs) = rooted l ∧
      l.length < (withoutDots segs).length := by
  have hkept := no_slash_kept h
  have hlen : (withoutDots segs).length =
      (kept [] segs).length + if endsInDots segs then 1 else 0 := by
    rw [withoutDots, List.length_append]
    split_ifs <;> rfl
  have hadd : ∀ l : List Text, (∀ x ∈ l, '/' ∉ x) → ∀ x ∈ l ++ [[]], '/' ∉ x := by
    intro l hl x hx
    rcases List.mem_append.mp hx with hx | hx
    · exact hl x hx
    · rw [List.mem_singleton.mp hx]
      exact List.not_mem_nil
  rw [hlen, removeDotSegments_eq h hne]
  dsimp only
  by_cases hroot : climbs [] segs ∧ ∃ x y, kept [] segs = [] :: x :: y
  · obtain ⟨hclimbs, x, y, hxy⟩ := hroot
    have htail : ∀ s ∈ x :: y, '/' ∉ s :=
      fun s hs => hkept s (hxy ▸ List.mem_cons_of_mem _ hs)
    have hjoin : join (kept [] segs) = rooted (x :: y) := by
      rw [hxy]
      exact (rooted_eq_join (List.cons_ne_nil x y)).symm
    have hhead : (join (kept [] segs)).head? = some '/' := by
      rw [hjoin]
      rfl
    rw [if_pos (show climbs [] segs ∧ (join (kept [] segs)).head? = some '/' from ⟨hclimbs, hhead⟩),
      hjoin, hxy]
    by_cases hdots : endsInDots segs
    · rw [if_pos (.inl hdots), if_pos hdots, closed_rooted htail (List.cons_ne_nil x y)]
      split_ifs
      · exact ⟨x :: y, htail, List.cons_ne_nil x y, rfl, by simp⟩
      · exact ⟨(x :: y) ++ [[]], hadd _ htail, by simp, rfl, by simp⟩
    · refine ⟨x :: y, htail, List.cons_ne_nil x y, ?_, by simp [hdots]⟩
      split_ifs with hclose
      · obtain ⟨l, -, hl⟩ := kept_of_getLast h hne (hclose.resolve_left hdots)
        have hlast : (x :: y).getLast? = some [] := by
          have hwhole := congrArg List.getLast? (hxy.symm.trans hl)
          rwa [List.getLast?_concat, List.getLast?_cons_cons] at hwhole
        rw [closed_rooted htail (List.cons_ne_nil x y), if_pos hlast]
      · rfl
  · obtain ⟨hdots, l, hl⟩ := hlost.resolve_left hroot
    have hstart : ¬ (climbs [] segs ∧ (join (kept [] segs)).head? = some '/') :=
      fun hc => hroot ⟨hc.1, (head_join hkept).mp hc.2⟩
    have hnil : kept [] segs ≠ [] := by
      rw [hl]
      exact List.append_ne_nil_of_right_ne_nil _ (List.cons_ne_nil _ _)
    rw [if_neg hstart, if_pos (.inl hdots), if_pos hdots, closed_rooted hkept hnil, if_pos]
    · exact ⟨kept [] segs, hkept, hnil, rfl, Nat.lt_succ_self _⟩
    · rw [hl, List.getLast?_concat]

end Conclave.Urls
