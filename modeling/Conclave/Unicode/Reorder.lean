import Conclave.Lib.Stretches

/-! The visual order of a line: its runs are found by the places of the segments in the line as
given, while the output is permuted under them. -/

namespace Conclave.Unicode

open Lib

variable {T : Type*}

/-! ### The code -/

/-- The end of the run of segments at a level or higher. -/
def runEnd (segments : List (T × UInt8)) (level j : ℕ) : ℕ :=
  if h : j < segments.length then
    if level ≤ (segments[j]).2.toNat then runEnd segments level (j + 1) else j
  else j
termination_by segments.length - j

theorem le_runEnd (segments : List (T × UInt8)) (level j : ℕ) : j ≤ runEnd segments level j := by
  fun_induction runEnd segments level j with
  | case1 j _ _ ih => omega
  | case2 j => exact le_refl j
  | case3 j => exact le_refl j

def reverseRange (out : List T) (i j : ℕ) : List T :=
  out.take i ++ ((out.take j).drop i).reverse ++ out.drop j

theorem lt_runEnd {segments : List (T × UInt8)} {level i : ℕ} (h : i < segments.length)
    (hlevel : ¬ (segments[i]).2.toNat < level) : i < runEnd segments level i := by
  rw [runEnd, dif_pos h, if_pos (Nat.le_of_not_lt hlevel)]
  exact le_runEnd segments level (i + 1)

/-- One level: the runs from a place on. -/
def reorderLevel (segments : List (T × UInt8)) (level i : ℕ) (out : List T) : List T :=
  if h : i < segments.length then
    if hlevel : (segments[i]).2.toNat < level then reorderLevel segments level (i + 1) out
    else
      let j := runEnd segments level i
      have : i < j := lt_runEnd h hlevel
      reorderLevel segments level j (reverseRange out i j)
  else out
termination_by segments.length - i

/-- The levels from one down to another. -/
def levelsDown (high low : ℕ) : List ℕ := (List.range' low (high + 1 - low)).reverse

def maxLevel (segments : List (T × UInt8)) : ℕ :=
  (segments.map fun s => s.2.toNat).max?.getD 0

def reorderLine (segments : List (T × UInt8)) : List T :=
  if segments.isEmpty then []
  else
    let out := segments.map Prod.fst
    let minOdd := ((List.range' 1 (maxLevel segments)).find? (· % 2 = 1)).getD 1
    (levelsDown (maxLevel segments) minOdd).foldl
      (fun out level => reorderLevel segments level 0 out) out

/-! ### The rule -/

def atLeast (level : ℕ) (s : T × UInt8) : Bool := level ≤ s.2.toNat

def lowestOdd (segments : List (T × UInt8)) : Option ℕ :=
  ((segments.map fun s => s.2.toNat).filter (· % 2 = 1)).min?

/-- The segments after the reversal of all runs at each level, from one level down to another. -/
def reversedDown (high low : ℕ) (segments : List (T × UInt8)) : List (T × UInt8) :=
  (levelsDown high low).foldl (fun cur level => reverseStretches (atLeast level) [] cur) segments

/-- From the highest level to the lowest odd one every run at that level or higher is reversed. -/
def visualOrder (segments : List (T × UInt8)) : List (T × UInt8) :=
  match lowestOdd segments with
  | none => segments
  | some low => reversedDown (maxLevel segments) low segments

/-! ### One level -/

/-- The run is as far as the level is reached, and no farther. -/
theorem runEnd_spec (segments : List (T × UInt8)) (level j : ℕ) (hj : j ≤ segments.length) :
    runEnd segments level j ≤ segments.length ∧
      (∀ k (hk : k < segments.length), j ≤ k → k < runEnd segments level j →
        atLeast level segments[k]) ∧
      ∀ hend : runEnd segments level j < segments.length,
        atLeast level segments[runEnd segments level j] = false := by
  fun_induction runEnd segments level j with
  | case1 j h hlevel ih =>
    obtain ⟨hle, hrun, hend⟩ := ih h
    refine ⟨hle, fun k hk hjk hlt => ?_, hend⟩
    rcases Nat.eq_or_lt_of_le hjk with rfl | hjk
    · exact decide_eq_true hlevel
    · exact hrun k hk hjk hlt
  | case2 j h hlevel =>
    exact ⟨hj, fun k _ hjk hlt => absurd hlt (Nat.not_lt.mpr hjk), fun _ => decide_eq_false hlevel⟩
  | case3 j h =>
    exact ⟨hj, fun k _ hjk hlt => absurd hlt (Nat.not_lt.mpr hjk), fun hend => absurd hend h⟩

theorem reverseRange_take {out : List T} {i j : ℕ} (hij : i ≤ j) (hj : j ≤ out.length) :
    (reverseRange out i j).take j = out.take i ++ ((out.take j).drop i).reverse := by
  rw [reverseRange]
  exact List.take_left' (by simp; omega)

theorem reverseRange_drop {out : List T} {i j : ℕ} (hij : i ≤ j) (hj : j ≤ out.length) :
    (reverseRange out i j).drop j = out.drop j := by
  rw [reverseRange]
  exact List.drop_left' (by simp; omega)

/-- A line in some order has its levels where the line as given has them. -/
def SameRuns (level : ℕ) (cur segments : List (T × UInt8)) : Prop :=
  cur.map (atLeast level) = segments.map (atLeast level)

/-- The runs found in the line as given are those of the line in its order so far. -/
theorem reorderLevel_eq {segments cur : List (T × UInt8)} {level : ℕ}
    (hsame : SameRuns level cur segments) (i : ℕ) (out : List T) (hi : i ≤ segments.length)
    (hout : out.drop i = (cur.drop i).map Prod.fst) (hlen : out.length = segments.length) :
    reorderLevel segments level i out =
      out.take i ++ (reverseStretches (atLeast level) [] (cur.drop i)).map Prod.fst := by
  have hcur : cur.length = segments.length := by
    simpa using congrArg List.length hsame
  have hat : ∀ k c, cur[k]? = some c → ∀ hk : k < segments.length,
      atLeast level c = atLeast level segments[k] := by
    intro k c hc hk
    have h := congrArg (fun l => l[k]?) hsame
    simpa [hc, hk] using h
  fun_induction reorderLevel segments level i out with
  | case1 i out h hlevel ih =>
    have hc := List.getElem?_eq_getElem (hcur.symm ▸ h)
    have hdrop : cur.drop i = cur[i] :: cur.drop (i + 1) := List.drop_eq_getElem_cons _
    have hlow : atLeast level cur[i] = false := by
      rw [hat i _ hc h]
      exact decide_eq_false (Nat.not_le.mpr hlevel)
    rw [hdrop, List.map_cons] at hout
    have htake : out.take (i + 1) = out.take i ++ [cur[i].1] := by
      rw [List.take_add_one, ← List.head?_drop, hout]
      rfl
    rw [ih h (by rw [← List.drop_drop, hout, List.drop_one, List.tail_cons]) hlen, htake, hdrop,
      reverseStretches, if_neg (by simp [hlow]), List.nil_append, List.map_cons, List.append_assoc]
    rfl
  | case2 i out h hlevel j hij ih =>
    obtain ⟨hj, hrun, hend⟩ := runEnd_spec segments level i h.le
    set run := (cur.drop i).take (j - i) with hrun'
    have hsplit : cur.drop i = run ++ cur.drop j := by
      have hsplit := (List.take_append_drop (j - i) (cur.drop i)).symm
      rwa [List.drop_drop, Nat.add_sub_cancel' hij.le] at hsplit
    have hall : ∀ c ∈ run, atLeast level c := by
      intro c hc
      obtain ⟨k, hk⟩ := List.getElem?_of_mem hc
      rw [hrun', List.getElem?_take, List.getElem?_drop] at hk
      split_ifs at hk with hlt
      have hlen' : i + k < segments.length := by omega
      rw [hat _ c hk hlen']
      exact hrun (i + k) hlen' (by omega) (by omega)
    have hstop : ∀ c ∈ (cur.drop j).head?, atLeast level c = false := by
      intro c hc
      rw [List.head?_drop] at hc
      have hlt : j < segments.length := hcur ▸ (List.getElem?_eq_some_iff.mp hc).1
      rw [hat j c hc hlt]
      exact hend hlt
    have hrest : out.drop j = (cur.drop j).map Prod.fst := by
      have htail := congrArg (List.drop (j - i)) hout
      rwa [List.drop_drop, ← List.map_drop, List.drop_drop, Nat.add_sub_cancel' hij.le] at htail
    have hmiddle : (out.take j).drop i = run.map Prod.fst := by
      rw [List.drop_take, hout, ← List.map_take]
    have hj' : j ≤ out.length := hlen ▸ hj
    rw [ih hj (by rw [reverseRange_drop hij.le hj', hrest]) (by simp [reverseRange]; omega),
      reverseRange_take hij.le hj', hmiddle, hsplit, reverseStretches_of_stretch hall hstop,
      List.map_append, List.map_reverse, List.append_assoc]
  | case3 i out h =>
    rw [List.drop_eq_nil_of_le (by omega), List.take_of_length_le (by omega)]
    exact (List.append_nil out).symm

/-! ### All levels -/

/-- Levels are taken one after the other, in the line as given or in its order so far. -/
theorem foldl_reorderLevel {segments : List (T × UInt8)} {levels : List ℕ}
    (hlevels : levels.Pairwise (· > ·)) (cur : List (T × UInt8))
    (hsame : ∀ level ∈ levels, SameRuns level cur segments) :
    levels.foldl (fun out level => reorderLevel segments level 0 out) (cur.map Prod.fst) =
      (levels.foldl (fun cur level => reverseStretches (atLeast level) [] cur) cur).map Prod.fst := by
  induction levels generalizing cur with
  | nil => rfl
  | cons level levels ih =>
    obtain ⟨hlower, hlevels⟩ := List.pairwise_cons.mp hlevels
    obtain ⟨hlevel, hrest⟩ := List.forall_mem_cons.mp hsame
    have hlen : (cur.map Prod.fst).length = segments.length := by
      simpa using congrArg List.length hlevel
    have hfirst := reorderLevel_eq hlevel 0 (cur.map Prod.fst) (Nat.zero_le _) rfl hlen
    rw [List.take_zero, List.nil_append, List.drop_zero] at hfirst
    rw [List.foldl_cons, List.foldl_cons, hfirst]
    refine ih hlevels _ fun l hl => ?_
    have himp : ∀ s : T × UInt8, atLeast level s → atLeast l s := fun s hs =>
      decide_eq_true ((hlower l hl).le.trans (of_decide_eq_true hs))
    exact (map_reverseStretches_of_imp himp (by simp)).trans (hrest l hl)

theorem levelsDown_succ {high low : ℕ} (h : low ≤ high + 1) :
    levelsDown (high + 1) low = (high + 1) :: levelsDown high low := by
  rw [levelsDown, show high + 1 + 1 - low = high + 1 - low + 1 by omega, List.range'_1_concat,
    List.reverse_append, List.reverse_singleton, show low + (high + 1 - low) = high + 1 by omega]
  rfl

theorem pairwise_levelsDown (high low : ℕ) : (levelsDown high low).Pairwise (· > ·) :=
  List.pairwise_reverse.mpr List.pairwise_lt_range'

theorem perm_foldl (levels : List ℕ) (cur : List (T × UInt8)) :
    (levels.foldl (fun cur level => reverseStretches (atLeast level) [] cur) cur).Perm cur := by
  induction levels generalizing cur with
  | nil => exact .refl cur
  | cons level levels ih => exact (ih _).trans (perm_reverseStretches (atLeast level) [] cur)

/-- Below the lowest odd level the runs at a level and at the next lower one are the same, and what
one reverses the other puts back. -/
theorem reversedDown_even {cur : List (T × UInt8)} (k : ℕ)
    (hodd : ∀ s ∈ cur, s.2.toNat % 2 = 1 → 2 * k ≤ s.2.toNat) : reversedDown (2 * k) 1 cur = cur := by
  induction k with
  | zero => rfl
  | succ k ih =>
    have hsame : reverseStretches (atLeast (2 * k + 1)) [] cur =
        reverseStretches (atLeast (2 * k + 2)) [] cur := by
      apply reverseStretches_congr
      intro s hs
      have := hodd s hs
      rw [atLeast, atLeast, decide_eq_decide]
      omega
    rw [reversedDown, show 2 * (k + 1) = 2 * k + 1 + 1 by omega, levelsDown_succ (by omega),
      levelsDown_succ (by omega), List.foldl_cons, List.foldl_cons, ← hsame,
      reverseStretches_involutive]
    exact ih fun s hs hs' => by
      have := hodd s hs hs'
      omega

theorem reversedDown_split {high low : ℕ} (hlow : 0 < low) (hle : low ≤ high + 1)
    (segments : List (T × UInt8)) : reversedDown high 1 segments =
      reversedDown (low - 1) 1 (reversedDown high low segments) := by
  have hlevels : levelsDown high 1 = levelsDown high low ++ levelsDown (low - 1) 1 := by
    induction high with
    | zero =>
      obtain rfl : low = 1 := by omega
      rfl
    | succ high ih =>
      rcases Nat.eq_or_lt_of_le hle with rfl | hlt
      · simp [levelsDown]
      · rw [levelsDown_succ (by omega), levelsDown_succ (by omega), ih (by omega)]
        rfl
  rw [reversedDown, hlevels, List.foldl_append]
  rfl

theorem minOdd_eq (n : ℕ) : ((List.range' 1 n).find? (· % 2 = 1)).getD 1 = 1 := by
  cases n with
  | zero => rfl
  | succ n =>
    rw [List.range'_succ, List.find?_cons]
    rfl

theorem le_maxLevel {segments : List (T × UInt8)} {s : T × UInt8} (hs : s ∈ segments) :
    s.2.toNat ≤ maxLevel segments := by
  rw [maxLevel]
  exact List.le_max?_getD_of_mem (List.mem_map_of_mem hs)

/-- The levels down to the first are to no other effect than those down to the lowest odd one. -/
theorem reversedDown_one (segments : List (T × UInt8)) :
    reversedDown (maxLevel segments) 1 segments = visualOrder segments := by
  rw [visualOrder]
  cases hlow : lowestOdd segments with
  | none =>
    rw [lowestOdd, List.min?_eq_none_iff, List.filter_eq_nil_iff] at hlow
    have heven : maxLevel segments % 2 = 0 := by
      rw [maxLevel]
      cases hmax : (segments.map fun s => s.2.toNat).max? with
      | none => rfl
      | some high =>
        have hnot := hlow high (List.max?_mem hmax)
        simpa using hnot
    have hpairs := @reversedDown_even _ segments (maxLevel segments / 2) fun s hs hodd =>
      absurd (decide_eq_true hodd) (hlow s.2.toNat (List.mem_map_of_mem hs))
    rwa [show 2 * (maxLevel segments / 2) = maxLevel segments by omega] at hpairs
  | some low =>
    obtain ⟨hmem, hleast⟩ := List.min?_eq_some_iff.mp hlow
    obtain ⟨hmem, hodd⟩ := List.mem_filter.mp hmem
    obtain ⟨s, hs, rfl⟩ := List.mem_map.mp hmem
    have hodd := of_decide_eq_true hodd
    have hle := le_maxLevel hs
    have hpairs := @reversedDown_even _ (reversedDown (maxLevel segments) s.2.toNat segments)
      (s.2.toNat / 2) fun s' hs' hodd' => by
        have hs' := (perm_foldl _ segments).mem_iff.mp hs'
        have := hleast s'.2.toNat
          (List.mem_filter.mpr ⟨List.mem_map_of_mem hs', decide_eq_true hodd'⟩)
        omega
    rw [show 2 * (s.2.toNat / 2) = s.2.toNat - 1 by omega] at hpairs
    exact (reversedDown_split (show 0 < s.2.toNat by omega) (by omega) segments).trans hpairs

/-- The segments come in the order of the rule, and each once. -/
theorem reorderLine_eq (segments : List (T × UInt8)) :
    reorderLine segments = (visualOrder segments).map Prod.fst ∧
      (reorderLine segments).Perm (segments.map Prod.fst) := by
  have hline : reorderLine segments = (visualOrder segments).map Prod.fst := by
    rw [← reversedDown_one, reorderLine]
    cases segments with
    | nil => rfl
    | cons s segments =>
      rw [List.isEmpty_cons, if_neg Bool.false_ne_true]
      dsimp only
      rw [minOdd_eq]
      exact foldl_reorderLevel (pairwise_levelsDown _ 1) _ fun _ _ => rfl
  refine ⟨hline, ?_⟩
  rw [hline, ← reversedDown_one]
  exact (perm_foldl _ segments).map Prod.fst

end Conclave.Unicode
