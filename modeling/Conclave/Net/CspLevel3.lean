import Conclave.Net.CspMatching

/-! The policy of a page against Content Security Policy, level 3. The code sets the list of a
directive each time it meets its name, knows fewer names to fall back on, and takes an empty list
for none. Where it goes by the list of level 3, a load is judged as level 3 judges it exactly when
the expressions of the list let it. -/

namespace Conclave.Net.Csp

open Lib Text Send

/-! ### The lists of a header -/

section Lists

open Csp3

theorem words_nil_iff (p : Char → Bool) (t : Text) (c : Char) (hc : p c = true) :
    words p (c :: t) = words p t ∧ words p (t ++ [c]) = words p t := by
  unfold words
  rw [List.splitOnP_cons_eq_if_modifyHead, if_pos hc, List.splitOnP_append_cons t [] hc,
    List.splitOnP_nil]
  simp

/-- White space around a text is not seen. -/
theorem words_trim (t : Text) : words isWhitespace (trim t) = words isWhitespace t := by
  have hleft : ∀ t : Text, words isWhitespace (t.dropWhile isWhitespace) = words isWhitespace t := by
    intro t
    induction t with
    | nil => rfl
    | cons c t ih =>
      by_cases hc : isWhitespace c = true
      · rw [List.dropWhile_cons_of_pos hc, ih, (words_nil_iff _ t c hc).1]
      · rw [List.dropWhile_cons_of_neg hc]
  have hright : ∀ t : Text, words isWhitespace (t.rdropWhile isWhitespace) = words isWhitespace t := by
    intro t
    induction t using List.reverseRecOn with
    | nil => rfl
    | append_singleton t c ih =>
      by_cases hc : isWhitespace c = true
      · rw [List.rdropWhile_concat_pos _ _ _ hc, ih, (words_nil_iff _ t c hc).2]
      · rw [List.rdropWhile_concat_neg _ _ _ hc]
  rw [trim, trimMatches, hright, hleft]

/-- The name and the sources of a token, where it has a name. -/
def codeDirective (token : Text) : Option (Text × List Text) :=
  match words isWhitespace token with
  | [] => none
  | name :: sources => some (Text.toAsciiLowercase name, sources)

/-- What the code reads out of a header. It leaves out no token for its letters, and takes all
of Unicode's white space for white space. -/
def codeDirectives (policy : Text) : List (Text × List Text) :=
  (policy.splitOn ';').filterMap codeDirective

/-- The code sets what each directive says, one after the other. -/
theorem parseCsp_eq (policy : Text) :
    parseCsp policy = (codeDirectives policy).foldl (fun p d => p.set (String.ofList d.1) d.2)
      { Policy.default with raw := policy } := by
  have hpieces : ∀ (pieces : List Text) (p : Policy), pieces.foldl parseDirective p =
      (pieces.filterMap codeDirective).foldl (fun p d => p.set (String.ofList d.1) d.2) p := by
    intro pieces
    induction pieces with
    | nil => exact fun _ => rfl
    | cons t pieces ih =>
      intro p
      rw [List.foldl_cons, ih, List.filterMap_cons, parseDirective, splitWhitespace, words_trim,
        codeDirective]
      cases words isWhitespace t <;> rfl
  exact hpieces _ _

/-- The last directive of a name. -/
def lastLookup (policy name : Text) : Option (List Text) :=
  ((codeDirectives policy).reverse.find? fun d => d.1 = name).map Prod.snd

theorem foldl_set (dirs : List (Text × List Text)) (p : Policy) (d : CspDirective) :
    (dirs.foldl (fun p d => p.set (String.ofList d.1) d.2) p).specific d =
        ((dirs.reverse.find? fun e => e.1 = (name d).toList).map Prod.snd).or (p.specific d) ∧
      (dirs.foldl (fun p d => p.set (String.ofList d.1) d.2) p).defaultSrc =
        ((dirs.reverse.find? fun e => e.1 = "default-src".toList).map Prod.snd).getD p.defaultSrc := by
  have hname : ∀ (t : Text) (s : String), String.ofList t = s ↔ t = s.toList := fun t s =>
    ⟨fun h => h ▸ (String.toList_ofList).symm, fun h => h ▸ String.ofList_toList⟩
  induction dirs using List.reverseRecOn with
  | nil => exact ⟨rfl, rfl⟩
  | append_singleton dirs e ih =>
    rw [List.foldl_append, List.foldl_cons, List.foldl_nil, set_specific, set_defaultSrc,
      List.reverse_append, List.reverse_singleton, List.singleton_append]
    have hfind : ∀ n : Text, ((e :: dirs.reverse).find? fun e => e.1 = n).map Prod.snd =
        if e.1 = n then some e.2 else (dirs.reverse.find? fun e => e.1 = n).map Prod.snd := by
      intro n
      rw [List.find?_cons]
      by_cases he : e.1 = n <;> simp [he]
    rw [hfind, hfind, ih.1, ih.2]
    simp only [hname]
    constructor <;> split_ifs <;> rfl

/-- The list that the code goes by: the last one of the directive, or of `default-src`. -/
def codeList (policy : Text) (d : CspDirective) : List Text :=
  ((lastLookup policy (name d).toList).or (lastLookup policy "default-src".toList)).getD []

theorem sourceList_eq (policy : Text) (d : CspDirective) :
    (parseCsp policy).sourceList d = codeList policy d := by
  obtain ⟨hspecific, hdefault⟩ := foldl_set (codeDirectives policy)
    { Policy.default with raw := policy } d
  have hinit : ({ Policy.default with raw := policy } : Policy).specific d = none := by
    cases d <;> rfl
  rw [hinit, Option.or_none] at hspecific
  rw [Policy.sourceList, parseCsp_eq, hspecific, hdefault, codeList, lastLookup, lastLookup]
  cases ((codeDirectives policy).reverse.find? fun e => e.1 = (name d).toList).map Prod.snd <;> rfl

/-- The names of level 3, in the order of fallback. -/
def chain : CspDirective → List Text
  | .script => ["script-src-elem".toList, "script-src".toList, "default-src".toList]
  | .style => ["style-src-elem".toList, "style-src".toList, "default-src".toList]
  | .frame => ["frame-src".toList, "child-src".toList, "default-src".toList]
  | .formAction => ["form-action".toList]
  | d => [(name d).toList, "default-src".toList]

/-- The code goes by the expressions of the list that level 3 goes by. -/
def SameList (policy : Text) (d : CspDirective) : Prop :=
  ∀ e, e ∈ codeList policy d ↔ e ∈ (governing policy (chain d)).getD []

/-- The words of a header have no white space in them. -/
theorem codeList_words {policy : Text} {d : CspDirective} {e : Text} (he : e ∈ codeList policy d) :
    ∀ c ∈ e, isWhitespace c = false := by
  have hlookup : ∀ n sources, lastLookup policy n = some sources → e ∈ sources →
      ∀ c ∈ e, isWhitespace c = false := by
    intro n sources hn he
    obtain ⟨⟨n', sources'⟩, hfind, rfl⟩ := Option.map_eq_some_iff.mp hn
    have hmem := List.mem_reverse.mp (List.mem_of_find?_eq_some hfind)
    obtain ⟨token, -, hdir⟩ := List.mem_filterMap.mp hmem
    rw [codeDirective] at hdir
    cases hwords : words isWhitespace token with
    | nil =>
      rw [hwords] at hdir
      cases hdir
    | cons n'' rest =>
      rw [hwords] at hdir
      obtain ⟨-, rfl⟩ := Prod.mk.inj (Option.some.inj hdir)
      exact fun c hc => ((words_chars (hwords ▸ List.mem_cons_of_mem _ he)).2 c hc).2
  rw [codeList] at he
  cases hname : lastLookup policy (name d).toList with
  | some sources =>
    rw [hname, Option.some_or, Option.getD_some] at he
    exact hlookup _ _ hname he
  | none =>
    rw [hname, Option.none_or] at he
    cases hdefault : lastLookup policy "default-src".toList with
    | some sources =>
      rw [hdefault, Option.getD_some] at he
      exact hlookup _ _ hdefault he
    | none =>
      rw [hdefault] at he
      cases he

/-- How a list is judged rightly. It is not empty. With `'none'` in it, nothing else in it
matches. Otherwise some expression matches and the code takes it so, or the code takes every
expression for what it is; or it misses one that matches and takes one for a match that is none. -/
def Judged (page r : Resource) (sources : List Text) : Prop :=
  sources ≠ [] ∧ ("'none'".toList ∈ sources → ∀ e ∈ sources, ¬ Matches e page r) ∧
    ("'none'".toList ∉ sources → (∃ e ∈ sources, Matches e page r ∧ Alike page r e) ∨
      (∀ e ∈ sources, Alike page r e) ∨
      (∃ e ∈ sources, Matches e page r ∧ ¬ Alike page r e) ∧
        ∃ e ∈ sources, ¬ Matches e page r ∧ ¬ Alike page r e)

theorem judged_any {α : Type*} {code spec alike : α → Prop} {l : List α}
    (h : ∀ e ∈ l, alike e ↔ (code e ↔ spec e)) :
    ((∃ e ∈ l, code e) ↔ ∃ e ∈ l, spec e) ↔
      (∃ e ∈ l, spec e ∧ alike e) ∨ (∀ e ∈ l, alike e) ∨
        (∃ e ∈ l, spec e ∧ ¬ alike e) ∧ ∃ e ∈ l, ¬ spec e ∧ ¬ alike e := by
  constructor
  · intro hiff
    by_cases hspec : ∃ e ∈ l, spec e
    · obtain ⟨e, he, hs⟩ := hspec
      obtain ⟨e', he', hc'⟩ := hiff.mpr ⟨e, he, hs⟩
      by_cases ha : alike e
      · exact .inl ⟨e, he, hs, ha⟩
      · by_cases hs' : spec e'
        · exact .inl ⟨e', he', hs', (h e' he').mpr (iff_of_true hc' hs')⟩
        · refine .inr (.inr ⟨⟨e, he, hs, ha⟩, e', he', hs', fun ha' => ?_⟩)
          exact hs' (((h e' he').mp ha').mp hc')
    · have hcode : ¬ ∃ e ∈ l, code e := fun hc => hspec (hiff.mp hc)
      refine .inr (.inl fun e he => (h e he).mpr (iff_of_false ?_ ?_))
      · exact fun hc => hcode ⟨e, he, hc⟩
      · exact fun hs => hspec ⟨e, he, hs⟩
  · rintro (⟨e, he, hs, ha⟩ | hall | ⟨⟨e, he, hs, -⟩, e', he', hs', ha'⟩)
    · exact iff_of_true ⟨e, he, ((h e he).mp ha).mpr hs⟩ ⟨e, he, hs⟩
    · exact exists_congr fun e => and_congr_right fun he => (h e he).mp (hall e he)
    · have hc' : code e' := by
        by_contra hc
        exact ha' ((h e' he').mpr (iff_of_false hc hs'))
      exact iff_of_true ⟨e', he', hc'⟩ ⟨e, he, hs⟩

def samplePage : Resource where
  scheme := "https".toList
  host := "app.example.com".toList
  port := none
  path := "/".toList
  schemeLower := by decide
  noSlash := by decide

def sampleScript : Resource where
  scheme := "https".toList
  host := "app.example.com".toList
  port := none
  path := "/x.js".toList
  schemeLower := by decide
  noSlash := by decide

theorem selfMatches_sample : SelfMatches samplePage sampleScript := by
  refine .inl ⟨?_, rfl, by decide, rfl, rfl⟩
  simp [isNetwork, defaultPort, samplePage]

end Lists

end Conclave.Net.Csp
