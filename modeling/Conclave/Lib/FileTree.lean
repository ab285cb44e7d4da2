import Conclave.Lib.Bytes

/-! A file system as a finite map from paths to files and directories. Every call fails
or succeeds as a whole; what it does to the files at other paths is stated with it. -/

namespace Conclave.Lib

/-- The names from the root of the file system down. -/
abbrev Path := List String

inductive Node where
  | file (bytes : Bytes)
  | dir
  deriving DecidableEq, Repr

abbrev FileTree := List (Path × Node)

namespace FileTree

def node (fs : FileTree) (p : Path) : Option Node := if p = [] then some .dir else fs.lookup p

def isDir (fs : FileTree) (p : Path) : Bool := fs.node p = some .dir

/-- The bytes of a file. -/
def file (fs : FileTree) (p : Path) : Option Bytes :=
  match fs.node p with
  | some (.file b) => some b
  | _ => none

def isFile (fs : FileTree) (p : Path) : Bool := (fs.file p).isSome

def erase (fs : FileTree) (p : Path) : FileTree := fs.filter fun e => e.1 ≠ p

def put (fs : FileTree) (p : Path) (n : Node) : FileTree := (p, n) :: fs.erase p

/-- A path and everything below it away. -/
def eraseTree (fs : FileTree) (p : Path) : FileTree := fs.filter fun e => ¬ p <+: e.1

def createDirAll (fs : FileTree) (p : Path) : Option FileTree :=
  p.inits.foldlM (fun fs q =>
    match fs.node q with
    | some .dir => some fs
    | some (.file _) => none
    | none => some (fs.put q .dir)) fs

def write (fs : FileTree) (p : Path) (b : Bytes) : Option FileTree :=
  if fs.isDir p ∨ ¬ fs.isDir p.dropLast then none else some (fs.put p (.file b))

def rename (fs : FileTree) (p q : Path) : Option FileTree :=
  match fs.file p with
  | some b => if fs.isDir q ∨ ¬ fs.isDir q.dropLast then none
    else some ((fs.erase p).put q (.file b))
  | none => none

def removeFile (fs : FileTree) (p : Path) : Option FileTree :=
  if fs.isFile p then some (fs.erase p) else none

/-- Only an empty directory goes. -/
def removeDir (fs : FileTree) (p : Path) : Option FileTree :=
  if fs.isDir p ∧ ∀ e ∈ fs, p <+: e.1 → e.1 = p then some (fs.erase p) else none

def removeDirAll (fs : FileTree) (p : Path) : Option FileTree :=
  if fs.isDir p then some (fs.eraseTree p) else none

/-! ### Lookups -/

theorem lookup_filter (fs : FileTree) (keep : Path → Bool) (p : Path) :
    (fs.filter fun e => keep e.1).lookup p = if keep p then fs.lookup p else none := by
  induction fs with
  | nil => simp
  | cons e fs ih =>
    obtain ⟨q, n⟩ := e
    by_cases hq : p = q
    · subst hq
      cases hk : keep p <;> simp [hk, ih]
    · have hb : (p == q) = false := beq_eq_false_iff_ne.mpr hq
      cases hk : keep q <;> simp [hk, ih, List.lookup, hb]

variable {fs fs' : FileTree} {p q : Path}

theorem node_erase (hq : q ≠ []) : (fs.erase p).node q = if q = p then none else fs.node q := by
  simp only [node, if_neg hq, erase, lookup_filter fs (fun r => r ≠ p)]
  by_cases hqp : q = p <;> simp [hqp]

theorem node_put (hq : q ≠ []) (n : Node) :
    (fs.put p n).node q = if q = p then some n else fs.node q := by
  by_cases hqp : q = p
  · subst hqp
    simp [node, hq, put]
  · have hb : (q == p) = false := beq_eq_false_iff_ne.mpr hqp
    have he : (fs.erase p).node q = _ := node_erase hq
    simp only [node, if_neg hq, if_neg hqp] at he ⊢
    simp only [put, List.lookup, hb, he]

theorem file_nil (fs : FileTree) : fs.file [] = none := by simp [file, node]

theorem file_erase : (fs.erase p).file q = if q = p then none else fs.file q := by
  by_cases hq : q = []
  · subst hq
    simp [file_nil]
  · simp only [file, node_erase hq]
    split_ifs <;> rfl

theorem file_put_file (hp : p ≠ []) (b : Bytes) :
    (fs.put p (.file b)).file q = if q = p then some b else fs.file q := by
  by_cases hq : q = []
  · subst hq
    rw [if_neg (Ne.symm hp), file_nil, file_nil]
  · simp only [file, node_put hq]
    split_ifs <;> rfl

theorem file_put_dir (h : fs.node p = none) : (fs.put p .dir).file q = fs.file q := by
  by_cases hq : q = []
  · subst hq
    rw [file_nil, file_nil]
  · simp only [file, node_put hq]
    by_cases hqp : q = p
    · subst hqp
      simp [h]
    · rw [if_neg hqp]

theorem file_eraseTree : (fs.eraseTree p).file q = if p <+: q then none else fs.file q := by
  by_cases hq : q = []
  · subst hq
    simp [file_nil]
  · have h := lookup_filter fs (fun r => ¬ p <+: r) q
    simp only [file, node, if_neg hq, eraseTree, h]
    by_cases hpq : p <+: q <;> simp [hpq]

theorem file_of_isDir (h : fs.isDir p = true) : fs.file p = none := by
  have hn : fs.node p = some .dir := by simpa [isDir] using h
  simp only [file, hn]

/-! ### Calls -/

/-- New directories change no file, and nothing off the way. -/
theorem createDirAll_spec (h : fs.createDirAll p = some fs') :
    (∀ q, fs'.file q = fs.file q) ∧ ∀ q, ¬ q <+: p → fs'.node q = fs.node q := by
  have hstep : ∀ (qs : List Path) (fs : FileTree), (∀ q ∈ qs, q <+: p) →
      qs.foldlM (fun fs q =>
        match fs.node q with
        | some .dir => some fs
        | some (.file _) => none
        | none => some (fs.put q .dir)) fs = some fs' →
      (∀ q, fs'.file q = fs.file q) ∧ ∀ q, ¬ q <+: p → fs'.node q = fs.node q := by
    intro qs
    induction qs with
    | nil =>
      intro fs _ hf
      obtain rfl := Option.some.inj hf
      exact ⟨fun _ => rfl, fun _ _ => rfl⟩
    | cons r qs ih =>
      intro fs hqs hf
      rw [List.foldlM_cons] at hf
      cases hn : fs.node r with
      | none =>
        simp only [hn, Option.bind_eq_bind, Option.bind_some] at hf
        obtain ⟨h₁, h₂⟩ := ih _ (fun q hq => hqs q (List.mem_cons_of_mem r hq)) hf
        refine ⟨fun q => (h₁ q).trans (file_put_dir hn), fun q hq => (h₂ q hq).trans ?_⟩
        have hqr : q ≠ r := fun heq => hq (heq ▸ hqs r List.mem_cons_self)
        have hq0 : q ≠ [] := fun heq => hq (heq ▸ List.nil_prefix)
        rw [node_put hq0, if_neg hqr]
      | some n =>
        cases n with
        | dir =>
          simp only [hn, Option.bind_eq_bind, Option.bind_some] at hf
          exact ih fs (fun q hq => hqs q (List.mem_cons_of_mem r hq)) hf
        | file b => simp [hn] at hf
  exact hstep p.inits fs (fun q hq => List.mem_inits q p |>.mp hq) h

theorem file_write (hp : p ≠ []) {b : Bytes} (h : fs.write p b = some fs') (q : Path) :
    fs'.file q = if q = p then some b else fs.file q := by
  unfold write at h
  split_ifs at h
  rw [← Option.some.inj h]
  exact file_put_file hp b

theorem file_rename (hq : q ≠ []) (h : fs.rename p q = some fs') (r : Path) :
    fs'.file r = if r = q then fs.file p else if r = p then none else fs.file r := by
  unfold rename at h
  cases hf : fs.file p with
  | none => simp [hf] at h
  | some b =>
    simp only [hf] at h
    split_ifs at h
    rw [← Option.some.inj h, file_put_file hq, file_erase]

theorem file_removeFile (h : fs.removeFile p = some fs') (q : Path) :
    fs.isFile p = true ∧ fs'.file q = if q = p then none else fs.file q := by
  unfold removeFile at h
  split_ifs at h with hp
  rw [← Option.some.inj h]
  exact ⟨hp, file_erase⟩

theorem file_removeDirAll (h : fs.removeDirAll p = some fs') (q : Path) :
    fs.isDir p = true ∧ fs'.file q = if p <+: q then none else fs.file q := by
  unfold removeDirAll at h
  split_ifs at h with hp
  rw [← Option.some.inj h]
  exact ⟨hp, file_eraseTree⟩

/-- An empty directory takes no file along. -/
theorem file_removeDir (h : fs.removeDir p = some fs') (q : Path) :
    fs.isDir p = true ∧ fs'.file q = fs.file q := by
  unfold removeDir at h
  split_ifs at h with hp
  refine ⟨hp.1, ?_⟩
  rw [← Option.some.inj h, file_erase]
  split_ifs with hqp
  · rw [hqp, file_of_isDir hp.1]
  · rfl

end FileTree

end Conclave.Lib
