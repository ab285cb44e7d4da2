import Conclave.Browser.Opfs

/-! Files of the origin-private file system are independent of each other as long as no
write meets a file at its temporary name. The intended contents, one byte string for
each list of components, are kept beside the tree along a run of calls. -/

namespace Conclave.Browser.Opfs

open Lib

abbrev Files := List String → Option Bytes

/-- The files below the origin's directory. -/
def filesIn (root : Path) (fs : FileTree) : Files := fun rel => fs.file (opfsDir root ++ rel)

@[simp] theorem filesIn_apply (root : Path) (fs : FileTree) (rel : List String) :
    filesIn root fs rel = fs.file (opfsDir root ++ rel) := rfl

/-- The paths that a call is an operation on. A recursive removal is one on all of a
directory. -/
def Call.Concerns : Call → List String → Prop
  | remove parent name true, rel => parent ++ [name] <+: rel
  | c, rel => rel = c.path

/-- What the files become when a call reports success. -/
def Call.intended (files : Files) : Call → Files
  | create rel => if files rel = none then Function.update files rel (some []) else files
  | write rel bytes => Function.update files rel (some bytes)
  | truncate rel newLen =>
    Function.update files rel (some (resize newLen ((files rel).getD [])))
  | remove parent name recursive =>
    if recursive ∧ files (parent ++ [name]) = none then
      fun rel => if parent ++ [name] <+: rel then none else files rel
    else Function.update files (parent ++ [name]) none

/-- A write of `path` finds no file at its temporary name, and the temporary file goes
when it cannot be renamed. -/
def Unshared (fs : FileTree) (luck : Luck) (path : Path) : Prop :=
  luck.write = true → fs.isDir (tmpPath path) = false →
    fs.file (tmpPath path) = none ∧
      (luck.remove = true ∨ luck.rename = true ∧ fs.isDir path = false)

/-- The empty list of components names the origin's directory, which no write replaces. -/
def UnsharedAt (root : Path) (fs : FileTree) (luck : Luck) (rel : List String) : Prop :=
  Unshared fs luck (opfsDir root ++ rel) ∧ (rel = [] → luck.write = true → luck.remove = true)

def Clear (root : Path) (fs : FileTree) (luck : Luck) : Call → Prop
  | .write rel _ => UnsharedAt root fs luck rel
  | .truncate rel _ => UnsharedAt root fs luck rel
  | _ => True

/-- Runs of calls, each meeting `allowed` in the state before it, with the contents that
the calls so far intend. -/
inductive Reaches (allowed : FileTree → Luck → Call → Prop) (root : Path) (fs₀ : FileTree) :
    FileTree → Files → Prop
  | start : Reaches allowed root fs₀ fs₀ (filesIn root fs₀)
  | call {fs : FileTree} {files : Files} (luck : Luck) (c : Call) :
      Reaches allowed root fs₀ fs files → allowed fs luck c →
      Reaches allowed root fs₀ (c.run root luck fs).2
        (if (c.run root luck fs).1 then c.intended files else files)

variable {fs fs' : FileTree} {luck : Luck} {path root : Path}

theorem attempt_some {ok : Bool} {call : FileTree → Option FileTree}
    (h : attempt ok call fs = some fs') : ok = true ∧ call fs = some fs' := by
  unfold attempt at h
  split_ifs at h with hok
  exact ⟨hok, h⟩

/-! ### The temporary name -/

theorem tmpPath_ne (path : Path) : tmpPath path ≠ path := by
  intro h
  rcases List.eq_nil_or_concat path with rfl | ⟨p, x, rfl⟩
  · simp [tmpPath] at h
  · have hx : x ++ ".tmp" = x := by
      rw [tmpPath, List.concat_eq_append, List.dropLast_concat, List.getLastD_concat] at h
      exact List.singleton_inj.mp (List.append_cancel_left h)
    have hl := congrArg String.length hx
    have h4 : ".tmp".length = 4 := by decide
    rw [String.length_append] at hl
    omega

theorem tmpPath_dropLast (path : Path) : (tmpPath path).dropLast = path.dropLast := by
  simp [tmpPath]

theorem tmpPath_ne_nil (path : Path) : tmpPath path ≠ [] := by simp [tmpPath]

theorem dropLast_ne {p : Path} (hp : p ≠ []) : p.dropLast ≠ p := by
  intro h
  have hl := congrArg List.length h
  rw [List.length_dropLast] at hl
  have := List.length_pos_iff.mpr hp
  omega

theorem tmpPath_length (hpath : path ≠ []) : (tmpPath path).length = path.length := by
  have := List.length_pos_iff.mpr hpath
  simp only [tmpPath, List.length_append, List.length_dropLast, List.length_singleton]
  omega

theorem opfsDir_ne_nil (root : Path) (rel : List String) : opfsDir root ++ rel ≠ [] := by
  simp [opfsDir]

/-- The temporary name is no directory on the way to its file. -/
theorem tmpPath_off {p : Path} (hpath : path ≠ []) (hp : p <+: path) : ¬ tmpPath path <+: p := by
  intro h
  have hl := tmpPath_length hpath
  exact tmpPath_ne path ((h.trans hp).eq_of_length hl)

/-! ### The operations on files -/

/-- The temporary file, once written beside a path that is no directory, can be renamed
over it. -/
theorem rename_written {fs₁ : FileTree} {bytes : Bytes} (hpath : path ≠ [])
    (hwrite : fs.write (tmpPath path) bytes = some fs₁) (hdir : fs.isDir path = false) :
    (fs₁.rename (tmpPath path) path).isSome = true := by
  have htmp : fs₁.file (tmpPath path) = some bytes := by
    rw [FileTree.file_write (tmpPath_ne_nil path) hwrite, if_pos rfl]
  simp only [FileTree.write, tmpPath_dropLast] at hwrite
  split_ifs at hwrite with hc
  have hput := (Option.some.inj hwrite).symm
  have hsame : fs₁.isDir path = false := by
    rw [FileTree.isDir, hput, FileTree.node_put hpath, if_neg (tmpPath_ne path).symm]
    exact hdir
  have hparent : fs₁.isDir path.dropLast = true := by
    by_cases hp : path.dropLast = []
    · simp [FileTree.isDir, FileTree.node, hp]
    · have hne : path.dropLast ≠ tmpPath path := by
        rw [← tmpPath_dropLast]
        exact dropLast_ne (tmpPath_ne_nil path)
      rw [FileTree.isDir, hput, FileTree.node_put hp, if_neg hne]
      exact not_not.mp (not_or.mp hc).2
  simp [FileTree.rename, htmp, hsame, hparent]

/-- A write that shares its temporary name with no file writes its own file or none. -/
theorem atomicWrite_file {bytes : Bytes} {ok : Bool} (hpath : path ≠ [])
    (h : Unshared fs luck path) (hrun : atomicWrite luck path bytes fs = (ok, fs'))
    (q : Path) :
    fs'.file q = if ok = true ∧ q = path then some bytes else fs.file q := by
  unfold atomicWrite at hrun
  cases hw : attempt luck.write (·.write (tmpPath path) bytes) fs with
  | none =>
    simp only [hw, Prod.mk.injEq] at hrun
    obtain ⟨rfl, rfl⟩ := hrun
    simp
  | some fs₁ =>
    obtain ⟨hluck, hwrite⟩ := attempt_some hw
    have hnodir : fs.isDir (tmpPath path) = false := by
      simp only [FileTree.write] at hwrite
      split_ifs at hwrite with hc
      simpa using (not_or.mp hc).1
    obtain ⟨hfree, hgoes⟩ := h hluck hnodir
    have hfile₁ := FileTree.file_write (tmpPath_ne_nil path) hwrite
    cases hr : attempt luck.rename (·.rename (tmpPath path) path) fs₁ with
    | some fs₂ =>
      simp only [hw, hr, Prod.mk.injEq] at hrun
      obtain ⟨rfl, rfl⟩ := hrun
      simp only [FileTree.file_rename hpath (attempt_some hr).2, hfile₁, true_and, if_true]
      split_ifs with hq hqt
      · rfl
      · rw [hqt, hfree]
      · rfl
    | none =>
      have hrem : luck.remove = true := by
        rcases hgoes with hgoes | ⟨hgoes, hdir⟩
        · exact hgoes
        · have hsome := rename_written hpath hwrite hdir
          simp only [attempt, hgoes, if_true] at hr
          simp [hr] at hsome
      have hisFile : fs₁.isFile (tmpPath path) = true := by
        simp [FileTree.isFile, hfile₁]
      have hgone : attempt luck.remove (·.removeFile (tmpPath path)) fs₁ =
          some (fs₁.erase (tmpPath path)) := by
        simp [attempt, hrem, FileTree.removeFile, hisFile]
      simp only [hw, hr, hgone, Option.getD_some, Prod.mk.injEq] at hrun
      obtain ⟨rfl, rfl⟩ := hrun
      simp only [FileTree.file_erase, hfile₁, Bool.false_eq_true, false_and, if_false]
      split_ifs with hqt
      · rw [hqt, hfree]
      · rfl

/-- Resolving a path makes directories at most, and an accepted one leads below the
origin's directory. -/
theorem opfsPath_spec (rel : List String) (hpath : opfsPath root luck rel fs = (some path, fs')) :
    path = opfsDir root ++ rel ∧ (∀ q, fs'.file q = fs.file q) ∧
      ∀ q, ¬ q <+: opfsDir root → fs'.node q = fs.node q := by
  unfold opfsPath opfsRootDir at hpath
  cases hr : attempt luck.root (·.createDirAll (opfsDir root)) fs with
  | none => simp [hr] at hpath
  | some fs₁ =>
    simp only [hr, Prod.mk.injEq] at hpath
    obtain ⟨hp, rfl⟩ := hpath
    exact ⟨pushAll_eq hp, FileTree.createDirAll_spec (attempt_some hr).2⟩

theorem opfsPath_none (rel : List String) (hpath : opfsPath root luck rel fs = (none, fs')) :
    ∀ q, fs'.file q = fs.file q := by
  unfold opfsPath opfsRootDir at hpath
  cases hr : attempt luck.root (·.createDirAll (opfsDir root)) fs with
  | none =>
    simp only [hr, Prod.mk.injEq, true_and] at hpath
    subst hpath
    exact fun _ => rfl
  | some fs₁ =>
    simp only [hr, Prod.mk.injEq] at hpath
    obtain ⟨-, rfl⟩ := hpath
    exact (FileTree.createDirAll_spec (attempt_some hr).2).1

theorem Unshared.mkdirs {p : Path} (hpath : path ≠ []) (hp : p <+: path)
    (h : Unshared fs luck path) (hfiles : ∀ q, fs'.file q = fs.file q)
    (hnodes : ∀ q, ¬ q <+: p → fs'.node q = fs.node q)
    (hdir : p = path → luck.write = true → luck.remove = true) : Unshared fs' luck path := by
  intro hluck hnodir
  have htmp := hnodes (tmpPath path) (tmpPath_off hpath hp)
  rw [FileTree.isDir, htmp] at hnodir
  obtain ⟨hfree, hgoes⟩ := h hluck hnodir
  refine ⟨(hfiles _).trans hfree, ?_⟩
  rcases hgoes with hgoes | ⟨hren, hno⟩
  · exact .inl hgoes
  · by_cases heq : p = path
    · exact .inl (hdir heq hluck)
    · have hoff : ¬ path <+: p := fun hpre => heq (hp.eq_of_length_le hpre.length_le)
      exact .inr ⟨hren, by rwa [FileTree.isDir, hnodes path hoff]⟩

theorem fileCreate_file {rel : List String} {ok : Bool}
    (hrun : fileCreate root luck rel fs = (ok, fs')) (q : Path) :
    fs'.file q = if ok = true ∧ q = opfsDir root ++ rel ∧ fs.file q = none then some []
      else fs.file q := by
  unfold fileCreate at hrun
  rcases hp : opfsPath root luck rel fs with ⟨_ | path, fs₁⟩
  · simp only [hp, Prod.mk.injEq] at hrun
    obtain ⟨rfl, rfl⟩ := hrun
    simpa using opfsPath_none rel hp q
  · obtain ⟨rfl, hfiles, -⟩ := opfsPath_spec rel hp
    simp only [hp] at hrun
    split_ifs at hrun with hthere
    · obtain ⟨hok, rfl⟩ := Prod.mk.inj hrun
      rw [hfiles, if_neg]
      rintro ⟨hok', rfl, hnone⟩
      rw [← hok, FileTree.isFile, hfiles, hnone] at hok'
      exact absurd hok' (by simp)
    · have habsent : fs.file (opfsDir root ++ rel) = none := by
        rw [← hfiles, FileTree.file, Option.not_isSome_iff_eq_none.mp hthere]
      cases hm : attempt luck.mkdir (·.createDirAll (opfsDir root ++ rel).dropLast) fs₁ with
      | none =>
        simp only [hm, Prod.mk.injEq] at hrun
        obtain ⟨rfl, rfl⟩ := hrun
        simpa using hfiles q
      | some fs₂ =>
        have hfiles₂ := (FileTree.createDirAll_spec (attempt_some hm).2).1
        cases hc : attempt luck.create (·.write (opfsDir root ++ rel) []) fs₂ with
        | none =>
          simp only [hm, hc, Prod.mk.injEq] at hrun
          obtain ⟨rfl, rfl⟩ := hrun
          simpa using (hfiles₂ q).trans (hfiles q)
        | some fs₃ =>
          simp only [hm, hc, Prod.mk.injEq] at hrun
          obtain ⟨rfl, rfl⟩ := hrun
          rw [FileTree.file_write (opfsDir_ne_nil root rel) (attempt_some hc).2, hfiles₂, hfiles]
          by_cases hq : q = opfsDir root ++ rel
          · simp [hq, habsent]
          · simp [hq]

theorem fileWriteAll_file {rel : List String} {bytes : Bytes} {ok : Bool}
    (hclear : UnsharedAt root fs luck rel)
    (hrun : fileWriteAll root luck rel bytes fs = (ok, fs')) (q : Path) :
    fs'.file q = if ok = true ∧ q = opfsDir root ++ rel then some bytes else fs.file q := by
  unfold fileWriteAll at hrun
  rcases hp : opfsPath root luck rel fs with ⟨_ | path, fs₁⟩
  · simp only [hp, Prod.mk.injEq] at hrun
    obtain ⟨rfl, rfl⟩ := hrun
    simpa using opfsPath_none rel hp q
  · obtain ⟨rfl, hfiles, hnodes⟩ := opfsPath_spec rel hp
    have hne := opfsDir_ne_nil root rel
    have hclear₁ : Unshared fs₁ luck (opfsDir root ++ rel) :=
      hclear.1.mkdirs hne (List.prefix_append _ _) hfiles hnodes
        fun heq => hclear.2 (List.append_right_eq_self.mp heq.symm)
    simp only [hp] at hrun
    cases hm : attempt luck.mkdir (·.createDirAll (opfsDir root ++ rel).dropLast) fs₁ with
    | none =>
      simp only [hm, Prod.mk.injEq] at hrun
      obtain ⟨rfl, rfl⟩ := hrun
      simpa using hfiles q
    | some fs₂ =>
      obtain ⟨hfiles₂, hnodes₂⟩ := FileTree.createDirAll_spec (attempt_some hm).2
      simp only [hm] at hrun
      have hclear₂ := hclear₁.mkdirs hne (List.dropLast_prefix _) hfiles₂ hnodes₂
        fun heq => absurd heq (dropLast_ne hne)
      rw [atomicWrite_file hne hclear₂ hrun, hfiles₂, hfiles]

theorem fileTruncate_file {rel : List String} {newLen : ℕ} {ok : Bool}
    (hclear : UnsharedAt root fs luck rel)
    (hrun : fileTruncate root luck rel newLen fs = (ok, fs')) (q : Path) :
    fs'.file q = if ok = true ∧ q = opfsDir root ++ rel then
        some (resize newLen ((fs.file (opfsDir root ++ rel)).getD []))
      else fs.file q := by
  unfold fileTruncate at hrun
  rcases hp : opfsPath root luck rel fs with ⟨_ | path, fs₁⟩
  · simp only [hp, Prod.mk.injEq] at hrun
    obtain ⟨rfl, rfl⟩ := hrun
    simpa using opfsPath_none rel hp q
  · obtain ⟨rfl, hfiles, hnodes⟩ := opfsPath_spec rel hp
    have hne := opfsDir_ne_nil root rel
    have hclear₁ : Unshared fs₁ luck (opfsDir root ++ rel) :=
      hclear.1.mkdirs hne (List.prefix_append _ _) hfiles hnodes
        fun heq => hclear.2 (List.append_right_eq_self.mp heq.symm)
    simp only [hp] at hrun
    rw [atomicWrite_file hne hclear₁ hrun, hfiles, hfiles]

theorem removeEntry_file {parent : List String} {name : String} {recursive ok : Bool}
    (hrun : removeEntry root luck parent name recursive fs = (ok, fs')) (q : Path) :
    fs'.file q = if ok = true ∧
        (if recursive = true ∧ fs.file (opfsDir root ++ (parent ++ [name])) = none then
          opfsDir root ++ (parent ++ [name]) <+: q
        else q = opfsDir root ++ (parent ++ [name])) then none else fs.file q := by
  unfold removeEntry at hrun
  split_ifs at hrun with hvalid
  · obtain ⟨rfl, rfl⟩ := Prod.mk.inj hrun
    simp
  rcases hp : opfsPath root luck (parent ++ [name]) fs with ⟨_ | path, fs₁⟩
  · simp only [hp, Prod.mk.injEq] at hrun
    obtain ⟨rfl, rfl⟩ := hrun
    simpa using opfsPath_none _ hp q
  obtain ⟨rfl, hfiles, -⟩ := opfsPath_spec _ hp
  cases hr : removeAt luck (opfsDir root ++ (parent ++ [name])) recursive fs₁ with
  | none =>
    simp only [hp, hr, Prod.mk.injEq] at hrun
    obtain ⟨rfl, rfl⟩ := hrun
    simpa using hfiles q
  | some fs₂ =>
    simp only [hp, hr, Prod.mk.injEq] at hrun
    obtain ⟨rfl, rfl⟩ := hrun
    unfold removeAt at hr
    split_ifs at hr with hdir hrec hfile
    · have hnone := FileTree.file_of_isDir hdir
      rw [hfiles] at hnone
      rw [(FileTree.file_removeDirAll (attempt_some hr).2 q).2, hfiles]
      simp [hrec, hnone]
    · have hnone := FileTree.file_of_isDir hdir
      rw [hfiles] at hnone
      rw [(FileTree.file_removeDir (attempt_some hr).2 q).2, hfiles]
      by_cases hq : q = opfsDir root ++ (parent ++ [name])
      · simp [hq, hnone]
      · simp [hq, hrec]
    · rw [(FileTree.file_removeFile (attempt_some hr).2 q).2, hfiles]
      have hsome : fs.file (opfsDir root ++ (parent ++ [name])) ≠ none := by
        rw [← hfiles]
        exact Option.isSome_iff_ne_none.mp hfile
      simp [hsome]

/-! ### Runs -/

/-- A clear call does to the files what it intends, or nothing when it reports failure. -/
theorem run_files {c : Call} (hclear : Clear root fs luck c) :
    (filesIn root (c.run root luck fs).2 =
      if (c.run root luck fs).1 then c.intended (filesIn root fs) else filesIn root fs) ∧
    ∀ q, ¬ opfsDir root <+: q → (c.run root luck fs).2.file q = fs.file q := by
  rcases hrun : c.run root luck fs with ⟨ok, fs'⟩
  have hcancel : ∀ r rel : List String, opfsDir root ++ r = opfsDir root ++ rel ↔ r = rel :=
    fun r rel => List.append_right_inj _
  have hout : ∀ q rel : List String, ¬ opfsDir root <+: q → q ≠ opfsDir root ++ rel :=
    fun q rel hq heq => hq (heq ▸ List.prefix_append _ _)
  cases c with
  | create rel =>
    have h := fileCreate_file hrun
    refine ⟨?_, fun q hq => by rw [h, if_neg fun hc => hout q rel hq hc.2.1]⟩
    funext r
    simp only [filesIn_apply, h, hcancel, Call.intended]
    cases ok with
    | false => simp
    | true =>
      by_cases hr : r = rel
      · subst hr
        by_cases hn : fs.file (opfsDir root ++ r) = none <;> simp [hn]
      · by_cases hn : fs.file (opfsDir root ++ rel) = none <;> simp [hr, hn]
  | write rel bytes =>
    have h := fileWriteAll_file hclear hrun
    refine ⟨?_, fun q hq => by rw [h, if_neg fun hc => hout q rel hq hc.2]⟩
    funext r
    simp only [filesIn_apply, h, hcancel, Call.intended]
    cases ok <;> simp [Function.update_apply]
  | truncate rel newLen =>
    have h := fileTruncate_file hclear hrun
    refine ⟨?_, fun q hq => by rw [h, if_neg fun hc => hout q rel hq hc.2]⟩
    funext r
    simp only [filesIn_apply, h, hcancel, Call.intended]
    cases ok <;> simp [Function.update_apply]
  | remove parent name recursive =>
    have h := removeEntry_file hrun
    have hpre : ∀ r : List String, opfsDir root ++ (parent ++ [name]) <+: opfsDir root ++ r ↔
        parent ++ [name] <+: r := fun r => List.prefix_append_right_inj _
    constructor
    · funext r
      simp only [filesIn_apply, h, hcancel, hpre]
      cases ok with
      | false => simp
      | true =>
        by_cases hc : recursive = true ∧ fs.file (opfsDir root ++ (parent ++ [name])) = none
        · have hall : (Call.remove parent name recursive).intended (filesIn root fs) =
              fun rel => if parent ++ [name] <+: rel then none else filesIn root fs rel :=
            if_pos hc
          rw [if_pos rfl, hall]
          simp only [hc, true_and, if_true, filesIn_apply]
        · have hone : (Call.remove parent name recursive).intended (filesIn root fs) =
              Function.update (filesIn root fs) (parent ++ [name]) none := if_neg hc
          rw [if_pos rfl, hone]
          simp only [if_neg hc, true_and, Function.update_apply, filesIn_apply]
    · intro q hq
      rw [h, if_neg]
      rintro ⟨-, hc⟩
      split_ifs at hc with hrec
      · exact hq ((List.prefix_append _ _).trans hc)
      · exact hout q _ hq hc

/-- In a run of clear calls the tree holds the intended contents below the origin's
directory and is as it was outside of it. -/
theorem Reaches.files {fs₀ : FileTree} {files : Files}
    (h : Reaches (Clear root) root fs₀ fs files) :
    filesIn root fs = files ∧ ∀ q, ¬ opfsDir root <+: q → fs.file q = fs₀.file q := by
  induction h with
  | start => exact ⟨rfl, fun _ _ => rfl⟩
  | call luck c _ hclear ih =>
    obtain ⟨hfiles, hout⟩ := run_files hclear
    exact ⟨by rw [hfiles, ih.1], fun q hq => (hout q hq).trans (ih.2 q hq)⟩

/-- A call intends nothing for a path it is no operation on. -/
theorem intended_of_not_concerns {c : Call} {files : Files} {rel : List String}
    (h : ¬ c.Concerns rel) : c.intended files rel = files rel := by
  cases c with
  | create r =>
    have hne : rel ≠ r := h
    simp only [Call.intended]
    split_ifs
    · rw [Function.update_of_ne hne]
    · rfl
  | write r bytes => exact Function.update_of_ne (show rel ≠ r from h) _ _
  | truncate r newLen => exact Function.update_of_ne (show rel ≠ r from h) _ _
  | remove parent name recursive =>
    cases recursive with
    | false =>
      have hne : rel ≠ parent ++ [name] := h
      simp [Call.intended, hne]
    | true =>
      have hoff : ¬ parent ++ [name] <+: rel := h
      have hne : rel ≠ parent ++ [name] := fun heq => hoff (heq ▸ List.prefix_rfl)
      simp only [Call.intended]
      split_ifs
      · simp [hoff]
      · rw [Function.update_of_ne hne]

theorem fileRead_eq (luck : Luck) (rel : List String)
    (h : (opfsPath root luck rel fs).1.isSome = true) :
    (fileRead root luck rel fs).1 = filesIn root fs rel := by
  rcases hp : opfsPath root luck rel fs with ⟨_ | path, fs₁⟩
  · simp [hp] at h
  · obtain ⟨rfl, hfiles, -⟩ := opfsPath_spec rel hp
    simp only [fileRead, hp, hfiles, filesIn]

/-- In every run of clear calls: a read of a path gives the contents last intended for
it, the next clear call leaves every path alone that it is no operation on and all of
them when it reports failure, accepted components lead below the origin's directory, and
the files outside of it stay as they were. -/
theorem opfs_independent {fs₀ : FileTree} {files : Files}
    (h : Reaches (Clear root) root fs₀ fs files) :
    (∀ luck rel, (opfsPath root luck rel fs).1.isSome = true →
      (fileRead root luck rel fs).1 = files rel) ∧
    (∀ luck c, Clear root fs luck c →
      (∀ rel, ¬ c.Concerns rel → filesIn root (c.run root luck fs).2 rel = files rel) ∧
      ((c.run root luck fs).1 = false → filesIn root (c.run root luck fs).2 = files)) ∧
    (∀ luck rel path, (opfsPath root luck rel fs).1 = some path → path = opfsDir root ++ rel) ∧
    ∀ q, ¬ opfsDir root <+: q → fs.file q = fs₀.file q := by
  obtain ⟨hfiles, hout⟩ := h.files
  refine ⟨?_, ?_, ?_, hout⟩
  · intro luck rel hp
    rw [fileRead_eq luck rel hp, hfiles]
  · intro luck c hclear
    have hrun := (run_files hclear).1
    rw [hfiles] at hrun
    constructor
    · intro rel hrel
      rw [hrun]
      split_ifs
      · exact intended_of_not_concerns hrel
      · rfl
    · intro hfail
      rw [hrun, hfail]
      rfl
  · intro luck rel path hp
    exact (opfsPath_spec rel (Prod.ext hp rfl)).1

def allGo : Luck := ⟨true, true, true, true, true, true⟩

/-- Two files are written, and a third call takes one of them away. -/
theorem opfs_independent_sample :
    let fs₁ := ((Call.write ["a"] [7]).run ["c"] allGo []).2
    let fs₂ := ((Call.write ["b"] [8, 9]).run ["c"] allGo fs₁).2
    let fs₃ := ((Call.remove [] "b" false).run ["c"] allGo fs₂).2
    (fileRead ["c"] allGo ["a"] fs₃).1 = some [7] ∧ (fileRead ["c"] allGo ["b"] fs₃).1 = none := by
  intro fs₁ fs₂ fs₃
  have hclear₁ : Clear ["c"] [] allGo (.write ["a"] [7]) :=
    ⟨fun _ _ => ⟨by decide +kernel, .inl rfl⟩, fun h => absurd h (by decide)⟩
  have hclear₂ : Clear ["c"] fs₁ allGo (.write ["b"] [8, 9]) :=
    ⟨fun _ _ => ⟨by decide +kernel, .inl rfl⟩, fun h => absurd h (by decide)⟩
  have hrun := ((Reaches.start.call allGo _ hclear₁).call allGo _ hclear₂).call allGo
    (.remove [] "b" false) trivial
  have hok₁ : ((Call.write ["a"] [7]).run ["c"] allGo []).1 = true := by decide +kernel
  have hok₂ : ((Call.write ["b"] [8, 9]).run ["c"] allGo fs₁).1 = true := by decide +kernel
  have hok₃ : ((Call.remove [] "b" false).run ["c"] allGo fs₂).1 = true := by decide +kernel
  rw [hok₁, hok₂, hok₃] at hrun
  have hread := (opfs_independent hrun).1 allGo
  exact ⟨hread ["a"] (by decide +kernel), hread ["b"] (by decide +kernel)⟩

/-- Writing `a` takes the user's own file `a.tmp` along. -/
theorem opfs_dependent : ¬ ∀ (root : Path) (fs₀ fs : FileTree) (files : Files),
    Reaches (fun _ _ _ => True) root fs₀ fs files →
    ∀ luck rel, (opfsPath root luck rel fs).1.isSome = true →
      (fileRead root luck rel fs).1 = files rel := by
  intro h
  have hstart : Reaches (fun _ _ _ => True) ["c"] [] [] (filesIn ["c"] []) := .start
  have hrun := (hstart.call allGo (.write ["a.tmp"] [1]) trivial).call allGo
    (.write ["a"] [2]) trivial
  have hread := h _ _ _ _ hrun allGo ["a.tmp"] (by decide +kernel)
  exact absurd hread (by decide +kernel)

end Conclave.Browser.Opfs
