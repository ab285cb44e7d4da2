import Conclave.Lib.FileTree

/-! The origin-private file system: handles are lists of component names under one
directory, every write goes to a sibling name first and is renamed over the file. -/

namespace Conclave.Browser.Opfs

open Lib

def forbidden : List Char := ['/', '\\', '\x00', ':', '*', '?', '\"', '<', '>', '|']

def validateComponent (name : String) : Option String :=
  if name = "" ∨ name = "." ∨ name = ".." then none
  else if name.toList.any (· ∈ forbidden) then none
  else some name

/-! ### Paths -/

def isSeparator (c : Char) : Bool := c = '/' ∨ c = '\\'

/-- A rooted component, or one that names a drive, replaces what stands before it. -/
def isAbsolute (comp : List Char) : Bool := comp.head?.any isSeparator ∨ ':' ∈ comp

def enter (p : Path) (part : List Char) : Path :=
  if part = [] ∨ part = ['.'] then p
  else if part = ['.', '.'] then p.dropLast
  else p ++ [String.ofList part]

/-- Where a path leads after a component is pushed on it, whatever the component is. -/
def push (p : Path) (comp : String) : Path :=
  (comp.toList.splitOnP isSeparator).foldl enter (if isAbsolute comp.toList then [] else p)

/-- Which system calls of one operation go through. The others fail and change nothing. -/
structure Luck where
  root : Bool
  mkdir : Bool
  create : Bool
  write : Bool
  rename : Bool
  remove : Bool
  deriving DecidableEq, Repr

def attempt (luck : Bool) (call : FileTree → Option FileTree) (fs : FileTree) : Option FileTree :=
  if luck then call fs else none

def opfsDir (root : Path) : Path := root ++ ["opfs"]

/-- None when the profile directory is unknown or the directory cannot be made. -/
def opfsRootDir (root : Path) (luck : Luck) (fs : FileTree) : Option Path × FileTree :=
  match attempt luck.root (·.createDirAll (opfsDir root)) fs with
  | some fs => (some (opfsDir root), fs)
  | none => (none, fs)

def pushAll (p : Path) (rel : List String) : Option Path :=
  rel.foldlM (fun p comp => (validateComponent comp).map (push p)) p

def opfsPath (root : Path) (luck : Luck) (rel : List String) (fs : FileTree) :
    Option Path × FileTree :=
  match opfsRootDir root luck fs with
  | (some p, fs) => (pushAll p rel, fs)
  | (none, fs) => (none, fs)

/-! ### File operations -/

/-- The sibling that a write goes to first. -/
def tmpPath (path : Path) : Path := path.dropLast ++ [path.getLastD "" ++ ".tmp"]

def atomicWrite (luck : Luck) (path : Path) (bytes : Bytes) (fs : FileTree) : Bool × FileTree :=
  match attempt luck.write (·.write (tmpPath path) bytes) fs with
  | none => (false, fs)
  | some fs =>
    match attempt luck.rename (·.rename (tmpPath path) path) fs with
    | some fs => (true, fs)
    | none => (false, (attempt luck.remove (·.removeFile (tmpPath path)) fs).getD fs)

def fileCreate (root : Path) (luck : Luck) (rel : List String) (fs : FileTree) :
    Bool × FileTree :=
  match opfsPath root luck rel fs with
  | (none, fs) => (false, fs)
  | (some path, fs) =>
    if (fs.node path).isSome then (fs.isFile path, fs)
    else
      match attempt luck.mkdir (·.createDirAll path.dropLast) fs with
      | none => (false, fs)
      | some fs =>
        match attempt luck.create (·.write path []) fs with
        | none => (false, fs)
        | some fs => (true, fs)

def fileRead (root : Path) (luck : Luck) (rel : List String) (fs : FileTree) :
    Option Bytes × FileTree :=
  match opfsPath root luck rel fs with
  | (none, fs) => (none, fs)
  | (some path, fs) => (fs.file path, fs)

def fileWriteAll (root : Path) (luck : Luck) (rel : List String) (bytes : Bytes)
    (fs : FileTree) : Bool × FileTree :=
  match opfsPath root luck rel fs with
  | (none, fs) => (false, fs)
  | (some path, fs) =>
    match attempt luck.mkdir (·.createDirAll path.dropLast) fs with
    | none => (false, fs)
    | some fs => atomicWrite luck path bytes fs

/-- Cut or extended with zero bytes. -/
def resize (n : ℕ) (data : Bytes) : Bytes :=
  if n < data.length then data.take n else data ++ List.replicate (n - data.length) 0

def fileTruncate (root : Path) (luck : Luck) (rel : List String) (newLen : ℕ)
    (fs : FileTree) : Bool × FileTree :=
  match opfsPath root luck rel fs with
  | (none, fs) => (false, fs)
  | (some path, fs) => atomicWrite luck path (resize newLen ((fs.file path).getD [])) fs

/-- The removal that fits what stands at the path. -/
def removeAt (luck : Luck) (path : Path) (recursive : Bool) (fs : FileTree) : Option FileTree :=
  if fs.isDir path then
    if recursive then attempt luck.remove (·.removeDirAll path) fs
    else attempt luck.remove (·.removeDir path) fs
  else if fs.isFile path then attempt luck.remove (·.removeFile path) fs
  else none

def removeEntry (root : Path) (luck : Luck) (parent : List String) (name : String)
    (recursive : Bool) (fs : FileTree) : Bool × FileTree :=
  if validateComponent name = none then (false, fs)
  else
    match opfsPath root luck (parent ++ [name]) fs with
    | (none, fs) => (false, fs)
    | (some path, fs) =>
      match removeAt luck path recursive fs with
      | some fs => (true, fs)
      | none => (false, fs)

/-! ### Calls -/

inductive Call where
  | create (rel : List String)
  | write (rel : List String) (bytes : Bytes)
  | truncate (rel : List String) (newLen : ℕ)
  | remove (parent : List String) (name : String) (recursive : Bool)
  deriving DecidableEq, Repr

def Call.run (root : Path) (luck : Luck) : Call → FileTree → Bool × FileTree
  | create rel => fileCreate root luck rel
  | write rel bytes => fileWriteAll root luck rel bytes
  | truncate rel newLen => fileTruncate root luck rel newLen
  | remove parent name recursive => removeEntry root luck parent name recursive

def Call.path : Call → List String
  | create rel => rel
  | write rel _ => rel
  | truncate rel _ => rel
  | remove parent name _ => parent ++ [name]

/-! ### What a component can name -/

theorem validateComponent_some {name name' : String} (h : validateComponent name = some name') :
    name' = name ∧ name ≠ "" ∧ name ≠ "." ∧ name ≠ ".." ∧ ∀ c ∈ name.toList, c ∉ forbidden := by
  unfold validateComponent at h
  split_ifs at h with hdots hany
  obtain ⟨h₁, h₂, h₃⟩ := not_or.mp hdots |>.imp_right not_or.mp
  exact ⟨(Option.some.inj h).symm, h₁, h₂, h₃, by simpa using hany⟩

/-- An accepted component is one name below the path, wherever the path leads. -/
theorem push_valid {name name' : String} (h : validateComponent name = some name') (p : Path) :
    push p name' = p ++ [name'] := by
  obtain ⟨rfl, hempty, hdot, hdots, hchars⟩ := validateComponent_some h
  have hsep : ∀ c ∈ name'.toList, ¬ isSeparator c = true := by
    intro c hc hs
    refine hchars c hc ?_
    rcases (by simpa [isSeparator] using hs : c = '/' ∨ c = '\\') with rfl | rfl <;> decide
  have hcolon : ':' ∉ name'.toList := fun hc => hchars ':' hc (by decide)
  have habs : isAbsolute name'.toList = false := by
    cases hl : name'.toList with
    | nil => simp [isAbsolute]
    | cons c cs =>
      rw [hl] at hsep hcolon
      have hc := hsep c List.mem_cons_self
      simpa [isAbsolute, hc] using hcolon
  have hlist : ∀ s : String, name' ≠ s → name'.toList ≠ s.toList := fun s hs heq =>
    hs (String.toList_inj.mp heq)
  have hne : name'.toList ≠ [] := hlist "" hempty
  have h₁ : name'.toList ≠ ['.'] := hlist "." hdot
  have h₂ : name'.toList ≠ ['.', '.'] := hlist ".." hdots
  rw [push, habs, List.splitOnP_eq_singleton (by simpa using hsep)]
  simp [enter, hne, h₁, h₂]

theorem pushAll_eq {p path : Path} {rel : List String} (h : pushAll p rel = some path) :
    path = p ++ rel := by
  induction rel generalizing p with
  | nil =>
    obtain rfl := Option.some.inj h
    exact (List.append_nil p).symm
  | cons comp rel ih =>
    rw [pushAll, List.foldlM_cons] at h
    cases hv : validateComponent comp with
    | none => simp [hv] at h
    | some name =>
      simp only [hv, Option.map_some, Option.bind_eq_bind, Option.bind_some] at h
      rw [ih h, push_valid hv, (validateComponent_some hv).1, List.append_assoc,
        List.singleton_append]

end Conclave.Browser.Opfs
