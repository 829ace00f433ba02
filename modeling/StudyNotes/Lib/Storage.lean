/-
# Files created one by one

A storage as the calls of `java.io.File` see it: what is at a path, a new file in a
directory that is there, and a directory with all that are missing above it.
-/

import StudyNotes.Lib.FileTree

namespace StudyNotes.FileTree

open StudyNotes.Text

structure Storage where
  files : Path → Option (List UInt8)
  dirs : Path → Bool

namespace Storage

variable (storage : Storage)

/-- `exists()`. -/
def isThere (path : Path) : Bool := storage.dirs path || (storage.files path).isSome

/-- The content of a file. -/
def overwrite (path : Path) (bytes : List UInt8) : Storage :=
  { storage with files := fun p => if p = path then some bytes else storage.files p }

/-- `createNewFile()` where nothing is.  It needs the directory the file is in. -/
def createNewFile (path : Path) : Option Storage :=
  if storage.dirs path.dropLast then some (storage.overwrite path []) else none

/-- `mkdirs()`, which does nothing below a file. -/
def mkdirs (path : Path) : Storage :=
  if path.inits.any fun p => (storage.files p).isSome then storage
  else { storage with dirs := fun p => storage.dirs p || decide (p <+: path) }

/-- A directory with nothing in it. -/
structure EmptyAt (dir : Path) : Prop where
  isDir : storage.dirs dir = true
  noFileAbove : ∀ p, p <+: dir → storage.files p = none
  noFileBelow : ∀ p, dir <+: p → storage.files p = none
  noDirBelow : ∀ p, dir <+: p → p ≠ dir → storage.dirs p = false

variable {storage} {path p : Path} {bytes : List UInt8}

@[simp] theorem files_overwrite_self : (storage.overwrite path bytes).files path = some bytes :=
  if_pos rfl

theorem files_overwrite_of_ne (h : p ≠ path) :
    (storage.overwrite path bytes).files p = storage.files p :=
  if_neg h

@[simp] theorem dirs_overwrite : (storage.overwrite path bytes).dirs = storage.dirs := rfl

@[simp] theorem overwrite_overwrite (bytes' : List UInt8) :
    (storage.overwrite path bytes).overwrite path bytes' = storage.overwrite path bytes' := by
  unfold overwrite
  congr 1
  funext p
  split
  · rfl
  · exact files_overwrite_of_ne ‹_›

@[simp] theorem files_mkdirs : (storage.mkdirs path).files = storage.files := by
  unfold mkdirs
  split
  · rfl
  · rfl

theorem dirs_mkdirs (h : ∀ p, p <+: path → storage.files p = none) :
    (storage.mkdirs path).dirs p = (storage.dirs p || decide (p <+: path)) := by
  have hfree : ¬ (path.inits.any fun p => (storage.files p).isSome) = true := by
    rw [List.any_eq_true]
    rintro ⟨p, hp, hsome⟩
    rw [h p (List.mem_inits _ _ |>.1 hp)] at hsome
    cases hsome
  rw [mkdirs, if_neg hfree]

/-! ## Where nothing is -/

theorem files_eq_none_of_not_isThere (h : storage.isThere path = false) :
    storage.files path = none := by
  rw [isThere, Bool.or_eq_false_iff] at h
  simpa using h.2

theorem isThere_overwrite_of_ne (h : p ≠ path) :
    (storage.overwrite path bytes).isThere p = storage.isThere p := by
  rw [isThere, files_overwrite_of_ne h, dirs_overwrite, isThere]

/-- A new file comes to the others. -/
theorem files_overwrite_eq_some_iff (h : storage.files path = none) {content : List UInt8} :
    (storage.overwrite path bytes).files p = some content ↔
      storage.files p = some content ∨ p = path ∧ content = bytes := by
  by_cases heq : p = path
  · subst heq
    rw [files_overwrite_self, h]
    simp [eq_comm]
  · rw [files_overwrite_of_ne heq]
    simp [heq]

namespace EmptyAt

variable {dir : Path} (h : storage.EmptyAt dir)
include h

theorem isThere_below (hbelow : dir <+: p) (hne : p ≠ dir) : storage.isThere p = false := by
  rw [isThere, h.noDirBelow p hbelow hne, h.noFileBelow p hbelow]
  rfl

/-- No file is in the way of a path below the directory. -/
theorem noFileOnWay (hbelow : dir <+: path) (hp : p <+: path) : storage.files p = none := by
  rcases List.prefix_or_prefix_of_prefix hp hbelow with habove | hunder
  · exact h.noFileAbove p habove
  · exact h.noFileBelow p hunder

/-- A directory made below it is empty too. -/
theorem isThere_mkdirs (hbelow : dir <+: path) {name : List Char} :
    (storage.mkdirs path).isThere (path ++ [name]) = false := by
  have hdeep : dir <+: path ++ [name] := hbelow.trans (List.prefix_append _ _)
  have hlonger : ¬ path ++ [name] <+: path := by
    intro hle
    have hlength := hle.length_le
    rw [List.length_append, List.length_singleton] at hlength
    omega
  have hne : path ++ [name] ≠ dir := by
    rintro rfl
    exact hlonger hbelow
  rw [isThere, dirs_mkdirs fun p => h.noFileOnWay hbelow, files_mkdirs,
    h.noFileBelow _ hdeep, h.noDirBelow _ hdeep hne, decide_eq_false hlonger]
  rfl

end EmptyAt

end Storage

end StudyNotes.FileTree
