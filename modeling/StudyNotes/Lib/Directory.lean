/-
# Writing into a directory that is not empty

The contents of a directory are its files and its directories by their paths.  A file
cannot be written where a directory is, nor below a file.  Writing a list of files ends
with exactly these files, whatever was there before, under three conditions: the new
files do not stand in each other's way, each old file is overwritten, and no new file
has the place of an old directory.
-/

import StudyNotes.Lib.FileTree

namespace StudyNotes.FileTree

open StudyNotes.Text

/-- The files and the directories below a directory. -/
structure Contents where
  files : Files
  dirs : List Path

namespace Contents

/-- Writing a file, with the directories on the way to it created. -/
def write (contents : Contents) (path : Path) (bytes : List UInt8) : Option Contents :=
  if contents.dirs.any (path <+: ·) then none
  else (contents.files.write path bytes).map fun files => { contents with files := files }

/-- Writing several files. -/
def writeAll (contents : Contents) (new : Files) : Option Contents :=
  new.foldlM (fun contents f => contents.write f.1 f.2) contents

/-- There is a file with this path. -/
def HasFile (contents : Contents) (path : Path) : Prop := ∃ bytes, (path, bytes) ∈ contents.files

/-- The paths of the files. -/
def paths (contents : Contents) : List Path := contents.files.map Prod.fst

/-- Two files can both be there, or are one and the same. -/
def Compatible (f g : Path × List UInt8) : Prop := Apart f.1 g.1 ∨ f = g

theorem Compatible.symm {f g : Path × List UInt8} (h : Compatible f g) : Compatible g f :=
  h.imp Apart.symm Eq.symm

section Write

variable {contents contents' : Contents} {path : Path} {bytes : List UInt8}

/-- What it takes to write a file, and what is there afterwards. -/
theorem write_eq_some_iff :
    contents.write path bytes = some contents' ↔
      (∀ d ∈ contents.dirs, ¬ path <+: d) ∧
        (∀ f ∈ contents.files, Apart f.1 path ∨ f.1 = path) ∧
        contents' = { contents with
          files := contents.files.filter (·.1 ≠ path) ++ [(path, bytes)] } := by
  have hdirs : contents.dirs.any (path <+: ·) = true ↔ ¬ ∀ d ∈ contents.dirs, ¬ path <+: d := by
    simp
  have hfiles : (contents.files.isDirectory path || contents.files.isBlocked path) = true ↔
      ¬ ∀ f ∈ contents.files, Apart f.1 path ∨ f.1 = path := by
    rw [Bool.or_eq_true, Files.isDirectory, Files.isBlocked, List.any_eq_true, List.any_eq_true]
    constructor
    · rintro (⟨f, hf, hbelow⟩ | ⟨f, hf, habove⟩) hall
      · obtain ⟨hle, hne⟩ := of_decide_eq_true hbelow
        exact (hall f hf).elim (fun hapart => hapart.2 hle) (fun heq => hne heq.symm)
      · obtain ⟨hle, hne⟩ := of_decide_eq_true habove
        exact (hall f hf).elim (fun hapart => hapart.1 hle) hne
    · intro hsome
      push Not at hsome
      obtain ⟨f, hf, hapart, hne⟩ := hsome
      by_cases hle : f.1 <+: path
      · exact Or.inr ⟨f, hf, decide_eq_true ⟨hle, hne⟩⟩
      · refine Or.inl ⟨f, hf, decide_eq_true ⟨?_, hne.symm⟩⟩
        by_contra hge
        exact hapart ⟨hle, hge⟩
  rw [write, Files.write]
  by_cases hd : ∀ d ∈ contents.dirs, ¬ path <+: d
  · rw [if_neg (fun h => hdirs.mp h hd)]
    by_cases hf : ∀ f ∈ contents.files, Apart f.1 path ∨ f.1 = path
    · rw [if_neg (fun h => hfiles.mp h hf), Option.map_some, Option.some.injEq]
      exact ⟨fun h => ⟨hd, hf, h.symm⟩, fun h => h.2.2.symm⟩
    · rw [if_pos (hfiles.mpr hf), Option.map_none]
      exact ⟨fun h => (by cases h), fun h => absurd h.2.1 hf⟩
  · rw [if_pos (hdirs.mpr hd)]
    exact ⟨fun h => (by cases h), fun h => absurd h.1 hd⟩

theorem dirs_write (h : contents.write path bytes = some contents') :
    contents'.dirs = contents.dirs := by
  obtain ⟨-, -, rfl⟩ := write_eq_some_iff.mp h
  rfl

/-- The path that is written joins those that are there. -/
theorem mem_paths_write (h : contents.write path bytes = some contents') (other : Path) :
    other ∈ contents'.paths ↔ other ∈ path :: contents.paths := by
  obtain ⟨-, -, rfl⟩ := write_eq_some_iff.mp h
  simp only [paths, List.map_append, List.mem_append, List.mem_map, List.mem_filter,
    List.mem_cons, List.map_cons, List.map_nil]
  constructor
  · rintro (⟨f, ⟨hf, -⟩, rfl⟩ | hpath)
    · exact Or.inr ⟨f, hf, rfl⟩
    · exact Or.inl (by simpa using hpath)
  · rintro (rfl | ⟨f, hf, rfl⟩)
    · exact Or.inr (by simp)
    · by_cases hpath : f.1 = path
      · exact Or.inr (by simpa using hpath)
      · exact Or.inl ⟨f, ⟨hf, decide_eq_true hpath⟩, rfl⟩

/-- A file that was there is overwritten, or stays. -/
theorem mem_or_eq_of_write (h : contents.write path bytes = some contents')
    {f : Path × List UInt8} (hf : f ∈ contents.files) : f ∈ contents'.files ∨ f.1 = path := by
  obtain ⟨-, -, rfl⟩ := write_eq_some_iff.mp h
  by_cases hpath : f.1 = path
  · exact Or.inr hpath
  · refine Or.inl (List.mem_append_left _ (List.mem_filter.mpr ⟨hf, ?_⟩))
    exact decide_eq_true hpath

theorem hasFile_of_write (h : contents.write path bytes = some contents') :
    contents'.HasFile path := by
  obtain ⟨-, -, rfl⟩ := write_eq_some_iff.mp h
  exact ⟨bytes, by simp⟩

theorem HasFile.write {other : Path} (hother : contents.HasFile other)
    (h : contents.write path bytes = some contents') : contents'.HasFile other := by
  obtain ⟨old, hold⟩ := hother
  rcases mem_or_eq_of_write h hold with hmem | rfl
  · exact ⟨old, hmem⟩
  · exact hasFile_of_write h

/-- The file just written is the only one with its path. -/
theorem eq_of_mem_write (h : contents.write path bytes = some contents')
    {f : Path × List UInt8} (hf : f ∈ contents'.files) (hpath : f.1 = path) :
    f = (path, bytes) := by
  obtain ⟨-, -, rfl⟩ := write_eq_some_iff.mp h
  rcases List.mem_append.mp hf with hold | hnew
  · exact absurd hpath (of_decide_eq_true (List.mem_filter.mp hold).2)
  · exact List.mem_singleton.mp hnew

end Write

section WriteAll

variable {contents contents' : Contents} {new : Files}

theorem writeAll_cons {f : Path × List UInt8} :
    contents.writeAll (f :: new) = some contents' ↔
      ∃ contents₁, contents.write f.1 f.2 = some contents₁ ∧
        contents₁.writeAll new = some contents' := by
  rw [writeAll, List.foldlM_cons]
  exact Option.bind_eq_some_iff

/-- No new file has the place of a directory. -/
theorem not_dir_of_writeAll (h : contents.writeAll new = some contents') :
    ∀ d ∈ contents.dirs, ∀ f ∈ new, ¬ f.1 <+: d := by
  induction new generalizing contents with
  | nil => simp
  | cons f new ih =>
      obtain ⟨contents₁, hwrite, hrest⟩ := writeAll_cons.mp h
      intro d hd g hg
      rcases List.mem_cons.mp hg with rfl | hlater
      · exact (write_eq_some_iff.mp hwrite).1 d hd
      · exact ih hrest d (dirs_write hwrite ▸ hd) g hlater

/-- An old file is overwritten, or stays. -/
theorem mem_or_exists_of_writeAll (h : contents.writeAll new = some contents')
    {f : Path × List UInt8} (hf : f ∈ contents.files) :
    f ∈ contents'.files ∨ ∃ g ∈ new, f.1 = g.1 := by
  induction new generalizing contents with
  | nil =>
      obtain rfl := Option.some.inj h
      exact Or.inl hf
  | cons g new ih =>
      obtain ⟨contents₁, hwrite, hrest⟩ := writeAll_cons.mp h
      rcases mem_or_eq_of_write hwrite hf with hmem | hpath
      · rcases ih hrest hmem with hlast | ⟨g', hg', hsame⟩
        · exact Or.inl hlast
        · exact Or.inr ⟨g', List.mem_cons_of_mem _ hg', hsame⟩
      · exact Or.inr ⟨g, List.mem_cons_self, hpath⟩

/-- New files do not go above or below a file that is there. -/
theorem apart_or_eq_of_writeAll (h : contents.writeAll new = some contents') {path : Path}
    (hpath : contents.HasFile path) : ∀ f ∈ new, Apart path f.1 ∨ path = f.1 := by
  induction new generalizing contents with
  | nil => simp
  | cons g new ih =>
      obtain ⟨contents₁, hwrite, hrest⟩ := writeAll_cons.mp h
      intro f hf
      rcases List.mem_cons.mp hf with rfl | hlater
      · obtain ⟨bytes, hmem⟩ := hpath
        exact (write_eq_some_iff.mp hwrite).2.1 _ hmem
      · exact ih hrest (hpath.write hwrite) f hlater

/-- At most one file has a given path once it is true of one stage. -/
theorem unique_of_writeAll (h : contents.writeAll new = some contents') {path : Path}
    (hunique : ∀ f ∈ contents.files, ∀ g ∈ contents.files, f.1 = path → g.1 = path → f = g) :
    ∀ f ∈ contents'.files, ∀ g ∈ contents'.files, f.1 = path → g.1 = path → f = g := by
  induction new generalizing contents with
  | nil =>
      obtain rfl := Option.some.inj h
      exact hunique
  | cons f' new ih =>
      obtain ⟨contents₁, hwrite, hrest⟩ := writeAll_cons.mp h
      apply ih hrest
      intro f hf g hg hfpath hgpath
      by_cases hpath : path = f'.1
      · rw [eq_of_mem_write hwrite hf (hfpath.trans hpath),
          eq_of_mem_write hwrite hg (hgpath.trans hpath)]
      · obtain ⟨-, -, rfl⟩ := write_eq_some_iff.mp hwrite
        have hold : ∀ x ∈ contents.files.filter (·.1 ≠ f'.1) ++ [(f'.1, f'.2)],
            x.1 = path → x ∈ contents.files := by
          intro x hx hxpath
          rcases List.mem_append.mp hx with hmem | hlast
          · exact (List.mem_filter.mp hmem).1
          · rw [List.mem_singleton.mp hlast] at hxpath
            exact absurd hxpath.symm hpath
        exact hunique f (hold f hf hfpath) g (hold g hg hgpath) hfpath hgpath

/-- Files that are all there in the end do not stand in each other's way. -/
theorem pairwise_of_writeAll (h : contents.writeAll new = some contents')
    (hall : ∀ f ∈ new, f ∈ contents'.files) : new.Pairwise Compatible := by
  induction new generalizing contents with
  | nil => exact List.Pairwise.nil
  | cons f new ih =>
      obtain ⟨contents₁, hwrite, hrest⟩ := writeAll_cons.mp h
      rw [List.forall_mem_cons] at hall
      refine List.Pairwise.cons ?_ (ih hrest hall.2)
      intro g hg
      rcases apart_or_eq_of_writeAll hrest (hasFile_of_write hwrite) g hg with hapart | hsame
      · exact Or.inl hapart
      · have hunique : ∀ x ∈ contents₁.files, ∀ y ∈ contents₁.files,
            x.1 = f.1 → y.1 = f.1 → x = y := by
          intro x hx y hy hxpath hypath
          rw [eq_of_mem_write hwrite hx hxpath, eq_of_mem_write hwrite hy hypath]
        exact Or.inr (unique_of_writeAll hrest hunique f hall.1 g (hall.2 g hg) rfl hsame.symm)

/-- Part of the files is written and the rest is to be: every file is a written one or will
be overwritten, and nothing stands in the way. -/
structure Pending (contents : Contents) (done rest : Files) : Prop where
  pairs : (done ++ rest).Pairwise Compatible
  dirs : ∀ d ∈ contents.dirs, ∀ f ∈ rest, ¬ f.1 <+: d
  old : ∀ f ∈ contents.files, f ∈ done ∨ ∃ g ∈ rest, f.1 = g.1
  kept : ∀ f ∈ done, f ∈ contents.files

namespace Pending

variable {done rest : Files} {g : Path × List UInt8}

/-- Every file that is there leaves the next one its place. -/
theorem fits (h : Pending contents done (g :: rest)) :
    ∀ f ∈ contents.files, Apart f.1 g.1 ∨ f.1 = g.1 := by
  obtain ⟨-, hlater, hcross⟩ := List.pairwise_append.mp h.pairs
  intro f hf
  rcases h.old f hf with hmem | ⟨g', hmem, hpath⟩
  · exact (hcross f hmem g List.mem_cons_self).imp_right fun heq => by rw [heq]
  · rcases List.mem_cons.mp hmem with rfl | hrest
    · exact Or.inr hpath
    · rw [hpath]
      exact ((List.pairwise_cons.mp hlater).1 g' hrest).symm.imp_right fun heq => by rw [heq]

/-- The next file is written, and what was written stays. -/
theorem write (h : Pending contents done (g :: rest)) :
    ∃ contents₁, contents.write g.1 g.2 = some contents₁ ∧
      Pending contents₁ (done ++ [g]) rest := by
  obtain ⟨-, -, hcross⟩ := List.pairwise_append.mp h.pairs
  refine ⟨_, write_eq_some_iff.mpr
    ⟨fun d hd => h.dirs d hd g List.mem_cons_self, h.fits, rfl⟩, ?_, ?_, ?_, ?_⟩
  · rw [List.append_assoc]
    exact h.pairs
  · exact fun d hd f hf => h.dirs d hd f (List.mem_cons_of_mem _ hf)
  · intro f hf
    rcases List.mem_append.mp hf with hkept | hnew
    · obtain ⟨hmem, hne⟩ := List.mem_filter.mp hkept
      rcases h.old f hmem with hmem' | ⟨g', hmem', hpath⟩
      · exact Or.inl (List.mem_append_left _ hmem')
      · rcases List.mem_cons.mp hmem' with rfl | hrest
        · exact absurd hpath (of_decide_eq_true hne)
        · exact Or.inr ⟨g', hrest, hpath⟩
    · exact Or.inl (List.mem_append_right _ hnew)
  · intro f hf
    rcases List.mem_append.mp hf with hmem | hnew
    · -- a written file stays, or is written once more with the same content
      by_cases hpath : f.1 = g.1
      · rcases hcross f hmem g List.mem_cons_self with hapart | rfl
        · exact absurd hpath hapart.ne
        · exact List.mem_append_right _ (List.mem_singleton_self _)
      · exact List.mem_append_left _
          (List.mem_filter.mpr ⟨h.kept f hmem, decide_eq_true hpath⟩)
    · exact List.mem_append_right _ hnew

theorem writeAll (h : Pending contents done rest) :
    ∃ contents', contents.writeAll rest = some contents' ∧
      ∀ f, f ∈ contents'.files ↔ f ∈ done ++ rest := by
  induction rest generalizing contents done with
  | nil =>
      refine ⟨contents, rfl, fun f => ?_⟩
      rw [List.append_nil]
      exact ⟨fun hf => (h.old f hf).elim id (by simp), h.kept f⟩
  | cons g rest ih =>
      obtain ⟨contents₁, hwrite, hpending⟩ := h.write
      obtain ⟨contents', hrest, hfiles⟩ := ih hpending
      rw [List.append_assoc] at hfiles
      exact ⟨contents', writeAll_cons.mpr ⟨contents₁, hwrite, hrest⟩, hfiles⟩

end Pending

/-- Writing a list of files ends with exactly these files under three conditions. -/
theorem exists_writeAll_iff :
    (∃ contents', contents.writeAll new = some contents' ∧
      ∀ f, f ∈ contents'.files ↔ f ∈ new) ↔
      new.Pairwise Compatible ∧ (∀ f ∈ contents.files, ∃ g ∈ new, f.1 = g.1) ∧
        ∀ d ∈ contents.dirs, ∀ f ∈ new, ¬ f.1 <+: d := by
  constructor
  · rintro ⟨contents', hwrite, hfiles⟩
    refine ⟨pairwise_of_writeAll hwrite fun f hf => (hfiles f).mpr hf, ?_,
      not_dir_of_writeAll hwrite⟩
    intro f hf
    rcases mem_or_exists_of_writeAll hwrite hf with hmem | hover
    · exact ⟨f, (hfiles f).mp hmem, rfl⟩
    · exact hover
  · rintro ⟨hpairs, hold, hdirs⟩
    have hpending : Pending contents [] new :=
      ⟨hpairs, hdirs, fun f hf => Or.inr (hold f hf), by simp⟩
    exact hpending.writeAll

end WriteAll

end Contents

end StudyNotes.FileTree
