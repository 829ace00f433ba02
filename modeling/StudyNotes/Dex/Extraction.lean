/-
# Where `unZip` writes and what it leaves behind

Two questions about `unZip(zip, dir)` on archives and directories it has not made itself, on
every platform of `java.io.File`.

Names are joined to the directory without a check, so a file may be written outside of it.
It stays inside exactly when every name that is opened, however it climbs, leads back into
the directory.

`dir.delete()` is meant to clear the directory but only removes an empty one.  The files
afterwards are those of the archive exactly when every name can be opened, the entries do not
stand in each other's way, every old file is overwritten, and no old directory has the place
of an entry.
-/

import StudyNotes.Dex.Shell
import StudyNotes.Lib.Directory
import StudyNotes.Lib.PathResolution

namespace StudyNotes.Dex

open StudyNotes.Text StudyNotes.Fallible StudyNotes.FileTree

/-! ## Names on a platform -/

/-- How `java.io.File` reads a name: the components that `File(dir, name)` adds, by which the
platform tells files apart, with the dots kept.  A name that can never be opened has none. -/
structure Platform where
  components : Str → Option Path
  components_nul : ∀ name, Char.ofNat 0 ∈ name → components name = none

namespace Platform

/-- Names are parted by some characters, those with others cannot be opened, and some are taken
for one. -/
def separating (isSeparator isRefused : Char → Bool) (fold : Char → Char) : Platform where
  components name :=
    if name.any fun c => c = Char.ofNat 0 || isRefused c then none
    else some (((name.map fold).splitOnP isSeparator).filter (· ≠ []))
  components_nul _ h := if_pos (List.any_eq_true.mpr ⟨_, h, rfl⟩)

/-- Slashes at the front or doubled do not matter; what ends in `.` is a directory. -/
def unix : Platform where
  components name :=
    ((separating (· = '/') (fun _ => false) id).components name).filter
      fun names => names.getLast? ≠ some here
  components_nul name h := by rw [Platform.components_nul _ name h, Option.filter_none]

/-- `File` takes a slash for a backslash, and a letter is one in either case.  Dots and blanks at
the end of a component, which are dropped, are not seen to here. -/
def windows : Platform :=
  separating (fun c => c = '/' || c = '\\')
    (fun c => c.toNat < 32 || "<>:\"|?*".toList.contains c) Char.toLower

example : windows.components "lib/A".toList = windows.components "lib\\a".toList := by decide

end Platform

/-! ## Names that climb -/

/-- A platform with its files, none of which is a link: which can be opened for writing, given
those opened before.  A directory cannot be opened, and a file is not a directory. -/
structure FileSystem where
  platform : Platform
  opens : List Path → Path → Bool
  ne_root : ∀ opened path, opens opened path = true → resolve path ≠ []
  not_below : ∀ opened path, opens opened path = true →
    ∀ other ∈ opened, ¬ StrictlyBelow (resolve other) (resolve path) ∧
      ¬ StrictlyBelow (resolve path) (resolve other)

namespace FileSystem

/-- The files opened for writing by the loop of `unZip`, until an exception ends it. -/
def extractAll (fs : FileSystem) (dir : Path) : List Path → List ZipEntry → List Path
  | opened, [] => opened
  | opened, entry :: rest =>
      if isExtracted entry then
        match fs.platform.components entry.name with
        | none => opened
        | some names =>
            if fs.opens opened (dir ++ names) then
              fs.extractAll dir (opened ++ [dir ++ names]) rest
            else opened
      else fs.extractAll dir opened rest

/-- The files that `unZip(zip, dir)` creates or overwrites. -/
def unZip (fs : FileSystem) (dir : Path) (archive : List ZipEntry) : List Path :=
  fs.extractAll dir [] archive

/-- The entry is extracted and can be opened after some files. -/
def Opens (fs : FileSystem) (dir : Path) (opened : List Path) (entry : ZipEntry) (names : Path) :
    Prop :=
  isExtracted entry = true ∧ fs.platform.components entry.name = some names ∧
    fs.opens opened (dir ++ names) = true

/-- The names of an entry before which none had to be opened in vain. -/
inductive Reaches (fs : FileSystem) (dir : Path) : List Path → List ZipEntry → Path → Prop
  | here {opened : List Path} {entry : ZipEntry} {rest : List ZipEntry} {names : Path}
      (hopens : fs.Opens dir opened entry names) : Reaches fs dir opened (entry :: rest) names
  | skipped {opened : List Path} {entry : ZipEntry} {rest : List ZipEntry} {names : Path}
      (hskipped : isExtracted entry = false) (hrest : Reaches fs dir opened rest names) :
      Reaches fs dir opened (entry :: rest) names
  | later {opened : List Path} {entry : ZipEntry} {rest : List ZipEntry} {names names' : Path}
      (hopens : fs.Opens dir opened entry names')
      (hrest : Reaches fs dir (opened ++ [dir ++ names']) rest names) :
      Reaches fs dir opened (entry :: rest) names

/-- A Unix on which only directories cannot be opened that the files before have made. -/
def permissive : FileSystem where
  platform := .unix
  opens opened path := resolve path ≠ [] ∧
    ∀ other ∈ opened, ¬ StrictlyBelow (resolve other) (resolve path) ∧
      ¬ StrictlyBelow (resolve path) (resolve other)
  ne_root _ _ h := (of_decide_eq_true h).1
  not_below _ _ h := (of_decide_eq_true h).2

end FileSystem

/-- Every file written lies strictly below the directory. -/
def StaysInside (fs : FileSystem) (dir : Path) (archive : List ZipEntry) : Prop :=
  ∀ path ∈ fs.unZip dir archive, StrictlyBelow (resolve dir) (resolve path)

section Inside

variable {fs : FileSystem} {dir : Path}

/-- The files that are opened are those that are reached. -/
theorem mem_extractAll_iff {opened : List Path} {archive : List ZipEntry} {path : Path} :
    path ∈ fs.extractAll dir opened archive ↔
      path ∈ opened ∨ ∃ names, fs.Reaches dir opened archive names ∧ path = dir ++ names := by
  induction archive generalizing opened with
  | nil =>
      refine ⟨Or.inl, ?_⟩
      rintro (hopened | ⟨names, hreaches, -⟩)
      · exact hopened
      · cases hreaches
  | cons entry rest ih =>
      rw [FileSystem.extractAll]
      cases hextracted : isExtracted entry with
      | false =>
          rw [if_neg (by simp), ih]
          refine or_congr_right (exists_congr fun names => and_congr_left fun _ => ?_)
          refine ⟨.skipped hextracted, fun h => ?_⟩
          cases h with
          | here hopens => cases hextracted.symm.trans hopens.1
          | skipped _ hrest => exact hrest
          | later hopens _ => cases hextracted.symm.trans hopens.1
      | true =>
          rw [if_pos rfl]
          -- An entry that cannot be opened ends the loop.
          have hends (hnone : ∀ names, ¬ fs.Opens dir opened entry names) (names : Path) :
              ¬ fs.Reaches dir opened (entry :: rest) names := by
            intro h
            cases h with
            | here hopens => exact hnone _ hopens
            | skipped hskipped _ => cases hskipped.symm.trans hextracted
            | later hopens _ => exact hnone _ hopens
          cases hnames : fs.platform.components entry.name with
          | none =>
              refine ⟨Or.inl, ?_⟩
              rintro (hopened | ⟨names, hreaches, -⟩)
              · exact hopened
              · refine absurd hreaches (hends (fun names hopens => ?_) _)
                cases hnames.symm.trans hopens.2.1
          | some names =>
              dsimp only
              cases hopen : fs.opens opened (dir ++ names) with
              | false =>
                  rw [if_neg (by simp)]
                  refine ⟨Or.inl, ?_⟩
                  rintro (hopened | ⟨names', hreaches, -⟩)
                  · exact hopened
                  · refine absurd hreaches (hends (fun other hopens => ?_) _)
                    cases hnames.symm.trans hopens.2.1
                    cases hopen.symm.trans hopens.2.2
              | true =>
                  have hopens : fs.Opens dir opened entry names := ⟨hextracted, hnames, hopen⟩
                  rw [if_pos rfl, ih, List.mem_append, List.mem_singleton, or_assoc]
                  refine or_congr_right ⟨?_, ?_⟩
                  · rintro (rfl | ⟨names', hreaches, rfl⟩)
                    · exact ⟨names, .here hopens, rfl⟩
                    · exact ⟨names', .later hopens hreaches, rfl⟩
                  · rintro ⟨names', hreaches, rfl⟩
                    cases hreaches with
                    | here hopens' =>
                        cases hnames.symm.trans hopens'.2.1
                        exact Or.inl rfl
                    | skipped hskipped _ => cases hskipped.symm.trans hextracted
                    | later hopens' hrest =>
                        cases hnames.symm.trans hopens'.2.1
                        exact Or.inr ⟨names', hrest, rfl⟩

/-- Extraction stays inside exactly when the names it reaches lead inside. -/
theorem staysInside_iff (fs : FileSystem) (dir : Path) (archive : List ZipEntry) :
    StaysInside fs dir archive ↔
      ∀ names, fs.Reaches dir [] archive names → LeadsInside (resolve dir) names := by
  have hinside : ∀ names : Path, StrictlyBelow (resolve dir) (resolve (dir ++ names)) ↔
      LeadsInside (resolve dir) names := by
    intro names
    rw [resolve_append, strictlyBelow_walk_iff]
  constructor
  · intro hstays names hreaches
    apply (hinside names).mp
    apply hstays
    rw [FileSystem.unZip, mem_extractAll_iff]
    exact Or.inr ⟨names, hreaches, rfl⟩
  · intro hleads path hpath
    rw [FileSystem.unZip, mem_extractAll_iff] at hpath
    rcases hpath with hopened | ⟨names, hreaches, rfl⟩
    · cases hopened
    · exact (hinside names).mpr (hleads names hreaches)

/-- A name that climbs is written next to the directory. -/
theorem not_staysInside_climbing :
    ¬ ∀ (fs : FileSystem) (dir : Path) (archive : List ZipEntry), StaysInside fs dir archive := by
  intro hlaw
  have hbelow := hlaw .permissive ["app".toList] [⟨"../shared".toList, []⟩]
    ["app".toList, "..".toList, "shared".toList] (by decide)
  exact absurd hbelow (by decide)

end Inside

/-! ## What was there before -/

/-- An entry whose name has no `..` component. -/
structure InnerEntry (platform : Platform) where
  entry : ZipEntry
  inner : ∀ names, platform.components entry.name = some names → up ∉ names

namespace InnerEntry

variable {platform : Platform}

/-- The components of the name, where it can be opened. -/
def names (e : InnerEntry platform) : Option Path := platform.components e.entry.name

/-- Where the entry goes below the directory; a `.` stays. -/
def path (e : InnerEntry platform) : Path := (e.names.getD []).filter (· ≠ here)

/-- The name can never be opened, or it ends in `.` and there is no file before it, where a
directory is made. -/
def isRefused (e : InnerEntry platform) (there : Bool) : Bool :=
  e.names.all fun names => names.getLast? = some here && !there

/-- The entry is written as a file below the directory, where some files are there. -/
def namesFile (e : InnerEntry platform) (there : List Path) : Bool :=
  !e.isRefused (e.path ∈ there) && e.path ≠ []

/-- The entry as a file. -/
def toFile (e : InnerEntry platform) : Path × List UInt8 := (e.path, e.entry.bytes)

theorem namesFile_iff {e : InnerEntry platform} {there : List Path} :
    e.namesFile there = true ↔ e.isRefused (e.path ∈ there) = false ∧ e.path ≠ [] := by
  rw [namesFile, Bool.and_eq_true, Bool.not_eq_true', decide_eq_true_iff]

end InnerEntry

/-- What is at the path of the directory. -/
inductive Target
  | absent
  | file (bytes : List UInt8)
  | directory (contents : Contents)

namespace Target

/-- What lies below it. -/
def contents : Target → Contents
  | .absent => ⟨[], []⟩
  | .file _ => ⟨[], []⟩
  | .directory contents => contents

/-- `dir.delete()` removes a file or an empty directory. -/
def delete : Target → Target
  | .file _ => .absent
  | .directory ⟨[], []⟩ => .absent
  | target => target

/-- Making the directories on the way, and writing a file; the empty path is the target
itself. -/
def write (target : Target) (path : Path) (bytes : List UInt8) : Option Target :=
  match target with
  | .absent =>
      if path = [] then some (.file bytes)
      else (Contents.write ⟨[], []⟩ path bytes).map .directory
  | .file _ => if path = [] then some (.file bytes) else none
  | .directory contents =>
      if path = [] then none else (contents.write path bytes).map .directory

/-- There is a file at the path. -/
def hasFile : Target → Path → Bool
  | .absent, _ => false
  | .file _, path => path = []
  | .directory contents, path => path ∈ contents.paths

/-- A file has taken the place of the directory. -/
def isFile : Target → Bool
  | .file _ => true
  | _ => false

theorem contents_delete (target : Target) : target.delete.contents = target.contents := by
  fun_cases delete target <;> rfl

/-- Below the target the files are those of its contents. -/
theorem hasFile_eq {path : Path} (target : Target) (hpath : path ≠ []) :
    target.hasFile path = decide (path ∈ target.contents.paths) := by
  cases target with
  | absent => simp [hasFile, contents, Contents.paths]
  | file bytes => simp [hasFile, contents, Contents.paths, hpath]
  | directory contents => rfl

theorem isFile_delete (target : Target) : target.delete.isFile = false := by
  cases target with
  | absent => rfl
  | file bytes => rfl
  | directory contents =>
      rw [delete.eq_def]
      split <;> simp_all [isFile]

end Target

section Extract

variable {platform : Platform}

/-- The loop body of `unZip`. -/
def extractEntry (target : Target) (e : InnerEntry platform) : Except IOError Target :=
  if isExtracted e.entry then
    if e.isRefused (target.hasFile e.path) then .error (.fileNotFound e.path)
    else
      match target.write e.path (copy e.entry.bytes) with
      | some target => .ok target
      | none => .error (.fileNotFound e.path)
  else .ok target

/-- `unZip(zip, dir)` into whatever is there. -/
def unZipInto (target : Target) (archive : List (InnerEntry platform)) : Except IOError Target :=
  archive.foldlM extractEntry target.delete

/-- The files `unZip` is to write. -/
def extractedFiles (archive : List (InnerEntry platform)) : Files :=
  (archive.filter (isExtracted ·.entry)).map InnerEntry.toFile

/-- `unZip` returns, and the files below the directory are those of the archive. -/
def YieldsArchive (target : Target) (archive : List (InnerEntry platform)) : Prop :=
  ∃ target', unZipInto target archive = .ok target' ∧
    ∀ f, f ∈ target'.contents.files ↔ f ∈ extractedFiles archive

/-- Every extracted entry is written as a file, where some files are there and more become it. -/
def NamesFiles : List Path → List (InnerEntry platform) → Prop
  | _, [] => True
  | there, e :: rest =>
      if isExtracted e.entry then e.namesFile there = true ∧ NamesFiles (e.path :: there) rest
      else NamesFiles there rest

/-- Nothing is left behind or in the way, and every name can be opened. -/
structure FreeOfLeftovers (target : Target) (archive : List (InnerEntry platform)) : Prop where
  names : NamesFiles target.contents.paths archive
  pairs : (extractedFiles archive).Pairwise Contents.Compatible
  files : ∀ f ∈ target.contents.files, ∃ g ∈ extractedFiles archive, f.1 = g.1
  dirs : ∀ d ∈ target.contents.dirs, ∀ f ∈ extractedFiles archive, ¬ f.1 <+: d

end Extract

section Leftovers

variable {platform : Platform} {target target' : Target} {e : InnerEntry platform}
  {archive : List (InnerEntry platform)} {there there' : List Path}

theorem namesFiles_of_extracted (h : isExtracted e.entry = true) :
    NamesFiles there (e :: archive) ↔
      e.namesFile there = true ∧ NamesFiles (e.path :: there) archive := by
  rw [NamesFiles, if_pos h]

theorem namesFiles_of_skipped (h : isExtracted e.entry = false) :
    NamesFiles there (e :: archive) ↔ NamesFiles there archive := by
  rw [NamesFiles, if_neg (by simp [h])]

/-- Only which files are there matters. -/
theorem namesFiles_congr (h : ∀ path, path ∈ there ↔ path ∈ there') :
    NamesFiles there archive ↔ NamesFiles there' archive := by
  induction archive generalizing there there' with
  | nil => rfl
  | cons e rest ih =>
      cases hextracted : isExtracted e.entry with
      | false =>
          rw [namesFiles_of_skipped hextracted, namesFiles_of_skipped hextracted]
          exact ih h
      | true =>
          rw [namesFiles_of_extracted hextracted, namesFiles_of_extracted hextracted,
            InnerEntry.namesFile_iff, InnerEntry.namesFile_iff, decide_eq_decide.mpr (h e.path)]
          refine and_congr_right fun _ => ih fun path => ?_
          rw [List.mem_cons, List.mem_cons, h path]

theorem namesFiles_of_extractedFiles_eq_nil (h : extractedFiles archive = []) :
    NamesFiles there archive := by
  induction archive with
  | nil => trivial
  | cons e rest ih =>
      cases hextracted : isExtracted e.entry with
      | false =>
          refine (namesFiles_of_skipped hextracted).mpr (ih ?_)
          simpa [extractedFiles, hextracted] using h
      | true => simp [extractedFiles, hextracted] at h

theorem extractEntry_of_skipped (h : isExtracted e.entry = false) :
    extractEntry target e = .ok target := by
  rw [extractEntry, if_neg (by simp [h])]

/-- Below a directory, an entry that names a file is written as one. -/
theorem extractEntry_of_namesFile (htarget : target.isFile = false)
    (h : isExtracted e.entry = true) (hname : e.namesFile target.contents.paths = true) :
    extractEntry target e =
      match target.contents.write e.path e.entry.bytes with
      | some contents => .ok (.directory contents)
      | none => .error (.fileNotFound e.path) := by
  obtain ⟨hopens, hpath⟩ := InnerEntry.namesFile_iff.mp hname
  rw [← target.hasFile_eq hpath] at hopens
  rw [extractEntry, if_pos h, if_neg (by simp [hopens]), copy_eq]
  cases target with
  | absent =>
      rw [Target.write, if_neg hpath, Target.contents]
      cases Contents.write ⟨[], []⟩ e.path e.entry.bytes with
      | none => rfl
      | some contents => rfl
  | file bytes => cases htarget
  | directory contents =>
      rw [Target.write, if_neg hpath, Target.contents]
      cases contents.write e.path e.entry.bytes with
      | none => rfl
      | some contents' => rfl

/-- A name that is not one of a file throws, or makes the target a file. -/
theorem isFile_of_not_namesFile (hstep : extractEntry target e = .ok target')
    (h : isExtracted e.entry = true) (hname : e.namesFile target.contents.paths = false) :
    target'.isFile = true := by
  rw [extractEntry, if_pos h] at hstep
  by_cases hrefused : e.isRefused (target.hasFile e.path) = true
  · rw [if_pos hrefused] at hstep
    cases hstep
  · have hpath : e.path = [] := by
      by_contra hpath
      rw [target.hasFile_eq hpath] at hrefused
      rw [InnerEntry.namesFile_iff.mpr ⟨Bool.eq_false_iff.mpr hrefused, hpath⟩] at hname
      cases hname
    rw [if_neg hrefused, hpath] at hstep
    cases target with
    | absent =>
        obtain rfl := Except.ok.inj hstep
        rfl
    | file bytes =>
        obtain rfl := Except.ok.inj hstep
        rfl
    | directory contents => cases hstep

/-- A target that has become a file stays one. -/
theorem isFile_of_extractEntry (hstep : extractEntry target e = .ok target')
    (htarget : target.isFile = true) : target'.isFile = true := by
  by_cases h : isExtracted e.entry = true
  · by_cases hname : e.namesFile target.contents.paths = true
    · obtain ⟨hopens, hpath⟩ := InnerEntry.namesFile_iff.mp hname
      rw [← target.hasFile_eq hpath] at hopens
      rw [extractEntry, if_pos h, if_neg (by simp [hopens])] at hstep
      cases target with
      | absent => cases htarget
      | directory contents => cases htarget
      | file bytes =>
          rw [Target.write, if_neg hpath] at hstep
          cases hstep
    · exact isFile_of_not_namesFile hstep h (Bool.eq_false_iff.mpr hname)
  · rw [extractEntry_of_skipped (Bool.eq_false_iff.mpr h)] at hstep
    obtain rfl := Except.ok.inj hstep
    exact htarget

/-- An entry that names a file is there afterwards, with the files before. -/
theorem mem_paths_extractEntry (htarget : target.isFile = false)
    (h : isExtracted e.entry = true) (hname : e.namesFile target.contents.paths = true)
    (hstep : extractEntry target e = .ok target') (path : Path) :
    path ∈ target'.contents.paths ↔ path ∈ e.path :: target.contents.paths := by
  rw [extractEntry_of_namesFile htarget h hname] at hstep
  cases hwrite : target.contents.write e.path e.entry.bytes with
  | none =>
      rw [hwrite] at hstep
      cases hstep
  | some contents =>
      rw [hwrite] at hstep
      obtain rfl := Except.ok.inj hstep
      exact Contents.mem_paths_write hwrite path

theorem isFile_of_foldlM (hrun : archive.foldlM extractEntry target = .ok target')
    (htarget : target.isFile = true) : target'.isFile = true := by
  induction archive generalizing target with
  | nil =>
      obtain rfl := Except.ok.inj hrun
      exact htarget
  | cons e rest ih =>
      obtain ⟨target₁, hstep, hrest⟩ := foldlM_cons_eq_ok_iff.mp hrun
      exact ih hrest (isFile_of_extractEntry hstep htarget)

/-- Where the target ends as a directory, all names were names of files. -/
theorem namesFiles_of_foldlM (hrun : archive.foldlM extractEntry target = .ok target')
    (htarget' : target'.isFile = false) : NamesFiles target.contents.paths archive := by
  induction archive generalizing target with
  | nil => trivial
  | cons e rest ih =>
      obtain ⟨target₁, hstep, hrest⟩ := foldlM_cons_eq_ok_iff.mp hrun
      have hnever : target₁.isFile = false := by
        by_contra hfile
        rw [isFile_of_foldlM hrest (Bool.not_eq_false _ ▸ hfile)] at htarget'
        cases htarget'
      cases h : isExtracted e.entry with
      | false =>
          rw [extractEntry_of_skipped h] at hstep
          obtain rfl := Except.ok.inj hstep
          exact (namesFiles_of_skipped h).mpr (ih hrest)
      | true =>
          have htarget : target.isFile = false := by
            by_contra hfile
            rw [isFile_of_extractEntry hstep (Bool.not_eq_false _ ▸ hfile)] at hnever
            cases hnever
          have hname : e.namesFile target.contents.paths = true := by
            by_contra hname
            rw [isFile_of_not_namesFile hstep h (Bool.eq_false_iff.mpr hname)] at hnever
            cases hnever
          refine (namesFiles_of_extracted h).mpr ⟨hname, ?_⟩
          exact (namesFiles_congr (mem_paths_extractEntry htarget h hname hstep)).mp (ih hrest)

/-- With names of files only, the loop writes the extracted files one after the other. -/
theorem exists_foldlM_iff (htarget : target.isFile = false)
    (hnames : NamesFiles target.contents.paths archive) {Q : Files → Prop} :
    (∃ target', archive.foldlM extractEntry target = .ok target' ∧ Q target'.contents.files) ↔
      ∃ contents', target.contents.writeAll (extractedFiles archive) = some contents' ∧
        Q contents'.files := by
  induction archive generalizing target with
  | nil =>
      constructor
      · rintro ⟨target', hrun, hQ⟩
        obtain rfl := Except.ok.inj hrun
        exact ⟨target.contents, rfl, hQ⟩
      · rintro ⟨contents', hwrite, hQ⟩
        obtain rfl := Option.some.inj hwrite
        exact ⟨target, rfl, hQ⟩
  | cons e rest ih =>
      simp only [foldlM_cons_eq_ok_iff]
      cases h : isExtracted e.entry with
      | true =>
          obtain ⟨hname, hrest⟩ := (namesFiles_of_extracted h).mp hnames
          have hfiles : extractedFiles (e :: rest) = e.toFile :: extractedFiles rest := by
            simp [extractedFiles, h]
          simp only [hfiles, Contents.writeAll_cons, extractEntry_of_namesFile htarget h hname]
          cases hwrite : target.contents.write e.path e.entry.bytes with
          | none => simp [InnerEntry.toFile, hwrite]
          | some contents =>
              simp only [InnerEntry.toFile, hwrite, Except.ok.injEq, Option.some.injEq,
                exists_eq_left']
              exact @ih (.directory contents) rfl
                ((namesFiles_congr (Contents.mem_paths_write hwrite)).mpr hrest)
      | false =>
          have hskip := @extractEntry_of_skipped _ target e h
          have hfiles : extractedFiles (e :: rest) = extractedFiles rest := by
            simp [extractedFiles, h]
          simp only [hfiles, hskip, Except.ok.injEq, exists_eq_left']
          exact ih htarget ((namesFiles_of_skipped h).mp hnames)

/-- Extraction yields exactly the archive where nothing is left behind or in the way. -/
theorem yieldsArchive_iff (target : Target) (archive : List (InnerEntry platform)) :
    YieldsArchive target archive ↔ FreeOfLeftovers target archive := by
  have hwrites (hnames : NamesFiles target.contents.paths archive) :
      YieldsArchive target archive ↔
        (extractedFiles archive).Pairwise Contents.Compatible ∧
          (∀ f ∈ target.contents.files, ∃ g ∈ extractedFiles archive, f.1 = g.1) ∧
          ∀ d ∈ target.contents.dirs, ∀ f ∈ extractedFiles archive, ¬ f.1 <+: d := by
    rw [← target.contents_delete] at hnames
    rw [← Contents.exists_writeAll_iff, ← target.contents_delete]
    exact @exists_foldlM_iff _ _ _ target.isFile_delete hnames
      (fun files => ∀ f, f ∈ files ↔ f ∈ extractedFiles archive)
  constructor
  · intro hyields
    have hnames : NamesFiles target.contents.paths archive := by
      obtain ⟨target', hrun, hfiles⟩ := hyields
      by_cases hfile : target'.isFile = true
      · -- a file has nothing below it, so there was nothing to extract
        refine namesFiles_of_extractedFiles_eq_nil (List.eq_nil_iff_forall_not_mem.mpr ?_)
        intro f hf
        have hnone := (hfiles f).mpr hf
        cases target' with
        | file bytes => cases hnone
        | absent => cases hfile
        | directory contents => cases hfile
      · rw [← target.contents_delete]
        exact namesFiles_of_foldlM hrun (Bool.eq_false_iff.mpr hfile)
    obtain ⟨hpairs, hfiles, hdirs⟩ := (hwrites hnames).mp hyields
    exact ⟨hnames, hpairs, hfiles, hdirs⟩
  · intro hfree
    exact (hwrites hfree.names).mpr ⟨hfree.pairs, hfree.files, hfree.dirs⟩

/-- An archive with the one entry `new`. -/
def newOnly : List (InnerEntry .unix) :=
  [⟨⟨"new".toList, [1]⟩, fun names h => by cases h; decide⟩]

/-- A file of an earlier extraction remains. -/
theorem not_yieldsArchive_leftover :
    ¬ ∀ (platform : Platform) (target : Target) (archive : List (InnerEntry platform)),
      (archive.map (·.entry.name)).Nodup → (∀ e ∈ archive, startsWith e.entry.name ['/'] = false) →
        YieldsArchive target archive := by
  intro hlaw
  obtain ⟨target', hrun, hfiles⟩ := hlaw .unix (.directory ⟨[(["old".toList], [0])], []⟩) newOnly
    (by decide) (by decide)
  have hleft : (["old".toList], [0]) ∈ target'.contents.files := by
    obtain rfl := Except.ok.inj hrun
    decide
  exact absurd ((hfiles _).mp hleft) (by decide)

end Leftovers

end StudyNotes.Dex
