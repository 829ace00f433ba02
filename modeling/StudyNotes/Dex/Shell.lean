/-
# Starting the shell again (`ShellApplication.IODexTest`)

The shell extracts the package and decrypts every dex in place, but only if its
directory does not exist yet: the directory is the one record that an earlier start
got through.  It exists from the first extracted file on, a dex is truncated before
the decrypted bytes are written, and a null from `decrypt` is thrown at the write and
swallowed.

Every installed dex is completely decrypted in the runs in which no start ends while
an extracted dex still waits, no `decrypt` returns null, and no dex is longer than an
array can be.
-/

import Mathlib.Data.List.Dedup
import Mathlib.Data.List.Perm.Basic
import StudyNotes.Dex.Renaming
import StudyNotes.Lib.Run

namespace StudyNotes.Dex

open StudyNotes.Text StudyNotes.FileTree StudyNotes.Run

/-! ## One start -/

/-- Where a start of the shell is.  `truncating` and `writing` hold what `decrypt`
returned. -/
inductive Start
  | idle
  | extracting (rest : List ZipEntry)
  | decrypting (rest : List Str)
  | truncating (name : Str) (decrypted : Option (List UInt8)) (rest : List Str)
  | writing (name : Str) (decrypted : Option (List UInt8)) (rest : List Str)
  | closing (rest : List Str)
  | installing
  deriving DecidableEq

/-- The files below `fake_apk/app`, the start in progress, and the dex files that were
handed to `V19.install` so far, as they were then. -/
structure Shell where
  files : Files := []
  start : Start := .idle
  installs : Files := []

/-- A start, its next step with what `listFiles` and `decrypt` answer if it asks them,
and the end of the process. -/
inductive ShellEvent
  | launch
  | step (listing : List Str) (null : Bool)
  | kill
  deriving DecidableEq

/-- A name that the shell decrypts. -/
def isSealed (name : Str) : Bool := name ≠ CLASSES_DEX && endsWith name DEX

/-- A dex file at the root other than the shell's own. -/
def isSealedDex (f : Path × List UInt8) : Bool :=
  match f.1 with
  | [name] => isSealed name
  | _ => false

/-- Writing to a file that exists. -/
def overwrite (files : Files) (path : Path) (bytes : List UInt8) : Files :=
  files.map fun f => if f.1 = path then (path, bytes) else f

/-- The names in a directory. -/
def names (files : Files) : List Str := (files.filterMap fun f => f.1.head?).dedup

/-- `unZip` writes the entry to a file. -/
def isExtracted (entry : ZipEntry) : Bool :=
  entry.name ∉ SIGNATURE_FILES && !endsWith entry.name ['/']

section Machine

-- where the file system puts a name, the package, and the cipher
variable (resolve : Str → Path) (archive : List ZipEntry) (doFinal : List UInt8 → List UInt8)

/-- The loop body of `unZip`. -/
def extractTo (files : Files) (entry : ZipEntry) : Except IOError Files :=
  if isExtracted entry then
    match files.write (resolve entry.name) (copy entry.bytes) with
    | some files => .ok files
    | none => .error (.fileNotFound (resolve entry.name))
  else .ok files

namespace Shell

/-- `app.exists()`. -/
def appExists (s : Shell) : Bool := !s.files.isEmpty

/-- The next step of `IODexTest`.  What is thrown outside the `try` ends the start. -/
def step (s : Shell) (listing : List Str) (null : Bool) : Shell :=
  match s.start with
  | .idle => s
  | .extracting (entry :: rest) =>
    match extractTo resolve s.files entry with
    | .ok files => { s with files := files, start := .extracting rest }
    | .error _ => { s with start := .idle }
  | .extracting [] =>
    -- `listFiles` of a directory that does not exist returns null
    if !s.appExists then { s with start := .idle }
    else if listing.Perm (names s.files) then { s with start := .decrypting listing }
    else s
  | .decrypting [] => { s with start := .installing }
  | .decrypting (name :: rest) =>
    if isSealed name then
      match s.files.find? (·.1 = [name]) with
      | some f =>
        match getBytes f.2 with
        | .ok buffer =>
          { s with start := .truncating name (if null then none else some (doFinal buffer)) rest }
        | .error _ => { s with start := .decrypting rest }
      | none => { s with start := .decrypting rest }
    else { s with start := .decrypting rest }
  | .truncating name decrypted rest =>
    { s with files := overwrite s.files [name] [], start := .writing name decrypted rest }
  | .writing name (some bytes) rest =>
    { s with files := overwrite s.files [name] bytes, start := .closing rest }
  | .writing _ none rest => { s with start := .decrypting rest }
  | .closing rest => { s with start := .decrypting rest }
  | .installing => { s with start := .idle, installs := s.installs ++ s.files.filter isRootDex }

/-- One event. -/
def next (s : Shell) : ShellEvent → Shell
  | .launch =>
    if s.start = .idle then
      { s with start := if s.appExists then .installing else .extracting archive }
    else s
  | .step listing null => s.step resolve doFinal listing null
  | .kill => { s with start := .idle }

/-- The storage and the installations after a run of any number of starts. -/
def run (es : List ShellEvent) : Shell := after (next resolve archive doFinal) {} es

@[simp]
theorem run_append_singleton (pre : List ShellEvent) (e : ShellEvent) :
    run resolve archive doFinal (pre ++ [e]) =
      (run resolve archive doFinal pre).next resolve archive doFinal e :=
  after_append_singleton _ _ _ _

end Shell

/-! ## The law and the condition -/

/-- The bytes of the entry of a file: the last one that is put there. -/
def entryBytes (path : Path) : Option (List UInt8) :=
  (archive.reverse.find? fun entry => isExtracted entry && resolve entry.name = path).map
    ZipEntry.bytes

/-- The file holds the decrypted bytes of its entry. -/
def Decrypted (f : Path × List UInt8) : Prop :=
  ∃ bytes, entryBytes resolve archive f.1 = some bytes ∧ f.2 = doFinal bytes

/-- Every dex that was installed, but for the shell's own, was decrypted completely. -/
def NeverHalfDecrypted (s : Shell) : Prop :=
  ∀ f ∈ s.installs, f.1 ≠ [CLASSES_DEX] → Decrypted resolve archive doFinal f

/-- No extracted dex waits for its decryption, so the start may end here. -/
def Shell.mayEnd (s : Shell) : Bool :=
  match s.start with
  | .extracting _ => !s.files.any isSealedDex
  | .decrypting rest | .closing rest => !rest.any isSealed
  | .truncating .. | .writing .. => false
  | .idle | .installing => true

/-- The step is none of those that leave a dex half decrypted: an end too early, by a
kill or by an entry that cannot be written, a null, or a dex of 2^31 bytes or more. -/
def Shell.isCareful (s : Shell) : ShellEvent → Bool
  | .launch => true
  | .kill => s.mayEnd
  | .step _ null =>
    match s.start with
    | .extracting (entry :: _) =>
      (extractTo resolve s.files entry).isOk || s.mayEnd
    | .decrypting (name :: _) =>
      !isSealed name || (!null && s.files.all fun f => f.1 ≠ [name] || f.2.length < 2 ^ 31)
    | _ => true

/-- The condition on a step of a run. -/
def Careful (pre : List ShellEvent) (e : ShellEvent) : Prop :=
  (Shell.run resolve archive doFinal pre).isCareful resolve e = true

instance (pre : List ShellEvent) (e : ShellEvent) :
    Decidable (Careful resolve archive doFinal pre e) :=
  inferInstanceAs (Decidable (_ = true))

end Machine

/-! ## What a start relies on -/

section Sound

variable {resolve : Str → Path} {archive : List ZipEntry} {doFinal : List UInt8 → List UInt8}

theorem entryBytes_append_singleton (done : List ZipEntry) (entry : ZipEntry) (path : Path) :
    entryBytes resolve (done ++ [entry]) path =
      if isExtracted entry && resolve entry.name = path then some entry.bytes
      else entryBytes resolve done path := by
  rw [entryBytes, List.reverse_append, List.reverse_singleton, List.singleton_append,
    List.find?_cons]
  split
  · rename_i hentry
    rw [if_pos hentry]
    rfl
  · rename_i hentry
    rw [if_neg (by simpa using hentry)]
    rfl

/-- The files hold the bytes of the entries extracted so far. -/
theorem extractTo_entryBytes {files files' : Files} {done : List ZipEntry} {entry : ZipEntry}
    (h : ∀ f ∈ files, entryBytes resolve done f.1 = some f.2)
    (hextract : extractTo resolve files entry = .ok files') :
    ∀ f ∈ files', entryBytes resolve (done ++ [entry]) f.1 = some f.2 := by
  rw [extractTo] at hextract
  intro f hf
  rw [entryBytes_append_singleton]
  by_cases hextracted : isExtracted entry = true
  · rw [if_pos hextracted, Files.write] at hextract
    split at hextract
    · rename_i written hwritten
      cases hextract
      split at hwritten
      · cases hwritten
      · cases hwritten
        rcases List.mem_append.mp hf with hold | hnew
        · obtain ⟨hmem, hne⟩ := List.mem_filter.mp hold
          have hother : resolve entry.name ≠ f.1 := Ne.symm (of_decide_eq_true hne)
          simpa [hother] using h f hmem
        · rw [List.mem_singleton.mp hnew, copy_eq]
          simp [hextracted]
    · cases hextract
  · rw [if_neg hextracted] at hextract
    cases hextract
    simpa [hextracted] using h f hf

variable (resolve archive doFinal)

/-- A dex whose name is still listed has the bytes of its entry, any other is decrypted. -/
def Waits (rest : List Str) (f : Path × List UInt8) : Prop :=
  ∀ name, f.1 = [name] → isSealed name = true →
    (name ∈ rest → entryBytes resolve archive f.1 = some f.2) ∧
      (name ∉ rest → Decrypted resolve archive doFinal f)

/-- What holds of the files at each position of a start. -/
def Phase (files : Files) : Start → Prop
  | .idle | .installing => ∀ f ∈ files, Waits resolve archive doFinal [] f
  | .extracting rest => ∃ done, archive = done ++ rest ∧
      ∀ f ∈ files, entryBytes resolve done f.1 = some f.2
  | .decrypting rest | .closing rest =>
    rest.Nodup ∧ ∀ f ∈ files, Waits resolve archive doFinal rest f
  | .truncating name decrypted rest | .writing name decrypted rest =>
    name ∉ rest ∧ rest.Nodup ∧
      (∃ bytes, entryBytes resolve archive [name] = some bytes ∧
        decrypted = some (doFinal bytes)) ∧
      ∀ f ∈ files, f.1 ≠ [name] → Waits resolve archive doFinal rest f

/-- The state between two steps. -/
structure Shell.Sound (s : Shell) : Prop where
  installs : NeverHalfDecrypted resolve archive doFinal s
  phase : Phase resolve archive doFinal s.files s.start

variable {resolve archive doFinal}

theorem isSealedDex_iff {f : Path × List UInt8} :
    isSealedDex f = true ↔ ∃ name, f.1 = [name] ∧ isSealed name = true := by
  rw [isSealedDex]
  split
  · rename_i name hname
    simp [hname]
  · rename_i hnot
    simp only [Bool.false_eq_true, false_iff, not_exists, not_and]
    exact fun name hname => absurd hname (hnot name)

/-- Names that are not decrypted do not matter in the listing. -/
theorem Waits.of_mem_iff {rest rest' : List Str} {f : Path × List UInt8}
    (h : Waits resolve archive doFinal rest f)
    (hrest : ∀ name, isSealed name = true → f.1 = [name] → (name ∈ rest' ↔ name ∈ rest)) :
    Waits resolve archive doFinal rest' f := by
  intro name hname hsealed
  rw [hrest name hsealed hname]
  exact h name hname hsealed

/-- A start that may end leaves no dex that is not decrypted. -/
theorem Shell.Sound.waits_nil {s : Shell} (h : s.Sound resolve archive doFinal)
    (hend : s.mayEnd = true) : ∀ f ∈ s.files, Waits resolve archive doFinal [] f := by
  have hphase := h.phase
  have hlisted : ∀ rest : List Str, (!rest.any isSealed) = true →
      (∀ f ∈ s.files, Waits resolve archive doFinal rest f) →
      ∀ f ∈ s.files, Waits resolve archive doFinal [] f := by
    intro rest hrest hwaits f hf
    apply (hwaits f hf).of_mem_iff
    intro name hsealed _
    simp only [Bool.not_eq_true', List.any_eq_false] at hrest
    exact ⟨fun hmem => absurd hmem List.not_mem_nil, fun hmem => absurd hsealed (hrest name hmem)⟩
  rw [mayEnd] at hend
  cases hstart : s.start with
  | idle | installing =>
      rw [hstart] at hphase
      exact hphase
  | extracting rest =>
      simp only [hstart, Bool.not_eq_true', List.any_eq_false] at hend
      intro f hf name hname hsealed
      exact absurd (isSealedDex_iff.mpr ⟨name, hname, hsealed⟩) (hend f hf)
  | decrypting rest | closing rest =>
      rw [hstart] at hphase hend
      exact hlisted rest hend hphase.2
  | truncating name decrypted rest | writing name decrypted rest =>
      simp [hstart] at hend

theorem Shell.Sound.stop {s : Shell} (h : s.Sound resolve archive doFinal)
    (hend : s.mayEnd = true) :
    ({ s with start := .idle } : Shell).Sound resolve archive doFinal :=
  ⟨h.installs, h.waits_nil hend⟩

/-! ## One step -/

/-- Without decrypting the first name, the listing may go on if no dex waits under it. -/
theorem waits_tail {files : Files} {name : Str} {rest : List Str}
    (h : ∀ f ∈ files, Waits resolve archive doFinal (name :: rest) f)
    (hskip : isSealed name = true → ∀ f ∈ files, f.1 ≠ [name]) :
    ∀ f ∈ files, Waits resolve archive doFinal rest f := by
  intro f hf
  apply (h f hf).of_mem_iff
  intro n hsealed hn
  have hne : n ≠ name := by
    rintro rfl
    exact hskip hsealed f hf hn
  simp [List.mem_cons, hne]

/-- The dex in hand gets other bytes, and the rest is as it was. -/
theorem mem_overwrite {files : Files} {path : Path} {bytes : List UInt8}
    {f : Path × List UInt8} (hf : f ∈ overwrite files path bytes) :
    f = (path, bytes) ∨ (f ∈ files ∧ f.1 ≠ path) := by
  obtain ⟨g, hg, rfl⟩ := List.mem_map.mp hf
  by_cases hpath : g.1 = path
  · rw [if_pos hpath]
    exact Or.inl rfl
  · rw [if_neg hpath]
    exact Or.inr ⟨hg, hpath⟩

/-- After the extraction every dex waits. -/
theorem waits_listing {files : Files} {listing : List Str} (hlisting : listing.Perm (names files))
    (h : ∀ f ∈ files, entryBytes resolve archive f.1 = some f.2) :
    ∀ f ∈ files, Waits resolve archive doFinal listing f := by
  intro f hf name hname _
  have hmem : name ∈ listing := by
    rw [hlisting.mem_iff, names, List.mem_dedup]
    exact List.mem_filterMap.mpr ⟨f, hf, by rw [hname]; rfl⟩
  exact ⟨fun _ => h f hf, fun hnot => absurd hmem hnot⟩

theorem Shell.Sound.decrypt {s : Shell} (h : s.Sound resolve archive doFinal) {name : Str}
    {rest listing : List Str} {null : Bool} (hstart : s.start = .decrypting (name :: rest))
    (hcareful : s.isCareful resolve (.step listing null) = true) :
    (s.step resolve doFinal listing null).Sound resolve archive doFinal := by
  have hphase := h.phase
  rw [hstart] at hphase
  obtain ⟨hnodup, hwaits⟩ := hphase
  obtain ⟨hname, hrest⟩ := List.nodup_cons.mp hnodup
  simp only [step, hstart]
  by_cases hsealed : isSealed name = true
  · simp only [hsealed, if_true]
    cases hfind : s.files.find? (·.1 = [name]) with
    | none =>
        -- a directory of that name
        refine ⟨h.installs, hrest, waits_tail hwaits fun _ f hf hpath => ?_⟩
        exact absurd (decide_eq_true hpath) (List.find?_eq_none.mp hfind f hf)
    | some f =>
        have hf := List.mem_of_find?_eq_some hfind
        have hpath : f.1 = [name] := by simpa using List.find?_some hfind
        simp only [isCareful, hstart, hsealed, Bool.not_true, Bool.false_or, Bool.and_eq_true,
          Bool.not_eq_true', List.all_eq_true, Bool.or_eq_true] at hcareful
        have hshort : f.2.length < 2 ^ 31 := by simpa [hpath] using hcareful.2 f hf
        have hbytes : getBytes f.2 = .ok f.2 := by
          have hmod : f.2.length % 2 ^ 32 = f.2.length := Nat.mod_eq_of_lt (by omega)
          rw [getBytes, hmod, if_pos hshort, List.take_length]
        have hentry := (hwaits f hf name hpath hsealed).1 List.mem_cons_self
        rw [hpath] at hentry
        simp only [hbytes, hcareful.1, Bool.false_eq_true, if_false]
        refine ⟨h.installs, hname, hrest, ⟨f.2, hentry, rfl⟩, fun g hg hother => ?_⟩
        apply (hwaits g hg).of_mem_iff
        intro n _ hn
        have hne : n ≠ name := fun heq => hother (by rw [hn, heq])
        simp [List.mem_cons, hne]
  · simp only [hsealed, Bool.false_eq_true, if_false]
    exact ⟨h.installs, hrest, waits_tail hwaits fun hsealed' => absurd hsealed' hsealed⟩

theorem Shell.Sound.extract {s : Shell} (h : s.Sound resolve archive doFinal)
    {entries : List ZipEntry} {listing : List Str} {null : Bool}
    (hstart : s.start = .extracting entries)
    (hcareful : s.isCareful resolve (.step listing null) = true) :
    (s.step resolve doFinal listing null).Sound resolve archive doFinal := by
  have hphase := h.phase
  rw [hstart] at hphase
  obtain ⟨done, harchive, hdone⟩ := hphase
  cases entries with
  | nil =>
      rw [List.append_nil] at harchive
      subst harchive
      simp only [Shell.step, hstart]
      split
      · rename_i hnone
        have hempty : s.files = [] := by simpa [appExists] using hnone
        refine ⟨h.installs, fun f hf => ?_⟩
        rw [hempty] at hf
        exact absurd hf List.not_mem_nil
      · split
        · rename_i hlisting
          exact ⟨h.installs, hlisting.nodup_iff.mpr (List.nodup_dedup _),
            waits_listing hlisting hdone⟩
        · exact h
  | cons entry entries =>
      simp only [Shell.step, hstart]
      cases hextract : extractTo resolve s.files entry with
      | ok files =>
          exact ⟨h.installs, done ++ [entry], by rw [harchive]; simp,
            extractTo_entryBytes hdone hextract⟩
      | error e =>
          apply h.stop
          simpa [isCareful, hstart, hextract, Except.isOk, Except.toBool] using hcareful

/-- Where no dex waits, those handed to the class loader are decrypted. -/
theorem Shell.Sound.install {s : Shell} (h : s.Sound resolve archive doFinal)
    {listing : List Str} {null : Bool} (hstart : s.start = .installing) :
    (s.step resolve doFinal listing null).Sound resolve archive doFinal := by
  have hphase := h.phase
  rw [hstart] at hphase
  simp only [Shell.step, hstart]
  refine ⟨fun f hf hother => ?_, hphase⟩
  rcases List.mem_append.mp hf with hold | hnew
  · exact h.installs f hold hother
  · obtain ⟨hmem, hdex⟩ := List.mem_filter.mp hnew
    obtain ⟨name, hname, hends⟩ := exists_name_of_isRootDex hdex
    have hsealed : isSealed name = true := by
      have hne : name ≠ CLASSES_DEX := fun heq => hother (by rw [hname, heq])
      simp [isSealed, hne, hends]
    exact (hphase f hmem name hname hsealed).2 List.not_mem_nil

theorem Shell.Sound.step {s : Shell} (h : s.Sound resolve archive doFinal) {listing : List Str}
    {null : Bool} (hcareful : s.isCareful resolve (.step listing null) = true) :
    (s.step resolve doFinal listing null).Sound resolve archive doFinal := by
  have hphase := h.phase
  cases hstart : s.start with
  | idle =>
      simp only [Shell.step, hstart]
      exact h
  | extracting entries => exact h.extract hstart hcareful
  | decrypting names =>
      cases names with
      | cons name rest => exact h.decrypt hstart hcareful
      | nil =>
          rw [hstart] at hphase
          simp only [Shell.step, hstart]
          exact ⟨h.installs, hphase.2⟩
  | truncating name decrypted rest =>
      rw [hstart] at hphase
      obtain ⟨hname, hrest, hdecrypted, hwaits⟩ := hphase
      simp only [Shell.step, hstart]
      refine ⟨h.installs, hname, hrest, hdecrypted, fun f hf hother => ?_⟩
      rcases mem_overwrite hf with rfl | ⟨hold, -⟩
      · exact absurd rfl hother
      · exact hwaits f hold hother
  | writing name decrypted rest =>
      rw [hstart] at hphase
      obtain ⟨hname, hrest, ⟨bytes, hentry, rfl⟩, hwaits⟩ := hphase
      simp only [Shell.step, hstart]
      refine ⟨h.installs, hrest, fun f hf => ?_⟩
      rcases mem_overwrite hf with rfl | ⟨hold, hother⟩
      · intro n hn _
        cases hn
        exact ⟨fun hmem => absurd hmem hname, fun _ => ⟨bytes, hentry, rfl⟩⟩
      · exact hwaits f hold hother
  | closing rest =>
      rw [hstart] at hphase
      simp only [Shell.step, hstart]
      exact ⟨h.installs, hphase⟩
  | installing => exact h.install hstart

theorem sound_append {pre : List ShellEvent} {e : ShellEvent}
    (hcareful : Careful resolve archive doFinal pre e)
    (h : (Shell.run resolve archive doFinal pre).Sound resolve archive doFinal) :
    (Shell.run resolve archive doFinal (pre ++ [e])).Sound resolve archive doFinal := by
  rw [Shell.run_append_singleton]
  cases e with
  | kill => exact h.stop hcareful
  | step listing null => exact h.step hcareful
  | launch =>
      rw [Shell.next]
      split
      · rename_i hidle
        have hphase := h.phase
        rw [hidle] at hphase
        cases hexists : (Shell.run resolve archive doFinal pre).appExists with
        | true => exact ⟨h.installs, hphase⟩
        | false =>
            have hempty : (Shell.run resolve archive doFinal pre).files = [] := by
              simpa [Shell.appExists] using hexists
            refine ⟨h.installs, [], rfl, fun f hf => ?_⟩
            rw [hempty] at hf
            exact absurd hf List.not_mem_nil
      · exact h

end Sound

/-- In every run of any number of starts whose steps are all careful, every dex that is
installed, but for the shell's own, holds the decrypted bytes of its entry. -/
theorem everyPrefix_neverHalfDecrypted (resolve : Str → Path) (archive : List ZipEntry)
    (doFinal : List UInt8 → List UInt8) (es : List ShellEvent)
    (hes : EveryStep (Careful resolve archive doFinal) es) :
    EveryPrefix (fun pre =>
      NeverHalfDecrypted resolve archive doFinal (Shell.run resolve archive doFinal pre)) es := by
  have hsound : EveryPrefix (fun pre =>
      (Shell.run resolve archive doFinal pre).Sound resolve archive doFinal) es := by
    refine EveryPrefix.of_step (P := fun pre =>
      (Shell.run resolve archive doFinal pre).Sound resolve archive doFinal) ?_ ?_ hes
    · exact ⟨fun f hf => absurd hf List.not_mem_nil, fun f hf => absurd hf List.not_mem_nil⟩
    · intro pre e hcareful h
      exact sound_append hcareful h
  exact hsound.mono fun _ h => h.installs

/-- A package with the shell's dex and a sealed one. -/
def sealedPackage : List ZipEntry :=
  [⟨"classes.dex".toList, [7]⟩, ⟨"classes2.dex".toList, [1, 2]⟩]

/-- A first start that gets through, and a second one. -/
def quietStarts : List ShellEvent :=
  [.launch] ++ List.replicate 10 (.step ["classes.dex".toList, "classes2.dex".toList] false) ++
    [.launch, .step [] false]

theorem everyPrefix_neverHalfDecrypted_quietStarts :
    EveryStep (Careful components sealedPackage List.reverse) quietStarts ∧
      (Shell.run components sealedPackage List.reverse quietStarts).installs.length = 4 ∧
      EveryPrefix (fun pre => NeverHalfDecrypted components sealedPackage List.reverse
        (Shell.run components sealedPackage List.reverse pre)) quietStarts :=
  ⟨by decide, by decide, everyPrefix_neverHalfDecrypted _ _ _ _ (by decide)⟩

/-- The process is killed after the extraction; the next start installs the sealed dex as
it is. -/
theorem not_everyPrefix_neverHalfDecrypted_killed :
    ¬ ∀ resolve archive doFinal es, EveryPrefix (fun pre =>
      NeverHalfDecrypted resolve archive doFinal (Shell.run resolve archive doFinal pre)) es := by
  intro hlaw
  have hinstalls := (hlaw components sealedPackage List.reverse
    [.launch, .step [] false, .step [] false, .kill, .launch, .step [] false]).self
  obtain ⟨bytes, hentry, hbytes⟩ :=
    hinstalls (["classes2.dex".toList], [1, 2]) (by decide) (by decide)
  have hsame : bytes = [1, 2] := Option.some.inj (hentry.symm.trans (by decide))
  rw [hsame] at hbytes
  exact absurd hbytes (by decide)

end StudyNotes.Dex
