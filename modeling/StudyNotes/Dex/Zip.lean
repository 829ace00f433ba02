/-
# Packing and unpacking a directory (`Zip.kt`)

`zip` walks a directory and puts one entry for every file, under its path less
every component called `temp`, and one for every empty directory, under the path
of its parent.  `ZipOutputStream` refuses a name it has seen, and a file whose
path is nothing but `temp` has no name at all.  `unZip` writes every entry that
is neither a directory nor one of the three signature files.

Hence `unZip` undoes `zip` exactly on the trees in which no file lies below or is
called `temp`, and no two empty directories share a parent.
-/

import StudyNotes.Lib.Fallible
import StudyNotes.Lib.FileTree

namespace StudyNotes.Dex

open StudyNotes.Text StudyNotes.Fallible StudyNotes.FileTree

/-! ## Streams -/

/-- The copying loop of both directions: it reads into a buffer of 1024 bytes until
nothing is left.  `fuel` bounds the number of turns. -/
def copyLoop : ℕ → List UInt8 → List UInt8
  | 0, _ => []
  | fuel + 1, rest =>
    if rest.isEmpty then [] else rest.take 1024 ++ copyLoop fuel (rest.drop 1024)

/-- A turn consumes at least a byte, so the length of the content is fuel enough. -/
def copy (bytes : List UInt8) : List UInt8 := copyLoop bytes.length bytes

theorem copyLoop_of_le {fuel : ℕ} {bytes : List UInt8} (h : bytes.length ≤ fuel) :
    copyLoop fuel bytes = bytes := by
  induction fuel generalizing bytes with
  | zero => rw [List.length_eq_zero_iff.mp (Nat.le_zero.mp h)]; rfl
  | succ fuel ih =>
      rw [copyLoop]
      split
      · rename_i hempty
        exact (List.isEmpty_iff.mp hempty).symm
      · rename_i hne
        have hpos : 0 < bytes.length :=
          List.length_pos_iff.mpr fun hnil => hne (List.isEmpty_iff.mpr hnil)
        rw [ih (by rw [List.length_drop]; omega), List.take_append_drop]

@[simp]
theorem copy_eq (bytes : List UInt8) : copy bytes = bytes := copyLoop_of_le le_rfl

/-- What packing and unpacking can throw. -/
inductive IOError
  | duplicateEntry (name : Str)
  | stringIndexOutOfBounds
  | fileNotFound (path : Path)
  | negativeArraySize
  deriving DecidableEq

/-- A `ZipEntry` with its content. -/
structure ZipEntry where
  name : Str
  bytes : List UInt8
  deriving DecidableEq

/-- The entries put so far. -/
abbrev ZipOutputStream := List ZipEntry

/-- `putNextEntry`, the writing of the content and `closeEntry`. -/
def ZipOutputStream.putNextEntry (zos : ZipOutputStream) (entry : ZipEntry) :
    Except IOError ZipOutputStream :=
  if zos.any (·.name = entry.name) then .error (.duplicateEntry entry.name)
  else .ok (zos ++ [entry])

/-! ## `zip` -/

/-- The component that `compressFile` drops. -/
def TEMP : Str := "temp".toList

/-- The name `compressFile` gives the entry of a file: the components other than
`temp`, each after a slash, less the first slash. -/
def entryName (dirName : Str) : Except IOError Str :=
  let dirNameNew := dirName.splitOn '/'
  let buffer :=
    if 1 < dirNameNew.length then (dirNameNew.filter (· ≠ TEMP)).flatMap ('/' :: ·) else ['/']
  -- `substring(1)` of the empty buffer throws
  if buffer.isEmpty then .error .stringIndexOutOfBounds else .ok (buffer.drop 1)

/-- `compressFile`. -/
def compressFile (name : Str) (bytes : List UInt8) (zos : ZipOutputStream) (dir : Str) :
    Except IOError ZipOutputStream := do
  zos.putNextEntry ⟨← entryName (dir ++ name), copy bytes⟩

mutual

/-- `compress`, and `compressDir` on a directory. -/
def compress (zos : ZipOutputStream) (basePath : Str) : Node → Except IOError ZipOutputStream
  | .file name bytes => compressFile name bytes zos basePath
  | .dir name children =>
    if children.isEmpty then zos.putNextEntry ⟨basePath ++ ['/'], []⟩
    else compressAll zos (basePath ++ name ++ ['/']) children

/-- The loop of `compressDir`. -/
def compressAll (zos : ZipOutputStream) (basePath : Str) :
    List Node → Except IOError ZipOutputStream
  | [] => .ok zos
  | n :: nodes => do compressAll (← compress zos basePath n) basePath nodes

end

/-- `zip(dir, zip)`. -/
def zip (dir : Node) : Except IOError ZipOutputStream := compress [] [] dir

/-! ## `unZip` -/

/-- The entries `unZip` skips by name. -/
def SIGNATURE_FILES : List Str :=
  ["META-INF/CERT.RSA".toList, "META-INF/CERT.SF".toList, "META-INF/MANIFEST.MF".toList]

instance (name : Str) : Decidable (name ∈ SIGNATURE_FILES) :=
  List.instDecidableMemOfLawfulBEq name SIGNATURE_FILES

/-- The loop body of `unZip`. -/
def extract (files : Files) (entry : ZipEntry) : Except IOError Files :=
  if entry.name ∈ SIGNATURE_FILES then .ok files
  else if endsWith entry.name ['/'] then .ok files
  else
    match files.write (components entry.name) (copy entry.bytes) with
    | some files => .ok files
    | none => .error (.fileNotFound (components entry.name))

/-- `unZip(zip, dir)` into a directory that is empty, or gone: `dir.delete()` then
leaves nothing behind. -/
def unZip (archive : ZipOutputStream) : Except IOError Files := archive.foldlM extract []

/-! ## The walk of `zip` -/

/-- What the walk does at an item. -/
def putItem (zos : ZipOutputStream) : Item → Except IOError ZipOutputStream
  | .file path bytes => do zos.putNextEntry ⟨← entryName (join path), copy bytes⟩
  | .emptyDir path => zos.putNextEntry ⟨base path.dropLast ++ ['/'], []⟩

theorem foldlM_putItem_singleton (zos : ZipOutputStream) (i : Item) :
    [i].foldlM putItem zos = putItem zos i := by
  rw [List.foldlM_cons]
  exact bind_pure _

theorem base_append_singleton (path : Path) (name : Str) :
    base (path ++ [name]) = base path ++ name ++ ['/'] := by
  simp [base]

theorem compressAll_eq {nodes : List Node} {path : Path}
    (h : ∀ n ∈ nodes, ∀ zos, compress zos (base path) n = (items path n).foldlM putItem zos)
    (zos : ZipOutputStream) :
    compressAll zos (base path) nodes = (itemsAll path nodes).foldlM putItem zos := by
  induction nodes generalizing zos with
  | nil => rfl
  | cons n nodes ih =>
      rw [compressAll, itemsAll, List.foldlM_append, h n List.mem_cons_self]
      apply bind_congr
      intro zos'
      exact ih (fun m hm => h m (List.mem_cons_of_mem _ hm)) zos'

/-- The walk puts the items one after the other. -/
theorem compress_eq (n : Node) :
    ∀ path zos, compress zos (base path) n = (items path n).foldlM putItem zos := by
  induction n with
  | file name bytes =>
      intro path zos
      rw [compress, items, foldlM_putItem_singleton, putItem, join_append_singleton,
        compressFile]
  | dir name children ih =>
      intro path zos
      rw [compress, items]
      split
      · rw [foldlM_putItem_singleton, putItem, List.dropLast_concat]
      · rw [← base_append_singleton]
        exact compressAll_eq (fun c hc => ih c hc _) zos

/-- The entry of an item, where it has a name. -/
def itemEntry : Item → Option ZipEntry
  | .file path bytes => (entryName (join path)).toOption.map fun name => ⟨name, bytes⟩
  | .emptyDir path => some ⟨base path.dropLast ++ ['/'], []⟩

theorem putItem_eq_ok_iff {zos zos' : ZipOutputStream} {i : Item} :
    putItem zos i = .ok zos' ↔
      ∃ e, itemEntry i = some e ∧ (∀ d ∈ zos, d.name ≠ e.name) ∧ zos' = zos ++ [e] := by
  have hput : ∀ e : ZipEntry, zos.putNextEntry e = .ok zos' ↔
      (∀ d ∈ zos, d.name ≠ e.name) ∧ zos' = zos ++ [e] := by
    intro e
    rw [ZipOutputStream.putNextEntry]
    by_cases hseen : zos.any (·.name = e.name) = true
    · obtain ⟨d, hd, hname⟩ := List.any_eq_true.mp hseen
      rw [if_pos hseen]
      constructor
      · intro h
        cases h
      · intro h
        exact absurd (of_decide_eq_true hname) (h.1 d hd)
    · rw [if_neg hseen, Except.ok.injEq]
      have hnew : ∀ d ∈ zos, d.name ≠ e.name := fun d hd heq =>
        hseen (List.any_eq_true.mpr ⟨d, hd, decide_eq_true heq⟩)
      exact ⟨fun h => ⟨hnew, h.symm⟩, fun h => h.2.symm⟩
  cases i with
  | file path bytes =>
      rw [putItem, itemEntry, copy_eq]
      cases entryName (join path) with
      | error e => simp [bind, Except.bind, Except.toOption]
      | ok name =>
          simp only [Except.toOption, Option.map_some, Option.some.injEq, exists_eq_left']
          exact hput _
  | emptyDir path =>
      rw [putItem, itemEntry]
      simp only [Option.some.injEq, exists_eq_left']
      exact hput _

/-- The walk succeeds exactly when every item has a name and no name comes twice. -/
theorem foldlM_putItem_eq_ok_iff {is : List Item} {zos zos' : ZipOutputStream}
    (hzos : (zos.map ZipEntry.name).Nodup) :
    is.foldlM putItem zos = .ok zos' ↔
      zos' = zos ++ is.filterMap itemEntry ∧ (∀ i ∈ is, (itemEntry i).isSome = true) ∧
        ((zos ++ is.filterMap itemEntry).map ZipEntry.name).Nodup := by
  induction is generalizing zos with
  | nil =>
      rw [List.filterMap_nil, List.append_nil]
      constructor
      · intro h
        exact ⟨(Except.ok.inj h).symm, by simp, hzos⟩
      · rintro ⟨rfl, -⟩
        rfl
  | cons i is ih =>
      have hfresh : ∀ e : ZipEntry, (∀ d ∈ zos, d.name ≠ e.name) ↔
          ((zos ++ [e]).map ZipEntry.name).Nodup := by
        intro e
        rw [List.map_append, List.map_singleton, ← List.concat_eq_append, List.nodup_concat,
          and_iff_left hzos, List.mem_map]
        exact ⟨fun h ⟨d, hd, hname⟩ => h d hd hname, fun h d hd hname => h ⟨d, hd, hname⟩⟩
      rw [foldlM_cons_eq_ok_iff, List.forall_mem_cons]
      constructor
      · rintro ⟨zos₁, hput, hrest⟩
        obtain ⟨e, hentry, hnew, rfl⟩ := putItem_eq_ok_iff.mp hput
        rw [ih ((hfresh e).mp hnew), List.append_assoc, List.singleton_append] at hrest
        rw [List.filterMap_cons_some hentry, hentry]
        exact ⟨hrest.1, ⟨rfl, hrest.2.1⟩, hrest.2.2⟩
      · rintro ⟨hzos', ⟨hsome, hall⟩, hnodup⟩
        obtain ⟨e, hentry⟩ := Option.isSome_iff_exists.mp hsome
        rw [List.filterMap_cons_some hentry, ← List.singleton_append, ← List.append_assoc]
          at hzos' hnodup
        have hnodup₁ : ((zos ++ [e]).map ZipEntry.name).Nodup :=
          hnodup.sublist ((List.sublist_append_left _ _).map _)
        exact ⟨zos ++ [e], putItem_eq_ok_iff.mpr ⟨e, hentry, (hfresh e).mpr hnodup₁, rfl⟩,
          (ih hnodup₁).mpr ⟨hzos', hall, hnodup⟩⟩

theorem walk_eq_ok_iff {is : List Item} {archive : ZipOutputStream} :
    is.foldlM putItem [] = .ok archive ↔
      archive = is.filterMap itemEntry ∧ (∀ i ∈ is, (itemEntry i).isSome = true) ∧
        ((is.filterMap itemEntry).map ZipEntry.name).Nodup :=
  @foldlM_putItem_eq_ok_iff is [] archive List.nodup_nil

end StudyNotes.Dex
