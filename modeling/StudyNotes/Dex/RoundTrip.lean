/-
# `unZip` undoes `zip`, and when it does not

The names `zip` gives are a function of the items of the tree.  The round trip
succeeds exactly when that function loses nothing: no file has a component `temp`
to drop, and no two empty directories have one parent.
-/

import Mathlib.Data.List.Pairwise
import StudyNotes.Dex.Zip

namespace StudyNotes.Dex

open StudyNotes.Text StudyNotes.FileTree

/-- A directory called `temp`. -/
structure TempDir where
  children : List Node
  siblings : Siblings children
  wellFormed : ∀ n ∈ children, WellFormed n

namespace TempDir

variable (t : TempDir)

/-- The directory itself. -/
def node : Node := .dir TEMP t.children

/-- What lies in it, by paths from it. -/
def contents : List Item := itemsAll [] t.children

/-- Its files. -/
def files : Files := t.contents.filterMap Item.file?

/-- The files `unZip` does not skip. -/
def unsigned : Files := t.files.filter fun f => join f.1 ∉ SIGNATURE_FILES

theorem pairwise_apart : t.contents.Pairwise fun i j => Apart i.path j.path :=
  pairwise_apart_itemsAll t.siblings [] fun n hn => (t.wellFormed n hn).pairwise_apart []

variable {t}

theorem mem_contents {i : Item} (hi : i ∈ t.contents) :
    i.path ≠ [] ∧ ∀ name ∈ i.path, IsName name := by
  rw [contents, itemsAll_eq_flatMap, List.mem_flatMap] at hi
  obtain ⟨n, hn, hin⟩ := hi
  refine ⟨fun hnil => ?_, ?_⟩
  · have hbegins := prefix_path_of_mem_items hin
    rw [hnil, List.prefix_nil] at hbegins
    cases hbegins
  · exact (t.wellFormed n hn).isName_of_mem (by simp) (t.siblings.1 n hn) i hin

theorem mem_files {path : Path} {bytes : List UInt8} :
    (path, bytes) ∈ t.files ↔ .file path bytes ∈ t.contents := by
  rw [files, List.mem_filterMap]
  constructor
  · rintro ⟨i, hi, hfile⟩
    cases i with
    | file p b =>
        obtain ⟨rfl, rfl⟩ := Prod.mk.inj (Option.some.inj hfile)
        exact hi
    | emptyDir p => cases hfile
  · intro h
    exact ⟨_, h, rfl⟩

end TempDir

/-! ## The names of the entries -/

theorem drop_flatMap_slash (path : Path) : (path.flatMap ('/' :: ·)).drop 1 = join path := by
  cases path with
  | nil => rfl
  | cons name path =>
      rw [join_cons]
      rfl

/-- A file's entry is named by its path below the root, less the components `temp`. -/
theorem entryName_join {path : Path} (hne : path ≠ []) (hpath : ∀ name ∈ path, IsName name) :
    entryName (join (TEMP :: path)) =
      if path.filter (· ≠ TEMP) = [] then .error .stringIndexOutOfBounds
      else .ok (join (path.filter (· ≠ TEMP))) := by
  have hslash : ∀ name ∈ TEMP :: path, '/' ∉ name := by
    intro name hname
    rcases List.mem_cons.mp hname with rfl | hmem
    · decide
    · exact (hpath name hmem).2.1
  have hlength : 1 < (TEMP :: path).length := by
    have hpos := List.length_pos_iff.mpr hne
    rw [List.length_cons]
    omega
  have hdrop : (TEMP :: path).filter (· ≠ TEMP) = path.filter (· ≠ TEMP) :=
    List.filter_cons_of_neg (by simp)
  rw [entryName, splitOn_join hslash (List.cons_ne_nil _ _), if_pos hlength, hdrop,
    drop_flatMap_slash]
  cases path.filter (· ≠ TEMP) with
  | nil => rfl
  | cons name rest => rfl

/-- The entry of an item of the tree, where no component is dropped. -/
def plainEntry : Item → ZipEntry
  | .file path bytes => ⟨join path, bytes⟩
  | .emptyDir path => ⟨base (TEMP :: path.dropLast) ++ ['/'], []⟩

theorem itemEntry_under_file {path : Path} {bytes : List UInt8} (hne : path ≠ [])
    (hpath : ∀ name ∈ path, IsName name) :
    itemEntry ((Item.file path bytes).under TEMP) =
      if path.filter (· ≠ TEMP) = [] then none
      else some ⟨join (path.filter (· ≠ TEMP)), bytes⟩ := by
  rw [Item.under, itemEntry, entryName_join hne hpath]
  split
  · rfl
  · rfl

theorem itemEntry_under_emptyDir {path : Path} (hne : path ≠ []) :
    itemEntry ((Item.emptyDir path).under TEMP) = some (plainEntry (.emptyDir path)) := by
  rw [Item.under, itemEntry, List.dropLast_cons_of_ne_nil hne, plainEntry]

/-- The name of a file does not end in a slash. -/
theorem not_endsWith_join {path : Path} (hne : path ≠ []) (hpath : ∀ name ∈ path, IsName name) :
    endsWith (join path) ['/'] = false := by
  obtain ⟨front, name, rfl⟩ := (List.eq_nil_or_concat' path).resolve_left hne
  have hname := hpath name (by simp)
  rw [join_append_singleton, endsWith, Bool.eq_false_iff, Ne, List.isSuffixOf_iff_suffix,
    List.singleton_suffix_iff_getLast?_eq_some, List.getLast?_append_of_ne_nil _ hname.1]
  exact fun hlast => hname.2.1 (List.mem_of_getLast? hlast)

theorem endsWith_append_slash (text : Str) : endsWith (text ++ ['/']) ['/'] = true := by
  rw [endsWith, List.isSuffixOf_iff_suffix]
  exact List.suffix_append _ _

theorem join_injective {path path' : Path} (hpath : ∀ name ∈ path, IsName name)
    (hpath' : ∀ name ∈ path', IsName name) (h : join path = join path') : path = path' := by
  rw [← components_join hpath, h, components_join hpath']

/-! ## Extraction -/

/-- What `unZip` writes for an entry. -/
def extracted (entry : ZipEntry) : Option (Path × List UInt8) :=
  if entry.name ∈ SIGNATURE_FILES then none
  else if endsWith entry.name ['/'] then none
  else some (components entry.name, entry.bytes)

theorem foldlM_extract_eq_ok_iff {archive : ZipOutputStream} {files files' : Files} :
    archive.foldlM extract files = .ok files' ↔
      files.writeAll (archive.filterMap extracted) = some files' := by
  induction archive generalizing files with
  | nil =>
      constructor
      · intro h
        exact congrArg some (Except.ok.inj h)
      · intro h
        exact congrArg Except.ok (Option.some.inj h)
  | cons entry archive ih =>
      rw [List.foldlM_cons, List.filterMap_cons, extract, extracted, copy_eq]
      by_cases hsigned : entry.name ∈ SIGNATURE_FILES
      · rw [if_pos hsigned, if_pos hsigned]
        exact ih
      · rw [if_neg hsigned, if_neg hsigned]
        cases hdir : endsWith entry.name ['/'] with
        | true => exact ih
        | false =>
            simp only [Bool.false_eq_true, if_false]
            rw [Files.writeAll, List.foldlM_cons]
            cases hwrite : files.write (components entry.name) entry.bytes with
            | some files₁ => exact ih
            | none =>
                constructor
                · intro h
                  cases h
                · intro h
                  cases h

/-! ## The round trip -/

section

variable {t : TempDir}

/-- The walk of `zip` from the root. -/
theorem zip_eq (t : TempDir) (hne : t.children ≠ []) :
    zip t.node = (t.contents.map (Item.under TEMP)).foldlM putItem [] := by
  have hcompress := compress_eq t.node [] []
  rw [TempDir.node, items, if_neg (by simpa using hne), List.nil_append,
    itemsAll_under fun n _ => items_under TEMP n []] at hcompress
  exact hcompress

/-- No file has a component `temp`. -/
def TempDir.NoTempFile (t : TempDir) : Prop := ∀ f ∈ t.files, TEMP ∉ f.1

/-- No two empty directories have one parent. -/
def TempDir.NoTwinEmptyDirs (t : TempDir) : Prop :=
  ∀ p q, .emptyDir p ∈ t.contents → .emptyDir q ∈ t.contents → p.dropLast = q.dropLast → p = q

theorem itemEntry_of_noTempFile (htemp : t.NoTempFile) {i : Item} (hi : i ∈ t.contents) :
    itemEntry (i.under TEMP) = some (plainEntry i) := by
  obtain ⟨hne, hpath⟩ := TempDir.mem_contents hi
  cases i with
  | file path bytes =>
      have hfilter : path.filter (· ≠ TEMP) = path := by
        rw [List.filter_eq_self]
        intro name hname
        exact decide_eq_true fun heq =>
          htemp (path, bytes) (TempDir.mem_files.mpr hi) (heq ▸ hname)
      refine (itemEntry_under_file hne hpath).trans ?_
      show (if path.filter (· ≠ TEMP) = [] then none
        else some (ZipEntry.mk (join (path.filter (· ≠ TEMP))) bytes)) = _
      rw [hfilter]
      exact if_neg hne
  | emptyDir path => exact itemEntry_under_emptyDir hne

theorem plainEntry_name_ne (htwin : t.NoTwinEmptyDirs) {i j : Item} (hi : i ∈ t.contents)
    (hj : j ∈ t.contents) (hapart : Apart i.path j.path) :
    (plainEntry i).name ≠ (plainEntry j).name := by
  obtain ⟨hnei, hpathi⟩ := TempDir.mem_contents hi
  obtain ⟨hnej, hpathj⟩ := TempDir.mem_contents hj
  have hmixed : ∀ {path : Path} (text : Str), path ≠ [] → (∀ name ∈ path, IsName name) →
      join path ≠ text ++ ['/'] := by
    intro path text hne hpath heq
    have hends := not_endsWith_join hne hpath
    rw [heq, endsWith_append_slash] at hends
    cases hends
  cases i with
  | file p b =>
      cases j with
      | file q c => exact fun heq => hapart.ne (join_injective hpathi hpathj heq)
      | emptyDir q => exact hmixed _ hnei hpathi
  | emptyDir p =>
      cases j with
      | file q c => exact (hmixed _ hnej hpathj).symm
      | emptyDir q =>
          intro heq
          have hslash : ∀ {r : Path}, (∀ name ∈ r, IsName name) →
              ∀ name ∈ TEMP :: r.dropLast, '/' ∉ name := by
            intro r hr name hname
            rcases List.mem_cons.mp hname with rfl | hmem
            · decide
            · exact (hr name (List.dropLast_subset _ hmem)).2.1
          have hbase := base_injective (hslash hpathi) (hslash hpathj)
            (List.append_cancel_right heq)
          exact hapart.ne (htwin p q hi hj (List.cons.inj hbase).2)

/-- Nothing is lost: `zip` puts the plain entries. -/
theorem zip_of_noTempFile (hne : t.children ≠ []) (htemp : t.NoTempFile)
    (htwin : t.NoTwinEmptyDirs) : zip t.node = .ok (t.contents.map plainEntry) := by
  have hentries : (t.contents.map (Item.under TEMP)).filterMap itemEntry =
      t.contents.map plainEntry := by
    rw [List.filterMap_map, List.filterMap_eq_map_iff_forall_eq_some]
    exact fun i hi => itemEntry_of_noTempFile htemp hi
  rw [zip_eq t hne, walk_eq_ok_iff, hentries]
  refine ⟨rfl, ?_, ?_⟩
  · intro j hj
    obtain ⟨i, hi, rfl⟩ := List.mem_map.mp hj
    rw [itemEntry_of_noTempFile htemp hi]
    rfl
  · rw [List.map_map, List.Nodup, List.pairwise_map]
    exact t.pairwise_apart.imp_of_mem fun hi hj hapart => plainEntry_name_ne htwin hi hj hapart

/-- Of the plain entries `unZip` writes the files that are not signatures. -/
theorem filterMap_extracted : (t.contents.map plainEntry).filterMap extracted = t.unsigned := by
  have hitem : ∀ i ∈ t.contents, extracted (plainEntry i) =
      (i.file?).filter fun f => join f.1 ∉ SIGNATURE_FILES := by
    intro i hi
    obtain ⟨hne, hpath⟩ := TempDir.mem_contents hi
    rw [extracted]
    cases i with
    | file path bytes =>
        have hends : endsWith (join path) ['/'] = false := not_endsWith_join hne hpath
        have hcomponents : components (join path) = path := components_join hpath
        rw [show (plainEntry (.file path bytes)).name = join path from rfl, hends, hcomponents]
        by_cases hsigned : join path ∈ SIGNATURE_FILES
        · simp [Item.file?, Option.filter_some, hsigned]
        · simp [Item.file?, Option.filter_some, hsigned, plainEntry]
    | emptyDir path =>
        have hname : (plainEntry (.emptyDir path)).name =
            base (TEMP :: path.dropLast) ++ ['/'] := rfl
        rw [hname, endsWith_append_slash]
        simp [Item.file?]
  rw [List.filterMap_map, TempDir.unsigned, TempDir.files, List.filter_filterMap]
  exact List.filterMap_congr hitem

theorem pairwise_apart_unsigned : t.unsigned.Pairwise fun f g => Apart f.1 g.1 := by
  apply List.Pairwise.filter
  apply t.pairwise_apart.filterMap
  intro i j hapart f hf g hg
  cases i with
  | file p b =>
      cases j with
      | file q c =>
          obtain rfl := Option.some.inj hf
          obtain rfl := Option.some.inj hg
          exact hapart
      | emptyDir q => cases hg
  | emptyDir p => cases hf

/-- Packing and unpacking a directory in which nothing is lost. -/
theorem unZip_zip (htemp : t.NoTempFile) (htwin : t.NoTwinEmptyDirs) :
    ∃ archive, zip t.node = .ok archive ∧ unZip archive = .ok t.unsigned := by
  by_cases hne : t.children = []
  · have hnode : t.node = .dir TEMP [] := by rw [TempDir.node, hne]
    have hunsigned : t.unsigned = [] := by
      rw [TempDir.unsigned, TempDir.files, TempDir.contents, hne]
      rfl
    rw [hnode, hunsigned]
    exact ⟨[⟨['/'], []⟩], rfl, rfl⟩
  · refine ⟨_, zip_of_noTempFile hne htemp htwin, ?_⟩
    rw [unZip, foldlM_extract_eq_ok_iff, filterMap_extracted]
    exact Files.writeAll_of_apart pairwise_apart_unsigned

/-- `zip` succeeds, and `unZip` recreates the files of the tree, each once at its
path with its bytes, except the signature files. -/
def TempDir.Restored (t : TempDir) : Prop :=
  ∃ archive files, zip t.node = .ok archive ∧ unZip archive = .ok files ∧
    files.Perm t.unsigned

/-- Two empty directories with one parent would be put under one name. -/
theorem noTwinEmptyDirs_of_zip {archive : ZipOutputStream} (hzip : zip t.node = .ok archive) :
    t.NoTwinEmptyDirs := by
  intro p q hp hq hparent
  have hne : t.children ≠ [] := by
    intro hnil
    rw [TempDir.contents, hnil] at hp
    exact absurd hp List.not_mem_nil
  rw [zip_eq t hne, walk_eq_ok_iff] at hzip
  obtain ⟨-, -, hnodup⟩ := hzip
  rw [List.filterMap_map, List.map_filterMap, List.Nodup, List.pairwise_filterMap] at hnodup
  by_contra hpq
  have hdiffer := @List.Pairwise.forall _ _ _ ⟨fun _ _ h a ha b hb => (h b hb a ha).symm⟩ hnodup
    _ hp _ hq fun heq => hpq (Item.emptyDir.inj heq)
  have hname : ∀ {r : Path}, .emptyDir r ∈ t.contents →
      Option.map ZipEntry.name ((itemEntry ∘ Item.under TEMP) (.emptyDir r)) =
        some (base (TEMP :: r.dropLast) ++ ['/']) := by
    intro r hr
    exact congrArg _ (itemEntry_under_emptyDir (TempDir.mem_contents hr).1)
  exact hdiffer _ (hname hp) _ (hname hq) (by rw [hparent])

/-- No signature file has a component `temp`. -/
theorem temp_notMem_of_signature {path : Path} (hpath : ∀ name ∈ path, IsName name)
    (h : join path ∈ SIGNATURE_FILES) : TEMP ∉ path := by
  have hall : ∀ name ∈ SIGNATURE_FILES, TEMP ∉ components name := by decide
  have htemp := hall _ h
  rwa [components_join hpath] at htemp

/-- What `unZip` writes of an archive made by `zip` has no component `temp`. -/
theorem temp_notMem_of_extracted {archive : ZipOutputStream} (hzip : zip t.node = .ok archive)
    {f : Path × List UInt8} (hf : f ∈ archive.filterMap extracted) : TEMP ∉ f.1 := by
  obtain ⟨e, he, hextracted⟩ := List.mem_filterMap.mp hf
  by_cases hne : t.children = []
  · have hempty : zip t.node = .ok [⟨['/'], []⟩] := by
      rw [TempDir.node, hne]
      rfl
    obtain rfl := Except.ok.inj (hempty.symm.trans hzip)
    rw [List.mem_singleton] at he
    rw [he] at hextracted
    cases hextracted
  · rw [zip_eq t hne, walk_eq_ok_iff] at hzip
    rw [hzip.1, List.filterMap_map] at he
    obtain ⟨i, hi, hentry⟩ := List.mem_filterMap.mp he
    obtain ⟨hnil, hpath⟩ := TempDir.mem_contents hi
    rw [Function.comp_apply] at hentry
    cases i with
    | file path bytes =>
        rw [show itemEntry ((Item.file path bytes).under TEMP) = _ from
          itemEntry_under_file hnil hpath] at hentry
        split at hentry
        · cases hentry
        · obtain rfl := Option.some.inj hentry
          rw [extracted] at hextracted
          split at hextracted
          · cases hextracted
          · split at hextracted
            · cases hextracted
            · obtain rfl := Option.some.inj hextracted
              have hkept : ∀ name ∈ path.filter (· ≠ TEMP), IsName name :=
                fun name hname => hpath name (List.mem_filter.mp hname).1
              show TEMP ∉ components (join (path.filter (· ≠ TEMP)))
              rw [components_join hkept, List.mem_filter]
              exact fun hmem => of_decide_eq_true hmem.2 rfl
    | emptyDir path =>
        obtain rfl := Option.some.inj ((itemEntry_under_emptyDir hnil).symm.trans hentry)
        rw [extracted, plainEntry, endsWith_append_slash] at hextracted
        split at hextracted
        · cases hextracted
        · cases hextracted

end

/-- `unZip` undoes `zip` exactly on the trees without a file below or called `temp`
and without two empty directories in one directory. -/
theorem restored_iff (t : TempDir) : t.Restored ↔ t.NoTempFile ∧ t.NoTwinEmptyDirs := by
  constructor
  · rintro ⟨archive, files, hzip, hunZip, hperm⟩
    refine ⟨?_, noTwinEmptyDirs_of_zip hzip⟩
    rintro ⟨path, bytes⟩ hf
    have hpath := (TempDir.mem_contents (TempDir.mem_files.mp hf)).2
    by_cases hsigned : join path ∈ SIGNATURE_FILES
    · exact temp_notMem_of_signature hpath hsigned
    · have hunsigned : (path, bytes) ∈ t.unsigned :=
        List.mem_filter.mpr ⟨hf, decide_eq_true hsigned⟩
      rw [unZip, foldlM_extract_eq_ok_iff] at hunZip
      rcases Files.mem_of_writeAll hunZip _ (hperm.mem_iff.mpr hunsigned) with hnil | hmem
      · exact absurd hnil List.not_mem_nil
      · exact temp_notMem_of_extracted hzip hmem
  · rintro ⟨htemp, htwin⟩
    obtain ⟨archive, hzip, hunZip⟩ := unZip_zip htemp htwin
    exact ⟨archive, _, hzip, hunZip, List.Perm.refl _⟩

/-- A directory with two empty directories in it. -/
def twoEmptyDirs : TempDir where
  children := [.dir "a".toList [], .dir "b".toList []]
  siblings := by
    refine ⟨?_, ?_⟩
    · simp [Node.name, IsName]
    · simp [Node.name]
  wellFormed := by
    intro n hn
    rcases List.mem_pair.mp hn with rfl | rfl
    · exact .dir _ ⟨by simp, List.Pairwise.nil⟩ (by simp)
    · exact .dir _ ⟨by simp, List.Pairwise.nil⟩ (by simp)

/-- Both get the name of their parent, and `zip` fails on the second. -/
theorem not_restored_twoEmptyDirs : ¬ ∀ t : TempDir, t.Restored := by
  intro hlaw
  obtain ⟨archive, files, hzip, -⟩ := hlaw twoEmptyDirs
  have hfails : zip twoEmptyDirs.node = .error (.duplicateEntry "temp//".toList) := by decide
  rw [hfails] at hzip
  cases hzip

end StudyNotes.Dex
