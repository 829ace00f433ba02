/-
# The renaming loop of the packer

Every dex at the root gets a new name, its stem followed by its index in the
listing.  A new name differs from the old one and is never `classes.dex`, but it
can be the name of a dex whose turn is still to come, or a new name given before;
then a dex is lost.  The loop loses none exactly when neither happens.
-/

import StudyNotes.Dex.Packer

namespace StudyNotes.Dex

open StudyNotes.Text StudyNotes.FileTree

/-! ## New names -/

theorem indexOfText_spec {s part : Str} {n : ℕ} (h : indexOfText s part = some n) :
    ∃ rest, s = s.take n ++ part ++ rest := by
  induction s generalizing n with
  | nil =>
      rw [indexOfText] at h
      split at h
      · rename_i hpart
        exact ⟨[], by simp [hpart]⟩
      · cases h
  | cons c s ih =>
      rw [indexOfText] at h
      split at h
      · rename_i hbegins
        obtain ⟨rest, hrest⟩ := List.isPrefixOf_iff_prefix.mp hbegins
        obtain rfl := Option.some.inj h
        exact ⟨rest, by rw [List.take_zero, List.nil_append, hrest]⟩
      · obtain ⟨m, hm, rfl⟩ := Option.map_eq_some_iff.mp h
        obtain ⟨rest, hrest⟩ := ih hm
        refine ⟨rest, ?_⟩
        rw [List.take_succ_cons, List.cons_append, List.cons_append, ← hrest]

theorem exists_indexOfText {s part : Str} (h : endsWith s part = true) :
    ∃ n, indexOfText s part = some n := by
  induction s with
  | nil =>
      rw [endsWith, List.isSuffixOf_iff_suffix, List.suffix_nil] at h
      exact ⟨0, by simp [indexOfText, h]⟩
  | cons c s ih =>
      rw [indexOfText]
      split
      · exact ⟨0, rfl⟩
      · rename_i hbegins
        rw [endsWith, List.isSuffixOf_iff_suffix, List.suffix_cons_iff] at h
        rcases h with h | h
        · rw [h] at hbegins
          exact absurd (List.isPrefixOf_iff_prefix.mpr (List.prefix_refl _)) hbegins
        · obtain ⟨n, hn⟩ := ih (by rwa [endsWith, List.isSuffixOf_iff_suffix])
          exact ⟨n + 1, by rw [hn]; rfl⟩

theorem endsWith_newName (name : Str) (index : ℕ) : endsWith (newName name index) DEX = true := by
  rw [endsWith, List.isSuffixOf_iff_suffix]
  exact List.suffix_append _ _

theorem newName_ne (name : Str) (index : ℕ) (hname : endsWith name DEX = true) :
    newName name index ≠ name := by
  obtain ⟨n, hn⟩ := exists_indexOfText hname
  obtain ⟨rest, hrest⟩ := indexOfText_spec hn
  intro heq
  rw [newName, hn, Option.getD_some] at heq
  conv_rhs at heq => rw [hrest]
  rw [List.append_assoc, List.append_assoc] at heq
  have htail := List.append_cancel_left heq
  -- a digit stands where the name has a dot
  obtain ⟨d, ds, hdigits⟩ := List.exists_cons_of_ne_nil (Nat.toDigits_ne_nil (n := index) (b := 10))
  have hdigit := Nat.isDigit_of_mem_toDigits (b := 10) (by decide) (by decide)
    (hdigits ▸ List.mem_cons_self : d ∈ Nat.toDigits 10 index)
  rw [hdigits] at htail
  obtain ⟨rfl, -⟩ := List.cons.inj htail
  exact absurd hdigit (by decide)

theorem newName_ne_classesDex (name : Str) (index : ℕ) : newName name index ≠ CLASSES_DEX := by
  intro heq
  have hfront : name.take ((indexOfText name DEX).getD 0) ++ Nat.toDigits 10 index =
      "classes".toList := by
    have hclasses : CLASSES_DEX = "classes".toList ++ DEX := rfl
    exact List.append_cancel_right (heq.trans hclasses)
  have hlast := congrArg List.getLast? hfront
  obtain ⟨ds, d, hdigits⟩ := (List.eq_nil_or_concat' (Nat.toDigits 10 index)).resolve_left
    Nat.toDigits_ne_nil
  have hdigit := Nat.isDigit_of_mem_toDigits (b := 10) (by decide) (by decide)
    (by rw [hdigits]; simp : d ∈ Nat.toDigits 10 index)
  rw [hdigits, ← List.append_assoc, List.getLast?_concat] at hlast
  obtain rfl : d = 's' := Option.some.inj hlast
  exact absurd hdigit (by decide)

/-! ## One renaming -/

theorem isFile_iff {files : Files} {path : Path} :
    isFile files path = true ↔ ∃ f ∈ files, f.1 = path := by
  simp [isFile]

theorem isFile_eq_false_iff {files : Files} {path : Path} :
    isFile files path = false ↔ ∀ f ∈ files, f.1 ≠ path := by
  simp [isFile]

/-- A directory at the root whose name ends in `.dex`. -/
def isDexDir (f : Path × List UInt8) : Bool :=
  match f.1 with
  | name :: _ :: _ => endsWith name DEX
  | _ => false

/-- No directory at the root poses as a dex file. -/
def NoDexDir (files : Files) : Prop := ∀ f ∈ files, isDexDir f = false

theorem NoDexDir.isDirectory_eq_false {files : Files} (h : NoDexDir files) {name : Str}
    (hname : endsWith name DEX = true) : files.isDirectory [name] = false := by
  rw [Files.isDirectory, List.any_eq_false]
  intro f hf hbelow
  obtain ⟨⟨rest, hrest⟩, hne⟩ := of_decide_eq_true hbelow
  have hdir := h f hf
  cases rest with
  | nil => exact hne (by rw [← hrest, List.append_nil])
  | cons name' rest =>
      rw [isDexDir, ← hrest] at hdir
      exact absurd hname (by rw [show endsWith name DEX = false from hdir]; decide)

theorem isRootDex_of_path {f : Path × List UInt8} {name : Str} (hf : f.1 = [name])
    (hname : endsWith name DEX = true) : isRootDex f = true := by
  rw [isRootDex, hf]
  exact hname

theorem exists_name_of_isRootDex {f : Path × List UInt8} (h : isRootDex f = true) :
    ∃ name, f.1 = [name] ∧ endsWith name DEX = true := by
  rw [isRootDex] at h
  split at h
  · rename_i name hpath
    exact ⟨name, hpath, h⟩
  · cases h

section

variable {files : Files} {name name' : Str} (hfree : NoDexDir files)
  (hname : endsWith name DEX = true) (hname' : endsWith name' DEX = true) (hne : name ≠ name')

include hfree hname' hne

theorem renameTo_eq : renameTo files [name] [name'] =
    (files.filter (·.1 ≠ [name'])).map
      fun f => if f.1 = [name] then ([name'], f.2) else f := by
  rw [renameTo, hfree.isDirectory_eq_false hname', Bool.false_or, if_neg (by simpa using hne)]

theorem mem_renameTo {f : Path × List UInt8} (hf : f ∈ renameTo files [name] [name']) :
    f ∈ files ∨ f.1 = [name'] := by
  rw [renameTo_eq hfree hname' hne, List.mem_map] at hf
  obtain ⟨g, hg, hgf⟩ := hf
  split at hgf
  · exact Or.inr (by rw [← hgf])
  · exact Or.inl (hgf ▸ (List.mem_filter.mp hg).1)

theorem noDexDir_renameTo : NoDexDir (renameTo files [name] [name']) := by
  intro f hf
  rcases mem_renameTo hfree hname' hne hf with hmem | hpath
  · exact hfree f hmem
  · rw [isDexDir, hpath]

/-- Afterwards the old name is free and the new one taken. -/
theorem isFile_renameTo (hfile : isFile files [name] = true) (m : Str) :
    isFile (renameTo files [name] [name']) [m] = true ↔
      m = name' ∨ m ≠ name ∧ isFile files [m] = true := by
  rw [renameTo_eq hfree hname' hne, isFile_iff]
  constructor
  · rintro ⟨f, hf, hpath⟩
    obtain ⟨g, hg, rfl⟩ := List.mem_map.mp hf
    by_cases hold : g.1 = [name]
    · rw [if_pos hold] at hpath
      exact Or.inl (List.singleton_inj.mp hpath).symm
    · rw [if_neg hold] at hpath
      rw [hpath] at hold
      exact Or.inr ⟨fun heq => hold (by rw [heq]),
        isFile_iff.mpr ⟨g, (List.mem_filter.mp hg).1, hpath⟩⟩
  · intro h
    have hkept : ∀ {g : Path × List UInt8}, g ∈ files → g.1 ≠ [name'] →
        g ∈ files.filter (·.1 ≠ [name']) :=
      fun hg hgne => List.mem_filter.mpr ⟨hg, decide_eq_true hgne⟩
    by_cases hm : m = name'
    · obtain ⟨g, hg, hpath⟩ := isFile_iff.mp hfile
      refine ⟨_, List.mem_map_of_mem (hkept hg (by rw [hpath]; simpa using hne)), ?_⟩
      rw [if_pos hpath, hm]
    · obtain ⟨hold, hfile'⟩ := h.resolve_left hm
      obtain ⟨g, hg, hpath⟩ := isFile_iff.mp hfile'
      refine ⟨_, List.mem_map_of_mem (hkept hg (by rw [hpath]; simpa using hm)), ?_⟩
      rw [if_neg (by rw [hpath]; simpa using hold), hpath]

include hname

/-- The only dex a renaming can lose is one under the new name. -/
theorem rootDexes_renameTo :
    rootDexes (renameTo files [name] [name']) = rootDexes (files.filter (·.1 ≠ [name'])) := by
  have hdex : ∀ f : Path × List UInt8,
      isRootDex (if f.1 = [name] then ([name'], f.2) else f) = isRootDex f := by
    intro f
    split
    · rename_i hpath
      rw [isRootDex_of_path hpath hname]
      exact hname'
    · rfl
  rw [renameTo_eq hfree hname' hne, rootDexes, rootDexes, List.filter_map, List.map_map]
  rw [show (isRootDex ∘ fun f : Path × List UInt8 => if f.1 = [name] then ([name'], f.2) else f) =
    isRootDex from funext hdex]
  apply List.map_congr_left
  intro f _
  rw [Function.comp_apply]
  split
  · rfl
  · rfl

theorem rootDexes_renameTo_of_free (hnew : isFile files [name'] = false) :
    rootDexes (renameTo files [name] [name']) = rootDexes files := by
  rw [rootDexes_renameTo hfree hname hname' hne]
  congr 1
  rw [List.filter_eq_self]
  exact fun f hf => decide_eq_true (isFile_eq_false_iff.mp hnew f hf)

theorem length_rootDexes_renameTo_lt (htaken : isFile files [name'] = true) :
    (rootDexes (renameTo files [name] [name'])).length < (rootDexes files).length := by
  obtain ⟨f, hf, hpath⟩ := isFile_iff.mp htaken
  rw [rootDexes_renameTo hfree hname hname' hne, rootDexes, rootDexes, List.length_map,
    List.length_map, List.filter_comm, List.length_filter_lt_length_iff_exists]
  exact ⟨f, List.mem_filter.mpr ⟨hf, isRootDex_of_path hpath hname'⟩, by simpa using hpath⟩

end

/-! ## The loop -/

/-- What every renaming keeps, the loop keeps. -/
theorem renameDexes_induction {P : Files → Prop} {ops : List (Str × ℕ)}
    (hstep : ∀ files name index, endsWith name DEX = true → isFile files [name] = true →
      P files → P (renameTo files [name] [newName name index])) :
    ∀ {files}, P files → P (renameDexes files ops) := by
  induction ops with
  | nil => exact fun h => h
  | cons x ops ih =>
      intro files h
      rw [renameDexes]
      split
      · rename_i hguard
        obtain ⟨hfile, hdex⟩ := Bool.and_eq_true_iff.mp hguard
        exact ih (hstep files x.1 x.2 hdex hfile h)
      · exact ih h

/-- Only the dex files of the listing matter. -/
theorem renameDexes_filter (files : Files) (ops : List (Str × ℕ)) :
    renameDexes files (ops.filter fun x => endsWith x.1 DEX) = renameDexes files ops := by
  induction ops generalizing files with
  | nil => rfl
  | cons x ops ih =>
      rw [List.filter_cons]
      cases hdex : endsWith x.1 DEX with
      | false =>
          rw [renameDexes, hdex, Bool.and_false]
          exact ih files
      | true =>
          rw [if_pos rfl, renameDexes, renameDexes, ih, ih]

/-- What the loop leaves of a directory. -/
structure Renamed (files files' : Files) : Prop where
  noDexDir : NoDexDir files'
  mem : ∀ f ∈ files', f ∈ files ∨ isRootDex f = true
  sublist : (rootDexes files').Sublist (rootDexes files)
  eq_nil : files' = [] ↔ files = []

theorem renamed_renameDexes {files : Files} (hfree : NoDexDir files) (ops : List (Str × ℕ)) :
    Renamed files (renameDexes files ops) := by
  apply renameDexes_induction
  · intro fs name index hname hfile h
    have hname' := endsWith_newName name index
    have hne := (newName_ne name index hname).symm
    have hfs : fs ≠ [] := by
      rintro rfl
      cases hfile
    have hfs' : renameTo fs [name] [newName name index] ≠ [] := by
      intro hnil
      have hnew := (isFile_renameTo h.noDexDir hname' hne hfile _).mpr (Or.inl rfl)
      rw [hnil] at hnew
      cases hnew
    refine ⟨noDexDir_renameTo h.noDexDir hname' hne, ?_, ?_, ?_⟩
    · intro f hf
      rcases mem_renameTo h.noDexDir hname' hne hf with hmem | hpath
      · exact h.mem f hmem
      · exact Or.inr (isRootDex_of_path hpath hname')
    · rw [rootDexes_renameTo h.noDexDir hname hname' hne]
      exact ((List.filter_sublist.filter _).map _).trans h.sublist
    · exact ⟨fun hnil => absurd hnil hfs', fun hnil => absurd (h.eq_nil.mpr hnil) hfs⟩
  · exact ⟨hfree, fun f hf => Or.inl hf, List.Sublist.refl _, Iff.rfl⟩

/-- Every dex of the listing gets a new name, and no new name is `classes.dex`. -/
theorem not_isFile_classesDex {files : Files} {ops : List (Str × ℕ)} (hfree : NoDexDir files)
    (hops : isFile files [CLASSES_DEX] = true → CLASSES_DEX ∈ ops.map Prod.fst) :
    isFile (renameDexes files ops) [CLASSES_DEX] = false := by
  induction ops generalizing files with
  | nil =>
      rw [Bool.eq_false_iff]
      exact fun h => List.not_mem_nil (hops h)
  | cons x ops ih =>
      rw [renameDexes]
      split
      · rename_i hguard
        obtain ⟨hfile, hdex⟩ := Bool.and_eq_true_iff.mp hguard
        have hname' := endsWith_newName x.1 x.2
        have hne := (newName_ne x.1 x.2 hdex).symm
        refine ih (noDexDir_renameTo hfree hname' hne) fun h => ?_
        rcases (isFile_renameTo hfree hname' hne hfile _).mp h with heq | ⟨hold, hclasses⟩
        · exact absurd heq.symm (newName_ne_classesDex x.1 x.2)
        · exact (List.mem_cons.mp (hops hclasses)).resolve_left hold
      · rename_i hguard
        refine ih hfree fun h => (List.mem_cons.mp (hops h)).resolve_left fun heq => hguard ?_
        rw [← show CLASSES_DEX = x.1 from heq, h]
        decide

/-- The renaming of a listed name. -/
def renamePair (x : Str × ℕ) : Str × Str := (x.1, newName x.1 x.2)

/-- The new name of `x` is neither the old nor the new name of `y`. -/
def Clear (x y : Str × Str) : Prop := x.2 ≠ y.1 ∧ x.2 ≠ y.2

/-- The state of the loop while nothing is lost: the dex files are those under the
new names so far and those whose turn is still to come. -/
structure Pending (done : List Str) (ops : List (Str × ℕ)) (files : Files) : Prop where
  noDexDir : NoDexDir files
  dex : ∀ x ∈ ops, endsWith x.1 DEX = true
  nodup : (ops.map Prod.fst).Nodup
  isFile_iff : ∀ m, endsWith m DEX = true →
    (isFile files [m] = true ↔ m ∈ done ∨ m ∈ ops.map Prod.fst)
  fresh : ∀ d ∈ done, d ∉ ops.map Prod.fst

namespace Pending

variable {done : List Str} {x : Str × ℕ} {ops : List (Str × ℕ)} {files : Files}

theorem isFile_head (h : Pending done (x :: ops) files) : isFile files [x.1] = true :=
  (h.isFile_iff _ (h.dex x List.mem_cons_self)).mpr (Or.inr List.mem_cons_self)

theorem renameDexes_cons (h : Pending done (x :: ops) files) :
    renameDexes files (x :: ops) = renameDexes (renameTo files [x.1] [newName x.1 x.2]) ops := by
  rw [renameDexes, if_pos]
  rw [h.isFile_head, h.dex x List.mem_cons_self]
  rfl

theorem step (h : Pending done (x :: ops) files)
    (hnew : isFile files [newName x.1 x.2] = false) :
    Pending (newName x.1 x.2 :: done) ops (renameTo files [x.1] [newName x.1 x.2]) := by
  have hdex := h.dex x List.mem_cons_self
  have hname' := endsWith_newName x.1 x.2
  have hne := (newName_ne x.1 x.2 hdex).symm
  have hnodup := List.nodup_cons.mp h.nodup
  have hnotMem : newName x.1 x.2 ∉ ops.map Prod.fst := by
    intro hmem
    rw [(h.isFile_iff _ hname').mpr (Or.inr (List.mem_cons_of_mem _ hmem))] at hnew
    cases hnew
  refine ⟨noDexDir_renameTo h.noDexDir hname' hne, fun y hy => h.dex y (List.mem_cons_of_mem _ hy),
    hnodup.2, ?_, ?_⟩
  · intro m hm
    rw [isFile_renameTo h.noDexDir hname' hne h.isFile_head, h.isFile_iff m hm, List.map_cons,
      List.mem_cons, List.mem_cons]
    constructor
    · rintro (rfl | ⟨hold, hdone | heq | hmem⟩)
      · exact Or.inl (Or.inl rfl)
      · exact Or.inl (Or.inr hdone)
      · exact absurd heq hold
      · exact Or.inr hmem
    · rintro ((rfl | hdone) | hmem)
      · exact Or.inl rfl
      · refine Or.inr ⟨?_, Or.inl hdone⟩
        rintro rfl
        exact h.fresh _ hdone List.mem_cons_self
      · refine Or.inr ⟨?_, Or.inr (Or.inr hmem)⟩
        rintro rfl
        exact hnodup.1 hmem
  · intro d hd
    rcases List.mem_cons.mp hd with rfl | hdone
    · exact hnotMem
    · exact fun hmem => h.fresh d hdone (List.mem_cons_of_mem _ hmem)

/-- The loop loses no dex exactly when no new name is taken at its turn. -/
theorem length_eq_iff (h : Pending done ops files) :
    (rootDexes (renameDexes files ops)).length = (rootDexes files).length ↔
      (ops.map renamePair).Pairwise Clear ∧ ∀ d ∈ done, ∀ y ∈ ops.map renamePair, d ≠ y.2 := by
  induction ops generalizing done files with
  | nil => simp [renameDexes]
  | cons x ops ih =>
      have hdex := h.dex x List.mem_cons_self
      have hname' := endsWith_newName x.1 x.2
      have hne := (newName_ne x.1 x.2 hdex).symm
      rw [h.renameDexes_cons, List.map_cons, List.pairwise_cons]
      cases hnew : isFile files [newName x.1 x.2] with
      | false =>
          rw [← rootDexes_renameTo_of_free h.noDexDir hdex hname' hne hnew, ih (h.step hnew)]
          have hdone : newName x.1 x.2 ∉ done ∧ newName x.1 x.2 ∉ ops.map Prod.fst := by
            rw [← not_or]
            intro hmem
            rw [(h.isFile_iff _ hname').mpr (hmem.imp_right (List.mem_cons_of_mem _))] at hnew
            cases hnew
          constructor
          · rintro ⟨hpairwise, hall⟩
            refine ⟨⟨fun y hy => ⟨?_, hall _ List.mem_cons_self y hy⟩, hpairwise⟩, ?_⟩
            · obtain ⟨z, hz, rfl⟩ := List.mem_map.mp hy
              exact fun heq => hdone.2 (List.mem_map.mpr ⟨z, hz, heq.symm⟩)
            · intro d hd y hy
              rcases List.mem_cons.mp hy with rfl | hmem
              · rintro rfl
                exact hdone.1 hd
              · exact hall d (List.mem_cons_of_mem _ hd) y hmem
          · rintro ⟨⟨hfirst, hpairwise⟩, hall⟩
            refine ⟨hpairwise, fun d hd y hy => ?_⟩
            rcases List.mem_cons.mp hd with rfl | hmem
            · exact (hfirst y hy).2
            · exact hall d hmem y (List.mem_cons_of_mem _ hy)
      | true =>
          have hlt := length_rootDexes_renameTo_lt h.noDexDir hdex hname' hne hnew
          have hle := (renamed_renameDexes (noDexDir_renameTo h.noDexDir hname' hne)
            ops).sublist.length_le
          constructor
          · intro heq
            omega
          · rintro ⟨⟨hfirst, -⟩, hall⟩
            rcases (h.isFile_iff _ hname').mp hnew with hdone | hmem
            · exact absurd rfl (hall _ hdone _ List.mem_cons_self)
            · rcases List.mem_cons.mp hmem with heq | hlater
              · exact absurd heq hne.symm
              · obtain ⟨z, hz, heq⟩ := List.mem_map.mp hlater
                exact absurd heq.symm (hfirst _ (List.mem_map_of_mem hz)).1

end Pending

end StudyNotes.Dex
