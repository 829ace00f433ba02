/-
# Which copies of assets are right

A file with a slash in its path comes to its place, and so do the files of a directory that
has no directory in it.  Nothing else does: a file at the top level makes the call throw,
and among the files that are not directly in the directory nothing comes to the place of one
with a shortest path.
-/

import Mathlib.Data.Nat.Find
import StudyNotes.Files.Assets

namespace StudyNotes.AssetsUtil

open StudyNotes.Text StudyNotes.FileTree StudyNotes.Effect

section Completes

variable {assets : Assets} {path : Path}

/-! ## What a call completes -/

/-- A file with a slash in its path is created where nothing is, in a directory that is. -/
theorem put_file {name : Str} {bytes : List UInt8} {front : Path}
    (h : assets.lookup (front ++ [name]) = some (.file name bytes)) (hfront : front ≠ [])
    {sdCardPath : Str} {storage : Storage} (hdir : storage.dirs (components sdCardPath) = true)
    (hfree : storage.isThere (components sdCardPath ++ [name]) = false) (fuel : ℕ) :
    assets.putAssetsToSDCard (fuel + 1) (join (front ++ [name])) sdCardPath storage =
      .ok () (storage.overwrite (components sdCardPath ++ [name]) bytes) := by
  have hname : IsName name := (assets.found h).names name (by simp)
  have hcreate : storage.createNewFile (components sdCardPath ++ [name]) =
      some (storage.overwrite (components sdCardPath ++ [name]) []) := by
    rw [Storage.createNewFile, List.dropLast_concat, if_pos hdir]
  have hnew : createNewFile (components sdCardPath ++ [name]) storage =
      .ok () (storage.overwrite (components sdCardPath ++ [name]) []) := by
    rw [createNewFile, get_bind, hcreate]
    rfl
  have hput : assets.putFile (join (front ++ [name])) sdCardPath storage =
      .ok () (storage.overwrite (components sdCardPath ++ [name]) bytes) := by
    rw [Assets.putFile, assets.openAsset_join h, pure_bind, lastPart_concat hfront hname.2.1,
      pure_bind, components_slash_name hname]
    rw [get_bind, hfree, if_neg Bool.false_ne_true, bind_of_ok hnew, modify_eq, readLoop_eq,
      List.nil_append, Storage.overwrite_overwrite]
  rw [Assets.putAssetsToSDCard, assets.list_join h]
  simp only [children, List.map_nil, if_true, catchIOException, hput]

/-- The files of one directory, one after the other. -/
theorem forM_put_files {name : Str} {inner : List Node}
    (h : assets.lookup path = some (.dir name inner)) (hpath : path ≠ []) (sdCardPath : Str)
    (fuel : ℕ) {nodes : List Node} (hnodes : nodes ⊆ inner) (hfiles : ∀ c ∈ nodes, isFile c)
    (hnames : (nodes.map Node.name).Nodup) (storage : Storage)
    (hdir : storage.dirs (components sdCardPath) = true)
    (hfree : ∀ c ∈ nodes, storage.isThere (components sdCardPath ++ [c.name]) = false) :
    ∃ storage', (nodes.map Node.name).forM (fun stringFile =>
        assets.putAssetsToSDCard (fuel + 1) (join path ++ '/' :: stringFile) sdCardPath) storage =
          .ok () storage' ∧
      ∀ q bytes, storage'.files q = some bytes ↔
        storage.files q = some bytes ∨
          ∃ name, .file name bytes ∈ nodes ∧ q = components sdCardPath ++ [name] := by
  induction nodes generalizing storage with
  | nil => exact ⟨storage, rfl, fun q bytes => by simp⟩
  | cons c nodes ih =>
      rw [List.map_cons, List.nodup_cons] at hnames
      rw [List.forall_mem_cons] at hfiles hfree
      obtain ⟨hfile, hfiles⟩ := hfiles
      cases c with
      | dir cname cinner => cases hfile
      | file cname cbytes =>
          have hput := put_file (assets.lookup_child h (hnodes List.mem_cons_self)) hpath hdir
            hfree.1 fuel
          have hlater : ∀ c ∈ nodes, (storage.overwrite (components sdCardPath ++ [cname])
              cbytes).isThere (components sdCardPath ++ [c.name]) = false := by
            intro c hc
            rw [Storage.isThere_overwrite_of_ne, hfree.2 c hc]
            intro heq
            have hsame : c.name = cname := by simpa using heq
            exact hnames.1 (List.mem_map.mpr ⟨c, hc, hsame⟩)
          obtain ⟨storage', hrest, hfinal⟩ := ih (List.subset_of_cons_subset hnodes) hfiles hnames.2
            (storage.overwrite (components sdCardPath ++ [cname]) cbytes) hdir hlater
          refine ⟨storage', ?_, ?_⟩
          · rw [join_concat hpath] at hput
            rw [List.map_cons, List.forM_eq_forM, List.forM_cons, bind_of_ok hput]
            exact hrest
          · have hnone : storage.files (components sdCardPath ++ [cname]) = none :=
              Storage.files_eq_none_of_not_isThere hfree.1
            intro q bytes
            rw [hfinal, Storage.files_overwrite_eq_some_iff hnone, or_assoc]
            refine or_congr_right ?_
            constructor
            · rintro (⟨rfl, rfl⟩ | ⟨name, hmem, hq⟩)
              · exact ⟨cname, List.mem_cons_self, rfl⟩
              · exact ⟨name, List.mem_cons_of_mem _ hmem, hq⟩
            · rintro ⟨name, hmem, hq⟩
              rcases List.mem_cons.mp hmem with heq | hlater
              · cases heq
                exact Or.inl ⟨hq, rfl⟩
              · exact Or.inr ⟨name, hlater, hq⟩

/-- A directory of files only, copied to an empty directory. -/
theorem put_flat {name : Str} {inner : List Node}
    (h : assets.lookup path = some (.dir name inner)) (hpath : path ≠ [])
    (hfiles : ∀ c ∈ inner, isFile c) {sdCardPath : Str} {storage : Storage}
    (hempty : storage.EmptyAt (components sdCardPath)) (fuel : ℕ) :
    ∃ storage', assets.putAssetsToSDCard (fuel + 2) (join path) sdCardPath storage =
        .ok () storage' ∧
      ∀ q bytes, storage'.files q = some bytes ↔
        storage.files q = some bytes ∨
          ∃ name, .file name bytes ∈ inner ∧ q = components sdCardPath ++ path ++ [name] := by
  have hfound := assets.found h
  have hcomponents :
      components (sdCardPath ++ '/' :: join path) = components sdCardPath ++ path := by
    rw [components_append_slash, components_join hfound.names]
  have hbelow : components sdCardPath <+: components sdCardPath ++ path := List.prefix_append _ _
  have hne : components sdCardPath ++ path ≠ components sdCardPath := by simpa using hpath
  have hmake : makeDirectory (sdCardPath ++ '/' :: join path) storage =
      .ok () (storage.mkdirs (components sdCardPath ++ path)) := by
    show EStateM.Result.ok () (if storage.isThere (components (sdCardPath ++ '/' :: join path))
      then storage else storage.mkdirs (components (sdCardPath ++ '/' :: join path))) = _
    rw [hcomponents, hempty.isThere_below hbelow hne]
    rfl
  have hdir : (storage.mkdirs (components sdCardPath ++ path)).dirs
      (components (sdCardPath ++ '/' :: join path)) = true := by
    rw [hcomponents, Storage.dirs_mkdirs fun p => hempty.noFileOnWay hbelow]
    simp
  have hnames : (inner.map Node.name).Nodup :=
    List.pairwise_map.mpr (siblings_children hfound.wellFormed).2
  obtain ⟨storage', hforM, hfinal⟩ := forM_put_files h hpath
    (sdCardPath ++ '/' :: join path) fuel (List.Subset.refl inner) hfiles hnames
    (storage.mkdirs (components sdCardPath ++ path)) hdir
    (fun c _ => by rw [hcomponents]; exact hempty.isThere_mkdirs hbelow)
  refine ⟨storage', ?_, ?_⟩
  · rw [Assets.putAssetsToSDCard, assets.list_join h, if_neg (assets.list_ne_nil h hpath),
      catchIOException, bind_of_ok hmake, children, hforM]
  · intro q bytes
    rw [hfinal, Storage.files_mkdirs, hcomponents]

end Completes

/-! ## The whole tree -/

/-- The file that the copy should have, for an asset below `path`. -/
def Expected (path target : Path) : Node → Path → List UInt8 → Prop
  | .file name content, q, bytes => q = target ++ [name] ∧ bytes = content
  | .dir _ inner, q, bytes => ∃ rest, FileIn inner rest bytes ∧ q = target ++ path ++ rest

/-- The call returns, and below the target are exactly the files of the copy. -/
def Assets.Copies (assets : Assets) (path : Path) (node : Node) (sdCardPath : Str)
    (storage : Storage) : Prop :=
  ∃ depth, ∀ fuel, depth ≤ fuel →
    ∃ storage', assets.putAssetsToSDCard fuel (join path) sdCardPath storage = .ok () storage' ∧
      ∀ q bytes, components sdCardPath <+: q →
        (storage'.files q = some bytes ↔ Expected path (components sdCardPath) node q bytes)

/-- The branch that places files right is the only one taken: a file has a slash in its
path, and a directory has no directory in it. -/
def CopiedRight (path : Path) : Node → Prop
  | .file _ _ => 2 ≤ path.length
  | .dir _ inner => ∀ c ∈ inner, isFile c

/-- Every tree without empty directories has a file. -/
theorem Full.exists_fileIn {node : Node} (h : Full node) :
    isFile node ∨ ∃ rest bytes, FileIn (children node) rest bytes := by
  induction node with
  | file name bytes => exact Or.inl rfl
  | dir name inner ih =>
      refine Or.inr ?_
      cases h with
      | dir name ne below =>
          obtain ⟨c, hc⟩ := List.exists_mem_of_ne_nil inner ne
          rcases ih c hc (below c hc) with hfile | ⟨rest, bytes, hrest⟩
          · cases c with
            | file cname bytes => exact ⟨[cname], bytes, .file hc⟩
            | dir cname nodes => cases hfile
          · cases c with
            | file cname bytes => cases hrest <;> contradiction
            | dir cname nodes => exact ⟨cname :: rest, bytes, .dir hc hrest⟩

section Tree

variable {assets : Assets} {path : Path} {node : Node} {sdCardPath : Str} {storage : Storage}

theorem fileIn_of_flat {inner : List Node} (h : ∀ c ∈ inner, isFile c) {rest : Path}
    {bytes : List UInt8} :
    FileIn inner rest bytes ↔ ∃ name, .file name bytes ∈ inner ∧ rest = [name] := by
  constructor
  · intro hrest
    cases hrest with
    | file hmem => exact ⟨_, hmem, rfl⟩
    | dir hmem below => cases h _ hmem
  · rintro ⟨name, hmem, rfl⟩
    exact .file hmem

theorem Assets.copies_file {name : Str} {bytes : List UInt8}
    (h : assets.lookup path = some (.file name bytes)) (hpath : 2 ≤ path.length)
    (hempty : storage.EmptyAt (components sdCardPath)) :
    assets.Copies path (.file name bytes) sdCardPath storage := by
  obtain ⟨front, rfl⟩ := assets.exists_front h (by
    intro hnil
    simp [hnil] at hpath)
  have hfront : front ≠ [] := by
    rintro rfl
    simp at hpath
  have hbelow : components sdCardPath <+: components sdCardPath ++ [name] := List.prefix_append _ _
  have hfree := hempty.isThere_below hbelow (by simp)
  refine ⟨1, fun fuel hfuel => ?_⟩
  obtain ⟨fuel, rfl⟩ := Nat.exists_eq_add_of_le' hfuel
  refine ⟨storage.overwrite (components sdCardPath ++ [name]) bytes,
    put_file h hfront hempty.isDir hfree fuel, ?_⟩
  intro q content hq
  rw [Storage.files_overwrite_eq_some_iff (hempty.noFileBelow _ hbelow), hempty.noFileBelow q hq]
  simp [Expected]

theorem Assets.copies_flat {name : Str} {inner : List Node}
    (h : assets.lookup path = some (.dir name inner)) (hpath : path ≠ [])
    (hfiles : ∀ c ∈ inner, isFile c) (hempty : storage.EmptyAt (components sdCardPath)) :
    assets.Copies path (.dir name inner) sdCardPath storage := by
  refine ⟨2, fun fuel hfuel => ?_⟩
  obtain ⟨fuel, rfl⟩ := Nat.exists_eq_add_of_le' hfuel
  obtain ⟨storage', hput, hfinal⟩ := put_flat h hpath hfiles hempty fuel
  refine ⟨storage', hput, ?_⟩
  intro q bytes hq
  rw [hfinal, hempty.noFileBelow q hq, Expected]
  simp only [fileIn_of_flat hfiles]
  constructor
  · rintro (hnone | ⟨name, hmem, rfl⟩)
    · cases hnone
    · exact ⟨[name], ⟨name, hmem, rfl⟩, rfl⟩
  · rintro ⟨rest, ⟨name, hmem, rfl⟩, rfl⟩
    exact Or.inr ⟨name, hmem, rfl⟩

/-- A file at the top level: its path has no slash to cut at. -/
theorem Assets.not_copies_topLevel {name : Str} {bytes : List UInt8}
    (h : assets.lookup [name] = some (.file name bytes)) :
    ¬ assets.Copies [name] (.file name bytes) sdCardPath storage := by
  rintro ⟨depth, hcopies⟩
  obtain ⟨storage', hput, -⟩ := hcopies (depth + 1) (Nat.le_succ _)
  have hfound := assets.found h
  have hname : IsName name := hfound.names name (by simp)
  have hthrow : assets.putFile (join [name]) sdCardPath storage =
      .error .stringIndexOutOfBounds storage := by
    rw [Assets.putFile, assets.openAsset_join h, pure_bind, lastPart_single hname.2.1]
    rfl
  rw [Assets.putAssetsToSDCard, assets.list_join h] at hput
  simp only [children, List.map_nil, if_true, catchIOException, hthrow] at hput
  cases hput

/-- A shortest path among those of files that are not directly in the directory: nothing
is put there, since those deeper down are put deeper still. -/
theorem Assets.not_copies_nested {name : Str} {inner : List Node}
    (h : assets.lookup path = some (.dir name inner)) (hpath : path ≠ [])
    (hnested : ∃ c ∈ inner, ¬ isFile c) (hempty : storage.EmptyAt (components sdCardPath)) :
    ¬ assets.Copies path (.dir name inner) sdCardPath storage := by
  rintro ⟨depth, hcopies⟩
  obtain ⟨storage', hput, hfinal⟩ := hcopies depth (Nat.le_refl _)
  have hadds := adds_put h hpath depth sdCardPath storage
  rw [hput] at hadds
  have hexists : ∃ n rest bytes, rest.length = n ∧ 2 ≤ n ∧ FileIn inner rest bytes := by
    obtain ⟨c, hc, hdir⟩ := hnested
    cases c with
    | file cname bytes => exact absurd rfl hdir
    | dir cname nodes =>
        rcases ((assets.found h).full _ hc).exists_fileIn with hfile | ⟨rest, bytes, hrest⟩
        · exact absurd hfile hdir
        · refine ⟨_, cname :: rest, bytes, rfl, ?_, .dir hc hrest⟩
          have hpos := List.length_pos_of_ne_nil hrest.ne_nil
          rw [List.length_cons]
          omega
  classical
  obtain ⟨rest, bytes, hlength, htwo, hrest⟩ := Nat.find_spec hexists
  have hwanted := (hfinal (components sdCardPath ++ path ++ rest) bytes
    ((List.prefix_append _ _).trans (List.prefix_append _ _))).mpr ⟨rest, hrest, rfl⟩
  rcases hadds _ (by rw [final, hwanted]; simp) with hold | ⟨rest', bytes', hrest', hplace⟩
  · exact hold (hempty.noFileBelow _ ((List.prefix_append _ _).trans (List.prefix_append _ _)))
  · rcases Nat.lt_or_ge rest'.length 2 with hone | hdeep
    · -- a file directly in the directory is placed right, so it is not this one
      obtain ⟨name', rfl⟩ : ∃ name', rest' = [name'] := by
        have hpos := List.length_pos_of_ne_nil hrest'.ne_nil
        exact List.length_eq_one_iff.mp (by omega)
      rw [place, List.append_right_inj] at hplace
      rw [hplace, List.length_singleton] at hlength
      omega
    · have hfurther := lt_length_place path hpath (components sdCardPath ++ path) hdeep
      have hsum : (components sdCardPath ++ path ++ rest).length =
          (components sdCardPath ++ path).length + rest.length := List.length_append
      rw [← hplace, hsum] at hfurther
      have hshorter : rest'.length < Nat.find hexists := by omega
      exact Nat.find_min hexists hshorter ⟨rest', bytes', rfl, hdeep, hrest'⟩

/-- The copy is right exactly for a file that is not at the top level and for a directory
that has no directory in it. -/
theorem Assets.copies_iff (assets : Assets) {path : Path} {node : Node}
    (hlookup : assets.lookup path = some node) (hpath : path ≠ []) (sdCardPath : Str)
    (storage : Storage) (hempty : storage.EmptyAt (components sdCardPath)) :
    assets.Copies path node sdCardPath storage ↔ CopiedRight path node := by
  cases node with
  | file name bytes =>
      constructor
      · intro hcopies
        obtain ⟨front, rfl⟩ := assets.exists_front hlookup hpath
        cases front with
        | nil => exact absurd hcopies (assets.not_copies_topLevel hlookup)
        | cons n front => simp [CopiedRight]
      · intro hright
        exact assets.copies_file hlookup hright hempty
  | dir name inner =>
      constructor
      · intro hcopies c hc
        by_contra hdir
        exact assets.not_copies_nested hlookup hpath ⟨c, hc, hdir⟩ hempty hcopies
      · intro hright
        exact assets.copies_flat hlookup hpath hright hempty

end Tree

/-! ## A small tree -/

/-- The file `y` in the directory `e`. -/
def sampleInner : Node := .dir ['e'] [.file ['y'] [2]]

theorem siblings_singleton {node : Node} (h : IsName node.name) : Siblings [node] :=
  ⟨by simpa using h, List.pairwise_singleton _ _⟩

theorem wellFormed_sampleInner : WellFormed sampleInner :=
  .dir _ (siblings_singleton (by decide)) (by simp [WellFormed.file])

theorem full_sampleInner : Full sampleInner :=
  .dir _ (by simp) (by simp [Full.file])

/-- The file `x` at the top level, and `y` in `d/e`. -/
def sample : Assets where
  entries := [.file ['x'] [1], .dir ['d'] [sampleInner]]
  siblings := ⟨by decide, by decide⟩
  wellFormed := by
    rw [List.forall_mem_cons, List.forall_mem_singleton]
    refine ⟨.file _ _, .dir _ (siblings_singleton (by decide)) ?_⟩
    rw [List.forall_mem_singleton]
    exact wellFormed_sampleInner
  full := by
    rw [List.forall_mem_cons, List.forall_mem_singleton]
    refine ⟨.file _ _, .dir _ (by simp) ?_⟩
    rw [List.forall_mem_singleton]
    exact full_sampleInner

/-- A storage with the directory `/s` only. -/
def sampleStorage : Storage := ⟨fun _ => none, fun p => decide (p <+: [['s']])⟩

theorem emptyAt_sampleStorage : sampleStorage.EmptyAt (components ['/', 's']) where
  isDir := by decide
  noFileAbove := fun _ _ => rfl
  noFileBelow := fun _ _ => rfl
  noDirBelow := by
    intro p hp hne
    have hcomponents : components ['/', 's'] = [['s']] := by decide
    rw [hcomponents] at hp hne
    refine decide_eq_false fun hle => hne (hle.eq_of_length_le hp.length_le)

/-- The directory `d/e` is copied right. -/
theorem copies_inner : sample.Copies [['d'], ['e']] sampleInner ['/', 's'] sampleStorage :=
  (sample.copies_iff rfl (by simp) _ _ emptyAt_sampleStorage).mpr (by
    show ∀ c ∈ [Node.file ['y'] [2]], isFile c
    decide)

/-- The file `x` is not copied, and of `d` the file `y` is put to `/s/d/d/e/y`. -/
theorem not_copies_sample :
    ¬ sample.Copies [['x']] (.file ['x'] [1]) ['/', 's'] sampleStorage ∧
      ¬ sample.Copies [['d']] (.dir ['d'] [sampleInner]) ['/', 's'] sampleStorage :=
  ⟨sample.not_copies_topLevel rfl,
    sample.not_copies_nested rfl (by simp) ⟨sampleInner, by simp, by decide⟩
      emptyAt_sampleStorage⟩

end StudyNotes.AssetsUtil
