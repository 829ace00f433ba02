/-
# The tables one round generates

With a `Filer` that creates every class once, the classes written by a round are
determined by the valid elements collected so far: the Path class of a group maps
a path to the last bean filed there under that path, and the Group class lists
exactly the groups.  Classes that exist are never touched again.
-/

import StudyNotes.Lib.Grouping
import StudyNotes.Router.Processor

namespace StudyNotes.Router

open StudyNotes.Text StudyNotes.Grouping

/-! ## Maps built by `put` statements -/

theorem runPuts_append_singleton {V : Type} (puts : List (Str × V)) (kv : Str × V) :
    runPuts (puts ++ [kv]) = (runPuts puts).insert kv.1 kv.2 := by
  simp [runPuts]

/-- A later `put` wins. -/
theorem lookup_runPuts {V : Type} (puts : List (Str × V)) (k : Str) :
    (runPuts puts).lookup k = puts.reverse.lookup k := by
  induction puts using List.reverseRecOn with
  | nil => rfl
  | append_singleton puts kv ih =>
      rw [runPuts_append_singleton, List.reverse_append, List.reverse_singleton,
        List.singleton_append]
      by_cases h : k = kv.1
      · subst h
        rw [AList.lookup_insert, List.lookup_cons_self]
      · rw [AList.lookup_insert_ne h, ih, List.lookup_cons, beq_eq_false_iff_ne.mpr h]

/-- With distinct keys the order of the statements does not matter. -/
theorem mem_iff_lookup_runPuts {V : Type} {puts : List (Str × V)}
    (hnodup : (puts.map Prod.fst).Nodup) {k : Str} {v : V} :
    (runPuts puts).lookup k = some v ↔ (k, v) ∈ puts := by
  induction puts using List.reverseRecOn with
  | nil => simp [runPuts]
  | append_singleton puts kv ih =>
      rw [List.map_append, List.map_singleton, List.nodup_append] at hnodup
      obtain ⟨hputs, -, hdisjoint⟩ := hnodup
      rw [runPuts_append_singleton, List.mem_append, List.mem_singleton]
      by_cases h : k = kv.1
      · subst h
        have hnew : (kv.1, v) ∉ puts := fun hmem =>
          hdisjoint kv.1 (List.mem_map.mpr ⟨_, hmem, rfl⟩) kv.1 (by simp) rfl
        rw [AList.lookup_insert]
        constructor
        · intro hv
          exact Or.inr (by rw [← Option.some.inj hv])
        · rintro (hmem | heq)
          · exact absurd hmem hnew
          · rw [← heq]
      · rw [AList.lookup_insert_ne h, ih hputs]
        constructor
        · exact Or.inl
        · rintro (hmem | rfl)
          · exact hmem
          · exact absurd rfl h

/-! ## Filing the elements of a round -/

/-- What the processor accepts: an Activity or a Call with a group in its path. -/
structure Element.Valid (e : Element) : Prop where
  typed : e.typeEnum? ≠ none
  hasGroup : ∃ g, HasGroup e.path g

/-- The bean a valid element is filed as. -/
def Element.bean (e : Element) : RouterBean where
  typeEnum := e.typeEnum?.getD .activity
  myClass := e.className
  path := e.path
  group := effectiveGroup e.group ((cutGroup e.path).getD [])

theorem Element.bean_group {e : Element} {g : Str} (h : HasGroup e.path g) :
    e.bean.group = effectiveGroup e.group g := by
  simp only [Element.bean, h.cutGroup, Option.getD_some]

theorem processElement_of_valid (s : ProcessorState) {e : Element} (he : e.Valid) :
    processElement s e = .ok (fileBean s e.bean) := by
  obtain ⟨g, hg⟩ := he.hasGroup
  obtain ⟨type, htype⟩ := Option.ne_none_iff_exists'.mp he.typed
  have hpath : e.path.isEmpty = false := by
    obtain ⟨rest, heq, -⟩ := hg
    rw [heq]
    rfl
  have hcheck := checkRouterPath_of_hasGroup ⟨type, e.className, e.path, e.group⟩ hg
  rw [processElement, hpath, htype]
  simp only [Bool.false_eq_true, if_false, hcheck]
  simp [Element.bean, htype, hg.cutGroup, bind, Except.bind]

theorem foldlM_processElement (elements : List Element) (helements : ∀ e ∈ elements, e.Valid)
    (s : ProcessorState) :
    elements.foldlM processElement s =
      .ok ((elements.map Element.bean).foldl fileBean s) := by
  induction elements generalizing s with
  | nil => rfl
  | cons e elements ih =>
      rw [List.foldlM_cons, processElement_of_valid s (helements e (by simp))]
      exact ih (fun d hd => helements d (by simp [hd])) _

/-- The beans go to the lists of their groups. -/
theorem mAllPathMap_foldl_fileBean (beans : List RouterBean) (s : ProcessorState) :
    (beans.foldl fileBean s).mAllPathMap = addAll RouterBean.group id s.mAllPathMap beans := by
  induction beans generalizing s with
  | nil => rfl
  | cons bean beans ih =>
      rw [List.foldl_cons, ih]
      rfl

@[simp]
theorem files_foldl_fileBean (beans : List RouterBean) (s : ProcessorState) :
    (beans.foldl fileBean s).files = s.files := by
  induction beans generalizing s with
  | nil => rfl
  | cons bean beans ih => rw [List.foldl_cons, ih, fileBean]

@[simp]
theorem mAllGroupMap_foldl_fileBean (beans : List RouterBean) (s : ProcessorState) :
    (beans.foldl fileBean s).mAllGroupMap = s.mAllGroupMap := by
  induction beans generalizing s with
  | nil => rfl
  | cons bean beans ih => rw [List.foldl_cons, ih, fileBean]

/-! ## Writing the classes -/

@[simp]
theorem className_pathFile (g : Str) (beans : List RouterBean) :
    (pathFile g beans).className = PATH_FILE_NAME ++ g := rfl

@[simp]
theorem className_groupFile (env : ProcessingEnv) (groups : HashMap Str) :
    (groupFile env groups).className = GROUP_FILE_NAME ++ env.options := rfl

/-- The two names differ at their tenth character. -/
theorem pathName_ne_groupName (g m : Str) : PATH_FILE_NAME ++ g ≠ GROUP_FILE_NAME ++ m :=
  append_ne_append 10 (by decide) (by decide) (by decide) g m

/-- A class of this name has been created. -/
def created (files : List JavaFile) (name : Str) : Bool := files.any (·.className = name)

theorem createOnce_eq (n : ℕ) (files : List JavaFile) (file : JavaFile) :
    createOnce n files file =
      if created files file.className then .ioException else .ok := rfl

theorem created_append_pathFile_of_ne (files : List JavaFile) {g g' : Str} (h : g ≠ g')
    (beans : List RouterBean) :
    created (files ++ [pathFile g beans]) (PATH_FILE_NAME ++ g') =
      created files (PATH_FILE_NAME ++ g') := by
  simp [created, h]

/-- The loop writes the groups whose class does not exist yet, and no other. -/
theorem files_writePathFiles {env : ProcessingEnv} (henv : env.filer = createOnce)
    (entries : List (Sigma fun _ : Str => List RouterBean)) (hnodup : entries.NodupKeys)
    (s : ProcessorState) :
    (writePathFiles env entries s).files =
      s.files ++ (entries.filter fun x => !created s.files (PATH_FILE_NAME ++ x.1)).map
        fun x => pathFile x.1 x.2 := by
  induction entries generalizing s with
  | nil => simp [writePathFiles]
  | cons x entries ih =>
      obtain ⟨g, beans⟩ := x
      rw [List.nodupKeys_cons] at hnodup
      rw [writePathFiles, henv, createOnce_eq, className_pathFile]
      by_cases h : created s.files (PATH_FILE_NAME ++ g) = true
      · rw [if_pos h]
        simpa [h] using ih hnodup.2 _
      · rw [if_neg h]
        simp only [ih hnodup.2, List.append_assoc, List.singleton_append]
        rw [List.filter_cons_of_pos (by simpa using h), List.map_cons]
        congr 3
        apply List.filter_congr
        intro y hy
        have hkey : y.1 ∈ entries.keys := List.mem_map_of_mem hy
        have hne : g ≠ y.1 := fun heq => hnodup.1 (heq ▸ hkey)
        rw [created_append_pathFile_of_ne _ hne]

/-- Exactly the groups whose class was written enter `mAllGroupMap`. -/
theorem lookup_mAllGroupMap_writePathFiles {env : ProcessingEnv}
    (henv : env.filer = createOnce)
    (entries : List (Sigma fun _ : Str => List RouterBean)) (hnodup : entries.NodupKeys)
    (s : ProcessorState) (g : Str) :
    (writePathFiles env entries s).mAllGroupMap.lookup g =
      if g ∈ entries.keys ∧ created s.files (PATH_FILE_NAME ++ g) = false then
        some (PATH_FILE_NAME ++ g)
      else s.mAllGroupMap.lookup g := by
  induction entries generalizing s with
  | nil => simp [writePathFiles]
  | cons x entries ih =>
      obtain ⟨g', beans⟩ := x
      rw [List.nodupKeys_cons] at hnodup
      rw [writePathFiles, henv, createOnce_eq, className_pathFile]
      by_cases h : created s.files (PATH_FILE_NAME ++ g') = true
      · rw [if_pos h]
        simp only [ih hnodup.2, List.keys_cons, List.mem_cons]
        by_cases hg : g = g'
        · subst hg
          simp [h]
        · simp [hg]
      · rw [if_neg h]
        simp only [ih hnodup.2, List.keys_cons, List.mem_cons]
        by_cases hg : g = g'
        · subst hg
          simp [hnodup.1, h]
        · rw [created_append_pathFile_of_ne _ (Ne.symm hg), AList.lookup_insert_ne hg]
          simp [hg]

@[simp]
theorem mAllPathMap_writePathFiles (env : ProcessingEnv)
    (entries : List (Sigma fun _ : Str => List RouterBean)) (s : ProcessorState) :
    (writePathFiles env entries s).mAllPathMap = s.mAllPathMap := by
  induction entries generalizing s with
  | nil => rfl
  | cons x entries ih =>
      rw [writePathFiles]
      cases env.filer s.attempts s.files (pathFile x.1 x.2) with
      | ok => exact ih _
      | ioException => exact ih _
      | otherException => rfl

/-- The Group class is written once, when there is something to list. -/
theorem createGroupFile_of_createOnce {env : ProcessingEnv} (henv : env.filer = createOnce)
    (s : ProcessorState) :
    createGroupFile env s =
      if s.mAllGroupMap.entries.isEmpty || s.mAllPathMap.entries.isEmpty then s
      else if created s.files (GROUP_FILE_NAME ++ env.options) then
        { s with attempts := s.attempts + 1 }
      else
        { s with
          attempts := s.attempts + 1
          files := s.files ++ [groupFile env s.mAllGroupMap] } := by
  simp only [createGroupFile, henv, createOnce_eq, className_groupFile]
  by_cases h : created s.files (GROUP_FILE_NAME ++ env.options) = true <;> simp [h]

/-! ## The tables a set of classes holds -/

/-- The generated class of a name. -/
def findClass (files : List JavaFile) (name : Str) : Option JavaFile :=
  files.find? (·.className = name)

/-- The map of the Path class of a group. -/
def pathTable (files : List JavaFile) (g : Str) : Option (Str → Option RouterBean) :=
  match findClass files (PATH_FILE_NAME ++ g) with
  | some (.path _ puts) => some fun p => (runPuts puts).lookup p
  | _ => none

/-- The map of the Group class of a module. -/
def groupTable (files : List JavaFile) (moduleName : Str) : Option (Str → Option Str) :=
  match findClass files (GROUP_FILE_NAME ++ moduleName) with
  | some (.group _ puts) => some fun g => (runPuts puts).lookup g
  | _ => none

theorem findClass_eq_some_of_forall {files : List JavaFile} {name : Str} {file : JavaFile}
    (hmem : file ∈ files) (hname : file.className = name)
    (hunique : ∀ f ∈ files, f.className = name → f = file) :
    findClass files name = some file := by
  cases hfind : findClass files name with
  | none =>
      rw [findClass, List.find?_eq_none] at hfind
      exact absurd hname (by simpa using hfind file hmem)
  | some f =>
      have hf := List.find?_some hfind
      rw [hunique f (List.mem_of_find?_eq_some hfind) (by simpa using hf)]

theorem findClass_append_left {files : List JavaFile} {name : Str}
    (h : findClass files name ≠ none) (more : List JavaFile) :
    findClass (files ++ more) name = findClass files name := by
  obtain ⟨f, hf⟩ := Option.ne_none_iff_exists'.mp h
  rw [findClass] at hf
  rw [findClass, findClass, List.find?_append, hf, Option.some_or]

/-- The beans of a list of elements that belong to a group. -/
def beansIn (elements : List Element) (g : Str) : List RouterBean :=
  (elements.map Element.bean).filter (·.group = g)

/-- A Path class maps a path to the last bean filed under it. -/
theorem lookup_pathPuts (beans : List RouterBean) (p : Str) :
    (runPuts (beans.map fun bean => (bean.path, bean))).lookup p =
      beans.reverse.find? (·.path = p) := by
  rw [lookup_runPuts, ← List.map_reverse]
  generalize beans.reverse = l
  induction l with
  | nil => rfl
  | cons bean l ih =>
      rw [List.map_cons, List.lookup_cons, List.find?_cons, ih]
      by_cases h : bean.path = p
      · simp [h]
      · rw [beq_eq_false_iff_ne.mpr (Ne.symm h)]
        simp [h]

/-- The state after the elements of a first round have been filed. -/
def filed (elements : List Element) : ProcessorState :=
  (elements.map Element.bean).foldl fileBean {}

theorem mem_entries_filed {elements : List Element} {g : Str} {beans : List RouterBean} :
    (⟨g, beans⟩ : Sigma fun _ : Str => List RouterBean) ∈ (filed elements).mAllPathMap.entries ↔
      beans = beansIn elements g ∧ beansIn elements g ≠ [] := by
  rw [filed, mAllPathMap_foldl_fileBean, (noEmpty_empty.addAll _ _ _).mem_entries_iff,
    members_addAll, List.map_id]
  rfl

/-- What a first round leaves: its Path classes and, last, its Group class. -/
structure FirstRound (env : ProcessingEnv) (elements : List Element) (s : ProcessorState) :
    Prop where
  processed : process env {} elements = .ok s
  files_eq : s.files =
    (env.pathOrder.arrange (filed elements).mAllPathMap.entries).map
      (fun x => pathFile x.1 x.2) ++ [groupFile env s.mAllGroupMap]
  groups : ∀ g, s.mAllGroupMap.lookup g =
    if beansIn elements g = [] then none else some (PATH_FILE_NAME ++ g)

theorem beansIn_ne_nil_of_mem {elements : List Element} {e : Element} (he : e ∈ elements) :
    beansIn elements e.bean.group ≠ [] := by
  apply List.ne_nil_of_mem
  exact List.mem_filter.mpr ⟨List.mem_map_of_mem he, by simp⟩

theorem created_map_pathFile_groupName
    (entries : List (Sigma fun _ : Str => List RouterBean)) (m : Str) :
    created (entries.map fun x => pathFile x.1 x.2) (GROUP_FILE_NAME ++ m) = false := by
  rw [created, List.any_map, List.any_eq_false]
  intro x _
  exact fun h => pathName_ne_groupName x.1 m (of_decide_eq_true h)

/-- A first round of valid elements writes all its classes. -/
theorem exists_firstRound {env : ProcessingEnv} (henv : env.filer = createOnce)
    {elements : List Element} (hne : elements ≠ []) (hvalid : ∀ e ∈ elements, e.Valid) :
    ∃ s, FirstRound env elements s := by
  have hkeys : (env.pathOrder.arrange (filed elements).mAllPathMap.entries).NodupKeys :=
    (List.perm_nodupKeys (env.pathOrder.perm _)).mpr (filed elements).mAllPathMap.nodupKeys
  have hnofiles : (filed elements).files = [] := files_foldl_fileBean _ _
  let written := createPathFile env (filed elements)
  have hfiles : written.files =
      (env.pathOrder.arrange (filed elements).mAllPathMap.entries).map
        fun x => pathFile x.1 x.2 := by
    have h := files_writePathFiles henv _ hkeys (filed elements)
    rw [hnofiles] at h
    simpa [written, createPathFile, created] using h
  have hgroups : ∀ g, written.mAllGroupMap.lookup g =
      if beansIn elements g = [] then none else some (PATH_FILE_NAME ++ g) := by
    intro g
    have h := lookup_mAllGroupMap_writePathFiles henv _ hkeys (filed elements) g
    have hmem : g ∈ (env.pathOrder.arrange (filed elements).mAllPathMap.entries).keys ↔
        beansIn elements g ≠ [] := by
      rw [List.mem_keys]
      simp only [(env.pathOrder.perm _).mem_iff, mem_entries_filed]
      exact ⟨fun ⟨_, _, hg⟩ => hg, fun hg => ⟨_, rfl, hg⟩⟩
    rw [show written.mAllGroupMap = (writePathFiles env _ (filed elements)).mAllGroupMap from rfl,
      h, hnofiles, show (filed elements).mAllGroupMap = ∅ from mAllGroupMap_foldl_fileBean _ _]
    by_cases hg : beansIn elements g = [] <;> simp [hmem, hg, created]
  obtain ⟨e, he⟩ := List.exists_mem_of_ne_nil elements hne
  have hlookup := hgroups e.bean.group
  rw [if_neg (beansIn_ne_nil_of_mem he)] at hlookup
  have hpaths : written.mAllPathMap.entries.isEmpty = false := by
    rw [show written.mAllPathMap = (filed elements).mAllPathMap from
      mAllPathMap_writePathFiles _ _ _]
    exact List.isEmpty_eq_false_iff.mpr
      (List.ne_nil_of_mem (mem_entries_filed.mpr ⟨rfl, beansIn_ne_nil_of_mem he⟩))
  have hgroup : createGroupFile env written =
      { written with
        attempts := written.attempts + 1
        files := written.files ++ [groupFile env written.mAllGroupMap] } := by
    rw [createGroupFile_of_createOnce henv, entries_ne_nil_of_lookup hlookup, hpaths, hfiles,
      created_map_pathFile_groupName]
    rfl
  refine ⟨createGroupFile env written, ?_, ?_, ?_⟩
  · rw [process, List.isEmpty_eq_false_iff.mpr hne, foldlM_processElement elements hvalid]
    rfl
  · rw [hgroup, hfiles]
  · rw [hgroup]
    exact hgroups

section FirstRound

variable {env : ProcessingEnv} {elements : List Element} {s : ProcessorState}

/-- The Path class of a group with elements. -/
theorem FirstRound.findClass_path (h : FirstRound env elements s) {g : Str}
    (hg : beansIn elements g ≠ []) :
    findClass s.files (PATH_FILE_NAME ++ g) = some (pathFile g (beansIn elements g)) := by
  rw [h.files_eq]
  apply findClass_eq_some_of_forall
  · apply List.mem_append_left
    exact List.mem_map.mpr ⟨⟨g, beansIn elements g⟩,
      ((env.pathOrder.perm _).mem_iff).mpr (mem_entries_filed.mpr ⟨rfl, hg⟩), rfl⟩
  · rfl
  · intro f hf hname
    rcases List.mem_append.mp hf with hpath | hgroup
    · obtain ⟨⟨g', beans⟩, hmem, rfl⟩ := List.mem_map.mp hpath
      obtain rfl : g' = g := List.append_cancel_left hname
      rw [(env.pathOrder.perm _).mem_iff, mem_entries_filed] at hmem
      rw [hmem.1]
    · rw [List.mem_singleton.mp hgroup] at hname
      exact absurd hname.symm (pathName_ne_groupName _ _)

/-- The Group class of the module. -/
theorem FirstRound.findClass_group (h : FirstRound env elements s) :
    findClass s.files (GROUP_FILE_NAME ++ env.options) =
      some (groupFile env s.mAllGroupMap) := by
  rw [h.files_eq]
  apply findClass_eq_some_of_forall
  · exact List.mem_append_right _ (List.mem_singleton_self _)
  · rfl
  · intro f hf hname
    rcases List.mem_append.mp hf with hpath | hgroup
    · obtain ⟨x, _, rfl⟩ := List.mem_map.mp hpath
      exact absurd hname (pathName_ne_groupName _ _)
    · exact List.mem_singleton.mp hgroup

theorem FirstRound.pathTable (h : FirstRound env elements s) {g : Str}
    (hg : beansIn elements g ≠ []) :
    pathTable s.files g =
      some fun p => (beansIn elements g).reverse.find? (·.path = p) := by
  rw [Router.pathTable, h.findClass_path hg]
  simp only [pathFile, lookup_pathPuts]

/-- The Group class lists exactly the groups with elements. -/
theorem FirstRound.lookup_groupPuts (h : FirstRound env elements s) (g : Str) :
    (runPuts ((env.groupOrder.arrange s.mAllGroupMap.entries).map fun entry =>
      (entry.1, qualifiedName env.aptPackage entry.2))).lookup g =
      if beansIn elements g = [] then none
      else some (qualifiedName env.aptPackage (PATH_FILE_NAME ++ g)) := by
  have hperm := env.groupOrder.perm s.mAllGroupMap.entries
  have hnodup : (((env.groupOrder.arrange s.mAllGroupMap.entries).map fun entry =>
      (entry.1, qualifiedName env.aptPackage entry.2)).map Prod.fst).Nodup := by
    rw [List.map_map]
    exact ((hperm.map Sigma.fst).nodup_iff).mpr s.mAllGroupMap.nodupKeys
  apply Option.ext
  intro v
  rw [mem_iff_lookup_runPuts hnodup, List.mem_map]
  simp only [hperm.mem_iff]
  have hentry : ∀ name, (⟨g, name⟩ : Sigma fun _ : Str => Str) ∈ s.mAllGroupMap.entries ↔
      beansIn elements g ≠ [] ∧ PATH_FILE_NAME ++ g = name := by
    intro name
    rw [← AList.mem_lookup_iff, Option.mem_def, h.groups]
    by_cases hg : beansIn elements g = [] <;> simp [hg]
  constructor
  · rintro ⟨⟨g', name⟩, hmem, heq⟩
    obtain ⟨hkey, rfl⟩ := Prod.mk.inj heq
    obtain rfl : g' = g := hkey
    obtain ⟨hg, hname⟩ := (hentry name).mp hmem
    rw [if_neg hg, hname]
  · intro hv
    by_cases hg : beansIn elements g = []
    · simp [hg] at hv
    · rw [if_neg hg] at hv
      obtain rfl := Option.some.inj hv
      exact ⟨⟨g, PATH_FILE_NAME ++ g⟩, (hentry _).mpr ⟨hg, rfl⟩, rfl⟩

theorem FirstRound.groupTable (h : FirstRound env elements s) :
    groupTable s.files env.options = some fun g =>
      if beansIn elements g = [] then none
      else some (qualifiedName env.aptPackage (PATH_FILE_NAME ++ g)) := by
  rw [Router.groupTable, h.findClass_group]
  simp only [groupFile, h.lookup_groupPuts]

end FirstRound

/-! ## Two Activities of the application module -/

/-- The options of the application module, with the documented filer. -/
def appModule : ProcessingEnv where
  options := "app".toList
  aptPackage := "com.chencc.androidstudynotescode".toList
  aptPackage_ne := by decide
  filer := createOnce
  pathOrder := .listed _
  groupOrder := .listed _

def mainActivity : Element where
  className := "MainActivity".toList
  isActivity := true
  isCall := false
  path := "/app/MainActivity".toList
  group := "app".toList

def batteryActivity : Element where
  className := "BatteryActivity".toList
  isActivity := true
  isCall := false
  path := "/app/optimization/BatteryActivity".toList
  group := "app".toList

theorem mainActivity_hasGroup : HasGroup mainActivity.path "app".toList :=
  ⟨"MainActivity".toList, by decide, by decide⟩

theorem batteryActivity_hasGroup : HasGroup batteryActivity.path "app".toList :=
  ⟨"optimization/BatteryActivity".toList, by decide, by decide⟩

theorem mainActivity_valid : mainActivity.Valid := ⟨by decide, _, mainActivity_hasGroup⟩

theorem batteryActivity_valid : batteryActivity.Valid := ⟨by decide, _, batteryActivity_hasGroup⟩

end StudyNotes.Router
