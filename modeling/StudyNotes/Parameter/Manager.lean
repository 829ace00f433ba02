/-
# Finding the generated parameter class

`ParameterProcessor` names the class it writes after the simple name of the
annotated class, `ParameterManager` looks it up under the binary name, so the two
meet on top-level classes.  Where nothing is found the exception is printed and
the null reference is used all the same.
-/

import Mathlib.Data.List.AList
import StudyNotes.Lib.Grouping
import StudyNotes.Lib.LruCache
import StudyNotes.Parameter.Injection
import StudyNotes.Router.Processor

namespace StudyNotes.Parameter

open StudyNotes.Text StudyNotes.Grouping StudyNotes.Router

/-! ## Names of classes -/

/-- A class: its package, the simple names of the classes around it from the outside
in, and its own.  The default package is the empty text. -/
structure TypeElement where
  package : Str
  enclosing : List Str
  simpleName : Str
  isActivity : Bool
  deriving DecidableEq

/-- A name within a package. -/
def inPackage (package name : Str) : Str :=
  if package.isEmpty then name else qualifiedName package name

/-- The simple names of nested classes, joined by dollar signs. -/
def nestedName (enclosing : List Str) (simpleName : Str) : Str :=
  enclosing.foldr (fun outer rest => outer ++ '$' :: rest) simpleName

/-- `Class.getName()`. -/
def TypeElement.binaryName (c : TypeElement) : Str :=
  inPackage c.package (nestedName c.enclosing c.simpleName)

/-- `ProcessorConfig.PARAMETER_FILE_NAME` and `ParameterManager.FILE_SUFFIX_NAME`. -/
def PARAMETER_FILE_NAME : Str := "$$Parameter".toList

/-- The full name of the class written for `c`. -/
def generatedName (c : TypeElement) : Str :=
  inPackage c.package (c.simpleName ++ PARAMETER_FILE_NAME)

/-- The name looked up for an instance of `c`. -/
def lookupName (c : TypeElement) : Str := c.binaryName ++ PARAMETER_FILE_NAME

theorem inPackage_append (package name suffix : Str) :
    inPackage package (name ++ suffix) = inPackage package name ++ suffix := by
  rw [inPackage, inPackage]
  split
  · rfl
  · simp [qualifiedName]

theorem inPackage_inj {package name name' : Str} :
    inPackage package name = inPackage package name' ↔ name = name' := by
  rw [inPackage, inPackage]
  split
  · rfl
  · simp [qualifiedName]

theorem length_nestedName (enclosing : List Str) (simpleName : Str) :
    simpleName.length + enclosing.length ≤ (nestedName enclosing simpleName).length := by
  induction enclosing with
  | nil => exact le_rfl
  | cons outer enclosing ih =>
      rw [nestedName, List.foldr_cons, ← nestedName, List.length_append, List.length_cons,
        List.length_cons]
      omega

/-- The two names agree exactly on top-level classes. -/
theorem generatedName_eq_lookupName_iff {c : TypeElement} :
    generatedName c = lookupName c ↔ c.enclosing = [] := by
  rw [generatedName, lookupName, TypeElement.binaryName, ← inPackage_append, inPackage_inj,
    List.append_cancel_right_eq]
  constructor
  · intro h
    have hlength := length_nestedName c.enclosing c.simpleName
    rw [← h] at hlength
    exact List.length_eq_zero_iff.mp (by omega)
  · intro h
    rw [h]
    rfl

/-! ## The processor -/

/-- A generated class: its name, the class it serves and that class's fields. -/
structure ParameterClass where
  name : Str
  target : TypeElement
  fields : List Field

/-- `tempParameterMap`: the annotated fields by the class that declares them. -/
def tempParameterMap (elements : List (TypeElement × Field)) :
    AList fun _ : TypeElement => List Field :=
  elements.foldl (fun m e => m.insert e.1 ((m.lookup e.1).getD [] ++ [e.2])) ∅

/-- `writeTo(filer)`: a second class of one name is refused, and the refusal is
swallowed. -/
def writeTo (files : List ParameterClass) (file : ParameterClass) : List ParameterClass :=
  if files.any (·.name = file.name) then files else files ++ [file]

/-- The body of the loop over `tempParameterMap`. -/
def writeEntry (files : List ParameterClass)
    (entry : Sigma fun _ : TypeElement => List Field) :
    Except JavaException (List ParameterClass) :=
  if entry.1.isActivity then .ok (writeTo files ⟨generatedName entry.1, entry.1, entry.2⟩)
  else .error (.runtime "@Parameter注解目前仅限用于Activity类之上")

/-- `ParameterProcessor.process` on the annotated fields of a round, with the order
in which the hash map lists its entries. -/
def process (order : IterationOrder (Sigma fun _ : TypeElement => List Field))
    (elements : List (TypeElement × Field)) : Except JavaException (List ParameterClass) :=
  (order.arrange (tempParameterMap elements).entries).foldlM writeEntry []

/-! ## The manager -/

/-- An Activity object with the extras of its Intent. -/
structure Activity where
  type : TypeElement
  extras : Bundle
  fields : Str → Extra

/-- `getParameter(activity)` of a generated class: the cast of its first statement,
then the assignments. -/
def ParameterClass.getParameter (app : Application) (g : ParameterClass) (activity : Activity) :
    Except JavaException (Str → Extra) :=
  if activity.type = g.target || app.instanceOf activity.type.binaryName g.target.binaryName then
    runStatements app activity.extras g.fields activity.fields
  else .error .classCast

/-- `ParameterManager.loadParameter`, with the cache as it is left.  A class that is
not found leaves `parameterGet` null. -/
def loadParameter (app : Application) (files : List ParameterClass)
    (cache : LruCache Str ParameterClass) (activity : Activity) :
    Except JavaException (Str → Extra) × LruCache Str ParameterClass :=
  match cache.get (lookupName activity.type) with
  | (some g, cache) => (g.getParameter app activity, cache)
  | (none, cache) =>
    match files.find? (·.name = lookupName activity.type) with
    | some g => (g.getParameter app activity, cache.put (lookupName activity.type) g)
    | none => (.error .nullPointer, cache)

/-- The cache of the manager after earlier calls. -/
def cacheAfter (app : Application) (files : List ParameterClass) (earlier : List Activity) :
    LruCache Str ParameterClass :=
  earlier.foldl (fun cache activity => (loadParameter app files cache activity).2)
    { maxSize := 100 }

/-! ## What the processor writes -/

/-- The annotated fields of a class. -/
def fieldsOf (elements : List (TypeElement × Field)) (c : TypeElement) : List Field :=
  (elements.filter (·.1 = c)).map Prod.snd

theorem mem_fieldsOf {elements : List (TypeElement × Field)} {c : TypeElement} {f : Field} :
    f ∈ fieldsOf elements c ↔ (c, f) ∈ elements := by
  simp [fieldsOf]

theorem tempParameterMap_eq (elements : List (TypeElement × Field)) :
    tempParameterMap elements = addAll Prod.fst Prod.snd ∅ elements := rfl

/-- The entries of the map are the classes with annotated fields. -/
theorem mem_entries_tempParameterMap {elements : List (TypeElement × Field)} {c : TypeElement}
    {fields : List Field} :
    (⟨c, fields⟩ : Sigma fun _ : TypeElement => List Field) ∈ (tempParameterMap elements).entries ↔
      fields = fieldsOf elements c ∧ fieldsOf elements c ≠ [] := by
  rw [tempParameterMap_eq, (noEmpty_empty.addAll _ _ _).mem_entries_iff, members_addAll]
  rfl

/-- The generated class of an entry. -/
def classOf (entry : Sigma fun _ : TypeElement => List Field) : ParameterClass :=
  ⟨generatedName entry.1, entry.1, entry.2⟩

theorem find?_writeTo (files : List ParameterClass) (file : ParameterClass) (name : Str) :
    (writeTo files file).find? (·.name = name) =
      (files ++ [file]).find? (·.name = name) := by
  rw [writeTo]
  split
  · rename_i hany
    obtain ⟨g, hg, hname⟩ := List.any_eq_true.mp hany
    rw [List.find?_append]
    by_cases h : file.name = name
    · cases hfind : files.find? (·.name = name) with
      | some g' => rfl
      | none =>
          have hnot := List.find?_eq_none.mp hfind g hg
          exact absurd (decide_eq_true ((of_decide_eq_true hname).trans h)) hnot
    · rw [List.find?_cons_of_neg (by simpa using h), List.find?_nil, Option.or_none]
  · rfl

/-- Of several classes with one name, the first is found. -/
theorem foldlM_writeEntry {entries : List (Sigma fun _ : TypeElement => List Field)}
    (hactivities : ∀ entry ∈ entries, entry.1.isActivity = true) (files : List ParameterClass) :
    ∃ files', entries.foldlM writeEntry files = .ok files' ∧
      ∀ name, files'.find? (·.name = name) =
        (files ++ entries.map classOf).find? (·.name = name) := by
  induction entries generalizing files with
  | nil => exact ⟨files, rfl, fun name => by rw [List.map_nil, List.append_nil]⟩
  | cons entry entries ih =>
      obtain ⟨files', hfold, hfind⟩ := ih
        (fun x hx => hactivities x (List.mem_cons_of_mem _ hx)) (writeTo files (classOf entry))
      have hentry : writeEntry files entry = .ok (writeTo files (classOf entry)) :=
        if_pos (hactivities entry List.mem_cons_self)
      refine ⟨files', ?_, fun name => ?_⟩
      · rw [List.foldlM_cons, hentry]
        exact hfold
      · rw [hfind, List.find?_append, find?_writeTo, ← List.find?_append, List.append_assoc]
        rfl

theorem exists_process (order : IterationOrder (Sigma fun _ : TypeElement => List Field))
    {elements : List (TypeElement × Field)} (hactivities : ∀ e ∈ elements, e.1.isActivity = true) :
    ∃ files, process order elements = .ok files ∧
      ∀ name, files.find? (·.name = name) =
        ((order.arrange (tempParameterMap elements).entries).map classOf).find?
          (·.name = name) := by
  apply foldlM_writeEntry
  intro entry hentry
  rw [(order.perm _).mem_iff] at hentry
  obtain ⟨c, fields⟩ := entry
  obtain ⟨f, hf⟩ := List.exists_mem_of_ne_nil _ (mem_entries_tempParameterMap.mp hentry).2
  exact hactivities (c, f) (mem_fieldsOf.mp hf)

/-! ## The cache does not matter -/

/-- `loadParameter` as if nothing were cached. -/
def loadUncached (app : Application) (files : List ParameterClass) (activity : Activity) :
    Except JavaException (Str → Extra) :=
  match files.find? (·.name = lookupName activity.type) with
  | some g => g.getParameter app activity
  | none => .error .nullPointer

/-- The cache holds generated classes under their names. -/
def CacheOk (files : List ParameterClass) (cache : LruCache Str ParameterClass) : Prop :=
  cache.Holds fun name g => files.find? (·.name = name) = some g

theorem CacheOk.loadParameter {files : List ParameterClass} {cache : LruCache Str ParameterClass}
    (h : CacheOk files cache) (app : Application) (activity : Activity) :
    (loadParameter app files cache activity).1 = loadUncached app files activity ∧
      CacheOk files (loadParameter app files cache activity).2 := by
  have hsnd := LruCache.Holds.get_snd h (lookupName activity.type)
  rw [Parameter.loadParameter, loadUncached]
  cases hget : cache.get (lookupName activity.type) with
  | mk found cache' =>
      rw [hget] at hsnd
      cases found with
      | some g =>
          have hfst := LruCache.Holds.get_fst h
            (show (cache.get (lookupName activity.type)).1 = some g by rw [hget])
          rw [hfst]
          exact ⟨rfl, hsnd⟩
      | none =>
          dsimp only
          cases hfind : files.find? (·.name = lookupName activity.type) with
          | none => exact ⟨rfl, hsnd⟩
          | some g => exact ⟨rfl, LruCache.Holds.put hsnd hfind⟩

/-- The cache is right after every run of calls, whether they returned or threw. -/
theorem cacheOk_cacheAfter (app : Application) (files : List ParameterClass)
    (earlier : List Activity) : CacheOk files (cacheAfter app files earlier) := by
  induction earlier using List.reverseRecOn with
  | nil => exact LruCache.holds_empty _ _
  | append_singleton earlier activity ih =>
      rw [cacheAfter, List.foldl_append, List.foldl_cons, List.foldl_nil, ← cacheAfter]
      exact (ih.loadParameter app activity).2

/-! ## When the assignments return -/

/-- The assignment of a field returns: what a class-typed field reads can be cast to
its type, and a Call field's route is accepted. -/
def FieldReturns (app : Application) (extras : Bundle) (f : Field) : Prop :=
  match f.type with
  | .int => True
  | .boolean => True
  | .declared type isCall =>
    if equalsIgnoreCase type STRING then True
    else if isCall then
      ∃ o v, app.route f.name f.annotationValue = .ok o ∧ app.cast type o = .ok v
    else ∃ v, app.cast type (storedObject extras f.name) = .ok v

theorem exists_evaluate_iff {app : Application} {extras : Bundle} {f : Field} {a : Assignment}
    (h : compile f = some a) (fields : Str → Extra) :
    (∃ v, evaluate app extras fields a = .ok v) ↔ FieldReturns app extras f := by
  rw [FieldReturns]
  cases hf : f.type with
  | int =>
      obtain ⟨-, rfl⟩ := (compile_int hf a).mp h
      rw [evaluate]
      split <;> simp
  | boolean =>
      obtain ⟨-, rfl⟩ := (compile_boolean hf a).mp h
      rw [evaluate]
      split <;> simp
  | declared type isCall =>
      dsimp only
      cases htype : equalsIgnoreCase type STRING with
      | true =>
          obtain ⟨-, -, rfl⟩ := (compile_string hf htype a).mp h
          rw [evaluate]
          split <;> simp
      | false =>
          cases isCall with
          | true =>
              obtain ⟨-, rfl⟩ := (compile_call hf htype a).mp h
              simp only [evaluate_call, Bool.false_eq_true, if_true, if_false]
              exact exists_comm
          | false =>
              obtain ⟨-, rfl⟩ := (compile_parcelable hf htype a).mp h
              simp only [evaluate_parcelable, Bool.false_eq_true, if_false]

/-- The assignments return when each of them does, whatever the fields hold. -/
theorem exists_foldlM_execute_iff {app : Application} {extras : Bundle}
    {annotated : List Field} (hcompiles : ∀ f ∈ annotated, (compile f).isSome = true)
    (fields : Str → Extra) :
    (∃ after, runStatements app extras annotated fields = .ok after) ↔
      ∀ f ∈ annotated, FieldReturns app extras f := by
  induction annotated generalizing fields with
  | nil => exact ⟨fun _ f hf => absurd hf List.not_mem_nil, fun _ => ⟨fields, rfl⟩⟩
  | cons f annotated ih =>
      obtain ⟨a, ha⟩ := Option.isSome_iff_exists.mp (hcompiles f List.mem_cons_self)
      have hrest := fun fields' => ih (fun g hg => hcompiles g (List.mem_cons_of_mem _ hg)) fields'
      rw [List.forall_mem_cons, ← exists_evaluate_iff ha fields, runStatements,
        List.filterMap_cons_some ha, List.foldlM_cons]
      cases hv : evaluate app extras fields a with
      | error e =>
          have hfail : execute app extras fields a = .error e := by
            rw [execute, hv]
            rfl
          rw [hfail]
          simp [bind, Except.bind]
      | ok v =>
          rw [execute_eq_ok_iff.mpr ⟨v, hv, rfl⟩]
          refine (hrest _).trans ⟨fun h => ⟨⟨v, rfl⟩, h⟩, fun h => h.2⟩

/-! ## Finding the generated class -/

/-- The generated names are those looked up, distinct classes have distinct ones, and
`loadParameter` returns on the Activity after the earlier calls. -/
def ParametersFound (order : IterationOrder (Sigma fun _ : TypeElement => List Field))
    (elements : List (TypeElement × Field)) (app : Application) (earlier : List Activity)
    (activity : Activity) : Prop :=
  (∀ e ∈ elements, generatedName e.1 = lookupName e.1) ∧
    (∀ e ∈ elements, ∀ d ∈ elements, generatedName e.1 = generatedName d.1 → e.1 = d.1) ∧
    ∃ files, process order elements = .ok files ∧
      ∃ after, (loadParameter app files (cacheAfter app files earlier) activity).1 = .ok after

section Found

variable {order : IterationOrder (Sigma fun _ : TypeElement => List Field)}
  {elements : List (TypeElement × Field)} {activity : Activity}

/-- With top-level classes, the class found for an Activity is its own. -/
theorem find?_lookupName (htop : ∀ e ∈ elements, e.1.enclosing = [])
    (hdistinct : ∀ e ∈ elements, e.1.binaryName = activity.type.binaryName → e.1 = activity.type) :
    ((order.arrange (tempParameterMap elements).entries).map classOf).find?
        (·.name = lookupName activity.type) =
      if fieldsOf elements activity.type = [] then none
      else some (classOf ⟨activity.type, fieldsOf elements activity.type⟩) := by
  have hentry : ∀ entry ∈ order.arrange (tempParameterMap elements).entries,
      generatedName entry.1 = lookupName activity.type →
        entry = ⟨activity.type, fieldsOf elements activity.type⟩ ∧
          fieldsOf elements activity.type ≠ [] := by
    rintro ⟨c, fields⟩ hmem hname
    obtain ⟨rfl, hne⟩ := mem_entries_tempParameterMap.mp ((order.perm _).mem_iff.mp hmem)
    obtain ⟨f, hf⟩ := List.exists_mem_of_ne_nil _ hne
    have hc := mem_fieldsOf.mp hf
    have hnames : lookupName c = lookupName activity.type :=
      (generatedName_eq_lookupName_iff.mpr (htop _ hc)).symm.trans hname
    obtain rfl : c = activity.type := hdistinct _ hc (List.append_cancel_right hnames)
    exact ⟨rfl, hne⟩
  cases hfind : ((order.arrange (tempParameterMap elements).entries).map classOf).find?
      (·.name = lookupName activity.type) with
  | some g =>
      obtain ⟨entry, hmem, rfl⟩ := List.mem_map.mp (List.mem_of_find?_eq_some hfind)
      have hname := List.find?_some hfind
      obtain ⟨rfl, hne⟩ := hentry entry hmem (of_decide_eq_true hname)
      rw [if_neg hne]
  | none =>
      rw [if_pos]
      by_contra hne
      have hmem := (order.perm _).mem_iff.mpr (mem_entries_tempParameterMap.mpr ⟨rfl, hne⟩)
      obtain ⟨f, hf⟩ := List.exists_mem_of_ne_nil _ hne
      have hname := generatedName_eq_lookupName_iff.mpr (htop _ (mem_fieldsOf.mp hf))
      exact List.find?_eq_none.mp hfind _ (List.mem_map_of_mem hmem) (decide_eq_true hname)

end Found

/-- The generated classes are found exactly when all annotated classes are top-level
and the Activity's own class is one of them, with assignments that return. -/
theorem parametersFound_iff (order : IterationOrder (Sigma fun _ : TypeElement => List Field))
    (elements : List (TypeElement × Field)) (app : Application) (earlier : List Activity)
    (activity : Activity) (hactivities : ∀ e ∈ elements, e.1.isActivity = true)
    (hcompiles : ∀ e ∈ elements, (compile e.2).isSome = true)
    (hdistinct : ∀ c ∈ activity.type :: elements.map Prod.fst,
      ∀ d ∈ activity.type :: elements.map Prod.fst, c.binaryName = d.binaryName → c = d) :
    ParametersFound order elements app earlier activity ↔
      (∀ e ∈ elements, e.1.enclosing = []) ∧ (∃ f, (activity.type, f) ∈ elements) ∧
        ∀ f, (activity.type, f) ∈ elements → FieldReturns app activity.extras f := by
  have hmem : ∀ e ∈ elements, e.1 ∈ activity.type :: elements.map Prod.fst := fun e he =>
    List.mem_cons_of_mem _ (List.mem_map_of_mem he)
  obtain ⟨files, hprocess, hfind⟩ := exists_process order hactivities
  rw [ParametersFound, forall₂_congr fun e _ => generatedName_eq_lookupName_iff]
  apply and_congr_right
  intro htop
  -- on top-level classes the generated names are the binary ones
  have hnames : ∀ e ∈ elements, ∀ d ∈ elements,
      generatedName e.1 = generatedName d.1 → e.1 = d.1 := by
    intro e he d hd heq
    rw [generatedName_eq_lookupName_iff.mpr (htop e he),
      generatedName_eq_lookupName_iff.mpr (htop d hd)] at heq
    exact hdistinct _ (hmem e he) _ (hmem d hd) (List.append_cancel_right heq)
  have hload : ∀ fs, fs = files →
      (loadParameter app fs (cacheAfter app fs earlier) activity).1 =
        loadUncached app files activity := by
    rintro fs rfl
    exact ((cacheOk_cacheAfter app fs earlier).loadParameter app activity).1
  rw [and_iff_right hnames, hprocess]
  simp only [Except.ok.injEq, exists_eq_left', hload _ rfl]
  rw [loadUncached, hfind, find?_lookupName htop fun e he heq =>
    hdistinct _ (hmem e he) _ List.mem_cons_self heq]
  by_cases hnone : fieldsOf elements activity.type = []
  · have hno : ¬ ∃ f, (activity.type, f) ∈ elements := by
      rintro ⟨f, hf⟩
      rw [← mem_fieldsOf, hnone] at hf
      exact List.not_mem_nil hf
    rw [if_pos hnone]
    simp [hno]
  · obtain ⟨f, hf⟩ := List.exists_mem_of_ne_nil _ hnone
    have hcompile : ∀ g ∈ fieldsOf elements activity.type, (compile g).isSome = true :=
      fun g hg => hcompiles _ (mem_fieldsOf.mp hg)
    rw [if_neg hnone, and_iff_right ⟨f, mem_fieldsOf.mp hf⟩]
    simp only [classOf, ParameterClass.getParameter, decide_true, Bool.true_or, if_true,
      exists_foldlM_execute_iff hcompile, mem_fieldsOf]

/-- A top-level Activity class. -/
def mainType : TypeElement where
  package := "app".toList
  enclosing := []
  simpleName := "MainActivity".toList
  isActivity := true

/-- An instance of it, started without extras. -/
def mainInstance : Activity where
  type := mainType
  extras := .empty
  fields := fun _ => .null

/-- Its generated class is found, on a second call in the cache. -/
theorem parametersFound_mainInstance :
    ParametersFound (.listed _) [(mainType, ageField)] plainApplication [mainInstance]
      mainInstance := by
  refine (parametersFound_iff _ _ _ _ _ ?_ ?_ ?_).mpr ⟨?_, ⟨ageField, List.mem_cons_self⟩, ?_⟩
  · simp [mainType]
  · simp only [List.mem_singleton, forall_eq]
    decide
  · simp [mainInstance]
  · simp [mainType]
  · intro f hf
    obtain rfl : f = ageField := congrArg Prod.snd (List.mem_singleton.mp hf)
    trivial

/-- An Activity without annotated fields: nothing is found, and `loadParameter`
throws. -/
theorem not_parametersFound_unannotated :
    ¬ ∀ (order : IterationOrder (Sigma fun _ : TypeElement => List Field))
        (elements : List (TypeElement × Field)) (app : Application) (earlier : List Activity)
        (activity : Activity), (∀ e ∈ elements, e.1.isActivity = true) →
        (∀ e ∈ elements, (compile e.2).isSome = true) →
        (∀ c ∈ activity.type :: elements.map Prod.fst,
          ∀ d ∈ activity.type :: elements.map Prod.fst, c.binaryName = d.binaryName → c = d) →
        ParametersFound order elements app earlier activity := by
  intro hlaw
  obtain ⟨-, -, files, hfiles, after, hafter⟩ := hlaw (.listed _) [] plainApplication []
    mainInstance (by simp) (by simp) (by simp)
  obtain rfl := Except.ok.inj hfiles
  cases hafter

end StudyNotes.Parameter
