/-
# The annotation processor (`ARouterProcessor`)

`process` collects the annotated classes of a round by group, writes one Path
class for every group collected so far and then one Group class for the module.
Both maps live as long as the processor.  A generated class is the list of the
`put` statements of its method; the `Filer` decides whether a write succeeds,
throws an `IOException` (which is swallowed) or throws something else (which ends
the loop and is swallowed one level up).
-/

import Mathlib.Data.List.AList
import StudyNotes.Router.RouterBean

namespace StudyNotes.Router

open StudyNotes.Text

/-! ## Generated classes -/

/-- A class the processor writes, by the `put` statements of its only method. -/
inductive JavaFile
  | path (className : Str) (puts : List (Str × RouterBean))
  | group (className : Str) (puts : List (Str × Str))
  deriving DecidableEq, Repr

def JavaFile.className : JavaFile → Str
  | .path name _ => name
  | .group name _ => name

/-- A `java.util.HashMap` with text keys. -/
abbrev HashMap (V : Type) := AList (fun _ : Str => V)

theorem entries_ne_nil_of_lookup {V : Type} {m : HashMap V} {k : Str} {v : V}
    (h : m.lookup k = some v) : m.entries.isEmpty = false := by
  have hmem := AList.mem_lookup_iff.mp (Option.mem_def.mpr h)
  exact List.isEmpty_eq_false_iff.mpr (List.ne_nil_of_mem hmem)

/-- Running the `put` statements of a generated method on a new map. -/
def runPuts {V : Type} (puts : List (Str × V)) : HashMap V :=
  puts.foldl (fun m kv => m.insert kv.1 kv.2) ∅

/-- `ProcessorConfig.PATH_FILE_NAME`. -/
def PATH_FILE_NAME : Str := "ARouter$$Path$$".toList

/-- `ProcessorConfig.GROUP_FILE_NAME`. -/
def GROUP_FILE_NAME : Str := "ARouter$$Group$$".toList

/-- The name of a class in a named package. -/
def qualifiedName (package name : Str) : Str := package ++ '.' :: name

/-! ## The processing environment -/

/-- What `writeTo(filer)` does. -/
inductive WriteResult
  | ok
  | ioException
  | otherException
  deriving DecidableEq, Repr

/-- A filer answers from the number of writes attempted before, the files created
and the file to write. -/
abbrev Filer := ℕ → List JavaFile → JavaFile → WriteResult

/-- The documented `Filer`: a class can be created once. -/
def createOnce : Filer := fun _ files file =>
  if files.any (·.className = file.className) then .ioException else .ok

/-- The order in which a hash map lists its entries; all that is known of it is
that every entry comes up once. -/
structure IterationOrder (α : Type) where
  arrange : List α → List α
  perm : ∀ l, (arrange l).Perm l

/-- Entries in the order of the list. -/
def IterationOrder.listed (α : Type) : IterationOrder α := ⟨id, fun _ => .refl _⟩

/-- The two compiler options (`moduleName`, `packageNameForAPT`), the filer, and
the iteration orders of the two maps.  An application id is never empty. -/
structure ProcessingEnv where
  options : Str
  aptPackage : Str
  aptPackage_ne : aptPackage ≠ []
  filer : Filer
  pathOrder : IterationOrder (Sigma fun _ : Str => List RouterBean)
  groupOrder : IterationOrder (Sigma fun _ : Str => Str)

/-- The fields of the processor, the files created and the errors reported. -/
structure ProcessorState where
  mAllPathMap : HashMap (List RouterBean) := ∅
  mAllGroupMap : HashMap Str := ∅
  files : List JavaFile := []
  attempts : ℕ := 0
  errors : List String := []

/-! ## The processor -/

/-- Filing a bean under its group: `mAllPathMap.get` and `add`, or a new list. -/
def fileBean (s : ProcessorState) (bean : RouterBean) : ProcessorState :=
  { s with mAllPathMap :=
      s.mAllPathMap.insert bean.group ((s.mAllPathMap.lookup bean.group).getD [] ++ [bean]) }

/-- The body of the loop over the annotated elements. -/
def processElement (s : ProcessorState) (e : Element) : Except JavaException ProcessorState :=
  if e.path.isEmpty then .error (.illegalArgument "path必填项为空，如：/app/MainActivity")
  else
    match e.typeEnum? with
    | none => .error (.runtime "@ARouter注解目前仅限用于Activity类之上")
    | some typeEnum => do
      match ← checkRouterPath ⟨typeEnum, e.className, e.path, e.group⟩ with
      | .accepted bean => .ok (fileBean s bean)
      | .rejected error =>
        .ok { s with errors :=
          s.errors ++ [error, "@ARouter注解未按规范配置，如：/app/MainActivity"] }

/-- What the body of the loop does when it does not throw: a bean is filed, or errors are
reported. -/
theorem processElement_outcome {s s' : ProcessorState} {e : Element}
    (h : processElement s e = .ok s') :
    (∃ bean, s' = fileBean s bean) ∨ ∃ errors, s' = { s with errors := errors } := by
  rw [processElement] at h
  split at h
  · cases h
  · split at h
    · cases h
    · rename_i type htype
      cases hcheck : checkRouterPath ⟨type, e.className, e.path, e.group⟩ with
      | error exception =>
          rw [hcheck] at h
          cases h
      | ok result =>
          rw [hcheck] at h
          cases result with
          | accepted bean => exact Or.inl ⟨bean, (Except.ok.inj h).symm⟩
          | rejected error => exact Or.inr ⟨_, (Except.ok.inj h).symm⟩

/-- The Path class of a group: one `put` for every bean of its list. -/
def pathFile (group : Str) (beans : List RouterBean) : JavaFile :=
  .path (PATH_FILE_NAME ++ group) (beans.map fun bean => (bean.path, bean))

/-- The loop of `createPathFile`. -/
def writePathFiles (env : ProcessingEnv) :
    List (Sigma fun _ : Str => List RouterBean) → ProcessorState → ProcessorState
  | [], s => s
  | ⟨group, beans⟩ :: rest, s =>
    let file := pathFile group beans
    let tried := { s with attempts := s.attempts + 1 }
    match env.filer s.attempts s.files file with
    | .ok =>
      writePathFiles env rest { tried with
        files := s.files ++ [file]
        mAllGroupMap := s.mAllGroupMap.insert group file.className }
    | .ioException => writePathFiles env rest tried
    | .otherException => tried

/-- `createPathFile`. -/
def createPathFile (env : ProcessingEnv) (s : ProcessorState) : ProcessorState :=
  writePathFiles env (env.pathOrder.arrange s.mAllPathMap.entries) s

/-- The Group class of the module: one `put` for every Path class written. -/
def groupFile (env : ProcessingEnv) (groups : HashMap Str) : JavaFile :=
  .group (GROUP_FILE_NAME ++ env.options)
    ((env.groupOrder.arrange groups.entries).map fun entry =>
      (entry.1, qualifiedName env.aptPackage entry.2))

/-- `createGroupFile`. -/
def createGroupFile (env : ProcessingEnv) (s : ProcessorState) : ProcessorState :=
  if s.mAllGroupMap.entries.isEmpty || s.mAllPathMap.entries.isEmpty then s
  else
    let file := groupFile env s.mAllGroupMap
    let tried := { s with attempts := s.attempts + 1 }
    match env.filer s.attempts s.files file with
    | .ok => { tried with files := s.files ++ [file] }
    | .ioException | .otherException => tried

/-- `process` on the annotated elements of one round, in the order in which the
round lists them.  A round without them returns at once. -/
def process (env : ProcessingEnv) (s : ProcessorState) (elements : List Element) :
    Except JavaException ProcessorState :=
  if elements.isEmpty then .ok s
  else do
    let s ← elements.foldlM processElement s
    .ok (createGroupFile env (createPathFile env s))

end StudyNotes.Router
