/-
# Installing a patch (`Hotfix.V23`, `Hotfix.V19`, `ShareReflectUtil`)

A patch is installed by putting its dex elements in front of those of the class
loader.  The platform's method that makes the elements reports the files it could
not open in a list of its own, and the source looks at that list after it has
replaced the array.

So an installation that throws because of such a file has already added the other
elements.  A sequence of installations is ordered and all-or-nothing exactly when
every installation with suppressed exceptions has no elements at all.
-/

import StudyNotes.Lib.Run

namespace StudyNotes.Patch

open StudyNotes.Run

/-! ## Reflection -/

/-- What `findField` and `findMethod` read of a class. -/
structure JavaClass where
  name : String
  declaredFields : List String
  declaredMethods : List (String × List String)

/-- The exceptions of an installation. -/
inductive Thrown
  | noSuchField (message : String)
  | noSuchMethod (message : String)
  | illegalAccess
  | invocationTarget
  | io (message : String)
  deriving DecidableEq

/-- `instance.getClass()` as a text, for a class with its superclasses. -/
def getClass (classes : List JavaClass) : String := "class " ++ (classes.head?.map (·.name)).getD ""

/-- `findField(instance, name)`, on the class of the instance and its superclasses. -/
def findField (classes : List JavaClass) (name : String) : Except Thrown JavaClass :=
  match classes.find? fun clazz => name ∈ clazz.declaredFields with
  | some clazz => .ok clazz
  | none => .error (.noSuchField ("Field " ++ name ++ " not found in " ++ getClass classes))

/-- `findMethod(object, name, parameterTypes)`. -/
def findMethod (classes : List JavaClass) (name : String) (parameterTypes : List String) :
    Except Thrown JavaClass :=
  match classes.find? fun clazz => (name, parameterTypes) ∈ clazz.declaredMethods with
  | some clazz => .ok clazz
  | none => .error (.noSuchMethod ("Method " ++ name ++ " with parameters [" ++
      ", ".intercalate parameterTypes ++ "] not found in " ++ getClass classes))

/-! ## Arrays -/

variable {ε : Type}

/-- An array of references to dex elements. -/
abbrev Elements (ε : Type) := List (Option ε)

/-- `Array.newInstance(type, length)`. -/
def newInstance (length : ℕ) : Elements ε := List.replicate length none

/-- `System.arraycopy(src, srcPos, dest, destPos, length)` within the bounds. -/
def arraycopy (src : Elements ε) (srcPos : ℕ) (dest : Elements ε) (destPos length : ℕ) :
    Elements ε :=
  dest.take destPos ++ (src.drop srcPos).take length ++ dest.drop (destPos + length)

/-- The merged array of `expandFieldArray`. -/
def expand (patchElements dexElements : Elements ε) : Elements ε :=
  let newElements := newInstance (dexElements.length + patchElements.length)
  let newElements := arraycopy patchElements 0 newElements 0 patchElements.length
  arraycopy dexElements 0 newElements patchElements.length dexElements.length

theorem expand_eq (patchElements dexElements : Elements ε) :
    expand patchElements dexElements = patchElements ++ dexElements := by
  simp [expand, arraycopy, newInstance]

/-! ## The installation -/

/-- Steps that can throw and keep what they have done to `dexElements`. -/
abbrev Install (ε : Type) := ExceptT Thrown (StateM (Elements ε))

/-- `expandFieldArray(object, fieldName, patchElements)`. -/
def expandFieldArray (object : List JavaClass) (fieldName : String) (patchElements : Elements ε) :
    Install ε Unit := do
  let _ ← MonadExcept.ofExcept (findField object fieldName)
  modify (expand patchElements)

/-- The two versions that collect suppressed exceptions. -/
inductive Version
  | v23
  | v19

/-- The method that makes the elements. -/
def Version.makeElements : Version → String
  | .v23 => "makePathElements"
  | .v19 => "makeDexElements"

/-- Its parameter types. -/
def Version.parameterTypes : Version → List String
  | .v23 => ["interface java.util.List", "class java.io.File", "interface java.util.List"]
  | .v19 => ["class java.util.ArrayList", "class java.io.File", "class java.util.ArrayList"]

/-- A patch to install: the classes of the loader and of its path list, and what the
platform's method answers for the files, elements and suppressed exceptions. -/
structure Installation (ε : Type) where
  version : Version
  classLoader : List JavaClass
  dexPathList : List JavaClass
  invoke : Except Thrown (Elements ε × List String)

namespace Installation

/-- The common text of the two versions, by the method that makes the elements. -/
def installWith (makeElements : String) (parameterTypes : List String) (p : Installation ε) :
    Install ε Unit := do
  let _ ← MonadExcept.ofExcept (findField p.classLoader "pathList")
  let _ ← MonadExcept.ofExcept (findMethod p.dexPathList makeElements parameterTypes)
  let (patchElements, suppressedExceptions) ← MonadExcept.ofExcept p.invoke
  expandFieldArray p.dexPathList "dexElements" patchElements
  match suppressedExceptions with
  | [] => pure ()
  | e :: _ => throw (.io e)

/-- `V23.install(classLoader, additionalClassPathEntries, optimizedDirectory)`. -/
def V23.install : Installation ε → Install ε Unit :=
  installWith Version.v23.makeElements Version.v23.parameterTypes

/-- `V19.install(loader, additionalClassPathEntries, optimizedDirectory)`. -/
def V19.install : Installation ε → Install ε Unit :=
  installWith Version.v19.makeElements Version.v19.parameterTypes

def install (p : Installation ε) : Install ε Unit :=
  match p.version with
  | .v23 => V23.install p
  | .v19 => V19.install p

/-- What the installation returns or throws, and the array it leaves. -/
def outcome (p : Installation ε) (dexElements : Elements ε) : Except Thrown Unit × Elements ε :=
  p.install.run dexElements

/-- Reflection finds what the installation asks for. -/
def Reflects (p : Installation ε) : Bool :=
  (findField p.classLoader "pathList").isOk &&
    (findMethod p.dexPathList p.version.makeElements p.version.parameterTypes).isOk &&
    (findField p.dexPathList "dexElements").isOk

/-- The elements that the platform's method made. -/
def patchElements (p : Installation ε) : Elements ε :=
  match p.invoke with
  | .ok (patchElements, _) => patchElements
  | .error _ => []

/-! ## The outcome of one installation -/

theorem install_eq (p : Installation ε) :
    p.install = p.installWith p.version.makeElements p.version.parameterTypes := by
  rw [install]
  cases p.version with
  | v23 => rfl
  | v19 => rfl

theorem exists_of_isOk {α : Type} {x : Except Thrown α} (h : x.isOk = true) : ∃ a, x = .ok a := by
  cases x with
  | ok a => exact ⟨a, rfl⟩
  | error e => simp [Except.isOk, Except.toBool] at h

/-- The array was replaced before the suppressed exceptions are looked at. -/
theorem outcome_of_invoke {p : Installation ε} (hreflects : p.Reflects = true)
    {elements : Elements ε} {suppressed : List String}
    (hinvoke : p.invoke = .ok (elements, suppressed)) (dexElements : Elements ε) :
    p.outcome dexElements =
      ((suppressed.head?.map Thrown.io).elim (.ok ()) .error, elements ++ dexElements) := by
  simp only [Reflects, Bool.and_eq_true] at hreflects
  obtain ⟨⟨hloader, hmethod⟩, hfield⟩ := hreflects
  obtain ⟨loader, hloader⟩ := exists_of_isOk hloader
  obtain ⟨method, hmethod⟩ := exists_of_isOk hmethod
  obtain ⟨field, hfield⟩ := exists_of_isOk hfield
  simp only [outcome, install_eq, installWith, expandFieldArray, hloader, hmethod, hinvoke, hfield,
    ← expand_eq]
  cases suppressed with
  | nil => rfl
  | cons e suppressed => rfl

/-- An installation that does not get that far changes nothing. -/
theorem outcome_of_not_reflects {p : Installation ε}
    (h : ¬ (p.Reflects = true ∧ p.invoke.isOk = true)) (dexElements : Elements ε) :
    ∃ e, p.outcome dexElements = (.error e, dexElements) := by
  simp only [outcome, install_eq, installWith, expandFieldArray]
  cases hloader : findField p.classLoader "pathList" with
  | error e => exact ⟨e, rfl⟩
  | ok loader =>
      cases hmethod : findMethod p.dexPathList p.version.makeElements p.version.parameterTypes with
      | error e => exact ⟨e, rfl⟩
      | ok method =>
          cases hinvoke : p.invoke with
          | error e => exact ⟨e, rfl⟩
          | ok made =>
              cases hfield : findField p.dexPathList "dexElements" with
              | error e => exact ⟨e, rfl⟩
              | ok field =>
                  apply absurd _ h
                  simp [Reflects, hloader, hmethod, hfield, hinvoke, Except.isOk, Except.toBool]

/-! ## Sequences of installations -/

/-- The array and the installations that returned, most recent first. -/
structure Installed (ε : Type) where
  dexElements : Elements ε
  returned : List (Installation ε) := []

/-- One installation. -/
def step (s : Installed ε) (p : Installation ε) : Installed ε :=
  let out := p.outcome s.dexElements
  { dexElements := out.2
    returned := if out.1.isOk then p :: s.returned else s.returned }

def run (initial : Elements ε) (ps : List (Installation ε)) : Installed ε :=
  after step { dexElements := initial } ps

@[simp]
theorem run_append_singleton (initial : Elements ε) (pre : List (Installation ε))
    (p : Installation ε) : run initial (pre ++ [p]) = step (run initial pre) p :=
  after_append_singleton _ _ _ _

/-- The array has the elements of the installations that returned, most recent first, in
front of the initial ones. -/
def Ordered (initial : Elements ε) (s : Installed ε) : Prop :=
  s.dexElements = s.returned.flatMap patchElements ++ initial

/-- The array is ordered, and no installation that throws changed it. -/
structure AllOrNothing (initial : Elements ε) (ps : List (Installation ε)) : Prop where
  ordered : Ordered initial (run initial ps)
  unchanged : EveryStep (fun pre p =>
    (p.outcome (run initial pre).dexElements).1.isOk = false →
      (run initial (pre ++ [p])).dexElements = (run initial pre).dexElements) ps

/-- An installation that gets as far as the expansion has no suppressed exceptions or no
elements. -/
def Clean (p : Installation ε) : Prop :=
  p.Reflects = true → ∀ elements suppressed, p.invoke = .ok (elements, suppressed) →
    suppressed = [] ∨ elements = []

theorem outcome_of_clean {p : Installation ε} (h : p.Clean) (dexElements : Elements ε) :
    ((p.outcome dexElements).1.isOk = true ∧
        (p.outcome dexElements).2 = p.patchElements ++ dexElements) ∨
      ((p.outcome dexElements).1.isOk = false ∧ (p.outcome dexElements).2 = dexElements) := by
  by_cases hgets : p.Reflects = true ∧ p.invoke.isOk = true
  · obtain ⟨⟨elements, suppressed⟩, hinvoke⟩ := exists_of_isOk hgets.2
    rw [outcome_of_invoke hgets.1 hinvoke]
    have hmade : p.patchElements = elements := by rw [patchElements, hinvoke]
    rw [hmade]
    cases suppressed with
    | nil => exact Or.inl ⟨rfl, rfl⟩
    | cons e suppressed =>
        have hnone := (h hgets.1 elements (e :: suppressed) hinvoke).resolve_left (by simp)
        exact Or.inr ⟨rfl, by rw [hnone, List.nil_append]⟩
  · obtain ⟨e, hout⟩ := outcome_of_not_reflects hgets dexElements
    rw [hout]
    exact Or.inr ⟨rfl, rfl⟩

/-- An installation that is not clean throws and changes the array. -/
theorem outcome_of_not_clean {p : Installation ε} (h : ¬ p.Clean) (dexElements : Elements ε) :
    (p.outcome dexElements).1.isOk = false ∧ (p.outcome dexElements).2 ≠ dexElements := by
  simp only [Clean, Classical.not_imp, not_forall, not_or] at h
  obtain ⟨hreflects, elements, suppressed, hinvoke, hsuppressed, helements⟩ := h
  rw [outcome_of_invoke hreflects hinvoke]
  cases suppressed with
  | nil => exact absurd rfl hsuppressed
  | cons e suppressed =>
      refine ⟨rfl, fun hsame => helements ?_⟩
      exact List.append_left_eq_self.mp hsame

theorem ordered_append {initial : Elements ε} {pre : List (Installation ε)} {p : Installation ε}
    (hclean : p.Clean) (h : Ordered initial (run initial pre)) :
    Ordered initial (run initial (pre ++ [p])) := by
  rw [Ordered] at h
  rw [Ordered]
  rw [run_append_singleton, step]
  rcases outcome_of_clean hclean (run initial pre).dexElements with ⟨hok, harray⟩ | ⟨herror, harray⟩
  · simp only [hok, harray, if_true, List.flatMap_cons, List.append_assoc]
    rw [h]
  · simpa [herror, harray] using h

/-- A sequence of installations is ordered and all-or-nothing exactly when each of them
that makes elements has no suppressed exceptions. -/
theorem allOrNothing_iff (initial : Elements ε) (ps : List (Installation ε)) :
    AllOrNothing initial ps ↔ ∀ p ∈ ps, p.Clean := by
  constructor
  · intro h p hp
    by_contra hclean
    obtain ⟨pre, post, rfl⟩ := List.append_of_mem hp
    have hpre : pre ++ [p] <+: pre ++ p :: post := ⟨post, by simp⟩
    obtain ⟨hthrown, hchanged⟩ := outcome_of_not_clean hclean (run initial pre).dexElements
    have hsame := h.unchanged pre p hpre hthrown
    rw [run_append_singleton] at hsame
    exact hchanged hsame
  · intro h
    have hclean : EveryStep (fun _ p => p.Clean) ps := fun pre p hpre =>
      h p (hpre.subset (List.mem_append_right _ (List.mem_singleton.mpr rfl)))
    constructor
    · have hordered : EveryPrefix (fun pre => Ordered initial (run initial pre)) ps := by
        refine EveryPrefix.of_step (P := fun pre => Ordered initial (run initial pre)) rfl ?_ hclean
        intro pre p hp hpre
        exact ordered_append hp hpre
      exact hordered.self
    · intro pre p hpre hthrown
      rw [run_append_singleton]
      rcases outcome_of_clean (hclean pre p hpre) (run initial pre).dexElements with
        ⟨hok, -⟩ | ⟨-, harray⟩
      · simp [hok] at hthrown
      · exact harray

/-- A patch of two files, one of which cannot be opened. -/
def halfOpened : Installation String where
  version := .v23
  classLoader := [⟨"dalvik.system.BaseDexClassLoader", ["pathList"], []⟩]
  dexPathList := [⟨"dalvik.system.DexPathList", ["dexElements"],
    [(Version.v23.makeElements, Version.v23.parameterTypes)]⟩]
  invoke := .ok ([some "patch.dex"], ["other.dex"])

/-- It throws, and the file that was opened is in the array. -/
theorem not_allOrNothing_halfOpened :
    ¬ ∀ (initial : Elements String) ps, AllOrNothing initial ps := by
  intro hlaw
  have hsame := (hlaw [some "base.dex"] [halfOpened]).unchanged [] halfOpened
    (List.prefix_refl _) (by decide)
  exact absurd hsame (by decide)

end Installation

end StudyNotes.Patch
