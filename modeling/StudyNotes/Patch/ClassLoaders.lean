/-
# The injected class loaders (`NewClassLoaderInjector`)

The new class loader has the dispatching loader as its parent, and the dispatching
loader asks the new one.  A flag of the thread cuts this circle: while it is set
the dispatcher answers null.

The flag stays set while a class is being defined, so the superclasses and
interfaces of that class never reach the dispatcher's rules.  Loading always ends,
whatever the classes are, and always leaves the flag as it was.
-/

import StudyNotes.Lib.Fallible
import StudyNotes.Lib.Text
import Mathlib.Data.List.Infix
import Mathlib.Logic.Function.Basic

namespace StudyNotes.Patch

open StudyNotes.Fallible StudyNotes.Text

/-! ## The classes -/

/-- Where the bytes of a class come from. -/
inductive Source
  | system
  | old
  | new
  deriving DecidableEq

/-- How a call that loads a class ends: with a class, with null, or with one of the
two throwables. -/
inductive Outcome
  | found (source : Source)
  | null
  | classNotFound
  | linkageError
  deriving DecidableEq

/-- A class hierarchy distributed over the loaders.  The two versions of a class may
name different superclasses and interfaces, but no class is above itself. -/
structure Classes where
  has : Source → Str → Bool
  supers : Source → Str → List Str
  /-- The classes that the old loader had defined before the injection. -/
  defined : Str → Bool
  mApplicationClassName : Str
  /-- Whether `findClass` reports a definition that failed as a class not found, as
  dex files do, or lets the linkage error through. -/
  suppresses : Bool
  rank : Str → ℕ
  rank_lt : ∀ source name, ∀ above ∈ supers source name, rank above < rank name
  has_of_defined : ∀ name, defined name = true → has .old name = true

/-- The package of the hot fix framework. -/
def frameworkPackage : Str := "com.chencc.androidstudynotescode.androidjvm_class.".toList

/-- What the new loader has defined, the flag of the thread, and the answers to the
requests so far, those made by definitions included. -/
structure Loaders where
  loaded : Str → Option Source
  mCallFindClassOfLeafDirectly : Bool
  requests : List (Str × Outcome)

/-- The loaders right after the injection. -/
def Loaders.injected : Loaders where
  loaded _ := none
  mCallFindClassOfLeafDirectly := false
  requests := []

/-- A call that may run out of fuel. -/
abbrev Loading := Str → Loaders → Option (Outcome × Loaders)

namespace Loaders

/-- `mCallFindClassOfLeafDirectly.set(flag)`. -/
def set (s : Loaders) (flag : Bool) : Loaders := { s with mCallFindClassOfLeafDirectly := flag }

/-- A class has been defined. -/
def define (s : Loaders) (name : Str) (source : Source) : Loaders :=
  { s with loaded := Function.update s.loaded name (some source) }

/-- A request has been answered. -/
def answer (s : Loaders) (name : Str) (outcome : Outcome) : Loaders :=
  { s with requests := s.requests ++ [(name, outcome)] }

theorem loaded_define {s : Loaders} {name name' : Str} {source source' : Source}
    (h : (s.define name source).loaded name' = some source') :
    (name' = name ∧ source' = source) ∨ s.loaded name' = some source' := by
  by_cases hname : name' = name
  · subst hname
    simp only [define, Function.update_self, Option.some.injEq] at h
    exact Or.inl ⟨rfl, h.symm⟩
  · simp only [define, Function.update_of_ne hname] at h
    exact Or.inr h

end Loaders

namespace Classes

variable (c : Classes)

/-! ## The loaders

Both the new and the old dex files define their classes in the new loader, which is
the `definingContext` of both path lists.
-/

/-- A request and its answer. -/
def request (load : Loading) (name : Str) (s : Loaders) : Option (Outcome × Loaders) := do
  let (outcome, s) ← load name s
  return (outcome, s.answer name outcome)

/-- The superclass and the interfaces are requested one after the other, until one is
missing. -/
def loadSupers (load : Loading) : List Str → Loaders → Option (Bool × Loaders)
  | [], s => some (true, s)
  | name :: names, s => do
    let (outcome, s) ← request load name s
    match outcome with
    | .found _ => loadSupers load names s
    | _ => return (false, s)

/-- A class is defined from the bytes of a dex file. -/
def defineClass (load : Loading) (source : Source) (name : Str) (s : Loaders) :
    Option (Outcome × Loaders) := do
  let (resolved, s) ← loadSupers load (c.supers source name) s
  if resolved then return (.found source, s.define name source)
  else return (if c.suppresses then .classNotFound else .linkageError, s)

/-- `findClass(name)` of a loader with a path list. -/
def pathFindClass (load : Loading) (source : Source) (name : Str) (s : Loaders) :
    Option (Outcome × Loaders) :=
  if c.has source name then c.defineClass load source name s else some (.classNotFound, s)

/-- `oldClassLoader.loadClass(name)`. -/
def oldLoadClass (load : Loading) (name : Str) (s : Loaders) : Option (Outcome × Loaders) :=
  if c.defined name then some (.found .old, s)
  else if c.has .system name then some (.found .system, s)
  else c.pathFindClass load .old name s

/-- `findClass(classLoader, name)` of the dispatcher. -/
def findClassIn (classLoader : Loading) (name : Str) (s : Loaders) : Option (Outcome × Loaders) := do
  let (outcome, s) ← classLoader name (s.set true)
  return (outcome, s.set false)

/-- `findClass(name)` of the dispatcher. -/
def findClass (newClassLoader : Loading) (name : Str) (s : Loaders) : Option (Outcome × Loaders) :=
  if s.mCallFindClassOfLeafDirectly then some (.null, s)
  else if name = c.mApplicationClassName then findClassIn (c.oldLoadClass newClassLoader) name s
  else if startsWith name frameworkPackage then
    findClassIn (c.oldLoadClass newClassLoader) name s
  else do
    let (outcome, s) ← findClassIn newClassLoader name s
    match outcome with
    | .classNotFound => findClassIn (c.oldLoadClass newClassLoader) name s
    | outcome => return (outcome, s)

/-- `loadClass(name)` of the dispatcher, whose parent is the system loader. -/
def dispatchLoadClass (newClassLoader : Loading) (name : Str) (s : Loaders) :
    Option (Outcome × Loaders) :=
  if c.has .system name then some (.found .system, s) else c.findClass newClassLoader name s

/-- `newClassLoader.loadClass(name)`: the loaded classes, then the parent, then its own
dex path. -/
def newLoadClass : ℕ → Loading
  | 0, _, _ => none
  | fuel + 1, name, s =>
    match s.loaded name with
    | some source => some (.found source, s)
    | none => do
      let (outcome, s) ← c.dispatchLoadClass (newLoadClass fuel) name s
      match outcome with
      | .found source => return (.found source, s)
      | .linkageError => return (.linkageError, s)
      | _ => c.pathFindClass (newLoadClass fuel) .new name s

/-- The outermost calls on the thread, one after the other. -/
def loadClasses (fuel : ℕ) (names : List Str) (s : Loaders) : Option Loaders :=
  names.foldlM (fun s name => (request (c.newLoadClass fuel) name s).map (·.2)) s

/-- A class that needs no patch: the application's, or one of the framework. -/
def isUnpatched (name : Str) : Bool :=
  name = c.mApplicationClassName || startsWith name frameworkPackage

variable {c} {load : Loading}

/-! ## Rules for the loaders

What holds after a call follows from what holds after the calls it makes.
-/

theorem loadSupers_cons (name : Str) (names : List Str) (s : Loaders) :
    loadSupers load (name :: names) s = (load name s >>= fun r =>
      match r.1 with
      | .found _ => loadSupers load names (r.2.answer name r.1)
      | _ => some (false, r.2.answer name r.1)) := by
  simp only [loadSupers, request, bind_assoc, pure_bind]
  rfl

/-- The rule for a list of requests: one that is answered with a class is followed by
the others, any other answer ends the definition. -/
theorem meets_loadSupers_cons {name : Str} {names : List Str} {s : Loaders}
    {P : Outcome × Loaders → Prop} {Q : Bool × Loaders → Prop} (hP : Meets (load name s) P)
    (hfound : ∀ source t, P (.found source, t) →
      Meets (loadSupers load names (t.answer name (.found source))) Q)
    (hmissing : ∀ outcome t, P (outcome, t) → (∀ source, outcome ≠ .found source) →
      Q (false, t.answer name outcome)) :
    Meets (loadSupers load (name :: names) s) Q := by
  rw [loadSupers_cons]
  refine Meets.bind hP ?_
  rintro ⟨outcome, t⟩ hr
  cases outcome with
  | found source => exact hfound source t hr
  | null => exact Meets.some (hmissing _ t hr (by simp))
  | classNotFound => exact Meets.some (hmissing _ t hr (by simp))
  | linkageError => exact Meets.some (hmissing _ t hr (by simp))

theorem findClass_unpatched {name : Str} (hunpatched : c.isUnpatched name = true) {s : Loaders}
    (hflag : s.mCallFindClassOfLeafDirectly = false) :
    c.findClass load name s = findClassIn (c.oldLoadClass load) name s := by
  rw [isUnpatched, Bool.or_eq_true, decide_eq_true_eq] at hunpatched
  rw [findClass, hflag, if_neg (by simp)]
  split
  · rfl
  · next hname => rw [if_pos (hunpatched.resolve_left hname)]

/-- Any other class is asked of the new loader first. -/
theorem meets_findClass {name : Str} (hunpatched : c.isUnpatched name = false) {s : Loaders}
    {P Q : Outcome × Loaders → Prop} (hflag : s.mCallFindClassOfLeafDirectly = false)
    (hP : Meets (findClassIn load name s) P)
    (hdone : ∀ r, P r → r.1 ≠ .classNotFound → Q r)
    (hold : ∀ t, P (.classNotFound, t) → Meets (findClassIn (c.oldLoadClass load) name t) Q) :
    Meets (c.findClass load name s) Q := by
  rw [isUnpatched, Bool.or_eq_false_iff, decide_eq_false_iff_not] at hunpatched
  rw [findClass, hflag, if_neg (by simp), if_neg hunpatched.1, if_neg (by simp [hunpatched.2])]
  refine Meets.bind hP ?_
  rintro ⟨outcome, t⟩ hr
  cases outcome with
  | classNotFound => exact hold t hr
  | found source => exact Meets.some (hdone _ hr (by simp))
  | null => exact Meets.some (hdone _ hr (by simp))
  | linkageError => exact Meets.some (hdone _ hr (by simp))

theorem newLoadClass_loaded (fuel : ℕ) {name : Str} {s : Loaders} {source : Source}
    (hloaded : s.loaded name = some source) :
    c.newLoadClass (fuel + 1) name s = some (.found source, s) := by
  simp only [newLoadClass, hloaded]

theorem newLoadClass_system (fuel : ℕ) {name : Str} {s : Loaders} (hloaded : s.loaded name = none)
    (hsystem : c.has .system name = true) :
    c.newLoadClass (fuel + 1) name s = some (.found .system, s) := by
  simp [newLoadClass, hloaded, dispatchLoadClass, hsystem]

/-- A class that is asked for for the first time goes to the dispatcher, and to the new
dex path when the dispatcher has no answer. -/
theorem meets_newLoadClass {fuel : ℕ} {name : Str} {s : Loaders} {P Q : Outcome × Loaders → Prop}
    (hloaded : s.loaded name = none) (hsystem : c.has .system name = false)
    (hP : Meets (c.findClass (c.newLoadClass fuel) name s) P)
    (hdone : ∀ r, P r → r.1 ≠ .null → r.1 ≠ .classNotFound → Q r)
    (hown : ∀ outcome t, P (outcome, t) → outcome = .null ∨ outcome = .classNotFound →
      Meets (c.pathFindClass (c.newLoadClass fuel) .new name t) Q) :
    Meets (c.newLoadClass (fuel + 1) name s) Q := by
  simp only [newLoadClass, hloaded, dispatchLoadClass, hsystem, Bool.false_eq_true, if_false]
  refine Meets.bind hP ?_
  rintro ⟨outcome, t⟩ hr
  cases outcome with
  | found source => exact Meets.some (hdone _ hr (by simp) (by simp))
  | linkageError => exact Meets.some (hdone _ hr (by simp) (by simp))
  | null => exact hown _ t hr (.inl rfl)
  | classNotFound => exact hown _ t hr (.inr rfl)

theorem newLoadClass_flagged (fuel : ℕ) {name : Str} {s : Loaders}
    (hflag : s.mCallFindClassOfLeafDirectly = true) (hloaded : s.loaded name = none)
    (hsystem : c.has .system name = false) :
    c.newLoadClass (fuel + 1) name s = c.pathFindClass (c.newLoadClass fuel) .new name s := by
  simp [newLoadClass, hloaded, dispatchLoadClass, hsystem, findClass, hflag]

/-! ## What every call does

A call returns with the flag as it found it, only adds to the answers, and returns
only classes that are there.
-/

variable (c) in
/-- Every loaded class is one that its source has. -/
def Sound (s : Loaders) : Prop := ∀ name source, s.loaded name = some source → c.has source name

variable (c) in
/-- What every stretch of loading does to the loaders. -/
structure Follows (s s' : Loaders) : Prop where
  flag : s'.mCallFindClassOfLeafDirectly = s.mCallFindClassOfLeafDirectly
  requests : s.requests <+: s'.requests
  sound : c.Sound s → c.Sound s'

theorem Follows.refl (s : Loaders) : c.Follows s s := ⟨rfl, List.prefix_rfl, id⟩

theorem Follows.trans {s t u : Loaders} (hst : c.Follows s t) (htu : c.Follows t u) :
    c.Follows s u :=
  ⟨htu.flag.trans hst.flag, hst.requests.trans htu.requests, htu.sound ∘ hst.sound⟩

theorem Follows.answer {s t : Loaders} (h : c.Follows s t) (name : Str) (outcome : Outcome) :
    c.Follows s (t.answer name outcome) :=
  ⟨h.flag, h.requests.trans (List.prefix_append _ _), h.sound⟩

theorem Follows.define {s t : Loaders} (h : c.Follows s t) {name : Str} {source : Source}
    (hhas : c.has source name) : c.Follows s (t.define name source) := by
  refine ⟨h.flag, h.requests, fun hs name' source' hloaded => ?_⟩
  rcases Loaders.loaded_define hloaded with ⟨rfl, rfl⟩ | hold
  · exact hhas
  · exact h.sound hs name' source' hold

/-- The flag that a call of the dispatcher sets is cleared at its end. -/
theorem Follows.set {s t : Loaders} (hflag : s.mCallFindClassOfLeafDirectly = false)
    (h : c.Follows (s.set true) t) : c.Follows s (t.set false) :=
  ⟨hflag.symm, h.requests, h.sound⟩

variable (c) in
/-- What a call does, with the class it was asked for. -/
def Grows (s : Loaders) (name : Str) (r : Outcome × Loaders) : Prop :=
  c.Follows s r.2 ∧ (c.Sound s → ∀ source, r.1 = .found source → c.has source name)

variable (c) in
/-- A loader that does no more than that. -/
def Growing (load : Loading) : Prop := ∀ name s, Meets (load name s) (c.Grows s name)

theorem loadSupers_follows (hload : c.Growing load) (names : List Str) (s : Loaders) :
    Meets (loadSupers load names s) fun r => c.Follows s r.2 ∧
      (r.1 = true → c.Sound s → ∀ name ∈ names, ∃ source, c.has source name) ∧
      (r.1 = false → ∃ answer ∈ r.2.requests,
        answer.1 ∈ names ∧ ∀ source, answer.2 ≠ .found source) := by
  induction names generalizing s with
  | nil => exact Meets.some ⟨Follows.refl s, by simp, by simp⟩
  | cons name names ih =>
      refine meets_loadSupers_cons (hload name s) ?_ ?_
      · intro source t hgrows
        have hanswer := hgrows.1.answer name (.found source)
        refine (ih (t.answer name (.found source))).mono fun r hr => ?_
        refine ⟨hanswer.trans hr.1, fun htrue hs name' hname' => ?_, fun hfalse => ?_⟩
        · rcases List.mem_cons.mp hname' with hhead | hmem
          · exact hhead ▸ ⟨source, hgrows.2 hs source rfl⟩
          · exact hr.2.1 htrue (hanswer.sound hs) name' hmem
        · obtain ⟨answer, hmem, hname', hne⟩ := hr.2.2 hfalse
          exact ⟨answer, hmem, List.mem_cons_of_mem _ hname', hne⟩
      · intro outcome t hgrows hne
        refine ⟨hgrows.1.answer name outcome, by simp, fun _ => ⟨(name, outcome), ?_, by simp, hne⟩⟩
        simp [Loaders.answer]

theorem failed_ne_found (source : Source) :
    (if c.suppresses then Outcome.classNotFound else .linkageError) ≠ .found source := by
  split <;> simp

/-- A definition that succeeds found every superclass; one that fails was refused an
answer. -/
theorem defineClass_spec (hload : c.Growing load) {source : Source} {name : Str} (s : Loaders)
    (hhas : c.has source name) :
    Meets (c.defineClass load source name s) fun r => c.Follows s r.2 ∧
      ((r.1 = .found source ∧ (c.Sound s → ∀ m ∈ c.supers source name, ∃ src, c.has src m)) ∨
        ((∀ src, r.1 ≠ .found src) ∧ ∃ answer ∈ r.2.requests,
          answer.1 ∈ c.supers source name ∧ ∀ src, answer.2 ≠ .found src)) := by
  refine Meets.bind (loadSupers_follows hload (c.supers source name) s) ?_
  rintro ⟨resolved, t⟩ ⟨hfollows, htrue, hfalse⟩
  cases resolved with
  | true => exact Meets.some ⟨hfollows.define hhas, .inl ⟨rfl, htrue rfl⟩⟩
  | false =>
      exact Meets.some ⟨hfollows, .inr ⟨failed_ne_found, hfalse rfl⟩⟩

theorem pathFindClass_grows (hload : c.Growing load) (source : Source) :
    c.Growing (c.pathFindClass load source) := by
  intro name s
  rw [pathFindClass]
  split
  · next hhas =>
    refine (defineClass_spec hload s hhas).mono fun r hr => ?_
    refine ⟨hr.1, fun _ src hsrc => ?_⟩
    rcases hr.2 with ⟨hfound, -⟩ | ⟨hne, -⟩
    · rw [hfound, Outcome.found.injEq] at hsrc
      exact hsrc ▸ hhas
    · exact absurd hsrc (hne src)
  · exact Meets.some ⟨Follows.refl s, by simp⟩

theorem pathFindClass_source (load : Loading) (source : Source) (name : Str) (s : Loaders) :
    Meets (c.pathFindClass load source name s) fun r => ∀ src, r.1 = .found src → src = source := by
  rw [pathFindClass]
  split
  · apply Meets.bind (P := fun _ => True) ⟨fun _ _ => trivial⟩
    rintro ⟨resolved, t⟩ -
    cases resolved with
    | true => exact Meets.some fun src hsrc => (Outcome.found.inj hsrc).symm
    | false => exact Meets.some fun src hsrc => absurd hsrc (failed_ne_found src)
  · exact Meets.some (by simp)

theorem grows_system {name : Str} (hsystem : c.has .system name) (s : Loaders) :
    c.Grows s name (.found .system, s) := by
  refine ⟨Follows.refl s, fun _ source hsource => ?_⟩
  cases hsource
  exact hsystem

theorem oldLoadClass_grows (hload : c.Growing load) : c.Growing (c.oldLoadClass load) := by
  intro name s
  rw [oldLoadClass]
  split
  · next hdefined =>
    refine Meets.some ⟨Follows.refl s, fun _ source hsource => ?_⟩
    cases hsource
    exact c.has_of_defined name hdefined
  · split
    · next hsystem => exact Meets.some (grows_system hsystem s)
    · exact pathFindClass_grows hload .old name s

theorem findClassIn_grows (hload : c.Growing load) (name : Str) {s : Loaders}
    (hflag : s.mCallFindClassOfLeafDirectly = false) :
    Meets (findClassIn load name s) (c.Grows s name) :=
  Meets.bind (hload name (s.set true)) fun _ hr => Meets.some ⟨hr.1.set hflag, hr.2⟩

theorem Grows.trans {s t : Loaders} {name : Str} {r : Outcome × Loaders}
    (hst : c.Follows s t) (hr : c.Grows t name r) : c.Grows s name r :=
  ⟨hst.trans hr.1, fun hs => hr.2 (hst.sound hs)⟩

theorem findClass_grows (hload : c.Growing load) : c.Growing (c.findClass load) := by
  intro name s
  cases hflag : s.mCallFindClassOfLeafDirectly with
  | true =>
      rw [findClass, if_pos hflag]
      exact Meets.some ⟨Follows.refl s, by simp⟩
  | false =>
      have hold := fun {t} htflag =>
        findClassIn_grows (s := t) (oldLoadClass_grows hload) name htflag
      cases hunpatched : c.isUnpatched name with
      | true =>
          rw [findClass_unpatched hunpatched hflag]
          exact hold hflag
      | false =>
          apply meets_findClass hunpatched hflag (findClassIn_grows hload name hflag)
          · exact fun r hr _ => hr
          · exact fun t hr => (hold (hr.1.flag.trans hflag)).mono fun _ => Grows.trans hr.1

theorem newLoadClass_grows (fuel : ℕ) : c.Growing (c.newLoadClass fuel) := by
  induction fuel with
  | zero => exact fun name s => Meets.none
  | succ fuel ih =>
      intro name s
      cases hloaded : s.loaded name with
      | some source =>
          rw [newLoadClass_loaded fuel hloaded]
          refine Meets.some ⟨Follows.refl s, fun hs source' hsource => ?_⟩
          cases hsource
          exact hs name source hloaded
      | none =>
          cases hsystem : c.has .system name with
          | true =>
              rw [newLoadClass_system fuel hloaded hsystem]
              exact Meets.some (grows_system hsystem s)
          | false =>
              apply meets_newLoadClass hloaded hsystem (findClass_grows ih name s)
              · exact fun r hr _ _ => hr
              · intro outcome t hr _
                exact (pathFindClass_grows ih .new name t).mono fun _ => Grows.trans hr.1

/-! ## Every call returns

Under the flag a call only goes to superclasses.  Without it, it can first come back
to the same class, but then with the flag set.
-/

/-- The call returns or throws, from any loaders with this flag. -/
def Ends (load : Loading) (flag : Bool) (name : Str) : Prop :=
  ∀ s : Loaders, s.mCallFindClassOfLeafDirectly = flag → (load name s).isSome

theorem loadSupers_isSome (hload : c.Growing load) {flag : Bool} {names : List Str}
    (hends : ∀ name ∈ names, Ends load flag name) {s : Loaders}
    (hs : s.mCallFindClassOfLeafDirectly = flag) : (loadSupers load names s).isSome := by
  induction names generalizing s with
  | nil => rfl
  | cons name names ih =>
      rw [loadSupers_cons]
      refine isSome_bind (hends name List.mem_cons_self s hs) (hload name s) ?_
      rintro ⟨outcome, t⟩ hr
      cases outcome with
      | found source =>
          apply ih
          · exact fun name' hname' => hends name' (List.mem_cons_of_mem _ hname')
          · exact hr.1.flag.trans hs
      | null => rfl
      | classNotFound => rfl
      | linkageError => rfl

theorem pathFindClass_ends (hload : c.Growing load) {flag : Bool} {source : Source} {name : Str}
    (hends : ∀ m ∈ c.supers source name, Ends load flag m) :
    Ends (c.pathFindClass load source) flag name := by
  intro s hs
  rw [pathFindClass]
  split
  · refine isSome_bind (loadSupers_isSome hload hends hs) (loadSupers_follows hload _ s) ?_
    rintro ⟨resolved, t⟩ -
    cases resolved <;> rfl
  · rfl

theorem oldLoadClass_ends (hload : c.Growing load) {flag : Bool} {name : Str}
    (hends : ∀ m ∈ c.supers .old name, Ends load flag m) :
    Ends (c.oldLoadClass load) flag name := by
  intro s hs
  rw [oldLoadClass]
  split
  · rfl
  · split
    · rfl
    · exact pathFindClass_ends hload hends s hs

theorem findClassIn_ends (hload : c.Growing load) {name : Str} (hends : Ends load true name)
    (s : Loaders) : (findClassIn load name s).isSome :=
  isSome_bind (hends (s.set true) rfl) (hload name (s.set true)) fun _ _ => rfl

theorem findClass_ends (hload : c.Growing load) {flag : Bool} {name : Str}
    (hself : flag = false → Ends load true name)
    (hends : ∀ m ∈ c.supers .old name, Ends load true m) :
    Ends (c.findClass load) flag name := by
  intro s hs
  have hold := findClassIn_ends (oldLoadClass_grows hload) (oldLoadClass_ends hload hends)
  rw [findClass]
  split
  · rfl
  · next hset =>
    have hflag : s.mCallFindClassOfLeafDirectly = false := by simpa using hset
    split
    · exact hold s
    · split
      · exact hold s
      · refine isSome_bind (findClassIn_ends hload (hself (hs.symm.trans hflag)) s)
          (findClassIn_grows hload name hflag) ?_
        rintro ⟨outcome, t⟩ -
        cases outcome with
        | classNotFound => exact hold t
        | found source => rfl
        | null => rfl
        | linkageError => rfl

variable (c) in
/-- Fuel that is enough for a call. -/
def cost (flag : Bool) (name : Str) : ℕ := c.rank name + (if flag then 1 else 2)

theorem newLoadClass_ends {fuel : ℕ} {flag : Bool} {name : Str} (hfuel : c.cost flag name ≤ fuel) :
    Ends (c.newLoadClass fuel) flag name := by
  induction fuel generalizing flag name with
  | zero => cases flag <;> simp [cost] at hfuel
  | succ fuel ih =>
      have hsupers : ∀ source, ∀ m ∈ c.supers source name, ∀ flag', (flag = true → flag' = true) →
          Ends (c.newLoadClass fuel) flag' m := by
        intro source m hm flag' hflag'
        apply ih
        have hrank := c.rank_lt source name m hm
        cases flag <;> cases flag' <;> simp [cost] at hfuel hflag' ⊢ <;> omega
      have hself : flag = false → Ends (c.newLoadClass fuel) true name := by
        rintro rfl
        exact ih (Nat.le_of_succ_le_succ hfuel)
      have hgrows := newLoadClass_grows (c := c) fuel
      intro s hs
      cases hloaded : s.loaded name with
      | some source => rw [newLoadClass_loaded fuel hloaded]; rfl
      | none =>
          cases hsystem : c.has .system name with
          | true => rw [newLoadClass_system fuel hloaded hsystem]; rfl
          | false =>
              have hfind := findClass_ends hgrows hself
                (fun m hm => hsupers .old m hm true fun _ => rfl) s hs
              simp only [newLoadClass, hloaded, dispatchLoadClass, hsystem, Bool.false_eq_true,
                if_false]
              refine isSome_bind hfind (findClass_grows hgrows name s) ?_
              rintro ⟨outcome, t⟩ hr
              have hpath := pathFindClass_ends hgrows (fun m hm => hsupers .new m hm flag id) t
                (hr.1.flag.trans hs)
              cases outcome with
              | found source => rfl
              | linkageError => rfl
              | null => exact hpath
              | classNotFound => exact hpath

end Classes

end StudyNotes.Patch
