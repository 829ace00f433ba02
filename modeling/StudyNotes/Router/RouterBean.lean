/-
# Route entries and the path check

The data both halves of the router share: the annotated element as the annotation
processor sees it, the `RouterBean` it becomes, and the check of its path.  The
group is cut out of the path between the first two slashes; an annotation may
also name a group, and then the path decides nothing.
-/

import StudyNotes.Lib.Text

namespace StudyNotes.Router

open StudyNotes.Text

/-- The exceptions the router's own code throws. -/
inductive JavaException
  | illegalArgument (message : String)
  | stringIndexOutOfBounds
  | runtime (message : String)
  | classCast
  | nullPointer
  deriving DecidableEq, Repr

/-- `RouterBean.TypeEnum`. -/
inductive TypeEnum
  | activity
  | call
  deriving DecidableEq, Repr

/-- `RouterBean`.  `myClass` is the annotated class, which the processor holds as an
element and the generated code as a class literal. -/
structure RouterBean where
  typeEnum : TypeEnum
  myClass : Str
  path : Str
  group : Str
  deriving DecidableEq, Repr

/-- A class annotated with `@ARouter(path, group)`.  Subtyping is what the
processor asks the compiler about it; an omitted group is the empty text. -/
structure Element where
  className : Str
  isActivity : Bool
  isCall : Bool
  path : Str
  group : Str := []
  deriving DecidableEq, Repr

/-- The type the processor assigns; a class that is neither is refused. -/
def Element.typeEnum? (e : Element) : Option TypeEnum :=
  if e.isActivity then some .activity else if e.isCall then some .call else none

/-- The outcome of `checkRouterPath`: an error is reported and false returned, or
the bean is accepted with its group filled in. -/
inductive PathCheck
  | rejected (error : String)
  | accepted (bean : RouterBean)
  deriving DecidableEq, Repr

/-- `path.substring(1, path.indexOf("/", 1))`, `none` where it throws. -/
def cutGroup (path : Str) : Option Str := (indexOf path '/' 1).bind (substring path 1)

/-- `ARouterProcessor.checkRouterPath`. -/
def checkRouterPath (bean : RouterBean) : Except JavaException PathCheck :=
  if bean.path.isEmpty || !startsWith bean.path ['/'] then
    .ok (.rejected "@ARouter注解中的path值，必须要以 / 开头")
  else if lastIndexOf bean.path '/' = some 0 then
    .ok (.rejected "@ARouter注解未按规范配置，如：/app/MainActivity")
  else
    match cutGroup bean.path with
    | none => .error .stringIndexOutOfBounds
    | some finalGroup =>
      .ok (.accepted (if bean.group.isEmpty then { bean with group := finalGroup } else bean))

/-! ## What the check accepts -/

/-- `path` has the form `/g/rest`, with no slash in `g`. -/
abbrev HasGroup (path g : Str) : Prop := LeadingSegment '/' path g

theorem HasGroup.cutGroup {path g : Str} (h : HasGroup path g) : cutGroup path = some g := h.cut

/-- The guards shared by `checkRouterPath` and `RouterManager.build`. -/
theorem hasGroup_iff_guards {path : Str} :
    (∃ g, HasGroup path g) ↔
      (path.isEmpty || !startsWith path ['/']) = false ∧ lastIndexOf path '/' ≠ some 0 := by
  rw [exists_leadingSegment_iff]
  cases path <;> simp [startsWith]

/-- The group under which an accepted bean is filed: the annotated one, or the one
in its path. -/
def effectiveGroup (annotated inPath : Str) : Str :=
  if annotated.isEmpty then inPath else annotated

/-- On a path with a group the check accepts and fills in the effective group. -/
theorem checkRouterPath_of_hasGroup (bean : RouterBean) {g : Str} (h : HasGroup bean.path g) :
    checkRouterPath bean =
      .ok (.accepted { bean with group := effectiveGroup bean.group g }) := by
  obtain ⟨hguard, hlast⟩ := hasGroup_iff_guards.mp ⟨g, h⟩
  rw [checkRouterPath, if_neg (by simp [hguard]), if_neg hlast, h.cutGroup]
  by_cases hgroup : bean.group.isEmpty = true
  · simp [effectiveGroup, hgroup]
  · simp [effectiveGroup, hgroup]

/-- A path without a group is refused with a message; the bounds of the cut are never
reached. -/
theorem checkRouterPath_of_refused {bean : RouterBean} (h : ¬ ∃ g, HasGroup bean.path g) :
    ∃ error, checkRouterPath bean = .ok (.rejected error) := by
  rw [checkRouterPath]
  by_cases hguard : (bean.path.isEmpty || !startsWith bean.path ['/']) = true
  · rw [if_pos hguard]
    exact ⟨_, rfl⟩
  · by_cases hlast : lastIndexOf bean.path '/' = some 0
    · rw [if_neg hguard, if_pos hlast]
      exact ⟨_, rfl⟩
    · exact absurd (hasGroup_iff_guards.mpr ⟨Bool.not_eq_true _ ▸ hguard, hlast⟩) h

/-- What the check accepts has a group in its path. -/
theorem hasGroup_of_accepted {bean bean' : RouterBean}
    (h : checkRouterPath bean = .ok (.accepted bean')) : ∃ g, HasGroup bean.path g := by
  by_contra hrefused
  obtain ⟨error, herror⟩ := checkRouterPath_of_refused hrefused
  rw [herror] at h
  cases h

end StudyNotes.Router
