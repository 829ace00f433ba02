/-
# Skins and the views they paint (`SkinResources`, `SkinAttribute`)

`SkinResources` answers for a resource of the application with the one of the same
name in the skin, if there is a skin that has it.  A `SkinView` keeps the attributes
of a view that a skin can change, and paints them from what `SkinResources` answers
at that moment.

Painting is taken to return: a resource that the platform cannot find ends the
process.
-/

import StudyNotes.Lib.Fallible
import StudyNotes.Lib.Text

namespace StudyNotes.Skin

open StudyNotes.Fallible StudyNotes.Text

variable {δ : Type}

/-! ## Resources -/

/-- What is read of an `android.content.res.Resources`; `δ` are the drawables. -/
structure Resources (δ : Type) where
  getResourceEntryName : ℤ → String
  getResourceTypeName : ℤ → String
  getIdentifier : Option String → Option String → String → ℤ
  getColor : ℤ → ℤ
  getDrawable : ℤ → Option δ

structure SkinResources (δ : Type) where
  mSkinPkgName : String := ""
  isDefaultSkin : Bool := true
  mAppResource : Option (Resources δ) := none
  mSkinResource : Option (Resources δ) := none

/-- What `getBackground` returns. -/
inductive Background (δ : Type)
  | color (value : ℤ)
  | drawable (value : Option δ)
  | unit

namespace SkinResources

/-- `applySkin(resources, pkgName)`. -/
def applySkin (r : SkinResources δ) (resources : Resources δ) (pkgName : String) :
    SkinResources δ :=
  { r with
    mSkinResource := some resources
    mSkinPkgName := pkgName
    isDefaultSkin := pkgName.isEmpty || (some resources).isNone }

/-- `reset()`. -/
def reset (r : SkinResources δ) : SkinResources δ :=
  { r with mSkinResource := none, mSkinPkgName := "", isDefaultSkin := true }

/-- `getIdentifier(resId)`. -/
def getIdentifier (r : SkinResources δ) (resId : ℤ) : ℤ :=
  if r.isDefaultSkin then resId
  else
    let resEntryName := r.mAppResource.map (·.getResourceEntryName resId)
    let resTypeName := r.mAppResource.map (·.getResourceTypeName resId)
    (r.mSkinResource.map (·.getIdentifier resEntryName resTypeName r.mSkinPkgName)).getD 0

/-- The common text of `getColor` and `getDrawable`: the skin's resource if there is
one, else the application's. -/
def lookup {β : Type} (get : Resources δ → ℤ → β) (default : β) (r : SkinResources δ)
    (resId : ℤ) : β :=
  if r.isDefaultSkin then (r.mAppResource.map (get · resId)).getD default
  else
    let skinId := r.getIdentifier resId
    if skinId = 0 then (r.mAppResource.map (get · resId)).getD default
    else (r.mSkinResource.map (get · skinId)).getD default

/-- `getColor(resId)`. -/
def getColor : SkinResources δ → ℤ → ℤ := lookup Resources.getColor 0

/-- `getDrawable(resId)`. -/
def getDrawable : SkinResources δ → ℤ → Option δ := lookup Resources.getDrawable none

/-- `getBackground(resId)`. -/
def getBackground (r : SkinResources δ) (resId : ℤ) : Background δ :=
  match r.mAppResource.map (·.getResourceTypeName resId) with
  | some "color" => .color (r.getColor resId)
  | some "drawable" => .drawable (r.getDrawable resId)
  | _ => .unit

end SkinResources

/-- Resources in which every identifier is its own colour and every drawable is there. -/
def plainResources : Resources Unit where
  getResourceEntryName := fun _ => ""
  getResourceTypeName := fun _ => "drawable"
  getIdentifier := fun _ _ _ => 0
  getColor := fun resId => resId
  getDrawable := fun _ => some ()

/-! ## Views -/

/-- What painting reads and sets of a view.  `support` is the skin under which the
`applySkin` of its own last ran, and `supportRuns` how often it ran. -/
structure View (δ : Type) where
  isImageView : Bool := false
  isTextView : Bool := false
  isSkinViewSupport : Bool := false
  background : Background δ := .unit
  image : Background δ := .unit
  textColor : Option ℤ := none
  compoundDrawables : List (Option δ) := []
  support : Option (SkinResources δ) := none
  supportRuns : ℕ := 0

structure SkinPair where
  attributeName : String
  resId : ℤ
  deriving DecidableEq

/-- A view with the attributes to change.  `lastApplied` and `paints` are not part of the
program: the skin of the last `applySkin`, and how often it ran. -/
structure SkinView (δ : Type) where
  view : View δ
  mSkinPairs : List SkinPair
  lastApplied : Option (SkinResources δ) := none
  paints : ℕ := 0

/-- A background that is neither a colour nor a drawable leaves the view. -/
def Background.orElse (shown background : Background δ) : Background δ :=
  match background with
  | .color value => .color value
  | .drawable (some value) => .drawable (some value)
  | .drawable none => shown
  | .unit => shown

namespace SkinView

/-- One turn of the loop of `applySkin()`.  A text view gets all four compound drawables
anew with every pair. -/
def applyPair (r : SkinResources δ) (view : View δ) (pair : SkinPair) : View δ :=
  let view := if view.isSkinViewSupport then
      { view with support := some r, supportRuns := view.supportRuns + 1 }
    else view
  let drawable := fun names : List String =>
    if pair.attributeName ∈ names then r.getDrawable pair.resId else none
  let view :=
    match pair.attributeName with
    | "background" => { view with background := view.background.orElse (r.getBackground pair.resId) }
    | "src" =>
      if view.isImageView then { view with image := view.image.orElse (r.getBackground pair.resId) }
      else view
    | "textColor" =>
      if view.isTextView then { view with textColor := some (r.getColor pair.resId) } else view
    | _ => view
  if view.isTextView then
    { view with
      compoundDrawables :=
        [drawable ["drawableLeft", "drawableLeftCompat"],
          drawable ["drawableTop", "drawableTopCompat"],
          drawable ["drawableRight", "drawableRightCompat"],
          drawable ["drawableBottom", "drawableBottomCompat"]] }
  else view

/-- `SkinView.applySkin()`. -/
def applySkin (r : SkinResources δ) (v : SkinView δ) : SkinView δ :=
  { v with
    view := v.mSkinPairs.foldl (applyPair r) v.view
    lastApplied := some r
    paints := v.paints + 1 }

end SkinView

/-! ## The attributes of a view -/

/-- The exceptions of `look`. -/
inductive Thrown
  | numberFormat
  | stringIndexOutOfBounds
  deriving DecidableEq

/-- The digits of a decimal number. -/
def parseDigits (digits : Str) : Option ℕ :=
  if digits.isEmpty then none
  else digits.foldlM (fun n c => if c.isDigit then some (10 * n + (c.toNat - '0'.toNat)) else none) 0

/-- `String.toInt()`, within the range of an `Int`. -/
def toInt (s : Str) : Except Thrown ℤ :=
  let value : Option ℤ :=
    match s with
    | '-' :: digits => (parseDigits digits).map fun n => -(n : ℤ)
    | '+' :: digits => (parseDigits digits).map fun n => (n : ℤ)
    | digits => (parseDigits digits).map fun n => (n : ℤ)
  match value with
  | some n => if -2147483648 ≤ n ∧ n ≤ 2147483647 then .ok n else .error .numberFormat
  | none => .error .numberFormat

/-- `mAttribute`. -/
def mAttribute : List String :=
  ["background", "src", "textColor", "drawableLeft", "drawableTop", "drawableRight",
    "drawableBottom", "drawableLeftCompat", "drawableTopCompat", "drawableRightCompat",
    "drawableBottomCompat"]

/-- One turn of the loop of `look`; `getResId` resolves an attribute of the theme. -/
def lookAt (getResId : ℤ → ℤ) (named : String × Str) : Except Thrown (Option SkinPair) :=
  let pair := fun resId : ℤ => if resId = 0 then none else some ⟨named.1, resId⟩
  if named.1 ∈ mAttribute then
    match named.2 with
    | '#' :: _ => .ok none
    | '?' :: attrId => (toInt attrId).map fun attrId => pair (getResId attrId)
    | _ :: resId => (toInt resId).map pair
    | [] => .error .stringIndexOutOfBounds
  else .ok none

structure SkinAttribute (δ : Type) where
  mSkinViews : List (SkinView δ) := []

namespace SkinAttribute

/-- `look(view, attr)`: a view that a skin can change is painted and recorded. -/
def look (r : SkinResources δ) (getResId : ℤ → ℤ) (view : View δ) (attr : List (String × Str))
    (s : SkinAttribute δ) : Except Thrown (SkinAttribute δ) := do
  let pairs ← attr.mapM (lookAt getResId)
  let mSkinPairs := pairs.filterMap id
  if !mSkinPairs.isEmpty || view.isSkinViewSupport then
    let skinView := ({ view := view, mSkinPairs := mSkinPairs } : SkinView δ).applySkin r
    pure { s with mSkinViews := s.mSkinViews ++ [skinView] }
  else pure s

/-- `applySkin()`. -/
def applySkin (r : SkinResources δ) (s : SkinAttribute δ) : SkinAttribute δ :=
  { s with mSkinViews := s.mSkinViews.map (SkinView.applySkin r) }

/-- Every recorded view was painted last under this skin. -/
def PaintedUnder (r : SkinResources δ) (s : SkinAttribute δ) : Prop :=
  ∀ v ∈ s.mSkinViews, v.lastApplied = some r

theorem paintedUnder_applySkin (r : SkinResources δ) (s : SkinAttribute δ) :
    (s.applySkin r).PaintedUnder r := by
  intro v hv
  obtain ⟨v', -, rfl⟩ := List.mem_map.mp hv
  rfl

/-- A new view is painted before it is recorded, and no other is touched. -/
theorem look_eq_ok {r : SkinResources δ} {getResId : ℤ → ℤ} {view : View δ}
    {attr : List (String × Str)} {s s' : SkinAttribute δ}
    (h : s.look r getResId view attr = .ok s') :
    ∃ added, s'.mSkinViews = s.mSkinViews ++ added ∧ ∀ v ∈ added, v.lastApplied = some r := by
  obtain ⟨pairs, -, hrecorded⟩ := bind_eq_ok_iff.mp h
  dsimp only at hrecorded
  split at hrecorded
  · cases hrecorded
    refine ⟨_, rfl, fun v hv => ?_⟩
    rw [List.mem_singleton.mp hv]
    rfl
  · cases hrecorded
    exact ⟨[], by simp, by simp⟩

end SkinAttribute

end StudyNotes.Skin
