/-
# A photo under gestures, animations and flings

`PhotoViewStudy` is moved by gestures and by two kinds of frame callbacks: an animator
that sets the scale, and a fling that sets the offset.  Whatever order they come in, the
scale stays between the small and the big one and the offset within the limits of
`fixOffsets`: an animator is started between scales that are inside, and a fling at an
offset and with limits that are rounded towards 0.
-/

import Mathlib.Algebra.Order.Floor.Ring
import Mathlib.Data.Rat.Floor
import StudyNotes.Lib.Run
import StudyNotes.View.PhotoGeometry

namespace StudyNotes.Photo

open StudyNotes.Run

/-! ## Rounding -/

/-- `Float.toInt`: rounded towards 0 and cut to 32 bits. -/
def toInt (x : ℚ) : ℤ :=
  max (-2147483648) (min 2147483647 (if 0 ≤ x then ⌊x⌋ else ⌈x⌉))

theorem toInt_mono {x y : ℚ} (h : x ≤ y) : toInt x ≤ toInt y := by
  have htrunc : (if 0 ≤ x then ⌊x⌋ else ⌈x⌉) ≤ (if 0 ≤ y then ⌊y⌋ else ⌈y⌉) := by
    by_cases hx : 0 ≤ x
    · rw [if_pos hx, if_pos (hx.trans h)]
      exact Int.floor_le_floor h
    · by_cases hy : 0 ≤ y
      · rw [if_neg hx, if_pos hy]
        have hneg : ⌈x⌉ ≤ 0 := Int.ceil_le.2 (by push_cast; linarith)
        exact hneg.trans (Int.floor_nonneg.2 hy)
      · rw [if_neg hx, if_neg hy]
        exact Int.ceil_le_ceil h
  unfold toInt
  omega

theorem toInt_le {x : ℚ} (h : 0 ≤ x) : (toInt x : ℚ) ≤ x := by
  have hfloor : 0 ≤ ⌊x⌋ := Int.floor_nonneg.2 h
  have hle : toInt x ≤ ⌊x⌋ := by
    rw [toInt, if_pos h]
    omega
  calc (toInt x : ℚ) ≤ (⌊x⌋ : ℚ) := by exact_mod_cast hle
    _ ≤ x := Int.floor_le x

theorem le_toInt {x : ℚ} (h : x ≤ 0) : x ≤ (toInt x : ℚ) := by
  have hceil : ⌈x⌉ ≤ 0 := Int.ceil_le.2 (by push_cast; exact h)
  have hle : ⌈x⌉ ≤ toInt x := by
    by_cases hx : 0 ≤ x
    · have hzero : x = 0 := le_antisymm h hx
      subst hzero
      decide +kernel
    · rw [toInt, if_neg hx]
      omega
  calc x ≤ (⌈x⌉ : ℚ) := Int.le_ceil x
    _ ≤ (toInt x : ℚ) := by exact_mod_cast hle

/-! ## The view -/

/-- An `ObjectAnimator` of `currentScale`. -/
structure Animator where
  start : ℚ
  stop : ℚ
deriving DecidableEq

/-- The arguments of `OverScroller.fling`; the overshoot is 0. -/
structure Fling where
  startX : ℤ
  startY : ℤ
  velocityX : ℤ
  velocityY : ℤ
  minX : ℤ
  maxX : ℤ
  minY : ℤ
  maxY : ℤ
deriving DecidableEq

/-- The view with the scale its `PhotoScaleGestureListener` has noted, the animators
started so far and the last fling. -/
structure PhotoViewStudy where
  sizes : Sizes
  originalOffsetX : ℚ
  originalOffsetY : ℚ
  offsetX : ℚ
  offsetY : ℚ
  currentScale : ℚ
  smallScale : ℚ
  bigScale : ℚ
  isEnlarge : Bool
  initScale : ℚ
  animators : List Animator
  overScroller : Option Fling
deriving DecidableEq

namespace PhotoViewStudy

variable (photo : PhotoViewStudy)

/-- A view before its first layout. -/
def new (sizes : Sizes) : PhotoViewStudy :=
  { sizes := sizes, originalOffsetX := 0, originalOffsetY := 0, offsetX := 0, offsetY := 0,
    currentScale := 1, smallScale := 1, bigScale := 1, isEnlarge := false, initScale := 0,
    animators := [], overScroller := none }

def onSizeChanged : PhotoViewStudy :=
  { photo with
    originalOffsetX := (photo.sizes.width - photo.sizes.bitmapWidth) / 2
    originalOffsetY := (photo.sizes.height - photo.sizes.bitmapHeight) / 2
    smallScale := photo.sizes.smallScale
    bigScale := photo.sizes.bigScale
    currentScale := photo.sizes.smallScale }

/-- The draw fraction. -/
def scaleFaction : Option ℚ :=
  divide (photo.currentScale - photo.smallScale) (photo.bigScale - photo.smallScale)

def setCurrentScale (scale : ℚ) : PhotoViewStudy := { photo with currentScale := scale }

def fixOffsets : PhotoViewStudy :=
  { photo with
    offsetX := fixOffset photo.sizes.bitmapWidth photo.sizes.width photo.bigScale photo.offsetX
    offsetY := fixOffset photo.sizes.bitmapHeight photo.sizes.height photo.bigScale photo.offsetY }

/-- `getScaleAnimation(start, stop)`, started or reversed. -/
def startAnimator (start stop : ℚ) : PhotoViewStudy :=
  { photo with animators := photo.animators ++ [⟨start, stop⟩] }

def onFling (velocityX velocityY : ℚ) : PhotoViewStudy :=
  if photo.isEnlarge then
    { photo with
      overScroller := some
        { startX := toInt photo.offsetX
          startY := toInt photo.offsetY
          velocityX := toInt velocityX
          velocityY := toInt velocityY
          minX := toInt (-(photo.sizes.bitmapWidth * photo.bigScale - photo.sizes.width) / 2)
          maxX := toInt ((photo.sizes.bitmapWidth * photo.bigScale - photo.sizes.width) / 2)
          minY := toInt (-(photo.sizes.bitmapHeight * photo.bigScale - photo.sizes.height) / 2)
          maxY := toInt ((photo.sizes.bitmapHeight * photo.bigScale - photo.sizes.height) / 2) } }
  else photo

/-- The offset that keeps the touched point, for one axis. -/
def tapOffset (touch view : ℚ) : ℚ :=
  (touch - view / 2) - (touch - view / 2) * photo.bigScale / photo.smallScale

def onDoubleTap (x y : ℚ) : PhotoViewStudy :=
  let photo := { photo with isEnlarge := !photo.isEnlarge }
  if photo.isEnlarge then
    (fixOffsets
      { photo with
        offsetX := photo.tapOffset x photo.sizes.width
        offsetY := photo.tapOffset y photo.sizes.height }).startAnimator
      photo.smallScale photo.bigScale
  else photo.startAnimator photo.smallScale photo.currentScale

def onScroll (distanceX distanceY : ℚ) : PhotoViewStudy :=
  if photo.isEnlarge then
    fixOffsets
      { photo with offsetX := photo.offsetX - distanceX, offsetY := photo.offsetY - distanceY }
  else photo

def onScaleBegin : PhotoViewStudy := { photo with initScale := photo.currentScale }

def onScale (scaleFactor : ℚ) : PhotoViewStudy :=
  { photo with
    isEnlarge :=
      if photo.smallScale ≤ photo.currentScale && !photo.isEnlarge then !photo.isEnlarge
      else photo.isEnlarge
    currentScale := max (min photo.bigScale (photo.initScale * scaleFactor)) photo.smallScale }

/-- `FlingRunner.run` at a frame the scroller has computed. -/
def runFling (currX currY : ℤ) : PhotoViewStudy :=
  { photo with offsetX := currX, offsetY := currY }

end PhotoViewStudy

/-! ## Runs -/

inductive Event where
  | onDoubleTap (x y : ℚ)
  | onScroll (distanceX distanceY : ℚ)
  | onScaleBegin
  | onScale (scaleFactor : ℚ)
  | onFling (velocityX velocityY : ℚ)
  | animationFrame (animator : ℕ) (value : ℚ)
  | flingFrame (currX currY : ℤ)
deriving DecidableEq

namespace Fling

variable (fling : Fling)

def StartsInside : Prop :=
  fling.minX ≤ fling.startX ∧ fling.startX ≤ fling.maxX ∧
    fling.minY ≤ fling.startY ∧ fling.startY ≤ fling.maxY

def Within (currX currY : ℤ) : Prop :=
  fling.minX ≤ currX ∧ currX ≤ fling.maxX ∧ fling.minY ≤ currY ∧ currY ≤ fling.maxY

instance : Decidable fling.StartsInside := inferInstanceAs (Decidable (_ ∧ _))

instance (currX currY : ℤ) : Decidable (fling.Within currX currY) :=
  inferInstanceAs (Decidable (_ ∧ _))

end Fling

namespace PhotoViewStudy

variable (photo : PhotoViewStudy)

def step : Event → PhotoViewStudy
  | .onDoubleTap x y => photo.onDoubleTap x y
  | .onScroll distanceX distanceY => photo.onScroll distanceX distanceY
  | .onScaleBegin => photo.onScaleBegin
  | .onScale scaleFactor => photo.onScale scaleFactor
  | .onFling velocityX velocityY => photo.onFling velocityX velocityY
  | .animationFrame _ value => photo.setCurrentScale value
  | .flingFrame currX currY => photo.runFling currX currY

/-- A scale factor is positive.  A frame belongs to an animator or a fling that was
started: an animator sets values between its endpoints, and a fling that starts inside
its limits stays inside. -/
def Allows : Event → Prop
  | .onScale scaleFactor => 0 < scaleFactor
  | .animationFrame animator value =>
      ∃ a ∈ photo.animators[animator]?, min a.start a.stop ≤ value ∧ value ≤ max a.start a.stop
  | .flingFrame currX currY =>
      ∃ fling ∈ photo.overScroller, fling.StartsInside → fling.Within currX currY
  | _ => True

instance : DecidablePred photo.Allows
  | .onDoubleTap _ _ => isTrue trivial
  | .onScroll _ _ => isTrue trivial
  | .onScaleBegin => isTrue trivial
  | .onScale scaleFactor => inferInstanceAs (Decidable (0 < scaleFactor))
  | .onFling _ _ => isTrue trivial
  | .animationFrame animator value => inferInstanceAs (Decidable (∃ a ∈ photo.animators[animator]?,
      min a.start a.stop ≤ value ∧ value ≤ max a.start a.stop))
  | .flingFrame currX currY => inferInstanceAs (Decidable (∃ fling ∈ photo.overScroller,
      fling.StartsInside → fling.Within currX currY))

end PhotoViewStudy

/-! ## The invariant -/

/-- A scale between the two scales of the layout. -/
def Sizes.InScale (sizes : Sizes) (scale : ℚ) : Prop :=
  sizes.smallScale ≤ scale ∧ scale ≤ sizes.bigScale

/-- An offset within the limits of `fixOffsets`. -/
structure Sizes.InLimits (sizes : Sizes) (offsetX offsetY : ℚ) : Prop where
  x : |offsetX| ≤ (sizes.bitmapWidth * sizes.bigScale - sizes.width) / 2
  y : |offsetY| ≤ (sizes.bitmapHeight * sizes.bigScale - sizes.height) / 2

/-- Everything that can still set the scale or the offset is inside. -/
structure PhotoViewStudy.Inside (sizes : Sizes) (photo : PhotoViewStudy) : Prop where
  sizes_eq : photo.sizes = sizes
  smallScale_eq : photo.smallScale = sizes.smallScale
  bigScale_eq : photo.bigScale = sizes.bigScale
  scale : sizes.InScale photo.currentScale
  offset : sizes.InLimits photo.offsetX photo.offsetY
  animators : ∀ a ∈ photo.animators, sizes.InScale a.start ∧ sizes.InScale a.stop
  fling : ∀ fling ∈ photo.overScroller, fling.StartsInside ∧
    ∀ currX currY, fling.Within currX currY → sizes.InLimits currX currY

section Limits

variable (sizes : Sizes)

theorem Sizes.inScale_small : sizes.InScale sizes.smallScale :=
  ⟨le_refl _, sizes.smallScale_lt_bigScale.le⟩

theorem Sizes.inScale_big : sizes.InScale sizes.bigScale :=
  ⟨sizes.smallScale_lt_bigScale.le, le_refl _⟩

theorem Sizes.inLimits_fixOffset (offsetX offsetY : ℚ) :
    sizes.InLimits (fixOffset sizes.bitmapWidth sizes.width sizes.bigScale offsetX)
      (fixOffset sizes.bitmapHeight sizes.height sizes.bigScale offsetY) :=
  ⟨abs_fixOffset_le sizes.axisX.lt_big.le _, abs_fixOffset_le sizes.axisY.lt_big.le _⟩

/-- Rounded limits lie within the limits. -/
theorem abs_le_of_toInt {limit : ℚ} {curr : ℤ} (hlimit : 0 ≤ limit) (hlow : toInt (-limit) ≤ curr)
    (hhigh : curr ≤ toInt limit) : |(curr : ℚ)| ≤ limit := by
  have hlow' : (toInt (-limit) : ℚ) ≤ curr := by exact_mod_cast hlow
  have hhigh' : (curr : ℚ) ≤ toInt limit := by exact_mod_cast hhigh
  rw [abs_le]
  exact ⟨(le_toInt (neg_nonpos.2 hlimit)).trans hlow', hhigh'.trans (toInt_le hlimit)⟩

/-- A rounded offset lies within the rounded limits. -/
theorem toInt_within {limit offset : ℚ} (h : |offset| ≤ limit) :
    toInt (-limit) ≤ toInt offset ∧ toInt offset ≤ toInt limit := by
  obtain ⟨hlow, hhigh⟩ := abs_le.1 h
  exact ⟨toInt_mono hlow, toInt_mono hhigh⟩

end Limits

namespace PhotoViewStudy.Inside

variable {sizes : Sizes} {photo : PhotoViewStudy}

theorem onSizeChanged (sizes : Sizes) : Inside sizes (new sizes).onSizeChanged where
  sizes_eq := rfl
  smallScale_eq := rfl
  bigScale_eq := rfl
  scale := sizes.inScale_small
  offset := by
    have hx := sizes.axisX.lt_big
    have hy := sizes.axisY.lt_big
    constructor
    · show |(0 : ℚ)| ≤ _
      rw [abs_zero]
      linarith
    · show |(0 : ℚ)| ≤ _
      rw [abs_zero]
      linarith
  animators := fun a ha => absurd ha (List.not_mem_nil)
  fling := fun fling hfling => absurd hfling (Option.not_mem_none fling)

theorem fixOffsets (h : Inside sizes photo) (offsetX offsetY : ℚ) :
    Inside sizes (fixOffsets { photo with offsetX := offsetX, offsetY := offsetY }) where
  sizes_eq := h.sizes_eq
  smallScale_eq := h.smallScale_eq
  bigScale_eq := h.bigScale_eq
  scale := h.scale
  offset := by
    have hlimits := sizes.inLimits_fixOffset offsetX offsetY
    rw [← h.sizes_eq] at hlimits ⊢
    rw [PhotoViewStudy.fixOffsets, h.bigScale_eq, ← h.sizes_eq]
    exact hlimits
  animators := h.animators
  fling := h.fling

theorem startAnimator (h : Inside sizes photo) {start stop : ℚ} (hstart : sizes.InScale start)
    (hstop : sizes.InScale stop) : Inside sizes (photo.startAnimator start stop) where
  sizes_eq := h.sizes_eq
  smallScale_eq := h.smallScale_eq
  bigScale_eq := h.bigScale_eq
  scale := h.scale
  offset := h.offset
  animators := by
    intro a ha
    rcases List.mem_append.1 ha with hbefore | hnew
    · exact h.animators a hbefore
    · cases List.mem_singleton.1 hnew
      exact ⟨hstart, hstop⟩
  fling := h.fling

theorem onDoubleTap (h : Inside sizes photo) (x y : ℚ) :
    Inside sizes (photo.onDoubleTap x y) := by
  have htoggled : Inside sizes { photo with isEnlarge := !photo.isEnlarge } :=
    ⟨h.sizes_eq, h.smallScale_eq, h.bigScale_eq, h.scale, h.offset, h.animators, h.fling⟩
  have hsmall : sizes.InScale photo.smallScale := by
    rw [h.smallScale_eq]
    exact sizes.inScale_small
  have hbig : sizes.InScale photo.bigScale := by
    rw [h.bigScale_eq]
    exact sizes.inScale_big
  rw [PhotoViewStudy.onDoubleTap]
  split
  · exact (htoggled.fixOffsets _ _).startAnimator hsmall hbig
  · exact htoggled.startAnimator hsmall h.scale

theorem onScroll (h : Inside sizes photo) (distanceX distanceY : ℚ) :
    Inside sizes (photo.onScroll distanceX distanceY) := by
  rw [PhotoViewStudy.onScroll]
  split
  · exact h.fixOffsets _ _
  · exact h

theorem onScale (h : Inside sizes photo) (scaleFactor : ℚ) :
    Inside sizes (photo.onScale scaleFactor) where
  sizes_eq := h.sizes_eq
  smallScale_eq := h.smallScale_eq
  bigScale_eq := h.bigScale_eq
  scale := by
    rw [PhotoViewStudy.onScale, h.smallScale_eq, h.bigScale_eq]
    exact ⟨le_max_right _ _, max_le (min_le_left _ _) sizes.smallScale_lt_bigScale.le⟩
  offset := h.offset
  animators := h.animators
  fling := h.fling

/-- A fling starts inside its limits, and its limits are inside. -/
theorem onFling (h : Inside sizes photo) (velocityX velocityY : ℚ) :
    Inside sizes (photo.onFling velocityX velocityY) := by
  rw [PhotoViewStudy.onFling]
  split
  · refine ⟨h.sizes_eq, h.smallScale_eq, h.bigScale_eq, h.scale, h.offset, h.animators, ?_⟩
    intro fling hfling
    cases hfling
    rw [h.bigScale_eq, h.sizes_eq, neg_div, neg_div]
    obtain ⟨hlowX, hhighX⟩ := toInt_within h.offset.x
    obtain ⟨hlowY, hhighY⟩ := toInt_within h.offset.y
    refine ⟨⟨hlowX, hhighX, hlowY, hhighY⟩, ?_⟩
    rintro currX currY ⟨hminX, hmaxX, hminY, hmaxY⟩
    have hx := sizes.axisX.lt_big
    have hy := sizes.axisY.lt_big
    exact ⟨abs_le_of_toInt (by linarith) hminX hmaxX, abs_le_of_toInt (by linarith) hminY hmaxY⟩
  · exact h

theorem step (h : Inside sizes photo) {event : Event} (hallows : photo.Allows event) :
    Inside sizes (photo.step event) := by
  cases event with
  | onDoubleTap x y => exact h.onDoubleTap x y
  | onScroll distanceX distanceY => exact h.onScroll distanceX distanceY
  | onScaleBegin =>
      exact ⟨h.sizes_eq, h.smallScale_eq, h.bigScale_eq, h.scale, h.offset, h.animators, h.fling⟩
  | onScale scaleFactor => exact h.onScale scaleFactor
  | onFling velocityX velocityY => exact h.onFling velocityX velocityY
  | animationFrame animator value =>
      obtain ⟨a, ha, hlow, hhigh⟩ := hallows
      obtain ⟨hstart, hstop⟩ := h.animators a (List.mem_of_getElem? ha)
      have hscale : sizes.InScale value :=
        ⟨(le_min hstart.1 hstop.1).trans hlow, hhigh.trans (max_le hstart.2 hstop.2)⟩
      exact ⟨h.sizes_eq, h.smallScale_eq, h.bigScale_eq, hscale, h.offset, h.animators, h.fling⟩
  | flingFrame currX currY =>
      obtain ⟨fling, hfling, hwithin⟩ := hallows
      obtain ⟨hstarts, hlimits⟩ := h.fling fling hfling
      have hoffset := hlimits currX currY (hwithin hstarts)
      exact ⟨h.sizes_eq, h.smallScale_eq, h.bigScale_eq, h.scale, hoffset, h.animators, h.fling⟩

theorem scaleFaction (h : Inside sizes photo) :
    ∃ faction, photo.scaleFaction = some faction ∧ 0 ≤ faction ∧ faction ≤ 1 := by
  have hlt := sizes.smallScale_lt_bigScale
  refine ⟨fraction sizes.smallScale sizes.bigScale photo.currentScale, ?_,
    fraction_nonneg hlt h.scale.1, fraction_le_one hlt h.scale.2⟩
  rw [PhotoViewStudy.scaleFaction, h.smallScale_eq, h.bigScale_eq]
  exact divide_of_ne_zero _ (sub_pos.2 hlt).ne'

end PhotoViewStudy.Inside

/-! ## Every run -/

namespace PhotoViewStudy

/-- The view after its layout and a run of events. -/
def afterEvents (sizes : Sizes) (events : List Event) : PhotoViewStudy :=
  after step (new sizes).onSizeChanged events

theorem stays_inside (sizes : Sizes) :
    let start := (new sizes).onSizeChanged
    (0 < start.smallScale ∧ start.smallScale < start.bigScale ∧
      0 < sizes.bitmapWidth * start.bigScale - sizes.width ∧
      0 < sizes.bitmapHeight * start.bigScale - sizes.height) ∧
    ∀ events, EveryStep (fun before event => (afterEvents sizes before).Allows event) events →
      EveryPrefix (fun before =>
        let photo := afterEvents sizes before
        (start.smallScale ≤ photo.currentScale ∧ photo.currentScale ≤ start.bigScale) ∧
        |photo.offsetX| ≤ (sizes.bitmapWidth * start.bigScale - sizes.width) / 2 ∧
        |photo.offsetY| ≤ (sizes.bitmapHeight * start.bigScale - sizes.height) / 2 ∧
        ∃ faction, photo.scaleFaction = some faction ∧ 0 ≤ faction ∧ faction ≤ 1) events := by
  refine ⟨⟨sizes.smallScale_pos, sizes.smallScale_lt_bigScale, sub_pos.2 sizes.axisX.lt_big,
    sub_pos.2 sizes.axisY.lt_big⟩, ?_⟩
  intro events hevents
  have hinside : EveryPrefix (fun before => Inside sizes (afterEvents sizes before)) events := by
    refine EveryPrefix.of_step (Inside.onSizeChanged sizes) ?_ hevents
    intro before event hallows hbefore
    rw [afterEvents, after_append_singleton]
    exact hbefore.step hallows
  refine hinside.mono ?_
  intro before hbefore
  exact ⟨hbefore.scale, hbefore.offset.x, hbefore.offset.y, hbefore.scaleFaction⟩

/-- A square view and bitmap of 300 pixels. -/
def squareSizes : Sizes := ⟨300, 300, 300, 300, by decide, by decide, by decide, by decide⟩

/-- A double tap in a corner, a frame of its animation, a fling and one of its frames. -/
theorem stays_inside_tap_fling :
    (afterEvents squareSizes
        [.onDoubleTap 0 0, .animationFrame 0 (5 / 4), .onFling 10 10, .flingFrame 20 24]).offsetX =
      20 ∧
    |(afterEvents squareSizes
        [.onDoubleTap 0 0, .animationFrame 0 (5 / 4), .onFling 10 10, .flingFrame 20 24]).offsetY| ≤
      75 := by
  have hevents : EveryStep (fun before event => (afterEvents squareSizes before).Allows event)
      [.onDoubleTap 0 0, .animationFrame 0 (5 / 4), .onFling 10 10, .flingFrame 20 24] := by
    rw [everyStep_iff_getElem]
    decide +kernel
  refine ⟨by decide +kernel, ?_⟩
  obtain ⟨-, -, hy, -⟩ := ((stays_inside squareSizes).2 _ hevents).self
  have hlimit : ((squareSizes.bitmapHeight : ℚ) *
      (new squareSizes).onSizeChanged.bigScale - squareSizes.height) / 2 = 75 := by decide +kernel
  rw [hlimit] at hy
  exact hy

end PhotoViewStudy

end StudyNotes.Photo
