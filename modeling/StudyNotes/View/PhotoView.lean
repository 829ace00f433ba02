/-
# Scrolling a photo

`PhotoView.onScroll` limits the offset as it is drawn and writes it back by dividing by
the fraction of the current scale.  The horizontal axis tests the offset after the
movement, the vertical axis the one before it: a movement that starts inside the limits
may end outside, and only the limits of the big scale stop it.
-/

import StudyNotes.View.PhotoGeometry

namespace StudyNotes.Photo

/-! ## The view -/

structure PhotoView where
  sizes : Sizes
  originalOffsetX : ℚ
  originalOffsetY : ℚ
  offsetX : ℚ
  offsetY : ℚ
  currentScale : ℚ
  smallScale : ℚ
  bigScale : ℚ
  isEnlarge : Bool
deriving DecidableEq

/-- The two tests at the end of an axis of `onScroll`. -/
def writeBack (scaleFaction maxOffset realOffset offset : ℚ) : Option ℚ := do
  let offset ←
    if realOffset < -maxOffset then divide (-maxOffset) scaleFaction else some offset
  if maxOffset < realOffset then divide maxOffset scaleFaction else some offset

namespace PhotoView

variable (photo : PhotoView)

/-- A view before its first layout. -/
def new (sizes : Sizes) : PhotoView :=
  { sizes := sizes, originalOffsetX := 0, originalOffsetY := 0, offsetX := 0, offsetY := 0,
    currentScale := 1, smallScale := 1, bigScale := 1, isEnlarge := false }

def onSizeChanged : PhotoView :=
  { photo with
    originalOffsetX := (photo.sizes.width - photo.sizes.bitmapWidth) / 2
    originalOffsetY := (photo.sizes.height - photo.sizes.bitmapHeight) / 2
    smallScale := photo.sizes.smallScale
    bigScale := photo.sizes.bigScale
    currentScale := photo.sizes.smallScale }

def fixOffsets : PhotoView :=
  { photo with
    offsetX := fixOffset photo.sizes.bitmapWidth photo.sizes.width photo.bigScale photo.offsetX
    offsetY := fixOffset photo.sizes.bitmapHeight photo.sizes.height photo.bigScale photo.offsetY }

/-- The horizontal part of `onScroll`. -/
def scrollX (scaleFaction distanceX : ℚ) : Option ℚ :=
  if photo.sizes.width < photo.sizes.bitmapWidth * photo.currentScale then
    let maxOffset := (photo.sizes.bitmapWidth * photo.currentScale - photo.sizes.width) / 2
    let offsetX := photo.offsetX - distanceX
    let realOffset := offsetX * scaleFaction
    writeBack scaleFaction maxOffset realOffset offsetX
  else some photo.offsetX

/-- The vertical part, which takes `realOffset` from the offset before the movement. -/
def scrollY (scaleFaction distanceY : ℚ) : Option ℚ :=
  if photo.sizes.height < photo.sizes.bitmapHeight * photo.currentScale then
    let maxOffset := (photo.sizes.bitmapHeight * photo.currentScale - photo.sizes.height) / 2
    let realOffset := photo.offsetY * scaleFaction
    let offsetY := photo.offsetY - distanceY
    writeBack scaleFaction maxOffset realOffset offsetY
  else some photo.offsetY

def onScroll (distanceX distanceY : ℚ) : Option PhotoView :=
  if photo.isEnlarge then do
    let scaleFaction ←
      divide (photo.currentScale - photo.smallScale) (photo.bigScale - photo.smallScale)
    let offsetX ← photo.scrollX scaleFaction distanceX
    let offsetY ← photo.scrollY scaleFaction distanceY
    some (fixOffsets { photo with offsetX := offsetX, offsetY := offsetY })
  else some photo

end PhotoView

/-! ## One axis -/

section Axis

variable {scaleFaction maxOffset : ℚ}

/-- An offset drawn beyond the limit is put on it, any other stays. -/
theorem writeBack_cases (hfraction : 0 < scaleFaction) (hmax : 0 < maxOffset)
    (realOffset offset : ℚ) :
    maxOffset < |realOffset| ∧
        (∃ offset', writeBack scaleFaction maxOffset realOffset offset = some offset' ∧
          |offset' * scaleFaction| = maxOffset) ∨
      |realOffset| ≤ maxOffset ∧
        writeBack scaleFaction maxOffset realOffset offset = some offset := by
  rcases lt_or_ge maxOffset |realOffset| with houtside | hinside
  · refine Or.inl ⟨houtside, ?_⟩
    rcases lt_abs.1 houtside with hhigh | hlow
    · refine ⟨maxOffset / scaleFaction, ?_, ?_⟩
      · have hnot : ¬ realOffset < -maxOffset := by linarith
        simp only [writeBack, if_neg hnot, Option.bind_eq_bind, Option.bind_some, if_pos hhigh]
        exact divide_of_ne_zero _ hfraction.ne'
      · rw [div_mul_cancel₀ _ hfraction.ne', abs_of_pos hmax]
    · have hlow' : realOffset < -maxOffset := by linarith
      have hnot : ¬ maxOffset < realOffset := by linarith
      refine ⟨-maxOffset / scaleFaction, ?_, ?_⟩
      · simp only [writeBack, if_pos hlow', divide_of_ne_zero _ hfraction.ne',
          Option.bind_eq_bind, Option.bind_some, if_neg hnot]
      · rw [div_mul_cancel₀ _ hfraction.ne', abs_neg, abs_of_pos hmax]
  · obtain ⟨hlow, hhigh⟩ := abs_le.1 hinside
    refine Or.inr ⟨hinside, ?_⟩
    simp only [writeBack, if_neg (not_lt.2 hlow), Option.bind_eq_bind, Option.bind_some,
      if_neg (not_lt.2 hhigh)]

variable {bitmap view small big current : ℚ}

/-- The second clamp brings a drawn offset inside only where its own limit, drawn, is
inside. -/
theorem abs_fixOffset_mul_le_iff (hlimit : view ≤ bitmap * big) (hfraction : 0 ≤ scaleFaction)
    (offset : ℚ) :
    |fixOffset bitmap view big offset * scaleFaction| ≤ maxOffset ↔
      |offset * scaleFaction| ≤ maxOffset ∨
        (bitmap * big - view) / 2 * scaleFaction ≤ maxOffset := by
  rw [abs_mul, abs_mul, abs_of_nonneg hfraction]
  rcases le_total |offset| ((bitmap * big - view) / 2) with hinside | houtside
  · rw [fixOffset_of_abs_le hinside]
    have hscaled := mul_le_mul_of_nonneg_right hinside hfraction
    constructor
    · exact Or.inl
    · rintro (h | h)
      · exact h
      · exact hscaled.trans h
  · rw [abs_fixOffset_of_le hlimit houtside]
    have hscaled := mul_le_mul_of_nonneg_right houtside hfraction
    constructor
    · exact Or.inr
    · rintro (h | h)
      · exact hscaled.trans h
      · exact h

/-- The limit of the big scale, drawn, is inside exactly at the big scale, and where the
small scale leaves no space on this axis. -/
theorem Axis.limit_inside_iff (h : Axis bitmap view small big) (hcurrent : current ≤ big) :
    (bitmap * big - view) / 2 * fraction small big current ≤ (bitmap * current - view) / 2 ↔
      current = big ∨ bitmap * small = view := by
  have hone := fraction_le_one h.lt hcurrent
  have hspace := h.small_le
  rw [h.fraction_mul_limit, ← fraction_eq_one_iff h.lt]
  constructor
  · intro hle
    have hproduct : (1 - fraction small big current) * ((view - bitmap * small) / 2) = 0 := by
      refine le_antisymm (by linarith) (mul_nonneg (by linarith) (by linarith))
    rcases mul_eq_zero.1 hproduct with hfraction | hfree
    · exact Or.inl (by linarith)
    · exact Or.inr (by linarith)
  · rintro (hfraction | hfree)
    · rw [hfraction]
      linarith
    · rw [hfree]
      linarith

end Axis

/-! ## Scrolling -/

/-- On one axis a scroll ends inside: a bitmap larger than the view is drawn without a
gap, and a smaller one is not moved. -/
def EndsInside (bitmap view small big current before after : ℚ) : Prop :=
  (view < bitmap * current →
    |after * ((current - small) / (big - small))| ≤ (bitmap * current - view) / 2) ∧
  (¬ view < bitmap * current → after = before)

/-- An axis of `onScroll` divides by no 0, and ends inside exactly where the tested offset
is beyond the limit, the moved one is within it, or the limit of the big scale is. -/
theorem Axis.scroll {bitmap view small big current offset : ℚ} (h : Axis bitmap view small big)
    (hcurrent : current ≤ big) (hoffset : |offset| ≤ (bitmap * big - view) / 2)
    (realOffset moved : ℚ) :
    ∃ after,
      (if view < bitmap * current then
        writeBack (fraction small big current) ((bitmap * current - view) / 2) realOffset moved
      else some offset) = some after ∧
      (EndsInside bitmap view small big current offset (fixOffset bitmap view big after) ↔
        bitmap * current ≤ view ∨ (bitmap * current - view) / 2 < |realOffset| ∨
          |moved * fraction small big current| ≤ (bitmap * current - view) / 2 ∨
          current = big ∨ bitmap * small = view) := by
  by_cases hlarger : view < bitmap * current
  · have hfraction := fraction_pos h.lt (h.small_lt hlarger)
    have hmax : 0 < (bitmap * current - view) / 2 := by linarith
    have hends : ∀ after,
        EndsInside bitmap view small big current offset (fixOffset bitmap view big after) ↔
          |after * fraction small big current| ≤ (bitmap * current - view) / 2 ∨
            current = big ∨ bitmap * small = view := by
      intro after
      rw [← h.limit_inside_iff hcurrent, ← abs_fixOffset_mul_le_iff h.lt_big.le hfraction.le]
      exact ⟨fun hinside => hinside.1 hlarger, fun hdrawn =>
        ⟨fun _ => hdrawn, fun hnot => absurd hlarger hnot⟩⟩
    rw [if_pos hlarger]
    rcases writeBack_cases hfraction hmax realOffset moved with
      ⟨houtside, after, hwrite, hdrawn⟩ | ⟨hinside, hwrite⟩
    · refine ⟨after, hwrite, ?_⟩
      rw [hends]
      exact ⟨fun _ => Or.inr (Or.inl houtside), fun _ => Or.inl hdrawn.le⟩
    · refine ⟨moved, hwrite, ?_⟩
      rw [hends]
      constructor
      · intro hmoved
        exact Or.inr (Or.inr hmoved)
      · rintro (hsmaller | houtside | hmoved)
        · exact absurd hlarger (not_lt.2 hsmaller)
        · exact absurd houtside (not_lt.2 hinside)
        · exact hmoved
  · refine ⟨offset, if_neg hlarger, ⟨fun _ => Or.inl (not_lt.1 hlarger), fun _ => ?_⟩⟩
    exact ⟨fun hnot => absurd hnot hlarger, fun _ => fixOffset_of_abs_le hoffset⟩

namespace PhotoView

variable (photo : PhotoView)

/-- A view after its layout, enlarged to a scale and moved to an offset. -/
def enlarged (currentScale offsetX offsetY : ℚ) : PhotoView :=
  { photo.onSizeChanged with
    currentScale := currentScale, offsetX := offsetX, offsetY := offsetY, isEnlarge := true }

/-- The two axes of `onScroll`, one after the other. -/
theorem onScroll_enlarged {currentScale offsetX offsetY distanceX distanceY offsetX' offsetY' : ℚ}
    (hx : (photo.enlarged currentScale offsetX offsetY).scrollX
      (fraction photo.sizes.smallScale photo.sizes.bigScale currentScale) distanceX = some offsetX')
    (hy : (photo.enlarged currentScale offsetX offsetY).scrollY
      (fraction photo.sizes.smallScale photo.sizes.bigScale currentScale) distanceY =
        some offsetY') :
    (photo.enlarged currentScale offsetX offsetY).onScroll distanceX distanceY =
      some (fixOffsets { photo.enlarged currentScale offsetX offsetY with
        offsetX := offsetX', offsetY := offsetY' }) := by
  have hscale : divide (currentScale - photo.sizes.smallScale)
      (photo.sizes.bigScale - photo.sizes.smallScale) =
        some (fraction photo.sizes.smallScale photo.sizes.bigScale currentScale) :=
    divide_of_ne_zero _ (sub_pos.2 photo.sizes.smallScale_lt_bigScale).ne'
  unfold onScroll
  rw [if_pos (by rfl)]
  refine Option.bind_eq_some_iff.2 ⟨_, hscale, ?_⟩
  refine Option.bind_eq_some_iff.2 ⟨offsetX', hx, ?_⟩
  exact Option.bind_eq_some_iff.2 ⟨offsetY', hy, rfl⟩

/-- `onScroll` divides by no 0 and ends inside on both axes. -/
def ScrollsInside (distanceX distanceY : ℚ) : Prop :=
  ∃ after, photo.onScroll distanceX distanceY = some after ∧
    EndsInside photo.sizes.bitmapWidth photo.sizes.width photo.smallScale photo.bigScale
      photo.currentScale photo.offsetX after.offsetX ∧
    EndsInside photo.sizes.bitmapHeight photo.sizes.height photo.smallScale photo.bigScale
      photo.currentScale photo.offsetY after.offsetY

/-- The horizontal axis always ends inside.  The vertical one does unless the bitmap is
wide and below its big scale, and the movement leaves the limits from inside. -/
theorem scrollsInside_iff (currentScale offsetX offsetY distanceX distanceY : ℚ)
    (hbig : currentScale ≤ photo.onSizeChanged.bigScale)
    (hx : |offsetX| ≤
      (photo.sizes.bitmapWidth * photo.onSizeChanged.bigScale - photo.sizes.width) / 2)
    (hy : |offsetY| ≤
      (photo.sizes.bitmapHeight * photo.onSizeChanged.bigScale - photo.sizes.height) / 2) :
    (photo.enlarged currentScale offsetX offsetY).ScrollsInside distanceX distanceY ↔
      photo.sizes.bitmapHeight * currentScale ≤ photo.sizes.height ∨
      (photo.sizes.bitmapHeight * currentScale - photo.sizes.height) / 2 <
        |offsetY * fraction photo.onSizeChanged.smallScale photo.onSizeChanged.bigScale
          currentScale| ∨
      |(offsetY - distanceY) * fraction photo.onSizeChanged.smallScale
          photo.onSizeChanged.bigScale currentScale| ≤
        (photo.sizes.bitmapHeight * currentScale - photo.sizes.height) / 2 ∨
      currentScale = photo.onSizeChanged.bigScale ∨
      (photo.sizes.bitmapWidth : ℚ) / photo.sizes.width ≤
        (photo.sizes.bitmapHeight : ℚ) / photo.sizes.height := by
  obtain ⟨offsetX', hscrollX, hendsX⟩ := photo.sizes.axisX.scroll hbig hx
    ((offsetX - distanceX) * fraction photo.sizes.smallScale photo.sizes.bigScale currentScale)
    (offsetX - distanceX)
  obtain ⟨offsetY', hscrollY, hendsY⟩ := photo.sizes.axisY.scroll hbig hy
    (offsetY * fraction photo.sizes.smallScale photo.sizes.bigScale currentScale)
    (offsetY - distanceY)
  have hscroll : (photo.enlarged currentScale offsetX offsetY).onScroll distanceX distanceY =
      some (fixOffsets { photo.enlarged currentScale offsetX offsetY with
        offsetX := offsetX', offsetY := offsetY' }) :=
    photo.onScroll_enlarged hscrollX hscrollY
  -- The tested offset of the horizontal axis is the moved one.
  have hinsideX := hendsX.2 (by
    rcases lt_or_ge ((photo.sizes.bitmapWidth * currentScale - photo.sizes.width) / 2)
      |(offsetX - distanceX) * fraction photo.sizes.smallScale photo.sizes.bigScale currentScale|
      with houtside | hinside
    · exact Or.inr (Or.inl houtside)
    · exact Or.inr (Or.inr (Or.inl hinside)))
  rw [photo.sizes.bitmapHeight_mul_smallScale_eq_iff, Sizes.Wide, not_lt] at hendsY
  constructor
  · rintro ⟨after, hafter, -, hinsideY⟩
    rw [hscroll] at hafter
    cases hafter
    exact hendsY.1 hinsideY
  · intro hcondition
    exact ⟨_, hscroll, hinsideX, hendsY.2 hcondition⟩

/-- A square view of 100 pixels with a bitmap of 200 by 100: the small scale is 1/2 and
the big one 3/2. -/
def wideSizes : Sizes := ⟨100, 100, 200, 100, by decide, by decide, by decide, by decide⟩

/-- At the scale 5/4 a movement by 16 is within the limits, since it is drawn as 12. -/
theorem scrollsInside_sixteen :
    ((new wideSizes).enlarged (5 / 4) 0 0).ScrollsInside 0 (-16) := by
  refine (scrollsInside_iff (new wideSizes) (5 / 4) 0 0 0 (-16) ?_ ?_ ?_).2 ?_
  · decide +kernel
  · decide +kernel
  · decide +kernel
  · exact Or.inr (Or.inr (Or.inl (by decide +kernel)))

/-- A movement by 20 is drawn as 15, where the bitmap reaches 25 / 2 beyond the view. -/
theorem not_forall_scrollsInside :
    ¬ ∀ (photo : PhotoView) (currentScale offsetX offsetY distanceX distanceY : ℚ),
      photo.onSizeChanged.smallScale ≤ currentScale →
      currentScale ≤ photo.onSizeChanged.bigScale →
      |offsetX| ≤
        (photo.sizes.bitmapWidth * photo.onSizeChanged.bigScale - photo.sizes.width) / 2 →
      |offsetY| ≤
        (photo.sizes.bitmapHeight * photo.onSizeChanged.bigScale - photo.sizes.height) / 2 →
      (photo.enlarged currentScale offsetX offsetY).ScrollsInside distanceX distanceY := by
  intro h
  obtain ⟨after, hscroll, -, hinsideY, -⟩ := h (new wideSizes) (5 / 4) 0 0 0 (-20)
    (by decide +kernel) (by decide +kernel) (by decide +kernel) (by decide +kernel)
  have hafter : ((new wideSizes).enlarged (5 / 4) 0 0).onScroll 0 (-20) =
      some ((new wideSizes).enlarged (5 / 4) 0 20) := by decide +kernel
  rw [hafter] at hscroll
  cases hscroll
  exact absurd (hinsideY (by decide +kernel)) (by decide +kernel)

end PhotoView

end StudyNotes.Photo
