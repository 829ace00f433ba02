/-
# Photo geometry

`PhotoView` and `PhotoViewStudy` set their two scales and limit their offsets in the same
way.  The small scale shows the whole bitmap, the big one is beyond the size at which it
covers the view, and a photo drawn between them shifts its offset by the fraction of the
way it has gone.
-/

import Mathlib.Algebra.Order.Field.Rat
import Mathlib.Tactic.FieldSimp
import Mathlib.Tactic.Linarith
import Mathlib.Tactic.Positivity
import Mathlib.Tactic.Ring

namespace StudyNotes.Photo

/-! ## Sizes and scales -/

/-- The sizes of the view and of its bitmap. -/
structure Sizes where
  width : ℤ
  height : ℤ
  bitmapWidth : ℤ
  bitmapHeight : ℤ
  width_pos : 0 < width
  height_pos : 0 < height
  bitmapWidth_pos : 0 < bitmapWidth
  bitmapHeight_pos : 0 < bitmapHeight
deriving DecidableEq

/-- `OVER_SCALE_FACTOR`. -/
def overScaleFactor : ℚ := 3 / 2

namespace Sizes

variable (sizes : Sizes)

/-- The bitmap is wider than the view, compared with the heights. -/
def Wide : Prop :=
  (sizes.bitmapHeight : ℚ) / sizes.height < (sizes.bitmapWidth : ℚ) / sizes.width

instance : Decidable sizes.Wide := inferInstanceAs (Decidable (_ < _))

/-- `smallScale`, as `onSizeChanged` sets it. -/
def smallScale : ℚ :=
  if sizes.Wide then sizes.width / sizes.bitmapWidth else sizes.height / sizes.bitmapHeight

/-- `bigScale`, as `onSizeChanged` sets it. -/
def bigScale : ℚ :=
  if sizes.Wide then sizes.height / sizes.bitmapHeight * overScaleFactor
  else sizes.width / sizes.bitmapWidth * overScaleFactor

end Sizes

/-- `fixOffsets` on one axis. -/
def fixOffset (bitmap view bigScale offset : ℚ) : ℚ :=
  max (min offset ((bitmap * bigScale - view) / 2)) (-(bitmap * bigScale - view) / 2)

/-- A division that must not be by 0. -/
def divide (a b : ℚ) : Option ℚ := if b = 0 then none else some (a / b)

theorem divide_of_ne_zero (a : ℚ) {b : ℚ} (hb : b ≠ 0) : divide a b = some (a / b) :=
  if_neg hb

/-! ## One axis -/

/-- What the scales are on one axis: the small one fits the bitmap in, the big one makes
it larger than the view. -/
structure Axis (bitmap view small big : ℚ) : Prop where
  bitmap_pos : 0 < bitmap
  lt : small < big
  small_le : bitmap * small ≤ view
  lt_big : view < bitmap * big

section Offsets

variable {bitmap view big offset : ℚ}

theorem abs_fixOffset_le (h : view ≤ bitmap * big) (offset : ℚ) :
    |fixOffset bitmap view big offset| ≤ (bitmap * big - view) / 2 := by
  have hlimit : 0 ≤ (bitmap * big - view) / 2 := by linarith
  rw [fixOffset, neg_div, abs_le]
  refine ⟨le_max_right _ _, max_le (min_le_right _ _) ?_⟩
  linarith

/-- An offset inside the limits stays. -/
theorem fixOffset_of_abs_le (h : |offset| ≤ (bitmap * big - view) / 2) :
    fixOffset bitmap view big offset = offset := by
  obtain ⟨hlow, hhigh⟩ := abs_le.1 h
  rw [fixOffset, neg_div, min_eq_left hhigh, max_eq_left hlow]

/-- An offset beyond the limits is put on the nearer one. -/
theorem abs_fixOffset_of_le (hlimit : view ≤ bitmap * big)
    (h : (bitmap * big - view) / 2 ≤ |offset|) :
    |fixOffset bitmap view big offset| = (bitmap * big - view) / 2 := by
  have hnonneg : 0 ≤ (bitmap * big - view) / 2 := by linarith
  rw [fixOffset, neg_div]
  rcases le_abs.1 h with hhigh | hlow
  · rw [min_eq_right hhigh, max_eq_left (by linarith), abs_of_nonneg hnonneg]
  · rw [min_eq_left (by linarith), max_eq_right (by linarith), abs_neg, abs_of_nonneg hnonneg]

end Offsets

/-- The fraction of the way from the small to the big scale. -/
def fraction (small big current : ℚ) : ℚ := (current - small) / (big - small)

section Fraction

variable {bitmap view small big current : ℚ}

theorem fraction_nonneg (h : small < big) (hcurrent : small ≤ current) :
    0 ≤ fraction small big current :=
  div_nonneg (sub_nonneg.2 hcurrent) (sub_nonneg.2 h.le)

theorem fraction_le_one (h : small < big) (hcurrent : current ≤ big) :
    fraction small big current ≤ 1 := by
  rw [fraction, div_le_one (sub_pos.2 h)]
  linarith

theorem fraction_pos (h : small < big) (hcurrent : small < current) :
    0 < fraction small big current :=
  div_pos (sub_pos.2 hcurrent) (sub_pos.2 h)

theorem fraction_eq_one_iff (h : small < big) : fraction small big current = 1 ↔ current = big := by
  rw [fraction, div_eq_one_iff_eq (sub_pos.2 h).ne', sub_left_inj]

/-- The full limit, drawn at a fraction, passes the limit at the current scale by the
space the small scale leaves free. -/
theorem Axis.fraction_mul_limit (h : Axis bitmap view small big) (current : ℚ) :
    (bitmap * big - view) / 2 * fraction small big current =
      (bitmap * current - view) / 2 +
        (1 - fraction small big current) * ((view - bitmap * small) / 2) := by
  have hne : big - small ≠ 0 := (sub_pos.2 h.lt).ne'
  rw [fraction]
  field_simp
  ring

/-- A bitmap that is larger than the view is drawn beyond the small scale. -/
theorem Axis.small_lt (h : Axis bitmap view small big) (hlarger : view < bitmap * current) :
    small < current := by
  have hscaled : bitmap * small < bitmap * current := lt_of_le_of_lt h.small_le hlarger
  exact lt_of_mul_lt_mul_left hscaled h.bitmap_pos.le

end Fraction

/-! ## Both axes -/

namespace Sizes

variable (sizes : Sizes)

theorem width_pos' : (0 : ℚ) < sizes.width := by exact_mod_cast sizes.width_pos

theorem height_pos' : (0 : ℚ) < sizes.height := by exact_mod_cast sizes.height_pos

theorem bitmapWidth_pos' : (0 : ℚ) < sizes.bitmapWidth := by
  exact_mod_cast sizes.bitmapWidth_pos

theorem bitmapHeight_pos' : (0 : ℚ) < sizes.bitmapHeight := by
  exact_mod_cast sizes.bitmapHeight_pos

/-- The comparison of `onSizeChanged`, without the divisions. -/
theorem wide_iff :
    sizes.Wide ↔ (sizes.bitmapHeight : ℚ) * sizes.width < sizes.bitmapWidth * sizes.height :=
  div_lt_div_iff₀ sizes.height_pos' sizes.width_pos'

theorem smallScale_pos : 0 < sizes.smallScale := by
  unfold smallScale
  split
  · exact div_pos sizes.width_pos' sizes.bitmapWidth_pos'
  · exact div_pos sizes.height_pos' sizes.bitmapHeight_pos'

/-- The width at the small scale: it fills the view exactly for a wide bitmap. -/
theorem bitmapWidth_mul_smallScale_le : sizes.bitmapWidth * sizes.smallScale ≤ sizes.width := by
  have hbw := sizes.bitmapWidth_pos'
  have hbh := sizes.bitmapHeight_pos'
  unfold smallScale
  split
  · rw [mul_div_cancel₀ _ hbw.ne']
  · rename_i hwide
    have hle := not_lt.1 (fun h => hwide (sizes.wide_iff.2 h))
    rw [← mul_div_assoc, div_le_iff₀ hbh]
    linarith

/-- The height at the small scale: it fills the view exactly unless the bitmap is wide. -/
theorem bitmapHeight_mul_smallScale (h : ¬ sizes.Wide) :
    sizes.bitmapHeight * sizes.smallScale = sizes.height := by
  rw [smallScale, if_neg h, mul_div_cancel₀ _ sizes.bitmapHeight_pos'.ne']

theorem bitmapHeight_mul_smallScale_lt (h : sizes.Wide) :
    sizes.bitmapHeight * sizes.smallScale < sizes.height := by
  rw [smallScale, if_pos h, ← mul_div_assoc, div_lt_iff₀ sizes.bitmapWidth_pos']
  have hlt := sizes.wide_iff.1 h
  linarith

theorem bitmapHeight_mul_smallScale_le :
    sizes.bitmapHeight * sizes.smallScale ≤ sizes.height := by
  by_cases h : sizes.Wide
  · exact (sizes.bitmapHeight_mul_smallScale_lt h).le
  · exact (sizes.bitmapHeight_mul_smallScale h).le

theorem bitmapHeight_mul_smallScale_eq_iff :
    sizes.bitmapHeight * sizes.smallScale = sizes.height ↔ ¬ sizes.Wide := by
  constructor
  · intro heq hwide
    exact absurd heq (sizes.bitmapHeight_mul_smallScale_lt hwide).ne
  · exact sizes.bitmapHeight_mul_smallScale

/-- At the big scale the bitmap is half as large again as the view on the axis it was
taken from, and at least that on the other. -/
theorem width_lt_bitmapWidth_mul_bigScale :
    sizes.width < sizes.bitmapWidth * sizes.bigScale := by
  have hw := sizes.width_pos'
  have hbw := sizes.bitmapWidth_pos'
  have hbh := sizes.bitmapHeight_pos'
  unfold bigScale overScaleFactor
  split
  · rename_i hwide
    have hlt : (sizes.width : ℚ) < sizes.bitmapWidth * (sizes.height / sizes.bitmapHeight) := by
      rw [← mul_div_assoc, lt_div_iff₀ hbh]
      linarith [sizes.wide_iff.1 hwide]
    linarith
  · have heq : (sizes.bitmapWidth : ℚ) * (sizes.width / sizes.bitmapWidth) = sizes.width :=
      mul_div_cancel₀ _ hbw.ne'
    linarith

theorem height_lt_bitmapHeight_mul_bigScale :
    sizes.height < sizes.bitmapHeight * sizes.bigScale := by
  have hh := sizes.height_pos'
  have hbw := sizes.bitmapWidth_pos'
  have hbh := sizes.bitmapHeight_pos'
  unfold bigScale overScaleFactor
  split
  · have heq : (sizes.bitmapHeight : ℚ) * (sizes.height / sizes.bitmapHeight) = sizes.height :=
      mul_div_cancel₀ _ hbh.ne'
    linarith
  · rename_i hwide
    have hle := not_lt.1 (fun h => hwide (sizes.wide_iff.2 h))
    have hheight : (sizes.height : ℚ) ≤ sizes.bitmapHeight * (sizes.width / sizes.bitmapWidth) := by
      rw [← mul_div_assoc, le_div_iff₀ hbw]
      linarith
    linarith

theorem smallScale_lt_bigScale : sizes.smallScale < sizes.bigScale := by
  have hscaled : sizes.bitmapWidth * sizes.smallScale < sizes.bitmapWidth * sizes.bigScale :=
    lt_of_le_of_lt sizes.bitmapWidth_mul_smallScale_le sizes.width_lt_bitmapWidth_mul_bigScale
  exact lt_of_mul_lt_mul_left hscaled sizes.bitmapWidth_pos'.le

theorem axisX : Axis sizes.bitmapWidth sizes.width sizes.smallScale sizes.bigScale :=
  ⟨sizes.bitmapWidth_pos', sizes.smallScale_lt_bigScale, sizes.bitmapWidth_mul_smallScale_le,
    sizes.width_lt_bitmapWidth_mul_bigScale⟩

theorem axisY : Axis sizes.bitmapHeight sizes.height sizes.smallScale sizes.bigScale :=
  ⟨sizes.bitmapHeight_pos', sizes.smallScale_lt_bigScale, sizes.bitmapHeight_mul_smallScale_le,
    sizes.height_lt_bitmapHeight_mul_bigScale⟩

end Sizes

end StudyNotes.Photo
