/-
# Grid spacing

`GridSpacingItemDecoration` cuts the spacing between two columns into a right and a left
inset by truncated divisions.  The number `⌊c * s / n⌋` of pixels handed out before
column `c` decides everything: it grows by the same amount at every column, up to one
pixel, and what one column leaves over its neighbour takes.
-/

import Mathlib.Tactic.Linarith
import Mathlib.Tactic.Ring
import Mathlib.Algebra.Order.Group.Unbundled.Int
import Mathlib.Algebra.Order.Ring.Int
import StudyNotes.Lib.Machine

namespace StudyNotes.GridSpacing

open StudyNotes.Machine

/-! ## The decoration -/

/-- `android.graphics.Rect`, as the insets of an item. -/
structure Rect where
  left : Int32
  top : Int32
  right : Int32
  bottom : Int32
deriving DecidableEq, Repr

/-- A new `Rect`. -/
def Rect.zero : Rect := ⟨0, 0, 0, 0⟩

structure GridSpacingItemDecoration where
  spanCount : Int32
  spacing : Int32
  includeEdge : Bool
deriving DecidableEq, Repr

namespace GridSpacingItemDecoration

variable (decoration : GridSpacingItemDecoration)

/-- `getItemOffsets` for the item at `position`.  The remainder by 0 throws. -/
def getItemOffsets (outRect : Rect) (position : Int32) : Option Rect :=
  if decoration.spanCount = 0 then none
  else
    let column := position % decoration.spanCount
    if decoration.includeEdge then
      some
        { left := decoration.spacing - column * decoration.spacing / decoration.spanCount
          right := (column + 1) * decoration.spacing / decoration.spanCount
          top := if position < decoration.spanCount then decoration.spacing else outRect.top
          bottom := decoration.spacing }
    else
      some
        { left := column * decoration.spacing / decoration.spanCount
          right := decoration.spacing - (column + 1) * decoration.spacing / decoration.spanCount
          top := if decoration.spanCount ≤ position then decoration.spacing else outRect.top
          bottom := outRect.bottom }

/-- The column of a position. -/
def column (position : Int32) : ℤ := position.toInt % decoration.spanCount.toInt

/-- The row of a position. -/
def row (position : Int32) : ℤ := position.toInt / decoration.spanCount.toInt

/-- The inset at the two outer edges. -/
def edge : ℤ := if decoration.includeEdge then decoration.spacing.toInt else 0

end GridSpacingItemDecoration

/-! ## Sharing out the spacing -/

/-- The pixels of `s` that belong to the first `c` of `n` columns. -/
def share (n s c : ℤ) : ℤ := c * s / n

section Share

variable {n s c : ℤ}

@[simp] theorem share_zero : share n s 0 = 0 := by
  simp [share]

theorem share_self (hn : 0 < n) : share n s n = s :=
  Int.mul_ediv_cancel_left s (ne_of_gt hn)

/-- A column's part is `⌊s / n⌋` or one more. -/
theorem share_succ (hn : 0 < n) (s c : ℤ) :
    share n s (c + 1) = share n s c + s / n ∨ share n s (c + 1) = share n s c + s / n + 1 := by
  have hc := Int.mul_ediv_add_emod (c * s) n
  have hs := Int.mul_ediv_add_emod s n
  have hc0 := Int.emod_nonneg (c * s) (ne_of_gt hn)
  have hc1 := Int.emod_lt_of_pos (c * s) hn
  have hs0 := Int.emod_nonneg s (ne_of_gt hn)
  have hs1 := Int.emod_lt_of_pos s hn
  -- The two remainders add up to less than `2 * n`, so they carry at most once.
  have hsum : (c + 1) * s = c * s % n + s % n + n * (c * s / n + s / n) := by
    linarith [mul_add n (c * s / n) (s / n), add_mul c 1 s]
  have hdiv : (c + 1) * s / n = (c * s % n + s % n) / n + (c * s / n + s / n) := by
    rw [hsum, Int.add_mul_ediv_left _ _ (ne_of_gt hn)]
  have hcarry : (c * s % n + s % n) / n = 0 ∨ (c * s % n + s % n) / n = 1 := by
    rcases lt_or_ge (c * s % n + s % n) n with hlt | hge
    · exact Or.inl (Int.ediv_eq_zero_of_lt (by omega) hlt)
    · refine Or.inr ?_
      rw [Int.ediv_eq_iff_of_pos hn]
      omega
  unfold share
  omega

theorem share_nonneg (hn : 0 < n) (hs : 0 ≤ s) (hc : 0 ≤ c) : 0 ≤ share n s c :=
  Int.ediv_nonneg (mul_nonneg hc hs) hn.le

theorem share_le (hn : 0 < n) (hs : 0 ≤ s) (hc : c ≤ n) : share n s c ≤ s := by
  calc share n s c ≤ share n s n := Int.ediv_le_ediv hn (mul_le_mul_of_nonneg_right hc hs)
    _ = s := share_self hn

end Share

/-! ## The insets as integers -/

namespace GridSpacingItemDecoration

variable {decoration : GridSpacingItemDecoration} {position : Int32}

/-- At least one column, and a spacing whose multiples up to `spanCount` fit. -/
structure Fits (decoration : GridSpacingItemDecoration) : Prop where
  spanCount : 1 ≤ decoration.spanCount
  spacing : 0 ≤ decoration.spacing
  fits : decoration.spanCount.toInt * decoration.spacing.toInt < 2 ^ 31

/-- The insets of an item in exact arithmetic. -/
structure Insets (decoration : GridSpacingItemDecoration) (position : Int32) (rect : Rect) :
    Prop where
  left : rect.left.toInt =
    if decoration.includeEdge then
      decoration.spacing.toInt -
        share decoration.spanCount.toInt decoration.spacing.toInt (decoration.column position)
    else share decoration.spanCount.toInt decoration.spacing.toInt (decoration.column position)
  right : rect.right.toInt =
    if decoration.includeEdge then
      share decoration.spanCount.toInt decoration.spacing.toInt (decoration.column position + 1)
    else
      decoration.spacing.toInt -
        share decoration.spanCount.toInt decoration.spacing.toInt (decoration.column position + 1)
  top : rect.top.toInt =
    if decoration.includeEdge = decide (decoration.row position < 1) then
      decoration.spacing.toInt
    else 0
  bottom : rect.bottom.toInt = decoration.edge

theorem Fits.spanCount_pos (h : decoration.Fits) : 0 < decoration.spanCount.toInt :=
  Int32.le_iff_toInt_le.1 h.spanCount

theorem Fits.spacing_nonneg (h : decoration.Fits) : 0 ≤ decoration.spacing.toInt :=
  Int32.le_iff_toInt_le.1 h.spacing

theorem Fits.column_nonneg (h : decoration.Fits) (position : Int32) :
    0 ≤ decoration.column position :=
  Int.emod_nonneg _ (ne_of_gt h.spanCount_pos)

theorem Fits.column_lt (h : decoration.Fits) (position : Int32) :
    decoration.column position < decoration.spanCount.toInt :=
  Int.emod_lt_of_pos _ h.spanCount_pos

/-- `c * spacing / spanCount` does not overflow up to `c = spanCount`. -/
theorem Fits.toInt_share (h : decoration.Fits) {c : Int32} (hc : 0 ≤ c.toInt)
    (hc' : c.toInt ≤ decoration.spanCount.toInt) :
    (c * decoration.spacing / decoration.spanCount).toInt =
      share decoration.spanCount.toInt decoration.spacing.toInt c.toInt := by
  have hmul : 0 ≤ c.toInt * decoration.spacing.toInt := mul_nonneg hc h.spacing_nonneg
  have hle : c.toInt * decoration.spacing.toInt ≤
      decoration.spanCount.toInt * decoration.spacing.toInt :=
    mul_le_mul_of_nonneg_right hc' h.spacing_nonneg
  have hexact := toInt_mul_of_fits hmul (lt_of_le_of_lt hle h.fits)
  rw [toInt_div_of_nonneg (by rw [hexact]; exact hmul) h.spanCount_pos, hexact, share]

theorem Fits.toInt_spacing_sub (h : decoration.Fits) {c : Int32} (hc : 0 ≤ c.toInt)
    (hc' : c.toInt ≤ decoration.spanCount.toInt) :
    (decoration.spacing - c * decoration.spacing / decoration.spanCount).toInt =
      decoration.spacing.toInt -
        share decoration.spanCount.toInt decoration.spacing.toInt c.toInt := by
  have hshare := h.toInt_share hc hc'
  have hnonneg := share_nonneg h.spanCount_pos h.spacing_nonneg hc
  rw [toInt_sub_of_nonneg h.spacing_nonneg (by rw [hshare]; exact hnonneg), hshare]

/-- The first row holds the positions before `spanCount`. -/
theorem Fits.row_lt_one_iff (h : decoration.Fits) (position : Int32) :
    decoration.row position < 1 ↔ position.toInt < decoration.spanCount.toInt := by
  rw [row, Int.ediv_lt_iff_lt_mul h.spanCount_pos, one_mul]

theorem Fits.getItemOffsets (h : decoration.Fits) (hposition : 0 ≤ position) :
    ∃ rect, decoration.getItemOffsets .zero position = some rect ∧
      decoration.Insets position rect := by
  have hpos : 0 ≤ position.toInt := Int32.le_iff_toInt_le.1 hposition
  have hn := h.spanCount_pos
  have hspan : decoration.spanCount ≠ 0 := by
    intro hzero
    rw [hzero] at hn
    exact absurd hn (by decide)
  have hcolumn : (position % decoration.spanCount).toInt = decoration.column position :=
    toInt_mod_of_nonneg hpos
  have hcol0 := h.column_nonneg position
  have hcol1 := h.column_lt position
  have hsucc : (position % decoration.spanCount + 1).toInt = decoration.column position + 1 := by
    have hbound := decoration.spanCount.toInt_lt
    have hone : (position % decoration.spanCount + .ofNat 1).toInt =
        (position % decoration.spanCount).toInt + 1 :=
      toInt_add_ofNat (by omega) (by omega)
    rw [← hcolumn]
    exact hone
  have hshare := h.toInt_share (c := position % decoration.spanCount) (by omega) (by omega)
  have hshare' := h.toInt_share (c := position % decoration.spanCount + 1) (by omega) (by omega)
  have hsub := h.toInt_spacing_sub (c := position % decoration.spanCount) (by omega) (by omega)
  have hsub' := h.toInt_spacing_sub (c := position % decoration.spanCount + 1) (by omega)
    (by omega)
  rw [hcolumn] at hshare hsub
  rw [hsucc] at hshare' hsub'
  unfold GridSpacingItemDecoration.getItemOffsets
  rw [if_neg hspan]
  have hrow := h.row_lt_one_iff position
  have hlt : position < decoration.spanCount ↔ decoration.row position < 1 :=
    Int32.lt_iff_toInt_lt.trans hrow.symm
  have hle : decoration.spanCount ≤ position ↔ ¬ decoration.row position < 1 := by
    rw [hrow, not_lt]
    exact Int32.le_iff_toInt_le
  cases hedge : decoration.includeEdge with
  | true =>
      refine ⟨_, if_pos rfl, ⟨?_, ?_, ?_, ?_⟩⟩
      · simpa [hedge] using hsub
      · simpa [hedge] using hshare'
      · by_cases hfirst : decoration.row position < 1
        · simp [hedge, hlt, hfirst]
        · simp [hedge, hlt, hfirst, Rect.zero]
      · simp [edge, hedge]
  | false =>
      refine ⟨_, if_neg Bool.false_ne_true, ⟨?_, ?_, ?_, ?_⟩⟩
      · simpa [hedge] using hshare
      · simpa [hedge] using hsub'
      · by_cases hfirst : decoration.row position < 1
        · simp [hedge, hle, hfirst, Rect.zero]
        · simp [hedge, hle, hfirst]
      · simp [edge, hedge, Rect.zero]

/-! ## The grid -/

section Insets

variable {position' : Int32} {rect rect' : Rect}

theorem Insets.neighbours (hrect : decoration.Insets position rect)
    (hrect' : decoration.Insets position' rect')
    (h : decoration.column position' = decoration.column position + 1) :
    rect.right.toInt + rect'.left.toInt = decoration.spacing.toInt := by
  rw [hrect.right, hrect'.left, h]
  split
  · omega
  · omega

theorem Insets.first (hrect : decoration.Insets position rect)
    (h : decoration.column position = 0) : rect.left.toInt = decoration.edge := by
  rw [hrect.left, h, share_zero, edge, Int.sub_zero]

theorem Insets.last (hfits : decoration.Fits) (hrect : decoration.Insets position rect)
    (h : decoration.column position = decoration.spanCount.toInt - 1) :
    rect.right.toInt = decoration.edge := by
  rw [hrect.right, h, Int.sub_add_cancel, share_self hfits.spanCount_pos, edge, Int.sub_self]

/-- With or without the edge a column's total is the spacing plus or minus its part. -/
theorem Insets.total (hfits : decoration.Fits) (hrect : decoration.Insets position rect)
    (hrect' : decoration.Insets position' rect') :
    |rect.left.toInt + rect.right.toInt - (rect'.left.toInt + rect'.right.toInt)| ≤ 1 := by
  have hpart := share_succ hfits.spanCount_pos decoration.spacing.toInt
    (decoration.column position)
  have hpart' := share_succ hfits.spanCount_pos decoration.spacing.toInt
    (decoration.column position')
  rw [hrect.left, hrect.right, hrect'.left, hrect'.right, abs_le]
  split
  · omega
  · omega

theorem Insets.nonneg (hfits : decoration.Fits) (hrect : decoration.Insets position rect) :
    0 ≤ rect.left.toInt ∧ 0 ≤ rect.top.toInt ∧ 0 ≤ rect.right.toInt ∧ 0 ≤ rect.bottom.toInt := by
  have hn := hfits.spanCount_pos
  have hs := hfits.spacing_nonneg
  have hc := hfits.column_nonneg position
  have hc' := hfits.column_lt position
  have hlow := share_nonneg hn hs hc
  have hhigh := share_le hn hs hc'.le
  have hlow' := share_nonneg hn hs (c := decoration.column position + 1) (by omega)
  have hhigh' := share_le hn hs (c := decoration.column position + 1) (by omega)
  rw [hrect.left, hrect.top, hrect.right, hrect.bottom, edge]
  refine ⟨?_, ?_, ?_, ?_⟩
  all_goals split <;> omega

/-- With the edge every item has its gap below, without it every item but the first row's
has it above. -/
theorem Insets.rows (hfits : decoration.Fits) (hposition : 0 ≤ position)
    (hrect : decoration.Insets position rect) (hrect' : decoration.Insets position' rect')
    (h : decoration.row position' = decoration.row position + 1) :
    rect.bottom.toInt + rect'.top.toInt = decoration.spacing.toInt := by
  have hrow : 0 ≤ decoration.row position :=
    Int.ediv_nonneg (Int32.le_iff_toInt_le.1 hposition) hfits.spanCount_pos.le
  have hlater : ¬ decoration.row position' < 1 := by omega
  rw [hrect.bottom, hrect'.top, edge]
  cases decoration.includeEdge with
  | true => simp [hlater]
  | false => simp [hlater]

end Insets

/-- The offsets of any two items: the gap between neighbouring columns and between
consecutive rows is the spacing, the outer insets are those of the edge, two columns
differ by at most a pixel, and no inset is negative. -/
theorem getItemOffsets_exact (decoration : GridSpacingItemDecoration)
    (hspan : 1 ≤ decoration.spanCount) (hspacing : 0 ≤ decoration.spacing)
    (hfits : decoration.spanCount.toInt * decoration.spacing.toInt < 2 ^ 31)
    (p q : Int32) (hp : 0 ≤ p) (hq : 0 ≤ q) :
    ∃ rect rect' : Rect,
      decoration.getItemOffsets .zero p = some rect ∧
      decoration.getItemOffsets .zero q = some rect' ∧
      (decoration.column q = decoration.column p + 1 →
        rect.right.toInt + rect'.left.toInt = decoration.spacing.toInt) ∧
      (decoration.column p = 0 →
        rect.left.toInt = if decoration.includeEdge then decoration.spacing.toInt else 0) ∧
      (decoration.column p = decoration.spanCount.toInt - 1 →
        rect.right.toInt = if decoration.includeEdge then decoration.spacing.toInt else 0) ∧
      |rect.left.toInt + rect.right.toInt - (rect'.left.toInt + rect'.right.toInt)| ≤ 1 ∧
      (0 ≤ rect.left.toInt ∧ 0 ≤ rect.top.toInt ∧ 0 ≤ rect.right.toInt ∧
        0 ≤ rect.bottom.toInt) ∧
      (decoration.row q = decoration.row p + 1 →
        rect.bottom.toInt + rect'.top.toInt = decoration.spacing.toInt) := by
  have hdecoration : decoration.Fits := ⟨hspan, hspacing, hfits⟩
  obtain ⟨rect, hget, hrect⟩ := hdecoration.getItemOffsets hp
  obtain ⟨rect', hget', hrect'⟩ := hdecoration.getItemOffsets hq
  exact ⟨rect, rect', hget, hget', hrect.neighbours hrect', hrect.first, hrect.last hdecoration,
    hrect.total hdecoration hrect', hrect.nonneg hdecoration, hrect.rows hdecoration hp hrect'⟩

/-- Three columns of 10 pixels, which 3 does not divide. -/
theorem getItemOffsets_three_columns :
    ∃ rect rect' : Rect,
      (⟨3, 10, true⟩ : GridSpacingItemDecoration).getItemOffsets .zero 1 = some rect ∧
      (⟨3, 10, true⟩ : GridSpacingItemDecoration).getItemOffsets .zero 5 = some rect' ∧
      rect.right.toInt + rect'.left.toInt = 10 ∧ rect.bottom.toInt + rect'.top.toInt = 10 := by
  obtain ⟨rect, rect', hget, hget', hcolumns, -, -, -, -, hrows⟩ :=
    getItemOffsets_exact ⟨3, 10, true⟩ (by decide) (by decide) (by decide) 1 5 (by decide)
      (by decide)
  exact ⟨rect, rect', hget, hget', hcolumns (by decide), hrows (by decide)⟩

end GridSpacingItemDecoration

end StudyNotes.GridSpacing
