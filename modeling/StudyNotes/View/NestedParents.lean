/-
# What two nested parents report (`NestedScrollLayout`, `NestedScrollingParentLayout`)

Before a nested child scrolls, both parents may take a part of the distance to move their
header, and report it in `consumed[1]`.  Both report the distance they asked for; the
positions are cut to their limits elsewhere.  `NestedScrollLayout` asks for the whole
distance whatever the header has left, and `NestedScrollingParentLayout` cuts it at the
header's height but not at the top.  What is reported was scrolled exactly when the step
does not pass the end it heads for.
-/

import StudyNotes.Lib.Machine

namespace StudyNotes.View

open StudyNotes.Machine

/-- The new `scrollY` of a parent and the value of `consumed[1]`, 0 where nothing is
written. -/
structure PreScroll where
  scrollY : Int32
  consumed : Int32
deriving DecidableEq, Repr

/-- A position cut to its range. -/
def clamp (limit y : Int32) : Int32 :=
  let sy := if y < 0 then 0 else y
  if sy > limit then limit else sy

/-- The report is the distance scrolled, and a header of this height is not scrolled past
its end. -/
structure PreScroll.Honest (result : PreScroll) (old header : Int32) : Prop where
  consumed_eq : result.consumed = result.scrollY - old
  within : header < result.scrollY → result.scrollY ≤ old

theorem toInt_clamp {limit : Int32} (hlimit : 0 ≤ limit) (y : Int32) :
    (clamp limit y).toInt = max 0 (min y.toInt limit.toInt) := by
  rw [Int32.le_iff_toInt_le, Int32.toInt_zero] at hlimit
  simp only [clamp, gt_iff_lt, Int32.lt_iff_toInt_lt, apply_ite Int32.toInt, Int32.toInt_zero]
  omega

/-- Between positions the report can be checked with integers. -/
theorem PreScroll.honest_iff_toInt {result : PreScroll} {old header : Int32}
    (hnew : 0 ≤ result.scrollY.toInt) (hold : 0 ≤ old.toInt) :
    result.Honest old header ↔
      result.consumed.toInt = result.scrollY.toInt - old.toInt ∧
        (header.toInt < result.scrollY.toInt → result.scrollY.toInt ≤ old.toInt) := by
  rw [← toInt_sub_of_nonneg hnew hold, Int32.toInt_inj, ← Int32.lt_iff_toInt_lt,
    ← Int32.le_iff_toInt_le]
  exact ⟨fun h => ⟨h.consumed_eq, h.within⟩, fun h => ⟨h.1, h.2⟩⟩

/-- A call that leaves the position reports nothing. -/
theorem PreScroll.honest_idle (old header : Int32) :
    PreScroll.Honest ⟨old, 0⟩ old header :=
  ⟨(Int32.sub_self old).symm, fun _ => Int32.le_refl old⟩

/-! ## `NestedScrollLayout` -/

/-- The scroll position, its range, and the measured height of the header if there is
one. -/
structure NestedScrollLayout where
  scrollY : Int32
  maxScroll : Int32
  topView : Option Int32
  nonneg : 0 ≤ scrollY
  le_max : scrollY ≤ maxScroll
  top_nonneg : 0 ≤ topView.getD 0
  top_le : topView.getD 0 ≤ maxScroll

namespace NestedScrollLayout

/-- `onNestedPreScroll(target, dx, dy, consumed, type)`. -/
def onNestedPreScroll (v : NestedScrollLayout) (dy : Int32) : PreScroll :=
  let hideTop := dy > 0 && v.scrollY < v.topView.getD 0
  if hideTop then ⟨clamp v.maxScroll (v.scrollY + dy), dy⟩ else ⟨v.scrollY, 0⟩

/-- A step with the header in sight goes no further than the header. -/
def StopsAtHeader (v : NestedScrollLayout) (dy : Int32) : Prop :=
  v.scrollY < v.topView.getD 0 → dy ≤ v.topView.getD 0 - v.scrollY

theorem honest_iff (v : NestedScrollLayout) (dy : Int32) :
    (v.onNestedPreScroll dy).Honest v.scrollY (v.topView.getD 0) ↔ v.StopsAtHeader dy := by
  obtain ⟨scrollY, maxScroll, topView, hnonneg, hmax, htop, hle⟩ := v
  simp only [onNestedPreScroll, StopsAtHeader, Bool.and_eq_true, decide_eq_true_eq]
  generalize topView.getD 0 = header at *
  have hclamp := toInt_clamp (Int32.le_trans hnonneg hmax) (scrollY + dy)
  have hsum := toInt_add_cases scrollY dy
  have hrange := dy.toInt_lt
  have hrange' := maxScroll.toInt_lt
  simp only [gt_iff_lt, Int32.le_iff_toInt_le, Int32.lt_iff_toInt_lt, Int32.toInt_zero] at *
  rw [toInt_sub_of_nonneg htop hnonneg]
  by_cases hhide : 0 < dy.toInt ∧ scrollY.toInt < header.toInt
  · rw [if_pos hhide, PreScroll.honest_iff_toInt (by rw [hclamp]; omega) hnonneg]
    constructor
    · rintro ⟨hconsumed, hwithin⟩ -
      dsimp only at hconsumed hwithin
      omega
    · intro hstops
      have hfits := hstops hhide.2
      dsimp only
      omega
  · rw [if_neg hhide]
    constructor
    · intro _ hsight
      omega
    · exact fun _ => PreScroll.honest_idle scrollY header

end NestedScrollLayout

/-! ## `NestedScrollingParentLayout` -/

structure NestedScrollingParentLayout where
  scrollY : Int32
  mTopViewHeight : Int32
  nonneg : 0 ≤ scrollY
  le_top : scrollY ≤ mTopViewHeight

/-- What the parent asks of the view that is about to scroll: whether it can scroll up,
and its `scrollY`. -/
structure Target where
  canScrollUp : Bool
  scrollY : Int32

namespace NestedScrollingParentLayout

variable (v : NestedScrollingParentLayout) (target : Target) (dy : Int32)

/-- The new position after `scrollTo(x, y)`. -/
def scrollTo (y : Int32) : Int32 := clamp v.mTopViewHeight y

def isHideTop : Bool := dy > 0 && v.scrollY < v.mTopViewHeight

def isShowTop : Bool := dy < 0 && v.scrollY > 0 && !target.canScrollUp && target.scrollY == 0

/-- `onNestedPreScroll(target, dx, dy, consumed)`. -/
def onNestedPreScroll : PreScroll :=
  if v.isShowTop target dy || v.isHideTop dy then
    let scrolldy := v.mTopViewHeight - v.scrollY
    let tmp := if scrolldy < dy then scrolldy else dy
    ⟨v.scrollTo (v.scrollY + tmp), tmp⟩
  else ⟨v.scrollY, 0⟩

/-- A step that brings the header back goes no further than the top. -/
def StopsAtTop : Prop := v.isShowTop target dy = true → -v.scrollY ≤ dy

/-- What the parent does: it scrolls back, scrolls away, or stays. -/
theorem onNestedPreScroll_cases :
    v.isShowTop target dy = true ∧ dy < 0 ∧
        v.onNestedPreScroll target dy = ⟨v.scrollTo (v.scrollY + dy), dy⟩ ∨
      v.isShowTop target dy = false ∧ (∃ tmp, 0 < tmp ∧ tmp ≤ v.mTopViewHeight - v.scrollY ∧
        v.onNestedPreScroll target dy = ⟨v.scrollTo (v.scrollY + tmp), tmp⟩) ∨
      v.isShowTop target dy = false ∧ v.onNestedPreScroll target dy = ⟨v.scrollY, 0⟩ := by
  have hnonneg := v.nonneg
  have htop := v.le_top
  rw [Int32.le_iff_toInt_le] at hnonneg htop
  rw [Int32.toInt_zero] at hnonneg
  have hroom := toInt_sub_of_nonneg (Int.le_trans hnonneg htop) hnonneg
  rw [onNestedPreScroll]
  by_cases hshow : v.isShowTop target dy = true
  · have hneg : dy < 0 := by
      simp only [isShowTop, Bool.and_eq_true, decide_eq_true_eq] at hshow
      exact hshow.1.1.1
    have hnot : ¬ v.mTopViewHeight - v.scrollY < dy := by
      rw [Int32.lt_iff_toInt_lt] at hneg ⊢
      rw [Int32.toInt_zero] at hneg
      omega
    refine Or.inl ⟨hshow, hneg, ?_⟩
    simp only [hshow, Bool.true_or, if_true, hnot, if_false]
  · rw [Bool.not_eq_true] at hshow
    by_cases hhide : v.isHideTop dy = true
    · refine Or.inr (Or.inl ⟨hshow, _, ?_, ?_, by rw [hhide, Bool.or_true, if_pos rfl]⟩)
      · simp only [isHideTop, gt_iff_lt, Bool.and_eq_true, decide_eq_true_eq,
          Int32.lt_iff_toInt_lt, Int32.toInt_zero] at hhide ⊢
        rw [apply_ite Int32.toInt, hroom]
        omega
      · rw [Int32.le_iff_toInt_le, apply_ite Int32.toInt]
        simp only [Int32.lt_iff_toInt_lt]
        omega
    · rw [Bool.not_eq_true] at hhide
      refine Or.inr (Or.inr ⟨hshow, ?_⟩)
      rw [hshow, hhide, Bool.or_false, if_neg Bool.false_ne_true]

theorem honest_iff :
    (v.onNestedPreScroll target dy).Honest v.scrollY v.mTopViewHeight ↔
      v.StopsAtTop target dy := by
  have hnonneg := v.nonneg
  have htop := v.le_top
  have hclamp := fun y => toInt_clamp (Int32.le_trans v.nonneg v.le_top) y
  rw [Int32.le_iff_toInt_le] at hnonneg htop
  rw [Int32.toInt_zero] at hnonneg
  have hroom := toInt_sub_of_nonneg (Int.le_trans hnonneg htop) hnonneg
  rw [StopsAtTop, Int32.le_iff_toInt_le, toInt_neg_of_nonneg hnonneg]
  rcases v.onNestedPreScroll_cases target dy with
    ⟨hshow, hneg, hcall⟩ | ⟨hshow, tmp, hpos, hle, hcall⟩ | ⟨hshow, hcall⟩
  · have hsum := toInt_add_cases v.scrollY dy
    have hrange := dy.le_toInt
    have hrange' := v.mTopViewHeight.toInt_lt
    rw [Int32.lt_iff_toInt_lt, Int32.toInt_zero] at hneg
    rw [hcall, hshow, scrollTo, PreScroll.honest_iff_toInt (by rw [hclamp]; omega) hnonneg]
    dsimp only
    rw [hclamp]
    constructor
    · rintro ⟨hconsumed, -⟩ -
      omega
    · intro hstops
      have hback := hstops rfl
      omega
  · have hsum := toInt_add_cases v.scrollY tmp
    have hrange := v.mTopViewHeight.toInt_lt
    rw [Int32.lt_iff_toInt_lt, Int32.toInt_zero] at hpos
    rw [Int32.le_iff_toInt_le, hroom] at hle
    rw [hcall, hshow, scrollTo, PreScroll.honest_iff_toInt (by rw [hclamp]; omega) hnonneg]
    dsimp only
    rw [hclamp]
    constructor
    · exact fun _ => nofun
    · intro _
      omega
  · rw [hcall, hshow]
    constructor
    · exact fun _ => nofun
    · exact fun _ => PreScroll.honest_idle _ _

end NestedScrollingParentLayout

/-- Each parent reports exactly what it scrolled, and keeps to its header, exactly when the
step stops at the end it heads for. -/
theorem preScroll_honest_iff (v : NestedScrollLayout) (w : NestedScrollingParentLayout)
    (target : Target) (dy : Int32) :
    ((v.onNestedPreScroll dy).Honest v.scrollY (v.topView.getD 0) ↔ v.StopsAtHeader dy) ∧
      ((w.onNestedPreScroll target dy).Honest w.scrollY w.mTopViewHeight ↔
        w.StopsAtTop target dy) := by
  constructor
  · exact NestedScrollLayout.honest_iff v dy
  · exact NestedScrollingParentLayout.honest_iff w target dy

/-- A header of height 10 in a range of 10, and a step by 30: 30 is reported and 10 is
scrolled. -/
theorem not_preScroll_honest :
    ¬ ((∀ (v : NestedScrollLayout) (dy : Int32),
        (v.onNestedPreScroll dy).Honest v.scrollY (v.topView.getD 0)) ∧
      ∀ (v : NestedScrollingParentLayout) (target : Target) (dy : Int32),
        (v.onNestedPreScroll target dy).Honest v.scrollY v.mTopViewHeight) := by
  rintro ⟨hfirst, -⟩
  have hreport := hfirst ⟨0, 10, some 10, by decide, by decide, by decide, by decide⟩ 30
  exact absurd hreport.consumed_eq (by decide)

end StudyNotes.View
