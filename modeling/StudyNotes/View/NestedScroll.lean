/-
# Nested scrolling (`MyNestedScrollChildL` inside `MyNestedScrollParentL`)

A drag on the child is offered to the parent first, which scrolls its first child out of
sight or back; what the parent does not consume is the child's.  Both positions are
kept within their limits by the two overrides of `scrollTo`.  After a move that the
parent has consumed in part, `onTouchEvent` computes the remainder and then drops it.
The distance of every move is accounted for exactly when no move carries the parent
past its limit while the child could still take the rest.
-/

import StudyNotes.Lib.Run

namespace StudyNotes.View

open StudyNotes.Run

/-! ## Scroll positions -/

/-- The `scrollY` of a view that scrolls between 0 and a limit. -/
structure ScrollY (limit : ℕ) where
  val : ℤ
  nonneg : 0 ≤ val
  le_limit : val ≤ limit

namespace ScrollY

variable {limit : ℕ}

/-- The body of both overrides of `scrollTo`: the new position is cut to the limits, and
taken over where it differs from the old one. -/
def scrollTo (scrollY : ScrollY limit) (y : ℤ) : ScrollY limit :=
  let sy := if y < 0 then 0 else y
  let sy := if sy > limit then (limit : ℤ) else sy
  if sy ≠ scrollY.val then
    ⟨sy, by dsimp only [sy]; split_ifs <;> omega, by dsimp only [sy]; split_ifs <;> omega⟩
  else scrollY

/-- `View.scrollBy`. -/
def scrollBy (scrollY : ScrollY limit) (dy : ℤ) : ScrollY limit :=
  scrollY.scrollTo (scrollY.val + dy)

theorem val_scrollTo (scrollY : ScrollY limit) (y : ℤ) :
    (scrollY.scrollTo y).val = max 0 (min y limit) := by
  rw [scrollTo]
  split_ifs <;> simp_all <;> omega

theorem val_scrollBy (scrollY : ScrollY limit) (dy : ℤ) :
    (scrollY.scrollBy dy).val = max 0 (min (scrollY.val + dy) limit) :=
  val_scrollTo scrollY _

end ScrollY

/-! ## The two views -/

/-- The sizes that bound the scrolling: the height of the parent's first child, and the
height of all children of the scrolling child. -/
structure Layout where
  firstHeight : ℕ
  realHeight : ℕ

/-- The parent's and the child's `scrollY`, the last touch, and whether the parent has
accepted the nested scroll that is going on. -/
structure Scrolling (layout : Layout) where
  parent : ScrollY layout.firstHeight
  child : ScrollY layout.realHeight
  mLastTouchY : ℤ
  accepted : Bool

variable {layout : Layout}

/-- `MyNestedScrollParentL.showImg`; `canScroll` is what the first child answers to
`canScrollVertically(-1)`. -/
def showImg (s : Scrolling layout) (canScroll : Bool) (dy : ℤ) : Bool :=
  dy < 0 && s.parent.val > 0 && !canScroll && s.child.val == 0

/-- `MyNestedScrollParentL.hideImg`. -/
def hideImg (s : Scrolling layout) (dy : ℤ) : Bool :=
  dy > 0 && s.parent.val < layout.firstHeight

/-- `MyNestedScrollParentL.onNestedPreScroll`: the distance reported as consumed, and the
parent's new position. -/
def onNestedPreScroll (s : Scrolling layout) (canScroll : Bool) (dy : ℤ) :
    ℤ × ScrollY layout.firstHeight :=
  if showImg s canScroll dy || hideImg s dy then
    let scrolldy := layout.firstHeight - s.parent.val
    let tmp := if scrolldy < dy then scrolldy else dy
    (tmp, s.parent.scrollBy tmp)
  else (0, s.parent)

/-- `dispatchNestedPreScroll`: an accepted scroll is forwarded to the parent, and the
answer is whether it consumed anything. -/
def dispatchNestedPreScroll (s : Scrolling layout) (canScroll : Bool) (dy : ℤ) :
    Bool × ScrollY layout.firstHeight :=
  if s.accepted then
    let (consumed, parent) := onNestedPreScroll s canScroll dy
    (consumed ≠ 0, parent)
  else (false, s.parent)

/-- A touch event, with integer coordinates. -/
inductive TouchEvent
  | down (rawY : ℤ)
  | move (rawY : ℤ) (canScroll : Bool)
  | up
deriving DecidableEq, Repr

/-- `MyNestedScrollChildL.onTouchEvent`.  The start of a gesture is rounded by adding one
half and truncating.  Where the parent consumed something, the remainder is only
compared with 0, and the event is over either way. -/
def onTouchEvent (s : Scrolling layout) : TouchEvent → Scrolling layout
  | .down rawY => { s with mLastTouchY := (2 * rawY + 1).tdiv 2, accepted := true }
  | .move rawY canScroll =>
      let dy := s.mLastTouchY - rawY
      match dispatchNestedPreScroll s canScroll dy with
      | (true, parent) => { s with mLastTouchY := rawY, parent := parent }
      | (false, parent) =>
          { s with mLastTouchY := rawY, parent := parent, child := s.child.scrollBy dy }
  | .up => { s with accepted := false }

/-- The state after a sequence of events. -/
def run (s : Scrolling layout) (es : List TouchEvent) : Scrolling layout :=
  after onTouchEvent s es

/-! ## The distance of a move -/

/-- The part of the distance `dy` by which neither the parent nor the child has moved. -/
def lost (s s' : Scrolling layout) (dy : ℤ) : ℤ :=
  dy - (s'.parent.val - s.parent.val) - (s'.child.val - s.child.val)

/-- A distance is lost only where the child is at its own limit in that direction. -/
structure Accounted (s s' : Scrolling layout) (dy : ℤ) : Prop where
  upward : 0 < lost s s' dy → s'.child.val = layout.realHeight
  downward : lost s s' dy < 0 → s'.child.val = 0

/-- Every event but a move is without distance. -/
def LosesNothing (s : Scrolling layout) (pre : List TouchEvent) : TouchEvent → Prop
  | .move rawY canScroll =>
      Accounted (run s pre) (run s (pre ++ [.move rawY canScroll]))
        ((run s pre).mLastTouchY - rawY)
  | _ => True

/-- A move of distance `dy` takes the parent past its limit and leaves a distance that the
child is short of its own. -/
structure Overshoots (s : Scrolling layout) (dy : ℤ) : Prop where
  accepted : s.accepted = true
  parent_lt : s.parent.val < layout.firstHeight
  passes : layout.firstHeight < s.parent.val + dy
  child_lt : s.child.val < layout.realHeight

/-- The move to come does not overshoot. -/
def Within (s : Scrolling layout) (pre : List TouchEvent) : TouchEvent → Prop
  | .move rawY _ => ¬ Overshoots (run s pre) ((run s pre).mLastTouchY - rawY)
  | _ => True

section Moves

variable (s : Scrolling layout) (canScroll : Bool) (dy : ℤ)

/-- What a nested move can be for the parent: it is left out, it scrolls back with the child
at its top, it scrolls away as far as the move goes, or it scrolls away up to its limit. -/
theorem dispatchNestedPreScroll_cases :
    dispatchNestedPreScroll s canScroll dy = (false, s.parent) ∧ ¬ Overshoots s dy ∨
      dispatchNestedPreScroll s canScroll dy = (true, s.parent.scrollBy dy) ∧
        (dy < 0 ∧ s.child.val = 0 ∨ 0 < dy ∧ s.parent.val + dy ≤ layout.firstHeight) ∨
      dispatchNestedPreScroll s canScroll dy =
          (true, s.parent.scrollBy (layout.firstHeight - s.parent.val)) ∧
        s.accepted = true ∧ s.parent.val < layout.firstHeight ∧
          layout.firstHeight < s.parent.val + dy := by
  have hlimit := s.parent.le_limit
  by_cases haccepted : s.accepted = true
  · by_cases hscrolls : (showImg s canScroll dy || hideImg s dy) = true
    · have hsigns : dy < 0 ∧ s.child.val = 0 ∨ 0 < dy ∧ s.parent.val < layout.firstHeight := by
        simp [showImg, hideImg] at hscrolls
        omega
      by_cases hpast : layout.firstHeight - s.parent.val < dy
      · have hconsumed : (layout.firstHeight : ℤ) - s.parent.val ≠ 0 := by omega
        refine Or.inr (Or.inr ⟨?_, haccepted, by omega, by omega⟩)
        simp [dispatchNestedPreScroll, onNestedPreScroll, haccepted, hscrolls, hpast, hconsumed]
      · have hconsumed : dy ≠ 0 := by omega
        refine Or.inr (Or.inl ⟨?_, by omega⟩)
        simp [dispatchNestedPreScroll, onNestedPreScroll, haccepted, hscrolls, hpast, hconsumed]
    · refine Or.inl ⟨?_, ?_⟩
      · simp [dispatchNestedPreScroll, onNestedPreScroll, haccepted, hscrolls]
      · rintro ⟨-, hparent, hpasses, -⟩
        simp [hideImg] at hscrolls
        omega
  · refine Or.inl ⟨by simp [dispatchNestedPreScroll, haccepted], ?_⟩
    exact fun hover => haccepted hover.accepted

/-- One move loses nothing exactly when it does not overshoot. -/
theorem accounted_iff (rawY : ℤ) :
    Accounted s (onTouchEvent s (.move rawY canScroll)) (s.mLastTouchY - rawY) ↔
      ¬ Overshoots s (s.mLastTouchY - rawY) := by
  have hparent := s.parent.nonneg
  have hparent' := s.parent.le_limit
  have hchild := s.child.nonneg
  have hchild' := s.child.le_limit
  rcases dispatchNestedPreScroll_cases s canScroll (s.mLastTouchY - rawY) with
    ⟨hmove, hwithin⟩ | ⟨hmove, hpart⟩ | ⟨hmove, haccepted, hshort, hpast⟩
  · rw [onTouchEvent, hmove, iff_true_right hwithin]
    constructor
    · simp only [lost, ScrollY.val_scrollBy]
      omega
    · simp only [lost, ScrollY.val_scrollBy]
      omega
  · have hwithin : ¬ Overshoots s (s.mLastTouchY - rawY) := by
      rintro ⟨-, hlt, hpasses, -⟩
      omega
    rw [onTouchEvent, hmove, iff_true_right hwithin]
    constructor
    · simp only [lost, ScrollY.val_scrollBy]
      omega
    · simp only [lost, ScrollY.val_scrollBy]
      omega
  · -- the parent stops at its limit and the child stays where it is
    rw [onTouchEvent, hmove]
    constructor
    · intro haccounted hover
      have hfull := haccounted.upward
      simp only [lost, ScrollY.val_scrollBy] at hfull
      have hroom := hover.child_lt
      omega
    · intro hwithin
      have hfull : s.child.val = layout.realHeight := by
        by_contra hroom
        exact hwithin ⟨haccepted, hshort, hpast, by omega⟩
      constructor
      · exact fun _ => hfull
      · simp only [lost, ScrollY.val_scrollBy]
        omega

end Moves

/-- In every run from every state, no distance is lost exactly when no move overshoots. -/
theorem everyStep_losesNothing_iff (layout : Layout) (s : Scrolling layout)
    (es : List TouchEvent) :
    EveryStep (LosesNothing s) es ↔ EveryStep (Within s) es := by
  apply forall₃_congr
  intro pre e _
  cases e with
  | down rawY => rfl
  | up => rfl
  | move rawY canScroll =>
      rw [LosesNothing, run, run, after_append_singleton]
      exact accounted_iff _ canScroll rawY

/-- Both views at their tops. -/
def Scrolling.top (layout : Layout) : Scrolling layout where
  parent := ⟨0, Int.le_refl 0, by omega⟩
  child := ⟨0, Int.le_refl 0, by omega⟩
  mLastTouchY := 0
  accepted := false

/-- A drag by 30 with 10 left for the parent: the child does not move by the other 20. -/
theorem not_everyStep_losesNothing :
    ¬ ∀ (layout : Layout) (s : Scrolling layout) (es : List TouchEvent),
      EveryStep (LosesNothing s) es := by
  intro hlaw
  have hmove := hlaw ⟨10, 100⟩ (.top _) [.down 100, .move 70 false] [.down 100]
    (.move 70 false) (List.prefix_refl _)
  exact absurd (hmove.upward (by decide)) (by decide)

end StudyNotes.View
