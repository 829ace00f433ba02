/-
# Views moved by hand (`SampleHeaderBehavior`, `DependedView`)

Both classes move a view by a distance and remember where they have moved it to, and in
both the memory can go out of step with the view.

`SampleHeaderBehavior` keeps the offset of its header from the place where the layout puts
it.  A layout pass puts the header back and leaves the offset as it was, so the two agree
throughout a run exactly when every layout pass finds the offset at 0.

`DependedView` follows the finger by the difference of two touches.  The touches are
reported relative to the view, and the last one is kept from before the view has moved.
The view is where the finger has taken it exactly as long as the finger had not moved
before the last event.
-/

import StudyNotes.Lib.Machine
import StudyNotes.Lib.Run

namespace StudyNotes.View

open StudyNotes.Machine StudyNotes.Run

/-! ## `SampleHeaderBehavior` -/

/-- The height of the header, which stays as it is. -/
structure HeaderHeight where
  val : Int32
  nonneg : 0 ≤ val

/-- The behavior's fields and the top of its header. -/
structure SampleHeaderBehavior where
  mLayoutTop : Int32 := 0
  mOffsetTopAndBottom : Int32 := 0
  top : Int32 := 0
deriving DecidableEq, Repr

/-- A layout pass, with the place it has for the header, or a step of a nested scroll. -/
inductive HeaderEvent
  | onLayoutChild (layoutTop : Int32)
  | onNestedPreScroll (dy : Int32)
deriving DecidableEq, Repr

namespace SampleHeaderBehavior

/-- `getChildScrollRang(child)`. -/
def getChildScrollRang (height : HeaderHeight) : Int32 := height.val

/-- `onLayoutChild(parent, child, layoutDirection)`. -/
def onLayoutChild (s : SampleHeaderBehavior) (layoutTop : Int32) : SampleHeaderBehavior :=
  let s := { s with top := layoutTop }
  { s with mLayoutTop := s.top }

/-- The offset a step by `dy` leads to. -/
def nextOffset (height : HeaderHeight) (s : SampleHeaderBehavior) (dy : Int32) : Int32 :=
  let offset := s.mOffsetTopAndBottom - dy
  let minOffset := -getChildScrollRang height
  let offset := if offset < minOffset then minOffset else offset
  if 0 < offset then 0 else offset

/-- `onNestedPreScroll(coordinatorLayout, child, target, dx, dy, consumed, type)`, with the
value it writes to `consumed[1]`. -/
def onNestedPreScroll (height : HeaderHeight) (s : SampleHeaderBehavior) (dy : Int32) :
    SampleHeaderBehavior × Int32 :=
  let offset := s.nextOffset height dy
  let top := s.top + (offset - (s.top - s.mLayoutTop))
  ({ s with top := top, mOffsetTopAndBottom := offset }, s.mOffsetTopAndBottom - offset)

def step (height : HeaderHeight) (s : SampleHeaderBehavior) : HeaderEvent → SampleHeaderBehavior
  | .onLayoutChild layoutTop => s.onLayoutChild layoutTop
  | .onNestedPreScroll dy => (s.onNestedPreScroll height dy).1

/-- The state after a run. -/
def run (height : HeaderHeight) (es : List HeaderEvent) : SampleHeaderBehavior :=
  after (step height) {} es

/-- The offset is in its range, and the header is that far from its place. -/
structure InStep (height : HeaderHeight) (s : SampleHeaderBehavior) : Prop where
  neg_height_le : -height.val ≤ s.mOffsetTopAndBottom
  nonpos : s.mOffsetTopAndBottom ≤ 0
  top_eq : s.top = s.mLayoutTop + s.mOffsetTopAndBottom

/-- A step reports the distance by which it moves the header. -/
def Reports (height : HeaderHeight) (pre : List HeaderEvent) : HeaderEvent → Prop
  | .onLayoutChild _ => True
  | .onNestedPreScroll dy =>
      ((run height pre).onNestedPreScroll height dy).2 =
        (run height pre).top - ((run height pre).onNestedPreScroll height dy).1.top

/-- A layout pass finds the offset at 0. -/
def LaidOutAtRest (height : HeaderHeight) (pre : List HeaderEvent) : HeaderEvent → Prop
  | .onLayoutChild _ => (run height pre).mOffsetTopAndBottom = 0
  | .onNestedPreScroll _ => True

variable {height : HeaderHeight} {s : SampleHeaderBehavior}

theorem nextOffset_mem (dy : Int32) :
    -height.val ≤ s.nextOffset height dy ∧ s.nextOffset height dy ≤ 0 := by
  have hnonneg := height.nonneg
  rw [Int32.le_iff_toInt_le, Int32.toInt_zero] at hnonneg
  have hneg := toInt_neg_of_nonneg hnonneg
  simp only [nextOffset, getChildScrollRang, Int32.le_iff_toInt_le, Int32.lt_iff_toInt_lt,
    apply_ite Int32.toInt, Int32.toInt_zero]
  omega

theorem top_onNestedPreScroll (dy : Int32) :
    (s.onNestedPreScroll height dy).1.top = s.mLayoutTop + s.nextOffset height dy := by
  simp only [onNestedPreScroll]
  grind

/-- A scroll step sets the header to its offset, wherever it was before. -/
theorem inStep_onNestedPreScroll (dy : Int32) :
    InStep height (s.onNestedPreScroll height dy).1 :=
  ⟨(nextOffset_mem dy).1, (nextOffset_mem dy).2, top_onNestedPreScroll dy⟩

theorem InStep.reports (h : InStep height s) (dy : Int32) :
    (s.onNestedPreScroll height dy).2 = s.top - (s.onNestedPreScroll height dy).1.top := by
  rw [top_onNestedPreScroll, h.top_eq, onNestedPreScroll]
  grind

theorem InStep.onLayoutChild_iff (h : InStep height s) (layoutTop : Int32) :
    InStep height (s.onLayoutChild layoutTop) ↔ s.mOffsetTopAndBottom = 0 := by
  constructor
  · intro hafter
    have htop : layoutTop = layoutTop + s.mOffsetTopAndBottom := hafter.top_eq
    grind
  · intro hzero
    refine ⟨h.neg_height_le, h.nonpos, ?_⟩
    simp only [onLayoutChild, hzero]
    grind

theorem inStep_initial (height : HeaderHeight) : InStep height (run height []) := by
  have hnonneg := height.nonneg
  refine ⟨?_, Int32.le_refl 0, rfl⟩
  rw [Int32.le_iff_toInt_le, Int32.toInt_zero] at hnonneg
  show -height.val ≤ 0
  rw [Int32.le_iff_toInt_le, toInt_neg_of_nonneg hnonneg, Int32.toInt_zero]
  exact Int.neg_nonpos_of_nonneg hnonneg

/-- Throughout a run the offset is in its range, the header is at its offset and every
step reports what it moved, exactly when every layout pass finds the offset at 0. -/
theorem everyPrefix_inStep_iff (height : HeaderHeight) (es : List HeaderEvent) :
    EveryPrefix (fun pre => InStep height (run height pre)) es ∧ EveryStep (Reports height) es ↔
      EveryStep (LaidOutAtRest height) es := by
  have hevery : EveryPrefix (fun pre => InStep height (run height pre)) es ↔
      EveryStep (LaidOutAtRest height) es := by
    apply everyPrefix_iff_everyStep (inStep_initial height) (fun pre h => h)
    · intro pre e hrest hbefore
      rw [run, after_append_singleton]
      cases e with
      | onLayoutChild layoutTop => exact (hbefore.onLayoutChild_iff layoutTop).mpr hrest
      | onNestedPreScroll dy => exact inStep_onNestedPreScroll dy
    · intro pre e hbefore hmoved hafter
      rw [run, after_append_singleton] at hafter
      cases e with
      | onLayoutChild layoutTop => exact hmoved ((hbefore.onLayoutChild_iff layoutTop).mp hafter)
      | onNestedPreScroll dy => exact hmoved trivial
  rw [hevery]
  constructor
  · exact fun h => h.1
  · intro hrest
    refine ⟨hrest, fun pre e hpre => ?_⟩
    cases e with
    | onLayoutChild layoutTop => trivial
    | onNestedPreScroll dy =>
        have hbefore := hevery.mpr hrest pre ((List.prefix_append pre _).trans hpre)
        exact hbefore.reports dy

/-- A header of height 10 that is scrolled by 5 and then laid out again. -/
theorem not_everyPrefix_inStep :
    ¬ ∀ (height : HeaderHeight) (es : List HeaderEvent),
      EveryPrefix (fun pre => InStep height (run height pre)) es ∧
        EveryStep (Reports height) es := by
  intro hlaw
  have hafter := (hlaw ⟨10, by decide⟩
    [.onLayoutChild 0, .onNestedPreScroll 5, .onLayoutChild 0]).1.self
  exact absurd hafter.top_eq (by decide)

end SampleHeaderBehavior

/-! ## `DependedView` -/

/-- The place of the view on the screen and its fields. -/
structure DependedView where
  left : ℤ
  top : ℤ
  mLastX : ℤ
  mLastY : ℤ
deriving DecidableEq, Repr

namespace DependedView

/-- `mDragSlop`, which nothing assigns. -/
def mDragSlop : ℤ := 0

/-- `ACTION_DOWN` with the finger at this place on the screen. -/
def onDown (v : DependedView) (finger : ℤ × ℤ) : DependedView :=
  { v with mLastX := finger.1 - v.left, mLastY := finger.2 - v.top }

/-- `ACTION_MOVE`.  The coordinates of the event are those of the finger less the place of
the view. -/
def onMove (v : DependedView) (finger : ℤ × ℤ) : DependedView :=
  let x := finger.1 - v.left
  let y := finger.2 - v.top
  let dx := x - v.mLastX
  let dy := y - v.mLastY
  let v := { v with mLastX := x, mLastY := y }
  if dx.natAbs > mDragSlop ∨ dy.natAbs > mDragSlop then
    { v with left := v.left + dx, top := v.top + dy }
  else v

/-- A gesture: the finger goes down and then moves. -/
def gesture (v : DependedView) (start : ℤ × ℤ) (moves : List (ℤ × ℤ)) : DependedView :=
  after onMove (v.onDown start) moves

/-- Where the finger is after these moves. -/
def lastFinger (start : ℤ × ℤ) (moves : List (ℤ × ℤ)) : ℤ × ℤ := moves.getLastD start

/-- The view has moved as far as the finger since it went down. -/
def FollowsFinger (v : DependedView) (start : ℤ × ℤ) (moves : List (ℤ × ℤ)) : Prop :=
  (v.gesture start moves).left - v.left = (lastFinger start moves).1 - start.1 ∧
    (v.gesture start moves).top - v.top = (lastFinger start moves).2 - start.2

/-- Before this move the finger has stayed where it went down. -/
def StillAtStart (start : ℤ × ℤ) (moves : List (ℤ × ℤ)) (_ : ℤ × ℤ) : Prop :=
  ∀ finger ∈ moves, finger = start

variable {v : DependedView} {start finger : ℤ × ℤ} {moves : List (ℤ × ℤ)}

/-- A move takes the view along by the difference to the last touch. -/
theorem onMove_eq (v : DependedView) (finger : ℤ × ℤ) :
    v.onMove finger =
      { left := finger.1 - v.mLastX
        top := finger.2 - v.mLastY
        mLastX := finger.1 - v.left
        mLastY := finger.2 - v.top } := by
  rw [onMove]
  split_ifs with hfar
  · simp only [DependedView.mk.injEq, and_self, and_true]
    omega
  · simp only [mDragSlop, DependedView.mk.injEq, and_self, and_true] at hfar ⊢
    omega

@[simp]
theorem gesture_append_singleton (v : DependedView) (start : ℤ × ℤ) (moves : List (ℤ × ℤ))
    (finger : ℤ × ℤ) :
    v.gesture start (moves ++ [finger]) = (v.gesture start moves).onMove finger :=
  after_append_singleton _ _ _ _

/-- While the finger has not moved before the last event, the last touch is relative to
the place where the view was at the start. -/
structure OnTrack (v : DependedView) (start : ℤ × ℤ) (moves : List (ℤ × ℤ)) : Prop where
  still : ∀ finger ∈ moves.dropLast, finger = start
  follows : v.FollowsFinger start moves
  mLastX_eq : (v.gesture start moves).mLastX = (lastFinger start moves).1 - v.left
  mLastY_eq : (v.gesture start moves).mLastY = (lastFinger start moves).2 - v.top

theorem onTrack_nil (v : DependedView) (start : ℤ × ℤ) : OnTrack v start [] :=
  ⟨by simp, ⟨by simp [gesture, onDown, lastFinger], by simp [gesture, onDown, lastFinger]⟩,
    rfl, rfl⟩

theorem lastFinger_append_singleton (start : ℤ × ℤ) (moves : List (ℤ × ℤ)) (finger : ℤ × ℤ) :
    lastFinger start (moves ++ [finger]) = finger := by
  simp [lastFinger]

/-- The next move is followed exactly when the finger is still at its start. -/
theorem OnTrack.follows_iff (h : OnTrack v start moves) (finger : ℤ × ℤ) :
    v.FollowsFinger start (moves ++ [finger]) ↔ lastFinger start moves = start := by
  have hx := h.mLastX_eq
  have hy := h.mLastY_eq
  rw [FollowsFinger, gesture_append_singleton, lastFinger_append_singleton, onMove_eq,
    Prod.ext_iff]
  dsimp only
  omega

theorem OnTrack.stillAtStart_iff (h : OnTrack v start moves) :
    StillAtStart start moves finger ↔ lastFinger start moves = start := by
  rcases List.eq_nil_or_concat moves with rfl | ⟨earlier, last, rfl⟩
  · exact ⟨fun _ => rfl, fun _ => by simp [StillAtStart]⟩
  · have hearlier := h.still
    rw [List.concat_eq_append, List.dropLast_concat] at hearlier
    rw [List.concat_eq_append, lastFinger_append_singleton, StillAtStart]
    simp only [List.mem_append, List.mem_singleton]
    constructor
    · exact fun hall => hall last (Or.inr rfl)
    · rintro rfl finger (hbefore | rfl)
      · exact hearlier finger hbefore
      · rfl

theorem OnTrack.append_singleton (h : OnTrack v start moves)
    (hstill : StillAtStart start moves finger) : OnTrack v start (moves ++ [finger]) := by
  have hlast := h.stillAtStart_iff.mp hstill
  have hfollows := h.follows
  rw [FollowsFinger, hlast] at hfollows
  constructor
  · rw [List.dropLast_concat]
    exact hstill
  · exact (h.follows_iff finger).mpr hlast
  · rw [gesture_append_singleton, onMove_eq, lastFinger_append_singleton]
    dsimp only
    omega
  · rw [gesture_append_singleton, onMove_eq, lastFinger_append_singleton]
    dsimp only
    omega

/-- The view follows the finger throughout a gesture exactly when before every move the
finger has stayed where it went down. -/
theorem everyPrefix_followsFinger_iff (v : DependedView) (start : ℤ × ℤ)
    (moves : List (ℤ × ℤ)) :
    EveryPrefix (v.FollowsFinger start) moves ↔ EveryStep (StillAtStart start) moves := by
  apply everyPrefix_iff_everyStep (onTrack_nil v start) (fun pre h => h.follows)
  · exact fun pre finger hstill h => h.append_singleton hstill
  · intro pre finger h hmoved hfollows
    exact hmoved (h.stillAtStart_iff.mpr ((h.follows_iff finger).mp hfollows))

/-- Two moves by 1 each take the view along by 1 only. -/
theorem not_everyPrefix_followsFinger :
    ¬ ∀ (v : DependedView) (start : ℤ × ℤ) (moves : List (ℤ × ℤ)),
      EveryPrefix (v.FollowsFinger start) moves := by
  intro hlaw
  have hfollows := (hlaw ⟨0, 0, 0, 0⟩ (0, 0) [(1, 0), (2, 0)]).self
  exact absurd hfollows.1 (by decide)

end DependedView

end StudyNotes.View
