/-
# The measuring pass of `FlowLayout`

`onMeasure` goes over the children once.  A visible child that does not fit closes the
line under construction and starts the next; the last child closes its line too.  The
lines are those of greedy filling, with two slips at the ends: a first child wider than
the room closes a line nobody is on, and the last line is only closed by a child at the
last index that is not `GONE`.  Sizes, paddings and spacings are added as `Int`s, so that
the width that is left of a line can come round.
-/

import StudyNotes.Lib.LineFill

namespace StudyNotes.Flow

open StudyNotes.LineFill

/-! ## Views -/

inductive Visibility
  | visible
  | invisible
  | gone
deriving DecidableEq, Repr

/-- A child with the size `measure` gives it, an `Int` that is not negative. -/
structure View where
  visibility : Visibility
  measuredWidth : ℕ
  measuredHeight : ℕ
  width_lt : measuredWidth < 2 ^ 31
  height_lt : measuredHeight < 2 ^ 31
deriving DecidableEq

namespace View

/-- The width as an `Int`. -/
def width (child : View) : Int32 := .ofNat child.measuredWidth

/-- The height as an `Int`. -/
def height (child : View) : Int32 := .ofNat child.measuredHeight

theorem toInt_width (child : View) : child.width.toInt = child.measuredWidth :=
  Int32.toInt_ofNat_of_lt child.width_lt

theorem toInt_height (child : View) : child.height.toInt = child.measuredHeight :=
  Int32.toInt_ofNat_of_lt child.height_lt

end View

inductive MeasureMode
  | unspecified
  | exactly
  | atMost
deriving DecidableEq, Repr

structure MeasureSpec where
  mode : MeasureMode
  size : Int32

/-- The fields of the layout that the two passes read. -/
structure FlowLayout where
  paddingLeft : Int32 := 0
  paddingTop : Int32 := 0
  paddingRight : Int32 := 0
  paddingBottom : Int32 := 0
  mHorizontalSpacing : Int32 := 0
  mVerticalSpacing : Int32 := 0

/-! ## `onMeasure` -/

/-- The variables of the loop, with the two lists that `onLayout` reads afterwards. -/
structure Pass where
  allLines : List (List View)
  linesHeight : List ℕ
  parentNeededWidth : Int32
  parentNeededHeight : Int32
  lineView : List View
  lineHeight : ℕ
  lineWidthUse : Int32

namespace FlowLayout

variable (flow : FlowLayout)

/-- The branch that closes the line under construction; `last` is the test of the index
against `childCount - 1`. -/
def wrap (last : Bool) (s : Pass) : Pass where
  allLines := s.allLines ++ [s.lineView]
  lineView := []
  linesHeight := s.linesHeight ++ [s.lineHeight]
  parentNeededWidth := max s.parentNeededWidth
    (s.lineWidthUse + flow.paddingRight - flow.mHorizontalSpacing)
  parentNeededHeight := s.parentNeededHeight +
    if last then .ofNat s.lineHeight else .ofNat s.lineHeight + flow.mVerticalSpacing
  lineHeight := 0
  lineWidthUse := flow.paddingLeft

/-- The child is added to the line. -/
def place (child : View) (s : Pass) : Pass :=
  { s with
    lineWidthUse := s.lineWidthUse + (child.width + flow.mHorizontalSpacing)
    lineView := s.lineView ++ [child] }

/-- The branch for the last line. -/
def finish (s : Pass) : Pass :=
  { s with
    allLines := s.allLines ++ [s.lineView]
    linesHeight := s.linesHeight ++ [s.lineHeight]
    parentNeededWidth := max s.parentNeededWidth
      (s.lineWidthUse + flow.paddingRight - flow.mHorizontalSpacing)
    parentNeededHeight := s.parentNeededHeight + .ofNat s.lineHeight }

/-- The line height takes the child in before the decision to wrap. -/
def raise (child : View) (s : Pass) : Pass :=
  { s with lineHeight := max child.measuredHeight s.lineHeight }

/-- The body of the loop. -/
def measureChild (selfWidth : Int32) (last : Bool) (s : Pass) (child : View) : Pass :=
  if child.visibility ≠ .gone then
    let s := raise child s
    let s :=
      if child.width > selfWidth - s.lineWidthUse - flow.paddingRight then
        flow.wrap last s
      else s
    let s := flow.place child s
    if last then flow.finish s else s
  else s

/-- The loop from some child on: an index is the last one when no child follows. -/
def measureChildren (selfWidth : Int32) : Pass → List View → Pass
  | s, [] => s
  | s, child :: rest =>
      measureChildren selfWidth (flow.measureChild selfWidth rest.isEmpty s child) rest

/-- The variables before the loop. -/
def start : Pass where
  allLines := []
  linesHeight := []
  parentNeededWidth := 0
  parentNeededHeight := flow.paddingTop + flow.paddingBottom
  lineView := []
  lineHeight := 0
  lineWidthUse := flow.paddingLeft

/-- The loop over all children. -/
def measureLines (selfWidth : Int32) (children : List View) : Pass :=
  flow.measureChildren selfWidth flow.start children

/-- `onMeasure`: the two lists, and the measured width and height. -/
def onMeasure (widthMeasureSpec heightMeasureSpec : MeasureSpec) (children : List View) :
    Pass × Int32 × Int32 :=
  let pass := flow.measureLines widthMeasureSpec.size children
  let realWidth :=
    if widthMeasureSpec.mode = .exactly then widthMeasureSpec.size else pass.parentNeededWidth
  let realHeight :=
    if heightMeasureSpec.mode = .exactly then heightMeasureSpec.size
    else pass.parentNeededHeight
  (pass, realWidth, realHeight)

end FlowLayout

/-! ## The lines of the children -/

/-- The children that take part in the layout. -/
def visibleChildren (children : List View) : List View :=
  children.filter (·.visibility ≠ .gone)

/-- The child at the last index is not `GONE`, so the last line is closed. -/
def lastCloses (children : List View) : Bool :=
  children.getLast?.any (·.visibility ≠ .gone)

namespace FlowLayout

variable (flow : FlowLayout) (selfWidth : Int32)

/-- The width between the paddings. -/
def room : ℤ := selfWidth.toInt - flow.paddingLeft.toInt - flow.paddingRight.toInt

/-- The test that lets a child join the line. -/
def fits (used : Int32) (child : View) : Bool :=
  child.width ≤ selfWidth - used - flow.paddingRight

/-- The width that is used with another child. -/
def advance (used : Int32) (child : View) : Int32 :=
  used + (child.width + flow.mHorizontalSpacing)

/-- Greedy filling by the visible children, behind a width already in use. -/
def rowsFrom (used : Int32) (children : List View) : List View × List (Line View) :=
  fill (flow.fits selfWidth) flow.advance flow.paddingLeft used (visibleChildren children)

/-- The width of the children of a line with the spacings between them. -/
def rowWidth (line : List View) : ℤ :=
  lineWidth (fun child => (child.measuredWidth : ℤ)) flow.mHorizontalSpacing.toInt line

/-- What a line takes of the width with the paddings, as the loop computes it. -/
def widthOf (used : Int32) (line : List View) : Int32 :=
  line.foldl flow.advance used + flow.paddingRight - flow.mHorizontalSpacing

end FlowLayout

/-- The heights the loop records: each line is charged with the first child of the next,
and not with its own first child when it is a later line. -/
def chargedHeights : ℕ → List View → List (Line View) → List ℕ
  | lineHeight, line, [] => [max lineHeight (tallest View.measuredHeight line)]
  | lineHeight, line, next :: lines =>
      max (max lineHeight (tallest View.measuredHeight line)) next.first.measuredHeight ::
        chargedHeights 0 next.others lines

/-- The last child of a filling is alone on a later line. -/
def endsAlone (lines : List (Line View)) : Bool :=
  lines.getLast?.any (·.others.isEmpty)

/-- Without the closing step the line under construction is missing. -/
def recorded {β : Type} (closed : Bool) (lines : List β) : List β :=
  if closed then lines else lines.dropLast

theorem length_chargedHeights (lineHeight : ℕ) (line : List View) (lines : List (Line View)) :
    (chargedHeights lineHeight line lines).length = lines.length + 1 := by
  induction lines generalizing lineHeight line with
  | nil => rfl
  | cons next lines ih => rw [chargedHeights, List.length_cons, ih, List.length_cons]

theorem recorded_cons_cons {β : Type} (closed : Bool) (x y : β) (lines : List β) :
    recorded closed (x :: y :: lines) = x :: recorded closed (y :: lines) := by
  cases closed with
  | true => rfl
  | false => rfl

theorem exists_chargedHeights (lineHeight : ℕ) (line : List View) (lines : List (Line View)) :
    ∃ height heights, chargedHeights lineHeight line lines = height :: heights := by
  cases lines with
  | nil => exact ⟨_, _, rfl⟩
  | cons next lines => exact ⟨_, _, rfl⟩

/-! ## What the loop computes -/

section Loop

variable {flow : FlowLayout} {selfWidth : Int32} {s t : Pass} {child : View} {closed : Bool}
  {line : List View} {lines : List (Line View)}

/-- From `s` on the loop sets `line` on the line under construction and makes `lines` the
later ones; `closed` says whether the last of them is recorded. -/
structure Measures (flow : FlowLayout) (s : Pass) (closed : Bool) (line : List View)
    (lines : List (Line View)) (t : Pass) : Prop where
  allLines : t.allLines =
    s.allLines ++ recorded closed ((s.lineView ++ line) :: lines.map Line.toList)
  linesHeight : t.linesHeight =
    s.linesHeight ++ recorded closed (chargedHeights s.lineHeight line lines)
  width : closed = true → t.parentNeededWidth =
    (lines.map fun line => flow.widthOf flow.paddingLeft line.toList).foldl max
      (max s.parentNeededWidth (flow.widthOf s.lineWidthUse line))
  height : closed = true → t.parentNeededHeight =
    s.parentNeededHeight + .ofNat (chargedHeights s.lineHeight line lines).sum +
      flow.mVerticalSpacing * .ofInt (lines.length - if endsAlone lines then 1 else 0)

namespace Measures

/-- Nothing is left to measure, and the line under construction stays open. -/
theorem none (flow : FlowLayout) (s : Pass) : Measures flow s false [] [] s where
  allLines := by simp [recorded]
  linesHeight := by simp [recorded, chargedHeights]
  width := fun h => by cases h
  height := fun h => by cases h

/-- A child set on the line under construction. -/
theorem of_place (h : Measures flow (flow.place child (FlowLayout.raise child s)) closed line
    lines t) : Measures flow s closed (child :: line) lines t := by
  have hcharged : chargedHeights (max child.measuredHeight s.lineHeight) line lines =
      chargedHeights s.lineHeight (child :: line) lines := by
    cases lines with
    | nil => simp only [chargedHeights, tallest_cons, max_left_comm, max_assoc]
    | cons next lines =>
        simp only [chargedHeights, tallest_cons, max_left_comm, max_assoc]
  constructor
  · simpa [FlowLayout.place, FlowLayout.raise] using h.allLines
  · rw [← hcharged]
    exact h.linesHeight
  · exact h.width
  · intro hclosed
    rw [← hcharged]
    exact h.height hclosed

/-- A child that starts a line with more to come. -/
theorem of_wrap (h : Measures flow
      (flow.place child (flow.wrap false (FlowLayout.raise child s))) closed line lines t)
    (hmore : closed = true → line ≠ [] ∨ lines ≠ []) :
    Measures flow s closed [] (⟨child, line⟩ :: lines) t := by
  have hcharged : chargedHeights s.lineHeight [] (⟨child, line⟩ :: lines) =
      max child.measuredHeight s.lineHeight :: chargedHeights 0 line lines := by
    simp [chargedHeights, max_comm]
  constructor
  · rw [h.allLines, List.map_cons, recorded_cons_cons]
    simp [FlowLayout.place, FlowLayout.wrap, FlowLayout.raise, Line.toList]
  · obtain ⟨height, heights, hheights⟩ := exists_chargedHeights 0 line lines
    rw [hcharged, h.linesHeight]
    simp only [FlowLayout.place, FlowLayout.wrap, FlowLayout.raise, hheights,
      recorded_cons_cons, List.append_assoc, List.singleton_append]
  · intro hclosed
    rw [h.width hclosed, List.map_cons, List.foldl_cons]
    rfl
  · intro hclosed
    have halone : endsAlone (⟨child, line⟩ :: lines) = endsAlone lines := by
      cases lines with
      | nil => simpa [endsAlone] using hmore hclosed
      | cons next lines => simp [endsAlone, List.getLast?_cons_cons]
    have hlength : ((lines.length + 1 : ℕ) : ℤ) - (if endsAlone lines then 1 else 0) =
        lines.length - (if endsAlone lines then 1 else 0) + 1 := by
      push_cast
      ring
    rw [h.height hclosed, hcharged, halone, List.sum_cons, List.length_cons, hlength]
    simp only [FlowLayout.place, FlowLayout.wrap, FlowLayout.raise, Bool.false_eq_true, if_false,
      Int32.ofInt_add, Int32.ofNat_add]
    grind

/-- The child at the last index, on the line under construction. -/
theorem last (flow : FlowLayout) (s : Pass) (child : View) :
    Measures flow s true [child] []
      (flow.finish (flow.place child (FlowLayout.raise child s))) := by
  constructor
  · simp [FlowLayout.finish, FlowLayout.place, FlowLayout.raise, recorded]
  · simp [FlowLayout.finish, FlowLayout.place, FlowLayout.raise, recorded, chargedHeights,
      max_comm]
  · intro _
    rfl
  · intro _
    simp [FlowLayout.finish, FlowLayout.place, FlowLayout.raise, chargedHeights, endsAlone,
      max_comm]

/-- The child at the last index, starting a line of its own: no spacing is added. -/
theorem last_wrap (flow : FlowLayout) (s : Pass) (child : View) :
    Measures flow s true [] [⟨child, []⟩]
      (flow.finish (flow.place child (flow.wrap true (FlowLayout.raise child s)))) := by
  constructor
  · simp [FlowLayout.finish, FlowLayout.place, FlowLayout.wrap, FlowLayout.raise, recorded,
      Line.toList]
  · simp [FlowLayout.finish, FlowLayout.place, FlowLayout.wrap, FlowLayout.raise, recorded,
      chargedHeights, max_comm]
  · intro _
    rfl
  · intro _
    simp [FlowLayout.finish, FlowLayout.place, FlowLayout.wrap, FlowLayout.raise,
      chargedHeights, endsAlone, max_comm]

end Measures

theorem visibleChildren_cons (hchild : child.visibility ≠ .gone) (rest : List View) :
    visibleChildren (child :: rest) = child :: visibleChildren rest :=
  List.filter_cons_of_pos (by simpa using hchild)

theorem visibleChildren_cons_of_gone (hchild : child.visibility = .gone) (rest : List View) :
    visibleChildren (child :: rest) = visibleChildren rest :=
  List.filter_cons_of_neg (by simp [hchild])

theorem lastCloses_singleton {child : View} (h : child.visibility ≠ .gone) :
    lastCloses [child] = true := by
  simp [lastCloses, h]

theorem lastCloses_cons_of_gone (hchild : child.visibility = .gone) (rest : List View) :
    lastCloses (child :: rest) = lastCloses rest := by
  cases rest with
  | nil => simp [lastCloses, hchild]
  | cons next rest => simp [lastCloses, List.getLast?_cons_cons]

theorem visibleChildren_ne_nil {children : List View} (h : lastCloses children = true) :
    visibleChildren children ≠ [] := by
  obtain ⟨last, hlast, hvisible⟩ := (Option.any_eq_true _ _).mp h
  exact List.ne_nil_of_mem (List.mem_filter.mpr ⟨List.mem_of_getLast? hlast, hvisible⟩)

/-- The rows are made of the visible children, in order. -/
theorem rowsFrom_flatten (flow : FlowLayout) (selfWidth used : Int32) (children : List View) :
    (flow.rowsFrom selfWidth used children).1 ++
      ((flow.rowsFrom selfWidth used children).2.map Line.toList).flatten =
        visibleChildren children :=
  fill_flatten used _

theorem rowsFrom_ne_nil {used : Int32} {children : List View}
    (h : visibleChildren children ≠ []) :
    (flow.rowsFrom selfWidth used children).1 ≠ [] ∨
      (flow.rowsFrom selfWidth used children).2 ≠ [] := by
  by_contra hnone
  rw [not_or, not_not, not_not] at hnone
  have hflatten := rowsFrom_flatten flow selfWidth used children
  rw [hnone.1, hnone.2] at hflatten
  exact h hflatten.symm

/-- The test of the loop is the one of greedy filling. -/
theorem wraps_iff (flow : FlowLayout) (selfWidth : Int32) (s : Pass) (child : View) :
    child.width > selfWidth - (FlowLayout.raise child s).lineWidthUse - flow.paddingRight ↔
      ¬ flow.fits selfWidth s.lineWidthUse child = true := by
  rw [FlowLayout.fits, decide_eq_true_eq, Int32.not_le]
  rfl

theorem rowsFrom_of_wrap (hchild : child.visibility ≠ .gone) {used : Int32}
    (hwrap : ¬ flow.fits selfWidth used child = true) (rest : List View) :
    flow.rowsFrom selfWidth used (child :: rest) =
      ([], ⟨child, (flow.rowsFrom selfWidth (flow.advance flow.paddingLeft child) rest).1⟩ ::
        (flow.rowsFrom selfWidth (flow.advance flow.paddingLeft child) rest).2) := by
  rw [FlowLayout.rowsFrom, visibleChildren_cons hchild]
  exact fill_of_not_fits hwrap

theorem rowsFrom_of_fit (hchild : child.visibility ≠ .gone) {used : Int32}
    (hfit : flow.fits selfWidth used child = true) (rest : List View) :
    flow.rowsFrom selfWidth used (child :: rest) =
      (child :: (flow.rowsFrom selfWidth (flow.advance used child) rest).1,
        (flow.rowsFrom selfWidth (flow.advance used child) rest).2) := by
  rw [FlowLayout.rowsFrom, visibleChildren_cons hchild]
  exact fill_of_fits hfit

/-- The loop fills the lines greedily. -/
theorem measures_measureChildren (flow : FlowLayout) (selfWidth : Int32) (children : List View)
    (s : Pass) :
    Measures flow s (lastCloses children) (flow.rowsFrom selfWidth s.lineWidthUse children).1
      (flow.rowsFrom selfWidth s.lineWidthUse children).2
      (flow.measureChildren selfWidth s children) := by
  induction children generalizing s with
  | nil => exact Measures.none flow s
  | cons child rest ih =>
      rw [FlowLayout.measureChildren, FlowLayout.measureChild]
      by_cases hgone : child.visibility = .gone
      · rw [if_neg (by simpa using hgone), lastCloses_cons_of_gone hgone, FlowLayout.rowsFrom,
          visibleChildren_cons_of_gone hgone]
        exact ih s
      · rw [if_pos hgone]
        by_cases hfit : flow.fits selfWidth s.lineWidthUse child = true
        · rw [rowsFrom_of_fit hgone hfit]
          dsimp only
          rw [if_neg fun h => (wraps_iff flow selfWidth s child).mp h hfit]
          cases rest with
          | nil =>
              rw [lastCloses_singleton hgone]
              exact Measures.last flow s child
          | cons next rest => exact (ih (flow.place child (FlowLayout.raise child s))).of_place
        · rw [rowsFrom_of_wrap hgone hfit]
          dsimp only
          rw [if_pos ((wraps_iff flow selfWidth s child).mpr hfit)]
          cases rest with
          | nil =>
              rw [lastCloses_singleton hgone]
              exact Measures.last_wrap flow s child
          | cons next rest =>
              exact (ih (flow.place child (flow.wrap false (FlowLayout.raise child s)))).of_wrap
                fun hcloses => rowsFrom_ne_nil (visibleChildren_ne_nil hcloses)

end Loop

/-! ## Every visible child once -/

namespace FlowLayout

variable (flow : FlowLayout) (selfWidth : Int32) (children : List View)

/-- The lines of greedy filling: the first one, where the first child fits, and the later
ones. -/
def rows : List View × List (Line View) := flow.rowsFrom selfWidth flow.paddingLeft children

theorem measures_measureLines :
    Measures flow flow.start (lastCloses children) (flow.rows selfWidth children).1
      (flow.rows selfWidth children).2 (flow.measureLines selfWidth children) :=
  measures_measureChildren flow selfWidth children flow.start

/-- All rows as plain lists. -/
def rowLists : List (List View) :=
  (flow.rows selfWidth children).1 :: (flow.rows selfWidth children).2.map Line.toList

theorem allLines_measureLines :
    (flow.measureLines selfWidth children).allLines =
      recorded (lastCloses children) (flow.rowLists selfWidth children) :=
  (flow.measures_measureLines selfWidth children).allLines

theorem linesHeight_measureLines :
    (flow.measureLines selfWidth children).linesHeight =
      recorded (lastCloses children) (chargedHeights 0 (flow.rows selfWidth children).1
        (flow.rows selfWidth children).2) :=
  (flow.measures_measureLines selfWidth children).linesHeight

variable {flow selfWidth children} in
/-- With a visible child at the last index all rows are recorded. -/
theorem allLines_of_lastCloses (h : lastCloses children = true) :
    (flow.measureLines selfWidth children).allLines = flow.rowLists selfWidth children := by
  rw [allLines_measureLines, h]
  rfl

variable {flow selfWidth children} in
theorem linesHeight_of_lastCloses (h : lastCloses children = true) :
    (flow.measureLines selfWidth children).linesHeight =
      chargedHeights 0 (flow.rows selfWidth children).1 (flow.rows selfWidth children).2 := by
  rw [linesHeight_measureLines, h]
  rfl

/-- What the measuring pass is for: the lines hold every visible child once and in order,
none is empty, each has its height, and one with several children fits. -/
structure PlacesEveryChild (pass : Pass) : Prop where
  flatten : pass.allLines.flatten = visibleChildren children
  nonempty : ∀ line ∈ pass.allLines, line ≠ []
  heights : pass.allLines.length = pass.linesHeight.length
  fits : ∀ line ∈ pass.allLines, 1 < line.length → flow.rowWidth line ≤ flow.room selfWidth

/-- The width that is left of a line before its last child is a number that an `Int` can be. -/
def Reaches (line : List View) : Prop :=
  -2 ^ 31 ≤ flow.room selfWidth - (flow.rowWidth line.dropLast + flow.mHorizontalSpacing.toInt)

/-- Where there is a visible child, the first one fits and the last child is visible; and no
child joins a line where the width that is left has come round. -/
structure ClearEnds : Prop where
  last : visibleChildren children ≠ [] → lastCloses children = true
  first : ∀ child ∈ (visibleChildren children).head?,
    child.width ≤ selfWidth - flow.paddingLeft - flow.paddingRight
  reaches : ∀ line ∈ flow.rowLists selfWidth children, 1 < line.length → flow.Reaches selfWidth line

variable {flow selfWidth children}

theorem rowLists_flatten :
    (flow.rowLists selfWidth children).flatten = visibleChildren children :=
  rowsFrom_flatten flow selfWidth flow.paddingLeft children

theorem ne_nil_of_mem_later {line : List View}
    (hline : line ∈ (flow.rows selfWidth children).2.map Line.toList) : line ≠ [] := by
  obtain ⟨row, -, rfl⟩ := List.mem_map.mp hline
  exact List.cons_ne_nil _ _

/-- Only the first row can be empty, where the first child does not fit. -/
theorem forall_rowLists_ne_nil (hvisible : visibleChildren children ≠ []) :
    (∀ line ∈ flow.rowLists selfWidth children, line ≠ []) ↔
      ∀ child ∈ (visibleChildren children).head?,
        child.width ≤ selfWidth - flow.paddingLeft - flow.paddingRight := by
  obtain ⟨child, rest, hcons⟩ := List.exists_cons_of_ne_nil hvisible
  have hfirst : (flow.rows selfWidth children).1 ≠ [] ↔
      child.width ≤ selfWidth - flow.paddingLeft - flow.paddingRight := by
    rw [rows, rowsFrom, hcons, fill_fst_ne_nil_iff, fits, decide_eq_true_eq]
  rw [rowLists, List.forall_mem_cons, hfirst, hcons, List.head?_cons]
  constructor
  · rintro ⟨hchild, -⟩ _ hhead
    cases hhead
    exact hchild
  · intro hchild
    exact ⟨hchild child rfl, fun line hline => ne_nil_of_mem_later hline⟩

/-- The width that is used of a line, up to the range of `Int`. -/
theorem toInt_foldl_advance (used : Int32) (line : List View) :
    (line.foldl flow.advance used).toInt =
      (used.toInt + (flow.rowWidth line + flow.mHorizontalSpacing.toInt)).bmod (2 ^ 32) := by
  induction line generalizing used with
  | nil =>
      rw [rowWidth, lineWidth_nil, neg_add_cancel, add_zero]
      exact (Int32.toInt_bmod used).symm
  | cons child line ih =>
      rw [List.foldl_cons, ih, advance, Int32.toInt_add, Int32.toInt_add, child.toInt_width,
        Int.add_bmod_bmod, Int.bmod_add_bmod, rowWidth, rowWidth, lineWidth_cons]
      congr 1
      ring

/-- A child that the test has let join fits if what is left has not come round. -/
theorem fits_last_iff {line : List View} {child : View}
    (h : flow.fits selfWidth (line.foldl flow.advance flow.paddingLeft) child = true) :
    flow.rowWidth (line ++ [child]) ≤ flow.room selfWidth ↔
      -2 ^ 31 ≤ flow.room selfWidth - (flow.rowWidth line + flow.mHorizontalSpacing.toInt) := by
  have hnonneg : 0 ≤ (child.measuredWidth : ℤ) := Int.natCast_nonneg _
  have hless : (child.measuredWidth : ℤ) < 2 ^ 31 := by exact_mod_cast child.width_lt
  have hleft : (selfWidth - line.foldl flow.advance flow.paddingLeft - flow.paddingRight).toInt =
      (flow.room selfWidth -
        (flow.rowWidth line + flow.mHorizontalSpacing.toInt)).bmod (2 ^ 32) := by
    rw [Int32.toInt_sub, Int32.toInt_sub, toInt_foldl_advance, Int.sub_bmod_bmod,
      Int.bmod_sub_bmod, room]
    congr 1
    ring
  rw [fits, decide_eq_true_eq, Int32.le_iff_toInt_le, child.toInt_width, hleft] at h
  have hwidth : flow.rowWidth (line ++ [child]) =
      flow.rowWidth line + flow.mHorizontalSpacing.toInt + child.measuredWidth :=
    lineWidth_append_singleton line child
  have hjoins : flow.rowWidth (line ++ [child]) ≤ flow.room selfWidth ↔
      (child.measuredWidth : ℤ) ≤
        flow.room selfWidth - (flow.rowWidth line + flow.mHorizontalSpacing.toInt) := by
    rw [hwidth, le_sub_iff_add_le, add_comm]
  rw [hjoins]
  generalize flow.room selfWidth - (flow.rowWidth line + flow.mHorizontalSpacing.toInt) = left
    at h ⊢
  constructor
  · intro hle
    omega
  · intro hreaches
    by_cases hmore : left < 2 ^ 31
    · rwa [Int.bmod_eq_of_le (by omega) (by omega)] at h
    · omega

/-- A line with several children fits exactly where the width has not come round. -/
theorem rowLists_fits_iff {line : List View} (hline : line ∈ flow.rowLists selfWidth children)
    (hlength : 1 < line.length) :
    flow.rowWidth line ≤ flow.room selfWidth ↔ flow.Reaches selfWidth line := by
  obtain ⟨before, child, rfl⟩ : ∃ before child, line = before ++ [child] :=
    (List.eq_nil_or_concat' line).resolve_left (List.ne_nil_of_length_pos (by omega))
  rw [Reaches, List.dropLast_concat]
  rcases List.mem_cons.mp hline with hfirst | hlater
  · exact fits_last_iff (fits_of_fill_fst hfirst.symm)
  · obtain ⟨row, hrow, heq⟩ := List.mem_map.mp hlater
    obtain ⟨first, before, rfl⟩ : ∃ first before', before = first :: before' := by
      refine List.exists_cons_of_ne_nil fun hnil => ?_
      rw [hnil] at hlength
      exact Nat.lt_irrefl 1 hlength
    obtain ⟨rfl, hothers⟩ := List.cons.inj heq
    have hfits : flow.fits selfWidth
        ((row.first :: before).foldl flow.advance flow.paddingLeft) child = true :=
      fits_of_fill_snd hrow hothers
    exact fits_last_iff hfits

/-- Without its last row the lines hold fewer children. -/
theorem flatten_dropLast_rowLists_ne (hvisible : visibleChildren children ≠ []) :
    (flow.rowLists selfWidth children).dropLast.flatten ≠ visibleChildren children := by
  have hflatten := @rowLists_flatten flow selfWidth children
  intro hsame
  cases hlater : (flow.rows selfWidth children).2 with
  | nil =>
      rw [rowLists, hlater] at hsame
      exact hvisible hsame.symm
  | cons row lines =>
      have hne : (flow.rows selfWidth children).2.map Line.toList ≠ [] := by simp [hlater]
      have hlast : ((flow.rows selfWidth children).2.map Line.toList).getLast hne ≠ [] :=
        ne_nil_of_mem_later (List.getLast_mem hne)
      rw [rowLists, List.dropLast_cons_of_ne_nil hne, List.flatten_cons] at hsame
      rw [rowLists, List.flatten_cons, ← List.dropLast_append_getLast hne, List.flatten_append,
        ← List.append_assoc, hsame, List.append_right_eq_self, List.flatten_singleton] at hflatten
      exact hlast hflatten

theorem length_allLines (flow : FlowLayout) (selfWidth : Int32) (children : List View) :
    (flow.measureLines selfWidth children).allLines.length =
      (flow.measureLines selfWidth children).linesHeight.length := by
  rw [allLines_measureLines, linesHeight_measureLines]
  cases lastCloses children with
  | true => simp [recorded, rowLists, length_chargedHeights]
  | false => simp [recorded, rowLists, length_chargedHeights]

/-- The measuring pass does what it is for exactly when there is no visible child, or the
first one fits, the child at the last index is visible and no width comes round. -/
theorem placesEveryChild_iff (flow : FlowLayout)
    (widthMeasureSpec heightMeasureSpec : MeasureSpec) (children : List View) :
    flow.PlacesEveryChild widthMeasureSpec.size children
        (flow.onMeasure widthMeasureSpec heightMeasureSpec children).1 ↔
      flow.ClearEnds widthMeasureSpec.size children := by
  have hlines := flow.allLines_measureLines widthMeasureSpec.size children
  have hlength := flow.length_allLines widthMeasureSpec.size children
  rw [onMeasure]
  by_cases hvisible : visibleChildren children = []
  · have hopen : lastCloses children = false := by
      by_contra hclosed
      exact visibleChildren_ne_nil (Bool.of_not_eq_false hclosed) hvisible
    have hnone : (flow.measureLines widthMeasureSpec.size children).allLines = [] := by
      rw [hlines, hopen]
      simp [recorded, rowLists, rows, rowsFrom, hvisible, fill]
    constructor
    · intro _
      refine ⟨fun hne => absurd hvisible hne, by simp [hvisible], ?_⟩
      simp [rowLists, rows, rowsFrom, hvisible, fill]
    · intro _
      exact ⟨by simp [hnone, hvisible], by simp [hnone], hlength, by simp [hnone]⟩
  · constructor
    · intro hplaces
      have hclosed : lastCloses children = true := by
        by_contra hopen
        have hflatten := hplaces.flatten
        dsimp only at hflatten
        rw [hlines, Bool.eq_false_iff.mpr hopen] at hflatten
        exact flatten_dropLast_rowLists_ne hvisible hflatten
      have hnonempty := hplaces.nonempty
      dsimp only at hnonempty
      rw [hlines, hclosed] at hnonempty
      refine ⟨fun _ => hclosed, (forall_rowLists_ne_nil hvisible).mp hnonempty, ?_⟩
      intro line hline hlength
      refine (rowLists_fits_iff hline hlength).mp (hplaces.fits line ?_ hlength)
      dsimp only
      rw [hlines, hclosed]
      exact hline
    · intro hclear
      have hall := @allLines_of_lastCloses flow widthMeasureSpec.size children
        (hclear.last hvisible)
      refine ⟨?_, ?_, hlength, ?_⟩
      · dsimp only
        rw [hall, rowLists_flatten]
      · dsimp only
        rw [hall]
        exact (forall_rowLists_ne_nil hvisible).mpr hclear.first
      · dsimp only
        rw [hall]
        exact fun line hline hlength =>
          (rowLists_fits_iff hline hlength).mpr (hclear.reaches line hline hlength)

/-- A `GONE` child at the end loses the line of the only visible one. -/
theorem not_placesEveryChild_goneLast :
    ¬ ∀ (flow : FlowLayout) (widthMeasureSpec heightMeasureSpec : MeasureSpec)
      (children : List View), flow.PlacesEveryChild widthMeasureSpec.size children
        (flow.onMeasure widthMeasureSpec heightMeasureSpec children).1 := by
  intro hlaw
  have hplaces := hlaw {} ⟨.atMost, 100⟩ ⟨.atMost, 100⟩
    [⟨.visible, 10, 10, by decide, by decide⟩, ⟨.gone, 0, 0, by decide, by decide⟩]
  exact absurd hplaces.flatten (by decide)

end FlowLayout

end StudyNotes.Flow
