/-
# The rectangles of `FlowLayout`

`onLayout` stacks the recorded lines by their recorded heights.  Lines that are at least
as high as their children keep all rectangles apart, but `onMeasure` takes a child's
height in before it decides to wrap and forgets it when it does: the first child of a
later line counts for the line above.  Two statements tell when that shows: the
recorded heights are those of the lines, and the rectangles fit the measured size.  Both
passes add `Int`s; as long as no border is beyond them, the rectangles are at the places
that are meant.
-/

import Mathlib.Data.Real.Basic
import StudyNotes.View.FlowLayout

namespace StudyNotes.Flow

open StudyNotes.LineFill

/-! ## `onLayout` -/

/-- The arguments of `View.layout`, or the numbers that they stand for. -/
structure Rect where
  left : ℤ
  top : ℤ
  right : ℤ
  bottom : ℤ
deriving DecidableEq, Repr

/-- The points strictly inside. -/
def Rect.interior (r : Rect) : Set (ℝ × ℝ) :=
  Set.Ioo (r.left : ℝ) r.right ×ˢ Set.Ioo (r.top : ℝ) r.bottom

/-- No point lies strictly inside both. -/
def Rect.Separate (r r' : Rect) : Prop := ∀ point ∈ r.interior, point ∉ r'.interior

namespace FlowLayout

variable (flow : FlowLayout)

/-- The inner loop, over the children of a line. -/
def layoutLine (heightUse : Int32) : Int32 → List View → List (View × Rect)
  | _, [] => []
  | widthUse, child :: rest =>
      (child, ⟨widthUse.toInt, heightUse.toInt, (widthUse + child.width).toInt,
          (heightUse + child.height).toInt⟩) ::
        layoutLine heightUse (widthUse + (child.width + flow.mHorizontalSpacing)) rest

/-- The outer loop, over the lines with their heights. -/
def layoutLines : Int32 → List (List View × ℕ) → List (View × Rect)
  | _, [] => []
  | heightUse, (line, height) :: rest =>
      flow.layoutLine heightUse flow.paddingLeft line ++
        layoutLines (heightUse + (.ofNat height + flow.mVerticalSpacing)) rest

/-- `onLayout`.  The two lists are always of one length. -/
def onLayout (pass : Pass) : List (View × Rect) :=
  flow.layoutLines flow.paddingTop (pass.allLines.zip pass.linesHeight)

/-! ## The places meant -/

/-- Where the children of a line are to go, side by side. -/
def placeLine (top : ℤ) : ℤ → List View → List (View × Rect)
  | _, [] => []
  | left, child :: rest =>
      (child, ⟨left, top, left + child.measuredWidth, top + child.measuredHeight⟩) ::
        placeLine top (left + (child.measuredWidth + flow.mHorizontalSpacing.toInt)) rest

/-- Where the lines are to go, one below the other. -/
def placeLines : ℤ → List (List View × ℕ) → List (View × Rect)
  | _, [] => []
  | top, (line, height) :: rest =>
      flow.placeLine top flow.paddingLeft.toInt line ++
        placeLines (top + (height + flow.mVerticalSpacing.toInt)) rest

end FlowLayout

/-! ## Rectangles apart -/

theorem Rect.separate_of_right_le {r r' : Rect} (h : r.right ≤ r'.left) : r.Separate r' := by
  have hcast : (r.right : ℝ) ≤ r'.left := by exact_mod_cast h
  rintro point ⟨hleft, -⟩ ⟨hleft', -⟩
  exact absurd (lt_trans (lt_of_lt_of_le hleft.2 hcast) hleft'.1) (lt_irrefl _)

theorem Rect.separate_of_bottom_le {r r' : Rect} (h : r.bottom ≤ r'.top) : r.Separate r' := by
  have hcast : (r.bottom : ℝ) ≤ r'.top := by exact_mod_cast h
  rintro point ⟨-, htop⟩ ⟨-, htop'⟩
  exact absurd (lt_trans (lt_of_lt_of_le htop.2 hcast) htop'.1) (lt_irrefl _)

section Placing

variable {flow : FlowLayout}

/-- Where a child of a line is put. -/
structure InLine (flow : FlowLayout) (top' left' : ℤ) (line : List View)
    (placed : View × Rect) : Prop where
  child : placed.1 ∈ line
  top : placed.2.top = top'
  bottom : placed.2.bottom = top' + placed.1.measuredHeight
  left : left' ≤ placed.2.left
  right : placed.2.right ≤ left' + flow.rowWidth line

theorem rowWidth_nonneg (hspacing : 0 ≤ flow.mHorizontalSpacing.toInt) {line : List View}
    (hline : line ≠ []) : 0 ≤ flow.rowWidth line := by
  induction line with
  | nil => exact absurd rfl hline
  | cons child rest ih =>
      rw [FlowLayout.rowWidth, lineWidth_cons]
      by_cases hrest : rest = []
      · rw [hrest, lineWidth_nil]
        omega
      · have hnonneg := ih hrest
        rw [FlowLayout.rowWidth] at hnonneg
        omega

theorem inLine_of_mem (hspacing : 0 ≤ flow.mHorizontalSpacing.toInt) {top' left' : ℤ}
    {line : List View} {placed : View × Rect}
    (h : placed ∈ flow.placeLine top' left' line) :
    InLine flow top' left' line placed := by
  induction line generalizing left' with
  | nil => cases h
  | cons child rest ih =>
      rcases List.mem_cons.mp h with rfl | hrest
      · refine ⟨by simp, rfl, rfl, le_refl _, ?_⟩
        by_cases hempty : rest = []
        · rw [hempty, FlowLayout.rowWidth, lineWidth_cons, lineWidth_nil]
          dsimp only
          omega
        · have hnonneg := rowWidth_nonneg hspacing hempty
          rw [FlowLayout.rowWidth] at hnonneg
          rw [FlowLayout.rowWidth, lineWidth_cons]
          dsimp only
          omega
      · have hin := ih hrest
        have hleft := hin.left
        have hright := hin.right
        refine ⟨List.mem_cons_of_mem _ hin.child, hin.top, hin.bottom, by omega, ?_⟩
        rw [FlowLayout.rowWidth, lineWidth_cons]
        rw [FlowLayout.rowWidth] at hright
        omega

/-- The children of one line are side by side. -/
theorem pairwise_placeLine (hspacing : 0 ≤ flow.mHorizontalSpacing.toInt)
    (top' left' : ℤ) (line : List View) :
    (flow.placeLine top' left' line).Pairwise fun a b => a.2.Separate b.2 := by
  induction line generalizing left' with
  | nil => exact List.Pairwise.nil
  | cons child rest ih =>
      apply List.Pairwise.cons
      · intro placed hplaced
        have hleft := (inLine_of_mem hspacing hplaced).left
        apply Rect.separate_of_right_le
        dsimp only
        omega
      · exact ih _

theorem le_top_of_mem_placeLines (hspacing : 0 ≤ flow.mHorizontalSpacing.toInt)
    (hspacing' : 0 ≤ flow.mVerticalSpacing.toInt) {top' : ℤ} {lines : List (List View × ℕ)}
    {placed : View × Rect} (h : placed ∈ flow.placeLines top' lines) :
    top' ≤ placed.2.top := by
  induction lines generalizing top' with
  | nil => cases h
  | cons entry rest ih =>
      rcases List.mem_append.mp h with hline | hrest
      · exact (inLine_of_mem hspacing hline).top.ge
      · have htop := ih hrest
        omega

/-- Lines that are as high as their children are one below the other. -/
theorem pairwise_placeLines (hspacing : 0 ≤ flow.mHorizontalSpacing.toInt)
    (hspacing' : 0 ≤ flow.mVerticalSpacing.toInt) {lines : List (List View × ℕ)}
    (hheights : ∀ entry ∈ lines, ∀ child ∈ entry.1, child.measuredHeight ≤ entry.2)
    (top' : ℤ) :
    (flow.placeLines top' lines).Pairwise fun a b => a.2.Separate b.2 := by
  induction lines generalizing top' with
  | nil => exact List.Pairwise.nil
  | cons entry rest ih =>
      rw [List.forall_mem_cons] at hheights
      apply List.pairwise_append.mpr
      refine ⟨pairwise_placeLine hspacing _ _ _, ih hheights.2 _, ?_⟩
      intro above habove below hbelow
      have hin := inLine_of_mem hspacing habove
      have hchild := hheights.1 _ hin.child
      have hbottom := hin.bottom
      have htop := le_top_of_mem_placeLines hspacing hspacing' hbelow
      apply Rect.separate_of_bottom_le
      omega

end Placing

/-! ## Places within `Int` -/

/-- No border is beyond the largest `Int`. -/
def WithinInt (places : List (View × Rect)) : Prop :=
  ∀ placed ∈ places, placed.2.right < 2 ^ 31 ∧ placed.2.bottom < 2 ^ 31

instance (places : List (View × Rect)) : Decidable (WithinInt places) :=
  inferInstanceAs (Decidable (∀ placed ∈ places, _))

section Range

variable {flow : FlowLayout}

/-- A sum that an `Int` can be. -/
theorem toInt_add_of_range {a b : Int32} {n : ℤ} (hb : b.toInt = n.bmod (2 ^ 32))
    (hle : -2 ^ 31 ≤ a.toInt + n) (hlt : a.toInt + n < 2 ^ 31) : (a + b).toInt = a.toInt + n := by
  rw [Int32.toInt_add, hb, Int.add_bmod_bmod, Int.bmod_eq_of_le (by omega) (by omega)]

theorem layoutLine_eq (hspacing : 0 ≤ flow.mHorizontalSpacing.toInt) {heightUse widthUse : Int32}
    {line : List View} (h : WithinInt (flow.placeLine heightUse.toInt widthUse.toInt line)) :
    flow.layoutLine heightUse widthUse line =
      flow.placeLine heightUse.toInt widthUse.toInt line := by
  induction line generalizing widthUse with
  | nil => rfl
  | cons child rest ih =>
      obtain ⟨⟨hright, hbottom⟩, hrest⟩ := List.forall_mem_cons.mp h
      dsimp only at hright hbottom
      have hleft := widthUse.le_toInt
      have htop := heightUse.le_toInt
      have hwidth : child.width.toInt = Int.bmod child.measuredWidth (2 ^ 32) := by
        rw [child.toInt_width, ← child.toInt_width]
        exact (Int32.toInt_bmod child.width).symm
      have hheight : child.height.toInt = Int.bmod child.measuredHeight (2 ^ 32) := by
        rw [child.toInt_height, ← child.toInt_height]
        exact (Int32.toInt_bmod child.height).symm
      have hnext : rest ≠ [] → (widthUse + (child.width + flow.mHorizontalSpacing)).toInt =
          widthUse.toInt + (child.measuredWidth + flow.mHorizontalSpacing.toInt) := by
        intro hne
        obtain ⟨next, rest, rfl⟩ := List.exists_cons_of_ne_nil hne
        have hright' := (hrest _ List.mem_cons_self).1
        dsimp only at hright'
        refine toInt_add_of_range ?_ (by omega) (by omega)
        rw [Int32.toInt_add, child.toInt_width]
      rw [FlowLayout.layoutLine, FlowLayout.placeLine,
        toInt_add_of_range hwidth (by omega) hright, toInt_add_of_range hheight (by omega) hbottom]
      congr 1
      cases rest with
      | nil => rfl
      | cons next rest =>
          have hsame := hnext (List.cons_ne_nil _ _)
          rw [← hsame] at hrest ⊢
          exact ih hrest

theorem layoutLines_eq (hspacing : 0 ≤ flow.mHorizontalSpacing.toInt)
    (hspacing' : 0 ≤ flow.mVerticalSpacing.toInt) {heightUse : Int32}
    {lines : List (List View × ℕ)} (hlater : ∀ entry ∈ lines.tail, entry.1 ≠ [])
    (h : WithinInt (flow.placeLines heightUse.toInt lines)) :
    flow.layoutLines heightUse lines = flow.placeLines heightUse.toInt lines := by
  induction lines generalizing heightUse with
  | nil => rfl
  | cons entry rest ih =>
      obtain ⟨line, height⟩ := entry
      obtain ⟨hline, hrest⟩ := List.forall_mem_append.mp h
      rw [FlowLayout.layoutLines, FlowLayout.placeLines, layoutLine_eq hspacing hline]
      congr 1
      cases rest with
      | nil => rfl
      | cons next rest =>
          obtain ⟨line', height'⟩ := next
          obtain ⟨child, others, rfl⟩ :=
            List.exists_cons_of_ne_nil (hlater (line', height') List.mem_cons_self)
          have hbottom := (hrest _ (List.mem_append_left _ List.mem_cons_self)).2
          have htop := heightUse.le_toInt
          dsimp only at hbottom
          have hsame : (heightUse + (.ofNat height + flow.mVerticalSpacing)).toInt =
              heightUse.toInt + (height + flow.mVerticalSpacing.toInt) := by
            refine toInt_add_of_range ?_ (by omega) (by omega)
            rw [Int32.toInt_add, Int32.toInt_ofNat']
            exact Int.bmod_add_bmod
          rw [← hsame] at hrest ⊢
          exact ih (fun entry hentry => hlater entry (List.mem_cons_of_mem _ hentry)) hrest

end Range

/-! ## The recorded heights -/

section Heights

/-- The height of a child that starts a line is made up for on its own line, by another
child or by the one that starts the next line.  A last line that is not recorded needs
nothing. -/
def Covered (closed : Bool) (line : Line View) (rest : List (Line View)) : Prop :=
  match rest with
  | [] => closed = true →
      line.first.measuredHeight ≤ tallest View.measuredHeight line.others
  | next :: _ => line.first.measuredHeight ≤
      max (tallest View.measuredHeight line.others) next.first.measuredHeight

/-- No child that starts a line is taller than the line above, nor than what makes up for
it on its own. -/
def StartersLevel (closed : Bool) : List View → List (Line View) → Prop
  | _, [] => True
  | above, line :: rest =>
      line.first.measuredHeight ≤ tallest View.measuredHeight above ∧
        Covered closed line rest ∧ StartersLevel closed line.toList rest

variable (closed : Bool)

/-- The height charged to a line with a next one, and then those charged from there on. -/
theorem chargedHeights_cons_iff (counted line : List View) (next : Line View)
    (lines : List (Line View)) :
    recorded closed (chargedHeights 0 counted (next :: lines)) =
        (recorded closed (line :: (next :: lines).map Line.toList)).map
          (tallest View.measuredHeight) ↔
      max (tallest View.measuredHeight counted) next.first.measuredHeight =
          tallest View.measuredHeight line ∧
        recorded closed (chargedHeights 0 next.others lines) =
          (recorded closed (next.toList :: lines.map Line.toList)).map
            (tallest View.measuredHeight) := by
  obtain ⟨height, heights, hheights⟩ := exists_chargedHeights 0 next.others lines
  rw [chargedHeights, List.map_cons, hheights, recorded_cons_cons, recorded_cons_cons,
    List.map_cons, List.cons.injEq, Nat.zero_max]

/-- The heights charged to a later line and to those after it are their own. -/
theorem chargedHeights_later_iff (line : Line View) (lines : List (Line View)) :
    recorded closed (chargedHeights 0 line.others lines) =
        (recorded closed (line.toList :: lines.map Line.toList)).map
          (tallest View.measuredHeight) ↔
      Covered closed line lines ∧ StartersLevel closed line.toList lines := by
  induction lines generalizing line with
  | nil =>
      cases closed with
      | true => simp [recorded, chargedHeights, Covered, StartersLevel, Line.toList]
      | false => simp [recorded, chargedHeights, Covered, StartersLevel]
  | cons next lines ih =>
      have hhead : max (tallest View.measuredHeight line.others) next.first.measuredHeight =
            tallest View.measuredHeight line.toList ↔
          line.first.measuredHeight ≤
              max (tallest View.measuredHeight line.others) next.first.measuredHeight ∧
            next.first.measuredHeight ≤ tallest View.measuredHeight line.toList := by
        rw [Line.toList, tallest_cons]
        omega
      rw [chargedHeights_cons_iff, ih next, hhead, StartersLevel, Covered, and_assoc]

/-- The first line counts all its children. -/
theorem chargedHeights_iff (line : List View) (lines : List (Line View)) :
    recorded closed (chargedHeights 0 line lines) =
        (recorded closed (line :: lines.map Line.toList)).map (tallest View.measuredHeight) ↔
      StartersLevel closed line lines := by
  cases lines with
  | nil =>
      cases closed with
      | true => simp [recorded, chargedHeights, StartersLevel]
      | false => simp [recorded, chargedHeights, StartersLevel]
  | cons next lines =>
      rw [chargedHeights_cons_iff, chargedHeights_later_iff, StartersLevel, max_eq_left_iff]

end Heights

namespace FlowLayout

variable (flow : FlowLayout)

/-- Every line is as high as its tallest child, and no two rectangles overlap. -/
structure NeverOverlaps (pass : Pass) : Prop where
  heights : pass.linesHeight = pass.allLines.map (tallest View.measuredHeight)
  separate : (flow.onLayout pass).Pairwise fun a b => a.2.Separate b.2

/-- Where the children are to go, by the rows of greedy filling with the heights charged. -/
def places (selfWidth : Int32) (children : List View) : List (View × Rect) :=
  flow.placeLines flow.paddingTop.toInt
    ((recorded (lastCloses children) (flow.rowLists selfWidth children)).zip
      (recorded (lastCloses children)
        (chargedHeights 0 (flow.rows selfWidth children).1 (flow.rows selfWidth children).2)))

variable {flow} in
theorem onLayout_eq (hspacing : 0 ≤ flow.mHorizontalSpacing.toInt)
    (hspacing' : 0 ≤ flow.mVerticalSpacing.toInt) {selfWidth : Int32} {children : List View}
    (h : WithinInt (flow.places selfWidth children)) :
    flow.onLayout (flow.measureLines selfWidth children) = flow.places selfWidth children := by
  rw [onLayout, allLines_measureLines, linesHeight_measureLines]
  refine layoutLines_eq hspacing hspacing' (fun entry hentry => ?_) h
  have hmem : entry.1 ∈ (flow.rowLists selfWidth children).tail := by
    rw [List.tail_zip] at hentry
    have hrecorded := (List.of_mem_zip hentry).1
    cases hclosed : lastCloses children with
    | true =>
        rw [hclosed] at hrecorded
        exact hrecorded
    | false =>
        rw [hclosed, recorded, if_neg Bool.false_ne_true, List.tail_dropLast] at hrecorded
        exact (List.dropLast_sublist _).mem hrecorded
  exact ne_nil_of_mem_later hmem

theorem pairwise_places (hspacing : 0 ≤ flow.mHorizontalSpacing.toInt)
    (hspacing' : 0 ≤ flow.mVerticalSpacing.toInt) {lines : List (List View)} {heights : List ℕ}
    (hheights : heights = lines.map (tallest View.measuredHeight)) :
    (flow.placeLines flow.paddingTop.toInt (lines.zip heights)).Pairwise
      fun a b => a.2.Separate b.2 := by
  apply pairwise_placeLines hspacing hspacing'
  intro entry hentry child hchild
  rw [hheights, List.zip_map_right, List.zip_eq_zipWith] at hentry
  simp only [List.zipWith_self, List.map_map, List.mem_map] at hentry
  obtain ⟨line, hline, rfl⟩ := hentry
  exact le_tallest hchild

/-- With spacings that are not negative, the heights are those of the lines only where in the
greedy lines no child that starts a line stands out; and within `Int` the children then never
overlap. -/
theorem neverOverlaps_iff (hspacing : 0 ≤ flow.mHorizontalSpacing)
    (hspacing' : 0 ≤ flow.mVerticalSpacing) (widthMeasureSpec heightMeasureSpec : MeasureSpec)
    (children : List View) :
    (flow.NeverOverlaps (flow.onMeasure widthMeasureSpec heightMeasureSpec children).1 →
      StartersLevel (lastCloses children) (flow.rows widthMeasureSpec.size children).1
        (flow.rows widthMeasureSpec.size children).2) ∧
    (WithinInt (flow.places widthMeasureSpec.size children) →
      (flow.NeverOverlaps (flow.onMeasure widthMeasureSpec heightMeasureSpec children).1 ↔
        StartersLevel (lastCloses children) (flow.rows widthMeasureSpec.size children).1
          (flow.rows widthMeasureSpec.size children).2)) := by
  rw [Int32.le_iff_toInt_le, Int32.toInt_zero] at hspacing hspacing'
  have hlines := flow.allLines_measureLines widthMeasureSpec.size children
  have hheights := flow.linesHeight_measureLines widthMeasureSpec.size children
  rw [← chargedHeights_iff]
  have hlevel
      (h : flow.NeverOverlaps (flow.onMeasure widthMeasureSpec heightMeasureSpec children).1) :
      recorded (lastCloses children) (chargedHeights 0 (flow.rows widthMeasureSpec.size children).1
        (flow.rows widthMeasureSpec.size children).2) =
      (recorded (lastCloses children) ((flow.rows widthMeasureSpec.size children).1 ::
        (flow.rows widthMeasureSpec.size children).2.map Line.toList)).map
          (tallest View.measuredHeight) := by
    have heq := h.heights
    dsimp only [onMeasure] at heq
    rw [hheights, hlines] at heq
    exact heq
  refine ⟨hlevel, fun hwithin => ⟨hlevel, fun h => ⟨?_, ?_⟩⟩⟩
  · dsimp only [onMeasure]
    rw [hheights, hlines]
    exact h
  · dsimp only [onMeasure]
    rw [onLayout_eq hspacing hspacing' hwithin]
    exact flow.pairwise_places hspacing hspacing' h

/-- Two lines of two children, all of one height. -/
theorem neverOverlaps_evenChildren :
    NeverOverlaps {} (onMeasure {} ⟨.atMost, 20⟩ ⟨.atMost, 100⟩
      (List.replicate 4 ⟨.visible, 10, 5, by decide, by decide⟩)).1 := by
  refine ((neverOverlaps_iff {} (by decide) (by decide) _ _ _).2 (by decide)).mpr ?_
  exact ⟨by decide, fun _ => by decide, trivial⟩

/-- Three children, each on a line of its own, and the middle one tallest. -/
def tallMiddle : List View :=
  [⟨.visible, 10, 1, by decide, by decide⟩, ⟨.visible, 10, 10, by decide, by decide⟩,
    ⟨.visible, 10, 1, by decide, by decide⟩]

theorem onLayout_tallMiddle :
    (onLayout {} (onMeasure {} ⟨.atMost, 10⟩ ⟨.atMost, 100⟩ tallMiddle).1).map Prod.snd =
      [⟨0, 0, 10, 1⟩, ⟨0, 10, 10, 20⟩, ⟨0, 11, 10, 12⟩] := by
  decide

/-- The last child is put inside the second one. -/
theorem not_neverOverlaps_tallMiddle :
    ¬ ∀ (flow : FlowLayout), 0 ≤ flow.mHorizontalSpacing → 0 ≤ flow.mVerticalSpacing →
      ∀ (widthMeasureSpec heightMeasureSpec : MeasureSpec) (children : List View),
        flow.NeverOverlaps (flow.onMeasure widthMeasureSpec heightMeasureSpec children).1 := by
  intro hlaw
  have hseparate := List.pairwise_map.mpr (hlaw {} (by decide) (by decide) ⟨.atMost, 10⟩
    ⟨.atMost, 100⟩ tallMiddle).separate
  rw [onLayout_tallMiddle] at hseparate
  have hlast : Rect.Separate ⟨0, 10, 10, 20⟩ ⟨0, 11, 10, 12⟩ :=
    List.rel_of_pairwise_cons hseparate.of_cons (List.mem_singleton_self _)
  have hpoint : ((5, 23 / 2) : ℝ × ℝ) ∈ Rect.interior ⟨0, 10, 10, 20⟩ := by
    simp only [Rect.interior, Set.mem_prod, Set.mem_Ioo]
    norm_num
  have hpoint' : ((5, 23 / 2) : ℝ × ℝ) ∈ Rect.interior ⟨0, 11, 10, 12⟩ := by
    simp only [Rect.interior, Set.mem_prod, Set.mem_Ioo]
    norm_num
  exact hlast _ hpoint hpoint'

end FlowLayout

/-! ## The measured size -/

/-- The height from the top of a later line to the bottom of the last one, as the lines are
recorded and stacked. -/
def stackHeight (spacing : ℤ) : List (Line View) → ℤ
  | [] => 0
  | [line] => tallest View.measuredHeight line.others
  | line :: next :: rest =>
      (max (tallest View.measuredHeight line.others) next.first.measuredHeight : ℕ) + spacing +
        stackHeight spacing (next :: rest)

/-- Every child that starts a line is no taller than the stack from its line on. -/
def StartersFit (spacing : ℤ) : List (Line View) → Prop
  | [] => True
  | line :: rest => line.first.measuredHeight ≤ stackHeight spacing (line :: rest) ∧
      StartersFit spacing rest

section Stack

variable {flow : FlowLayout}

theorem sum_chargedHeights_later (spacing : ℤ) (line : Line View) (rest : List (Line View)) :
    ((chargedHeights 0 line.others rest).sum : ℕ) + spacing * rest.length =
      stackHeight spacing (line :: rest) := by
  induction rest generalizing line with
  | nil => simp [chargedHeights, stackHeight]
  | cons next rest ih =>
      rw [stackHeight, ← ih next, chargedHeights, List.sum_cons, List.length_cons,
        Nat.zero_max]
      push_cast
      ring

theorem tallest_le_stackHeight {spacing : ℤ} (hspacing : 0 ≤ spacing) (line : Line View)
    (rest : List (Line View)) :
    (tallest View.measuredHeight line.others : ℤ) ≤ stackHeight spacing (line :: rest) := by
  induction rest generalizing line with
  | nil => exact le_refl _
  | cons next rest ih =>
      have hnext := ih next
      rw [stackHeight]
      omega

theorem forall_bottom_placeLine {top left bound : ℤ} {line : List View} :
    (∀ placed ∈ flow.placeLine top left line, placed.2.bottom ≤ bound) ↔
      ∀ child ∈ line, top + child.measuredHeight ≤ bound := by
  induction line generalizing left with
  | nil => simp [FlowLayout.placeLine]
  | cons child rest ih =>
      rw [FlowLayout.placeLine, List.forall_mem_cons, List.forall_mem_cons, ih]

/-- Of a later line only its first child can reach below the stack. -/
theorem forall_bottom_toList (hspacing : 0 ≤ flow.mVerticalSpacing.toInt) (line : Line View)
    (rest : List (Line View)) (top left : ℤ) :
    (∀ placed ∈ flow.placeLine top left line.toList,
      placed.2.bottom ≤ top + stackHeight flow.mVerticalSpacing.toInt (line :: rest)) ↔
      line.first.measuredHeight ≤ stackHeight flow.mVerticalSpacing.toInt (line :: rest) := by
  have hothers := tallest_le_stackHeight hspacing line rest
  rw [forall_bottom_placeLine, Line.toList, List.forall_mem_cons, add_le_add_iff_left,
    and_iff_left]
  intro child hchild
  have hheight : child.measuredHeight ≤ tallest View.measuredHeight line.others :=
    le_tallest hchild
  omega

/-- The later lines stay within their stack exactly when the children that start them
do. -/
theorem forall_bottom_later (hspacing : 0 ≤ flow.mVerticalSpacing.toInt) (line : Line View)
    (rest : List (Line View)) (top : ℤ) :
    (∀ placed ∈ flow.placeLines top
        ((line.toList :: rest.map Line.toList).zip (chargedHeights 0 line.others rest)),
      placed.2.bottom ≤ top + stackHeight flow.mVerticalSpacing.toInt (line :: rest)) ↔
      StartersFit flow.mVerticalSpacing.toInt (line :: rest) := by
  induction rest generalizing line top with
  | nil =>
      rw [StartersFit, StartersFit, and_true,
        ← forall_bottom_toList hspacing line [] top flow.paddingLeft.toInt]
      simp only [List.map_nil, chargedHeights, List.zip_cons_cons, List.zip_nil_left,
        FlowLayout.placeLines, List.append_nil]
  | cons next rest ih =>
      rw [StartersFit, ← forall_bottom_toList hspacing line (next :: rest) top
          flow.paddingLeft.toInt, ← ih next (top +
            ((max (tallest View.measuredHeight line.others) next.first.measuredHeight : ℕ) +
              flow.mVerticalSpacing.toInt))]
      simp only [List.map_cons, chargedHeights, List.zip_cons_cons, FlowLayout.placeLines,
        List.forall_mem_append, stackHeight, Nat.zero_max, add_assoc]

/-- All lines stay within the sum of the recorded heights and the spacings between them
exactly when the children that start the later ones do. -/
theorem forall_bottom_iff (hspacing : 0 ≤ flow.mVerticalSpacing.toInt) (line : List View)
    (lines : List (Line View)) (top : ℤ) :
    (∀ placed ∈ flow.placeLines top
        ((line :: lines.map Line.toList).zip (chargedHeights 0 line lines)),
      placed.2.bottom ≤ top + (((chargedHeights 0 line lines).sum : ℕ) +
        flow.mVerticalSpacing.toInt * lines.length)) ↔
      StartersFit flow.mVerticalSpacing.toInt lines := by
  cases lines with
  | nil =>
      simp only [List.map_nil, chargedHeights, List.zip_cons_cons, List.zip_nil_left,
        FlowLayout.placeLines, List.append_nil, StartersFit, iff_true]
      rw [forall_bottom_placeLine]
      intro child hchild
      have hheight : child.measuredHeight ≤ tallest View.measuredHeight line :=
        le_tallest hchild
      simp
      omega
  | cons next rest =>
      have hnext := tallest_le_stackHeight hspacing next rest
      have htotal : (((chargedHeights 0 line (next :: rest)).sum : ℕ) : ℤ) +
          flow.mVerticalSpacing.toInt * (next :: rest).length =
            (max (tallest View.measuredHeight line) next.first.measuredHeight : ℕ) +
              flow.mVerticalSpacing.toInt +
                stackHeight flow.mVerticalSpacing.toInt (next :: rest) := by
        rw [← sum_chargedHeights_later, chargedHeights, List.sum_cons, List.length_cons,
          Nat.zero_max]
        push_cast
        ring
      have hline : ∀ placed ∈ flow.placeLine top flow.paddingLeft.toInt line,
          placed.2.bottom ≤ top +
            ((max (tallest View.measuredHeight line) next.first.measuredHeight : ℕ) +
              flow.mVerticalSpacing.toInt +
                stackHeight flow.mVerticalSpacing.toInt (next :: rest)) := by
        apply forall_bottom_placeLine.mpr
        intro child hchild
        have hheight : child.measuredHeight ≤ tallest View.measuredHeight line :=
          le_tallest hchild
        omega
      rw [htotal, ← forall_bottom_later hspacing next rest (top +
        ((max (tallest View.measuredHeight line) next.first.measuredHeight : ℕ) +
          flow.mVerticalSpacing.toInt)), chargedHeights, List.map_cons, List.zip_cons_cons,
        FlowLayout.placeLines, List.forall_mem_append, and_iff_right hline, Nat.zero_max]
      simp only [add_assoc]

/-- Every rectangle is one of a line that starts at the left padding. -/
theorem inLine_of_mem_placeLines (hspacing : 0 ≤ flow.mHorizontalSpacing.toInt) {top : ℤ}
    {lines : List (List View × ℕ)} {placed : View × Rect}
    (h : placed ∈ flow.placeLines top lines) :
    ∃ entry ∈ lines, ∃ top', InLine flow top' flow.paddingLeft.toInt entry.1 placed := by
  induction lines generalizing top with
  | nil => cases h
  | cons entry rest ih =>
      rcases List.mem_append.mp h with hline | hrest
      · exact ⟨entry, by simp, top, inLine_of_mem hspacing hline⟩
      · obtain ⟨entry', hentry', top, hin⟩ := ih hrest
        exact ⟨entry', List.mem_cons_of_mem _ hentry', top, hin⟩

end Stack

namespace FlowLayout

variable (flow : FlowLayout)

/-- The width of a line with the paddings. -/
def neededWidth (line : List View) : ℤ :=
  flow.paddingLeft.toInt + flow.paddingRight.toInt + flow.rowWidth line

/-- The height of some lines with the spacings between them and the paddings. -/
def neededHeight (linesHeight : List ℕ) : ℤ :=
  flow.paddingTop.toInt + (linesHeight.sum : ℕ) +
    flow.mVerticalSpacing.toInt * (linesHeight.length - 1) + flow.paddingBottom.toInt

/-- The measured height is that of the recorded lines with the spacings between them, the
measured width that of the widest line, and the rectangles lie between the paddings. -/
structure PassesAgree (pass : Pass) (realWidth realHeight : Int32) : Prop where
  height : realHeight.toInt = flow.neededHeight pass.linesHeight
  width_ge : ∀ line ∈ pass.allLines, flow.neededWidth line ≤ realWidth.toInt
  width_eq : ∃ line ∈ pass.allLines, realWidth.toInt = flow.neededWidth line
  horizontal : ∀ placed ∈ flow.onLayout pass, flow.paddingLeft.toInt ≤ placed.2.left ∧
    placed.2.right ≤ realWidth.toInt - flow.paddingRight.toInt
  vertical : ∀ placed ∈ flow.onLayout pass, flow.paddingTop.toInt ≤ placed.2.top ∧
    placed.2.bottom ≤ realHeight.toInt - flow.paddingBottom.toInt

/-- The last child starts a line only where lines are not spaced, and negative paddings do not
outweigh the widest line. -/
structure AgreesOn (selfWidth : Int32) (children : List View) : Prop where
  spacing : endsAlone (flow.rows selfWidth children).2 = true → flow.mVerticalSpacing = 0
  paddings : ∃ line ∈ flow.rowLists selfWidth children, 0 ≤ flow.neededWidth line

/-- The sizes and the places are numbers that an `Int` can be. -/
structure Representable (selfWidth : Int32) (children : List View) : Prop where
  places : WithinInt (flow.places selfWidth children)
  widths : ∀ line ∈ flow.rowLists selfWidth children,
    -2 ^ 31 ≤ flow.neededWidth line ∧ flow.neededWidth line < 2 ^ 31
  height : -2 ^ 31 ≤ flow.neededHeight
      (chargedHeights 0 (flow.rows selfWidth children).1 (flow.rows selfWidth children).2) ∧
    flow.neededHeight (chargedHeights 0 (flow.rows selfWidth children).1
      (flow.rows selfWidth children).2) < 2 ^ 31

section Agreement

variable {flow} {selfWidth : Int32} {children : List View}

theorem toInt_max (a b : Int32) : (max a b).toInt = max a.toInt b.toInt := by
  show (if a ≤ b then b else a).toInt = max a.toInt b.toInt
  by_cases h : a ≤ b
  · rw [if_pos h, max_eq_right (Int32.le_iff_toInt_le.mp h)]
  · rw [if_neg h, max_eq_left]
    rw [Int32.le_iff_toInt_le] at h
    omega

theorem toInt_foldl_max (first : Int32) (widths : List Int32) :
    (widths.foldl max first).toInt = (widths.map Int32.toInt).foldl max first.toInt := by
  induction widths generalizing first with
  | nil => rfl
  | cons width widths ih => rw [List.foldl_cons, ih, toInt_max, List.map_cons, List.foldl_cons]

/-- What the loop computes for a line, up to the range of `Int`. -/
theorem toInt_widthOf (line : List View) :
    (flow.widthOf flow.paddingLeft line).toInt = (flow.neededWidth line).bmod (2 ^ 32) := by
  rw [widthOf, Int32.toInt_sub, Int32.toInt_add, toInt_foldl_advance, Int.bmod_add_bmod,
    Int.bmod_sub_bmod, neededWidth]
  congr 1
  ring

/-- The measured width is the greatest of all lines and of 0. -/
theorem toInt_parentNeededWidth (hcloses : lastCloses children = true) :
    (flow.measureLines selfWidth children).parentNeededWidth.toInt =
      ((flow.rowLists selfWidth children).map fun line =>
        (flow.neededWidth line).bmod (2 ^ 32)).foldl max 0 := by
  rw [(flow.measures_measureLines selfWidth children).width hcloses, toInt_foldl_max, toInt_max,
    List.map_map]
  rw [rowLists, List.map_cons, List.foldl_cons, List.map_map]
  congr 1
  · exact congrArg (max 0) (toInt_widthOf _)
  · exact List.map_congr_left fun line _ => toInt_widthOf _

/-- The measured width is 0 or the greatest width of a line with the paddings. -/
theorem parentNeededWidth_eq (hcloses : lastCloses children = true)
    (hwidths : ∀ line ∈ flow.rowLists selfWidth children,
      -2 ^ 31 ≤ flow.neededWidth line ∧ flow.neededWidth line < 2 ^ 31) :
    ∃ widest, (flow.measureLines selfWidth children).parentNeededWidth.toInt = max 0 widest ∧
      (∃ line ∈ flow.rowLists selfWidth children, widest = flow.neededWidth line) ∧
      ∀ line ∈ flow.rowLists selfWidth children, flow.neededWidth line ≤ widest := by
  have hrows : (flow.measureLines selfWidth children).parentNeededWidth.toInt =
      ((flow.rowLists selfWidth children).map flow.neededWidth).foldl max 0 := by
    rw [toInt_parentNeededWidth hcloses]
    congr 1
    refine List.map_congr_left fun line hline => ?_
    obtain ⟨hle, hlt⟩ := hwidths line hline
    exact Int.bmod_eq_of_le (by omega) (by omega)
  obtain ⟨widest, hmax⟩ : ∃ widest,
      ((flow.rowLists selfWidth children).map flow.neededWidth).max? = some widest := ⟨_, rfl⟩
  obtain ⟨hmem, hle⟩ := List.max?_eq_some_iff.mp hmax
  refine ⟨widest, ?_, ?_, ?_⟩
  · rw [hrows, List.foldl_max, hmax, Option.getD_some]
  · obtain ⟨line, hline, heq⟩ := List.mem_map.mp hmem
    exact ⟨line, hline, heq.symm⟩
  · intro line hline
    exact hle _ (List.mem_map_of_mem hline)

theorem parentNeededWidth_nonneg (hcloses : lastCloses children = true) :
    0 ≤ (flow.measureLines selfWidth children).parentNeededWidth.toInt := by
  rw [toInt_parentNeededWidth hcloses, List.foldl_max]
  exact le_max_left _ _

theorem neededHeight_linesHeight (hcloses : lastCloses children = true) :
    flow.neededHeight (flow.measureLines selfWidth children).linesHeight =
      flow.neededHeight
        (chargedHeights 0 (flow.rows selfWidth children).1 (flow.rows selfWidth children).2) := by
  rw [linesHeight_of_lastCloses hcloses]

/-- The measured height, up to the range of `Int`: a spacing is missing where the last child
starts a line. -/
theorem toInt_parentNeededHeight (hcloses : lastCloses children = true) :
    (flow.measureLines selfWidth children).parentNeededHeight.toInt =
      (flow.neededHeight (chargedHeights 0 (flow.rows selfWidth children).1
          (flow.rows selfWidth children).2) -
        if endsAlone (flow.rows selfWidth children).2 then flow.mVerticalSpacing.toInt
        else 0).bmod (2 ^ 32) := by
  have hsum (heights lines : ℕ) (alone : ℤ) :
      (flow.paddingTop + flow.paddingBottom + .ofNat heights +
          flow.mVerticalSpacing * .ofInt (lines - alone)).toInt =
        (flow.paddingTop.toInt + heights +
          flow.mVerticalSpacing.toInt * ((lines + 1 : ℕ) - 1) + flow.paddingBottom.toInt -
            flow.mVerticalSpacing.toInt * alone).bmod (2 ^ 32) := by
    refine Eq.trans (congrArg Int32.toInt ?_) Int32.toInt_ofInt
    simp only [Int32.ofInt_add, Int32.ofInt_sub, Int32.ofInt_mul, Int32.ofInt_toInt,
      Int32.ofInt_eq_ofNat, Nat.cast_add, Nat.cast_one]
    grind
  rw [(flow.measures_measureLines selfWidth children).height hcloses, start, neededHeight,
    length_chargedHeights]
  cases endsAlone (flow.rows selfWidth children).2 with
  | true =>
      have hone := hsum (chargedHeights 0 (flow.rows selfWidth children).1
        (flow.rows selfWidth children).2).sum (flow.rows selfWidth children).2.length 1
      rw [mul_one] at hone
      exact hone
  | false =>
      have hzero := hsum (chargedHeights 0 (flow.rows selfWidth children).1
        (flow.rows selfWidth children).2).sum (flow.rows selfWidth children).2.length 0
      rw [mul_zero] at hzero
      exact hzero

/-- The measured height is right only where no spacing is missing. -/
theorem spacing_of_height (hcloses : lastCloses children = true)
    (hspacing' : 0 ≤ flow.mVerticalSpacing.toInt)
    (h : (flow.measureLines selfWidth children).parentNeededHeight.toInt =
      flow.neededHeight (chargedHeights 0 (flow.rows selfWidth children).1
        (flow.rows selfWidth children).2))
    (hends : endsAlone (flow.rows selfWidth children).2 = true) : flow.mVerticalSpacing = 0 := by
  rw [toInt_parentNeededHeight hcloses, hends, if_pos rfl] at h
  have hless := flow.mVerticalSpacing.toInt_lt
  obtain ⟨rounds, hrounds⟩ := Int.dvd_self_sub_bmod (x := flow.neededHeight (chargedHeights 0
    (flow.rows selfWidth children).1 (flow.rows selfWidth children).2) -
      flow.mVerticalSpacing.toInt) (m := 2 ^ 32)
  rw [h] at hrounds
  rw [← Int32.toInt_inj, Int32.toInt_zero]
  omega

theorem parentNeededHeight_eq (hcloses : lastCloses children = true)
    (hspacing : endsAlone (flow.rows selfWidth children).2 = true → flow.mVerticalSpacing = 0)
    (hrange : flow.Representable selfWidth children) :
    (flow.measureLines selfWidth children).parentNeededHeight.toInt =
      flow.neededHeight (chargedHeights 0 (flow.rows selfWidth children).1
        (flow.rows selfWidth children).2) := by
  obtain ⟨hle, hlt⟩ := hrange.height
  have hnone : (if endsAlone (flow.rows selfWidth children).2 then flow.mVerticalSpacing.toInt
      else 0) = 0 := by
    split
    · rename_i hends
      rw [hspacing hends]
      rfl
    · rfl
  rw [toInt_parentNeededHeight hcloses, hnone, sub_zero]
  exact Int.bmod_eq_of_le (by omega) (by omega)

/-- With the measured height as it should be, the places fit it exactly when the children that
start lines do. -/
theorem vertical_iff (hcloses : lastCloses children = true)
    (hspacing : 0 ≤ flow.mHorizontalSpacing.toInt) (hspacing' : 0 ≤ flow.mVerticalSpacing.toInt)
    {realHeight : ℤ} (hheight : realHeight = flow.neededHeight (chargedHeights 0
      (flow.rows selfWidth children).1 (flow.rows selfWidth children).2)) :
    (∀ placed ∈ flow.places selfWidth children, flow.paddingTop.toInt ≤ placed.2.top ∧
      placed.2.bottom ≤ realHeight - flow.paddingBottom.toInt) ↔
      StartersFit flow.mVerticalSpacing.toInt (flow.rows selfWidth children).2 := by
  rw [← forall_bottom_iff hspacing' _ _ flow.paddingTop.toInt, places, hcloses]
  have hbound : realHeight - flow.paddingBottom.toInt = flow.paddingTop.toInt +
      (((chargedHeights 0 (flow.rows selfWidth children).1
          (flow.rows selfWidth children).2).sum : ℕ) +
        flow.mVerticalSpacing.toInt * (flow.rows selfWidth children).2.length) := by
    rw [hheight, neededHeight, length_chargedHeights]
    push_cast
    ring
  rw [hbound]
  constructor
  · exact fun h placed hplaced => (h placed hplaced).2
  · intro h placed hplaced
    exact ⟨le_top_of_mem_placeLines hspacing hspacing' hplaced, h placed hplaced⟩

/-- A measured width that is at least that of every line holds all places. -/
theorem horizontal_of_width_ge (hspacing : 0 ≤ flow.mHorizontalSpacing.toInt)
    (hcloses : lastCloses children = true) {realWidth : ℤ}
    (hwidth : ∀ line ∈ flow.rowLists selfWidth children, flow.neededWidth line ≤ realWidth) :
    ∀ placed ∈ flow.places selfWidth children, flow.paddingLeft.toInt ≤ placed.2.left ∧
      placed.2.right ≤ realWidth - flow.paddingRight.toInt := by
  intro placed hplaced
  rw [places, hcloses] at hplaced
  obtain ⟨entry, hentry, top, hin⟩ := inLine_of_mem_placeLines hspacing hplaced
  have hline := hwidth entry.1 (List.of_mem_zip hentry).1
  have hright := hin.right
  rw [neededWidth] at hline
  exact ⟨hin.left, by linarith⟩

end Agreement

/-- For visible children and a size that is not given, the two passes agree only where the last
child does not start a spaced line and the paddings leave a width; and within `Int` they agree
exactly when besides the children that start lines fit. -/
theorem passesAgree_iff (hspacing : 0 ≤ flow.mHorizontalSpacing)
    (hspacing' : 0 ≤ flow.mVerticalSpacing) (widthMeasureSpec heightMeasureSpec : MeasureSpec)
    (hwidth : widthMeasureSpec.mode ≠ .exactly) (hheight : heightMeasureSpec.mode ≠ .exactly)
    (children : List View) (hchildren : children ≠ [])
    (hvisible : ∀ child ∈ children, child.visibility ≠ .gone) :
    (flow.PassesAgree (flow.onMeasure widthMeasureSpec heightMeasureSpec children).1
        (flow.onMeasure widthMeasureSpec heightMeasureSpec children).2.1
        (flow.onMeasure widthMeasureSpec heightMeasureSpec children).2.2 →
      flow.AgreesOn widthMeasureSpec.size children) ∧
    (flow.Representable widthMeasureSpec.size children →
      (flow.PassesAgree (flow.onMeasure widthMeasureSpec heightMeasureSpec children).1
          (flow.onMeasure widthMeasureSpec heightMeasureSpec children).2.1
          (flow.onMeasure widthMeasureSpec heightMeasureSpec children).2.2 ↔
        flow.AgreesOn widthMeasureSpec.size children ∧
          StartersFit flow.mVerticalSpacing.toInt
            (flow.rows widthMeasureSpec.size children).2)) := by
  rw [Int32.le_iff_toInt_le, Int32.toInt_zero] at hspacing hspacing'
  have hcloses : lastCloses children = true := by
    rw [lastCloses, List.getLast?_eq_some_getLast hchildren]
    simpa using hvisible _ (List.getLast_mem hchildren)
  have hlines := @allLines_of_lastCloses flow widthMeasureSpec.size children hcloses
  have hheights := @neededHeight_linesHeight flow widthMeasureSpec.size children hcloses
  simp only [onMeasure, if_neg hwidth, if_neg hheight]
  have hagrees (h : flow.PassesAgree (flow.measureLines widthMeasureSpec.size children)
      (flow.measureLines widthMeasureSpec.size children).parentNeededWidth
      (flow.measureLines widthMeasureSpec.size children).parentNeededHeight) :
      flow.AgreesOn widthMeasureSpec.size children := by
    refine ⟨spacing_of_height hcloses hspacing' (h.height.trans hheights), ?_⟩
    obtain ⟨line, hline, heq⟩ := h.width_eq
    rw [hlines] at hline
    exact ⟨line, hline, heq ▸ parentNeededWidth_nonneg hcloses⟩
  refine ⟨hagrees, fun hrange => ⟨fun h => ⟨hagrees h, ?_⟩, ?_⟩⟩
  · have hvertical := h.vertical
    rw [onLayout_eq hspacing hspacing' hrange.places] at hvertical
    exact (vertical_iff hcloses hspacing hspacing' (h.height.trans hheights)).mp hvertical
  · rintro ⟨h, hstarters⟩
    obtain ⟨widest, hneeded, ⟨line, hline, hwidest⟩, hle⟩ :=
      parentNeededWidth_eq hcloses hrange.widths
    have hformula := parentNeededHeight_eq hcloses h.spacing hrange
    obtain ⟨line', hline', hpositive⟩ := h.paddings
    have hmax : max 0 widest = widest := max_eq_right (le_trans hpositive (hle line' hline'))
    rw [hmax] at hneeded
    refine ⟨hformula.trans hheights.symm, ?_, ⟨line, hlines ▸ hline, hneeded.trans hwidest⟩, ?_, ?_⟩
    · rw [hlines, hneeded]
      exact hle
    · rw [onLayout_eq hspacing hspacing' hrange.places, hneeded]
      exact horizontal_of_width_ge hspacing hcloses hle
    · rw [onLayout_eq hspacing hspacing' hrange.places]
      exact (vertical_iff hcloses hspacing hspacing' hformula).mpr hstarters

/-- Four children of one size on two lines, with spacings and paddings. -/
theorem passesAgree_evenChildren :
    PassesAgree ⟨1, 1, 1, 1, 2, 3⟩
      (onMeasure ⟨1, 1, 1, 1, 2, 3⟩ ⟨.atMost, 24⟩ ⟨.atMost, 100⟩
        (List.replicate 4 ⟨.visible, 10, 5, by decide, by decide⟩)).1 24 15 := by
  have hagree := ((passesAgree_iff ⟨1, 1, 1, 1, 2, 3⟩ (by decide) (by decide) ⟨.atMost, 24⟩
    ⟨.atMost, 100⟩ (by decide) (by decide)
    (List.replicate 4 ⟨.visible, 10, 5, by decide, by decide⟩) (by decide) (by decide)).2
      ⟨by decide, by decide, by decide⟩).mpr
  exact hagree ⟨⟨by decide, ⟨_, List.mem_cons_self, by decide⟩⟩, by decide, trivial⟩

/-- With the last child on a line of its own, the spacing above it is not measured. -/
theorem not_passesAgree_endsAlone :
    ¬ ∀ (flow : FlowLayout), 0 ≤ flow.mHorizontalSpacing → 0 ≤ flow.mVerticalSpacing →
      ∀ (widthMeasureSpec heightMeasureSpec : MeasureSpec),
        widthMeasureSpec.mode ≠ .exactly → heightMeasureSpec.mode ≠ .exactly →
        ∀ children : List View, children ≠ [] →
          (∀ child ∈ children, child.visibility ≠ .gone ∧
            (child.measuredWidth : ℤ) ≤ flow.room widthMeasureSpec.size) →
          flow.PassesAgree (flow.onMeasure widthMeasureSpec heightMeasureSpec children).1
            (flow.onMeasure widthMeasureSpec heightMeasureSpec children).2.1
            (flow.onMeasure widthMeasureSpec heightMeasureSpec children).2.2 := by
  intro hlaw
  have hagree := hlaw ⟨0, 0, 0, 0, 0, 8⟩ (by decide) (by decide) ⟨.atMost, 10⟩ ⟨.atMost, 100⟩
    (by decide) (by decide)
    [⟨.visible, 10, 5, by decide, by decide⟩, ⟨.visible, 10, 5, by decide, by decide⟩] (by decide)
    (by decide)
  exact absurd hagree.height (by decide)

end FlowLayout

end StudyNotes.Flow
