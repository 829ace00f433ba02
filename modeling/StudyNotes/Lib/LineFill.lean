/-
# Filling lines greedily

Items are set one after another; an item that does not fit what is left of its line starts
the next one.  What fits is up to a test on the part of a line that is used, which every item
advances.  Filling goes on from a line of which some part is used, so its result is what still
goes on that line and the later lines, each with the item that started it.  Items are neither
lost nor reordered, and an item joins a line only where the test has let it.
-/

import Mathlib.Algebra.BigOperators.Group.List.Basic
import Mathlib.Tactic.Linarith
import Mathlib.Tactic.Ring

namespace StudyNotes.LineFill

variable {α : Type*}

/-- A line that some item has started. -/
structure Line (α : Type*) where
  first : α
  others : List α

def Line.toList (line : Line α) : List α := line.first :: line.others

section Fill

variable {U : Type*} (fits : U → α → Bool) (advance : U → α → U) (start : U)

/-- What goes on the current line after `used`, and the later lines. -/
def fill : U → List α → List α × List (Line α)
  | _, [] => ([], [])
  | used, x :: xs =>
      if fits used x then
        let rest := fill (advance used x) xs
        (x :: rest.1, rest.2)
      else
        let rest := fill (advance start x) xs
        ([], ⟨x, rest.1⟩ :: rest.2)

variable {fits advance start} {used : U} {x : α} {xs : List α}

theorem fill_of_fits (h : fits used x = true) :
    fill fits advance start used (x :: xs) =
      (x :: (fill fits advance start (advance used x) xs).1,
        (fill fits advance start (advance used x) xs).2) :=
  if_pos h

theorem fill_of_not_fits (h : ¬ fits used x = true) :
    fill fits advance start used (x :: xs) =
      ([], ⟨x, (fill fits advance start (advance start x) xs).1⟩ ::
        (fill fits advance start (advance start x) xs).2) :=
  if_neg h

/-- The current line is left as it is exactly when the first item does not fit. -/
theorem fill_fst_ne_nil_iff :
    (fill fits advance start used (x :: xs)).1 ≠ [] ↔ fits used x = true := by
  by_cases h : fits used x = true
  · simp [fill_of_fits h, h]
  · simp [fill_of_not_fits h, h]

/-- Items are neither lost nor reordered. -/
theorem fill_flatten (used : U) (xs : List α) :
    (fill fits advance start used xs).1 ++
      ((fill fits advance start used xs).2.map Line.toList).flatten = xs := by
  induction xs generalizing used with
  | nil => rfl
  | cons x xs ih =>
      by_cases h : fits used x = true
      · rw [fill_of_fits h]
        simpa using ih _
      · rw [fill_of_not_fits h, List.map_cons, List.flatten_cons, Line.toList]
        simpa using ih _

/-- The last item on the current line fitted behind those before. -/
theorem fits_of_fill_fst {line : List α} {last : α}
    (h : (fill fits advance start used xs).1 = line ++ [last]) :
    fits (line.foldl advance used) last = true := by
  induction xs generalizing used line with
  | nil => exact absurd h (by simp [fill])
  | cons x xs ih =>
      by_cases hx : fits used x = true
      · rw [fill_of_fits hx] at h
        cases line with
        | nil =>
            obtain ⟨rfl, -⟩ := List.cons.inj h
            exact hx
        | cons y line =>
            obtain ⟨rfl, hrest⟩ := List.cons.inj h
            show fits (line.foldl advance (advance used x)) last = true
            exact ih hrest
      · rw [fill_of_not_fits hx] at h
        exact absurd h (by simp)

/-- The last item on a later line fitted, if it has not started the line. -/
theorem fits_of_fill_snd {line : Line α} (hline : line ∈ (fill fits advance start used xs).2)
    {before : List α} {last : α} (hothers : line.others = before ++ [last]) :
    fits (before.foldl advance (advance start line.first)) last = true := by
  induction xs generalizing used with
  | nil => cases hline
  | cons x xs ih =>
      by_cases hx : fits used x = true
      · rw [fill_of_fits hx] at hline
        exact ih hline
      · rw [fill_of_not_fits hx] at hline
        rcases List.mem_cons.mp hline with rfl | hlater
        · exact fits_of_fill_fst hothers
        · exact ih hlater

end Fill

/-! ## Widths -/

section Width

variable (width : α → ℤ) (gap : ℤ)

/-- The widths of the items of a line with the gaps between them. -/
def lineWidth (line : List α) : ℤ :=
  (line.map width).sum + gap * (line.length - 1)

variable {width gap}

/-- A line without items has no neighbours to keep apart, which counts as one gap less. -/
theorem lineWidth_nil : lineWidth width gap ([] : List α) = -gap := by
  simp [lineWidth]

theorem lineWidth_cons (x : α) (line : List α) :
    lineWidth width gap (x :: line) = width x + gap + lineWidth width gap line := by
  simp only [lineWidth, List.map_cons, List.sum_cons, List.length_cons, Nat.cast_add,
    Nat.cast_one]
  ring

theorem lineWidth_append_singleton (line : List α) (x : α) :
    lineWidth width gap (line ++ [x]) = lineWidth width gap line + gap + width x := by
  induction line with
  | nil =>
      rw [List.nil_append, lineWidth_cons, lineWidth_nil]
      ring
  | cons y line ih =>
      rw [List.cons_append, lineWidth_cons, lineWidth_cons, ih]
      ring

end Width

/-! ## Heights -/

/-- The largest height of a line, 0 for the empty one. -/
def tallest (height : α → ℕ) (line : List α) : ℕ :=
  (line.map height).foldr max 0

@[simp]
theorem tallest_nil (height : α → ℕ) : tallest height [] = 0 := rfl

@[simp]
theorem tallest_cons (height : α → ℕ) (x : α) (line : List α) :
    tallest height (x :: line) = max (height x) (tallest height line) := rfl

theorem le_tallest {height : α → ℕ} {x : α} {line : List α} (h : x ∈ line) :
    height x ≤ tallest height line := by
  induction line with
  | nil => cases h
  | cons y line ih =>
      rw [tallest_cons]
      rcases List.mem_cons.mp h with rfl | hmem
      · exact le_max_left _ _
      · exact le_trans (ih hmem) (le_max_right _ _)

end StudyNotes.LineFill
