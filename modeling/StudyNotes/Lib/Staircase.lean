/-
# Walking down a staircase

A grid of values that ascend along every row and every column is searched from its upper
right corner.  What is left of the grid is given by its top row and its right end: a corner
above the target rules out its column, a corner below it rules out its row.
-/

import Mathlib.Data.Nat.Notation

namespace StudyNotes.Staircase

/-- A grid of values, in ascending order to the right and downwards. -/
structure Grid (α : Type) [LE α] where
  rows : ℕ
  columns : ℕ
  cell : ℕ → ℕ → α
  cell_le_right : ∀ {i j k}, i < rows → j ≤ k → k < columns → cell i j ≤ cell i k
  cell_le_down : ∀ {i k j}, i ≤ k → k < rows → j < columns → cell i j ≤ cell k j

namespace Grid

variable {α : Type} [LE α] (grid : Grid α)

/-- The target is in the part from row `top` on, left of column `right`. -/
def Occurs (target : α) (top right : ℕ) : Prop :=
  ∃ i j, top ≤ i ∧ i < grid.rows ∧ j < right ∧ grid.cell i j = target

variable {grid} {target : α} {top right : ℕ}

theorem not_occurs_of_rows_le (h : grid.rows ≤ top) : ¬ grid.Occurs target top right := by
  rintro ⟨i, j, htop, hrow, -, -⟩
  omega

theorem not_occurs_zero : ¬ grid.Occurs target top 0 := by
  rintro ⟨i, j, -, -, hright, -⟩
  omega

section Corner

variable [LT α] [Std.IsPreorder α] [Std.LawfulOrderLT α]

/-- The corner is too large, and so is everything below it. -/
theorem occurs_succ_iff_of_lt (hright : right < grid.columns) (h : target < grid.cell top right) :
    grid.Occurs target top (right + 1) ↔ grid.Occurs target top right := by
  constructor
  · rintro ⟨i, j, htop, hrow, hj, hcell⟩
    refine ⟨i, j, htop, hrow, Nat.lt_of_le_of_ne (Nat.le_of_lt_succ hj) ?_, hcell⟩
    rintro rfl
    have hdown := grid.cell_le_down htop hrow hright
    rw [hcell] at hdown
    exact Std.lt_irrefl (Std.lt_of_lt_of_le h hdown)
  · rintro ⟨i, j, htop, hrow, hj, hcell⟩
    exact ⟨i, j, htop, hrow, Nat.lt_succ_of_lt hj, hcell⟩

/-- The corner is too small, and so is everything left of it. -/
theorem occurs_top_iff_of_lt (hright : right < grid.columns) (h : grid.cell top right < target) :
    grid.Occurs target top (right + 1) ↔ grid.Occurs target (top + 1) (right + 1) := by
  constructor
  · rintro ⟨i, j, htop, hrow, hj, hcell⟩
    refine ⟨i, j, Nat.lt_of_le_of_ne htop ?_, hrow, hj, hcell⟩
    rintro rfl
    have hleft := grid.cell_le_right hrow (Nat.le_of_lt_succ hj) hright
    rw [hcell] at hleft
    exact Std.lt_irrefl (Std.lt_of_le_of_lt hleft h)
  · rintro ⟨i, j, htop, hrow, hj, hcell⟩
    exact ⟨i, j, Nat.le_of_succ_le htop, hrow, hj, hcell⟩

end Corner

end Grid

end StudyNotes.Staircase
