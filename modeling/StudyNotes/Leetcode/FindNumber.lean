/-
# Searching a sorted matrix

`findNumberIn2DArray` starts in the upper right corner of a matrix whose rows and columns
ascend, and moves left or down.  What it has left behind does not hold the target, so the
answer it ends with is right for the whole matrix.
-/

import Mathlib.Algebra.Group.Int.Defs
import Mathlib.Data.List.Forall2
import Mathlib.Data.List.GetD
import StudyNotes.Lib.Staircase

namespace StudyNotes.Leetcode

open StudyNotes.Staircase

/-! ## The search -/

/-- `array[index]`, where a read outside the array is none. -/
def arrayGet {α : Type} (array : List α) (index : ℤ) : Option α :=
  if 0 ≤ index then array[index.toNat]? else none

/-- The loop.  Where `num` is neither the target nor above it, it is below. -/
def search (matrix : List (List Int32)) (target : Int32) (row column : ℤ) : Option Bool :=
  if row < matrix.length ∧ column ≥ 0 then do
    let line ← arrayGet matrix row
    let num ← arrayGet line column
    if num = target then some true
    else if num > target then search matrix target row (column - 1)
    else search matrix target (row + 1) column
  else some false
termination_by (matrix.length - row).toNat + (column + 1).toNat

def findNumberIn2DArray (matrix : List (List Int32)) (target : Int32) : Option Bool :=
  if matrix.isEmpty then some false
  else do
    let first ← arrayGet matrix 0
    if first.isEmpty then some false
    else search matrix target 0 (first.length - 1)

/-! ## Sorted matrices -/

/-- A rectangular matrix whose rows and columns do not descend. -/
structure SortedMatrix where
  rows : List (List Int32)
  columns : ℕ
  rectangular : ∀ row ∈ rows, row.length = columns
  rowSorted : ∀ row ∈ rows, row.Pairwise (· ≤ ·)
  columnSorted : rows.Pairwise (List.Forall₂ (· ≤ ·))

namespace SortedMatrix

variable (matrix : SortedMatrix)

/-- The target is a value of the matrix. -/
def Contains (target : Int32) : Prop := ∃ row ∈ matrix.rows, target ∈ row

instance (target : Int32) : Decidable (matrix.Contains target) :=
  inferInstanceAs (Decidable (∃ row ∈ matrix.rows, target ∈ row))

/-- The value in a cell, and 0 outside. -/
def entry (i j : ℕ) : Int32 := (matrix.rows.getD i []).getD j 0

variable {matrix} {i j k : ℕ}

theorem length_row (hi : i < matrix.rows.length) : matrix.rows[i].length = matrix.columns :=
  matrix.rectangular _ (List.getElem_mem hi)

theorem entry_eq (hi : i < matrix.rows.length) (hj : j < matrix.rows[i].length) :
    matrix.entry i j = matrix.rows[i][j] := by
  rw [entry, List.getD_eq_getElem _ _ hi, List.getD_eq_getElem _ _ hj]

theorem entry_le_right (hi : i < matrix.rows.length) (hjk : j ≤ k) (hk : k < matrix.columns) :
    matrix.entry i j ≤ matrix.entry i k := by
  rw [← length_row hi] at hk
  rw [entry_eq hi (Nat.lt_of_le_of_lt hjk hk), entry_eq hi hk]
  rcases Nat.eq_or_lt_of_le hjk with rfl | hlt
  · exact Int32.le_refl _
  · have hsorted := matrix.rowSorted _ (List.getElem_mem hi)
    exact List.pairwise_iff_getElem.mp hsorted j k _ hk hlt

theorem entry_le_down (hik : i ≤ k) (hk : k < matrix.rows.length) (hj : j < matrix.columns) :
    matrix.entry i j ≤ matrix.entry k j := by
  rcases Nat.eq_or_lt_of_le hik with rfl | hlt
  · exact Int32.le_refl _
  · have hi : i < matrix.rows.length := Nat.lt_trans hlt hk
    have hrows := List.pairwise_iff_getElem.mp matrix.columnSorted i k hi hk hlt
    have hji : j < matrix.rows[i].length := by rwa [length_row hi]
    have hjk : j < matrix.rows[k].length := by rwa [length_row hk]
    rw [entry_eq hi hji, entry_eq hk hjk]
    exact hrows.get hji hjk

/-- The matrix as a grid. -/
def grid (matrix : SortedMatrix) : Grid Int32 where
  rows := matrix.rows.length
  columns := matrix.columns
  cell i j := matrix.entry i j
  cell_le_right := entry_le_right
  cell_le_down := entry_le_down

/-- The whole grid holds what the matrix contains. -/
theorem contains_iff {target : Int32} :
    matrix.Contains target ↔ matrix.grid.Occurs target 0 matrix.columns := by
  constructor
  · rintro ⟨row, hrow, hmem⟩
    obtain ⟨i, hi, rfl⟩ := List.getElem_of_mem hrow
    obtain ⟨j, hj, rfl⟩ := List.getElem_of_mem hmem
    refine ⟨i, j, Nat.zero_le i, hi, ?_, ?_⟩
    · rwa [length_row hi] at hj
    · exact entry_eq hi hj
  · rintro ⟨i, j, -, hi, hj, hcell⟩
    have hi : i < matrix.rows.length := hi
    have hj : j < matrix.rows[i].length := by rwa [length_row hi]
    have hentry : matrix.entry i j = target := hcell
    rw [entry_eq hi hj] at hentry
    exact ⟨_, List.getElem_mem hi, hentry ▸ List.getElem_mem hj⟩

/-- Every read of the loop is inside. -/
theorem arrayGet_entry (hi : i < matrix.rows.length) (hj : j < matrix.columns) :
    ∃ line, arrayGet matrix.rows i = some line ∧ arrayGet line j = some (matrix.entry i j) := by
  have hj' : j < matrix.rows[i].length := by rwa [length_row hi]
  refine ⟨matrix.rows[i], ?_, ?_⟩
  · simp [arrayGet, hi]
  · simp [arrayGet, hj', entry_eq hi hj']

/-! ## Every matrix and every target -/

/-- From any corner the loop answers for what is left. -/
theorem search_eq (target : Int32) (top right : ℕ) (hright : right ≤ matrix.columns) :
    ∃ answer, search matrix.rows target top (right - 1) = some answer ∧
      (answer = true ↔ matrix.grid.Occurs target top right) := by
  generalize hleft : matrix.rows.length - top + right = left
  induction left using Nat.strongRecOn generalizing top right with
  | ind left ih =>
      rw [search]
      by_cases hinside : top < matrix.rows.length ∧ 0 < right
      · obtain ⟨htop, hpos⟩ := hinside
        obtain ⟨right, rfl⟩ := Nat.exists_eq_succ_of_ne_zero (Nat.ne_of_gt hpos)
        have hcolumn : ((right + 1 : ℕ) : ℤ) - 1 = right := by omega
        obtain ⟨line, hline, hnum⟩ := arrayGet_entry htop hright
        rw [hcolumn, if_pos ⟨by omega, by omega⟩]
        simp only [hline, hnum, Option.bind_eq_bind, Option.bind_some]
        by_cases hfound : matrix.entry top right = target
        · rw [if_pos hfound]
          refine ⟨true, rfl, iff_of_true rfl ⟨top, right, Nat.le_refl top, htop, ?_, hfound⟩⟩
          exact Nat.lt_succ_self right
        · rw [if_neg hfound]
          by_cases habove : matrix.entry top right > target
          · have hcorner : target < matrix.grid.cell top right := habove
            rw [if_pos habove, Grid.occurs_succ_iff_of_lt hright hcorner]
            exact ih _ (by omega) top right (Nat.le_of_succ_le hright) rfl
          · have hcorner : matrix.grid.cell top right < target :=
              Int32.lt_of_le_of_ne (Int32.not_lt.mp habove) hfound
            rw [if_neg habove, Grid.occurs_top_iff_of_lt hright hcorner]
            have hnext := ih _ (by omega) (top + 1) (right + 1) hright rfl
            rwa [hcolumn, Int.natCast_succ] at hnext
      · rw [if_neg (by omega)]
        refine ⟨false, rfl, iff_of_false Bool.false_ne_true ?_⟩
        rcases Nat.lt_or_ge top matrix.rows.length with htop | htop
        · obtain rfl : right = 0 := by omega
          exact Grid.not_occurs_zero
        · exact Grid.not_occurs_of_rows_le htop

end SortedMatrix

/-- The search ends, reads cells of the matrix only, and finds exactly what is there. -/
theorem findNumberIn2DArray_eq (matrix : SortedMatrix) (target : Int32) :
    findNumberIn2DArray matrix.rows target =
      some (decide (∃ row ∈ matrix.rows, target ∈ row)) := by
  have hcontains : (∃ row ∈ matrix.rows, target ∈ row) ↔
      matrix.grid.Occurs target 0 matrix.columns := SortedMatrix.contains_iff
  rw [findNumberIn2DArray]
  cases hrows : matrix.rows with
  | nil => simp
  | cons first rest =>
      have hfirst : first.length = matrix.columns :=
        matrix.rectangular first (by rw [hrows]; exact List.mem_cons_self)
      have hget : arrayGet (first :: rest) 0 = some first := rfl
      rw [← hrows] at hget ⊢
      rw [if_neg (by simp [hrows]), hget]
      simp only [Option.bind_eq_bind, Option.bind_some]
      by_cases hempty : first.isEmpty = true
      · have hcolumns : matrix.columns = 0 := by
          rw [← hfirst, List.isEmpty_iff.mp hempty, List.length_nil]
        rw [hcolumns] at hcontains
        rw [if_pos hempty, decide_eq_false fun h => Grid.not_occurs_zero (hcontains.mp h)]
      · rw [if_neg hempty, hfirst]
        obtain ⟨answer, hsearch, hanswer⟩ :=
          matrix.search_eq target 0 matrix.columns (Nat.le_refl _)
        rw [Int.natCast_zero] at hsearch
        rw [hsearch, Option.some.injEq, Bool.eq_iff_iff, decide_eq_true_iff, hanswer, hcontains]

/-- A value on three diagonals. -/
def diagonals : SortedMatrix where
  rows := [[1, 2, 2], [2, 2, 5]]
  columns := 3
  rectangular := by decide
  rowSorted := by decide
  columnSorted := by decide

theorem findNumberIn2DArray_eq_diagonals :
    findNumberIn2DArray [[1, 2, 2], [2, 2, 5]] 2 = some true ∧
      findNumberIn2DArray [[1, 2, 2], [2, 2, 5]] 5 = some true ∧
      findNumberIn2DArray [[1, 2, 2], [2, 2, 5]] 4 = some false :=
  ⟨(findNumberIn2DArray_eq diagonals 2).trans (congrArg some (by decide)),
    (findNumberIn2DArray_eq diagonals 5).trans (congrArg some (by decide)),
    (findNumberIn2DArray_eq diagonals 4).trans (congrArg some (by decide))⟩

end StudyNotes.Leetcode
