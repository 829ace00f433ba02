/-
# Canonical prefix codes

The lengths of the code words fix the code: words of one length are consecutive numbers in
the order of their symbols, and the first word of a length follows, one bit longer, the
last one of the length before.  So a word is told from the longer ones by its size, and the
place of a symbol among all symbols, ordered by length, is found by counting.
-/

import Mathlib.Algebra.BigOperators.Group.List.Basic
import Mathlib.Algebra.Group.Nat.Defs
import Mathlib.Tactic.Ring
import StudyNotes.Lib.CountingOrder

namespace StudyNotes.CanonicalCode

open StudyNotes.CountingOrder

variable (lengths : List ℕ)

/-- The first word of a length. -/
def first : ℕ → ℕ
  | 0 => 0
  | n + 1 => 2 * (first n + lengths.count n)

/-- The word of a symbol. -/
def word (n symbol : ℕ) : ℕ := first lengths n + earlier lengths n symbol

/-- What the lengths take up of all words with `limit` bits. -/
def kraft (limit : ℕ) (lengths : List ℕ) : ℕ := (lengths.map fun length => 2 ^ (limit - length)).sum

variable {lengths} {n m symbol : ℕ}

/-! ## Words of different lengths -/

theorem first_succ : first lengths (n + 1) = 2 * (first lengths n + lengths.count n) := rfl

/-- The words of a length, made longer, come before those that are longer. -/
theorem mul_pow_le_first (hlt : m < n) :
    (first lengths m + lengths.count m) * 2 ^ (n - m) ≤ first lengths n := by
  obtain ⟨k, rfl⟩ := Nat.exists_eq_add_of_lt hlt
  rw [show m + k + 1 - m = k + 1 by omega]
  clear hlt
  induction k with
  | zero => rw [Nat.add_zero, first_succ, Nat.mul_comm]; exact Nat.le_refl _
  | succ k ih =>
      calc (first lengths m + lengths.count m) * 2 ^ (k + 1 + 1)
          = 2 * ((first lengths m + lengths.count m) * 2 ^ (k + 1)) := by ring
        _ ≤ 2 * first lengths (m + k + 1) := Nat.mul_le_mul_left 2 ih
        _ ≤ 2 * (first lengths (m + k + 1) + lengths.count (m + k + 1)) :=
          Nat.mul_le_mul_left 2 (Nat.le_add_right _ _)
        _ = first lengths (m + (k + 1) + 1) := first_succ.symm

/-- The beginning of a word is no shorter word. -/
theorem le_word_div (hlt : m < n) :
    first lengths m + lengths.count m ≤ word lengths n symbol / 2 ^ (n - m) := by
  rw [Nat.le_div_iff_mul_le (Nat.two_pow_pos _)]
  exact Nat.le_trans (mul_pow_le_first hlt) (Nat.le_add_right _ _)

theorem first_eq_zero (hnone : ∀ length ∈ lengths, n ≤ length) : first lengths n = 0 := by
  induction n with
  | zero => rfl
  | succ n ih =>
      have hcount : lengths.count n = 0 := by
        rw [List.count_eq_zero]
        intro hmem
        exact absurd (hnone n hmem) (Nat.not_succ_le_self n)
      rw [first_succ, hcount, ih fun length hlength => Nat.le_of_succ_le (hnone length hlength)]

/-! ## The size of words -/

theorem kraft_cons (limit length : ℕ) (lengths : List ℕ) :
    kraft limit (length :: lengths) = 2 ^ (limit - length) + kraft limit lengths := List.sum_cons

theorem kraft_filter_succ (limit n : ℕ) (lengths : List ℕ) :
    kraft limit (lengths.filter fun length => decide (length < n + 1)) =
      kraft limit (lengths.filter fun length => decide (length < n)) +
        lengths.count n * 2 ^ (limit - n) := by
  induction lengths with
  | nil => simp [kraft]
  | cons length lengths ih =>
      rw [List.filter_cons, List.filter_cons, List.count_cons]
      simp only [decide_eq_true_eq, beq_iff_eq]
      by_cases hlt : length < n
      · rw [if_pos (by omega), if_pos hlt, if_neg (by omega), kraft_cons, kraft_cons, ih]
        ring
      · by_cases heq : length = n
        · rw [if_pos (by omega), if_neg hlt, if_pos heq, kraft_cons, ih, heq]
          ring
        · rw [if_neg (by omega), if_neg hlt, if_neg heq, ih, Nat.add_zero]

/-- The first word of a length counts what the shorter ones take up. -/
theorem first_mul_pow {limit : ℕ} (hn : n ≤ limit) :
    first lengths n * 2 ^ (limit - n) =
      kraft limit (lengths.filter fun length => decide (length < n)) := by
  induction n with
  | zero =>
      have hnone : lengths.filter (fun length => decide (length < 0)) = [] := by
        rw [List.filter_eq_nil_iff]
        intro length _
        simp
      rw [hnone]
      simp [first, kraft]
  | succ n ih =>
      have hpow : 2 * 2 ^ (limit - (n + 1)) = 2 ^ (limit - n) := by
        rw [show limit - n = limit - (n + 1) + 1 by omega, Nat.pow_succ']
      rw [kraft_filter_succ, ← ih (by omega), first_succ, Nat.mul_comm 2, Nat.mul_assoc, hpow,
        Nat.add_mul]

theorem kraft_filter_le (limit : ℕ) (p : ℕ → Bool) (lengths : List ℕ) :
    kraft limit (lengths.filter p) ≤ kraft limit lengths := by
  induction lengths with
  | nil => exact Nat.le_refl _
  | cons length lengths ih =>
      rw [List.filter_cons, kraft_cons]
      split
      · rw [kraft_cons]
        exact Nat.add_le_add_left ih _
      · exact Nat.le_trans ih (Nat.le_add_left _ _)

/-- Where the lengths do not take up too much, the words of a length fit into it. -/
theorem first_add_count_le {limit : ℕ} (hkraft : kraft limit lengths ≤ 2 ^ limit) (hn : n ≤ limit) :
    first lengths n + lengths.count n ≤ 2 ^ n := by
  have hle := kraft_filter_le limit (fun length => decide (length < n + 1)) lengths
  rw [kraft_filter_succ, ← first_mul_pow hn, ← Nat.add_mul] at hle
  refine Nat.le_of_mul_le_mul_right ?_ (Nat.two_pow_pos (limit - n))
  rw [← Nat.pow_add, Nat.add_sub_cancel' hn]
  exact Nat.le_trans hle hkraft

end StudyNotes.CanonicalCode
