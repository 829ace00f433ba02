/-
# Numbers with the digits one and two

Every number has exactly one list of digits in bijective base two, and the empty list is the
one of zero.  The digits come with the lowest first, so that they can be added up while they
are read.
-/

import Mathlib.Algebra.Group.Nat.Defs

namespace StudyNotes.BijectiveBinary

/-- The digits of a number. -/
def digits (n : ℕ) : List ℕ :=
  if n = 0 then [] else (if n % 2 = 0 then 2 else 1) :: digits ((n - 1) / 2)
termination_by n
decreasing_by omega

/-- The number of some digits. -/
def value : List ℕ → ℕ
  | [] => 0
  | digit :: rest => digit + 2 * value rest

variable {n : ℕ}

theorem digits_zero : digits 0 = [] := by rw [digits, if_pos rfl]

theorem digits_of_pos (hpos : 0 < n) :
    digits n = (if n % 2 = 0 then 2 else 1) :: digits ((n - 1) / 2) := by
  rw [digits, if_neg (Nat.ne_of_gt hpos)]

theorem value_digits (n : ℕ) : value (digits n) = n := by
  induction n using Nat.strongRecOn with
  | ind n ih =>
      rcases Nat.eq_zero_or_pos n with rfl | hpos
      · rw [digits_zero, value]
      · rw [digits_of_pos hpos, value, ih _ (by omega)]
        split <;> omega

theorem mem_digits {d : ℕ} (hd : d ∈ digits n) : d = 1 ∨ d = 2 := by
  induction n using Nat.strongRecOn with
  | ind n ih =>
      rcases Nat.eq_zero_or_pos n with rfl | hpos
      · rw [digits_zero] at hd
        exact absurd hd List.not_mem_nil
      · rw [digits_of_pos hpos, List.mem_cons] at hd
        rcases hd with hd | hd
        · rw [hd]
          split
          · exact Or.inr rfl
          · exact Or.inl rfl
        · exact ih _ (by omega) hd

/-- There are no more digits than a number is large. -/
theorem length_digits_le (n : ℕ) : (digits n).length ≤ n := by
  induction n using Nat.strongRecOn with
  | ind n ih =>
      rcases Nat.eq_zero_or_pos n with rfl | hpos
      · rw [digits_zero]
        exact Nat.le_refl 0
      · have hrest := ih ((n - 1) / 2) (by omega)
        rw [digits_of_pos hpos, List.length_cons]
        omega

/-- So many digits need a number that large. -/
theorem two_pow_length_le (n : ℕ) : 2 ^ (digits n).length ≤ n + 1 := by
  induction n using Nat.strongRecOn with
  | ind n ih =>
      rcases Nat.eq_zero_or_pos n with rfl | hpos
      · rw [digits_zero]
        exact Nat.le_refl 1
      · have hrest := ih ((n - 1) / 2) (by omega)
        rw [digits_of_pos hpos, List.length_cons, Nat.pow_succ]
        omega

end StudyNotes.BijectiveBinary
