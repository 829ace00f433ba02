/-
# Machine integers

Sums, differences, products and quotients of 32-bit integers as integers: they are exact
where they fit, and sums are off by one turn of the circle elsewhere.
-/

import Mathlib.Algebra.Group.Int.Defs
import Mathlib.Algebra.Group.Nat.Defs

namespace StudyNotes.Machine

variable {a b : Int32}

/-- A number that fits is not negative. -/
theorem ofNat_nonneg {k : ℕ} (hk : k < 2 ^ 31) : (0 : Int32) ≤ .ofNat k := by
  rw [Int32.le_iff_toInt_le, Int32.toInt_ofNat_of_lt hk]
  exact Int.natCast_nonneg k

/-- A sum is exact, or too large and one turn below, or too small and one turn above. -/
theorem toInt_add_cases (a b : Int32) :
    (a + b).toInt = a.toInt + b.toInt ∨
      2 ^ 31 ≤ a.toInt + b.toInt ∧ (a + b).toInt = a.toInt + b.toInt - 2 ^ 32 ∨
      a.toInt + b.toInt < -2 ^ 31 ∧ (a + b).toInt = a.toInt + b.toInt + 2 ^ 32 := by
  have ha := a.toInt_lt
  have ha' := a.le_toInt
  have hb := b.toInt_lt
  have hb' := b.le_toInt
  rw [Int32.toInt_add, Int.bmod_def]
  omega

/-- A sum of two numbers that are not negative is exact, unless it is negative. -/
theorem toInt_add_of_nonneg (ha : 0 ≤ a.toInt) (hb : 0 ≤ b.toInt) (hab : 0 ≤ (a + b).toInt) :
    (a + b).toInt = a.toInt + b.toInt := by
  have ha' := a.toInt_lt
  have hb' := b.toInt_lt
  have hcases := toInt_add_cases a b
  omega

/-- An index counted from a start that is not negative is exact where it fits. -/
theorem toInt_add_ofNat {k : ℕ} (ha : 0 ≤ a.toInt) (h : a.toInt + k < 2 ^ 31) :
    (a + .ofNat k).toInt = a.toInt + k := by
  have hk : (Int32.ofNat k).toInt = k := Int32.toInt_ofNat_of_lt (by omega)
  have hcases := toInt_add_cases a (.ofNat k)
  omega

/-- The difference of two numbers that are not negative is exact. -/
theorem toInt_sub_of_nonneg (ha : 0 ≤ a.toInt) (hb : 0 ≤ b.toInt) :
    (a - b).toInt = a.toInt - b.toInt := by
  have ha' := a.toInt_lt
  have hb' := b.toInt_lt
  rw [Int32.toInt_sub, Int.bmod_def]
  omega

/-- Only the least number is its own opposite beyond 0. -/
theorem toInt_neg_of_nonneg (ha : 0 ≤ a.toInt) : (-a).toInt = -a.toInt := by
  have ha' := a.toInt_lt
  rw [Int32.toInt_neg, Int.bmod_def]
  omega

/-- A product that fits is exact. -/
theorem toInt_mul_of_fits (h : 0 ≤ a.toInt * b.toInt) (h' : a.toInt * b.toInt < 2 ^ 31) :
    (a * b).toInt = a.toInt * b.toInt := by
  rw [Int32.toInt_mul, Int.bmod_def]
  omega

/-- Truncated division rounds down above 0. -/
theorem toInt_div_of_nonneg (ha : 0 ≤ a.toInt) (hb : 0 < b.toInt) :
    (a / b).toInt = a.toInt / b.toInt := by
  have hb' : b ≠ -1 := by
    rintro rfl
    exact absurd hb (by decide)
  rw [Int32.toInt_div_of_ne_right a b hb', Int.tdiv_eq_ediv_of_nonneg ha]

theorem toInt_mod_of_nonneg (ha : 0 ≤ a.toInt) : (a % b).toInt = a.toInt % b.toInt := by
  rw [Int32.toInt_mod, Int.tmod_eq_emod_of_nonneg ha]

end StudyNotes.Machine
