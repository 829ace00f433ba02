/-
# Cyclic redundancy checks

A register is shifted by one bit at a time, and where a bit falls out at the upper end the
polynomial is subtracted.  Shifting is linear, so the effect of a whole byte can be kept in
a table: the byte that falls out, together with the next byte of the message, says what is
subtracted in the course of its eight bits.
-/

import Mathlib.Logic.Function.Iterate

namespace StudyNotes.Crc

variable {n : ℕ} (polynomial : BitVec (n + 8))

/-- The register moves by one bit. -/
def shiftBit (crc : BitVec (n + 8)) : BitVec (n + 8) :=
  if crc.msb then (crc <<< 1) ^^^ polynomial else crc <<< 1

/-- The register takes in a byte of the message and moves by its eight bits. -/
def divideByte (crc : BitVec (n + 8)) (byte : BitVec 8) : BitVec (n + 8) :=
  (shiftBit polynomial)^[8] (crc ^^^ (byte.setWidth (n + 8) <<< n))

/-- The register moves by a byte with the help of a table. -/
def lookUpByte (table : BitVec 8 → BitVec (n + 8)) (crc : BitVec (n + 8)) (byte : BitVec 8) :
    BitVec (n + 8) :=
  (crc <<< 8) ^^^ table ((crc >>> n).setWidth 8 ^^^ byte)

variable {polynomial}

theorem shiftBit_xor (a b : BitVec (n + 8)) :
    shiftBit polynomial (a ^^^ b) = shiftBit polynomial a ^^^ shiftBit polynomial b := by
  have hmsb : (a ^^^ b).msb = (a.msb ^^ b.msb) := BitVec.msb_xor
  have hshift : (a ^^^ b) <<< 1 = (a <<< 1) ^^^ (b <<< 1) := BitVec.shiftLeft_xor_distrib a b 1
  rw [shiftBit, shiftBit, shiftBit, hmsb, hshift]
  cases a.msb with
  | false =>
      cases b.msb with
      | false => rfl
      | true => exact BitVec.xor_assoc _ _ _
  | true =>
      cases b.msb with
      | false =>
          show (a <<< 1 ^^^ b <<< 1) ^^^ polynomial = (a <<< 1 ^^^ polynomial) ^^^ b <<< 1
          rw [BitVec.xor_assoc, BitVec.xor_assoc, BitVec.xor_comm (b <<< 1)]
      | true =>
          show a <<< 1 ^^^ b <<< 1 = (a <<< 1 ^^^ polynomial) ^^^ (b <<< 1 ^^^ polynomial)
          rw [BitVec.xor_assoc, ← BitVec.xor_assoc polynomial, BitVec.xor_comm polynomial,
            BitVec.xor_assoc, BitVec.xor_self, BitVec.xor_zero]

theorem iterate_shiftBit_xor (k : ℕ) (a b : BitVec (n + 8)) :
    (shiftBit polynomial)^[k] (a ^^^ b) =
      (shiftBit polynomial)^[k] a ^^^ (shiftBit polynomial)^[k] b := by
  induction k generalizing a b with
  | zero => rfl
  | succ k ih =>
      rw [Function.iterate_succ_apply, Function.iterate_succ_apply, Function.iterate_succ_apply,
        shiftBit_xor, ih]

/-- Where the upper eight bits are 0, nothing is subtracted. -/
theorem iterate_shiftBit_low {low : BitVec (n + 8)} (hlow : ∀ i, n ≤ i → low.getLsbD i = false)
    {k : ℕ} (hk : k ≤ 8) : (shiftBit polynomial)^[k] low = low <<< k := by
  induction k with
  | zero => exact (BitVec.shiftLeft_zero low).symm
  | succ k ih =>
      have hmsb : (low <<< k).msb = false := by
        rw [BitVec.msb_eq_getLsbD_last, BitVec.getLsbD_shiftLeft, hlow _ (by omega), Bool.and_false]
      rw [Function.iterate_succ_apply', ih (by omega), shiftBit, hmsb, if_neg Bool.false_ne_true,
        BitVec.shiftLeft_add]

/-- The table of the eight bits of every byte does what the single bits do. -/
theorem lookUpByte_eq {table : BitVec 8 → BitVec (n + 8)}
    (htable : ∀ byte, table byte = (shiftBit polynomial)^[8] (byte.setWidth (n + 8) <<< n))
    (crc : BitVec (n + 8)) (byte : BitVec 8) :
    lookUpByte table crc byte = divideByte polynomial crc byte := by
  have hsplit : crc ^^^ (byte.setWidth (n + 8) <<< n) =
      ((crc >>> n).setWidth 8 ^^^ byte).setWidth (n + 8) <<< n ^^^ (crc <<< 8) >>> 8 := by
    refine BitVec.eq_of_getLsbD_eq fun i hi => ?_
    simp only [BitVec.getLsbD_xor, BitVec.getLsbD_shiftLeft, BitVec.getLsbD_setWidth,
      BitVec.getLsbD_ushiftRight]
    by_cases hlow : i < n
    · have hcrc : 8 + i < n + 8 := by omega
      simp [hlow, hcrc]
    · have hcrc : ¬8 + i < n + 8 := by omega
      have hbyte : i - n < 8 := by omega
      have hwide : i - n < n + 8 := by omega
      simp [hlow, hcrc, hi, hbyte, hwide, Nat.add_sub_cancel' (Nat.not_lt.mp hlow)]
  have hzero : ∀ i, n ≤ i → ((crc <<< 8) >>> 8).getLsbD i = false := by
    intro i hi
    have hhigh : ¬8 + i < n + 8 := by omega
    rw [BitVec.getLsbD_ushiftRight, BitVec.getLsbD_shiftLeft]
    simp [hhigh]
  have hback : (crc <<< 8) >>> 8 <<< 8 = crc <<< 8 := by
    refine BitVec.eq_of_getLsbD_eq fun i hi => ?_
    simp only [BitVec.getLsbD_shiftLeft, BitVec.getLsbD_ushiftRight]
    by_cases hlow : i < 8
    · simp [hlow]
    · simp [hlow, hi, Nat.add_sub_cancel' (Nat.not_lt.mp hlow)]
  rw [divideByte, hsplit, iterate_shiftBit_xor, iterate_shiftBit_low hzero (Nat.le_refl 8), hback,
    lookUpByte, htable, BitVec.xor_comm]

end StudyNotes.Crc
