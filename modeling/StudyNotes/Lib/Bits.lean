/-
# Numbers as bits

A number of a given width is written as a list of bits, the most significant one first.
Reading such a list back as a number undoes it, and the parts of a list are the quotient
and the remainder of its number.
-/

import Mathlib.Algebra.Group.Nat.Defs
import Mathlib.Data.List.Basic
import Mathlib.Tactic.Ring

namespace StudyNotes.Bits

/-- The lowest bits of a number. -/
def toBits : ℕ → ℕ → List Bool
  | 0, _ => []
  | width + 1, value => decide (value / 2 ^ width % 2 = 1) :: toBits width value

/-- The number that a list of bits stands for, on top of what was read before. -/
def ofBitsFrom (value : ℕ) (bits : List Bool) : ℕ :=
  bits.foldl (fun value bit => 2 * value + bit.toNat) value

def ofBits (bits : List Bool) : ℕ := ofBitsFrom 0 bits

/-- The bits of some bytes. -/
def ofBytes (bytes : List UInt8) : List Bool := bytes.flatMap fun byte => toBits 8 byte.toNat

@[simp] theorem length_toBits (width value : ℕ) : (toBits width value).length = width := by
  induction width with
  | zero => rfl
  | succ width ih => rw [toBits, List.length_cons, ih]

@[simp] theorem length_ofBytes (bytes : List UInt8) :
    (ofBytes bytes).length = 8 * bytes.length := by
  induction bytes with
  | nil => rfl
  | cons byte bytes ih =>
      rw [ofBytes, List.flatMap_cons, List.length_append, length_toBits, List.length_cons]
      show 8 + (ofBytes bytes).length = _
      omega

theorem ofBytes_append (first second : List UInt8) :
    ofBytes (first ++ second) = ofBytes first ++ ofBytes second := List.flatMap_append

theorem ofBitsFrom_eq (value : ℕ) (bits : List Bool) :
    ofBitsFrom value bits = value * 2 ^ bits.length + ofBits bits := by
  induction bits generalizing value with
  | nil => simp [ofBitsFrom, ofBits]
  | cons bit bits ih =>
      have hstep (v : ℕ) : ofBitsFrom v (bit :: bits) = ofBitsFrom (2 * v + bit.toNat) bits := rfl
      rw [ofBits, hstep, hstep, ih, ih (2 * 0 + bit.toNat), List.length_cons, Nat.pow_succ]
      ring

theorem ofBits_cons (bit : Bool) (bits : List Bool) :
    ofBits (bit :: bits) = bit.toNat * 2 ^ bits.length + ofBits bits := by
  have hstep : ofBits (bit :: bits) = ofBitsFrom (2 * 0 + bit.toNat) bits := rfl
  rw [hstep, ofBitsFrom_eq, Nat.mul_zero, Nat.zero_add]

theorem ofBits_append (first second : List Bool) :
    ofBits (first ++ second) = ofBits first * 2 ^ second.length + ofBits second := by
  have hstep : ofBits (first ++ second) = ofBitsFrom (ofBits first) second := List.foldl_append
  rw [hstep, ofBitsFrom_eq]

theorem ofBits_lt (bits : List Bool) : ofBits bits < 2 ^ bits.length := by
  induction bits with
  | nil => exact Nat.zero_lt_one
  | cons bit bits ih =>
      rw [ofBits_cons, List.length_cons, Nat.pow_succ]
      cases bit with
      | false => simp only [Bool.toNat_false]; omega
      | true => simp only [Bool.toNat_true]; omega

/-- What is above the width is lost. -/
theorem ofBits_toBits_mod (width value : ℕ) : ofBits (toBits width value) = value % 2 ^ width := by
  induction width with
  | zero => rw [toBits, Nat.pow_zero, Nat.mod_one]; rfl
  | succ width ih =>
      rw [toBits, ofBits_cons, length_toBits, ih, Nat.mod_pow_succ]
      have hbit := Nat.mod_two_eq_zero_or_one (value / 2 ^ width)
      rcases hbit with hbit | hbit
      · simp [hbit]
      · simp [hbit, Nat.add_comm]

theorem ofBits_toBits {width value : ℕ} (h : value < 2 ^ width) :
    ofBits (toBits width value) = value := by
  rw [ofBits_toBits_mod, Nat.mod_eq_of_lt h]

/-- Two numbers of one width that are equal have the same bits. -/
theorem eq_of_ofBits_eq {first second : List Bool} (hlength : first.length = second.length)
    (h : ofBits first = ofBits second) : first = second := by
  induction first generalizing second with
  | nil => exact (List.length_eq_zero_iff.mp hlength.symm).symm
  | cons bit first ih =>
      cases second with
      | nil => exact absurd hlength (Nat.succ_ne_zero _)
      | cons bit' second =>
          have hlength' : first.length = second.length := Nat.succ.inj hlength
          have hfirst := ofBits_lt first
          have hsecond := ofBits_lt second
          rw [ofBits_cons, ofBits_cons, hlength'] at h
          rw [hlength'] at hfirst
          have hbit : bit = bit' := by
            cases bit with
            | false =>
                cases bit' with
                | false => rfl
                | true => simp only [Bool.toNat_false, Bool.toNat_true] at h; omega
            | true =>
                cases bit' with
                | false => simp only [Bool.toNat_false, Bool.toNat_true] at h; omega
                | true => rfl
          subst hbit
          rw [ih hlength' (Nat.add_left_cancel h)]

theorem toBits_mod (width value : ℕ) : toBits width (value % 2 ^ width) = toBits width value := by
  refine eq_of_ofBits_eq ?_ ?_
  · rw [length_toBits, length_toBits]
  · rw [ofBits_toBits_mod, ofBits_toBits_mod, Nat.mod_mod]

theorem toBits_mod_of_le {width k : ℕ} (h : width ≤ k) (value : ℕ) :
    toBits width (value % 2 ^ k) = toBits width value := by
  rw [← toBits_mod, Nat.mod_mod_of_dvd _ (Nat.pow_dvd_pow 2 h), toBits_mod]

/-- The bits of a quotient, and then those of the remainder. -/
theorem toBits_add (high low value : ℕ) :
    toBits (high + low) value = toBits high (value / 2 ^ low) ++ toBits low value := by
  refine eq_of_ofBits_eq ?_ ?_
  · rw [List.length_append, length_toBits, length_toBits, length_toBits]
  · rw [ofBits_append, ofBits_toBits_mod, ofBits_toBits_mod, ofBits_toBits_mod, length_toBits,
      Nat.add_comm high low, Nat.pow_add, Nat.mod_mul]
    ring

/-- A number made of two parts. -/
theorem toBits_mul_add {high low value rest : ℕ} (hrest : rest < 2 ^ low) :
    toBits (high + low) (value * 2 ^ low + rest) = toBits high value ++ toBits low rest := by
  have hquotient : (value * 2 ^ low + rest) / 2 ^ low = value := by
    rw [Nat.add_comm, Nat.add_mul_div_right _ _ (Nat.two_pow_pos low), Nat.div_eq_of_lt hrest,
      Nat.zero_add]
  rw [toBits_add, hquotient]
  congr 1
  rw [← toBits_mod, Nat.add_comm, Nat.add_mul_mod_self_right, toBits_mod]

/-- The bytes of a number, the most significant one first. -/
def toBytes : ℕ → ℕ → List UInt8
  | 0, _ => []
  | count + 1, value => .ofNat (value / 2 ^ (8 * count)) :: toBytes count value

theorem ofBytes_cons (byte : UInt8) (bytes : List UInt8) :
    ofBytes (byte :: bytes) = toBits 8 byte.toNat ++ ofBytes bytes := List.flatMap_cons

theorem ofBytes_toBytes (count value : ℕ) :
    ofBytes (toBytes count value) = toBits (8 * count) value := by
  induction count with
  | zero => rfl
  | succ count ih =>
      rw [toBytes, ofBytes_cons, ih, Nat.mul_succ, Nat.add_comm, toBits_add, UInt8.toNat_ofNat',
        toBits_mod]

theorem toBits_zero (width : ℕ) : toBits width 0 = List.replicate width false := by
  induction width with
  | zero => rfl
  | succ width ih => rw [toBits, ih, Nat.zero_div, List.replicate_succ]; rfl

/-! ## Shifts of 32-bit words -/

section Word

variable (word : UInt32) {k : ℕ}

theorem toNat_ofNat_mod (hk : k < 32) : (UInt32.ofNat k).toNat % 32 = k := by
  have hword : (UInt32.ofNat k).toNat = k := UInt32.toNat_ofNat_of_lt (Nat.lt_trans hk (by decide))
  rw [hword, Nat.mod_eq_of_lt hk]

theorem toNat_shiftLeft (hk : k < 32) :
    (word <<< .ofNat k).toNat = word.toNat * 2 ^ k % 2 ^ 32 := by
  rw [UInt32.toNat_shiftLeft, toNat_ofNat_mod hk, Nat.shiftLeft_eq]

theorem toNat_shiftRight (hk : k < 32) : (word >>> .ofNat k).toNat = word.toNat / 2 ^ k := by
  rw [UInt32.toNat_shiftRight, toNat_ofNat_mod hk, Nat.shiftRight_eq_div_pow]

/-- Two numbers side by side. -/
theorem mul_or_eq_add {low rest : ℕ} (hrest : rest < 2 ^ low) (value : ℕ) :
    value * 2 ^ low ||| rest = value * 2 ^ low + rest := by
  rw [Nat.mul_comm, Nat.two_pow_add_eq_or_of_lt hrest]

/-- A byte goes below those that are there. -/
theorem ofNat_shiftLeft_or (value : ℕ) :
    UInt32.ofNat (value / 2 ^ 8) <<< 8 ||| UInt32.ofNat (value % 2 ^ 8) = UInt32.ofNat value := by
  have hbyte : value % 2 ^ 8 < 2 ^ 8 := Nat.mod_lt _ (Nat.two_pow_pos 8)
  have hshift : (UInt32.ofNat (value / 2 ^ 8) <<< 8).toNat = value / 2 ^ 8 % 2 ^ 24 * 2 ^ 8 := by
    have hshift := toNat_shiftLeft (UInt32.ofNat (value / 2 ^ 8)) (show 8 < 32 by decide)
    rw [show (32 : ℕ) = 24 + 8 by decide, Nat.pow_add, Nat.mul_mod_mul_right,
      UInt32.toNat_ofNat', Nat.mod_mod_of_dvd _ (Nat.pow_dvd_pow 2 (show 24 ≤ 32 by decide))]
      at hshift
    exact hshift
  have hlow : (UInt32.ofNat (value % 2 ^ 8)).toNat = value % 2 ^ 8 := by
    rw [UInt32.toNat_ofNat']
    omega
  rw [← UInt32.toNat_inj, UInt32.toNat_or, hshift, hlow, mul_or_eq_add hbyte,
    UInt32.toNat_ofNat']
  omega

end Word

end StudyNotes.Bits
