/-
# UTF-16 code units

A string of the Java platform is a list of code units; nothing requires surrogates to come
in pairs.
-/

import Mathlib.Data.List.Basic

namespace StudyNotes.CodeUnits

/-- A string, by its code units. -/
abbrev Units := List UInt16

/-- The code unit of a character of the basic plane. -/
def unit (c : Char) : UInt16 := UInt16.ofNat c.toNat

/-- The value of a hexadecimal digit of either case. -/
def hexValue (c : UInt16) : Option ℕ :=
  if unit '0' ≤ c ∧ c ≤ unit '9' then some (c.toNat - (unit '0').toNat)
  else if unit 'a' ≤ c ∧ c ≤ unit 'f' then some (10 + c.toNat - (unit 'a').toNat)
  else if unit 'A' ≤ c ∧ c ≤ unit 'F' then some (10 + c.toNat - (unit 'A').toNat)
  else none

/-- A hexadecimal digit. -/
def IsHex (c : UInt16) : Prop := (hexValue c).isSome

instance : DecidablePred IsHex := fun c => inferInstanceAs (Decidable ((hexValue c).isSome = true))

/-- What is checked of every unit of a list holds of each. -/
theorem forall_mem_of_all {l : Units} {P : UInt16 → Prop} [DecidablePred P]
    (h : l.all fun c => P c) : ∀ c ∈ l, P c := by
  simpa using h

theorem hexValue_lt {c : UInt16} {digit : ℕ} (h : hexValue c = some digit) : digit < 16 := by
  simp only [hexValue, UInt16.le_iff_toNat_le] at h
  have h0 : (unit '0').toNat = 48 := rfl
  have h9 : (unit '9').toNat = 57 := rfl
  have ha : (unit 'a').toNat = 97 := rfl
  have hf : (unit 'f').toNat = 102 := rfl
  have hA : (unit 'A').toNat = 65 := rfl
  have hF : (unit 'F').toNat = 70 := rfl
  split_ifs at h <;> cases h <;> omega

end StudyNotes.CodeUnits
