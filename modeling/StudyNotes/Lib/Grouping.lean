/-
# Maps of lists

A map whose values are lists, filled one value at a time: the value goes to the
end of the list of its key, which is created with the first value.  Under a key
stand the values filed there, in order, and no list is empty.
-/

import Mathlib.Data.List.AList

namespace StudyNotes.Grouping

variable {κ α β : Type} [DecidableEq κ]

/-- Values by their keys. -/
abbrev Groups (κ α : Type) := AList fun _ : κ => List α

/-- The values under a key. -/
def members (m : Groups κ α) (k : κ) : List α := (m.lookup k).getD []

/-- Filing a value. -/
def add (m : Groups κ α) (k : κ) (x : α) : Groups κ α := m.insert k (members m k ++ [x])

/-- No key stands there without a value. -/
def NoEmpty (m : Groups κ α) : Prop := ∀ k, m.lookup k ≠ some []

theorem members_add (m : Groups κ α) (k k' : κ) (x : α) :
    members (add m k x) k' = members m k' ++ if k = k' then [x] else [] := by
  by_cases h : k = k'
  · subst h
    simp [members, add]
  · simp [members, add, AList.lookup_insert_ne (Ne.symm h), h]

theorem NoEmpty.add {m : Groups κ α} (hm : NoEmpty m) (k : κ) (x : α) :
    NoEmpty (Grouping.add m k x) := by
  intro k'
  by_cases h : k' = k
  · subst h
    simp [Grouping.add]
  · rw [Grouping.add, AList.lookup_insert_ne h]
    exact hm k'

/-- The entries are the keys with a value, each with its list. -/
theorem NoEmpty.mem_entries_iff {m : Groups κ α} (hm : NoEmpty m) {k : κ} {xs : List α} :
    (⟨k, xs⟩ : Sigma fun _ : κ => List α) ∈ m.entries ↔ xs = members m k ∧ members m k ≠ [] := by
  rw [← AList.mem_lookup_iff, Option.mem_def, members]
  cases h : m.lookup k with
  | none => simp
  | some l =>
      have hl : l ≠ [] := fun hnil => hm k (by rw [h, hnil])
      simp only [Option.some.injEq, Option.getD_some, ne_eq, hl, not_false_iff, and_true]
      exact eq_comm

/-! ## Filing a list -/

section

variable (key : β → κ) (value : β → α)

/-- Filing a list of values under their keys. -/
def addAll (m : Groups κ α) (xs : List β) : Groups κ α :=
  xs.foldl (fun m x => add m (key x) (value x)) m

theorem members_addAll (m : Groups κ α) (xs : List β) (k : κ) :
    members (addAll key value m xs) k =
      members m k ++ (xs.filter (key · = k)).map value := by
  induction xs generalizing m with
  | nil => simp [addAll]
  | cons x xs ih =>
      rw [addAll, List.foldl_cons, ← addAll, ih, members_add, List.filter_cons]
      by_cases h : key x = k
      · simp [h]
      · simp [h]

theorem NoEmpty.addAll {m : Groups κ α} (hm : NoEmpty m) (xs : List β) :
    NoEmpty (addAll key value m xs) := by
  induction xs generalizing m with
  | nil => exact hm
  | cons x xs ih => exact ih (hm.add (key x) (value x))

theorem noEmpty_empty : NoEmpty (∅ : Groups κ α) := by
  intro k
  simp

end

end StudyNotes.Grouping
