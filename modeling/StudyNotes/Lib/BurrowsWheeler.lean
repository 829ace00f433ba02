/-
# Sorted rotations

The rotations of a text, sorted, and the column of their last symbols.  That column, taken
in the order of a stable sort, leads from each rotation to the next one: a row with its
last symbol in front is a rotation again, and rows that end in the same symbol keep their
order when it is put in front.  So the text can be read off by following that order from the
row where the text itself stands.
-/

import Mathlib.Data.List.Lex
import Mathlib.Data.List.Rotate
import Mathlib.Order.Lattice

namespace StudyNotes.BurrowsWheeler

variable {α : Type} [LinearOrder α]

/-- The last symbol goes to the front. -/
def unrotate (row : List α) : List α := row.getLast?.toList ++ row.dropLast

def rotations (text : List α) : List (List α) := (List.range text.length).map text.rotate

/-- Rows are the rotations of a text in order. -/
structure Sorted (text : List α) (rows : List (List α)) : Prop where
  perm : rows.Perm (rotations text)
  pairwise : rows.Pairwise (· ≤ ·)

/-- The symbols that the rows end in. -/
def LastColumn (rows : List (List α)) (column : List α) : Prop :=
  rows.map List.getLast? = column.map some

omit [LinearOrder α] in
theorem unrotate_concat (row : List α) (a : α) : unrotate (row ++ [a]) = a :: row := by
  rw [unrotate, List.getLast?_concat, List.dropLast_concat]
  rfl

omit [LinearOrder α] in
theorem unrotate_rotate_one (row : List α) : unrotate (row.rotate 1) = row := by
  cases row with
  | nil => rfl
  | cons a row => rw [List.rotate_cons_succ, List.rotate_zero, unrotate_concat]

omit [LinearOrder α] in
theorem rotate_one_unrotate (row : List α) : (unrotate row).rotate 1 = row := by
  cases hrow : row using List.reverseRecOn with
  | nil => rfl
  | append_singleton row a => rw [unrotate_concat, List.rotate_cons_succ, List.rotate_zero]

omit [LinearOrder α] in
/-- The rotations of a text are the rotations of its rotations. -/
theorem map_unrotate_perm (text : List α) :
    ((rotations text).map unrotate).Perm (rotations text) := by
  have hrotate : ((rotations text).map (·.rotate 1)).Perm (rotations text) := by
    have hend : text.rotate text.length = text.rotate 0 := by
      rw [List.rotate_length, List.rotate_zero]
    have hrange : text.rotate 0 :: (List.range text.length).map (fun k => text.rotate (k + 1)) =
        (List.range text.length).map text.rotate ++ [text.rotate text.length] := by
      have hmap := congrArg (List.map text.rotate)
        ((List.range_succ_eq_map (n := text.length)).symm.trans List.range_succ)
      rw [List.map_cons, List.map_map, List.map_append, List.map_singleton] at hmap
      exact hmap
    have hrows : (rotations text).map (·.rotate 1) =
        (List.range text.length).map fun k => text.rotate (k + 1) := by
      rw [rotations, List.map_map]
      exact List.map_congr_left fun k _ => List.rotate_rotate text k 1
    rw [hrows]
    refine List.Perm.cons_inv (a := text.rotate 0) ?_
    rw [hrange, hend]
    exact List.perm_append_singleton _ _
  have hback := (hrotate.map unrotate).symm
  rw [List.map_map] at hback
  have hid : (unrotate ∘ fun row : List α => row.rotate 1) = id := funext unrotate_rotate_one
  rw [hid, List.map_id] at hback
  exact hback

omit [LinearOrder α] in
theorem append_lt_append [LT α] {first second : List α} (hlength : first.length = second.length)
    (h : first < second) (a b : α) : first ++ [a] < second ++ [b] := by
  induction first generalizing second with
  | nil =>
      rw [List.length_eq_zero_iff.mp hlength.symm] at h
      exact absurd h (List.not_lt_nil [])
  | cons x first ih =>
      cases second with
      | nil => exact absurd h (List.not_lt_nil _)
      | cons y second =>
          rw [List.cons_append, List.cons_append, List.cons_lt_cons_iff]
          rcases List.cons_lt_cons_iff.mp h with hlt | ⟨rfl, hlt⟩
          · exact Or.inl hlt
          · exact Or.inr ⟨rfl, ih (Nat.succ.inj hlength) hlt⟩

/-- Rows of one length keep their order when their last symbols, in order, go to the front. -/
theorem unrotate_le {first second : List α} (hlength : first.length = second.length)
    {a b : α} (ha : first.getLast? = some a)
    (hb : second.getLast? = some b) (h : a < b ∨ a = b ∧ first ≤ second) :
    unrotate first ≤ unrotate second := by
  obtain ⟨row, rfl⟩ := List.getLast?_eq_some_iff.mp ha
  obtain ⟨row', rfl⟩ := List.getLast?_eq_some_iff.mp hb
  rw [unrotate_concat, unrotate_concat]
  refine not_lt.mp fun hlt => ?_
  rw [List.length_append, List.length_append] at hlength
  rcases List.cons_lt_cons_iff.mp hlt with hba | ⟨hba, hrow⟩
  · rcases h with hab | ⟨rfl, -⟩
    · exact absurd hab (not_lt_of_gt hba)
    · exact absurd hba (lt_irrefl _)
  · rcases h with hab | ⟨-, hle⟩
    · exact absurd (hba ▸ hab) (lt_irrefl _)
    · exact not_lt.mpr hle (append_lt_append (Nat.add_right_cancel hlength).symm hrow b a)

section Order

variable {text : List α} {rows : List (List α)} {order : List ℕ}

theorem Sorted.length_of_mem (h : Sorted text rows) {row : List α} (hrow : row ∈ rows) :
    row.length = text.length := by
  obtain ⟨k, -, rfl⟩ := List.mem_map.mp (h.perm.mem_iff.mp hrow)
  exact List.length_rotate text k

omit [LinearOrder α] in
theorem LastColumn.getLast? {column : List α} (h : LastColumn rows column) {i : ℕ} {a : α}
    (ha : column[i]? = some a) : ∃ row, rows[i]? = some row ∧ row.getLast? = some a := by
  have hget := congrArg (·[i]?) h
  rw [List.getElem?_map, List.getElem?_map, ha, Option.map_some, Option.map_eq_some_iff] at hget
  exact hget

/-- The order of a stable sort of the last symbols. -/
def Stable (column : List α) (order : List ℕ) : Prop :=
  order.Pairwise fun i j => ∃ a b, column[i]? = some a ∧ column[j]? = some b ∧
    (a < b ∨ a = b ∧ i < j)

variable {column : List α}

/-- The rows in the order of their last symbols, with these in front, are the rows. -/
theorem Sorted.map_unrotate_order (h : Sorted text rows) (hcolumn : LastColumn rows column)
    (horder : order.Perm (List.range rows.length)) (hstable : Stable column order) :
    order.map (fun i => unrotate (rows[i]?.getD [])) = rows := by
  have hperm : (order.map fun i => unrotate (rows[i]?.getD [])).Perm rows := by
    have hall : (List.range rows.length).map (fun i => unrotate (rows[i]?.getD [])) =
        rows.map unrotate := by
      refine List.ext_getElem? fun i => ?_
      rw [List.getElem?_map, List.getElem?_map]
      by_cases hi : i < rows.length
      · rw [List.getElem?_range hi, Option.map_some, List.getElem?_eq_getElem hi]
        rfl
      · rw [List.getElem?_eq_none (by rw [List.length_range]; omega),
          List.getElem?_eq_none (by omega)]
        rfl
    refine (horder.map _).trans ?_
    rw [hall]
    exact (h.perm.map _).trans ((map_unrotate_perm text).trans h.perm.symm)
  refine hperm.eq_of_pairwise (fun _ _ _ _ hle hge => le_antisymm hle hge) ?_ h.pairwise
  rw [List.pairwise_map]
  refine hstable.imp ?_
  rintro i j ⟨a, b, hi, hj, hlt⟩
  obtain ⟨row, hrow, ha⟩ := hcolumn.getLast? hi
  obtain ⟨row', hrow', hb⟩ := hcolumn.getLast? hj
  rw [hrow, hrow', Option.getD_some, Option.getD_some]
  have hlength : row.length = row'.length := by
    rw [h.length_of_mem (List.mem_of_getElem? hrow), h.length_of_mem (List.mem_of_getElem? hrow')]
  refine unrotate_le hlength ha hb (hlt.imp_right fun hboth => ⟨hboth.1, ?_⟩)
  obtain ⟨hi', rfl⟩ := List.getElem?_eq_some_iff.mp hrow
  obtain ⟨hj', rfl⟩ := List.getElem?_eq_some_iff.mp hrow'
  exact List.pairwise_iff_getElem.mp h.pairwise i j hi' hj' hboth.2

/-- Following the order goes from a rotation to the next one. -/
theorem Sorted.rows_order (h : Sorted text rows) (hcolumn : LastColumn rows column)
    (horder : order.Perm (List.range rows.length)) (hstable : Stable column order) {k i : ℕ}
    {row : List α} (hk : order[k]? = some i) (hrow : rows[k]? = some row) :
    rows[i]? = some (row.rotate 1) ∧ column[i]? = row.head? := by
  have hi : i < rows.length := List.mem_range.mp (horder.mem_iff.mp (List.mem_of_getElem? hk))
  have hrow' : unrotate rows[i] = row := by
    have hat := congrArg (·[k]?) (h.map_unrotate_order hcolumn horder hstable)
    rw [List.getElem?_map, hk, hrow, Option.map_some, List.getElem?_eq_getElem hi] at hat
    exact Option.some.inj hat
  have hlength : column.length = rows.length := by
    have hmap := congrArg List.length hcolumn
    rw [List.length_map, List.length_map] at hmap
    exact hmap.symm
  have hi' : i < column.length := by
    rw [hlength]
    exact hi
  refine ⟨?_, ?_⟩
  · rw [← hrow', rotate_one_unrotate, List.getElem?_eq_getElem hi]
  · obtain ⟨row'', hrow'', hlast⟩ := hcolumn.getLast? (List.getElem?_eq_getElem hi')
    rw [List.getElem?_eq_getElem hi] at hrow''
    obtain ⟨front, hfront⟩ := List.getLast?_eq_some_iff.mp hlast
    rw [← hrow', Option.some.inj hrow'', hfront, unrotate_concat, List.getElem?_eq_getElem hi',
      List.head?_cons]

/-- Followed from where the text stands, the order reads the text symbol by symbol. -/
theorem Sorted.column_iterate (h : Sorted text rows) (hcolumn : LastColumn rows column)
    (horder : order.Perm (List.range rows.length)) (hstable : Stable column order)
    {next : ℕ → ℕ} (hnext : ∀ k < rows.length, order[k]? = some (next k)) {start : ℕ}
    (hstart : rows[start]? = some text) (m : ℕ) :
    rows[next^[m] start]? = some (text.rotate m) ∧
      column[next^[m + 1] start]? = (text.rotate m).head? := by
  have hrows : rows[next^[m] start]? = some (text.rotate m) := by
    induction m with
    | zero => rw [Function.iterate_zero_apply, hstart, List.rotate_zero]
    | succ m ih =>
        have hlt := (List.getElem?_eq_some_iff.mp ih).1
        have hstep := (h.rows_order hcolumn horder hstable (hnext _ hlt) ih).1
        rw [Function.iterate_succ_apply', hstep, List.rotate_rotate]
  have hlt := (List.getElem?_eq_some_iff.mp hrows).1
  refine ⟨hrows, ?_⟩
  rw [Function.iterate_succ_apply']
  exact (h.rows_order hcolumn horder hstable (hnext _ hlt) hrows).2

end Order

end StudyNotes.BurrowsWheeler
