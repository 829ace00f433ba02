/-
# Resolving the dots of a path

Walking along the components of a path, `.` stays and `..` goes back by one name, from
the root to the root.  Where a walk ends depends on two things only: how many of the
names it started from it climbs out of, and the names it then enters.
-/

import StudyNotes.Lib.FileTree

namespace StudyNotes.FileTree

open StudyNotes.Text

/-- The component that stays. -/
def here : Str := ['.']

/-- The component that goes back. -/
def up : Str := ['.', '.']

/-- One component of a walk. -/
def enter (path : Path) (name : Str) : Path :=
  if name = here then path else if name = up then path.dropLast else path ++ [name]

/-- Where the components lead from some directory. -/
def walk (start : Path) (names : Path) : Path := names.foldl enter start

/-- The names of a path after resolving its dots. -/
def resolve (path : Path) : Path := walk [] path

theorem resolve_append (path names : Path) : resolve (path ++ names) = walk (resolve path) names :=
  List.foldl_append

/-- Below a directory, and not the directory itself. -/
def StrictlyBelow (dir path : Path) : Prop := dir <+: path ∧ dir ≠ path

instance (dir path : Path) : Decidable (StrictlyBelow dir path) :=
  inferInstanceAs (Decidable (_ ∧ _))

/-! ## Climbing out and in -/

/-- How many directories a walk has left of those it started from, and the names it has
entered since. -/
def climbStep (climbed : ℕ × Path) (name : Str) : ℕ × Path :=
  if name = here then climbed
  else if name = up then
    if climbed.2 = [] then (climbed.1 + 1, []) else (climbed.1, climbed.2.dropLast)
  else (climbed.1, climbed.2 ++ [name])

def climb (names : Path) : ℕ × Path := names.foldl climbStep (0, [])

theorem climb_append_singleton (names : Path) (name : Str) :
    climb (names ++ [name]) = climbStep (climb names) name := by
  simp [climb]

theorem walk_append_singleton (start names : Path) (name : Str) :
    walk start (names ++ [name]) = enter (walk start names) name := by
  simp [walk]

/-- A walk keeps what it has not climbed out of. -/
theorem walk_eq (start names : Path) :
    walk start names =
      start.take (start.length - (climb names).1) ++ (climb names).2 := by
  induction names using List.reverseRecOn with
  | nil => simp [walk, climb]
  | append_singleton names name ih =>
      rw [walk_append_singleton, climb_append_singleton, ih, enter, climbStep]
      by_cases hhere : name = here
      · simp [hhere]
      · by_cases hup : name = up
        · rw [if_neg hhere, if_pos hup, if_neg hhere, if_pos hup]
          by_cases hnone : (climb names).2 = []
          · rw [if_pos hnone, hnone, List.append_nil, List.append_nil, List.dropLast_eq_take,
              List.take_take, List.length_take]
            congr 1
            omega
          · rw [if_neg hnone, List.dropLast_append_of_ne_nil hnone]
        · rw [if_neg hhere, if_neg hup, if_neg hhere, if_neg hup, List.append_assoc]

/-- The names lead back through the directories left, and further. -/
def LeadsInside (start names : Path) : Prop :=
  StrictlyBelow (start.drop (start.length - (climb names).1)) (climb names).2

instance (start names : Path) : Decidable (LeadsInside start names) :=
  inferInstanceAs (Decidable (StrictlyBelow _ _))

/-- A walk ends strictly below its start exactly when it leads back inside. -/
theorem strictlyBelow_walk_iff (start names : Path) :
    StrictlyBelow start (walk start names) ↔ LeadsInside start names := by
  rw [LeadsInside, StrictlyBelow, StrictlyBelow, walk_eq]
  have hsplit := List.take_append_drop (start.length - (climb names).1) start
  have hbegins : start <+: start.take (start.length - (climb names).1) ++ (climb names).2 ↔
      start.drop (start.length - (climb names).1) <+: (climb names).2 := by
    nth_rewrite 1 [← hsplit]
    exact List.prefix_append_right_inj _
  have hsame : start = start.take (start.length - (climb names).1) ++ (climb names).2 ↔
      start.drop (start.length - (climb names).1) = (climb names).2 := by
    nth_rewrite 1 [← hsplit]
    exact List.append_right_inj _
  rw [hbegins, Ne, hsame]

end StudyNotes.FileTree
