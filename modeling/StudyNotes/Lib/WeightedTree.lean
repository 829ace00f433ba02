/-
# Trees built by merging the two lightest

Trees with weights at their leaves are merged two at a time, the two lightest first.  No tree
that is left is then lighter than a part of another, so that the weight of a tree grows with its
height at least as fast as the numbers of Fibonacci do.  The levels of the leaves of a tree always
take up all the space of a prefix code.
-/

import Mathlib.Algebra.BigOperators.Group.List.Basic
import Mathlib.Algebra.Group.Nat.Defs
import Mathlib.Data.Nat.Fib.Basic
import Mathlib.Tactic.Ring

namespace StudyNotes.WeightedTree

/-- Binary trees with numbers at their leaves. -/
inductive CodeTree where
  | leaf (i : ℕ)
  | node (left right : CodeTree)

namespace CodeTree

def height : CodeTree → ℕ
  | leaf _ => 0
  | node left right => 1 + max left.height right.height

/-- The weight of a tree whose leaves have the weights `w`. -/
def weight (w : ℕ → ℕ) : CodeTree → ℕ
  | leaf i => w i
  | node left right => left.weight w + right.weight w

def leaves : CodeTree → List ℕ
  | leaf i => [i]
  | node left right => left.leaves ++ right.leaves

/-- The leaves with their levels, in a tree whose root is at level `d`. -/
def levels (d : ℕ) : CodeTree → List (ℕ × ℕ)
  | leaf i => [(i, d)]
  | node left right => left.levels (d + 1) ++ right.levels (d + 1)

variable {w : ℕ → ℕ} {t left right : CodeTree} {d i k limit : ℕ}

theorem map_fst_levels (d : ℕ) (t : CodeTree) : (t.levels d).map Prod.fst = t.leaves := by
  induction t generalizing d with
  | leaf i => rfl
  | node left right hleft hright => rw [levels, leaves, List.map_append, hleft, hright]

theorem level_le (h : (i, k) ∈ t.levels d) : d ≤ k ∧ k ≤ d + t.height := by
  induction t generalizing d with
  | leaf j =>
      rw [levels, List.mem_singleton] at h
      cases h
      exact ⟨Nat.le_refl _, Nat.le_add_right _ _⟩
  | node left right hleft hright =>
      rw [height]
      rw [levels, List.mem_append] at h
      rcases h with h | h
      · have hle := hleft h
        omega
      · have hle := hright h
        omega

/-- Some leaf is at the lowest level. -/
theorem exists_lowest (d : ℕ) (t : CodeTree) : ∃ i, (i, d + t.height) ∈ t.levels d := by
  induction t generalizing d with
  | leaf i => exact ⟨i, List.mem_singleton.mpr rfl⟩
  | node left right hleft hright =>
      rw [height, levels]
      rcases Nat.le_total left.height right.height with hle | hle
      · obtain ⟨i, hi⟩ := hright (d + 1)
        rw [Nat.max_eq_right hle, ← Nat.add_assoc]
        exact ⟨i, List.mem_append_right _ hi⟩
      · obtain ⟨i, hi⟩ := hleft (d + 1)
        rw [Nat.max_eq_left hle, ← Nat.add_assoc]
        exact ⟨i, List.mem_append_left _ hi⟩

/-- The leaves take up all the space of a code. -/
theorem sum_levels (h : d + t.height ≤ limit) :
    ((t.levels d).map fun p => 2 ^ (limit - p.2)).sum = 2 ^ (limit - d) := by
  induction t generalizing d with
  | leaf i => rw [levels, List.map_singleton, List.sum_singleton]
  | node left right hleft hright =>
      rw [height] at h
      rw [levels, List.map_append, List.sum_append, hleft (by omega), hright (by omega),
        show limit - d = limit - (d + 1) + 1 by omega, Nat.pow_succ]
      ring

theorem weight_eq_sum (w : ℕ → ℕ) (t : CodeTree) : t.weight w = (t.leaves.map w).sum := by
  induction t with
  | leaf i => rw [weight, leaves, List.map_singleton, List.sum_singleton]
  | node left right hleft hright =>
      rw [weight, leaves, List.map_append, List.sum_append, hleft, hright]

/-- In all its parts the weight grows with the height. -/
def Heavy (w : ℕ → ℕ) : CodeTree → Prop
  | leaf i => 1 ≤ w i
  | node left right => left.Heavy w ∧ right.Heavy w ∧
      Nat.fib ((node left right).height + 2) ≤ (node left right).weight w

theorem Heavy.fib_le (h : t.Heavy w) : Nat.fib (t.height + 2) ≤ t.weight w := by
  cases t with
  | leaf i => exact h
  | node left right => exact h.2.2

/-- One part of a tree is nearly as high as the tree. -/
theorem Heavy.fib_le_part (h : (node left right).Heavy w) {bound : ℕ}
    (hleft : left.weight w ≤ bound) (hright : right.weight w ≤ bound) :
    Nat.fib ((node left right).height + 1) ≤ bound := by
  obtain ⟨hheavy, hheavy', -⟩ := h
  rw [height]
  rcases Nat.le_total left.height right.height with hle | hle
  · rw [Nat.max_eq_right hle, Nat.add_comm 1]
    exact Nat.le_trans hheavy'.fib_le hright
  · rw [Nat.max_eq_left hle, Nat.add_comm 1]
    exact Nat.le_trans hheavy.fib_le hleft

end CodeTree

open CodeTree

/-- What holds of the trees that are left. -/
structure Greedy (w : ℕ → ℕ) (live : List CodeTree) : Prop where
  heavy : ∀ t ∈ live, t.Heavy w
  parts : ∀ left right, node left right ∈ live → ∀ t ∈ live,
    left.weight w ≤ t.weight w ∧ right.weight w ≤ t.weight w

section Merge

variable {w : ℕ → ℕ} {live rest : List CodeTree} {first second : CodeTree}

theorem greedy_leaves {is : List ℕ} (hpos : ∀ i ∈ is, 1 ≤ w i) : Greedy w (is.map leaf) := by
  refine ⟨fun t ht => ?_, fun left right hnode => ?_⟩
  · obtain ⟨i, hi, rfl⟩ := List.mem_map.mp ht
    exact hpos i hi
  · obtain ⟨i, -, heq⟩ := List.mem_map.mp hnode
    cases heq

theorem Greedy.perm (h : Greedy w live) (hperm : live.Perm rest) : Greedy w rest :=
  ⟨fun t ht => h.heavy t (hperm.mem_iff.mpr ht), fun left right hnode t ht =>
    h.parts left right (hperm.mem_iff.mpr hnode) t (hperm.mem_iff.mpr ht)⟩

/-- Of two trees each is at least as heavy as the parts of the other. -/
theorem Greedy.fib_add (h : Greedy w live) (hfirst : first ∈ live) (hsecond : second ∈ live) :
    Nat.fib (1 + max first.height second.height + 2) ≤ first.weight w + second.weight w := by
  -- The higher one of the two is `high`; the other is as heavy as the parts of `high`.
  have hhigh : ∀ high other : CodeTree, high ∈ live → other ∈ live →
      1 ≤ other.weight w → Nat.fib (high.height + 1 + 2) ≤ other.weight w + high.weight w := by
    intro high other hmem hother hpos
    rw [Nat.fib_add_two]
    refine Nat.add_le_add ?_ (h.heavy _ hmem).fib_le
    cases high with
    | leaf i => exact hpos
    | node left right =>
        have hparts := h.parts left right hmem other hother
        exact (h.heavy _ hmem).fib_le_part hparts.1 hparts.2
  have hpos : ∀ t ∈ live, 1 ≤ t.weight w := fun t ht =>
    Nat.le_trans (Nat.fib_pos.mpr (Nat.succ_pos _)) (h.heavy t ht).fib_le
  rcases Nat.le_total first.height second.height with horder | horder
  · rw [Nat.max_eq_right horder, Nat.add_comm 1]
    exact hhigh second first hsecond hfirst (hpos first hfirst)
  · rw [Nat.max_eq_left horder, Nat.add_comm 1, Nat.add_comm (first.weight w)]
    exact hhigh first second hfirst hsecond (hpos second hsecond)

/-- The two lightest are merged. -/
theorem Greedy.merge (h : Greedy w live) (hperm : live.Perm (first :: second :: rest))
    (hfirst : ∀ t ∈ second :: rest, first.weight w ≤ t.weight w)
    (hsecond : ∀ t ∈ rest, second.weight w ≤ t.weight w) :
    Greedy w (node first second :: rest) := by
  have h' := h.perm hperm
  have hmem : ∀ t ∈ rest, t ∈ first :: second :: rest := fun t ht =>
    List.mem_cons_of_mem _ (List.mem_cons_of_mem _ ht)
  have hfirst' : first ∈ first :: second :: rest := List.mem_cons_self
  have hsecond' : second ∈ first :: second :: rest := List.mem_cons_of_mem _ List.mem_cons_self
  refine ⟨fun t ht => ?_, fun left right hnode t ht => ?_⟩
  · rcases List.mem_cons.mp ht with rfl | ht
    · exact ⟨h'.heavy _ hfirst', h'.heavy _ hsecond', h'.fib_add hfirst' hsecond'⟩
    · exact h'.heavy t (hmem t ht)
  · rcases List.mem_cons.mp hnode with heq | hnode
    · cases heq
      rcases List.mem_cons.mp ht with rfl | ht
      · exact ⟨Nat.le_add_right _ _, Nat.le_add_left _ _⟩
      · exact ⟨hfirst t (List.mem_cons_of_mem _ ht), hsecond t ht⟩
    · have hparts := h'.parts left right (hmem _ hnode)
      rcases List.mem_cons.mp ht with rfl | ht
      · have hparts' := hparts second hsecond'
        rw [weight]
        omega
      · exact hparts t (hmem t ht)

end Merge

end StudyNotes.WeightedTree
