/-
# Tabulating a sequence

A sequence in which each value follows from the two before it is computed with a window of
two values, or with an array that is filled from the front or wherever a value is needed.
The array is the state of a computation that reads and writes it at 32-bit indices.
-/

import Mathlib.Algebra.Group.Nat.Defs
import StudyNotes.Lib.Effect
import StudyNotes.Lib.Machine

namespace StudyNotes.Tabulation

open StudyNotes.Effect StudyNotes.Machine

variable {α ε : Type}

/-- Every value follows from the two before it. -/
def Follows (next : α → α → α) (f : ℕ → α) : Prop := ∀ k, f (k + 2) = next (f k) (f (k + 1))

/-! ## A window of two values -/

/-- A loop that moves a window of two values, with the number of its turns. -/
def slide (next : α → α → α) : ℕ → α × α → α × α
  | 0, window => window
  | turns + 1, (first, second) => slide next turns (second, next first second)

/-- The window shows the sequence, from wherever it starts. -/
theorem Follows.slide_eq {next : α → α → α} {f : ℕ → α} (h : Follows next f) (turns k : ℕ) :
    slide next turns (f k, f (k + 1)) = (f (k + turns), f (k + turns + 1)) := by
  induction turns generalizing k with
  | zero => rfl
  | succ turns ih =>
      rw [slide, ← h k, ih (k + 1), Nat.add_right_comm k 1 turns, Nat.add_assoc k turns 1]

/-! ## An array -/

/-- The array that a computation starts with is its own, and nobody sees it afterwards. -/
def evalOn {σ : Type} (x : EStateM ε σ α) (s : σ) : Except ε α :=
  match x s with
  | .ok a _ => .ok a
  | .error e _ => .error e

theorem evalOn_of_ok {σ : Type} {x : EStateM ε σ α} {s t : σ} {a : α} (h : x s = .ok a t) :
    evalOn x s = .ok a := by
  rw [evalOn, h]

/-- The value at an index, or the failure for an index outside. -/
def load (outside : ε) (index : Int32) : EStateM ε (List α) α := do
  match (← get)[index.toNatClampNeg]? with
  | none => throw outside
  | some a => if 0 ≤ index then pure a else throw outside

def store (outside : ε) (index : Int32) (a : α) : EStateM ε (List α) PUnit := do
  if 0 ≤ index ∧ index.toNatClampNeg < (← get).length then
    modify fun cells => cells.set index.toNatClampNeg a
  else throw outside

section Access

variable {outside : ε} {cells : List α} {i : ℕ} {a : α}

theorem load_eq (hi : i < 2 ^ 31) (ha : cells[i]? = some a) :
    load outside (.ofNat i) cells = .ok a cells := by
  have hread : cells[(Int32.ofNat i).toNatClampNeg]? = some a := by
    rwa [Int32.toNatClampNeg_ofNat_of_lt hi]
  rw [load, get_bind]
  simp only [hread, if_pos (ofNat_nonneg hi)]
  rfl

theorem store_eq (hi : i < 2 ^ 31) (hlength : i < cells.length) :
    store outside (.ofNat i) a cells = .ok ⟨⟩ (cells.set i a) := by
  have hclamp := Int32.toNatClampNeg_ofNat_of_lt hi
  rw [store, get_bind, hclamp, if_pos ⟨ofNat_nonneg hi, hlength⟩]
  rfl

end Access

/-! ## What the array knows -/

/-- The first cells hold the sequence. -/
def Filled (f : ℕ → α) (i : ℕ) (cells : List α) : Prop := ∀ j < i, cells[j]? = some (f j)

/-- Every cell holds the mark, or the value of its index. -/
def Memo (mark : α) (f : ℕ → α) (cells : List α) : Prop :=
  ∀ (i : ℕ) (a : α), cells[i]? = some a → a = mark ∨ a = f i

variable {f : ℕ → α} {mark : α} {cells : List α} {i : ℕ}

theorem Filled.set (h : Filled f i cells) (hi : i < cells.length) :
    Filled f (i + 1) (cells.set i (f i)) := by
  intro j hj
  rcases Nat.lt_succ_iff_lt_or_eq.mp hj with hlt | rfl
  · rw [List.getElem?_set_ne (Nat.ne_of_gt hlt)]
    exact h j hlt
  · exact List.getElem?_set_self hi

theorem memo_replicate (size : ℕ) : Memo mark f (List.replicate size mark) := by
  intro i a ha
  exact Or.inl (List.eq_of_mem_replicate (List.mem_of_getElem? ha))

theorem Memo.set (h : Memo mark f cells) (i : ℕ) : Memo mark f (cells.set i (f i)) := by
  intro j a ha
  rcases Nat.decEq i j with hne | rfl
  · rw [List.getElem?_set_ne hne] at ha
    exact h j a ha
  · rcases List.getElem?_eq_some_iff.mp ha with ⟨hlt, rfl⟩
    exact Or.inr (List.getElem_set_self hlt)

/-- A cell that is not marked is right. -/
theorem Memo.eq_of_ne (h : Memo mark f cells) {a : α} (ha : cells[i]? = some a)
    (hne : a ≠ mark) : a = f i :=
  (h i a ha).resolve_left hne

end StudyNotes.Tabulation
