/-
# Arrays behind references

Arrays are handed around by reference, so a write is seen by everyone who holds the array.
A new array stands behind a reference of its own, and what is written to it leaves every
array that was there before as it was.
-/

import Mathlib.Data.List.Basic

namespace StudyNotes.ArrayHeap

/-- The arrays made so far.  The reference of an array is the number of arrays made before
it. -/
structure Heap (α : Type) where
  arrays : List (List α)

namespace Heap

variable {α : Type} (heap : Heap α)

def empty : Heap α := ⟨[]⟩

/-- The reference the next array gets. -/
def next : ℕ := heap.arrays.length

def read (ref : ℕ) : Option (List α) := heap.arrays[ref]?

/-- A new array. -/
def push (array : List α) : Heap α := ⟨heap.arrays ++ [array]⟩

def write (ref index : ℕ) (a : α) : Heap α :=
  ⟨heap.arrays.modify ref fun array => array.set index a⟩

variable {heap} {array : List α}

@[simp] theorem next_push : (heap.push array).next = heap.next + 1 := by
  simp [next, push]

@[simp] theorem read_push_self : (heap.push array).read heap.next = some array :=
  List.getElem?_concat_length

/-- The earlier arrays are not touched. -/
theorem read_push_of_lt {ref : ℕ} (h : ref < heap.next) :
    (heap.push array).read ref = heap.read ref :=
  List.getElem?_append_left h

/-- A write to the newest array. -/
@[simp] theorem write_push (index : ℕ) (a : α) :
    (heap.push array).write heap.next index a = heap.push (array.set index a) := by
  simp only [write, push, next, Heap.mk.injEq]
  induction heap.arrays with
  | nil => rfl
  | cons first rest ih =>
      rw [List.cons_append, List.length_cons, List.modify_succ_cons, ih, List.cons_append]

end Heap

end StudyNotes.ArrayHeap
