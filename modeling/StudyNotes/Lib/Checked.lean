/-
# Checked memory

Arrays are lists whose accesses are checked: an access beyond the end has no result.  A
computation returns a value with some property when all its accesses are inside, and a
loop returns when every turn keeps its invariant.
-/

import Mathlib.Data.Int.Notation
import Mathlib.Data.List.Basic

namespace StudyNotes.Checked

variable {α β σ : Type}

/-- The computation has a result, and the result has the property. -/
def Returns (x : Option α) (P : α → Prop) : Prop := ∃ a, x = some a ∧ P a

namespace Returns

variable {x : Option α} {f : α → Option β} {P Q : α → Prop} {R : β → Prop}

theorem pure {a : α} (h : P a) : Returns (Pure.pure a) P := ⟨a, rfl, h⟩

theorem bind (hx : Returns x P) (hf : ∀ a, P a → Returns (f a) R) : Returns (x >>= f) R := by
  obtain ⟨a, rfl, ha⟩ := hx
  exact hf a ha

theorem mono (hx : Returns x P) (h : ∀ a, P a → Q a) : Returns x Q := by
  obtain ⟨a, hxa, ha⟩ := hx
  exact ⟨a, hxa, h a ha⟩

theorem of_eq {a : α} (hx : x = some a) (h : P a) : Returns x P := ⟨a, hx, h⟩

/-- What holds of every result holds of this one. -/
theorem and (hx : Returns x P) (h : ∀ a, x = some a → Q a) : Returns x fun a => P a ∧ Q a := by
  obtain ⟨a, hxa, ha⟩ := hx
  exact ⟨a, hxa, ha, h a hxa⟩

end Returns

/-- An assertion that holds. -/
theorem Returns.guard {p : Prop} [Decidable p] (h : p) : Returns (guard p) fun _ => True :=
  ⟨(), if_pos h, trivial⟩

/-- Writes inside the array. -/
def write (cells : List α) (i : ℕ) (a : α) : Option (List α) :=
  if i < cells.length then some (cells.set i a) else none

/-- Fills the next place of an array with so many places. -/
def push (size : ℕ) (cells : List α) (a : α) : Option (List α) :=
  if cells.length < size then some (cells ++ [a]) else none

theorem write_eq {cells : List α} {i : ℕ} (h : i < cells.length) (a : α) :
    write cells i a = some (cells.set i a) := if_pos h

theorem push_eq {size : ℕ} {cells : List α} (h : cells.length < size) (a : α) :
    push size cells a = some (cells ++ [a]) := if_pos h

/-- A loop over the numbers from `first` up to but not including `last`. -/
def loop (first last : ℕ) (body : ℕ → σ → Option σ) (s : σ) : Option σ :=
  (List.range' first (last - first)).foldlM (fun s i => body i s) s

/-- The last turn of a loop. -/
theorem loop_succ {first last : ℕ} (hle : first ≤ last) (body : ℕ → σ → Option σ) (s : σ) :
    loop first (last + 1) body s = loop first last body s >>= body last := by
  obtain ⟨turns, rfl⟩ := Nat.exists_eq_add_of_le hle
  rw [loop, loop, Nat.add_assoc, Nat.add_sub_cancel_left, Nat.add_sub_cancel_left,
    List.range'_concat, List.foldlM_append]
  simp

/-- The rule for loops: every turn keeps the invariant. -/
theorem Returns.loop {first last : ℕ} {body : ℕ → σ → Option σ} {s : σ} (Inv : ℕ → σ → Prop)
    (hle : first ≤ last) (hstart : Inv first s)
    (hturn : ∀ i s, first ≤ i → i < last → Inv i s → Returns (body i s) (Inv (i + 1))) :
    Returns (loop first last body s) (Inv last) := by
  obtain ⟨turns, rfl⟩ := Nat.exists_eq_add_of_le hle
  rw [Checked.loop, Nat.add_sub_cancel_left]
  clear hle
  induction turns generalizing first s with
  | zero => exact Returns.pure hstart
  | succ turns ih =>
      rw [List.range'_succ, List.foldlM_cons]
      refine (hturn first s (Nat.le_refl _) (by omega) hstart).bind fun s' hs' => ?_
      have hrest := ih hs' fun i s hi hlast => hturn i s (by omega) (by omega)
      rw [Nat.add_assoc, Nat.add_comm 1 turns] at hrest
      exact hrest

/-- What every turn keeps is kept by the loop, where it returns. -/
theorem loop_keeps {first last : ℕ} {body : ℕ → σ → Option σ} {s s' : σ} {P : σ → Prop}
    (hturn : ∀ i s s', body i s = some s' → P s → P s') (h : loop first last body s = some s')
    (hs : P s) : P s' := by
  rw [loop] at h
  generalize List.range' first (last - first) = turns at h
  induction turns generalizing s with
  | nil =>
      cases h
      exact hs
  | cons i turns ih =>
      rw [List.foldlM_cons] at h
      obtain ⟨t, ht, h⟩ := Option.bind_eq_some_iff.mp h
      exact ih (hturn i s t ht hs) h

theorem length_of_write {cells cells' : List α} {i : ℕ} {a : α}
    (h : write cells i a = some cells') :
    cells'.length = cells.length := by
  rw [write] at h
  split at h
  · cases h
    exact List.length_set
  · cases h

/-- The rule for lists whose elements are computed one by one. -/
theorem Returns.mapM {f : α → Option β} {P : α → β → Prop} {as : List α}
    (h : ∀ a ∈ as, Returns (f a) (P a)) : Returns (as.mapM f) (List.Forall₂ P as) := by
  induction as with
  | nil => exact Returns.pure .nil
  | cons a as ih =>
      rw [List.mapM_cons]
      refine (h a List.mem_cons_self).bind fun b hb => ?_
      refine (ih fun a ha => h a (List.mem_cons_of_mem _ ha)).bind fun bs hbs => ?_
      exact Returns.pure (.cons hb hbs)

theorem mapM_eq {f : α → Option β} {g : α → β} {as : List α} (h : ∀ a ∈ as, f a = some (g a)) :
    as.mapM f = some (as.map g) := by
  induction as with
  | nil => rfl
  | cons a as ih =>
      rw [List.mapM_cons, h a List.mem_cons_self, ih fun a ha => h a (List.mem_cons_of_mem _ ha)]
      rfl

/-- An index; those below 0 are outside. -/
def index (k : ℤ) : Option ℕ := if 0 ≤ k then some k.toNat else none

theorem index_natCast (k : ℕ) : index (k : ℤ) = some k := by
  rw [index, if_pos (Int.natCast_nonneg k), Int.toNat_natCast]

/-- Adds to every cell the one before it. -/
def sumUp (size : ℕ) (cells : List ℤ) : Option (List ℤ) :=
  loop 1 size (fun i cells => do write cells i ((← cells[i]?) + (← cells[i - 1]?))) cells

/-- What was a difference becomes a sum. -/
theorem returns_sumUp {size : ℕ} {cells : List ℤ} (f : ℕ → ℤ) (hpos : 1 ≤ size)
    (hsize : cells.length = size) (hzero : cells[0]? = some (f 0))
    (hcells : ∀ k, k + 1 < size → cells[k + 1]? = some (f (k + 1) - f k)) :
    Returns (sumUp size cells) fun sums => sums.length = size ∧
      ∀ k < size, sums[k]? = some (f k) := by
  refine (Returns.loop (fun i sums => sums.length = size ∧
    (∀ k < i, sums[k]? = some (f k)) ∧
    ∀ k, i ≤ k + 1 → k + 1 < size → sums[k + 1]? = some (f (k + 1) - f k)) hpos ?_ ?_).mono ?_
  · refine ⟨hsize, ?_, fun k _ => hcells k⟩
    intro k hk
    rw [show k = 0 by omega, hzero]
  · rintro i sums hi hlast ⟨hsize, hdone, htodo⟩
    obtain ⟨k, rfl⟩ := Nat.exists_eq_add_of_le' hi
    refine Returns.bind (Returns.of_eq (htodo k (Nat.le_refl _) hlast) rfl) ?_
    rintro _ rfl
    refine Returns.bind (Returns.of_eq (hdone k (Nat.lt_succ_self k)) rfl) ?_
    rintro _ rfl
    refine Returns.of_eq (write_eq (by omega) _) ⟨?_, ?_, ?_⟩
    · rw [List.length_set, hsize]
    · intro j hj
      rw [List.getElem?_set]
      by_cases heq : k + 1 = j
      · rw [if_pos heq, if_pos (by omega), ← heq, Int.sub_add_cancel]
      · rw [if_neg heq, hdone j (by omega)]
    · intro j hj hfits
      rw [List.getElem?_set_ne (by omega), htodo j (by omega) hfits]
  · rintro sums ⟨hsize, hdone, -⟩
    exact ⟨hsize, hdone⟩

end StudyNotes.Checked
