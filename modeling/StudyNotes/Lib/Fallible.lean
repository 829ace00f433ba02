/-
# Computations that can fail

A computation in `Except` returns exactly when all its parts do.  Read from left to
right, the statements here take a successful computation apart; read from right
to left, they put one together.

For a recursion on fuel, in `Option`, what a result meets is kept apart from the
fact that there is one: the first has a rule for sequences of its own and needs no
bound on the fuel.
-/

import Mathlib.Data.List.Basic

namespace StudyNotes.Fallible

variable {ε α β σ : Type}

/-- A sequence of two steps returns when both do. -/
theorem bind_eq_ok_iff {x : Except ε α} {f : α → Except ε β} {b : β} :
    x >>= f = .ok b ↔ ∃ a, x = .ok a ∧ f a = .ok b := by
  cases x with
  | error e => simp [bind, Except.bind]
  | ok a => simp [bind, Except.bind]

/-- A loop returns when its first turn and the rest of it do. -/
theorem foldlM_cons_eq_ok_iff {f : σ → α → Except ε σ} {x : α} {xs : List α} {s s' : σ} :
    (x :: xs).foldlM f s = .ok s' ↔ ∃ t, f s x = .ok t ∧ xs.foldlM f t = .ok s' := by
  rw [List.foldlM_cons]
  exact bind_eq_ok_iff

/-- A traversal returns when every element does. -/
theorem mapM_eq_ok_iff {f : α → Except ε β} {g : α → β} {P : α → Prop}
    (h : ∀ x y, f x = .ok y ↔ P x ∧ y = g x) {xs : List α} {ys : List β} :
    xs.mapM f = .ok ys ↔ (∀ x ∈ xs, P x) ∧ ys = xs.map g := by
  induction xs generalizing ys with
  | nil =>
      rw [List.mapM_nil]
      exact ⟨fun hnil => ⟨by simp, (Except.ok.inj hnil).symm⟩, fun hnil => by rw [hnil.2]; rfl⟩
  | cons x xs ih =>
      rw [List.mapM_cons, List.forall_mem_cons, List.map_cons, bind_eq_ok_iff]
      constructor
      · rintro ⟨y, hy, hrest⟩
        obtain ⟨ys', hys', hcons⟩ := bind_eq_ok_iff.mp hrest
        obtain ⟨hP, rfl⟩ := (h x y).mp hy
        obtain ⟨hall, rfl⟩ := ih.mp hys'
        exact ⟨⟨hP, hall⟩, (Except.ok.inj hcons).symm⟩
      · rintro ⟨⟨hP, hall⟩, rfl⟩
        exact ⟨g x, (h x _).mpr ⟨hP, rfl⟩, bind_eq_ok_iff.mpr ⟨_, ih.mpr ⟨hall, rfl⟩, rfl⟩⟩

/-! ## Recursion on fuel -/

/-- Whatever the computation returns has the property. -/
structure Meets (x : Option α) (P : α → Prop) : Prop where
  result : ∀ a, x = some a → P a

namespace Meets

variable {x : Option α} {f : α → Option β} {P Q : α → Prop} {R : β → Prop}

theorem none : Meets Option.none P := ⟨fun a ha => by cases ha⟩

theorem some {a : α} (ha : P a) : Meets (Option.some a) P := ⟨fun b hb => by cases hb; exact ha⟩

theorem mono (hx : Meets x P) (hPQ : ∀ a, P a → Q a) : Meets x Q :=
  ⟨fun a ha => hPQ a (hx.result a ha)⟩

theorem and (hP : Meets x P) (hQ : Meets x Q) : Meets x fun a => P a ∧ Q a :=
  ⟨fun a ha => ⟨hP.result a ha, hQ.result a ha⟩⟩

/-- The rule for sequences. -/
theorem bind (hx : Meets x P) (hf : ∀ a, P a → Meets (f a) R) : Meets (x >>= f) R := by
  constructor
  intro b hb
  obtain ⟨a, ha, hfa⟩ := Option.bind_eq_some_iff.mp hb
  exact (hf a (hx.result a ha)).result b hfa

end Meets

/-- A sequence of two steps returns when the first does and the second does after it. -/
theorem isSome_bind {x : Option α} {f : α → Option β} {P : α → Prop} (hx : x.isSome)
    (hP : Meets x P) (hf : ∀ a, P a → (f a).isSome) : (x >>= f).isSome := by
  obtain ⟨a, rfl⟩ := Option.isSome_iff_exists.mp hx
  exact hf a (hP.result a rfl)

end StudyNotes.Fallible
