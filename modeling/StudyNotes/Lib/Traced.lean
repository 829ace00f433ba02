/-
# Computations that record what they touch

A computation that may stop early has done something by then.  A value here carries the
events of a computation together with its result, if there is one, so a fact about every
event is a fact about the failing runs too.
-/

import Mathlib.Data.List.Basic

namespace StudyNotes

/-- The events of a computation, in order, and its result unless it stopped. -/
structure Traced (ε α : Type) where
  events : List ε
  result : Option α

namespace Traced

variable {ε α β : Type}

instance : Monad (Traced ε) where
  pure a := ⟨[], some a⟩
  bind x f :=
    match x.result with
    | none => ⟨x.events, none⟩
    | some a => ⟨x.events ++ (f a).events, (f a).result⟩

/-- The computation stops and has touched nothing. -/
def stop : Traced ε α := ⟨[], none⟩

@[simp]
theorem events_pure (a : α) : (pure a : Traced ε α).events = [] := rfl

theorem result_bind (x : Traced ε α) (f : α → Traced ε β) :
    (x >>= f).result = x.result.bind fun a => (f a).result := by
  rcases x with ⟨events, _ | a⟩ <;> rfl

/-- A sequence returns when both its parts do. -/
theorem result_bind_eq_some_iff {x : Traced ε α} {f : α → Traced ε β} {b : β} :
    (x >>= f).result = some b ↔ ∃ a, x.result = some a ∧ (f a).result = some b := by
  rw [result_bind, Option.bind_eq_some_iff]

/-- Every event of the computation has the property. -/
def All (P : ε → Prop) (x : Traced ε α) : Prop := ∀ e ∈ x.events, P e

instance (P : ε → Prop) [DecidablePred P] (x : Traced ε α) : Decidable (x.All P) :=
  inferInstanceAs (Decidable (∀ e ∈ x.events, P e))

@[simp]
theorem all_pure {P : ε → Prop} (a : α) : (pure a : Traced ε α).All P := by simp [All]

@[simp]
theorem all_stop {P : ε → Prop} : (stop : Traced ε α).All P := by simp [All, stop]

/-- The rule for sequences: the second part counts only where the first one returns. -/
theorem all_bind {P : ε → Prop} {x : Traced ε α} {f : α → Traced ε β} :
    (x >>= f).All P ↔ x.All P ∧ ∀ a, x.result = some a → (f a).All P := by
  rcases x with ⟨events, _ | a⟩
  · simp [All, bind]
  · simp [All, bind, or_imp, forall_and]

end Traced

end StudyNotes
