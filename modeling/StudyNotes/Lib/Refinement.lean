/-
# Machines that answer

A machine answers an input in a state and goes on to the next state.  It refines another
one along a relation between their states if related states answer alike and are related
again afterwards, for every input that is admitted.  Then the two answer whole runs alike.
-/

import Mathlib.Data.List.Basic

namespace StudyNotes.Refinement

/-- The answer to an input, and the next state. -/
def Machine (σ ι ο : Type) := σ → ι → ο × σ

namespace Machine

variable {σ τ ι ο : Type}

/-- The answers to the inputs of a run. -/
def answers (machine : Machine σ ι ο) : σ → List ι → List ο
  | _, [] => []
  | s, input :: inputs => (machine s input).1 :: machine.answers (machine s input).2 inputs

/-- The state after a run. -/
def final (machine : Machine σ ι ο) : σ → List ι → σ
  | s, [] => s
  | s, input :: inputs => machine.final (machine s input).2 inputs

/-- Every input of a run is admitted in the state it meets. -/
def Admitted (machine : Machine σ ι ο) (admits : σ → ι → Prop) : σ → List ι → Prop
  | _, [] => True
  | s, input :: inputs => admits s input ∧ machine.Admitted admits (machine s input).2 inputs

/-- Related states answer an admitted input alike and stay related. -/
structure Refines (machine : Machine σ ι ο) (spec : Machine τ ι ο) (rel : σ → τ → Prop)
    (admits : τ → ι → Prop) : Prop where
  answer : ∀ {s t input}, rel s t → admits t input → (machine s input).1 = (spec t input).1
  next : ∀ {s t input}, rel s t → admits t input → rel (machine s input).2 (spec t input).2

theorem admitted_of_forall {machine : Machine σ ι ο} {admits : σ → ι → Prop}
    (h : ∀ s input, admits s input) (s : σ) (inputs : List ι) :
    machine.Admitted admits s inputs := by
  induction inputs generalizing s with
  | nil => exact True.intro
  | cons input inputs ih => exact ⟨h s input, ih _⟩

namespace Refines

variable {machine : Machine σ ι ο} {spec : Machine τ ι ο} {rel : σ → τ → Prop}
  {admits : τ → ι → Prop} {s : σ} {t : τ} {inputs : List ι}

theorem answers_eq (h : Refines machine spec rel admits) (hrel : rel s t)
    (hinputs : spec.Admitted admits t inputs) :
    machine.answers s inputs = spec.answers t inputs := by
  induction inputs generalizing s t with
  | nil => rfl
  | cons input inputs ih =>
      obtain ⟨hinput, hlater⟩ := hinputs
      rw [answers, answers, h.answer hrel hinput, ih (h.next hrel hinput) hlater]

theorem final (h : Refines machine spec rel admits) (hrel : rel s t)
    (hinputs : spec.Admitted admits t inputs) :
    rel (machine.final s inputs) (spec.final t inputs) := by
  induction inputs generalizing s t with
  | nil => exact hrel
  | cons input inputs ih =>
      obtain ⟨hinput, hlater⟩ := hinputs
      exact ih (h.next hrel hinput) hlater

end Refines

end Machine

end StudyNotes.Refinement
