/-
# Properties of finite runs

A run is the list of events that were delivered, in order.  What holds "in every
state reached" is a property of every prefix of the run, and what "every step
meets" is a property of a prefix together with the event that comes next.  The
two are joined by one induction rule, so a development about a particular
machine only supplies its step lemma.

Nothing here fixes a state type: a machine enters through the function that
computes a state from a prefix.
-/

import Mathlib.Data.List.Induction
import Mathlib.Data.List.Infix

namespace StudyNotes.Run

variable {ε : Type*}

/-- The state of a machine after a run. -/
def after {σ : Type*} (step : σ → ε → σ) (s : σ) (es : List ε) : σ := es.foldl step s

@[simp]
theorem after_nil {σ : Type*} (step : σ → ε → σ) (s : σ) : after step s [] = s := rfl

@[simp]
theorem after_append_singleton {σ : Type*} (step : σ → ε → σ) (s : σ) (es : List ε) (e : ε) :
    after step s (es ++ [e]) = step (after step s es) e := by
  simp [after]

/-- `P` holds after every prefix of the run, the empty one and the whole run
included. -/
def EveryPrefix (P : List ε → Prop) (es : List ε) : Prop :=
  ∀ pre, pre <+: es → P pre

/-- Every event of the run is delivered after a prefix that admits it. -/
def EveryStep (cond : List ε → ε → Prop) (es : List ε) : Prop :=
  ∀ pre e, pre ++ [e] <+: es → cond pre e

/-- The induction rule: what holds initially and is kept by every admitted step
holds after every prefix. -/
theorem EveryPrefix.of_step {P : List ε → Prop} {cond : List ε → ε → Prop}
    (hnil : P []) (hstep : ∀ pre e, cond pre e → P pre → P (pre ++ [e]))
    {es : List ε} (hes : EveryStep cond es) : EveryPrefix P es := by
  intro pre
  induction pre using List.reverseRecOn with
  | nil => exact fun _ => hnil
  | append_singleton pre e ih =>
      intro hpre
      exact hstep pre e (hes pre e hpre) (ih ((List.prefix_append pre [e]).trans hpre))

theorem EveryPrefix.self {P : List ε → Prop} {es : List ε} (h : EveryPrefix P es) : P es :=
  h es (List.prefix_refl es)

theorem EveryPrefix.mono {P Q : List ε → Prop} (hPQ : ∀ pre, P pre → Q pre)
    {es : List ε} (h : EveryPrefix P es) : EveryPrefix Q es :=
  fun pre hpre => hPQ pre (h pre hpre)

theorem EveryStep.of_prefix {cond : List ε → ε → Prop} {es fs : List ε}
    (h : EveryStep cond es) (hfs : fs <+: es) : EveryStep cond fs :=
  fun pre e hpre => h pre e (hpre.trans hfs)

theorem everyStep_nil {cond : List ε → ε → Prop} : EveryStep cond [] :=
  fun pre e hpre => absurd (List.prefix_nil.mp hpre) (by simp)

theorem EveryStep.concat {cond : List ε → ε → Prop} {es : List ε} {e : ε}
    (h : EveryStep cond es) (he : cond es e) : EveryStep cond (es ++ [e]) := by
  intro pre e' hpre
  rcases List.prefix_concat_iff.mp hpre with hlast | hbefore
  · obtain ⟨rfl, hsame⟩ := List.append_inj' hlast rfl
    cases hsame
    exact he
  · exact h pre e' hbefore

/-- The converse of the induction rule: where an admitted step keeps an invariant
that gives `P`, and any other step breaks `P` at once, `P` holds throughout
exactly in the runs whose steps are all admitted. -/
theorem everyPrefix_iff_everyStep {P I : List ε → Prop} {cond : List ε → ε → Prop}
    (hnil : I []) (hP : ∀ pre, I pre → P pre)
    (hkeep : ∀ pre e, cond pre e → I pre → I (pre ++ [e]))
    (hbreak : ∀ pre e, I pre → ¬ cond pre e → ¬ P (pre ++ [e])) (es : List ε) :
    EveryPrefix P es ↔ EveryStep cond es := by
  constructor
  · intro h
    have hinv : ∀ pre, pre <+: es → I pre := by
      intro pre
      induction pre using List.reverseRecOn with
      | nil => exact fun _ => hnil
      | append_singleton pre e ih =>
          intro hpre
          have hbefore := ih ((List.prefix_append pre [e]).trans hpre)
          exact hkeep pre e (not_imp_not.mp (hbreak pre e hbefore) (h _ hpre)) hbefore
    intro pre e hpre
    have hbefore := hinv pre ((List.prefix_append pre [e]).trans hpre)
    exact not_imp_not.mp (hbreak pre e hbefore) (h _ hpre)
  · intro h
    exact (EveryPrefix.of_step hnil hkeep h).mono hP

/-- Read by position, every step is a bounded quantifier, so a concrete run is
checked by evaluation. -/
theorem everyStep_iff_getElem {cond : List ε → ε → Prop} {es : List ε} :
    EveryStep cond es ↔ ∀ i (h : i < es.length), cond (es.take i) es[i] := by
  constructor
  · intro hes i hi
    apply hes
    rw [List.take_append_getElem hi]
    exact List.take_prefix _ _
  · rintro hes pre e ⟨post, rfl⟩
    have hlt : pre.length < (pre ++ [e] ++ post).length := by simp
    simpa using hes pre.length hlt

/-- Where some event of a run has a property, there is a last one. -/
theorem exists_last {P : ε → Prop} {es : List ε} (h : ∃ e ∈ es, P e) :
    ∃ before e after, es = before ++ e :: after ∧ P e ∧ ∀ x ∈ after, ¬ P x := by
  induction es with
  | nil => simp at h
  | cons e es ih =>
      by_cases hlater : ∃ x ∈ es, P x
      · obtain ⟨before, x, after, rfl, hx, hafter⟩ := ih hlater
        exact ⟨e :: before, x, after, rfl, hx, hafter⟩
      · have he : P e := by simpa [hlater] using h
        exact ⟨[], e, es, rfl, he, fun x hx hPx => hlater ⟨x, hx, hPx⟩⟩

instance {cond : List ε → ε → Prop} [∀ pre e, Decidable (cond pre e)] (es : List ε) :
    Decidable (EveryStep cond es) :=
  decidable_of_iff _ everyStep_iff_getElem.symm

end StudyNotes.Run
