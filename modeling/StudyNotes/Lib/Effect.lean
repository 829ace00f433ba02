/-
# Failing computations on a state

In `EStateM` a computation that fails leaves a state too, so a computation has two
postconditions, one for its result and one for its failure.  Computations that leave the
state alone, whichever way they end, are closed under sequences of their own.
-/

import Mathlib.Data.List.Basic

namespace StudyNotes.Effect

variable {ε σ α β : Type}

/-- The state a computation leaves, whether it returned or failed. -/
def final : EStateM.Result ε σ α → σ
  | .ok _ s => s
  | .error _ s => s

/-- A sequence of two steps fails in the first or in the second. -/
theorem bind_eq_error_iff {x : EStateM ε σ α} {f : α → EStateM ε σ β} {s t : σ} {e : ε} :
    (x >>= f) s = .error e t ↔
      x s = .error e t ∨ ∃ a u, x s = .ok a u ∧ f a u = .error e t := by
  simp only [bind, EStateM.bind]
  cases x s with
  | ok a u => simp
  | error e u => simp

/-- A sequence of two steps returns where both do. -/
theorem bind_eq_ok_iff {x : EStateM ε σ α} {f : α → EStateM ε σ β} {s t : σ} {b : β} :
    (x >>= f) s = .ok b t ↔ ∃ a u, x s = .ok a u ∧ f a u = .ok b t := by
  simp only [bind, EStateM.bind]
  cases x s with
  | ok a u => simp
  | error e u => simp

/-- A step that returns hands its result and its state on. -/
theorem bind_of_ok {x : EStateM ε σ α} {f : α → EStateM ε σ β} {s t : σ} {a : α}
    (h : x s = .ok a t) : (x >>= f) s = f a t := by
  simp only [bind, EStateM.bind, h]

theorem get_bind (f : σ → EStateM ε σ β) (s : σ) :
    ((get : EStateM ε σ σ) >>= f) s = f s s := rfl

theorem modify_eq (g : σ → σ) (s : σ) :
    (modify g : EStateM ε σ PUnit) s = .ok ⟨⟩ (g s) := rfl

theorem modify_bind (g : σ → σ) (f : PUnit → EStateM ε σ β) (s : σ) :
    ((modify g : EStateM ε σ PUnit) >>= f) s = f ⟨⟩ (g s) := rfl

/-- The computation leaves every state as it was. -/
def Keeps (x : EStateM ε σ α) : Prop := ∀ s, final (x s) = s

namespace Keeps

variable {x : EStateM ε σ α} {f : α → EStateM ε σ β}

theorem pure (a : α) : Keeps (Pure.pure a : EStateM ε σ α) := fun _ => rfl

theorem throw (e : ε) : Keeps (MonadExcept.throw e : EStateM ε σ α) := fun _ => rfl

theorem get : Keeps (MonadState.get : EStateM ε σ σ) := fun _ => rfl

theorem eq_of_ok (hx : Keeps x) {s t : σ} {a : α} (h : x s = .ok a t) : t = s := by
  have := hx s
  rw [h] at this
  exact this

theorem eq_of_error (hx : Keeps x) {s t : σ} {e : ε} (h : x s = .error e t) : t = s := by
  have := hx s
  rw [h] at this
  exact this

/-- The rule for sequences. -/
theorem bind (hx : Keeps x) (hf : ∀ a, Keeps (f a)) : Keeps (x >>= f) := by
  intro s
  simp only [Bind.bind, EStateM.bind]
  cases h : x s with
  | ok a t =>
      rw [hx.eq_of_ok h]
      exact hf a s
  | error e t => exact hx.eq_of_error h

theorem ite {c : Prop} [Decidable c] {y : EStateM ε σ α} (hx : Keeps x) (hy : Keeps y) :
    Keeps (if c then x else y) := by
  split
  next => exact hx
  next => exact hy

end Keeps

/-- From the state `s` the computation returns with `Q` or fails with `E`. -/
def Ends (x : EStateM ε σ α) (s : σ) (Q : α → σ → Prop) (E : ε → Prop) : Prop :=
  match x s with
  | .ok a t => Q a t
  | .error e _ => E e

namespace Ends

variable {x : EStateM ε σ α} {f : α → EStateM ε σ β} {s : σ} {Q : α → σ → Prop}
  {R : β → σ → Prop} {E : ε → Prop}

theorem pure {a : α} (h : Q a s) : Ends (Pure.pure a) s Q E := h

theorem throw {e : ε} (h : E e) : Ends (MonadExcept.throw e : EStateM ε σ α) s Q E := h

/-- Nothing is asked of the computation. -/
theorem trivial : Ends x s (fun _ _ => True) fun _ => True := by
  unfold Ends
  split
  next => exact True.intro
  next => exact True.intro

/-- Nothing is asked of a failure. -/
theorem of_ok (hx : Ends x s Q E) : Ends x s Q fun _ => True := by
  unfold Ends at hx ⊢
  cases hs : x s with
  | ok a t => simpa only [hs] using hx
  | error e t => exact True.intro

/-- The rule for sequences, which remembers that the first step returned. -/
theorem bind_ran (hx : Ends x s Q E) (hf : ∀ a t, x s = .ok a t → Q a t → Ends (f a) t R E) :
    Ends (x >>= f) s R E := by
  unfold Ends at hx ⊢
  simp only [Bind.bind, EStateM.bind]
  cases hs : x s with
  | ok a t =>
      simp only [hs] at hx
      exact hf a t hs hx
  | error e t => simpa only [hs] using hx

/-- The rule for sequences. -/
theorem bind (hx : Ends x s Q E) (hf : ∀ a t, Q a t → Ends (f a) t R E) :
    Ends (x >>= f) s R E := hx.bind_ran fun a t _ => hf a t

end Ends

/-! ## What happens to the state, whichever way a computation ends -/

section Final

variable {R : σ → σ → Prop}

/-- A sequence relates its first and its last state where both steps do. -/
theorem final_bind (htrans : ∀ {s t u}, R s t → R t u → R s u) {x : EStateM ε σ α}
    {f : α → EStateM ε σ β} {s : σ} (hx : R s (final (x s)))
    (hf : ∀ a t, R t (final (f a t))) : R s (final ((x >>= f) s)) := by
  simp only [Bind.bind, EStateM.bind]
  cases h : x s with
  | ok a t =>
      rw [h] at hx
      exact htrans hx (hf a t)
  | error e t =>
      rw [h] at hx
      exact hx

/-- A loop does where its body does. -/
theorem final_forM (hrefl : ∀ s, R s s) (htrans : ∀ {s t u}, R s t → R t u → R s u)
    {f : α → EStateM ε σ PUnit} {l : List α} (hf : ∀ a ∈ l, ∀ s, R s (final (f a s))) (s : σ) :
    R s (final (l.forM f s)) := by
  induction l generalizing s with
  | nil => exact hrefl s
  | cons a l ih =>
      rw [List.forM_eq_forM, List.forM_cons]
      refine final_bind (R := R) htrans (hf a List.mem_cons_self s) fun _ t => ?_
      exact ih (fun b hb => hf b (List.mem_cons_of_mem _ hb)) t

end Final

end StudyNotes.Effect
