/-
# Machines that ask for bits

A machine asks for some bits at a time, and the number they stand for takes it to its next
state or ends it.  A run stops where the bits do not suffice and goes on from there with
more of them, so what a machine does depends on the bits and not on how they arrive.
-/

import StudyNotes.Lib.Bits

namespace StudyNotes

open StudyNotes.Bits

/-- States `σ` that ask for bits, and results `ω`. -/
structure BitMachine (σ ω : Type) where
  width : σ → ℕ
  width_pos : ∀ s, 0 < width s
  step : σ → ℕ → σ ⊕ ω

namespace BitMachine

variable {σ ω : Type} (machine : BitMachine σ ω)

/-- Where a run stands when no more bits can be used, and the bits that are left. -/
def run (s : σ) (bits : List Bool) : (σ ⊕ ω) × List Bool :=
  if machine.width s ≤ bits.length then
    match machine.step s (ofBits (bits.take (machine.width s))) with
    | .inl s' => run s' (bits.drop (machine.width s))
    | .inr result => (.inr result, bits.drop (machine.width s))
  else (.inl s, bits)
termination_by bits.length
decreasing_by
  have hpos := machine.width_pos s
  rw [List.length_drop]
  omega

/-- What a run does from where it stands. -/
def resume : (σ ⊕ ω) × List Bool → List Bool → (σ ⊕ ω) × List Bool
  | (.inl s, left), bits => machine.run s (left ++ bits)
  | (.inr result, left), bits => (.inr result, left ++ bits)

variable {machine} {s s' : σ} {result : ω} {first second rest : List Bool}

theorem run_of_le (h : machine.width s ≤ first.length) :
    machine.run s first =
      match machine.step s (ofBits (first.take (machine.width s))) with
      | .inl s' => machine.run s' (first.drop (machine.width s))
      | .inr result => (.inr result, first.drop (machine.width s)) := by
  rw [run, if_pos h]

theorem run_of_lt (h : first.length < machine.width s) : machine.run s first = (.inl s, first) := by
  rw [run, if_neg (Nat.not_le.mpr h)]

/-- A run goes on where it stopped. -/
theorem run_append (s : σ) (first second : List Bool) :
    machine.run s (first ++ second) = machine.resume (machine.run s first) second := by
  induction hlength : first.length using Nat.strongRecOn generalizing s first with
  | ind n ih =>
      by_cases henough : machine.width s ≤ first.length
      · have hpos := machine.width_pos s
        have henough' : machine.width s ≤ (first ++ second).length := by
          rw [List.length_append]
          omega
        rw [run_of_le henough, run_of_le henough', List.take_append_of_le_length henough,
          List.drop_append_of_le_length henough]
        cases machine.step s (ofBits (first.take (machine.width s))) with
        | inl s' =>
            refine ih _ ?_ s' _ rfl
            rw [List.length_drop]
            omega
        | inr result => rfl
      · rw [run_of_lt (Nat.not_le.mp henough), resume]

/-! ## Runs that use up what they are given -/

variable (machine) in
/-- From a state the machine uses up exactly some bits and then stands there. -/
inductive Reads : σ → List Bool → σ ⊕ ω → Prop
  | refl (s : σ) : Reads s [] (.inl s)
  | step {s s' : σ} {bits rest : List Bool} {next : σ ⊕ ω} (hlength : bits.length = machine.width s)
      (hstep : machine.step s (ofBits bits) = .inl s') (hrest : Reads s' rest next) :
      Reads s (bits ++ rest) next
  | last {s : σ} {bits : List Bool} {result : ω} (hlength : bits.length = machine.width s)
      (hstep : machine.step s (ofBits bits) = .inr result) : Reads s bits (.inr result)

namespace Reads

theorem trans {next : σ ⊕ ω} (hfirst : machine.Reads s first (.inl s'))
    (hsecond : machine.Reads s' second next) : machine.Reads s (first ++ second) next := by
  generalize hmiddle : (Sum.inl s' : σ ⊕ ω) = middle at hfirst
  induction hfirst with
  | refl s =>
      cases hmiddle
      exact hsecond
  | step hlength hstep _ ih =>
      rw [List.append_assoc]
      exact .step hlength hstep (ih hmiddle)
  | last => cases hmiddle

/-- What every step keeps holds where the machine stands. -/
theorem keeps {P : σ → Prop}
    (hstep : ∀ s value s', P s → machine.step s value = .inl s' → P s')
    (h : machine.Reads s first (.inl s')) (hs : P s) : P s' := by
  generalize hnext : (Sum.inl s' : σ ⊕ ω) = next at h
  induction h with
  | refl s =>
      cases hnext
      exact hs
  | step _ hfirst _ ih => exact ih (hstep _ _ _ hs hfirst) hnext
  | last => cases hnext

/-- A result is that of the last step. -/
theorem exists_last (h : machine.Reads s first (.inr result)) :
    ∃ used s' bits, first = used ++ bits ∧ machine.Reads s used (.inl s') ∧
      bits.length = machine.width s' ∧ machine.step s' (ofBits bits) = .inr result := by
  generalize hnext : (Sum.inr result : σ ⊕ ω) = next at h
  induction h with
  | refl => cases hnext
  | @step s _ bits later _ hlength hstep _ ih =>
      obtain ⟨used, s', bits', rfl, hused, hlast⟩ := ih hnext
      exact ⟨bits ++ used, s', bits', (List.append_assoc _ _ _).symm, .step hlength hstep hused,
        hlast⟩
  | @last s bits _ hlength hstep =>
      cases hnext
      exact ⟨[], s, bits, rfl, .refl s, hlength, hstep⟩

/-- A run over the bits and more goes on with what is more. -/
theorem run_append_eq {next : σ ⊕ ω} (h : machine.Reads s first next) (rest : List Bool) :
    machine.run s (first ++ rest) = machine.resume (next, []) rest := by
  induction h with
  | refl s => rfl
  | @step s _ bits later _ hlength hstep _ ih =>
      have henough : machine.width s ≤ (bits ++ (later ++ rest)).length := by
        rw [List.length_append]
        omega
      rw [List.append_assoc, run_of_le henough, ← hlength, List.take_left, List.drop_left, hstep]
      exact ih
  | @last s bits _ hlength hstep =>
      have henough : machine.width s ≤ (bits ++ rest).length := by
        rw [List.length_append]
        omega
      rw [run_of_le henough, ← hlength, List.take_left, List.drop_left, hstep, resume,
        List.nil_append]

end Reads

/-- What is read from where a step has led. -/
def ReadsFrom (machine : BitMachine σ ω) (bits : List Bool) (last : σ ⊕ ω) : σ ⊕ ω → Prop
  | .inl s => machine.Reads s bits last
  | .inr result => bits = [] ∧ last = .inr result

theorem reads_number {n value : ℕ} {bits : List Bool} {last : σ ⊕ ω} (hwidth : machine.width s = n)
    (hvalue : value < 2 ^ n) (h : machine.ReadsFrom bits last (machine.step s value)) :
    machine.Reads s (toBits n value ++ bits) last := by
  subst hwidth
  cases hstep : machine.step s value with
  | inl s' =>
      rw [hstep] at h
      exact .step (length_toBits _ _) (by rw [ofBits_toBits hvalue, hstep]) h
  | inr result =>
      rw [hstep] at h
      obtain ⟨rfl, rfl⟩ := h
      rw [List.append_nil]
      exact .last (length_toBits _ _) (by rw [ofBits_toBits hvalue, hstep])

variable (machine) in
/-- A run uses up the bits before those that are left. -/
theorem exists_reads (s : σ) (bits : List Bool) :
    ∃ used, bits = used ++ (machine.run s bits).2 ∧
      machine.Reads s used (machine.run s bits).1 := by
  induction hlength : bits.length using Nat.strongRecOn generalizing s bits with
  | ind n ih =>
      by_cases henough : machine.width s ≤ bits.length
      · have hpos := machine.width_pos s
        have hbits := List.take_append_drop (machine.width s) bits
        have htake : (bits.take (machine.width s)).length = machine.width s :=
          List.length_take_of_le henough
        rw [run_of_le henough]
        cases hstep : machine.step s (ofBits (bits.take (machine.width s))) with
        | inl s' =>
            obtain ⟨used, hused, hreads⟩ := ih (bits.drop (machine.width s)).length
              (by rw [List.length_drop]; omega) s' _ rfl
            refine ⟨bits.take (machine.width s) ++ used, ?_, .step htake hstep hreads⟩
            rw [List.append_assoc, ← hused, hbits]
        | inr result => exact ⟨_, hbits.symm, .last htake hstep⟩
      · rw [run_of_lt (Nat.not_le.mp henough)]
        exact ⟨[], rfl, .refl s⟩

/-- A result is that of the last step, which is taken from where all steps before have kept. -/
theorem exists_last_step {P : σ → Prop} {bits left : List Bool}
    (hstep : ∀ s value s', P s → machine.step s value = .inl s' → P s') (hs : P s)
    (h : machine.run s bits = (.inr result, left)) :
    ∃ used s' value, machine.Reads s used (.inl s') ∧ P s' ∧ value.length = machine.width s' ∧
      bits = used ++ (value ++ left) ∧ machine.step s' (ofBits value) = .inr result := by
  obtain ⟨used, hused, hreads⟩ := machine.exists_reads s bits
  rw [h] at hused hreads
  obtain ⟨before, s', value, rfl, hbefore, hlength, hlast⟩ := hreads.exists_last
  exact ⟨before, s', value, hbefore, hbefore.keeps hstep hs, hlength,
    hused.trans (List.append_assoc _ _ _), hlast⟩

/-- A run that waits has too few bits left. -/
theorem length_lt_of_run {bits left : List Bool} (h : machine.run s bits = (.inl s', left)) :
    left.length < machine.width s' := by
  induction hlength : bits.length using Nat.strongRecOn generalizing s bits with
  | ind n ih =>
      by_cases henough : machine.width s ≤ bits.length
      · have hpos := machine.width_pos s
        rw [run_of_le henough] at h
        cases hstep : machine.step s (ofBits (bits.take (machine.width s))) with
        | inl s'' =>
            rw [hstep] at h
            refine ih _ ?_ h rfl
            rw [List.length_drop]
            omega
        | inr result =>
            rw [hstep] at h
            cases h
      · rw [run_of_lt (Nat.not_le.mp henough)] at h
        cases h
        exact Nat.not_le.mp henough

/-! ## A machine that is started again

After a result there may be another start, with what is kept of the results before. -/

variable {κ ω' : Type}

variable (machine) in
/-- The machine with `next` after its results. -/
def restart (next : κ → ω → (κ × σ) ⊕ ω') : BitMachine (κ × σ) ω' where
  width s := machine.width s.2
  width_pos s := machine.width_pos s.2
  step s value := (machine.step s.2 value).elim (fun s' => .inl (s.1, s')) (next s.1)

/-- What is run on to from a state that has been come to is run on to without new bits. -/
theorem resume_nil (last : (σ ⊕ ω) × List Bool) (bits : List Bool) :
    machine.resume (machine.resume last bits) [] = machine.resume last bits := by
  obtain ⟨s | result, left⟩ := last
  · show machine.resume (machine.run s (left ++ bits)) [] = machine.run s (left ++ bits)
    rw [← run_append, List.append_nil]
  · show (Sum.inr result, left ++ bits ++ []) = (Sum.inr result, left ++ bits)
    rw [List.append_nil]

/-- A run that goes on with more bits goes on with still more. -/
theorem resume_append (last : (σ ⊕ ω) × List Bool) (first second : List Bool) :
    machine.resume (machine.resume last first) second = machine.resume last (first ++ second) := by
  obtain ⟨s | result, left⟩ := last
  · show machine.resume (machine.run s (left ++ first)) second =
      machine.run s (left ++ (first ++ second))
    rw [← run_append, List.append_assoc]
  · show (Sum.inr result, left ++ first ++ second) = (Sum.inr result, left ++ (first ++ second))
    rw [List.append_assoc]

/-- Bits that come are bits that are left. -/
theorem resume_left (last : σ ⊕ ω) (left bits : List Bool) :
    machine.resume (last, left ++ bits) [] = machine.resume (last, left) bits := by
  cases last with
  | inl s =>
      show machine.run s (left ++ bits ++ []) = machine.run s (left ++ bits)
      rw [List.append_nil]
  | inr result =>
      show (Sum.inr result, left ++ bits ++ []) = (Sum.inr result, left ++ bits)
      rw [List.append_nil]

theorem restart_step {next : κ → ω → (κ × σ) ⊕ ω'} (k : κ) (s : σ) (value : ℕ) :
    (machine.restart next).step (k, s) value =
      (machine.step s value).elim (fun s' => .inl (k, s')) (next k) := rfl

/-- A run over some bits, and what follows its result without new bits. -/
theorem run_restart {next : κ → ω → (κ × σ) ⊕ ω'} (k : κ) (s : σ) (bits : List Bool) :
    (machine.restart next).run (k, s) bits =
      (machine.restart next).resume
        ((machine.run s bits).1.elim (fun s' => .inl (k, s')) (next k), (machine.run s bits).2)
        [] := by
  induction hlength : bits.length using Nat.strongRecOn generalizing s bits with
  | ind n ih =>
      by_cases henough : machine.width s ≤ bits.length
      · have hpos := machine.width_pos s
        have hwidth : (machine.restart next).width (k, s) = machine.width s := rfl
        have henough' : (machine.restart next).width (k, s) ≤ bits.length := henough
        have hstep := @restart_step _ _ machine _ _ next k s
          (ofBits (bits.take (machine.width s)))
        rw [run_of_le henough, run_of_le henough']
        change (machine.restart next).step (k, s)
          (ofBits (bits.take ((machine.restart next).width (k, s)))) = _ at hstep
        rw [hstep]
        cases machine.step s (ofBits (bits.take (machine.width s))) with
        | inl s' =>
            refine ih _ ?_ s' _ rfl
            rw [List.length_drop]
            omega
        | inr result =>
            dsimp only [Sum.elim_inr]
            cases next k result with
            | inl s' =>
                show (machine.restart next).run s' (bits.drop (machine.width s)) =
                  (machine.restart next).run s' (bits.drop (machine.width s) ++ [])
                rw [List.append_nil]
            | inr result' =>
                show (Sum.inr result', bits.drop (machine.width s)) =
                  (Sum.inr result', bits.drop (machine.width s) ++ [])
                rw [List.append_nil]
      · have hless : bits.length < (machine.restart next).width (k, s) := Nat.not_le.mp henough
        rw [run_of_lt hless, run_of_lt (Nat.not_le.mp henough)]
        show _ = (machine.restart next).run (k, s) (bits ++ [])
        rw [List.append_nil, run_of_lt hless]

end BitMachine

end StudyNotes
