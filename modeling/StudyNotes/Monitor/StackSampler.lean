/-
# The stack sampler (`StackSampler`)

The main thread switches the sampling on and off; a callback on the sampler's own
thread takes a stack, stores it and posts itself again while the flag is set.
Reading the flag and posting are two steps, so a call of the main thread can fall
between them, and clearing the queue does not stop a callback that already runs.

There is one sampling chain at most exactly in the schedules in which no call
that takes effect falls into a run of the callback that posts itself again.
-/

import StudyNotes.Lib.Run

namespace StudyNotes.Monitor

open StudyNotes.Run

/-! ## The samples -/

/-- A `LinkedHashMap` from time stamps to stacks, in the order of insertion. -/
abbrev StackMap := List (ℤ × String)

/-- `mStackMap[key] = stack`: a key that is there keeps its place. -/
def StackMap.put (m : StackMap) (key : ℤ) (stack : String) : StackMap :=
  if m.any (·.1 = key) then m.map fun x => if x.1 = key then (key, stack) else x
  else m ++ [(key, stack)]

/-- `mMaxCount`. -/
def mMaxCount : ℕ := 100

/-- The synchronized part of `run`: the oldest sample makes room. -/
def StackMap.store (m : StackMap) (now : ℤ) (stack : String) : StackMap :=
  StackMap.put (if m.length = mMaxCount then m.tail else m) now stack

/-! ## The sampler -/

/-- Where a run of `mRunnable` stands.  At `posting` it has read the flag as set. -/
inductive Position
  | idle
  | started
  | tookStack (stack : String)
  | stored
  | posting
  deriving DecidableEq

/-- The fields of the sampler, the number of `mRunnable`s in the handler's queue and
the run in progress. -/
structure StackSampler where
  mStackMap : StackMap := []
  mShouldSample : Bool := false
  pending : ℕ := 0
  position : Position := .idle

/-- The calls of the main thread, and the steps of `mRunnable` on the sampler's
thread with what they read from the system. -/
inductive SamplerEvent
  | startDump
  | stopDump
  | dequeue
  | takeStack (stack : String)
  | store (now : ℤ)
  | readShouldSample
  | post
  deriving DecidableEq

namespace StackSampler

/-- `startDump()`. -/
def startDump (s : StackSampler) : StackSampler :=
  if s.mShouldSample then s else { s with mShouldSample := true, pending := 1 }

/-- `stopDump()`. -/
def stopDump (s : StackSampler) : StackSampler :=
  if s.mShouldSample then { s with mShouldSample := false, pending := 0 } else s

/-- One event; one that cannot happen in a state leaves it. -/
def step (s : StackSampler) : SamplerEvent → StackSampler
  | .startDump => s.startDump
  | .stopDump => s.stopDump
  | .dequeue =>
    if s.position = .idle ∧ 0 < s.pending then
      { s with pending := s.pending - 1, position := .started }
    else s
  | .takeStack stack =>
    if s.position = .started then { s with position := .tookStack stack } else s
  | .store now =>
    match s.position with
    | .tookStack stack => { s with mStackMap := s.mStackMap.store now stack, position := .stored }
    | _ => s
  | .readShouldSample =>
    if s.position = .stored then
      { s with position := if s.mShouldSample then .posting else .idle }
    else s
  | .post =>
    if s.position = .posting then
      { s with pending := s.pending + 1, position := .idle }
    else s

/-- The sampler after a schedule. -/
def run (es : List SamplerEvent) : StackSampler := after step {} es

@[simp]
theorem run_append_singleton (pre : List SamplerEvent) (e : SamplerEvent) :
    run (pre ++ [e]) = (run pre).step e := after_append_singleton _ _ _ _

/-- `getStacks(startTime, endTime)`, with the time format. -/
def getStacks (format : ℤ → String) (s : StackSampler) (startTime endTime : ℤ) : List String :=
  (s.mStackMap.filter fun x => startTime ≤ x.1 ∧ x.1 < endTime).map fun x =>
    format x.1 ++ "\r\n" ++ "\r\n" ++ x.2

/-! ## The law and the condition -/

/-- One chain at most, and none while the sampling is off and no run in progress. -/
structure OneChain (s : StackSampler) : Prop where
  pending_le : s.pending ≤ 1
  pending_of_off : s.mShouldSample = false → s.position = .idle → s.pending = 0

/-- The call takes effect: it changes the flag. -/
def TakesEffect (s : StackSampler) : SamplerEvent → Bool
  | .startDump => !s.mShouldSample
  | .stopDump => s.mShouldSample
  | _ => false

/-- The sampler, and whether a call that took effect fell into the run in progress. -/
def track (x : StackSampler × Bool) (e : SamplerEvent) : StackSampler × Bool :=
  (x.1.step e,
    if e = .dequeue ∧ x.1.position = .idle ∧ 0 < x.1.pending then false
    else x.2 || x.1.TakesEffect e)

/-- A call that took effect fell into the run in progress. -/
def disturbed (es : List SamplerEvent) : Bool := (after track ({}, false) es).2

/-- A run posts itself again only where nothing disturbed it. -/
def Undisturbed (pre : List SamplerEvent) (e : SamplerEvent) : Prop :=
  e = .post → (run pre).position = .posting → disturbed pre = false

theorem disturbed_append_singleton (pre : List SamplerEvent) (e : SamplerEvent) :
    disturbed (pre ++ [e]) =
      if e = .dequeue ∧ (run pre).position = .idle ∧ 0 < (run pre).pending then false
      else disturbed pre || (run pre).TakesEffect e := by
  have hfst : ∀ es, (after track ({}, false) es).1 = run es := by
    intro es
    induction es using List.reverseRecOn with
    | nil => rfl
    | append_singleton es e ih => rw [after_append_singleton, run_append_singleton, ← ih, track]
  rw [disturbed, after_append_singleton, track, hfst pre]
  rfl

/-- The state between two steps while nothing has gone wrong.  A run that was not
disturbed has emptied the queue, and one that was has left the flag off or found
the callback of a new chain in the queue. -/
structure Sound (s : StackSampler) (d : Bool) : Prop where
  pending_le : s.pending ≤ 1
  pending_of_off : s.mShouldSample = false → s.pending = 0
  quiet : s.position ≠ .idle → d = false → s.pending = 0
  posting : s.position = .posting → d = false → s.mShouldSample = true
  renewed : s.position ≠ .idle → d = true → s.mShouldSample = true → s.pending = 1

theorem Sound.oneChain {s : StackSampler} {d : Bool} (h : s.Sound d) : s.OneChain :=
  ⟨h.pending_le, fun hoff _ => h.pending_of_off hoff⟩

theorem Sound.startDump {s : StackSampler} {d : Bool} (h : s.Sound d) :
    s.startDump.Sound (d || !s.mShouldSample) := by
  rw [StackSampler.startDump]
  cases hflag : s.mShouldSample with
  | true => simpa using h
  | false => exact ⟨le_rfl, by simp, by simp, by simp, by simp⟩

theorem Sound.stopDump {s : StackSampler} {d : Bool} (h : s.Sound d) :
    s.stopDump.Sound (d || s.mShouldSample) := by
  rw [StackSampler.stopDump]
  cases hflag : s.mShouldSample with
  | true => exact ⟨by simp, by simp, by simp, by simp, by simp⟩
  | false => simpa using h

/-- A step of a run that neither reads the flag nor posts. -/
theorem Sound.proceed {s : StackSampler} {d : Bool} (h : s.Sound d) (hrun : s.position ≠ .idle)
    {p : Position} (hp : p ≠ .posting) (m : StackMap) :
    ({ s with mStackMap := m, position := p } : StackSampler).Sound d :=
  ⟨h.pending_le, h.pending_of_off, fun _ => h.quiet hrun, fun hposting => absurd hposting hp,
    fun _ => h.renewed hrun⟩

theorem sound_append {pre : List SamplerEvent} {e : SamplerEvent} (hcond : Undisturbed pre e)
    (h : (run pre).Sound (disturbed pre)) : (run (pre ++ [e])).Sound (disturbed (pre ++ [e])) := by
  rw [disturbed_append_singleton, run_append_singleton]
  cases e with
  | startDump => exact h.startDump
  | stopDump => exact h.stopDump
  | dequeue =>
      by_cases henabled : (run pre).position = .idle ∧ 0 < (run pre).pending
      · have hempty : (run pre).pending - 1 = 0 := by
          have hle := h.pending_le
          omega
        simp only [step, henabled, and_self, if_true]
        exact ⟨by simp [hempty], fun _ => hempty, fun _ _ => hempty, by simp, by simp⟩
      · simpa [step, henabled, TakesEffect] using h
  | takeStack stack =>
      by_cases hstarted : (run pre).position = .started
      · simpa [step, hstarted, TakesEffect] using h.proceed (by simp [hstarted]) (by simp) _
      · simpa [step, hstarted, TakesEffect] using h
  | store now =>
      simp only [step, TakesEffect, Bool.or_false, reduceCtorEq, false_and, if_false]
      split
      · rename_i stack hstack
        exact h.proceed (by simp [hstack]) (by simp) _
      · exact h
  | readShouldSample =>
      by_cases hstored : (run pre).position = .stored
      · simp only [step, hstored, TakesEffect, Bool.or_false, reduceCtorEq, false_and, if_false,
          if_true]
        have hrun : (run pre).position ≠ .idle := by simp [hstored]
        exact ⟨h.pending_le, h.pending_of_off, fun _ => h.quiet hrun,
          fun hposting _ => by by_contra hoff; simp [hoff] at hposting, fun _ => h.renewed hrun⟩
      · simpa [step, hstored, TakesEffect] using h
  | post =>
      by_cases hposting : (run pre).position = .posting
      · have hquiet := hcond rfl hposting
        have hempty := h.quiet (by simp [hposting]) hquiet
        have hon := h.posting hposting hquiet
        simp only [step, hposting, TakesEffect, Bool.or_false, reduceCtorEq, false_and, if_false,
          if_true]
        exact ⟨by simp [hempty], by simp [hon], by simp, by simp, by simp⟩
      · simpa [step, hposting, TakesEffect] using h

/-- A run that posts itself again although it was disturbed leaves a second callback,
or one that nobody will remove. -/
theorem not_oneChain_of_disturbed {pre : List SamplerEvent} {e : SamplerEvent}
    (h : (run pre).Sound (disturbed pre)) (hcond : ¬ Undisturbed pre e) :
    ¬ (run (pre ++ [e])).OneChain := by
  simp only [Undisturbed, Classical.not_imp, Bool.not_eq_false] at hcond
  obtain ⟨rfl, hposting, hdisturbed⟩ := hcond
  have hstep : run (pre ++ [.post]) =
      { run pre with pending := (run pre).pending + 1, position := .idle } := by
    rw [run_append_singleton, step, if_pos hposting]
  intro hchain
  rw [hstep] at hchain
  cases hflag : (run pre).mShouldSample with
  | false => exact absurd (hchain.pending_of_off hflag rfl) (Nat.succ_ne_zero _)
  | true =>
      have hpending := h.renewed (by simp [hposting]) hdisturbed hflag
      have hle : (run pre).pending + 1 ≤ 1 := hchain.pending_le
      omega

/-- There is one chain at most, throughout a schedule, exactly when every run that
posts itself again was left alone by the main thread. -/
theorem everyPrefix_oneChain_iff (es : List SamplerEvent) :
    EveryPrefix (fun pre => (run pre).OneChain) es ↔ EveryStep Undisturbed es :=
  everyPrefix_iff_everyStep (I := fun pre => (run pre).Sound (disturbed pre))
    ⟨by decide, by decide, by decide, by decide, by decide⟩ (fun _ h => h.oneChain)
    (fun _ _ hcond h => sound_append hcond h)
    (fun _ _ h hcond => not_oneChain_of_disturbed h hcond) es

/-- The main thread stops the sampling between the read and the post. -/
theorem not_everyPrefix_oneChain_stopDump :
    ¬ ∀ es, EveryPrefix (fun pre => (run pre).OneChain) es := by
  intro hlaw
  have hchain := (hlaw [.startDump, .dequeue, .takeStack "main", .store 1000, .readShouldSample,
    .stopDump, .post]).self
  exact absurd (hchain.pending_of_off rfl rfl) (by decide)

end StackSampler

end StudyNotes.Monitor
