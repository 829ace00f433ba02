/-
# The block monitor (`LogMonitor`)

The looper prints a line before and one after every dispatch.  The monitor takes
the time at each and posts a report for a dispatch that took too long.  The report
runs on another looper, and where the source passes `mStartTimestamp` to
`getStacks` it passes the field, not the value the dispatch started with.

A report that runs after the next dispatch has started asks for the samples of an
empty interval.  So a report shows the stacks of its own block exactly when no
dispatch has started since, or there is nothing to show.
-/

import StudyNotes.Monitor.StackSampler

namespace StudyNotes.Monitor

open StudyNotes.Run

/-- A posted report.  The closure captures `endTime`; `dispatchStart` is the time at
which its dispatch started and is not part of it. -/
structure Report where
  endTime : ℤ
  dispatchStart : ℤ

/-- The fields of the monitor, and the queue of its handler. -/
structure LogMonitor where
  mPrintingStarted : Bool := false
  mStartTimestamp : ℤ := 0
  mStackSampler : StackSampler := {}
  posted : List Report := []

/-- A line printed by the main looper, a step of the sampler's thread, and the run of
the next report. -/
inductive MonitorEvent
  | println (now : ℤ)
  | sampler (e : SamplerEvent)
  | report
  deriving DecidableEq

/-- The time of a line. -/
def MonitorEvent.time? : MonitorEvent → Option ℤ
  | .println now => some now
  | _ => none

namespace LogMonitor

/-- `mBlockThresholdMillis`. -/
def mBlockThresholdMillis : ℤ := 3000

/-- `isBlock(endTime)`. -/
def isBlock (m : LogMonitor) (endTime : ℤ) : Bool :=
  mBlockThresholdMillis < endTime - m.mStartTimestamp

/-- `notifyBlockEvent(endTime)`. -/
def notifyBlockEvent (m : LogMonitor) (endTime : ℤ) : LogMonitor :=
  { m with posted := m.posted ++ [⟨endTime, m.mStartTimestamp⟩] }

/-- `println(x)`; the text is not read. -/
def println (m : LogMonitor) (now : ℤ) : LogMonitor :=
  if m.mPrintingStarted then
    let m := { m with mPrintingStarted := false }
    let m := if m.isBlock now then m.notifyBlockEvent now else m
    { m with mStackSampler := m.mStackSampler.stopDump }
  else
    { m with
      mStartTimestamp := now
      mPrintingStarted := true
      mStackSampler := m.mStackSampler.startDump }

/-- What a report prints when it runs now. -/
def printed (format : ℤ → String) (m : LogMonitor) (r : Report) : List String :=
  m.mStackSampler.getStacks format m.mStartTimestamp r.endTime

/-- One event. -/
def step (m : LogMonitor) : MonitorEvent → LogMonitor
  | .println now => m.println now
  | .sampler e => { m with mStackSampler := m.mStackSampler.step e }
  | .report => { m with posted := m.posted.tail }

/-- A monitor after a run, started with any samples. -/
def run (samples : StackMap) (es : List MonitorEvent) : LogMonitor :=
  after step { mStackSampler := { mStackMap := samples } } es

@[simp]
theorem run_append_singleton (samples : StackMap) (pre : List MonitorEvent) (e : MonitorEvent) :
    run samples (pre ++ [e]) = (run samples pre).step e := after_append_singleton _ _ _ _

/-! ## The law and the condition -/

/-- The clock does not go back between two lines. -/
def Chronological (es : List MonitorEvent) : Prop :=
  (es.filterMap MonitorEvent.time?).Pairwise (· ≤ ·)

instance (es : List MonitorEvent) : Decidable (Chronological es) :=
  inferInstanceAs (Decidable (List.Pairwise _ _))

variable (format : ℤ → String) (samples : StackMap)

/-- The report that runs prints the samples then held of its own dispatch. -/
def OwnStacks (pre : List MonitorEvent) (e : MonitorEvent) : Prop :=
  e = .report → ∀ r ∈ (run samples pre).posted.head?,
    (run samples pre).printed format r =
      (run samples pre).mStackSampler.getStacks format r.dispatchStart r.endTime

/-- The report that runs finds the start of its own dispatch in the field, or there
are no samples of that dispatch. -/
def Timely (pre : List MonitorEvent) (e : MonitorEvent) : Prop :=
  e = .report → ∀ r ∈ (run samples pre).posted.head?,
    (run samples pre).mStartTimestamp = r.dispatchStart ∨
      ∀ x ∈ (run samples pre).mStackSampler.mStackMap,
        ¬ (r.dispatchStart ≤ x.1 ∧ x.1 < r.endTime)

instance (pre : List MonitorEvent) (e : MonitorEvent) : Decidable (Timely samples pre e) :=
  inferInstanceAs (Decidable (_ → _))

/-! ## What a posted report knows -/

/-- Times seen so far.  A posted report belongs to the dispatch the field speaks of,
or the field has moved past its end. -/
structure Dated (m : LogMonitor) (pre : List MonitorEvent) : Prop where
  posted_before : ∀ r ∈ m.posted, .println r.endTime ∈ pre
  current_or_past : ∀ r ∈ m.posted,
    m.mStartTimestamp = r.dispatchStart ∨ r.endTime ≤ m.mStartTimestamp

variable {format samples}

theorem Dated.println {m : LogMonitor} {pre : List MonitorEvent} (h : m.Dated pre) {now : ℤ}
    (hnow : ∀ t, .println t ∈ pre → t ≤ now) : (m.println now).Dated (pre ++ [.println now]) := by
  have hkept : ∀ r ∈ m.posted, .println r.endTime ∈ pre ++ [.println now] := fun r hr =>
    List.mem_append_left _ (h.posted_before r hr)
  rw [LogMonitor.println]
  cases m.mPrintingStarted with
  | false => exact ⟨hkept, fun r hr => Or.inr (hnow _ (h.posted_before r hr))⟩
  | true =>
      simp only [if_true]
      split
      · -- the new report is of the dispatch that has just ended
        refine ⟨fun r hr => ?_, fun r hr => ?_⟩
        · rcases List.mem_append.mp hr with hold | hnew
          · exact hkept r hold
          · rw [List.mem_singleton.mp hnew]
            exact List.mem_append_right _ (List.mem_singleton.mpr rfl)
        · rcases List.mem_append.mp hr with hold | hnew
          · exact h.current_or_past r hold
          · rw [List.mem_singleton.mp hnew]
            exact Or.inl rfl
      · exact ⟨hkept, h.current_or_past⟩

theorem Chronological.le {es pre : List MonitorEvent} (hes : Chronological es) {now t : ℤ}
    (hpre : pre ++ [.println now] <+: es) (ht : .println t ∈ pre) : t ≤ now := by
  have hsublist := hpre.sublist.filterMap MonitorEvent.time?
  rw [List.filterMap_append] at hsublist
  have hpairs := List.pairwise_append.mp (hes.sublist hsublist)
  exact hpairs.2.2 t (List.mem_filterMap.mpr ⟨_, ht, rfl⟩) now (List.mem_singleton.mpr rfl)

theorem dated_run {es : List MonitorEvent} (hes : Chronological es) :
    EveryPrefix (fun pre => (run samples pre).Dated pre) es := by
  have hclock : EveryStep (fun pre e => ∀ now, e = .println now →
      ∀ t, .println t ∈ pre → t ≤ now) es := by
    intro pre e hpre now he t ht
    subst he
    exact hes.le hpre ht
  refine EveryPrefix.of_step (P := fun pre => (run samples pre).Dated pre) ?_ ?_ hclock
  · exact ⟨fun r hr => absurd hr List.not_mem_nil, fun r hr => absurd hr List.not_mem_nil⟩
  · intro pre e hnow h
    rw [run_append_singleton]
    cases e with
    | println now => exact h.println (hnow now rfl)
    | sampler e =>
        exact ⟨fun r hr => List.mem_append_left _ (h.posted_before r hr), h.current_or_past⟩
    | report =>
        exact ⟨fun r hr => List.mem_append_left _ (h.posted_before r (List.mem_of_mem_tail hr)),
          fun r hr => h.current_or_past r (List.mem_of_mem_tail hr)⟩

/-- Once the field has moved past the end of the dispatch, nothing is printed. -/
theorem printed_eq_nil {m : LogMonitor} {r : Report} (h : r.endTime ≤ m.mStartTimestamp) :
    m.printed format r = [] := by
  rw [printed, StackSampler.getStacks, List.map_eq_nil_iff, List.filter_eq_nil_iff]
  intro x _ hx
  have hboth := of_decide_eq_true hx
  omega

theorem getStacks_eq_nil_iff {s : StackSampler} {startTime endTime : ℤ} :
    s.getStacks format startTime endTime = [] ↔
      ∀ x ∈ s.mStackMap, ¬ (startTime ≤ x.1 ∧ x.1 < endTime) := by
  rw [StackSampler.getStacks, List.map_eq_nil_iff, List.filter_eq_nil_iff]
  simp

theorem printed_eq_iff {m : LogMonitor} {r : Report}
    (h : m.mStartTimestamp = r.dispatchStart ∨ r.endTime ≤ m.mStartTimestamp) :
    m.printed format r = m.mStackSampler.getStacks format r.dispatchStart r.endTime ↔
      m.mStartTimestamp = r.dispatchStart ∨
        ∀ x ∈ m.mStackSampler.mStackMap, ¬ (r.dispatchStart ≤ x.1 ∧ x.1 < r.endTime) := by
  rw [← @getStacks_eq_nil_iff format]
  rcases h with hcurrent | hpast
  · rw [printed, hcurrent]
    exact ⟨fun _ => Or.inl rfl, fun _ => rfl⟩
  · rw [printed_eq_nil hpast]
    constructor
    · intro hnil
      exact Or.inr hnil.symm
    · rintro (hcurrent | hnil)
      · rw [← hcurrent, ← printed, printed_eq_nil hpast]
      · exact hnil.symm

/-- Over a whole run, every report shows the stacks of its own block exactly when
every report that has stacks to show runs before the next dispatch starts. -/
theorem everyReport_ownStacks_iff (format : ℤ → String) (samples : StackMap)
    (es : List MonitorEvent) (hes : Chronological es) :
    EveryStep (OwnStacks format samples) es ↔ EveryStep (Timely samples) es := by
  apply forall₃_congr
  intro pre e hpre
  have hdated := @dated_run samples es hes pre ((List.prefix_append pre [e]).trans hpre)
  apply forall_congr'
  intro _
  apply forall₂_congr
  intro r hr
  exact printed_eq_iff (hdated.current_or_past r (List.mem_of_mem_head? hr))

/-- A dispatch of five seconds, sampled after one. -/
def blockedDispatch : List MonitorEvent :=
  [.println 0, .sampler .dequeue, .sampler (.takeStack "onClick"), .sampler (.store 1000),
    .sampler .readShouldSample, .sampler .post, .println 5000]

/-- The report runs at once. -/
theorem everyReport_ownStacks_at_once :
    Chronological (blockedDispatch ++ [.report]) ∧
      EveryStep (OwnStacks (fun _ => "") []) (blockedDispatch ++ [.report]) :=
  ⟨by decide, (everyReport_ownStacks_iff _ [] _ (by decide)).mpr (by decide)⟩

/-- The report runs after the next dispatch has started, and prints nothing. -/
theorem not_everyReport_ownStacks_late :
    ¬ ∀ format samples es, Chronological es → EveryStep (OwnStacks format samples) es := by
  intro hlaw
  have hown := hlaw (fun _ => "") [] (blockedDispatch ++ [.println 5001, .report]) (by decide)
    (blockedDispatch ++ [.println 5001]) .report (List.prefix_refl _) rfl _ rfl
  exact absurd hown (by decide)

end LogMonitor

end StudyNotes.Monitor
