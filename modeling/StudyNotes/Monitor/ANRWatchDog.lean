/-
# The ANR watchdog (`ANRWatchDog`)

The watchdog posts a checker to the main looper, waits five seconds and reports
the main thread as blocked if the checker has not answered.  It waits with `sleep`
where the source has a `wait` in a comment, so it keeps the monitor that the
checker needs, and no checker can answer before the waiting is over.

So the verdict is decided by what happens between the release of the monitor and
the second check.  A main thread that took the checker from its queue in time is
spared only if the check falls between the two assignments of its answer.
-/

import StudyNotes.Lib.Run

namespace StudyNotes.Monitor

open StudyNotes.Run

/-! ## The two threads -/

/-- Where the watchdog stands.  `waiting` remembers the time the wait began;
`rechecking` and `comparing` are the two reads of `isBlocked` after the release. -/
inductive WatchdogPosition
  | looping
  | clearing
  | acquiring
  | scheduling
  | starting
  | waiting (start : ℤ)
  | checking
  | releasing
  | rechecking
  | comparing
  | inspecting
  | reporting
  deriving DecidableEq

/-- Where the main looper stands with a checker. -/
inductive MainPosition
  | free
  | entering
  | setting
  | stamping
  | leaving
  deriving DecidableEq

inductive Owner
  | watchdog
  | main
  deriving DecidableEq

/-- The fields of the watchdog and its checker, the monitor, the checkers in the
main queue by their cycle, front first, and both threads.  `stamped`, `answered`
and `reports` are not part of the program: whether a checker has finished since the
last schedule, the cycles whose checker was dequeued before the wait ended, and the
cycles that were reported. -/
structure ANRWatchDog where
  now : ℤ
  mCompleted : Bool := false
  mStartTime : ℤ := 0
  executeTime : ℤ
  onAnrHappened : Bool := false
  isInterrupted : Bool := false
  isDebuggerConnected : Bool := false
  monitor : Option Owner := none
  messages : List ℕ := []
  watchdog : WatchdogPosition := .looping
  main : MainPosition := .free
  cycle : ℕ := 0
  stamped : Bool := false
  answered : List ℕ := []
  reports : List ℕ := []

/-- A step of either thread, and what else can happen to the fields they read. -/
inductive WatchdogEvent
  | tick (millis : ℕ)
  | watchdog
  | main
  | addANRListener
  | interrupt
  | debugger (connected : Bool)
  deriving DecidableEq

/-- The wait of the cycle is not over. -/
def WatchdogPosition.Waits : WatchdogPosition → Bool
  | .starting | .waiting _ => true
  | _ => false

/-- The watchdog is in its synchronized block. -/
def WatchdogPosition.Holds : WatchdogPosition → Bool
  | .scheduling | .starting | .waiting _ | .checking | .releasing => true
  | _ => false

/-- The checker is in its synchronized block. -/
def MainPosition.Holds : MainPosition → Bool
  | .setting | .stamping | .leaving => true
  | _ => false

namespace ANRWatchDog

/-- `timeout`. -/
def timeout : ℤ := 5000

/-- `ignoreDebugger`, which nothing assigns. -/
def ignoreDebugger : Bool := true

/-- `ANRChecker.schedule()`. -/
def schedule (s : ANRWatchDog) : ANRWatchDog :=
  { s with
    mCompleted := false
    mStartTime := s.now
    cycle := s.cycle + 1
    messages := (s.cycle + 1) :: s.messages
    stamped := false }

/-- One step of `ANRWatchDog.run`.  `sleep` ends a pending interrupt with an
exception that is logged. -/
def stepWatchdog (s : ANRWatchDog) : ANRWatchDog :=
  match s.watchdog with
  | .looping => { s with watchdog := if s.isInterrupted then .clearing else .acquiring }
  | .clearing => { s with onAnrHappened := false, watchdog := .looping }
  | .acquiring =>
    if s.monitor = none then { s with monitor := some .watchdog, watchdog := .scheduling } else s
  | .scheduling => { s.schedule with watchdog := .starting }
  | .starting => { s with watchdog := .waiting s.now }
  | .waiting start =>
    { s with
      isInterrupted := false
      watchdog := if 0 < timeout - (s.now - start) then .waiting start else .checking }
  -- both results of the first check lead out of the synchronized block
  | .checking => { s with watchdog := .releasing }
  | .releasing => { s with monitor := none, watchdog := .rechecking }
  | .rechecking => { s with watchdog := if s.mCompleted then .comparing else .inspecting }
  | .comparing =>
    { s with watchdog := if 5000 ≤ s.executeTime - s.mStartTime then .inspecting else .looping }
  | .inspecting =>
    { s with
      watchdog := if !ignoreDebugger && s.isDebuggerConnected then .looping else .reporting }
  | .reporting =>
    { s with
      reports := if s.onAnrHappened then s.cycle :: s.reports else s.reports
      watchdog := .looping }

/-- One step of the main looper: it dequeues a checker or runs `ANRChecker.run`. -/
def stepMain (s : ANRWatchDog) : ANRWatchDog :=
  match s.main with
  | .free =>
    match s.messages with
    | [] => s
    | c :: messages =>
      { s with
        messages := messages
        main := .entering
        answered := if c = s.cycle ∧ s.watchdog.Waits then c :: s.answered else s.answered }
  | .entering =>
    if s.monitor = none then { s with monitor := some .main, main := .setting } else s
  | .setting => { s with mCompleted := true, main := .stamping }
  | .stamping => { s with executeTime := s.now, stamped := true, main := .leaving }
  | .leaving => { s with monitor := none, main := .free }

/-- One event. -/
def step (s : ANRWatchDog) : WatchdogEvent → ANRWatchDog
  | .tick millis => { s with now := s.now + millis }
  | .watchdog => s.stepWatchdog
  | .main => s.stepMain
  | .addANRListener => { s with onAnrHappened := true }
  | .interrupt => { s with isInterrupted := true }
  | .debugger connected => { s with isDebuggerConnected := connected }

/-- The watchdog, created at some time, after a schedule. -/
def run (created : ℤ) (es : List WatchdogEvent) : ANRWatchDog :=
  after step { now := created, executeTime := created } es

@[simp]
theorem run_append_singleton (created : ℤ) (pre : List WatchdogEvent) (e : WatchdogEvent) :
    run created (pre ++ [e]) = (run created pre).step e := after_append_singleton _ _ _ _

/-! ## The law and the condition -/

/-- No cycle is reported whose checker the main looper took before the wait ended. -/
def NoFalseAlarm (s : ANRWatchDog) : Prop := ∀ c ∈ s.reports, c ∉ s.answered

/-- The main thread has set `mCompleted` and not yet `executeTime`, for the first time
since the checker was scheduled. -/
def Answering (s : ANRWatchDog) : Prop := s.main = .stamping ∧ s.stamped = false

/-- The watchdog takes the two reads of the second check. -/
def Judges (s : ANRWatchDog) : Prop := s.watchdog = .rechecking ∨ s.watchdog = .comparing

instance (s : ANRWatchDog) : Decidable s.Answering := inferInstanceAs (Decidable (_ ∧ _))

instance (s : ANRWatchDog) : Decidable s.Judges := inferInstanceAs (Decidable (_ ∨ _))

/-- In a cycle answered in time the second check falls between the two assignments of
the answer. -/
def CaughtAnswering (created : ℤ) (pre : List WatchdogEvent) (e : WatchdogEvent) : Prop :=
  e = .watchdog → (run created pre).Judges → (run created pre).cycle ∈ (run created pre).answered →
    (run created pre).Answering

instance (created : ℤ) (pre : List WatchdogEvent) (e : WatchdogEvent) :
    Decidable (CaughtAnswering created pre e) :=
  inferInstanceAs (Decidable (_ → _))

/-! ## The monitor and the clock -/

/-- While the watchdog holds the monitor no checker answers. -/
structure Unanswered (s : ANRWatchDog) : Prop where
  mCompleted : s.mCompleted = false
  stamped : s.stamped = false
  stale : s.executeTime ≤ s.mStartTime

/-- After the release the fields tell how far the first answer has come. -/
structure Released (s : ANRWatchDog) : Prop where
  deadline : s.mStartTime + timeout ≤ s.now
  mCompleted : s.mCompleted = true ↔ s.main = .stamping ∨ s.stamped = true
  stale : s.stamped = false → s.executeTime ≤ s.mStartTime
  late : s.stamped = true → s.mStartTime + timeout ≤ s.executeTime

/-- What holds at each position of the watchdog. -/
def Phase (s : ANRWatchDog) : Prop :=
  match s.watchdog with
  | .starting => s.Unanswered ∧ s.mStartTime ≤ s.now
  | .waiting start => s.Unanswered ∧ s.mStartTime ≤ start
  | .checking | .releasing => s.Unanswered ∧ s.mStartTime + timeout ≤ s.now
  | .rechecking => s.Released
  | .comparing => s.Released ∧ s.mCompleted = true
  | _ => True

/-- The state between two steps. -/
structure Sound (s : ANRWatchDog) : Prop where
  watchdog_holds : s.monitor = some .watchdog ↔ s.watchdog.Holds
  main_holds : s.monitor = some .main ↔ s.main.Holds
  executeTime_le : s.executeTime ≤ s.now
  phase : s.Phase

theorem Sound.stepWatchdog {s : ANRWatchDog} (h : s.Sound) : s.stepWatchdog.Sound := by
  obtain ⟨hwatchdog, hmain, htime, hphase⟩ := h
  rw [ANRWatchDog.stepWatchdog]
  cases hpos : s.watchdog with
  | looping =>
      rw [hpos] at hwatchdog
      cases s.isInterrupted with
      | true => exact ⟨hwatchdog, hmain, htime, trivial⟩
      | false => exact ⟨hwatchdog, hmain, htime, trivial⟩
  | clearing =>
      rw [hpos] at hwatchdog
      exact ⟨hwatchdog, hmain, htime, trivial⟩
  | acquiring =>
      by_cases hfree : s.monitor = none
      · simp only [hfree, if_true]
        rw [hfree] at hmain
        exact ⟨by simp [WatchdogPosition.Holds], by simpa using hmain, htime, trivial⟩
      · simp only [hfree, if_false]
        exact ⟨hwatchdog, hmain, htime, hphase⟩
  | scheduling =>
      rw [hpos] at hwatchdog
      exact ⟨hwatchdog, hmain, htime, ⟨rfl, rfl, htime⟩, Int.le_refl s.now⟩
  | starting =>
      rw [hpos] at hwatchdog
      simp only [Phase, hpos] at hphase
      exact ⟨hwatchdog, hmain, htime, ⟨hphase.1.1, hphase.1.2, hphase.1.3⟩, hphase.2⟩
  | waiting start =>
      rw [hpos] at hwatchdog
      simp only [Phase, hpos] at hphase
      have hkept := hphase.1
      by_cases hmore : 0 < timeout - (s.now - start)
      · simp only [hmore, if_true]
        exact ⟨hwatchdog, hmain, htime, ⟨hkept.1, hkept.2, hkept.3⟩, hphase.2⟩
      · simp only [hmore, if_false]
        have hover : s.mStartTime + timeout ≤ s.now := by
          have hstart := hphase.2
          omega
        exact ⟨hwatchdog, hmain, htime, ⟨hkept.1, hkept.2, hkept.3⟩, hover⟩
  | checking =>
      rw [hpos] at hwatchdog
      simp only [Phase, hpos] at hphase
      exact ⟨hwatchdog, hmain, htime, ⟨hphase.1.1, hphase.1.2, hphase.1.3⟩, hphase.2⟩
  | releasing =>
      rw [hpos] at hwatchdog
      simp only [Phase, hpos] at hphase
      have howned : s.monitor = some .watchdog := hwatchdog.mpr rfl
      have houtside : s.main.Holds = false := by simpa [howned] using hmain
      have hnot : s.main ≠ .stamping := by
        intro hstamping
        simp [hstamping, MainPosition.Holds] at houtside
      have hfresh := hphase.1
      exact ⟨by simp [WatchdogPosition.Holds], by simp [houtside], htime, hphase.2,
        by simp [hfresh.1, hfresh.2, hnot], fun _ => hfresh.3, by simp [hfresh.2]⟩
  | rechecking =>
      rw [hpos] at hwatchdog
      simp only [Phase, hpos] at hphase
      by_cases hcompleted : s.mCompleted = true
      · simp only [hcompleted, if_true]
        exact ⟨hwatchdog, hmain, htime,
          ⟨hphase.1, by simpa [hcompleted] using hphase.2, hphase.3, hphase.4⟩, rfl⟩
      · simp only [hcompleted]
        exact ⟨hwatchdog, hmain, htime, trivial⟩
  | comparing =>
      rw [hpos] at hwatchdog
      by_cases hlate : 5000 ≤ s.executeTime - s.mStartTime
      · simp only [hlate, if_true]
        exact ⟨hwatchdog, hmain, htime, trivial⟩
      · simp only [hlate, if_false]
        exact ⟨hwatchdog, hmain, htime, trivial⟩
  | inspecting =>
      rw [hpos] at hwatchdog
      exact ⟨hwatchdog, hmain, htime, trivial⟩
  | reporting =>
      rw [hpos] at hwatchdog
      exact ⟨hwatchdog, hmain, htime, trivial⟩

/-- A checker inside its block keeps the watchdog out of its own. -/
theorem Sound.holds_eq_false {s : ANRWatchDog} (h : s.Sound) (hinside : s.main.Holds = true) :
    s.watchdog.Holds = false := by
  have howned := h.main_holds.mpr hinside
  simpa [howned] using h.watchdog_holds

/-- Time may pass, and fields that no position speaks of may change. -/
theorem Phase.frame {s s' : ANRWatchDog} (h : s.Phase) (hpos : s'.watchdog = s.watchdog)
    (hnow : s.now ≤ s'.now) (hcompleted : s'.mCompleted = s.mCompleted)
    (hstamped : s'.stamped = s.stamped) (hstart : s'.mStartTime = s.mStartTime)
    (hexecute : s'.executeTime = s.executeTime)
    (hmain : s'.main = .stamping ↔ s.main = .stamping) : s'.Phase := by
  have hunanswered : s.Unanswered → s'.Unanswered := fun hu =>
    ⟨hcompleted.trans hu.1, hstamped.trans hu.2, by rw [hexecute, hstart]; exact hu.3⟩
  have hover : s.mStartTime + timeout ≤ s.now → s'.mStartTime + timeout ≤ s'.now := by
    rw [hstart]
    exact fun hle => Int.le_trans hle hnow
  have hreleased : s.Released → s'.Released := fun hr =>
    ⟨hover hr.1, by rw [hcompleted, hstamped, hmain]; exact hr.2,
      by rw [hstamped, hexecute, hstart]; exact hr.3,
      by rw [hstamped, hexecute, hstart]; exact hr.4⟩
  rw [Phase, hpos]
  rw [Phase] at h
  cases hw : s.watchdog with
  | starting =>
      simp only [hw] at h
      exact ⟨hunanswered h.1, by rw [hstart]; exact Int.le_trans h.2 hnow⟩
  | waiting start =>
      simp only [hw] at h
      exact ⟨hunanswered h.1, by rw [hstart]; exact h.2⟩
  | checking | releasing =>
      simp only [hw] at h
      exact ⟨hunanswered h.1, hover h.2⟩
  | rechecking =>
      simp only [hw] at h
      exact hreleased h
  | comparing =>
      simp only [hw] at h
      exact ⟨hreleased h.1, hcompleted.trans h.2⟩
  | looping | clearing | acquiring | scheduling | inspecting | reporting => trivial

/-- An assignment of the checker finds the watchdog outside its block, where only the
positions after the release speak of the assigned fields. -/
theorem Phase.of_released {s s' : ANRWatchDog} (h : s.Phase) (hpos : s'.watchdog = s.watchdog)
    (hfree : s.watchdog.Holds = false) (hcompleted : s.mCompleted = true → s'.mCompleted = true)
    (hreleased : s.Released → s'.Released) : s'.Phase := by
  rw [Phase, hpos]
  rw [Phase] at h
  cases hw : s.watchdog with
  | rechecking =>
      simp only [hw] at h
      exact hreleased h
  | comparing =>
      simp only [hw] at h
      exact ⟨hreleased h.1, hcompleted h.2⟩
  | scheduling | starting | waiting | checking | releasing =>
      simp [hw, WatchdogPosition.Holds] at hfree
  | looping | clearing | acquiring | inspecting | reporting => trivial

theorem Sound.stepMain {s : ANRWatchDog} (h : s.Sound) : s.stepMain.Sound := by
  obtain ⟨hwatchdog, hmain, htime, hphase⟩ := id h
  rw [ANRWatchDog.stepMain]
  cases hpos : s.main with
  | free =>
      rw [hpos] at hmain
      cases s.messages with
      | nil => exact h
      | cons c messages =>
          exact ⟨hwatchdog, hmain, htime,
            hphase.frame rfl (Int.le_refl _) rfl rfl rfl rfl (by simp [hpos])⟩
  | entering =>
      by_cases hfree : s.monitor = none
      · simp only [hfree, if_true]
        have hout : s.watchdog.Holds = false := by simpa [hfree] using hwatchdog
        exact ⟨by simp [hout], by simp [MainPosition.Holds], htime,
          hphase.frame rfl (Int.le_refl _) rfl rfl rfl rfl (by simp [hpos])⟩
      · simp only [hfree, if_false]
        exact h
  | setting =>
      rw [hpos] at hmain
      have hout := h.holds_eq_false (by simp [hpos, MainPosition.Holds])
      refine ⟨hwatchdog, hmain, htime, Phase.of_released hphase rfl hout (fun _ => rfl) ?_⟩
      intro hreleased
      exact ⟨hreleased.1, by simp, hreleased.3, hreleased.4⟩
  | stamping =>
      rw [hpos] at hmain
      have hout := h.holds_eq_false (by simp [hpos, MainPosition.Holds])
      refine ⟨hwatchdog, hmain, Int.le_refl s.now, Phase.of_released hphase rfl hout id ?_⟩
      intro hreleased
      have hset : s.mCompleted = true := hreleased.mCompleted.mpr (Or.inl hpos)
      exact ⟨hreleased.1, by simp [hset], by simp, fun _ => hreleased.deadline⟩
  | leaving =>
      have hout := h.holds_eq_false (by simp [hpos, MainPosition.Holds])
      exact ⟨by simp [hout], by simp [MainPosition.Holds], htime,
        hphase.frame rfl (Int.le_refl _) rfl rfl rfl rfl (by simp [hpos])⟩

theorem Sound.step {s : ANRWatchDog} (h : s.Sound) (e : WatchdogEvent) : (s.step e).Sound := by
  cases e with
  | watchdog => exact h.stepWatchdog
  | main => exact h.stepMain
  | tick millis =>
      have hnow : s.now ≤ s.now + millis := by omega
      exact ⟨h.1, h.2, Int.le_trans h.3 hnow, h.4.frame rfl hnow rfl rfl rfl rfl Iff.rfl⟩
  | addANRListener | interrupt | debugger connected =>
      exact ⟨h.1, h.2, h.3, h.4.frame rfl (Int.le_refl _) rfl rfl rfl rfl Iff.rfl⟩

theorem sound_run (created : ℤ) (es : List WatchdogEvent) : (run created es).Sound := by
  induction es using List.reverseRecOn with
  | nil =>
      exact ⟨by simp [run, WatchdogPosition.Holds], by simp [run, MainPosition.Holds],
        Int.le_refl _, trivial⟩
  | append_singleton es e ih =>
      rw [run_append_singleton]
      exact ih.step e

/-! ## The verdict -/

/-- The watchdog is about to report. -/
def Condemns (s : ANRWatchDog) : Prop := s.watchdog = .inspecting ∨ s.watchdog = .reporting

/-- What the cycles so far came to.  A cycle is reported after its wait, and the one in
hand is condemned only if it was not answered. -/
structure Ledger (s : ANRWatchDog) : Prop where
  noFalseAlarm : s.NoFalseAlarm
  reports_le : ∀ c ∈ s.reports, c ≤ s.cycle
  unreported : s.watchdog.Waits = true → s.cycle ∉ s.reports
  condemned : s.Condemns → s.cycle ∉ s.answered

/-- Nothing is entered when the watchdog comes to a position where it neither waits nor
condemns. -/
theorem Ledger.of_quiet {s s' : ANRWatchDog} (h : s.Ledger) (hcycle : s'.cycle = s.cycle)
    (hanswered : s'.answered = s.answered) (hreports : s'.reports = s.reports)
    (hwaits : s'.watchdog.Waits = false) (hcondemns : ¬ s'.Condemns) : s'.Ledger := by
  refine ⟨?_, ?_, fun hw => absurd hw (by simp [hwaits]), fun hc => absurd hc hcondemns⟩
  · rw [NoFalseAlarm, hanswered, hreports]
    exact h.noFalseAlarm
  · rw [hcycle, hreports]
    exact h.reports_le

/-- In a cycle that was not answered, or whose answer the two reads fall into, the
watchdog does not go wrong. -/
theorem Ledger.stepWatchdog {s : ANRWatchDog} (h : s.Ledger) (hsound : s.Sound)
    (hcond : s.Judges → s.cycle ∈ s.answered → s.Answering) : s.stepWatchdog.Ledger := by
  obtain ⟨halarm, hle, hunreported, hcondemned⟩ := id h
  rw [ANRWatchDog.stepWatchdog]
  cases hpos : s.watchdog with
  | looping =>
      cases s.isInterrupted with
      | true => exact h.of_quiet rfl rfl rfl rfl (by simp [Condemns])
      | false => exact h.of_quiet rfl rfl rfl rfl (by simp [Condemns])
  | clearing | checking | releasing =>
      exact h.of_quiet rfl rfl rfl rfl (by simp [Condemns])
  | acquiring =>
      by_cases hfree : s.monitor = none
      · simp only [hfree, if_true]
        exact h.of_quiet rfl rfl rfl rfl (by simp [Condemns])
      · simp only [hfree, if_false]
        exact h
  | scheduling =>
      refine ⟨halarm, fun c hc => (hle c hc).trans (Nat.le_succ _), fun _ hreported => ?_,
        by simp [Condemns]⟩
      exact absurd (hle _ hreported) (Nat.not_succ_le_self _)
  | starting =>
      exact ⟨halarm, hle, fun _ => hunreported (by simp [hpos, WatchdogPosition.Waits]),
        by simp [Condemns]⟩
  | waiting start =>
      have hnew := hunreported (by simp [hpos, WatchdogPosition.Waits])
      by_cases hmore : 0 < timeout - (s.now - start)
      · simp only [hmore, if_true]
        exact ⟨halarm, hle, fun _ => hnew, by simp [Condemns]⟩
      · simp only [hmore, if_false]
        exact h.of_quiet rfl rfl rfl rfl (by simp [Condemns])
  | rechecking =>
      have hreleased : s.Released := by simpa [Phase, hpos] using hsound.phase
      by_cases hcompleted : s.mCompleted = true
      · simp only [hcompleted, if_true]
        exact h.of_quiet rfl rfl rfl rfl (by simp [Condemns])
      · simp only [hcompleted]
        refine ⟨halarm, hle, by simp [WatchdogPosition.Waits], fun _ hanswered => ?_⟩
        have hanswering := hcond (Or.inl hpos) hanswered
        exact hcompleted (hreleased.mCompleted.mpr (Or.inl hanswering.1))
  | comparing =>
      have hphase := hsound.phase
      simp only [Phase, hpos] at hphase
      by_cases hlate : 5000 ≤ s.executeTime - s.mStartTime
      · simp only [hlate, if_true]
        refine ⟨halarm, hle, by simp [WatchdogPosition.Waits], fun _ hanswered => ?_⟩
        have hanswering := hcond (Or.inr hpos) hanswered
        have hstale := hphase.1.stale hanswering.2
        omega
      · simp only [hlate, if_false]
        exact h.of_quiet rfl rfl rfl rfl (by simp [Condemns])
  | inspecting =>
      exact ⟨halarm, hle, by simp [WatchdogPosition.Waits, ignoreDebugger],
        fun _ => hcondemned (Or.inl hpos)⟩
  | reporting =>
      have hunanswered := hcondemned (Or.inr hpos)
      cases s.onAnrHappened with
      | false => exact h.of_quiet rfl rfl rfl rfl (by simp [Condemns])
      | true =>
          refine ⟨?_, ?_, by simp [WatchdogPosition.Waits], by simp [Condemns]⟩
          · exact List.forall_mem_cons.mpr ⟨hunanswered, halarm⟩
          · exact List.forall_mem_cons.mpr ⟨Nat.le_refl _, hle⟩

theorem Ledger.stepMain {s : ANRWatchDog} (h : s.Ledger) : s.stepMain.Ledger := by
  obtain ⟨halarm, hle, hunreported, hcondemned⟩ := id h
  rw [ANRWatchDog.stepMain]
  cases s.main with
  | free =>
      cases s.messages with
      | nil => exact h
      | cons c messages =>
          by_cases hanswers : c = s.cycle ∧ s.watchdog.Waits = true
          · -- the cycle in hand is answered while it waits, so it was not reported
            simp only [hanswers, and_self, if_true]
            refine ⟨fun r hr hmem => ?_, hle, hunreported, fun hcondemns => ?_⟩
            · rcases List.mem_cons.mp hmem with rfl | hold
              · exact hunreported hanswers.2 hr
              · exact halarm r hr hold
            · have hwaits := hanswers.2
              rcases hcondemns with hpos | hpos
              · simp [WatchdogPosition.Waits, show s.watchdog = _ from hpos] at hwaits
              · simp [WatchdogPosition.Waits, show s.watchdog = _ from hpos] at hwaits
          · simp only [hanswers, if_false]
            exact ⟨halarm, hle, hunreported, hcondemned⟩
  | entering =>
      by_cases hfree : s.monitor = none
      · simp only [hfree, if_true]
        exact ⟨halarm, hle, hunreported, hcondemned⟩
      · simp only [hfree, if_false]
        exact h
  | setting | stamping | leaving => exact ⟨halarm, hle, hunreported, hcondemned⟩

theorem ledger_append {created : ℤ} {pre : List WatchdogEvent} {e : WatchdogEvent}
    (hcond : CaughtAnswering created pre e) (h : (run created pre).Ledger) :
    (run created (pre ++ [e])).Ledger := by
  rw [run_append_singleton]
  cases e with
  | watchdog => exact h.stepWatchdog (sound_run created pre) (hcond rfl)
  | main => exact h.stepMain
  | tick millis | addANRListener | interrupt | debugger connected =>
      exact ⟨h.1, h.2, h.3, h.4⟩

theorem everyPrefix_ledger {created : ℤ} {es : List WatchdogEvent}
    (hes : EveryStep (CaughtAnswering created) es) :
    EveryPrefix (fun pre => (run created pre).Ledger) es := by
  refine EveryPrefix.of_step (P := fun pre => (run created pre).Ledger) ?_ ?_ hes
  · exact ⟨by simp [NoFalseAlarm, run], by simp [run], by simp [run], by simp [run]⟩
  · intro pre e hcond h
    exact ledger_append hcond h

/-! ## The condition is exact -/

theorem run_append_replicate (created : ℤ) (pre : List WatchdogEvent) (n : ℕ) :
    run created (pre ++ List.replicate n .watchdog) =
      ANRWatchDog.stepWatchdog^[n] (run created pre) := by
  induction n with
  | zero => simp
  | succ n ih =>
      rw [List.replicate_succ', ← List.append_assoc, run_append_singleton, ih,
        Function.iterate_succ_apply']
      rfl

/-- The watchdog, left alone, reports the cycle in hand, which was answered in time. -/
def GoesWrong (s : ANRWatchDog) : Prop := ∃ n, ¬ NoFalseAlarm (ANRWatchDog.stepWatchdog^[n] s)

theorem GoesWrong.of_stepWatchdog {s : ANRWatchDog} (h : s.stepWatchdog.GoesWrong) :
    s.GoesWrong := by
  obtain ⟨n, hn⟩ := h
  exact ⟨n + 1, hn⟩

theorem goesWrong_of_reporting {s : ANRWatchDog} (hpos : s.watchdog = .reporting)
    (hlistener : s.onAnrHappened = true) (hanswered : s.cycle ∈ s.answered) : s.GoesWrong := by
  refine ⟨1, fun halarm => ?_⟩
  have hreported : s.cycle ∈ s.stepWatchdog.reports := by simp [stepWatchdog, hpos, hlistener]
  apply halarm s.cycle hreported
  simpa [stepWatchdog, hpos] using hanswered

theorem goesWrong_of_inspecting {s : ANRWatchDog} (hpos : s.watchdog = .inspecting)
    (hlistener : s.onAnrHappened = true) (hanswered : s.cycle ∈ s.answered) : s.GoesWrong := by
  apply GoesWrong.of_stepWatchdog
  have hstep : s.stepWatchdog = { s with watchdog := .reporting } := by
    simp [stepWatchdog, hpos, ignoreDebugger]
  rw [hstep]
  exact goesWrong_of_reporting rfl hlistener hanswered

/-- An answer that came is too late: it was given after the wait. -/
theorem goesWrong_of_comparing {s : ANRWatchDog} (hpos : s.watchdog = .comparing)
    (hlate : s.mStartTime + timeout ≤ s.executeTime)
    (hlistener : s.onAnrHappened = true) (hanswered : s.cycle ∈ s.answered) : s.GoesWrong := by
  apply GoesWrong.of_stepWatchdog
  have hblocked : 5000 ≤ s.executeTime - s.mStartTime := by
    rw [timeout] at hlate
    omega
  have hstep : s.stepWatchdog = { s with watchdog := .inspecting } := by
    simp [stepWatchdog, hpos, hblocked]
  rw [hstep]
  exact goesWrong_of_inspecting rfl hlistener hanswered

theorem goesWrong_of_not_answering {s : ANRWatchDog} (h : s.Sound) (hjudges : s.Judges)
    (hnot : ¬ s.Answering) (hlistener : s.onAnrHappened = true)
    (hanswered : s.cycle ∈ s.answered) : s.GoesWrong := by
  have hphase := h.phase
  rcases hjudges with hpos | hpos
  · simp only [Phase, hpos] at hphase
    apply GoesWrong.of_stepWatchdog
    by_cases hcompleted : s.mCompleted = true
    · -- not the first read of an unfinished answer, so one was finished
      have hstamped : s.stamped = true := by
        by_contra hunstamped
        have hstamping := (hphase.mCompleted.mp hcompleted).resolve_right hunstamped
        exact hnot ⟨hstamping, by simpa using hunstamped⟩
      have hstep : s.stepWatchdog = { s with watchdog := .comparing } := by
        simp [stepWatchdog, hpos, hcompleted]
      rw [hstep]
      exact goesWrong_of_comparing rfl (hphase.late hstamped) hlistener hanswered
    · have hstep : s.stepWatchdog = { s with watchdog := .inspecting } := by
        simp [stepWatchdog, hpos, hcompleted]
      rw [hstep]
      exact goesWrong_of_inspecting rfl hlistener hanswered
  · simp only [Phase, hpos] at hphase
    have hstamped : s.stamped = true := by
      by_contra hunstamped
      have hstamping := (hphase.1.mCompleted.mp hphase.2).resolve_right hunstamped
      exact hnot ⟨hstamping, by simpa using hunstamped⟩
    exact goesWrong_of_comparing hpos (hphase.1.late hstamped) hlistener hanswered

/-- In every schedule in which the second check of an answered cycle falls between the
two assignments of the answer, no main thread that answered in time is reported.  Any
schedule that breaks this at a step is continued to a false alarm by the watchdog
alone, once there is a listener. -/
theorem everyPrefix_noFalseAlarm_of_caught (created : ℤ) :
    (∀ es, EveryStep (CaughtAnswering created) es →
      EveryPrefix (fun pre => (run created pre).NoFalseAlarm) es) ∧
    ∀ pre e, (run created pre).onAnrHappened = true → ¬ CaughtAnswering created pre e →
      ∃ n, ¬ (run created (pre ++ List.replicate n .watchdog)).NoFalseAlarm := by
  constructor
  · intro es hes
    exact (everyPrefix_ledger hes).mono fun _ h => h.noFalseAlarm
  · intro pre e hlistener hcond
    simp only [CaughtAnswering, Classical.not_imp] at hcond
    obtain ⟨-, hjudges, hanswered, hnot⟩ := hcond
    obtain ⟨n, hn⟩ :=
      goesWrong_of_not_answering (sound_run created pre) hjudges hnot hlistener hanswered
    rw [← run_append_replicate] at hn
    exact ⟨n, hn⟩

/-- The main looper takes the checker at once, and its answer is caught halfway. -/
def caughtAnswer : List WatchdogEvent :=
  [.addANRListener, .watchdog, .watchdog, .watchdog, .watchdog, .main, .tick 5000, .watchdog,
    .watchdog, .watchdog, .main, .main, .watchdog, .watchdog, .main, .main]

theorem everyPrefix_noFalseAlarm_caughtAnswer :
    EveryPrefix (fun pre => (run 0 pre).NoFalseAlarm) caughtAnswer ∧
      (run 0 caughtAnswer).answered = [1] ∧ (run 0 caughtAnswer).reports = [] :=
  ⟨(everyPrefix_noFalseAlarm_of_caught 0).1 caughtAnswer (by decide), rfl, rfl⟩

/-- The main looper takes the checker at once and waits for the monitor, which the
watchdog gives up after five seconds of sleep. -/
theorem not_everyPrefix_noFalseAlarm_asleep :
    ¬ ∀ created es, EveryPrefix (fun pre => (run created pre).NoFalseAlarm) es := by
  intro hlaw
  have halarm := (hlaw 0 ([.addANRListener, .watchdog, .watchdog, .watchdog, .watchdog, .main,
    .main, .tick 5000] ++ List.replicate 6 .watchdog)).self
  exact absurd (halarm 1 (by decide)) (by decide)

end ANRWatchDog

end StudyNotes.Monitor
