/-
# The coroutines of `MyFragment1`

`MyFragment1` launches a coroutine at every `load()` and cancels its scope at every
`loadStop()`.  The scope is the one `MainScope()` the fragment was created with: once it is
cancelled, every later `launch` is dropped.  A fragment loads on its first visit only.
-/

import StudyNotes.Fragment.Lazy

namespace StudyNotes.Fragment

open StudyNotes.Run

/-! ## The scope -/

/-- The state of a coroutine.  One launched in a cancelled scope is cancelled from the
start. -/
inductive Job where
  | running
  | completed
  | cancelled
deriving DecidableEq, Repr

/-- The fragment as a `CoroutineScope`: whether the scope's job is active, and the
coroutines in the order of their launches. -/
structure MyFragment1 where
  isActive : Bool
  jobs : List Job
deriving DecidableEq, Repr

namespace MyFragment1

/-- A new fragment with its `MainScope()`. -/
def new : MyFragment1 := ⟨true, []⟩

/-- `launch`. -/
def launch (fragment : MyFragment1) : MyFragment1 :=
  { fragment with jobs := fragment.jobs ++ [if fragment.isActive then .running else .cancelled] }

/-- `cancel()`. -/
def cancel (fragment : MyFragment1) : MyFragment1 :=
  { isActive := false
    jobs := fragment.jobs.map fun job => if job = .running then .cancelled else job }

def getData (fragment : MyFragment1) : MyFragment1 := fragment.launch

def load (fragment : MyFragment1) : MyFragment1 := fragment.getData

def loadStop (fragment : MyFragment1) : MyFragment1 := fragment.cancel

/-- The delay of a coroutine is over, and its text is set. -/
def complete (fragment : MyFragment1) (job : ℕ) : MyFragment1 :=
  { fragment with
    jobs := fragment.jobs.modify job fun state => if state = .running then .completed else state }

end MyFragment1

/-- A hook call, or the end of a coroutine. -/
inductive Visit where
  | call (call : LoadCall)
  | complete (job : ℕ)
deriving DecidableEq, Repr

namespace MyFragment1

def step (fragment : MyFragment1) : Visit → MyFragment1
  | .call .load => fragment.load
  | .call .loadStop => fragment.loadStop
  | .complete job => fragment.complete job

/-- The fragment after a sequence of visits. -/
def afterVisits (visits : List Visit) : MyFragment1 := after step new visits

/-! ## Loading at every visit -/

/-- The coroutine of a `load()` that no `loadStop()` has followed is running or has
completed, and after a `loadStop()` none is running until the next `load()`. -/
structure LoadsWhenVisible (visits : List Visit) : Prop where
  loads : ∀ before later, visits = before ++ .call .load :: later →
    .call .loadStop ∉ later →
      (afterVisits visits).jobs[before.count (.call .load)]? = some .running ∨
        (afterVisits visits).jobs[before.count (.call .load)]? = some .completed
  stops : ∀ before later, visits = before ++ .call .loadStop :: later →
    .call .load ∉ later → .running ∉ (afterVisits visits).jobs

/-- No `load()` after a `loadStop()`. -/
def FirstVisit (before : List Visit) (visit : Visit) : Prop :=
  visit = .call .load → .call .loadStop ∉ before

instance (before : List Visit) (visit : Visit) : Decidable (FirstVisit before visit) :=
  inferInstanceAs (Decidable (_ → _))

/-- The scope is active until the first `loadStop()`, and so are its coroutines. -/
structure Tracks (visits : List Visit) : Prop where
  ordered : EveryStep FirstVisit visits
  length : (afterVisits visits).jobs.length = visits.count (.call .load)
  isActive : (afterVisits visits).isActive = true ↔ .call .loadStop ∉ visits
  kept : .call .loadStop ∉ visits → .cancelled ∉ (afterVisits visits).jobs
  stopped : .call .loadStop ∈ visits → .running ∉ (afterVisits visits).jobs

theorem tracks_nil : Tracks [] where
  ordered := everyStep_nil
  length := rfl
  isActive := by simp [afterVisits, new]
  kept := by simp [afterVisits, new]
  stopped := by simp

theorem afterVisits_append (visits : List Visit) (visit : Visit) :
    afterVisits (visits ++ [visit]) = (afterVisits visits).step visit :=
  after_append_singleton step new visits visit

/-- A coroutine that completes was running. -/
theorem mem_jobs_complete {fragment : MyFragment1} {job : ℕ} {state : Job}
    (h : state ∈ (fragment.complete job).jobs) (hstate : state ≠ .completed) :
    state ∈ fragment.jobs := by
  obtain ⟨i, hi⟩ := List.mem_iff_getElem?.mp h
  rw [complete, List.getElem?_modify] at hi
  cases hjob : fragment.jobs[i]? with
  | none => simp [hjob] at hi
  | some old =>
      have hmem : old ∈ fragment.jobs := List.mem_of_getElem? hjob
      rw [hjob] at hi
      cases old with
      | running =>
          by_cases heq : job = i
          · simp [heq] at hi
            exact absurd hi.symm hstate
          · simp [heq] at hi
            exact hi ▸ hmem
      | completed =>
          have hsame : state = .completed := by
            by_cases heq : job = i
            · simpa [heq] using hi.symm
            · simpa [heq] using hi.symm
          exact absurd hsame hstate
      | cancelled =>
          have hsame : state = .cancelled := by
            by_cases heq : job = i
            · simpa [heq] using hi.symm
            · simpa [heq] using hi.symm
          exact hsame ▸ hmem

theorem running_not_mem_cancel (fragment : MyFragment1) : .running ∉ fragment.cancel.jobs := by
  rw [cancel, List.mem_map]
  rintro ⟨job, -, hjob⟩
  cases job with
  | running => cases hjob
  | completed => cases hjob
  | cancelled => cases hjob

namespace Tracks

variable {visits : List Visit}

theorem load (h : Tracks visits) (hfirst : .call .loadStop ∉ visits) :
    Tracks (visits ++ [.call .load]) := by
  have hactive := h.isActive.mpr hfirst
  have hjobs : (afterVisits (visits ++ [.call .load])).jobs =
      (afterVisits visits).jobs ++ [.running] := by
    rw [afterVisits_append]
    show (afterVisits visits).jobs ++
      [if (afterVisits visits).isActive then .running else .cancelled] = _
    rw [hactive, if_pos rfl]
  have hnotStop : .call .loadStop ∉ visits ++ [Visit.call .load] := by simp [hfirst]
  refine ⟨h.ordered.concat fun _ => hfirst, ?_, ?_, fun _ => ?_, fun hstop => absurd hstop hnotStop⟩
  · rw [hjobs, List.length_append, h.length]
    simp
  · rw [afterVisits_append]
    exact ⟨fun _ => hnotStop, fun _ => hactive⟩
  · rw [hjobs]
    simp [h.kept hfirst]

theorem loadStop (h : Tracks visits) : Tracks (visits ++ [.call .loadStop]) := by
  have hstop : .call .loadStop ∈ visits ++ [Visit.call .loadStop] := by simp
  refine ⟨h.ordered.concat (by simp [FirstVisit]), ?_, ?_, fun hnot => absurd hstop hnot,
    fun _ => ?_⟩
  · rw [afterVisits_append]
    show ((afterVisits visits).jobs.map _).length = _
    rw [List.length_map, h.length]
    simp
  · rw [afterVisits_append]
    exact ⟨fun hactive => (by cases hactive), fun hnot => absurd hstop hnot⟩
  · rw [afterVisits_append]
    exact running_not_mem_cancel _

theorem complete (h : Tracks visits) (job : ℕ) : Tracks (visits ++ [.complete job]) := by
  have hstop : .call .loadStop ∈ visits ++ [Visit.complete job] ↔ .call .loadStop ∈ visits := by
    simp
  refine ⟨h.ordered.concat (by simp [FirstVisit]), ?_, ?_, fun hnot hmem => ?_, fun hmem hrun => ?_⟩
  · rw [afterVisits_append]
    show ((afterVisits visits).jobs.modify job _).length = _
    rw [List.length_modify, h.length]
    simp
  · rw [afterVisits_append, hstop]
    exact h.isActive
  · rw [afterVisits_append] at hmem
    exact h.kept (fun hbefore => hnot (hstop.mpr hbefore)) (mem_jobs_complete hmem (by decide))
  · rw [afterVisits_append] at hrun
    exact h.stopped (hstop.mp hmem) (mem_jobs_complete hrun (by decide))

theorem step (h : Tracks visits) {visit : Visit} (hvisit : FirstVisit visits visit) :
    Tracks (visits ++ [visit]) := by
  cases visit with
  | call call =>
      cases call with
      | load => exact h.load (hvisit rfl)
      | loadStop => exact h.loadStop
  | complete job => exact h.complete job

theorem loadsWhenVisible (h : Tracks visits) : LoadsWhenVisible visits where
  loads := by
    rintro before later rfl hlater
    have hbefore : .call .loadStop ∉ before :=
      h.ordered before _ ⟨later, by simp⟩ rfl
    have hnot : .call .loadStop ∉ before ++ Visit.call .load :: later := by simp [hbefore, hlater]
    have hindex : before.count (.call .load) <
        (afterVisits (before ++ .call .load :: later)).jobs.length := by
      rw [h.length, List.count_append, List.count_cons_self]
      omega
    have hkept := h.kept hnot
    have hmem := List.getElem_mem hindex
    rw [List.getElem?_eq_getElem hindex]
    cases hjob : (afterVisits (before ++ .call .load :: later)).jobs[before.count (.call .load)] with
    | running => exact Or.inl rfl
    | completed => exact Or.inr rfl
    | cancelled => exact absurd (hjob ▸ hmem) hkept
  stops := by
    rintro before later rfl -
    exact h.stopped (by simp)

/-- A `load()` after a `loadStop()` launches nothing. -/
theorem not_loadsWhenVisible (h : Tracks visits) {visit : Visit}
    (hvisit : ¬ FirstVisit visits visit) :
    ¬ LoadsWhenVisible (visits ++ [visit]) := by
  intro hloads
  obtain ⟨rfl, hstop⟩ : visit = .call .load ∧ .call .loadStop ∈ visits := by
    by_contra hnot
    refine hvisit fun hload hmem => ?_
    exact hnot ⟨hload, hmem⟩
  have hactive : (afterVisits visits).isActive = false := by
    rw [← Bool.not_eq_true]
    exact fun hactive => h.isActive.mp hactive hstop
  have hjob : (afterVisits (visits ++ [.call .load])).jobs[visits.count (.call .load)]? =
      some .cancelled := by
    rw [afterVisits_append]
    show ((afterVisits visits).jobs ++
      [if (afterVisits visits).isActive then Job.running else .cancelled])[_]? = _
    rw [hactive, ← h.length]
    simp
  rcases hloads.loads visits [] rfl List.not_mem_nil with hrunning | hcompleted
  · rw [hjob] at hrunning
    cases hrunning
  · rw [hjob] at hcompleted
    cases hcompleted

end Tracks

/-- The page loads whenever it becomes visible exactly in the runs that have no `load()`
after a `loadStop()`. -/
theorem everyPrefix_loadsWhenVisible_iff (visits : List Visit) :
    EveryPrefix LoadsWhenVisible visits ↔ EveryStep FirstVisit visits :=
  everyPrefix_iff_everyStep tracks_nil (fun _ h => h.loadsWhenVisible)
    (fun _ _ hvisit h => h.step hvisit) (fun _ _ h hvisit => h.not_loadsWhenVisible hvisit) visits

/-- The second visit of a page loads nothing. -/
theorem not_everyPrefix_loadsWhenVisible :
    ¬ EveryPrefix LoadsWhenVisible [.call .load, .call .loadStop, .call .load] := by
  intro h
  rcases h.self.loads [.call .load, .call .loadStop] [] rfl List.not_mem_nil with
    hrunning | hcompleted
  · exact absurd hrunning (by decide)
  · exact absurd hcompleted (by decide)

end MyFragment1

end StudyNotes.Fragment
