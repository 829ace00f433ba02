/-
# Schedules of the leak detector (`Watcher` under threads)

`watch` cleans the maps without the monitor, while executors run the synchronized
`moveToRetained`, which cleans as well and then moves a reference from one map to
the other in two steps.  The reference is in neither map in between, so a cleaning
that polls it there finds nothing to remove, and the move then puts it among the
suspects for good.

A key that was cleaned stays out of both maps exactly in the schedules in which no
reference is put among the suspects after its cleaning.
-/

import Mathlib.Logic.Function.Basic
import StudyNotes.Leak.Watcher

namespace StudyNotes.Leak

open StudyNotes.Run

variable {ω : Type}

/-! ## The threads -/

/-- What a thread was called for. -/
inductive Task (ω : Type)
  | watch (watchedReference : ω) (key : String)
  | moveToRetained (key : String)
  deriving DecidableEq

/-- Where a thread stands.  The three middle positions are the cleaning loop, which
both calls run; after it, `finishing` is the `put` of `watch` or the `remove` of
`moveToRetained`. -/
inductive Position (ω : Type)
  | idle
  | entering (task : Task ω)
  | polling (task : Task ω)
  | removingWatched (task : Task ω) (findRef : KeyWeakReference ω)
  | removingRetained (task : Task ω) (findRef : KeyWeakReference ω)
  | finishing (task : Task ω)
  | putting (key : String) (retainedRef : KeyWeakReference ω)
  | leaving
  deriving DecidableEq

/-- The watcher, its monitor and its threads: `none` is the one that calls `watch`, the
others are executors.  The rest is not part of the program: the keys drawn, the
references put into the map, the ones enqueued, and the keys whose cleaning is over. -/
structure Schedule (ω : Type) where
  watcher : Watcher ω := {}
  monitor : Option (Option ℕ) := none
  threads : Option ℕ → Position ω := fun _ => .idle
  drawn : List String := []
  inserted : List (KeyWeakReference ω) := []
  enqueued : List (KeyWeakReference ω) := []
  finished : List String := []

/-- Calls, steps of a thread, and a reference enqueued by a collection. -/
inductive ScheduleEvent (ω : Type)
  | watch (watchedReference : ω) (key : String)
  | moveToRetained (executor : ℕ) (key : String)
  | step (thread : Option ℕ)
  | enqueue (ref : KeyWeakReference ω)
  deriving DecidableEq

namespace Schedule

/-- The thread goes on at a position. -/
def goto (s : Schedule ω) (t : Option ℕ) (p : Position ω) : Schedule ω :=
  { s with threads := Function.update s.threads t p }

@[simp]
theorem threads_goto_self (s : Schedule ω) (t : Option ℕ) (p : Position ω) :
    (s.goto t p).threads t = p := Function.update_self _ _ _

theorem threads_goto_of_ne (s : Schedule ω) {t t' : Option ℕ} (h : t' ≠ t) (p : Position ω) :
    (s.goto t p).threads t' = s.threads t' := Function.update_of_ne h _ _

/-- `watchedReferences` with another content. -/
def setWatched (s : Schedule ω) (m : References ω) : Schedule ω :=
  { s with watcher := { s.watcher with watchedReferences := m } }

/-- `retainedReferences` with another content. -/
def setRetained (s : Schedule ω) (m : References ω) : Schedule ω :=
  { s with watcher := { s.watcher with retainedReferences := m } }

/-- The iteration that polled the key is over. -/
def finish (s : Schedule ω) (key : String) : Schedule ω :=
  { s with finished := key :: s.finished }

/-- One step of a thread: a poll, a `remove`, a `put`, or a use of the monitor. -/
def stepThread (s : Schedule ω) (t : Option ℕ) : Schedule ω :=
  match s.threads t with
  | .idle => s
  | .entering task =>
    if s.monitor = none then { s with monitor := some t }.goto t (.polling task) else s
  | .polling task =>
    match s.watcher.queue with
    | [] => s.goto t (.finishing task)
    | findRef :: queue =>
      { s with watcher := { s.watcher with queue := queue } }.goto t
        (.removingWatched task findRef)
  | .removingWatched task findRef =>
    match s.watcher.watchedReferences.lookup findRef.key with
    | some _ =>
      ((s.setWatched (s.watcher.watchedReferences.erase findRef.key)).finish findRef.key).goto t
        (.polling task)
    | none => s.goto t (.removingRetained task findRef)
  | .removingRetained task findRef =>
    ((s.setRetained (s.watcher.retainedReferences.erase findRef.key)).finish findRef.key).goto t
      (.polling task)
  | .finishing (.watch watchedReference key) =>
    { s.setWatched (s.watcher.watchedReferences.insert key ⟨watchedReference, key, ""⟩) with
      inserted := ⟨watchedReference, key, ""⟩ :: s.inserted }.goto t .idle
  | .finishing (.moveToRetained key) =>
    match s.watcher.watchedReferences.lookup key with
    | some retainedRef =>
      (s.setWatched (s.watcher.watchedReferences.erase key)).goto t (.putting key retainedRef)
    | none => s.goto t .leaving
  | .putting key retainedRef =>
    (s.setRetained (s.watcher.retainedReferences.insert key retainedRef)).goto t .leaving
  | .leaving => { s with monitor := none }.goto t .idle

section Steps

variable [DecidableEq ω]

/-- One event; one that cannot happen in a state leaves it.  A key is drawn once, a
reference is enqueued once, and not while `watch` still holds the object. -/
def step (s : Schedule ω) : ScheduleEvent ω → Schedule ω
  | .watch watchedReference key =>
    if s.threads none = .idle ∧ key ∉ s.drawn then
      { s with drawn := key :: s.drawn }.goto none (.polling (.watch watchedReference key))
    else s
  | .moveToRetained executor key =>
    if s.threads (some executor) = .idle then
      s.goto (some executor) (.entering (.moveToRetained key))
    else s
  | .step thread => s.stepThread thread
  | .enqueue ref =>
    if ref ∈ s.inserted ∧ ref ∉ s.enqueued then
      { s with
        watcher := { s.watcher with queue := s.watcher.queue ++ [ref] }
        enqueued := ref :: s.enqueued }
    else s

/-- The detector after a schedule. -/
def run (es : List (ScheduleEvent ω)) : Schedule ω := after step {} es

@[simp]
theorem run_append_singleton (pre : List (ScheduleEvent ω)) (e : ScheduleEvent ω) :
    run (pre ++ [e]) = (run pre).step e := after_append_singleton _ _ _ _

/-! ## The law and the condition -/

/-- No key is in both maps, and a key whose cleaning is over is in neither. -/
structure Cleaned (s : Schedule ω) : Prop where
  disjoint : ∀ key ∈ s.watcher.watchedReferences, key ∉ s.watcher.retainedReferences
  gone : ∀ key ∈ s.finished,
    key ∉ s.watcher.watchedReferences ∧ key ∉ s.watcher.retainedReferences

/-- A reference is put among the suspects only if its cleaning is not over. -/
def PutInTime (pre : List (ScheduleEvent ω)) (e : ScheduleEvent ω) : Prop :=
  ∀ t key retainedRef, e = .step t → (run pre).threads t = .putting key retainedRef →
    key ∉ (run pre).finished

end Steps

/-! ## The state between two steps -/

variable {s : Schedule ω} {t : Option ℕ} {key : String}

/-- A reference with the key was put into the watched ones. -/
def Inserted (s : Schedule ω) (key : String) : Prop := ∃ ref ∈ s.inserted, ref.key = key

/-- Only one thread watches, under a key of its own. -/
def TaskFits (s : Schedule ω) (t : Option ℕ) : Task ω → Prop
  | .watch _ key => t = none ∧ key ∈ s.drawn ∧ ¬ s.Inserted key
  | .moveToRetained _ => True

/-- What a thread at a position relies on.  A key that was not found among the watched
ones does not come back there, and a key in hand is in neither map. -/
def Fits (s : Schedule ω) (t : Option ℕ) : Position ω → Prop
  | .idle | .leaving => True
  | .entering task | .polling task | .finishing task => s.TaskFits t task
  | .removingWatched task findRef => s.TaskFits t task ∧ s.Inserted findRef.key
  | .removingRetained task findRef =>
    s.TaskFits t task ∧ s.Inserted findRef.key ∧ findRef.key ∉ s.watcher.watchedReferences
  | .putting key _ =>
    s.Inserted key ∧ key ∉ s.watcher.watchedReferences ∧ key ∉ s.watcher.retainedReferences

/-- Every key that occurs is one of an inserted reference. -/
structure Known (s : Schedule ω) : Prop where
  watched : ∀ key ∈ s.watcher.watchedReferences, s.Inserted key
  retained : ∀ key ∈ s.watcher.retainedReferences, s.Inserted key
  queue : ∀ ref ∈ s.watcher.queue, s.Inserted ref.key
  finished : ∀ key ∈ s.finished, s.Inserted key
  drawn : ∀ key, s.Inserted key → key ∈ s.drawn

structure Sound (s : Schedule ω) : Prop where
  cleaned : s.Cleaned
  known : s.Known
  fits : ∀ t, s.Fits t (s.threads t)
  unique : ∀ t t' key ref ref', s.threads t = .putting key ref →
    s.threads t' = .putting key ref' → t = t'

theorem TaskFits.mono {s s' : Schedule ω} {task : Task ω} (h : s.TaskFits t task)
    (hinserted : s'.inserted = s.inserted) (hdrawn : ∀ key ∈ s.drawn, key ∈ s'.drawn) :
    s'.TaskFits t task := by
  cases task with
  | watch o key => exact ⟨h.1, hdrawn key h.2.1, by rw [Inserted, hinserted]; exact h.2.2⟩
  | moveToRetained key => trivial

/-- What a change of the shared state must keep for a position to fit still. -/
theorem Fits.transfer {s s' : Schedule ω} {p : Position ω} (h : s.Fits t p)
    (hinserted : ∀ key, s.Inserted key → s'.Inserted key)
    (htask : ∀ task, s.TaskFits t task → s'.TaskFits t task)
    (hwatched : ∀ key, s.Inserted key → key ∈ s'.watcher.watchedReferences →
      key ∈ s.watcher.watchedReferences)
    (hretained : ∀ key ref, p = .putting key ref → key ∈ s'.watcher.retainedReferences →
      key ∈ s.watcher.retainedReferences) :
    s'.Fits t p := by
  cases p with
  | idle | leaving => trivial
  | entering task | polling task | finishing task => exact htask task h
  | removingWatched task findRef => exact ⟨htask task h.1, hinserted _ h.2⟩
  | removingRetained task findRef =>
      exact ⟨htask task h.1, hinserted _ h.2.1, fun hmem => h.2.2 (hwatched _ h.2.1 hmem)⟩
  | putting key ref =>
      exact ⟨hinserted _ h.1, fun hmem => h.2.1 (hwatched _ h.1 hmem),
        fun hmem => h.2.2 (hretained key ref rfl hmem)⟩

/-- A position still fits when keys leave the maps. -/
theorem Fits.mono {s s' : Schedule ω} {p : Position ω} (h : s.Fits t p)
    (hinserted : s'.inserted = s.inserted) (hdrawn : ∀ key ∈ s.drawn, key ∈ s'.drawn)
    (hwatched : ∀ key ∈ s'.watcher.watchedReferences, key ∈ s.watcher.watchedReferences)
    (hretained : ∀ key ∈ s'.watcher.retainedReferences, key ∈ s.watcher.retainedReferences) :
    s'.Fits t p := by
  apply h.transfer
  · intro key hkey
    rw [Inserted, hinserted]
    exact hkey
  · exact fun task htask => htask.mono hinserted hdrawn
  · exact fun key _ hmem => hwatched key hmem
  · exact fun key _ _ hmem => hretained key hmem

/-- A position fits as long as neither the maps nor the keys change. -/
theorem Fits.congr {s s' : Schedule ω} {p : Position ω} (h : s.Fits t p)
    (hinserted : s'.inserted = s.inserted) (hdrawn : s'.drawn = s.drawn)
    (hwatched : s'.watcher.watchedReferences = s.watcher.watchedReferences)
    (hretained : s'.watcher.retainedReferences = s.watcher.retainedReferences) :
    s'.Fits t p := by
  apply h.mono hinserted
  · exact fun key hkey => hdrawn ▸ hkey
  · exact fun key hkey => hwatched ▸ hkey
  · exact fun key hkey => hretained ▸ hkey

/-- Only the maps, the queue, the threads and the record of keys matter. -/
theorem Sound.congr {s' : Schedule ω} (h : s.Sound) (hwatcher : s'.watcher = s.watcher)
    (hinserted : s'.inserted = s.inserted) (hdrawn : s'.drawn = s.drawn)
    (hfinished : s'.finished = s.finished) (hthreads : s'.threads = s.threads) : s'.Sound := by
  constructor
  case cleaned =>
      constructor
      · rw [hwatcher]
        exact h.cleaned.disjoint
      · rw [hwatcher, hfinished]
        exact h.cleaned.gone
  case known =>
      constructor
      all_goals simp only [Inserted, hwatcher, hinserted, hdrawn, hfinished]
      · exact h.known.watched
      · exact h.known.retained
      · exact h.known.queue
      · exact h.known.finished
      · exact h.known.drawn
  case fits =>
      intro t
      rw [hthreads]
      exact (h.fits t).congr hinserted hdrawn (by rw [hwatcher]) (by rw [hwatcher])
  case unique =>
      rw [hthreads]
      exact h.unique

theorem Sound.goto (h : s.Sound) {p : Position ω} (hp : s.Fits t p)
    (hother : ∀ key ref, p = .putting key ref → ∀ t' ref', s.threads t' ≠ .putting key ref') :
    (s.goto t p).Sound := by
  refine ⟨⟨h.cleaned.disjoint, h.cleaned.gone⟩, ⟨h.known.watched, h.known.retained, h.known.queue,
    h.known.finished, h.known.drawn⟩, ?_, ?_⟩
  · intro t'
    by_cases ht : t' = t
    · subst ht
      rw [threads_goto_self]
      exact hp.congr rfl rfl rfl rfl
    · rw [threads_goto_of_ne s ht]
      exact (h.fits t').congr rfl rfl rfl rfl
  · intro t₁ t₂ key ref ref' h₁ h₂
    by_cases ht₁ : t₁ = t
    · by_cases ht₂ : t₂ = t
      · rw [ht₁, ht₂]
      · subst ht₁
        rw [threads_goto_self] at h₁
        rw [threads_goto_of_ne s ht₂] at h₂
        exact absurd h₂ (hother key ref h₁ t₂ ref')
    · by_cases ht₂ : t₂ = t
      · subst ht₂
        rw [threads_goto_self] at h₂
        rw [threads_goto_of_ne s ht₁] at h₁
        exact absurd h₁ (hother key ref' h₂ t₁ ref)
      · rw [threads_goto_of_ne s ht₁] at h₁
        rw [threads_goto_of_ne s ht₂] at h₂
        exact h.unique t₁ t₂ key ref ref' h₁ h₂

/-- The thread goes on without a reference in hand. -/
theorem Sound.goto_of_ne (h : s.Sound) {p : Position ω} (hp : s.Fits t p)
    (hne : ∀ key ref, p ≠ .putting key ref) : (s.goto t p).Sound :=
  h.goto hp fun key ref heq => absurd heq (hne key ref)

theorem Sound.eraseWatched (h : s.Sound) (key : String) :
    (s.setWatched (s.watcher.watchedReferences.erase key)).Sound := by
  have hsub : ∀ k ∈ s.watcher.watchedReferences.erase key, k ∈ s.watcher.watchedReferences :=
    fun k hk => (AList.mem_erase.mp hk).2
  exact ⟨⟨fun k hk => h.cleaned.disjoint k (hsub k hk),
      fun k hk => ⟨fun hmem => (h.cleaned.gone k hk).1 (hsub k hmem), (h.cleaned.gone k hk).2⟩⟩,
    ⟨fun k hk => h.known.watched k (hsub k hk), h.known.retained, h.known.queue, h.known.finished,
      h.known.drawn⟩,
    fun t => (h.fits t).mono rfl (fun _ hk => hk) hsub (fun _ hk => hk), h.unique⟩

theorem Sound.eraseRetained (h : s.Sound) (key : String) :
    (s.setRetained (s.watcher.retainedReferences.erase key)).Sound := by
  have hsub : ∀ k ∈ s.watcher.retainedReferences.erase key, k ∈ s.watcher.retainedReferences :=
    fun k hk => (AList.mem_erase.mp hk).2
  exact ⟨⟨fun k hk hmem => h.cleaned.disjoint k hk (hsub k hmem),
      fun k hk => ⟨(h.cleaned.gone k hk).1, fun hmem => (h.cleaned.gone k hk).2 (hsub k hmem)⟩⟩,
    ⟨h.known.watched, fun k hk => h.known.retained k (hsub k hk), h.known.queue, h.known.finished,
      h.known.drawn⟩,
    fun t => (h.fits t).mono rfl (fun _ hk => hk) (fun _ hk => hk) hsub, h.unique⟩

theorem Sound.finish (h : s.Sound) (hkey : s.Inserted key)
    (hwatched : key ∉ s.watcher.watchedReferences)
    (hretained : key ∉ s.watcher.retainedReferences) : (s.finish key).Sound :=
  ⟨⟨h.cleaned.disjoint, List.forall_mem_cons.mpr ⟨⟨hwatched, hretained⟩, h.cleaned.gone⟩⟩,
    ⟨h.known.watched, h.known.retained, h.known.queue,
      List.forall_mem_cons.mpr ⟨hkey, h.known.finished⟩, h.known.drawn⟩,
    fun t => (h.fits t).congr rfl rfl rfl rfl, h.unique⟩

/-- The `put` of `moveToRetained`. -/
theorem Sound.insertRetained (h : s.Sound) (hkey : s.Inserted key)
    (hwatched : key ∉ s.watcher.watchedReferences) (hfinished : key ∉ s.finished)
    (hhand : ∀ t ref, s.threads t ≠ .putting key ref) (ref : KeyWeakReference ω) :
    (s.setRetained (s.watcher.retainedReferences.insert key ref)).Sound := by
  have hcases : ∀ k ∈ s.watcher.retainedReferences.insert key ref,
      k = key ∨ k ∈ s.watcher.retainedReferences := fun k hk => (AList.mem_insert _).mp hk
  constructor
  case cleaned =>
      constructor
      · intro k hk hmem
        rcases hcases k hmem with rfl | hold
        · exact hwatched hk
        · exact h.cleaned.disjoint k hk hold
      · intro k hk
        refine ⟨(h.cleaned.gone k hk).1, fun hmem => ?_⟩
        rcases hcases k hmem with rfl | hold
        · exact hfinished hk
        · exact (h.cleaned.gone k hk).2 hold
  case known =>
      refine ⟨h.known.watched, fun k hk => ?_, h.known.queue, h.known.finished, h.known.drawn⟩
      rcases hcases k hk with rfl | hold
      · exact hkey
      · exact h.known.retained k hold
  case fits =>
      -- only a thread with this key in hand would mind
      intro t
      refine (h.fits t).transfer (fun _ hk => hk) (fun _ htask => htask) (fun _ _ hk => hk) ?_
      intro k ref' hpos hmem
      refine (hcases k hmem).resolve_left fun heq => ?_
      subst heq
      exact hhand t ref' hpos
  case unique => exact h.unique

/-- The `put` of `watch`, by a thread that is done with it. -/
theorem Sound.insertWatched (h : s.Sound) (hidle : s.threads none = .idle)
    (hdrawn : key ∈ s.drawn) (hnew : ¬ s.Inserted key) (o : ω) :
    ({ s.setWatched (s.watcher.watchedReferences.insert key ⟨o, key, ""⟩) with
      inserted := ⟨o, key, ""⟩ :: s.inserted } : Schedule ω).Sound := by
  have hcases : ∀ k ∈ s.watcher.watchedReferences.insert key ⟨o, key, ""⟩,
      k = key ∨ k ∈ s.watcher.watchedReferences := fun k hk => (AList.mem_insert _).mp hk
  have hold : ∀ k, s.Inserted k → ∃ ref ∈ ⟨o, key, ""⟩ :: s.inserted, ref.key = k := by
    rintro k ⟨ref, href, hk⟩
    exact ⟨ref, List.mem_cons_of_mem _ href, hk⟩
  constructor
  case cleaned =>
      constructor
      · intro k hk hmem
        rcases hcases k hk with rfl | hkept
        · exact hnew (h.known.retained k hmem)
        · exact h.cleaned.disjoint k hkept hmem
      · intro k hk
        refine ⟨fun hmem => ?_, (h.cleaned.gone k hk).2⟩
        rcases hcases k hmem with rfl | hkept
        · exact hnew (h.known.finished k hk)
        · exact (h.cleaned.gone k hk).1 hkept
  case known =>
      refine ⟨fun k hk => ?_, fun k hk => hold k (h.known.retained k hk),
        fun ref href => hold _ (h.known.queue ref href),
        fun k hk => hold k (h.known.finished k hk), ?_⟩
      · rcases hcases k hk with rfl | hkept
        · exact ⟨_, List.mem_cons_self, rfl⟩
        · exact hold k (h.known.watched k hkept)
      · rintro k ⟨ref, href, rfl⟩
        rcases List.mem_cons.mp href with rfl | hkept
        · exact hdrawn
        · exact h.known.drawn _ ⟨ref, hkept, rfl⟩
  case fits =>
      intro t
      by_cases ht : t = none
      · subst ht
        simp only [setWatched, hidle]
        trivial
      · refine (h.fits t).transfer hold ?_ ?_ (fun _ _ _ hk => hk)
        · intro task htask
          cases task with
          | watch o' k => exact absurd htask.1 ht
          | moveToRetained k => trivial
        · intro k hk hmem
          refine (hcases k hmem).resolve_left fun heq => ?_
          subst heq
          exact hnew hk
  case unique => exact h.unique

/-! ## One step -/

theorem Sound.setQueue (h : s.Sound) {queue : List (KeyWeakReference ω)}
    (hqueue : ∀ ref ∈ queue, s.Inserted ref.key) :
    ({ s with watcher := { s.watcher with queue := queue } } : Schedule ω).Sound :=
  ⟨⟨h.cleaned.disjoint, h.cleaned.gone⟩,
    ⟨h.known.watched, h.known.retained, hqueue, h.known.finished, h.known.drawn⟩,
    fun t => (h.fits t).congr rfl rfl rfl rfl, h.unique⟩

/-- The thread takes the reference from the watched ones. -/
theorem Sound.take (h : s.Sound) {ref : KeyWeakReference ω}
    (hlookup : s.watcher.watchedReferences.lookup key = some ref) :
    ((s.setWatched (s.watcher.watchedReferences.erase key)).goto t (.putting key ref)).Sound := by
  have hmem := mem_of_lookup hlookup
  apply (h.eraseWatched key).goto
  · refine ⟨h.known.watched key hmem, fun hin => (AList.mem_erase.mp hin).1 rfl, ?_⟩
    exact h.cleaned.disjoint key hmem
  · intro k r hk t' ref' hpos
    cases hk
    have hfits := h.fits t'
    have hpos' : s.threads t' = .putting key ref' := hpos
    rw [hpos'] at hfits
    exact hfits.2.1 hmem

/-- Every step of a thread but a late `put`. -/
theorem Sound.stepThread (h : s.Sound) (t : Option ℕ)
    (hcond : ∀ key ref, s.threads t = .putting key ref → key ∉ s.finished) :
    (s.stepThread t).Sound := by
  have hfits := h.fits t
  rw [Schedule.stepThread]
  cases hpos : s.threads t with
  | idle => exact h
  | entering task =>
      rw [hpos] at hfits
      by_cases hfree : s.monitor = none
      · simp only [hfree, if_true]
        have hentered : ({ s with monitor := some t } : Schedule ω).Sound :=
          h.congr rfl rfl rfl rfl rfl
        exact hentered.goto_of_ne hfits (by simp)
      · simp only [hfree, if_false]
        exact h
  | polling task =>
      rw [hpos] at hfits
      cases hqueue : s.watcher.queue with
      | nil => exact h.goto_of_ne hfits (by simp)
      | cons findRef queue =>
          have hknown := h.known.queue
          rw [hqueue] at hknown
          refine Sound.goto_of_ne (h.setQueue fun ref href => ?_) ⟨hfits, ?_⟩ (by simp)
          · exact hknown ref (List.mem_cons_of_mem _ href)
          · exact hknown findRef List.mem_cons_self
  | removingWatched task findRef =>
      rw [hpos] at hfits
      cases hlookup : s.watcher.watchedReferences.lookup findRef.key with
      | some ref =>
          simp only [hlookup]
          have hout := h.cleaned.disjoint _ (mem_of_lookup hlookup)
          have herased := (h.eraseWatched findRef.key).finish hfits.2
            (fun hin => (AList.mem_erase.mp hin).1 rfl) hout
          exact herased.goto_of_ne hfits.1 (by simp)
      | none =>
          simp only [hlookup]
          exact h.goto_of_ne ⟨hfits.1, hfits.2, AList.lookup_eq_none.mp hlookup⟩ (by simp)
  | removingRetained task findRef =>
      rw [hpos] at hfits
      have herased := (h.eraseRetained findRef.key).finish hfits.2.1 hfits.2.2
        (fun hin => (AList.mem_erase.mp hin).1 rfl)
      exact herased.goto_of_ne hfits.1 (by simp)
  | finishing task =>
      rw [hpos] at hfits
      cases task with
      | watch o key =>
          obtain ⟨rfl, hdrawn, hnew⟩ := hfits
          have hidle : (s.goto none .idle).Sound := h.goto_of_ne trivial (by simp)
          exact hidle.insertWatched (by simp) hdrawn hnew o
      | moveToRetained key =>
          cases hlookup : s.watcher.watchedReferences.lookup key with
          | some ref =>
              simp only [hlookup]
              exact h.take hlookup
          | none =>
              simp only [hlookup]
              exact h.goto_of_ne trivial (by simp)
  | putting key ref =>
      rw [hpos] at hfits
      have hleaving : (s.goto t .leaving).Sound := h.goto_of_ne trivial (by simp)
      apply hleaving.insertRetained hfits.1 hfits.2.1 (hcond key ref hpos)
      intro t' ref' hpos'
      by_cases ht : t' = t
      · subst ht
        simp at hpos'
      · rw [threads_goto_of_ne s ht] at hpos'
        exact ht (h.unique t' t key ref' ref hpos' hpos)
  | leaving =>
      have hleft : ({ s with monitor := none } : Schedule ω).Sound := h.congr rfl rfl rfl rfl rfl
      exact hleft.goto_of_ne trivial (by simp)

/-- A new key is drawn. -/
theorem Sound.draw (h : s.Sound) (key : String) :
    ({ s with drawn := key :: s.drawn } : Schedule ω).Sound :=
  ⟨⟨h.cleaned.disjoint, h.cleaned.gone⟩,
    ⟨h.known.watched, h.known.retained, h.known.queue, h.known.finished,
      fun k hk => List.mem_cons_of_mem _ (h.known.drawn k hk)⟩,
    fun t => (h.fits t).mono rfl (fun _ hk => List.mem_cons_of_mem _ hk) (fun _ hk => hk)
      (fun _ hk => hk), h.unique⟩

variable [DecidableEq ω]

theorem sound_initial : (run [] : Schedule ω).Sound := by
  have hempty : ∀ key, key ∉ (∅ : References ω) := fun key => AList.notMem_empty key
  exact ⟨⟨fun key hkey => absurd hkey (hempty key), by simp [run]⟩,
    ⟨fun key hkey => absurd hkey (hempty key), fun key hkey => absurd hkey (hempty key),
      by simp [run], by simp [run], by simp [run, Inserted]⟩,
    fun _ => trivial, by simp [run]⟩

theorem sound_append {pre : List (ScheduleEvent ω)} {e : ScheduleEvent ω}
    (hcond : PutInTime pre e) (h : (run pre).Sound) : (run (pre ++ [e])).Sound := by
  rw [run_append_singleton]
  cases e with
  | watch o key =>
      by_cases henabled : (run pre).threads none = .idle ∧ key ∉ (run pre).drawn
      · simp only [step, if_pos henabled]
        refine (h.draw key).goto_of_ne ⟨rfl, List.mem_cons_self, fun hins => ?_⟩ (by simp)
        exact henabled.2 (h.known.drawn key hins)
      · simp only [step, if_neg henabled]
        exact h
  | moveToRetained executor key =>
      by_cases henabled : (run pre).threads (some executor) = .idle
      · simp only [step, if_pos henabled]
        exact h.goto_of_ne trivial (by simp)
      · simp only [step, if_neg henabled]
        exact h
  | step t => exact h.stepThread t fun key ref hpos => hcond t key ref rfl hpos
  | enqueue ref =>
      by_cases henabled : ref ∈ (run pre).inserted ∧ ref ∉ (run pre).enqueued
      · simp only [step, if_pos henabled]
        refine (h.setQueue fun r hr => ?_).congr rfl rfl rfl rfl rfl
        rcases List.mem_append.mp hr with hold | hnew
        · exact h.known.queue r hold
        · rw [List.mem_singleton.mp hnew]
          exact ⟨ref, henabled.1, rfl⟩
      · simp only [step, if_neg henabled]
        exact h

/-- A late `put` leaves a key among the suspects whose cleaning is over. -/
theorem not_cleaned_of_late {pre : List (ScheduleEvent ω)} {e : ScheduleEvent ω}
    (hcond : ¬ PutInTime pre e) : ¬ (run (pre ++ [e])).Cleaned := by
  simp only [PutInTime, not_forall, Classical.not_not] at hcond
  obtain ⟨t, key, ref, rfl, hpos, hfinished⟩ := hcond
  have hstep : run (pre ++ [.step t]) =
      ((run pre).setRetained ((run pre).watcher.retainedReferences.insert key ref)).goto t
        .leaving := by
    rw [run_append_singleton, step, stepThread, hpos]
  rw [hstep]
  intro hcleaned
  exact (hcleaned.gone key hfinished).2 ((AList.mem_insert _).mpr (Or.inl rfl))

/-- Throughout a schedule no key is in both maps, and none whose cleaning is over in
either, exactly when no reference is put among the suspects after its cleaning. -/
theorem everyPrefix_cleaned_iff (es : List (ScheduleEvent ω)) :
    EveryPrefix (fun pre => (run pre).Cleaned) es ↔ EveryStep PutInTime es :=
  everyPrefix_iff_everyStep (I := fun pre => (run pre).Sound) sound_initial
    (fun _ h => h.cleaned) (fun _ _ hcond h => sound_append hcond h)
    (fun _ _ _ hcond => not_cleaned_of_late hcond) es

/-- The executor has the reference in hand while `watch` cleans its key. -/
theorem not_everyPrefix_cleaned_overtaken :
    ¬ ∀ es : List (ScheduleEvent ℕ), EveryPrefix (fun pre => (run pre).Cleaned) es := by
  intro hlaw
  have hcleaned := (hlaw ([.watch 0 "key", .step none, .step none, .moveToRetained 0 "key",
    .step (some 0), .step (some 0), .step (some 0), .enqueue ⟨0, "key", ""⟩, .watch 1 "other",
    .step none, .step none, .step none, .step (some 0)])).self
  exact absurd (hcleaned.gone "key" (by decide)).2 (by decide)

end Schedule

end StudyNotes.Leak
