/-
# The leak detector (`Watcher`, `KeyWeakReference`)

A watched object is held by a `KeyWeakReference` in one of two maps: it is watched
first, and suspected of being leaked when it is still there after five seconds.  A
collection clears and enqueues the references of objects that nothing holds any
more, and every operation first takes the enqueued references out of the maps.

`KeyWeakReference` has a field of its own for the referent, which is an ordinary
strong one.  So the maps hold every object they are to watch, no reference is ever
cleared, and an object is reported once its five seconds are over.
-/

import Mathlib.Data.List.AList
import Mathlib.Logic.Relation
import StudyNotes.Lib.Run

namespace StudyNotes.Leak

open StudyNotes.Run

variable {ω : Type}

/-! ## The watcher -/

/-- The fields that `KeyWeakReference` adds to `WeakReference`. -/
structure KeyWeakReference (ω : Type) where
  referent : ω
  key : String
  name : String
  deriving DecidableEq

/-- A `HashMap<String, KeyWeakReference<Any>>`. -/
abbrev References (ω : Type) := AList (fun _ : String => KeyWeakReference ω)

structure Watcher (ω : Type) where
  watchedReferences : References ω := ∅
  retainedReferences : References ω := ∅
  queue : List (KeyWeakReference ω) := []

namespace Watcher

/-- The body of the cleaning loop, for a reference taken from the queue. -/
def removeReference (w : Watcher ω) (findRef : KeyWeakReference ω) : Watcher ω :=
  match w.watchedReferences.lookup findRef.key with
  | some _ => { w with watchedReferences := w.watchedReferences.erase findRef.key }
  | none => { w with retainedReferences := w.retainedReferences.erase findRef.key }

/-- `removeWeaklyReachableReferences()`. -/
def removeWeaklyReachableReferences (w : Watcher ω) : Watcher ω :=
  { w.queue.foldl removeReference w with queue := [] }

/-- `watch(watchedReference, referenceName)` with the key it draws.  The source gives
the reference an empty name. -/
def watch (w : Watcher ω) (watchedReference : ω) (_referenceName key : String) : Watcher ω :=
  let w := w.removeWeaklyReachableReferences
  { w with watchedReferences := w.watchedReferences.insert key ⟨watchedReference, key, ""⟩ }

/-- `moveToRetained(key)`. -/
def moveToRetained (w : Watcher ω) (key : String) : Watcher ω :=
  let w := w.removeWeaklyReachableReferences
  match w.watchedReferences.lookup key with
  | some retainedRef =>
    { w with
      watchedReferences := w.watchedReferences.erase key
      retainedReferences := w.retainedReferences.insert key retainedRef }
  | none => w

/-- The object is not among the suspects. -/
def Unsuspected (w : Watcher ω) (o : ω) : Prop :=
  ∀ key ref, w.retainedReferences.lookup key = some ref → ref.referent ≠ o

theorem removeWeaklyReachableReferences_of_queue {w : Watcher ω} (h : w.queue = []) :
    w.removeWeaklyReachableReferences = w := by
  cases w
  simp_all [removeWeaklyReachableReferences]

end Watcher

/-! ## The heap and its runs -/

/-- The watcher, the objects the application holds from its roots, and the references
made so far. -/
structure Heap (ω : Type) where
  watcher : Watcher ω := {}
  roots : List ω
  created : List (KeyWeakReference ω) := []

/-- Calls of the watcher, a root given up, and a collection with the references that it
clears and enqueues. -/
inductive HeapEvent (ω : Type)
  | watch (watchedReference : ω) (referenceName key : String)
  | drop (o : ω)
  | gc (cleared : List (KeyWeakReference ω))
  | moveToRetained (key : String)

namespace Heap

variable [DecidableEq ω]

/-- One event. -/
def step (s : Heap ω) : HeapEvent ω → Heap ω
  | .watch o referenceName key =>
    { s with
      watcher := s.watcher.watch o referenceName key
      created := s.created ++ [⟨o, key, ""⟩] }
  | .drop o => { s with roots := s.roots.filter (· ≠ o) }
  | .gc cleared => { s with watcher := { s.watcher with queue := s.watcher.queue ++ cleared } }
  | .moveToRetained key => { s with watcher := s.watcher.moveToRetained key }

/-- The heap after a run, from the objects the application holds at first. -/
def run (roots : List ω) (es : List (HeapEvent ω)) : Heap ω := after step { roots := roots } es

@[simp]
theorem run_append_singleton (roots : List ω) (pre : List (HeapEvent ω)) (e : HeapEvent ω) :
    run roots (pre ++ [e]) = (run roots pre).step e := after_append_singleton _ _ _ _

end Heap

/-! ## Reachability -/

/-- The objects a collector follows. -/
inductive Node (ω : Type)
  | application
  | watcher
  | watchedReferences
  | retainedReferences
  | reference (ref : KeyWeakReference ω)
  | object (o : ω)

section Reachability

-- which objects the fields of an object hold
variable (fields : ω → ω → Prop)

/-- The strong references of the heap.  The last but one is the field `referent` of
`KeyWeakReference`; the weak one it inherits is not among them. -/
inductive Strong (s : Heap ω) : Node ω → Node ω → Prop
  | root {o} : o ∈ s.roots → Strong s .application (.object o)
  | watcher : Strong s .application .watcher
  | watchedReferences : Strong s .watcher .watchedReferences
  | retainedReferences : Strong s .watcher .retainedReferences
  | watched {key ref} : s.watcher.watchedReferences.lookup key = some ref →
      Strong s .watchedReferences (.reference ref)
  | retained {key ref} : s.watcher.retainedReferences.lookup key = some ref →
      Strong s .retainedReferences (.reference ref)
  | referent {ref} : Strong s (.reference ref) (.object ref.referent)
  | field {o o'} : fields o o' → Strong s (.object o) (.object o')

/-- The object is reached from the application or through the maps of the watcher. -/
def StronglyReachable (s : Heap ω) (o : ω) : Prop :=
  Relation.ReflTransGen (Strong fields s) .application (.object o)

/-- The application holds the object, directly or through other objects. -/
def ApplicationHolds (s : Heap ω) (o : ω) : Prop :=
  ∃ root ∈ s.roots, Relation.ReflTransGen fields root o

variable {fields} {s : Heap ω} {key : String} {ref : KeyWeakReference ω}

theorem stronglyReachable_of_watched (h : s.watcher.watchedReferences.lookup key = some ref) :
    StronglyReachable fields s ref.referent :=
  .head .watcher (.head .watchedReferences (.head (.watched h) (.single .referent)))

theorem stronglyReachable_of_retained (h : s.watcher.retainedReferences.lookup key = some ref) :
    StronglyReachable fields s ref.referent :=
  .head .watcher (.head .retainedReferences (.head (.retained h) (.single .referent)))

end Reachability

/-! ## Runs of the program -/

section Runs

variable [DecidableEq ω] (fields : ω → ω → Prop) (roots : List ω)

/-- An object is watched by an application that holds it, under a key that was not
drawn before; a collection clears references whose referent is not strongly
reachable. -/
def Legal (pre : List (HeapEvent ω)) : HeapEvent ω → Prop
  | .watch o _ key =>
    ApplicationHolds fields (Heap.run roots pre) o ∧
      ∀ ref ∈ (Heap.run roots pre).created, ref.key ≠ key
  | .gc cleared => ∀ ref ∈ cleared,
    ref ∈ (Heap.run roots pre).created ∧
      ¬ StronglyReachable fields (Heap.run roots pre) ref.referent
  | _ => True

/-- A collection leaves no reference that it could clear. -/
def Thorough (pre : List (HeapEvent ω)) : HeapEvent ω → Prop
  | .gc cleared => ∀ ref ∈ (Heap.run roots pre).created,
    StronglyReachable fields (Heap.run roots pre) ref.referent ∨ ref ∈ cleared
  | _ => True

/-- After a collection, an object that the application had given up before is not
suspected once the enqueued references are taken out. -/
def OnlyLeaksReported (es : List (HeapEvent ω)) : Prop :=
  ∀ pre cleared mid o, pre ++ .gc cleared :: mid <+: es →
    ¬ ApplicationHolds fields (Heap.run roots pre) o →
    (Heap.run roots (pre ++ .gc cleared :: mid)).watcher.removeWeaklyReachableReferences.Unsuspected
      o

/-- `moveToRetained` has found no reference of the object among the watched ones. -/
def NeverMoved (es : List (HeapEvent ω)) (o : ω) : Prop :=
  ∀ pre key ref, pre ++ [.moveToRetained key] <+: es →
    (Heap.run roots pre).watcher.watchedReferences.lookup key = some ref → ref.referent ≠ o

end Runs

/-! ## No reference is ever cleared -/

/-- The state between two events.  Every reference made so far is in one of the maps. -/
structure Sound (s : Heap ω) : Prop where
  queue : s.watcher.queue = []
  stored : ∀ ref ∈ s.created, s.watcher.watchedReferences.lookup ref.key = some ref ∨
    s.watcher.retainedReferences.lookup ref.key = some ref
  watched_created : ∀ key ∈ s.watcher.watchedReferences, ∃ ref ∈ s.created, ref.key = key
  retained_created : ∀ key ∈ s.watcher.retainedReferences, ∃ ref ∈ s.created, ref.key = key
  disjoint : ∀ key ∈ s.watcher.watchedReferences, key ∉ s.watcher.retainedReferences

variable {fields : ω → ω → Prop} {roots : List ω} {s : Heap ω} {key : String}

theorem mem_of_lookup {m : References ω} {ref : KeyWeakReference ω}
    (h : m.lookup key = some ref) : key ∈ m :=
  AList.lookup_isSome.mp (by simp [h])

theorem Sound.stronglyReachable (h : Sound s) {ref : KeyWeakReference ω} (href : ref ∈ s.created) :
    StronglyReachable fields s ref.referent := by
  rcases h.stored ref href with hwatched | hretained
  · exact stronglyReachable_of_watched hwatched
  · exact stronglyReachable_of_retained hretained

theorem Sound.watch [DecidableEq ω] (h : Sound s) (o : ω) (referenceName : String)
    (hfresh : ∀ ref ∈ s.created, ref.key ≠ key) :
    Sound (s.step (.watch o referenceName key)) := by
  have hnotWatched : key ∉ s.watcher.watchedReferences := by
    intro hmem
    obtain ⟨ref, href, hkey⟩ := h.watched_created key hmem
    exact hfresh ref href hkey
  have hnotRetained : key ∉ s.watcher.retainedReferences := by
    intro hmem
    obtain ⟨ref, href, hkey⟩ := h.retained_created key hmem
    exact hfresh ref href hkey
  simp only [Heap.step, Watcher.watch, Watcher.removeWeaklyReachableReferences_of_queue h.queue]
  constructor
  case queue => exact h.queue
  case stored =>
      intro ref href
      rcases List.mem_append.mp href with hold | hnew
      · rcases h.stored ref hold with hwatched | hretained
        · left
          rw [AList.lookup_insert_ne (hfresh ref hold)]
          exact hwatched
        · exact Or.inr hretained
      · left
        rw [List.mem_singleton.mp hnew, AList.lookup_insert]
  case watched_created =>
      intro k hk
      rcases (AList.mem_insert _).mp hk with rfl | hold
      · exact ⟨_, List.mem_append_right _ (List.mem_singleton.mpr rfl), rfl⟩
      · obtain ⟨ref, href, hkey⟩ := h.watched_created k hold
        exact ⟨ref, List.mem_append_left _ href, hkey⟩
  case retained_created =>
      intro k hk
      obtain ⟨ref, href, hkey⟩ := h.retained_created k hk
      exact ⟨ref, List.mem_append_left _ href, hkey⟩
  case disjoint =>
      intro k hk
      rcases (AList.mem_insert _).mp hk with rfl | hold
      · exact hnotRetained
      · exact h.disjoint k hold

/-- What `moveToRetained` does while the queue is empty. -/
theorem moveToRetained_of_lookup {w : Watcher ω} (hqueue : w.queue = [])
    {ref : KeyWeakReference ω} (h : w.watchedReferences.lookup key = some ref) :
    w.moveToRetained key =
      { w with
        watchedReferences := w.watchedReferences.erase key
        retainedReferences := w.retainedReferences.insert key ref } := by
  simp only [Watcher.moveToRetained, Watcher.removeWeaklyReachableReferences_of_queue hqueue, h]

theorem moveToRetained_of_lookup_none {w : Watcher ω} (hqueue : w.queue = [])
    (h : w.watchedReferences.lookup key = none) : w.moveToRetained key = w := by
  simp only [Watcher.moveToRetained, Watcher.removeWeaklyReachableReferences_of_queue hqueue, h]

theorem Sound.moveToRetained [DecidableEq ω] (h : Sound s) (key : String) :
    Sound (s.step (.moveToRetained key)) := by
  rw [Heap.step]
  cases hlookup : s.watcher.watchedReferences.lookup key with
  | none =>
      rw [moveToRetained_of_lookup_none h.queue hlookup]
      exact h
  | some moved =>
      have hmem := mem_of_lookup hlookup
      rw [moveToRetained_of_lookup h.queue hlookup]
      constructor
      case queue => exact h.queue
      case stored =>
          intro ref href
          by_cases hkey : ref.key = key
          · -- it was in the watched ones, so it is the one that is moved
            subst hkey
            have hout : s.watcher.retainedReferences.lookup ref.key = none :=
              AList.lookup_eq_none.mpr (h.disjoint ref.key hmem)
            have hwatched := (h.stored ref href).resolve_right (by simp [hout])
            have hmoved : moved = ref := Option.some.inj (hlookup.symm.trans hwatched)
            right
            rw [hmoved]
            exact AList.lookup_insert _
          · simp only [AList.lookup_erase_ne hkey, AList.lookup_insert_ne hkey]
            exact h.stored ref href
      case watched_created =>
          intro k hk
          exact h.watched_created k (AList.mem_erase.mp hk).2
      case retained_created =>
          intro k hk
          rcases (AList.mem_insert _).mp hk with rfl | hold
          · exact h.watched_created k hmem
          · exact h.retained_created k hold
      case disjoint =>
          intro k hk hretained
          obtain ⟨hne, hwatched⟩ := AList.mem_erase.mp hk
          rcases (AList.mem_insert _).mp hretained with rfl | hold
          · exact hne rfl
          · exact h.disjoint k hwatched hold

/-- Whatever a collection clears is not one of the references made so far, so it clears
nothing. -/
theorem Sound.cleared_eq_nil (h : Sound s) {cleared : List (KeyWeakReference ω)}
    (hcleared : ∀ ref ∈ cleared, ref ∈ s.created ∧ ¬ StronglyReachable fields s ref.referent) :
    cleared = [] := by
  apply List.eq_nil_iff_forall_not_mem.mpr
  intro ref href
  exact (hcleared ref href).2 (h.stronglyReachable (hcleared ref href).1)

variable [DecidableEq ω]

theorem sound_append {pre : List (HeapEvent ω)} {e : HeapEvent ω}
    (hlegal : Legal fields roots pre e) (h : Sound (Heap.run roots pre)) :
    Sound (Heap.run roots (pre ++ [e])) := by
  rw [Heap.run_append_singleton]
  cases e with
  | watch o referenceName key => exact h.watch o referenceName hlegal.2
  | drop o => exact ⟨h.queue, h.stored, h.watched_created, h.retained_created, h.disjoint⟩
  | gc cleared =>
      rw [h.cleared_eq_nil hlegal, Heap.step, List.append_nil]
      exact h
  | moveToRetained key => exact h.moveToRetained key

theorem everyPrefix_sound {es : List (HeapEvent ω)} (hes : EveryStep (Legal fields roots) es) :
    EveryPrefix (fun pre => Sound (Heap.run roots pre)) es := by
  refine EveryPrefix.of_step (P := fun pre => Sound (Heap.run roots pre)) ?_ ?_ hes
  · exact ⟨rfl, by simp [Heap.run], by simp [Heap.run, AList.mem_keys],
      by simp [Heap.run, AList.mem_keys], by simp [Heap.run, AList.mem_keys]⟩
  · intro pre e hlegal h
    exact sound_append hlegal h

/-! ## The suspects are the references that were moved -/

/-- One event adds to the suspects only what it moves, and takes nothing from them. -/
theorem Sound.lookup_retained_step (h : Sound s) (e : HeapEvent ω) (key : String)
    (ref : KeyWeakReference ω) :
    (s.step e).watcher.retainedReferences.lookup key = some ref ↔
      (e = .moveToRetained key ∧ s.watcher.watchedReferences.lookup key = some ref) ∨
        s.watcher.retainedReferences.lookup key = some ref := by
  cases e with
  | watch o referenceName k =>
      simp [Heap.step, Watcher.watch, Watcher.removeWeaklyReachableReferences_of_queue h.queue]
  | drop o => simp [Heap.step]
  | gc cleared => simp [Heap.step]
  | moveToRetained k =>
      rw [Heap.step]
      cases hlookup : s.watcher.watchedReferences.lookup k with
      | none =>
          rw [moveToRetained_of_lookup_none h.queue hlookup]
          have hnot : (.moveToRetained k : HeapEvent ω) = .moveToRetained key →
              s.watcher.watchedReferences.lookup key ≠ some ref := by
            intro hk
            cases hk
            simp [hlookup]
          exact ⟨Or.inr, fun hor => hor.resolve_left fun hboth => hnot hboth.1 hboth.2⟩
      | some moved =>
          rw [moveToRetained_of_lookup h.queue hlookup]
          by_cases hk : key = k
          · subst hk
            have hout : s.watcher.retainedReferences.lookup key = none :=
              AList.lookup_eq_none.mpr (h.disjoint key (mem_of_lookup hlookup))
            simp [AList.lookup_insert, hlookup, hout]
          · have hne : (.moveToRetained k : HeapEvent ω) ≠ .moveToRetained key := by
              simpa using Ne.symm hk
            simp [AList.lookup_insert_ne hk, hne]

theorem lookup_retained_iff {es : List (HeapEvent ω)} (hes : EveryStep (Legal fields roots) es)
    (key : String) (ref : KeyWeakReference ω) :
    (Heap.run roots es).watcher.retainedReferences.lookup key = some ref ↔
      ∃ pre, pre ++ [.moveToRetained key] <+: es ∧
        (Heap.run roots pre).watcher.watchedReferences.lookup key = some ref := by
  induction es using List.reverseRecOn with
  | nil => simp [Heap.run]
  | append_singleton es e ih =>
      have hbefore := hes.of_prefix (List.prefix_append es [e])
      have hsound := (everyPrefix_sound hbefore).self
      rw [Heap.run_append_singleton, hsound.lookup_retained_step, ih hbefore]
      simp only [List.prefix_concat_iff]
      constructor
      · rintro (⟨rfl, hfound⟩ | ⟨pre, hpre, hfound⟩)
        · exact ⟨es, Or.inl rfl, hfound⟩
        · exact ⟨pre, Or.inr hpre, hfound⟩
      · rintro ⟨pre, hlast | hpre, hfound⟩
        · obtain ⟨rfl, he⟩ := List.append_inj' hlast rfl
          exact Or.inl ⟨(List.singleton_inj.mp he).symm, hfound⟩
        · exact Or.inr ⟨pre, hpre, hfound⟩

/-- After any run, cleaning changes nothing and the suspects are what was moved. -/
theorem unsuspected_iff_neverMoved {es : List (HeapEvent ω)}
    (hes : EveryStep (Legal fields roots) es) (o : ω) :
    (Heap.run roots es).watcher.removeWeaklyReachableReferences.Unsuspected o ↔
      NeverMoved roots es o := by
  rw [Watcher.removeWeaklyReachableReferences_of_queue (everyPrefix_sound hes).self.queue]
  constructor
  · intro h pre key ref hpre hfound
    exact h key ref ((lookup_retained_iff hes key ref).mpr ⟨pre, hpre, hfound⟩)
  · intro h key ref hretained
    obtain ⟨pre, hpre, hfound⟩ := (lookup_retained_iff hes key ref).mp hretained
    exact h pre key ref hpre hfound

/-- The detector reports only what the application still holds exactly in the runs in
which no object that was given up before a collection is moved to the suspects: its
own reference to the object is never cleared. -/
theorem onlyLeaksReported_iff (fields : ω → ω → Prop) (roots : List ω)
    (es : List (HeapEvent ω)) (hes : EveryStep (Legal fields roots) es) :
    OnlyLeaksReported fields roots es ↔
      ∀ pre cleared mid o, pre ++ .gc cleared :: mid <+: es →
        ¬ ApplicationHolds fields (Heap.run roots pre) o →
        NeverMoved roots (pre ++ .gc cleared :: mid) o := by
  apply forall₅_congr
  intro pre cleared mid o hpre
  apply forall_congr'
  intro _
  exact unsuspected_iff_neverMoved (hes.of_prefix hpre) o

/-- An object is watched, given up and collected before its five seconds are over. -/
def givenUp : List (HeapEvent ℕ) := [.watch 0 "" "key", .drop 0, .gc []]

theorem legal_givenUp : EveryStep (Legal (fun _ _ => False) [0]) givenUp := by
  have hwatch : EveryStep (Legal (fun _ _ => False) [0]) [.watch 0 "" "key"] :=
    everyStep_nil.concat ⟨⟨0, by decide, .refl⟩, by simp [Heap.run]⟩
  have hdrop : EveryStep (Legal (fun _ _ => False) [0]) [.watch 0 "" "key", .drop 0] :=
    hwatch.concat trivial
  exact hdrop.concat fun ref href => absurd href List.not_mem_nil

theorem not_applicationHolds_givenUp :
    ¬ ApplicationHolds (fun _ _ => False) (Heap.run [0] [.watch 0 "" "key", .drop 0]) 0 := by
  rintro ⟨root, hroot, -⟩
  exact absurd hroot (by simp [Heap.run, after, Heap.step])

/-- Before the five seconds are over nothing is suspected. -/
theorem onlyLeaksReported_givenUp :
    EveryStep (Legal (fun _ _ => False) [0]) givenUp ∧
      OnlyLeaksReported (fun _ _ => False) [0] givenUp := by
  refine ⟨legal_givenUp, (onlyLeaksReported_iff _ _ _ legal_givenUp).mpr ?_⟩
  intro pre cleared mid o hpre _ q key ref hq _
  have hmem : HeapEvent.moveToRetained key ∈ givenUp :=
    (hq.trans hpre).subset (List.mem_append_right _ (List.mem_singleton.mpr rfl))
  simp [givenUp] at hmem

/-- The five seconds end after the object was given up and collected, as in the
repository's own scenario: it is suspected, although the collection was thorough. -/
theorem not_onlyLeaksReported_moved :
    ¬ ∀ (fields : ℕ → ℕ → Prop) roots es, EveryStep (Legal fields roots) es →
      EveryStep (Thorough fields roots) es → OnlyLeaksReported fields roots es := by
  intro hlaw
  have hthorough : EveryStep (Thorough (fun _ _ => False) [0])
      (givenUp ++ [.moveToRetained "key"]) := by
    have hbefore : EveryStep (Thorough (fun _ _ => False) [0]) [.watch 0 "" "key", .drop 0] :=
      (everyStep_nil.concat trivial).concat trivial
    refine EveryStep.concat (hbefore.concat fun ref href => Or.inl ?_) trivial
    have hsound := everyPrefix_sound legal_givenUp [.watch 0 "" "key", .drop 0] ⟨[.gc []], rfl⟩
    exact hsound.stronglyReachable href
  have hlegal : EveryStep (Legal (fun _ _ => False) [0]) (givenUp ++ [.moveToRetained "key"]) :=
    legal_givenUp.concat trivial
  have hunsuspected := hlaw _ _ _ hlegal hthorough
    [.watch 0 "" "key", .drop 0] [] [.moveToRetained "key"] 0 (List.prefix_refl _)
    not_applicationHolds_givenUp
  exact hunsuspected "key" ⟨0, "key", ""⟩ (by decide) rfl

end StudyNotes.Leak
