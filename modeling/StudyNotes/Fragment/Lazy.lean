/-
# A lazily loading fragment (`BaseFragment4`)

`BaseFragment4` keeps three flags, updates them in five callbacks, and calls its
hooks `load()` and `loadStop()` when the visibility flag flips.  The model keeps
the flags under the source's names and records the hook calls.

The main result is about whole lifecycle runs.  Alternation of the hooks and
loading on resume hold in every run.  Staying unloaded off screen does not:
`onPause` tests the hint with the wrong sign, and nothing resets
`isViewCreated` when the view goes away, so a hint delivered later still loads.
The law holds in exactly the runs that avoid both.
-/

import StudyNotes.Lib.Run

namespace StudyNotes.Fragment

open StudyNotes.Run

/-- A call of one of the two overridable hooks. -/
inductive LoadCall
  | load
  | loadStop
  deriving DecidableEq, Repr

/-- Strict alternation starting with `load()`, read on a record that lists the
most recent call first. -/
def Alternates : List LoadCall → Prop
  | [] => True
  | .load :: earlier => earlier.head? ≠ some .load ∧ Alternates earlier
  | .loadStop :: earlier => earlier.head? = some .load ∧ Alternates earlier

instance decidableAlternates : ∀ calls, Decidable (Alternates calls)
  | [] => inferInstanceAs (Decidable True)
  | .load :: earlier =>
      have := decidableAlternates earlier
      inferInstanceAs (Decidable (_ ∧ _))
  | .loadStop :: earlier =>
      have := decidableAlternates earlier
      inferInstanceAs (Decidable (_ ∧ _))

/-- The fields of a lazy fragment.  `userVisibleHint` is the platform's field and
starts as true; `calls` records the hook calls, the most recent one first. -/
structure FragmentState where
  rootView : Bool := false
  isViewCreated : Bool := false
  isFragmentVisible : Bool := false
  userVisibleHint : Bool := true
  calls : List LoadCall := []
  deriving DecidableEq, Repr

namespace FragmentState

/-- The hook `load()`. -/
def load (f : FragmentState) : FragmentState := { f with calls := .load :: f.calls }

/-- The hook `loadStop()`. -/
def loadStop (f : FragmentState) : FragmentState := { f with calls := .loadStop :: f.calls }

/-- The last hook call was `load()`. -/
def Loaded (f : FragmentState) : Prop := f.calls.head? = some .load

instance (f : FragmentState) : Decidable f.Loaded := inferInstanceAs (Decidable (_ = _))

/-- How often `load()` has been called. -/
def loads (f : FragmentState) : ℕ := f.calls.count .load

/-- The visibility flag tells whether the fragment is loaded, and the hooks have
alternated so far. -/
structure Tracks (f : FragmentState) : Prop where
  alternates : Alternates f.calls
  loaded_iff : f.Loaded ↔ f.isFragmentVisible = true

theorem Tracks.show_load {f : FragmentState} (hf : f.Tracks)
    (hv : f.isFragmentVisible = false) :
    ({ f with isFragmentVisible := true }.load).Tracks := by
  have hunloaded : ¬ f.Loaded := by simp [hf.loaded_iff, hv]
  exact ⟨⟨hunloaded, hf.alternates⟩, by simp [Loaded, load]⟩

theorem Tracks.hide_loadStop {f : FragmentState} (hf : f.Tracks)
    (hv : f.isFragmentVisible = true) :
    ({ f with isFragmentVisible := false }.loadStop).Tracks := by
  have hloaded : f.Loaded := hf.loaded_iff.mpr hv
  exact ⟨⟨hloaded, hf.alternates⟩, by simp [Loaded, loadStop]⟩

end FragmentState

/-! ## Orders the fragment lifecycle allows -/

/-- The callbacks a host delivers. -/
inductive Callback
  | onCreateView
  | setUserVisibleHint (isVisibleToUser : Bool)
  | onResume
  | onPause
  | onDestroyView
  deriving DecidableEq, Repr

/-- Every callback but the hint belongs to the lifecycle. -/
def Callback.isLifecycle : Callback → Bool
  | .setUserVisibleHint _ => false
  | _ => true

/-- The last lifecycle callback of a run. -/
def lastLifecycle (es : List Callback) : Option Callback :=
  (es.filter Callback.isLifecycle).getLast?

/-- Which callback may follow, given the last lifecycle callback.  The hint may be
set at any time. -/
def allowed : Option Callback → Callback → Bool
  | _, .setUserVisibleHint _ => true
  | none, .onCreateView => true
  | some .onCreateView, .onResume => true
  | some .onCreateView, .onDestroyView => true
  | some .onResume, .onPause => true
  | some .onPause, .onResume => true
  | some .onPause, .onDestroyView => true
  | some .onDestroyView, .onCreateView => true
  | _, _ => false

/-- The runs the fragment lifecycle allows. -/
def LifecycleOrder (es : List Callback) : Prop :=
  EveryStep (fun pre e => allowed (lastLifecycle pre) e = true) es

instance (es : List Callback) : Decidable (LifecycleOrder es) :=
  inferInstanceAs (Decidable (EveryStep _ es))

/-- Off screen: paused and not resumed since, or without a view again. -/
def offScreen (es : List Callback) : Bool :=
  lastLifecycle es = some .onPause || lastLifecycle es = some .onDestroyView

@[simp]
theorem lastLifecycle_append_hint (pre : List Callback) (b : Bool) :
    lastLifecycle (pre ++ [.setUserVisibleHint b]) = lastLifecycle pre := by
  simp [lastLifecycle, Callback.isLifecycle]

theorem lastLifecycle_append_of_isLifecycle (pre : List Callback) {e : Callback}
    (he : e.isLifecycle = true) : lastLifecycle (pre ++ [e]) = some e := by
  simp [lastLifecycle, he]

theorem offScreen_append_hint (pre : List Callback) (b : Bool) :
    offScreen (pre ++ [.setUserVisibleHint b]) = offScreen pre := by
  rw [offScreen, lastLifecycle_append_hint, offScreen]

theorem offScreen_append_of_isLifecycle (pre : List Callback) {e : Callback}
    (he : e.isLifecycle = true) :
    offScreen (pre ++ [e]) = (e = .onPause || e = .onDestroyView) := by
  simp only [offScreen, lastLifecycle_append_of_isLifecycle pre he, Option.some.injEq]

/-! ## The callbacks of `BaseFragment4` -/

namespace BaseFragment4

/-- `dispatchUserVisibleHint(visible)`. -/
def dispatchUserVisibleHint (visible : Bool) (f : FragmentState) : FragmentState :=
  let f := { f with isFragmentVisible := visible }
  if visible then f.load else f.loadStop

/-- `setUserVisibleHint(isVisibleToUser)`: the platform stores the hint, then the
change is dispatched if the view was ever created. -/
def setUserVisibleHint (isVisibleToUser : Bool) (f : FragmentState) : FragmentState :=
  let f := { f with userVisibleHint := isVisibleToUser }
  if f.isViewCreated then
    if isVisibleToUser && !f.isFragmentVisible then dispatchUserVisibleHint true f
    else if !isVisibleToUser && f.isFragmentVisible then dispatchUserVisibleHint false f
    else f
  else f

/-- `onCreateView`: the root view is inflated once and the hint is dispatched by
hand when it is already true. -/
def onCreateView (f : FragmentState) : FragmentState :=
  let f := { f with rootView := true, isViewCreated := true }
  if f.userVisibleHint then setUserVisibleHint true f else f

/-- `onResume`. -/
def onResume (f : FragmentState) : FragmentState :=
  if f.userVisibleHint && !f.isFragmentVisible then dispatchUserVisibleHint true f else f

/-- `onPause`.  The source tests `!userVisibleHint` here. -/
def onPause (f : FragmentState) : FragmentState :=
  if !f.userVisibleHint && f.isFragmentVisible then dispatchUserVisibleHint false f else f

/-- `onDestroyView` only logs. -/
def onDestroyView (f : FragmentState) : FragmentState := f

/-- One delivered callback. -/
def step (f : FragmentState) : Callback → FragmentState
  | .onCreateView => onCreateView f
  | .setUserVisibleHint b => setUserVisibleHint b f
  | .onResume => onResume f
  | .onPause => onPause f
  | .onDestroyView => onDestroyView f

/-- The fragment after a sequence of callbacks on a new instance. -/
def run (es : List Callback) : FragmentState := es.foldl step {}

@[simp]
theorem run_nil : run [] = {} := rfl

@[simp]
theorem run_append_singleton (pre : List Callback) (e : Callback) :
    run (pre ++ [e]) = step (run pre) e := by
  simp [run]

/-! ## The law -/

/-- A fragment is active only while on screen, as a law of one run: the hooks
alternate, a resume with the hint set leaves the fragment loaded, a pause leaves
it unloaded until the next resume or view creation, and no `load()` happens
between the destruction of a view and the creation of the next. -/
structure ActiveOnlyOnScreen (es : List Callback) : Prop where
  alternates : ∀ pre, pre <+: es → Alternates (run pre).calls
  loaded_of_resume : ∀ pre, pre ++ [.onResume] <+: es →
    (run pre).userVisibleHint = true → (run (pre ++ [.onResume])).Loaded
  unloaded_of_pause : ∀ pre mid, pre ++ .onPause :: mid <+: es →
    (∀ e ∈ mid, e ≠ .onResume ∧ e ≠ .onCreateView) →
      ¬ (run (pre ++ .onPause :: mid)).Loaded
  no_load_without_view : ∀ pre mid e, pre ++ .onDestroyView :: (mid ++ [e]) <+: es →
    (∀ e' ∈ mid ++ [e], e' ≠ .onCreateView) →
      (run (pre ++ .onDestroyView :: (mid ++ [e]))).loads =
        (run (pre ++ .onDestroyView :: mid)).loads

/-- The steps that do not reach the defect: no pause finds the fragment visible,
and the hint is not switched on for an invisible fragment while off screen. -/
def QuietStep (pre : List Callback) (e : Callback) : Prop :=
  (e = .onPause → (run pre).isFragmentVisible = false) ∧
    (e = .setUserVisibleHint true → offScreen pre = true →
      (run pre).isFragmentVisible = true)

/-! ## What each callback does to the flags -/

section Flags

variable (f : FragmentState) (b : Bool)

@[simp]
theorem setUserVisibleHint_isViewCreated :
    (setUserVisibleHint b f).isViewCreated = f.isViewCreated := by
  cases b <;> simp only [setUserVisibleHint] <;> split_ifs <;> rfl

@[simp]
theorem setUserVisibleHint_userVisibleHint : (setUserVisibleHint b f).userVisibleHint = b := by
  cases b <;> simp only [setUserVisibleHint] <;> split_ifs <;> rfl

/-- Once a view was created the flag follows the hint. -/
@[simp]
theorem setUserVisibleHint_isFragmentVisible :
    (setUserVisibleHint b f).isFragmentVisible =
      if f.isViewCreated then b else f.isFragmentVisible := by
  cases b <;> cases hv : f.isFragmentVisible <;> cases hc : f.isViewCreated <;>
    simp [setUserVisibleHint, dispatchUserVisibleHint, FragmentState.load,
      FragmentState.loadStop, hv, hc]

@[simp]
theorem onCreateView_isViewCreated : (onCreateView f).isViewCreated = true := by
  simp only [onCreateView]
  split_ifs <;> simp

@[simp]
theorem onCreateView_userVisibleHint : (onCreateView f).userVisibleHint = f.userVisibleHint := by
  simp only [onCreateView]
  split_ifs with h <;> simp [h]

@[simp]
theorem onCreateView_isFragmentVisible :
    (onCreateView f).isFragmentVisible = (f.userVisibleHint || f.isFragmentVisible) := by
  simp only [onCreateView]
  split_ifs with h <;> simp [h]

@[simp]
theorem onResume_isViewCreated : (onResume f).isViewCreated = f.isViewCreated := by
  simp only [onResume]
  split_ifs <;> rfl

@[simp]
theorem onResume_userVisibleHint : (onResume f).userVisibleHint = f.userVisibleHint := by
  simp only [onResume]
  split_ifs <;> rfl

@[simp]
theorem onResume_isFragmentVisible :
    (onResume f).isFragmentVisible = (f.userVisibleHint || f.isFragmentVisible) := by
  cases hh : f.userVisibleHint <;> cases hv : f.isFragmentVisible <;>
    simp [onResume, dispatchUserVisibleHint, FragmentState.load, hh, hv]

@[simp]
theorem onPause_isViewCreated : (onPause f).isViewCreated = f.isViewCreated := by
  simp only [onPause]
  split_ifs <;> rfl

@[simp]
theorem onPause_userVisibleHint : (onPause f).userVisibleHint = f.userVisibleHint := by
  simp only [onPause]
  split_ifs <;> rfl

/-- A pause clears the flag of a fragment whose hint is off, and only of such. -/
@[simp]
theorem onPause_isFragmentVisible :
    (onPause f).isFragmentVisible = (f.userVisibleHint && f.isFragmentVisible) := by
  cases hh : f.userVisibleHint <;> cases hv : f.isFragmentVisible <;>
    simp [onPause, dispatchUserVisibleHint, FragmentState.loadStop, hh, hv]

@[simp]
theorem onDestroyView_eq : onDestroyView f = f := rfl

end Flags

/-! ## What every run keeps -/

theorem dispatchUserVisibleHint_tracks {f : FragmentState} {visible : Bool} (hf : f.Tracks)
    (hv : f.isFragmentVisible = !visible) : (dispatchUserVisibleHint visible f).Tracks := by
  cases visible with
  | true => simpa [dispatchUserVisibleHint] using hf.show_load hv
  | false => simpa [dispatchUserVisibleHint] using hf.hide_loadStop hv

theorem setUserVisibleHint_tracks {f : FragmentState} (b : Bool) (hf : f.Tracks) :
    (setUserVisibleHint b f).Tracks := by
  have hhint : ({ f with userVisibleHint := b } : FragmentState).Tracks :=
    ⟨hf.alternates, hf.loaded_iff⟩
  simp only [setUserVisibleHint]
  split_ifs with _ hshow hhide
  · exact dispatchUserVisibleHint_tracks hhint (by simpa using (Bool.and_eq_true_iff.mp hshow).2)
  · exact dispatchUserVisibleHint_tracks hhint (by simpa using (Bool.and_eq_true_iff.mp hhide).2)
  · exact hhint
  · exact hhint

/-- Alternation needs no lifecycle order: whatever is delivered, a hook is called
only when the visibility flag flips. -/
theorem step_tracks {f : FragmentState} (hf : f.Tracks) (e : Callback) : (step f e).Tracks := by
  cases e with
  | onCreateView =>
      have hcreated : ({ f with rootView := true, isViewCreated := true } : FragmentState).Tracks :=
        ⟨hf.alternates, hf.loaded_iff⟩
      simp only [step, onCreateView]
      split_ifs
      · exact setUserVisibleHint_tracks true hcreated
      · exact hcreated
  | setUserVisibleHint b => exact setUserVisibleHint_tracks b hf
  | onResume =>
      simp only [step, onResume]
      split_ifs with h
      · exact dispatchUserVisibleHint_tracks hf (by simpa using (Bool.and_eq_true_iff.mp h).2)
      · exact hf
  | onPause =>
      simp only [step, onPause]
      split_ifs with h
      · exact dispatchUserVisibleHint_tracks hf (by simpa using (Bool.and_eq_true_iff.mp h).2)
      · exact hf
  | onDestroyView => exact hf

theorem run_tracks (es : List Callback) : (run es).Tracks := by
  induction es using List.reverseRecOn with
  | nil => exact ⟨trivial, by simp [FragmentState.Loaded]⟩
  | append_singleton pre e ih =>
      rw [run_append_singleton]
      exact step_tracks ih e

/-- In lifecycle order a visible fragment has had a view and keeps its hint. -/
structure Shown (pre : List Callback) : Prop where
  created : lastLifecycle pre ≠ none → (run pre).isViewCreated = true
  visible : (run pre).isFragmentVisible = true →
    (run pre).isViewCreated = true ∧ (run pre).userVisibleHint = true

theorem Shown.step {pre : List Callback} (hpre : Shown pre) {e : Callback}
    (he : allowed (lastLifecycle pre) e = true) : Shown (pre ++ [e]) := by
  -- a lifecycle callback other than the first finds a view that was created
  have hstarted : e.isLifecycle = true → e ≠ .onCreateView → (run pre).isViewCreated = true := by
    intro hlife hne
    apply hpre.created
    intro hnone
    cases e <;> simp_all [allowed, Callback.isLifecycle]
  have hvisible := hpre.visible
  have hcreated := hpre.created
  cases e with
  | onCreateView =>
      constructor <;> rw [run_append_singleton] <;> simp [BaseFragment4.step]
      tauto
  | setUserVisibleHint b =>
      constructor <;> rw [run_append_singleton] <;> simp [BaseFragment4.step]
      · exact hcreated
      · grind
  | onResume =>
      have := hstarted rfl (by simp)
      constructor <;> rw [run_append_singleton] <;> simp [BaseFragment4.step, this]
      tauto
  | onPause =>
      have := hstarted rfl (by simp)
      constructor <;> rw [run_append_singleton] <;> simp [BaseFragment4.step, this]
      tauto
  | onDestroyView =>
      have := hstarted rfl (by simp)
      constructor <;> rw [run_append_singleton] <;> simp [BaseFragment4.step, this]
      tauto

theorem shown_of_lifecycleOrder {es : List Callback} (hes : LifecycleOrder es) :
    EveryPrefix Shown es :=
  EveryPrefix.of_step ⟨by simp [lastLifecycle], by simp⟩
    (fun _ _ hallowed hpre => hpre.step hallowed) hes

/-! ## Off screen -/

/-- After a pause the fragment stays off screen until a resume or a new view. -/
theorem offScreen_of_pause (pre mid : List Callback)
    (hmid : ∀ e ∈ mid, e ≠ .onResume ∧ e ≠ .onCreateView) :
    offScreen (pre ++ .onPause :: mid) = true := by
  induction mid using List.reverseRecOn with
  | nil =>
      rw [offScreen_append_of_isLifecycle pre rfl]
      rfl
  | append_singleton mid e ih =>
      have hmid' : ∀ e' ∈ mid, e' ≠ .onResume ∧ e' ≠ .onCreateView :=
        fun e' he' => hmid e' (by simp [he'])
      have he := hmid e (by simp)
      rw [← List.cons_append, ← List.append_assoc]
      cases e with
      | setUserVisibleHint b => rw [offScreen_append_hint, ih hmid']
      | onPause | onDestroyView =>
          rw [offScreen_append_of_isLifecycle _ rfl]
          rfl
      | onResume => exact absurd rfl he.1
      | onCreateView => exact absurd rfl he.2

/-- In lifecycle order nothing but hints follows the destruction of a view until
the next view is created. -/
theorem lastLifecycle_of_destroyView {pre mid : List Callback}
    (hes : LifecycleOrder (pre ++ .onDestroyView :: mid))
    (hmid : ∀ e ∈ mid, e ≠ .onCreateView) :
    lastLifecycle (pre ++ .onDestroyView :: mid) = some .onDestroyView := by
  induction mid using List.reverseRecOn with
  | nil => exact lastLifecycle_append_of_isLifecycle pre rfl
  | append_singleton mid e ih =>
      rw [← List.cons_append, ← List.append_assoc] at hes ⊢
      have hlast := ih (hes.of_prefix (List.prefix_append _ _))
        (fun e' he' => hmid e' (by simp [he']))
      have hallowed : allowed (lastLifecycle _) e = true := hes _ e (List.prefix_refl _)
      rw [hlast] at hallowed
      cases e with
      | setUserVisibleHint b => rw [lastLifecycle_append_hint, hlast]
      | onCreateView => exact absurd rfl (hmid _ (by simp))
      | onResume | onPause | onDestroyView => simp [allowed] at hallowed

/-- The last lifecycle callback is followed by hints only. -/
theorem exists_of_lastLifecycle {pre : List Callback} {c : Callback}
    (hc : lastLifecycle pre = some c) :
    ∃ before mid, pre = before ++ c :: mid ∧ ∀ e ∈ mid, ∃ b, e = .setUserVisibleHint b := by
  induction pre using List.reverseRecOn with
  | nil => simp [lastLifecycle] at hc
  | append_singleton pre e ih =>
      by_cases he : e.isLifecycle = true
      · rw [lastLifecycle_append_of_isLifecycle pre he] at hc
        obtain rfl := Option.some.inj hc
        exact ⟨pre, [], rfl, by simp⟩
      · obtain ⟨b, rfl⟩ : ∃ b, e = .setUserVisibleHint b := by
          cases e <;> simp_all [Callback.isLifecycle]
        rw [lastLifecycle_append_hint] at hc
        obtain ⟨before, mid, rfl, hmid⟩ := ih hc
        refine ⟨before, mid ++ [.setUserVisibleHint b], by simp, ?_⟩
        intro e he'
        rcases List.mem_append.mp he' with hmem | hmem
        · exact hmid e hmem
        · exact ⟨b, by simpa using hmem⟩

/-- A hint calls `load()` exactly when it raises the visibility flag. -/
theorem setUserVisibleHint_loads (f : FragmentState) (b : Bool) :
    (setUserVisibleHint b f).loads =
      if f.isViewCreated ∧ b = true ∧ f.isFragmentVisible = false then f.loads + 1
      else f.loads := by
  cases b <;> cases hv : f.isFragmentVisible <;> cases hc : f.isViewCreated <;>
    simp [setUserVisibleHint, dispatchUserVisibleHint, FragmentState.load,
      FragmentState.loadStop, FragmentState.loads, hv, hc]

/-- Where every step is quiet, a paused fragment stays invisible. -/
theorem not_visible_of_pause {pre mid : List Callback}
    (hquiet : EveryStep QuietStep (pre ++ .onPause :: mid))
    (hmid : ∀ e ∈ mid, e ≠ .onResume ∧ e ≠ .onCreateView) :
    (run (pre ++ .onPause :: mid)).isFragmentVisible = false := by
  induction mid using List.reverseRecOn with
  | nil =>
      have hpause := (hquiet pre .onPause (List.prefix_refl _)).1 rfl
      simp [step, hpause]
  | append_singleton mid e ih =>
      rw [← List.cons_append, ← List.append_assoc] at hquiet ⊢
      have hmid' : ∀ e' ∈ mid, e' ≠ .onResume ∧ e' ≠ .onCreateView :=
        fun e' he' => hmid e' (by simp [he'])
      have hinv := ih (hquiet.of_prefix (List.prefix_append _ _)) hmid'
      have hne := hmid e (by simp)
      have hstep := hquiet _ e (List.prefix_refl _)
      rw [run_append_singleton]
      cases e with
      | setUserVisibleHint b =>
          cases b with
          | false => simp [step, hinv]
          | true =>
              have := hstep.2 rfl (offScreen_of_pause pre mid hmid')
              simp [hinv] at this
      | onPause => simp [step, hinv]
      | onDestroyView => simpa [step] using hinv
      | onResume => exact absurd rfl hne.1
      | onCreateView => exact absurd rfl hne.2

theorem quietStep_of_activeOnlyOnScreen {es : List Callback} (hes : LifecycleOrder es)
    (hlaw : ActiveOnlyOnScreen es) : EveryStep QuietStep es := by
  intro pre e hpre
  have hshown := shown_of_lifecycleOrder hes pre ((List.prefix_append pre [e]).trans hpre)
  constructor
  · rintro rfl
    by_contra hvisible
    rw [Bool.not_eq_false] at hvisible
    refine hlaw.unloaded_of_pause pre [] hpre (by simp) ?_
    rw [(run_tracks _).loaded_iff, run_append_singleton]
    simp [step, hvisible, (hshown.visible hvisible).2]
  · rintro rfl hoff
    by_contra hinvisible
    rw [Bool.not_eq_true] at hinvisible
    have hcreated : (run pre).isViewCreated = true := by
      apply hshown.created
      intro hnone
      simp [offScreen, hnone] at hoff
    rcases Bool.or_eq_true_iff.mp hoff with hpause | hdestroy
    · obtain ⟨before, mid, rfl, hmid⟩ := exists_of_lastLifecycle (of_decide_eq_true hpause)
      rw [List.append_assoc, List.cons_append] at hpre
      refine hlaw.unloaded_of_pause before (mid ++ [.setUserVisibleHint true]) hpre ?_ ?_
      · intro e he
        rcases List.mem_append.mp he with hmem | hmem
        · obtain ⟨b, rfl⟩ := hmid e hmem
          simp
        · simp_all
      · rw [← List.cons_append, ← List.append_assoc, (run_tracks _).loaded_iff,
          run_append_singleton]
        simp [step, hcreated]
    · obtain ⟨before, mid, rfl, hmid⟩ := exists_of_lastLifecycle (of_decide_eq_true hdestroy)
      rw [List.append_assoc, List.cons_append] at hpre
      have hloads := hlaw.no_load_without_view before mid (.setUserVisibleHint true) hpre (by
        intro e he
        rcases List.mem_append.mp he with hmem | hmem
        · obtain ⟨b, rfl⟩ := hmid e hmem
          simp
        · simp_all)
      rw [← List.cons_append, ← List.append_assoc, run_append_singleton] at hloads
      simp [step, setUserVisibleHint_loads, hcreated, hinvisible] at hloads

theorem activeOnlyOnScreen_of_quietStep {es : List Callback} (hes : LifecycleOrder es)
    (hquiet : EveryStep QuietStep es) : ActiveOnlyOnScreen es where
  alternates pre _ := (run_tracks pre).alternates
  loaded_of_resume pre _ hhint := by
    rw [(run_tracks _).loaded_iff, run_append_singleton]
    simp [step, hhint]
  unloaded_of_pause pre mid hpre hmid := by
    rw [(run_tracks _).loaded_iff, not_visible_of_pause (hquiet.of_prefix hpre) hmid]
    simp
  no_load_without_view pre mid e hpre hmid := by
    have hbefore : pre ++ .onDestroyView :: mid <+: es := by
      refine List.IsPrefix.trans ?_ hpre
      rw [← List.cons_append, ← List.append_assoc]
      exact List.prefix_append _ _
    have hlast := lastLifecycle_of_destroyView (hes.of_prefix hbefore)
      (fun e' he' => hmid e' (by simp [he']))
    rw [← List.cons_append, ← List.append_assoc] at hpre ⊢
    have hallowed := hes _ e hpre
    have hstep := hquiet _ e hpre
    have hne := hmid e (by simp)
    rw [run_append_singleton]
    -- only a hint may come before the next view, and a quiet one raises no flag
    cases e with
    | setUserVisibleHint b =>
        cases b with
        | false => simp [step, setUserVisibleHint_loads]
        | true =>
            have := hstep.2 rfl (by simp [offScreen, hlast])
            simp [step, setUserVisibleHint_loads, this]
    | onCreateView => exact absurd rfl hne
    | onResume | onPause | onDestroyView => simp [hlast, allowed] at hallowed

/-- The law holds in exactly the lifecycle runs in which no pause finds the
fragment visible and no hint is switched on for it off screen. -/
theorem activeOnlyOnScreen_iff (es : List Callback) (hes : LifecycleOrder es) :
    ActiveOnlyOnScreen es ↔ EveryStep QuietStep es :=
  ⟨quietStep_of_activeOnlyOnScreen hes, activeOnlyOnScreen_of_quietStep hes⟩

/-- A fragment that is paged away before it is paused keeps the law. -/
theorem activeOnlyOnScreen_paged_away :
    LifecycleOrder [.onCreateView, .onResume, .setUserVisibleHint false, .onPause] ∧
      ActiveOnlyOnScreen [.onCreateView, .onResume, .setUserVisibleHint false, .onPause] := by
  have hes : LifecycleOrder
      [.onCreateView, .onResume, .setUserVisibleHint false, .onPause] := by decide
  refine ⟨hes, (activeOnlyOnScreen_iff _ hes).mpr ?_⟩
  simp only [everyStep_iff_getElem, QuietStep]
  decide

/-- The plainest run, create, resume and pause with the hint at its default,
leaves the fragment loaded after the pause. -/
theorem not_activeOnlyOnScreen_pause :
    ¬ ∀ es, LifecycleOrder es → ActiveOnlyOnScreen es := by
  intro hlaw
  have := (hlaw [.onCreateView, .onResume, .onPause] (by decide)).unloaded_of_pause
    [.onCreateView, .onResume] [] (List.prefix_refl _) (by simp)
  exact absurd (by decide) this

end BaseFragment4

end StudyNotes.Fragment
