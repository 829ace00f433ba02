/-
# Nested lazy fragments (`BaseFragment5`)

`BaseFragment5` adds nesting to the lazy fragment: a fragment whose parent is
invisible is marked visible without being loaded, and a fragment that flips
passes the change on to its children.  The model is the finite tree of fragments
with the flags of each; a callback is delivered to the fragment at a path.

The loop over the children asks for *hidden* children, ignores its argument and
always dispatches `true`, so a parent that stops does not stop its children.
What remains true is stated as a run theorem: in every run that neither shows a
fragment under an invisible parent nor hides one with a visible (or hidden and
hinted) child, the hooks alternate everywhere and a loaded fragment has a loaded
parent.
-/

import StudyNotes.Fragment.Lazy

namespace StudyNotes.Fragment

open StudyNotes.Run

/-- A finite tree of `BaseFragment5` instances. -/
inductive FragmentTree
  | node (state : FragmentState) (isHidden : Bool) (children : List FragmentTree)
  deriving Repr

namespace FragmentTree

def state : FragmentTree → FragmentState
  | .node st _ _ => st

def isHidden : FragmentTree → Bool
  | .node _ hid _ => hid

def children : FragmentTree → List FragmentTree
  | .node _ _ cs => cs

/-- Change the fields of the topmost fragment. -/
def modifyState (g : FragmentState → FragmentState) : FragmentTree → FragmentTree
  | .node st hid cs => .node (g st) hid cs

/-- Induction over the tree, with the hypothesis for every child. -/
@[elab_as_elim, induction_eliminator]
theorem induction {P : FragmentTree → Prop}
    (node : ∀ st hid cs, (∀ c ∈ cs, P c) → P (.node st hid cs)) : ∀ t, P t := by
  intro t
  refine @FragmentTree.rec P (fun cs => ∀ c ∈ cs, P c)
    (fun st hid cs ih => node st hid cs ih) (by simp) ?_ t
  intro c cs hc hcs d hd
  rcases List.mem_cons.mp hd with rfl | hmem
  · exact hc
  · exact hcs d hmem

end FragmentTree

namespace BaseFragment5

mutual

/-- `dispatchUserVisibleHint(visible)`.  `parentInvisible` is the answer of
`isParentInvisible()`, false where the parent is no `BaseFragment5`. -/
def dispatchUserVisibleHint (visible parentInvisible : Bool) : FragmentTree → FragmentTree
  | .node st hid cs =>
    let st := { st with isFragmentVisible := visible }
    -- the flag is already set when an invisible parent makes the call return
    if visible && parentInvisible then .node st hid cs
    else if visible then
      .node st.load hid (dispatchChildVisible true (!st.isFragmentVisible) cs)
    else
      .node st.loadStop hid (dispatchChildVisible false (!st.isFragmentVisible) cs)

/-- The loop of `dispatchChildVisible(visible)`.  The source does not use its
argument and selects the children that are hidden. -/
def dispatchChildVisible (visible parentInvisible : Bool) :
    List FragmentTree → List FragmentTree
  | [] => []
  | c :: cs =>
    (if c.isHidden && c.state.userVisibleHint then
        dispatchUserVisibleHint true parentInvisible c
      else c) :: dispatchChildVisible visible parentInvisible cs

end

/-- `setUserVisibleHint(isVisibleToUser)`. -/
def setUserVisibleHint (isVisibleToUser parentInvisible : Bool) (t : FragmentTree) :
    FragmentTree :=
  let t := t.modifyState fun st => { st with userVisibleHint := isVisibleToUser }
  if t.state.isViewCreated then
    if isVisibleToUser && !t.state.isFragmentVisible then
      dispatchUserVisibleHint true parentInvisible t
    else if !isVisibleToUser && t.state.isFragmentVisible then
      dispatchUserVisibleHint false parentInvisible t
    else t
  else t

/-- `onCreateView`. -/
def onCreateView (parentInvisible : Bool) (t : FragmentTree) : FragmentTree :=
  let t := t.modifyState fun st => { st with rootView := true, isViewCreated := true }
  if t.state.userVisibleHint then setUserVisibleHint true parentInvisible t else t

/-- `onResume`. -/
def onResume (parentInvisible : Bool) (t : FragmentTree) : FragmentTree :=
  if t.state.userVisibleHint && !t.state.isFragmentVisible then
    dispatchUserVisibleHint true parentInvisible t
  else t

/-- `onPause`. -/
def onPause (parentInvisible : Bool) (t : FragmentTree) : FragmentTree :=
  if !t.state.userVisibleHint && t.state.isFragmentVisible then
    dispatchUserVisibleHint false parentInvisible t
  else t

/-- What a host does to one fragment: deliver a callback, or show or hide it,
which `BaseFragment5` does not react to. -/
inductive HostEvent
  | callback (e : Callback)
  | hide (hidden : Bool)
  deriving DecidableEq, Repr

/-- One event at the topmost fragment of a tree. -/
def receive (parentInvisible : Bool) (t : FragmentTree) : HostEvent → FragmentTree
  | .callback .onCreateView => onCreateView parentInvisible t
  | .callback (.setUserVisibleHint b) => setUserVisibleHint b parentInvisible t
  | .callback .onResume => onResume parentInvisible t
  | .callback .onPause => onPause parentInvisible t
  | .callback .onDestroyView => t
  | .hide hidden => .node t.state hidden t.children

/-- One event at the fragment reached by following child indices. -/
def receiveAt (e : HostEvent) : List ℕ → Bool → FragmentTree → FragmentTree
  | [], parentInvisible, t => receive parentInvisible t e
  | i :: path, _, .node st hid cs =>
    .node st hid (cs.modify i (receiveAt e path (!st.isFragmentVisible)))

/-- An event together with the fragment it is delivered to. -/
structure Delivery where
  path : List ℕ
  event : HostEvent
  deriving DecidableEq, Repr

/-- The tree after a sequence of deliveries; the parent of the topmost fragment is
no `BaseFragment5`. -/
def run (t : FragmentTree) (ds : List Delivery) : FragmentTree :=
  ds.foldl (fun t d => receiveAt d.event d.path false t) t

@[simp]
theorem run_nil (t : FragmentTree) : run t [] = t := rfl

@[simp]
theorem run_append_singleton (t : FragmentTree) (pre : List Delivery) (d : Delivery) :
    run t (pre ++ [d]) = receiveAt d.event d.path false (run t pre) := by
  simp [run]

/-- New instances: no callback has arrived anywhere; any of them may be hidden. -/
inductive Fresh : FragmentTree → Prop
  | node (hid : Bool) (cs : List FragmentTree) (h : ∀ c ∈ cs, Fresh c) : Fresh (.node {} hid cs)

/-! ## Orders the fragment lifecycle allows -/

/-- The lifecycle callbacks delivered to one fragment. -/
def callbacksAt (path : List ℕ) (ds : List Delivery) : List Callback :=
  ds.filterMap fun d =>
    match d.event with
    | .callback e => if d.path = path then some e else none
    | .hide _ => none

/-- The last lifecycle callback delivered to one fragment. -/
def lastLifecycleAt (path : List ℕ) (ds : List Delivery) : Option Callback :=
  lastLifecycle (callbacksAt path ds)

/-- A delivery the lifecycle allows: the fragment's own order is kept, a child gets
its view after its parent and is resumed while its parent is, and children are
paused and lose their views before their parent. -/
def allowedAt (pre : List Delivery) (d : Delivery) : Bool :=
  match d.event with
  | .hide _ => true
  | .callback e =>
    allowed (lastLifecycleAt d.path pre) e &&
      (d.path.isEmpty || match e with
        | .onCreateView =>
          lastLifecycleAt d.path.dropLast pre ≠ none &&
            lastLifecycleAt d.path.dropLast pre ≠ some .onDestroyView
        | .onResume => lastLifecycleAt d.path.dropLast pre = some .onResume
        | _ => true) &&
      pre.all fun c => c.path.isEmpty || c.path.dropLast ≠ d.path || match e with
        | .onPause => lastLifecycleAt c.path pre ≠ some .onResume
        | .onDestroyView =>
          lastLifecycleAt c.path pre = none ||
            lastLifecycleAt c.path pre = some .onDestroyView
        | _ => true

/-- The runs over a tree that the fragment lifecycle allows. -/
def LifecycleOrderAt (ds : List Delivery) : Prop :=
  EveryStep (fun pre d => allowedAt pre d = true) ds

instance (ds : List Delivery) : Decidable (LifecycleOrderAt ds) :=
  inferInstanceAs (Decidable (EveryStep _ ds))

/-! ## The law and the steps that keep it -/

/-- On every fragment the hooks alternate, and a loaded fragment has a loaded
parent.  `parentLoaded` speaks about the parent of the topmost fragment. -/
inductive LoadedUnderLoaded : Prop → FragmentTree → Prop
  | node {parentLoaded : Prop} {st : FragmentState} {hid : Bool} {cs : List FragmentTree}
      (alternates : Alternates st.calls) (under : st.Loaded → parentLoaded)
      (below : ∀ c ∈ cs, LoadedUnderLoaded st.Loaded c) :
      LoadedUnderLoaded parentLoaded (.node st hid cs)

/-- The dispatch an event leads to at the topmost fragment, if any. -/
def dispatched (t : FragmentTree) : HostEvent → Option Bool
  | .callback .onCreateView =>
    if t.state.userVisibleHint && !t.state.isFragmentVisible then some true else none
  | .callback (.setUserVisibleHint b) =>
    if t.state.isViewCreated && (b != t.state.isFragmentVisible) then some b else none
  | .callback .onResume =>
    if t.state.userVisibleHint && !t.state.isFragmentVisible then some true else none
  | .callback .onPause =>
    if !t.state.userVisibleHint && t.state.isFragmentVisible then some false else none
  | _ => none

/-- An event that does not reach the defects: it shows no fragment under an
invisible parent, and hides none that has a visible child or a hidden child whose
hint is on. -/
def SafeEvent (parentInvisible : Bool) (t : FragmentTree) (e : HostEvent) : Prop :=
  (dispatched t e = some true → parentInvisible = false) ∧
    (dispatched t e = some false → ∀ c ∈ t.children,
      c.state.isFragmentVisible = false ∧ (c.isHidden && c.state.userVisibleHint) = false)

/-- `SafeEvent` at the fragment reached by a path. -/
def SafeEventAt (e : HostEvent) : List ℕ → Bool → FragmentTree → Prop
  | [], parentInvisible, t => SafeEvent parentInvisible t e
  | i :: path, _, .node st _ cs =>
    ∀ c, cs[i]? = some c → SafeEventAt e path (!st.isFragmentVisible) c

instance (inv : Bool) (t : FragmentTree) (e : HostEvent) : Decidable (SafeEvent inv t e) :=
  inferInstanceAs (Decidable (_ ∧ _))

instance decidableSafeEventAt (e : HostEvent) :
    ∀ path inv t, Decidable (SafeEventAt e path inv t)
  | [], inv, t => inferInstanceAs (Decidable (SafeEvent inv t e))
  | i :: path, _, .node st _ cs =>
    match h : cs[i]? with
    | none => isTrue fun c hc => by simp [h] at hc
    | some c =>
      have := decidableSafeEventAt e path (!st.isFragmentVisible) c
      decidable_of_iff (SafeEventAt e path (!st.isFragmentVisible) c) (by simp [SafeEventAt, h])

/-! ## What a safe step keeps -/

/-- The invariant behind the law: the flags tell exactly which fragments are
loaded, and a visible fragment has a visible parent. -/
inductive WellNested : Prop → FragmentTree → Prop
  | node {parentVisible : Prop} {st : FragmentState} {hid : Bool} {cs : List FragmentTree}
      (tracks : st.Tracks) (under : st.isFragmentVisible = true → parentVisible)
      (below : ∀ c ∈ cs, WellNested (st.isFragmentVisible = true) c) :
      WellNested parentVisible (.node st hid cs)

theorem WellNested.loadedUnderLoaded {t : FragmentTree} :
    ∀ {p q : Prop}, WellNested p t → (p → q) → LoadedUnderLoaded q t := by
  induction t with
  | node st hid cs ih =>
      rintro p q ⟨tracks, under, below⟩ hpq
      refine ⟨tracks.alternates, fun hloaded => hpq (under (tracks.loaded_iff.mp hloaded)), ?_⟩
      exact fun c hc => ih c hc (below c hc) tracks.loaded_iff.mpr

/-- Only a visible fragment constrains its parent. -/
theorem WellNested.reparent {p q : Prop} {t : FragmentTree} (ht : WellNested p t)
    (hq : t.state.isFragmentVisible = true → q) : WellNested q t := by
  obtain ⟨tracks, _, below⟩ := ht
  exact ⟨tracks, hq, below⟩

theorem wellNested_of_fresh {t : FragmentTree} (ht : Fresh t) : ∀ p, WellNested p t := by
  induction t with
  | node st hid cs ih =>
      intro p
      obtain ⟨_, _, h⟩ := ht
      exact ⟨⟨trivial, by simp [FragmentState.Loaded]⟩, by simp, fun c hc => ih c hc (h c hc) _⟩

theorem dispatchChildVisible_eq_map (visible parentInvisible : Bool) (cs : List FragmentTree) :
    dispatchChildVisible visible parentInvisible cs =
      cs.map fun c =>
        if c.isHidden && c.state.userVisibleHint then
          dispatchUserVisibleHint true parentInvisible c
        else c := by
  induction cs with
  | nil => rw [dispatchChildVisible, List.map_nil]
  | cons c cs ih => rw [dispatchChildVisible, ih, List.map_cons]

/-- Showing an invisible fragment under a visible parent keeps the invariant: all
below it is invisible too, so the loop over the children loads each at most once. -/
theorem WellNested.dispatch_true {t : FragmentTree} :
    ∀ {p q : Prop}, WellNested p t → t.state.isFragmentVisible = false → q →
      WellNested q (dispatchUserVisibleHint true false t) := by
  induction t with
  | node st hid cs ih =>
      rintro p q ⟨tracks, _, below⟩ hinvisible hq
      have hst : st.isFragmentVisible = false := hinvisible
      rw [dispatchUserVisibleHint]
      refine ⟨tracks.show_load hst, fun _ => hq, ?_⟩
      rw [dispatchChildVisible_eq_map]
      simp only [List.mem_map]
      rintro _ ⟨c, hc, rfl⟩
      have hbelow := below c hc
      have hcinvisible : c.state.isFragmentVisible = false := by
        obtain ⟨_, hunder, _⟩ := hbelow
        by_contra hvisible
        exact absurd (hunder (by simpa [FragmentTree.state] using hvisible)) (by simp [hst])
      split_ifs
      · exact ih c hc hbelow hcinvisible rfl
      · exact hbelow.reparent fun _ => rfl

/-- Hiding a visible fragment keeps the invariant when no child is visible and the
loop selects none. -/
theorem WellNested.dispatch_false {p q : Prop} {t : FragmentTree} (ht : WellNested p t)
    (hvisible : t.state.isFragmentVisible = true) (inv : Bool)
    (hchildren : ∀ c ∈ t.children,
      c.state.isFragmentVisible = false ∧ (c.isHidden && c.state.userVisibleHint) = false) :
    WellNested q (dispatchUserVisibleHint false inv t) := by
  obtain ⟨tracks, _, below⟩ := ht
  rw [dispatchUserVisibleHint]
  refine ⟨tracks.hide_loadStop hvisible, by simp [FragmentState.loadStop], ?_⟩
  rw [dispatchChildVisible_eq_map]
  simp only [List.mem_map]
  rintro _ ⟨c, hc, rfl⟩
  obtain ⟨hcinvisible, hcskipped⟩ := hchildren c hc
  rw [if_neg (by simp [hcskipped])]
  exact (below c hc).reparent (by simp [hcinvisible])

theorem WellNested.modifyState {p : Prop} {t : FragmentTree} (ht : WellNested p t)
    {g : FragmentState → FragmentState} (hcalls : ∀ st, (g st).calls = st.calls)
    (hvisible : ∀ st, (g st).isFragmentVisible = st.isFragmentVisible) :
    WellNested p (t.modifyState g) := by
  obtain ⟨tracks, under, below⟩ := ht
  refine ⟨⟨?_, ?_⟩, ?_, ?_⟩
  · rw [hcalls]
    exact tracks.alternates
  · rw [FragmentState.Loaded, hcalls, hvisible]
    exact tracks.loaded_iff
  · rwa [hvisible]
  · rwa [hvisible]

@[simp]
theorem state_modifyState (g : FragmentState → FragmentState) (t : FragmentTree) :
    (t.modifyState g).state = g t.state := by
  cases t
  rfl

@[simp]
theorem children_modifyState (g : FragmentState → FragmentState) (t : FragmentTree) :
    (t.modifyState g).children = t.children := by
  cases t
  rfl

theorem WellNested.setUserVisibleHint {p : Prop} {t : FragmentTree} (ht : WellNested p t)
    {inv b : Bool} (hparent : inv = false → p)
    (hsafe : SafeEvent inv t (.callback (.setUserVisibleHint b))) :
    WellNested p (setUserVisibleHint b inv t) := by
  have hhint : WellNested p (t.modifyState fun st => { st with userVisibleHint := b }) :=
    ht.modifyState (fun _ => rfl) fun _ => rfl
  obtain ⟨hshow, hhide⟩ := hsafe
  simp only [BaseFragment5.setUserVisibleHint, state_modifyState]
  split_ifs with hcreated h h
  · obtain ⟨rfl, hinvisible⟩ : b = true ∧ t.state.isFragmentVisible = false := by simpa using h
    have hinv := hshow (by simp [dispatched, hcreated, hinvisible])
    rw [hinv]
    exact hhint.dispatch_true (by simpa using hinvisible) (hparent hinv)
  · obtain ⟨rfl, hvisible⟩ : b = false ∧ t.state.isFragmentVisible = true := by simpa using h
    have hchildren := hhide (by simp [dispatched, hcreated, hvisible])
    exact hhint.dispatch_false (by simpa using hvisible) inv (by simpa using hchildren)
  · exact hhint
  · exact hhint

/-- The step lemma: a safe event keeps the invariant of the subtree it is delivered
to. -/
theorem WellNested.receive {p : Prop} {t : FragmentTree} (ht : WellNested p t) {inv : Bool}
    (hparent : inv = false → p) {e : HostEvent} (hsafe : SafeEvent inv t e) :
    WellNested p (receive inv t e) := by
  match e with
  | .callback .onCreateView =>
      have hcreated : WellNested p
          (t.modifyState fun st => { st with rootView := true, isViewCreated := true }) :=
        ht.modifyState (fun _ => rfl) fun _ => rfl
      simp only [BaseFragment5.receive, onCreateView, state_modifyState]
      split_ifs with hhint
      · refine hcreated.setUserVisibleHint hparent ⟨fun h => ?_, fun h => ?_⟩
        · exact hsafe.1 (by simpa [dispatched, hhint] using h)
        · simp [dispatched] at h
      · exact hcreated
  | .callback (.setUserVisibleHint b) => exact ht.setUserVisibleHint hparent hsafe
  | .callback .onResume =>
      simp only [BaseFragment5.receive, onResume]
      split_ifs with h
      · have hinv := hsafe.1 (by simp only [dispatched, h, if_true])
        rw [hinv]
        exact ht.dispatch_true (by simpa using (Bool.and_eq_true_iff.mp h).2) (hparent hinv)
      · exact ht
  | .callback .onPause =>
      simp only [BaseFragment5.receive, onPause]
      split_ifs with h
      · exact ht.dispatch_false (by simpa using (Bool.and_eq_true_iff.mp h).2) inv
          (hsafe.2 (by simp only [dispatched, h, if_true]))
      · exact ht
  | .callback .onDestroyView => exact ht
  | .hide hidden =>
      obtain ⟨tracks, under, below⟩ := ht
      exact ⟨tracks, under, below⟩

/-- The same along a path: an event changes neither the fragments above its target
nor those beside it. -/
theorem WellNested.receiveAt {e : HostEvent} (path : List ℕ) :
    ∀ {p : Prop} {t : FragmentTree} {inv : Bool}, WellNested p t → (inv = false → p) →
      SafeEventAt e path inv t → WellNested p (receiveAt e path inv t) := by
  induction path with
  | nil => exact fun ht hparent hsafe => ht.receive hparent hsafe
  | cons i path ih =>
      rintro p t inv ⟨tracks, under, below⟩ _ hsafe
      rw [BaseFragment5.receiveAt]
      refine ⟨tracks, under, ?_⟩
      intro c hc
      obtain ⟨j, hj, rfl⟩ := List.getElem_of_mem hc
      rw [List.getElem_modify]
      rw [List.length_modify] at hj
      split_ifs with hij
      · subst hij
        exact ih (below _ (List.getElem_mem hj)) (by simp)
          (hsafe _ (List.getElem?_eq_getElem hj))
      · exact below _ (List.getElem_mem hj)

/-- In every run whose deliveries are all safe, on every fragment the hooks
alternate and every loaded fragment has a loaded parent, in every state reached. -/
theorem loadedUnderLoaded_of_safe (t : FragmentTree) (ht : Fresh t) (ds : List Delivery)
    (hsafe : EveryStep (fun pre d => SafeEventAt d.event d.path false (run t pre)) ds) :
    EveryPrefix (fun pre => LoadedUnderLoaded True (run t pre)) ds := by
  have hinv : EveryPrefix (fun pre => WellNested True (run t pre)) ds := by
    refine EveryPrefix.of_step (wellNested_of_fresh ht _) ?_ hsafe
    intro pre d hd hpre
    rw [run_append_singleton]
    exact hpre.receiveAt d.path (fun _ => trivial) hd
  exact hinv.mono fun pre hpre => hpre.loadedUnderLoaded id

/-- A page with one nested page, shown and resumed. -/
theorem loadedUnderLoaded_shown :
    LoadedUnderLoaded True (run (.node {} false [.node {} false []])
      [⟨[], .callback .onCreateView⟩, ⟨[0], .callback .onCreateView⟩,
        ⟨[], .callback .onResume⟩, ⟨[0], .callback .onResume⟩]) :=
  (loadedUnderLoaded_of_safe _ (.node _ _ (by simpa using Fresh.node _ _ (by simp))) _
    (by decide)).self

/-- Paging the outer page away stops it and leaves the nested page loaded. -/
theorem not_loadedUnderLoaded_paged_away :
    ¬ ∀ t, Fresh t → ∀ ds, LifecycleOrderAt ds →
      EveryPrefix (fun pre => LoadedUnderLoaded True (run t pre)) ds := by
  intro hlaw
  have hfresh : Fresh (.node {} false [.node {} false []]) :=
    .node _ _ (by simpa using Fresh.node _ _ (by simp))
  obtain ⟨_, _, below⟩ := (hlaw _ hfresh
    [⟨[], .callback .onCreateView⟩, ⟨[0], .callback .onCreateView⟩,
      ⟨[], .callback .onResume⟩, ⟨[0], .callback .onResume⟩,
      ⟨[], .callback (.setUserVisibleHint false)⟩] (by decide)).self
  obtain ⟨_, under, _⟩ := below _ (List.mem_cons_self ..)
  exact absurd (under (by decide)) (by decide)

end BaseFragment5

end StudyNotes.Fragment
