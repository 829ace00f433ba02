/-
# The skin manager (`SkinManager`, `ApplicationActivityLifecycle`)

Every activity gets a factory of its own, which paints the views that are inflated
for it and records them.  The factories observe the manager: loading a skin changes
what `SkinResources` answers and then repaints every view of every observer.

The factories of the activities that are alive are the observers, throughout any run
of the application, so all their views show the skin that is in force, and the views
of an activity that was destroyed are left alone.
-/

import Mathlib.Data.List.AList
import Mathlib.Data.List.Nodup
import StudyNotes.Lib.Run
import StudyNotes.Skin.Resources

namespace StudyNotes.Skin

open StudyNotes.Run StudyNotes.Text

variable {δ : Type}

/-! ## Inflation -/

/-- `mClassPrefixList`. -/
def mClassPrefixList : List Str :=
  ["android.widget.".toList, "android.webkit.".toList, "android.app.".toList,
    "android.view.".toList]

/-- An element of a layout: its name and attributes, the view that `createView` makes of
a class name if it makes one, and the theme of its context. -/
structure Element (δ : Type) where
  name : Str
  attrs : List (String × Str)
  createView : Str → Option (View δ)
  getResId : ℤ → ℤ

/-- `createSDKView(name, context, attrs)`. -/
def Element.createSDKView (e : Element δ) : Option (View δ) :=
  if contains e.name ".".toList then none
  else mClassPrefixList.findSome? fun pre => e.createView (pre ++ e.name)

/-- `onCreateView(parent, name, context, attrs)` of a factory with these attributes. -/
def SkinAttribute.onCreateView (r : SkinResources δ) (e : Element δ) (s : SkinAttribute δ) :
    Except Thrown (SkinAttribute δ) :=
  match e.createSDKView.or (e.createView e.name) with
  | some view => s.look r e.getResId view e.attrs
  | none => .ok s

/-! ## Loading a skin -/

/-- What the steps of the `try` block of `loadSkin` give or throw, in their order.  The
archive information is null for a file that is no package. -/
structure Attempt (δ : Type) where
  appResource : Except String Unit
  newInstance : Except String Unit
  addAssetPath : Except String Unit
  skinResource : Except String (Resources δ)
  packageArchiveInfo : Except String (Option String)

/-- The `try` block up to `SkinResources.applySkin`. -/
def Attempt.run (a : Attempt δ) : Except String (Resources δ × String) := do
  a.appResource
  a.newInstance
  a.addAssetPath
  let skinResource ← a.skinResource
  match ← a.packageArchiveInfo with
  | some skinPkgName => pure (skinResource, skinPkgName)
  | none => throw "NullPointerException"

/-- The state change of `loadSkin(skinPath)` before the observers are notified. -/
def SkinResources.load (r : SkinResources δ) (skinPath : String) (a : Attempt δ) :
    SkinResources δ :=
  if skinPath.isEmpty then r.reset
  else
    match a.run with
    | .ok (skinResource, skinPkgName) => r.applySkin skinResource skinPkgName
    | .error _ => r

/-! ## The application -/

/-- The skin, the factories made so far with their views, the factory of each layout
inflater, the map of `ApplicationActivityLifecycle`, and the observers of the manager.
A factory is known by the order of its creation. -/
structure SkinManager (α δ : Type) where
  resources : SkinResources δ
  factories : List (SkinAttribute δ) := []
  layoutInflaters : AList (fun _ : α => ℕ) := ∅
  mLayoutInflaterFactories : AList (fun _ : α => ℕ) := ∅
  observers : List ℕ := []

/-- What happens on the main thread.  `accepted` is whether `setFactory2` returns. -/
inductive SkinEvent (α δ : Type)
  | onActivityCreated (activity : α) (accepted : Bool)
  | inflate (activity : α) (element : Element δ)
  | onActivityDestroyed (activity : α)
  | loadSkin (skinPath : String) (attempt : Attempt δ)

namespace SkinManager

variable {α : Type} [DecidableEq α]

/-- `onActivityCreated(activity, savedInstanceState)`, which an activity gets once. -/
def onActivityCreated (s : SkinManager α δ) (activity : α) (accepted : Bool) : SkinManager α δ :=
  if activity ∉ s.layoutInflaters ∧ accepted then
    let factory := s.factories.length
    { s with
      factories := s.factories ++ [{}]
      layoutInflaters := s.layoutInflaters.insert activity factory
      mLayoutInflaterFactories := s.mLayoutInflaterFactories.insert activity factory
      observers := if factory ∈ s.observers then s.observers else s.observers ++ [factory] }
  else s

/-- `onActivityDestroyed(activity)`. -/
def onActivityDestroyed (s : SkinManager α δ) (activity : α) : SkinManager α δ :=
  match s.mLayoutInflaterFactories.lookup activity with
  | some factory =>
    { s with
      mLayoutInflaterFactories := s.mLayoutInflaterFactories.erase activity
      observers := s.observers.erase factory }
  | none => s

/-- A view is inflated with the layout inflater of an activity. -/
def inflate (s : SkinManager α δ) (activity : α) (element : Element δ) : SkinManager α δ :=
  match s.layoutInflaters.lookup activity with
  | none => s
  | some factory =>
    match s.factories[factory]? with
    | none => s
    | some skinAttribute =>
      match skinAttribute.onCreateView s.resources element with
      | .ok skinAttribute => { s with factories := s.factories.set factory skinAttribute }
      | .error _ => s

/-- `update(o, arg)` of a factory. -/
def update (s : SkinManager α δ) (factory : ℕ) : SkinManager α δ :=
  { s with factories := s.factories.modify factory (SkinAttribute.applySkin s.resources) }

/-- `notifyObservers(null)`: every observer once, the last one first. -/
def notifyObservers (s : SkinManager α δ) : SkinManager α δ :=
  s.observers.reverse.foldl update s

/-- `loadSkin(skinPath)`. -/
def loadSkin (s : SkinManager α δ) (skinPath : String) (attempt : Attempt δ) : SkinManager α δ :=
  notifyObservers { s with resources := s.resources.load skinPath attempt }

/-- One event. -/
def step (s : SkinManager α δ) : SkinEvent α δ → SkinManager α δ
  | .onActivityCreated activity accepted => s.onActivityCreated activity accepted
  | .inflate activity element => s.inflate activity element
  | .onActivityDestroyed activity => s.onActivityDestroyed activity
  | .loadSkin skinPath attempt => s.loadSkin skinPath attempt

/-- The application after a run, from the skin that `init` has left. -/
def run (initial : SkinResources δ) (es : List (SkinEvent α δ)) : SkinManager α δ :=
  after step { resources := initial } es

@[simp]
theorem run_append_singleton (initial : SkinResources δ) (pre : List (SkinEvent α δ))
    (e : SkinEvent α δ) : run initial (pre ++ [e]) = (run initial pre).step e :=
  after_append_singleton _ _ _ _

end SkinManager

/-! ## Activities -/

/-- The activities that were created, and those not destroyed since. -/
structure Activities (α : Type) where
  created : List α := []
  live : List α := []

namespace Activities

variable {α : Type} [DecidableEq α]

def step (l : Activities α) : SkinEvent α δ → Activities α
  | .onActivityCreated activity true =>
    if activity ∈ l.created then l
    else { created := activity :: l.created, live := activity :: l.live }
  | .onActivityDestroyed activity => { l with live := l.live.filter (· ≠ activity) }
  | _ => l

/-- The activities after a run. -/
def run (es : List (SkinEvent α δ)) : Activities α := after step {} es

@[simp]
theorem run_append_singleton (pre : List (SkinEvent α δ)) (e : SkinEvent α δ) :
    run (pre ++ [e]) = (run pre).step e := after_append_singleton _ _ _ _

end Activities

/-! ## The law -/

section Law

variable {α : Type}

/-- The observers are the factories of the live activities, and show the skin in force. -/
structure UpToDate (s : SkinManager α δ) (l : Activities α) [DecidableEq α] : Prop where
  observed : ∀ activity ∈ l.live, ∃ f ∈ s.observers, s.layoutInflaters.lookup activity = some f
  observer_live : ∀ f ∈ s.observers, ∃ activity ∈ l.live,
    s.layoutInflaters.lookup activity = some f
  nodup : s.observers.Nodup
  painted : ∀ f ∈ s.observers, ∃ skinAttribute, s.factories[f]? = some skinAttribute ∧
    skinAttribute.PaintedUnder s.resources

variable [DecidableEq α] (initial : SkinResources δ)

/-- A load that fails leaves the skin. -/
def KeptOnFailure (pre : List (SkinEvent α δ)) (e : SkinEvent α δ) : Prop :=
  ∀ skinPath attempt error, e = .loadSkin skinPath attempt → skinPath.isEmpty = false →
    attempt.run = .error error →
    (SkinManager.run initial (pre ++ [e])).resources = (SkinManager.run initial pre).resources

/-- The views recorded for a destroyed activity stay as they are. -/
def NotPaintedAgain (pre : List (SkinEvent α δ)) (e : SkinEvent α δ) : Prop :=
  ∀ activity f skinAttribute, activity ∈ (Activities.run pre).created →
    activity ∉ (Activities.run pre).live →
    (SkinManager.run initial pre).layoutInflaters.lookup activity = some f →
    (SkinManager.run initial pre).factories[f]? = some skinAttribute →
    ∃ later, (SkinManager.run initial (pre ++ [e])).factories[f]? = some later ∧
      skinAttribute.mSkinViews <+: later.mSkinViews

end Law

/-! ## Repainting -/

/-- The factories after the observers were updated. -/
def repaint (r : SkinResources δ) (observers : List ℕ) (factories : List (SkinAttribute δ)) :
    List (SkinAttribute δ) :=
  observers.foldl (fun factories f => factories.modify f (SkinAttribute.applySkin r)) factories

theorem length_repaint (r : SkinResources δ) (observers : List ℕ)
    (factories : List (SkinAttribute δ)) :
    (repaint r observers factories).length = factories.length := by
  induction observers generalizing factories with
  | nil => rfl
  | cons o observers ih =>
      rw [repaint, List.foldl_cons, ← repaint, ih, List.length_modify]

theorem getElem?_repaint_of_notMem {r : SkinResources δ} {observers : List ℕ} {f : ℕ}
    (h : f ∉ observers) (factories : List (SkinAttribute δ)) :
    (repaint r observers factories)[f]? = factories[f]? := by
  induction observers generalizing factories with
  | nil => rfl
  | cons o observers ih =>
      rw [List.mem_cons, not_or] at h
      rw [repaint, List.foldl_cons, ← repaint, ih h.2, List.getElem?_modify]
      simp [Ne.symm h.1]

theorem exists_repaint_of_mem {r : SkinResources δ} {observers : List ℕ} {f : ℕ}
    (h : f ∈ observers) {factories : List (SkinAttribute δ)} (hf : f < factories.length) :
    ∃ s, (repaint r observers factories)[f]? = some s ∧ s.PaintedUnder r := by
  induction observers generalizing factories with
  | nil => exact absurd h List.not_mem_nil
  | cons o observers ih =>
      rw [repaint, List.foldl_cons, ← repaint]
      by_cases hlater : f ∈ observers
      · exact ih hlater (by rwa [List.length_modify])
      · have hnow : f = o := (List.mem_cons.mp h).resolve_right hlater
        subst hnow
        rw [getElem?_repaint_of_notMem hlater, List.getElem?_modify, List.getElem?_eq_getElem hf]
        exact ⟨_, by simp, SkinAttribute.paintedUnder_applySkin r factories[f]⟩

theorem loadSkin_eq {α : Type} [DecidableEq α] (s : SkinManager α δ) (skinPath : String)
    (attempt : Attempt δ) :
    s.loadSkin skinPath attempt =
      { s with
        resources := s.resources.load skinPath attempt
        factories := repaint (s.resources.load skinPath attempt) s.observers.reverse
          s.factories } := by
  have hfold : ∀ (os : List ℕ) (s : SkinManager α δ),
      os.foldl SkinManager.update s =
        { s with factories := repaint s.resources os s.factories } := by
    intro os
    induction os with
    | nil => exact fun s => rfl
    | cons o os ih =>
        intro s
        rw [List.foldl_cons, ih]
        rfl
  rw [SkinManager.loadSkin, SkinManager.notifyObservers, hfold]

/-! ## One event -/

section Steps

variable {α : Type} [DecidableEq α]

/-- The state between two events. -/
structure Sound (s : SkinManager α δ) (l : Activities α) : Prop extends UpToDate s l where
  created_iff : ∀ activity, activity ∈ l.created ↔ activity ∈ s.layoutInflaters
  live_created : ∀ activity ∈ l.live, activity ∈ l.created
  factory_lt : ∀ activity f, s.layoutInflaters.lookup activity = some f → f < s.factories.length
  factory_inj : ∀ a b f, s.layoutInflaters.lookup a = some f → s.layoutInflaters.lookup b = some f →
    a = b
  registered : ∀ activity f, s.mLayoutInflaterFactories.lookup activity = some f ↔
    activity ∈ l.live ∧ s.layoutInflaters.lookup activity = some f

variable {s : SkinManager α δ} {l : Activities α}

theorem Sound.observer_lt (h : Sound s l) {f : ℕ} (hf : f ∈ s.observers) :
    f < s.factories.length := by
  obtain ⟨activity, -, hlookup⟩ := h.observer_live f hf
  exact h.factory_lt activity f hlookup

/-- The factory of a destroyed activity is no observer. -/
theorem Sound.not_observer (h : Sound s l) {activity : α} {f : ℕ} (hdestroyed : activity ∉ l.live)
    (hlookup : s.layoutInflaters.lookup activity = some f) : f ∉ s.observers := by
  intro hf
  obtain ⟨other, hlive, hother⟩ := h.observer_live f hf
  rw [h.factory_inj activity other f hlookup hother] at hdestroyed
  exact hdestroyed hlive

/-- What an inflation does: nothing, or one factory has a new view, painted already. -/
theorem inflate_cases (s : SkinManager α δ) (activity : α) (element : Element δ) :
    s.inflate activity element = s ∨
      ∃ f before after, s.layoutInflaters.lookup activity = some f ∧
        s.factories[f]? = some before ∧
        s.inflate activity element = { s with factories := s.factories.set f after } ∧
        ∃ added, after.mSkinViews = before.mSkinViews ++ added ∧
          ∀ v ∈ added, v.lastApplied = some s.resources := by
  rw [SkinManager.inflate]
  cases hlookup : s.layoutInflaters.lookup activity with
  | none => exact Or.inl rfl
  | some f =>
      cases hfactory : s.factories[f]? with
      | none =>
          simp only [hfactory]
          exact Or.inl trivial
      | some before =>
          simp only [hfactory]
          cases hcreate : before.onCreateView s.resources element with
          | error e => exact Or.inl rfl
          | ok after =>
              refine Or.inr ⟨f, before, after, rfl, hfactory, rfl, ?_⟩
              rw [SkinAttribute.onCreateView] at hcreate
              split at hcreate
              · exact SkinAttribute.look_eq_ok hcreate
              · cases hcreate
                exact ⟨[], by simp, by simp⟩

theorem Sound.loadSkin (h : Sound s l) (skinPath : String) (attempt : Attempt δ) :
    Sound (s.loadSkin skinPath attempt) l := by
  rw [loadSkin_eq]
  refine ⟨⟨h.observed, h.observer_live, h.nodup, fun f hf => ?_⟩, h.created_iff, h.live_created,
    fun activity f hlookup => ?_, h.factory_inj, h.registered⟩
  · exact exists_repaint_of_mem (List.mem_reverse.mpr hf) (h.observer_lt hf)
  · rw [length_repaint]
    exact h.factory_lt activity f hlookup

theorem Sound.inflate (h : Sound s l) (activity : α) (element : Element δ) :
    Sound (s.inflate activity element) l := by
  rcases inflate_cases s activity element with
    hsame | ⟨f, before, after, hlookup, hbefore, hstep, added, hviews, hadded⟩
  · rw [hsame]
    exact h
  · rw [hstep]
    refine ⟨⟨h.observed, h.observer_live, h.nodup, fun g hg => ?_⟩, h.created_iff, h.live_created,
      fun a g ha => ?_, h.factory_inj, h.registered⟩
    · obtain ⟨painted, hpainted, hunder⟩ := h.painted g hg
      by_cases hfg : f = g
      · subst hfg
        have hold : before = painted := Option.some.inj (hbefore.symm.trans hpainted)
        refine ⟨after, List.getElem?_set_self (h.observer_lt hg), fun v hv => ?_⟩
        rw [hviews, hold] at hv
        rcases List.mem_append.mp hv with hmem | hmem
        · exact hunder v hmem
        · exact hadded v hmem
      · refine ⟨painted, ?_, hunder⟩
        simpa [List.getElem?_set_ne hfg] using hpainted
    · rw [List.length_set]
      exact h.factory_lt a g ha

/-- Different activities have different factories. -/
theorem Sound.ne_iff (h : Sound s l) {a b : α} {f g : ℕ}
    (ha : s.layoutInflaters.lookup a = some f) (hb : s.layoutInflaters.lookup b = some g) :
    a ≠ b ↔ f ≠ g := by
  rw [not_iff_not]
  constructor
  · rintro rfl
    exact Option.some.inj (ha.symm.trans hb)
  · rintro rfl
    exact h.factory_inj a b f ha hb

/-- Nothing is registered for an activity that is not live. -/
theorem Sound.not_live (h : Sound s l) {activity : α}
    (hnone : s.mLayoutInflaterFactories.lookup activity = none) : activity ∉ l.live := by
  intro hlive
  obtain ⟨f, -, hlookup⟩ := h.observed activity hlive
  simp [(h.registered activity f).mpr ⟨hlive, hlookup⟩] at hnone

theorem Sound.onActivityDestroyed (h : Sound s l) (activity : α) :
    Sound (s.onActivityDestroyed activity)
      (l.step (.onActivityDestroyed activity : SkinEvent α δ)) := by
  rw [SkinManager.onActivityDestroyed]
  cases hregistered : s.mLayoutInflaterFactories.lookup activity with
  | none =>
      have hnot := h.not_live hregistered
      have hsame : l.step (.onActivityDestroyed activity : SkinEvent α δ) = l := by
        have hfilter : l.live.filter (· ≠ activity) = l.live :=
          List.filter_eq_self.mpr fun a ha => decide_eq_true fun heq => hnot (heq ▸ ha)
        simp only [Activities.step, hfilter]
      rw [hsame]
      exact h
  | some f =>
      obtain ⟨hlive, hlookup⟩ := (h.registered activity f).mp hregistered
      have hkept : ∀ a, a ∈ l.live.filter (· ≠ activity) ↔ a ∈ l.live ∧ a ≠ activity := by
        simp [List.mem_filter]
      have hobservers : ∀ g, g ∈ s.observers.erase f ↔ g ≠ f ∧ g ∈ s.observers := fun g =>
        h.nodup.mem_erase_iff
      constructor
      case toUpToDate =>
          constructor
          case observed =>
              intro a ha
              obtain ⟨halive, haother⟩ := (hkept a).mp ha
              obtain ⟨g, hg, hga⟩ := h.observed a halive
              exact ⟨g, (hobservers g).mpr ⟨(h.ne_iff hga hlookup).mp haother, hg⟩, hga⟩
          case observer_live =>
              intro g hg
              obtain ⟨hgf, hgo⟩ := (hobservers g).mp hg
              obtain ⟨a, ha, hga⟩ := h.observer_live g hgo
              exact ⟨a, (hkept a).mpr ⟨ha, (h.ne_iff hga hlookup).mpr hgf⟩, hga⟩
          case nodup => exact h.nodup.erase f
          case painted => exact fun g hg => h.painted g ((hobservers g).mp hg).2
      case created_iff => exact h.created_iff
      case live_created => exact fun a ha => h.live_created a ((hkept a).mp ha).1
      case factory_lt => exact h.factory_lt
      case factory_inj => exact h.factory_inj
      case registered =>
          intro a g
          rw [Activities.step, hkept]
          by_cases ha : a = activity
          · subst ha
            simp [AList.lookup_erase]
          · simp only [AList.lookup_erase_ne ha, h.registered, ha, ne_eq, not_false_eq_true,
              and_true]

/-- A new activity with a factory that has no views yet. -/
def SkinManager.create (s : SkinManager α δ) (activity : α) : SkinManager α δ :=
  { s with
    factories := s.factories ++ [{}]
    layoutInflaters := s.layoutInflaters.insert activity s.factories.length
    mLayoutInflaterFactories := s.mLayoutInflaterFactories.insert activity s.factories.length
    observers := s.observers ++ [s.factories.length] }

theorem Sound.ne_of_live (h : Sound s l) {activity : α} (hnew : activity ∉ s.layoutInflaters) :
    ∀ a ∈ l.live, a ≠ activity := by
  rintro a ha rfl
  exact hnew ((h.created_iff a).mp (h.live_created a ha))

/-- Every factory is the new one, of the new activity, or an old one. -/
theorem lookup_create_cases {activity a : α} {f : ℕ}
    (h : (s.create activity).layoutInflaters.lookup a = some f) :
    (a = activity ∧ f = s.factories.length) ∨ s.layoutInflaters.lookup a = some f := by
  rw [SkinManager.create] at h
  by_cases ha : a = activity
  · subst ha
    rw [AList.lookup_insert] at h
    exact Or.inl ⟨rfl, (Option.some.inj h).symm⟩
  · rw [AList.lookup_insert_ne ha] at h
    exact Or.inr h

theorem Sound.upToDate_create (h : Sound s l) {activity : α}
    (hnew : activity ∉ s.layoutInflaters) :
    UpToDate (s.create activity) ⟨activity :: l.created, activity :: l.live⟩ := by
  have hlive := h.ne_of_live hnew
  rw [SkinManager.create]
  constructor
  case observed =>
      intro a ha
      rcases List.mem_cons.mp ha with rfl | halive
      · exact ⟨_, List.mem_append_right _ (List.mem_singleton.mpr rfl), AList.lookup_insert _⟩
      · obtain ⟨f, hf, hlookup⟩ := h.observed a halive
        refine ⟨f, List.mem_append_left _ hf, ?_⟩
        simpa [AList.lookup_insert_ne (hlive a halive)] using hlookup
  case observer_live =>
      intro f hf
      rcases List.mem_append.mp hf with hold | hlast
      · obtain ⟨a, ha, hlookup⟩ := h.observer_live f hold
        refine ⟨a, List.mem_cons_of_mem _ ha, ?_⟩
        simpa [AList.lookup_insert_ne (hlive a ha)] using hlookup
      · refine ⟨activity, List.mem_cons_self, ?_⟩
        rw [List.mem_singleton.mp hlast]
        exact AList.lookup_insert _
  case nodup =>
      refine List.nodup_append.mpr ⟨h.nodup, List.nodup_singleton _, fun f hf g hg => ?_⟩
      rw [List.mem_singleton.mp hg]
      exact Nat.ne_of_lt (h.observer_lt hf)
  case painted =>
      intro f hf
      rcases List.mem_append.mp hf with hold | hlast
      · obtain ⟨painted, hpainted, hunder⟩ := h.painted f hold
        refine ⟨painted, ?_, hunder⟩
        rw [List.getElem?_append_left (h.observer_lt hold)]
        exact hpainted
      · refine ⟨{}, ?_, fun v hv => absurd hv List.not_mem_nil⟩
        rw [List.mem_singleton.mp hlast]
        simp

theorem Sound.create (h : Sound s l) {activity : α} (hnew : activity ∉ s.layoutInflaters) :
    Sound (s.create activity) ⟨activity :: l.created, activity :: l.live⟩ := by
  constructor
  case toUpToDate => exact h.upToDate_create hnew
  case created_iff =>
      intro a
      simp only [SkinManager.create, List.mem_cons, AList.mem_insert, h.created_iff]
  case live_created =>
      intro a ha
      rcases List.mem_cons.mp ha with rfl | halive
      · exact List.mem_cons_self
      · exact List.mem_cons_of_mem _ (h.live_created a halive)
  case factory_lt =>
      intro a f hlookup
      rw [SkinManager.create, List.length_append, List.length_singleton]
      rcases lookup_create_cases hlookup with ⟨-, rfl⟩ | hold
      · exact Nat.lt_succ_self _
      · exact Nat.lt_succ_of_lt (h.factory_lt a f hold)
  case factory_inj =>
      intro a b f ha hb
      rcases lookup_create_cases ha with ⟨rfl, hf⟩ | hold
      · rcases lookup_create_cases hb with ⟨rfl, -⟩ | hold'
        · rfl
        · exact absurd hf (Nat.ne_of_lt (h.factory_lt b f hold'))
      · rcases lookup_create_cases hb with ⟨-, hf⟩ | hold'
        · exact absurd hf (Nat.ne_of_lt (h.factory_lt a f hold))
        · exact h.factory_inj a b f hold hold'
  case registered =>
      intro a f
      rw [SkinManager.create]
      by_cases ha : a = activity
      · subst ha
        simp [AList.lookup_insert]
      · simp [AList.lookup_insert_ne ha, h.registered, ha]

theorem Sound.onActivityCreated (h : Sound s l) (activity : α) (accepted : Bool) :
    Sound (s.onActivityCreated activity accepted)
      (l.step (.onActivityCreated activity accepted : SkinEvent α δ)) := by
  rw [SkinManager.onActivityCreated]
  cases accepted with
  | false =>
      simp only [Bool.false_eq_true, and_false, if_false]
      exact h
  | true =>
      by_cases hcreated : activity ∈ l.created
      · have hold := (h.created_iff activity).mp hcreated
        simp only [hold, not_true, false_and, if_false, Activities.step, hcreated, if_true]
        exact h
      · have hnew : activity ∉ s.layoutInflaters := fun hmem =>
          hcreated ((h.created_iff activity).mpr hmem)
        have hfresh : s.factories.length ∉ s.observers := fun hmem =>
          Nat.lt_irrefl _ (h.observer_lt hmem)
        simp only [hnew, not_false_eq_true, and_self, if_true, Activities.step, hcreated, if_false,
          hfresh]
        exact h.create hnew

theorem Sound.step (h : Sound s l) (e : SkinEvent α δ) : Sound (s.step e) (l.step e) := by
  cases e with
  | onActivityCreated activity accepted => exact h.onActivityCreated activity accepted
  | inflate activity element => exact h.inflate activity element
  | onActivityDestroyed activity => exact h.onActivityDestroyed activity
  | loadSkin skinPath attempt => exact h.loadSkin skinPath attempt

/-- An event changes no view of a factory that does not observe the manager. -/
theorem views_step {f : ℕ} (hf : f ∉ s.observers)
    {before : SkinAttribute δ} (hbefore : s.factories[f]? = some before) (e : SkinEvent α δ) :
    ∃ later, (s.step e).factories[f]? = some later ∧ before.mSkinViews <+: later.mSkinViews := by
  cases e with
  | onActivityCreated activity accepted =>
      rw [SkinManager.step, SkinManager.onActivityCreated]
      split
      · obtain ⟨hlt, -⟩ := List.getElem?_eq_some_iff.mp hbefore
        refine ⟨before, ?_, List.prefix_refl _⟩
        rw [List.getElem?_append_left hlt]
        exact hbefore
      · exact ⟨before, hbefore, List.prefix_refl _⟩
  | inflate activity element =>
      rw [SkinManager.step]
      rcases inflate_cases s activity element with
        hsame | ⟨g, old, new, -, hold, hstep, added, hviews, -⟩
      · rw [hsame]
        exact ⟨before, hbefore, List.prefix_refl _⟩
      · rw [hstep]
        by_cases hgf : g = f
        · -- the new view of a destroyed activity is painted, the others are not
          subst hgf
          have hsame : old = before := Option.some.inj (hold.symm.trans hbefore)
          obtain ⟨hlt, -⟩ := List.getElem?_eq_some_iff.mp hbefore
          refine ⟨new, List.getElem?_set_self hlt, ?_⟩
          rw [hviews, hsame]
          exact List.prefix_append _ _
        · refine ⟨before, ?_, List.prefix_refl _⟩
          simpa [List.getElem?_set_ne hgf] using hbefore
  | onActivityDestroyed activity =>
      rw [SkinManager.step, SkinManager.onActivityDestroyed]
      split
      · exact ⟨before, hbefore, List.prefix_refl _⟩
      · exact ⟨before, hbefore, List.prefix_refl _⟩
  | loadSkin skinPath attempt =>
      rw [SkinManager.step, loadSkin_eq]
      refine ⟨before, ?_, List.prefix_refl _⟩
      rw [getElem?_repaint_of_notMem fun hmem => hf (List.mem_reverse.mp hmem)]
      exact hbefore

theorem sound_run (initial : SkinResources δ) (es : List (SkinEvent α δ)) :
    Sound (SkinManager.run initial es) (Activities.run es) := by
  induction es using List.reverseRecOn with
  | nil =>
      have hnone : ∀ (a : α) (f : ℕ), (∅ : AList fun _ : α => ℕ).lookup a ≠ some f := by simp
      refine ⟨⟨by simp [Activities.run], by simp [SkinManager.run], by simp [SkinManager.run],
        by simp [SkinManager.run]⟩, fun a => ?_, by simp [Activities.run],
        fun a f ha => absurd ha (hnone a f), fun a b f ha => absurd ha (hnone a f), fun a f => ?_⟩
      · simp [Activities.run, SkinManager.run]
      · simp [SkinManager.run, Activities.run]
  | append_singleton es e ih =>
      rw [SkinManager.run_append_singleton, Activities.run_append_singleton]
      exact ih.step e

end Steps

/-- Throughout any run the observers are the factories of the live activities and all
their views show the skin in force; a load that fails leaves the skin, and the views of
a destroyed activity are not painted again. -/
theorem noStaleSkin {α : Type} [DecidableEq α] (initial : SkinResources δ)
    (es : List (SkinEvent α δ)) :
    EveryPrefix (fun pre => UpToDate (SkinManager.run initial pre) (Activities.run pre)) es ∧
      EveryStep (KeptOnFailure initial) es ∧ EveryStep (NotPaintedAgain initial) es := by
  refine ⟨fun pre _ => (sound_run initial pre).toUpToDate, fun pre e _ => ?_, fun pre e _ => ?_⟩
  · rintro skinPath attempt error rfl hpath herror
    rw [SkinManager.run_append_singleton, SkinManager.step, loadSkin_eq]
    simp [SkinResources.load, hpath, herror]
  · intro activity f before _ hdestroyed hlookup hbefore
    have hsound := sound_run initial pre
    rw [SkinManager.run_append_singleton]
    exact views_step (hsound.not_observer hdestroyed hlookup) hbefore e

/-- A text view with the text colour 7. -/
def colouredText : Element Unit where
  name := "TextView".toList
  attrs := [("textColor", "@7".toList)]
  createView name :=
    if name = "android.widget.TextView".toList then some { isTextView := true } else none
  getResId := id

/-- A package in which that colour is another one. -/
def colouredSkin : Attempt Unit where
  appResource := .ok ()
  newInstance := .ok ()
  addAssetPath := .ok ()
  skinResource := .ok { plainResources with getIdentifier := fun _ _ _ => 3 }
  packageArchiveInfo := .ok (some "skin")

/-- Two activities, of which one is gone when the skin is loaded. -/
def repaintedRun : List (SkinEvent ℕ Unit) :=
  [.onActivityCreated 1 true, .inflate 1 colouredText, .onActivityCreated 2 true,
    .inflate 2 colouredText, .onActivityDestroyed 2, .loadSkin "skin.apk" colouredSkin]

/-- The view of the first is painted again, in the new colour. -/
theorem noStaleSkin_repaintedRun :
    let s := SkinManager.run { mAppResource := some plainResources } repaintedRun
    UpToDate s (Activities.run repaintedRun) ∧
      s.factories.map (fun f => f.mSkinViews.map fun v => (v.paints, v.view.textColor)) =
        [[(2, some 3)], [(1, some 7)]] :=
  ⟨(noStaleSkin _ repaintedRun).1.self, by decide⟩

end StudyNotes.Skin
