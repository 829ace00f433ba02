/-
# The run-time router (`RouterManager`)

One singleton holds the request under construction (`path`, `group`, `bundle`) and
two caches of generated classes.  `build` replaces the path and the group, the
`with*` calls add to the bundle, and `navigation` loads the Group class of the
group, the Path class it names, and acts on the bean of the path.  Whatever goes
wrong inside `navigation` is caught there, and nothing is started.

The caches are filled from the class loader only, so over a run with one package
they never change what `navigation` finds.
-/

import StudyNotes.Lib.LruCache
import StudyNotes.Router.Intent
import StudyNotes.Router.Processor

namespace StudyNotes.Router

open StudyNotes.Text

/-! ## Generated classes at run time -/

/-- An instance of a generated Group class. -/
structure ARouterGroup where
  puts : List (Str × Str)

/-- The generated method runs its statements on a new map at every call. -/
def ARouterGroup.getGroupMap (g : ARouterGroup) : HashMap Str := runPuts g.puts

/-- An instance of a generated Path class. -/
structure ARouterPath where
  puts : List (Str × RouterBean)

/-- The generated method of a Path class. -/
def ARouterPath.getPathMap (p : ARouterPath) : HashMap RouterBean := runPuts p.puts

/-- What the application provides: the generated classes by their full names, and
which route classes can be instantiated. -/
structure Runtime where
  forName : Str → Option JavaFile
  instantiable : Str → Bool

/-- `android.content.Context`, by its package name. -/
structure Context where
  packageName : Str

/-- What a call of `navigation` does: start an Activity with extras, return a new
`Call` object, or return null. -/
inductive Navigation
  | startActivity (target : Str) (extras : Bundle)
  | call (target : Str)
  | nothing

/-! ## The manager -/

/-- The fields of `RouterManager`.  The request fields start as null. -/
structure RouterManager where
  group : Option Str := none
  path : Option Str := none
  groupLruCache : LruCache Str ARouterGroup := { maxSize := 100 }
  pathLruCache : LruCache Str ARouterPath := { maxSize := 100 }
  bundle : Bundle := .empty

/-- `RouterManager.FILE_GROUP_NAME`. -/
def FILE_GROUP_NAME : Str := "ARouter$$Group$$".toList

/-- `RouterManager.build`.  A null path is refused like the empty one. -/
def build (m : RouterManager) (path : Str) : Except JavaException RouterManager :=
  if path.isEmpty || !startsWith path ['/'] then
    .error (.illegalArgument "path 格式不正确，正确写法：如 /app/MainActivity")
  else if lastIndexOf path '/' = some 0 then
    .error (.illegalArgument "path 格式不正确，正确写法：如 /order/Order_MainActivity")
  else
    match cutGroup path with
    | none => .error .stringIndexOutOfBounds
    | some finalGroup => .ok { m with path := some path, group := some finalGroup }

/-- `withInt`, `withString` and `withParcelable`. -/
def withExtra (m : RouterManager) (c : WithCall) : RouterManager :=
  { m with bundle := m.bundle.put c.key c.value }

/-- The class `navigation` asks for, cast to `ARouterGroup`. -/
def newGroup (rt : Runtime) (package group : Str) : Option ARouterGroup :=
  match rt.forName (package ++ '.' :: (FILE_GROUP_NAME ++ group)) with
  | some (.group _ puts) => some ⟨puts⟩
  | _ => none

/-- The Path class a Group object lists for a group. -/
def newPath (rt : Runtime) (loadGroup : ARouterGroup) (group : Str) : Option ARouterPath :=
  match (loadGroup.getGroupMap.lookup group).bind rt.forName with
  | some (.path _ puts) => some ⟨puts⟩
  | _ => none

/-- The Group object, from the cache or from its class. -/
def loadGroup (rt : Runtime) (context : Context) (m : RouterManager) (group : Str) :
    Option ARouterGroup × RouterManager :=
  match m.groupLruCache.get group with
  | (some g, cache) => (some g, { m with groupLruCache := cache })
  | (none, cache) =>
    match newGroup rt context.packageName group with
    | none => (none, { m with groupLruCache := cache })
    | some g => (some g, { m with groupLruCache := cache.put group g })

/-- The Path object, from the cache or from the class the Group object lists. -/
def loadPath (rt : Runtime) (m : RouterManager) (loadGroup : ARouterGroup) (group path : Str) :
    Option ARouterPath × RouterManager :=
  match m.pathLruCache.get path with
  | (some p, cache) => (some p, { m with pathLruCache := cache })
  | (none, cache) =>
    match newPath rt loadGroup group with
    | none => (none, { m with pathLruCache := cache })
    | some p => (some p, { m with pathLruCache := cache.put path p })

/-- The part of `navigation` that finds the bean of the current request.  A null
group or path makes the caches throw, and an empty map is refused. -/
def findBean (rt : Runtime) (context : Context) (m : RouterManager) :
    Option RouterBean × RouterManager :=
  match m.group, m.path with
  | some group, some path =>
    match loadGroup rt context m group with
    | (none, m) => (none, m)
    | (some g, m) =>
      if g.getGroupMap.entries.isEmpty then (none, m)
      else
        match loadPath rt m g group path with
        | (none, m) => (none, m)
        | (some p, m) =>
          if p.getPathMap.entries.isEmpty then (none, m) else (p.getPathMap.lookup path, m)
  | _, _ => (none, m)

/-- `RouterManager.navigation`. -/
def navigation (rt : Runtime) (context : Context) (m : RouterManager) :
    Navigation × RouterManager :=
  match findBean rt context m with
  | (none, m) => (.nothing, m)
  | (some bean, m) =>
    match bean.typeEnum with
    | .activity => (.startActivity bean.myClass m.bundle, m)
    | .call => (if rt.instantiable bean.myClass then .call bean.myClass else .nothing, m)

/-! ## What `build` accepts -/

theorem build_of_hasGroup (m : RouterManager) {path g : Str} (h : HasGroup path g) :
    build m path = .ok { m with path := some path, group := some g } := by
  obtain ⟨hguard, hlast⟩ := hasGroup_iff_guards.mp ⟨g, h⟩
  rw [build, if_neg (by simp [hguard]), if_neg hlast, h.cutGroup]

theorem build_of_refused (m : RouterManager) {path : Str} (h : ¬ ∃ g, HasGroup path g) :
    ∃ message, build m path = .error (.illegalArgument message) := by
  rw [build]
  by_cases hguard : (path.isEmpty || !startsWith path ['/']) = true
  · rw [if_pos hguard]
    exact ⟨_, rfl⟩
  · by_cases hlast : lastIndexOf path '/' = some 0
    · rw [if_neg hguard, if_pos hlast]
      exact ⟨_, rfl⟩
    · exact absurd (hasGroup_iff_guards.mpr ⟨Bool.not_eq_true _ ▸ hguard, hlast⟩) h

/-- A path is accepted exactly when it has a group. -/
theorem exists_build_iff {m : RouterManager} {path : Str} :
    (∃ m', build m path = .ok m') ↔ ∃ g, HasGroup path g := by
  constructor
  · rintro ⟨m', hm'⟩
    by_contra hrefused
    obtain ⟨message, herror⟩ := build_of_refused m hrefused
    rw [herror] at hm'
    cases hm'
  · rintro ⟨g, hg⟩
    exact ⟨_, build_of_hasGroup m hg⟩

/-- The processor's check of a path without an annotated group and the manager's `build` are
one language: both accept or both refuse, with one group, never out of bounds, and what
is accepted is a group that is not empty and a rest. -/
structure SameLanguage (bean : RouterBean) (m : RouterManager) (path : Str) : Prop where
  accepts : (∃ bean', checkRouterPath { bean with path := path, group := [] } =
    .ok (.accepted bean')) ↔ ∃ m', build m path = .ok m'
  group : ∀ bean' m', checkRouterPath { bean with path := path, group := [] } =
    .ok (.accepted bean') → build m path = .ok m' → m'.group = some bean'.group
  check_inBounds : checkRouterPath { bean with path := path, group := [] } ≠
    .error .stringIndexOutOfBounds
  build_inBounds : build m path ≠ .error .stringIndexOutOfBounds
  grammar : (∃ m', build m path = .ok m') ↔
    ∃ g rest, path = '/' :: (g ++ '/' :: rest) ∧ '/' ∉ g ∧ g ≠ []

/-- Both checkers cut at the same place. -/
theorem checkers_agree (bean : RouterBean) (m : RouterManager) {path g : Str}
    (h : HasGroup path g) :
    checkRouterPath { bean with path := path, group := [] } =
        .ok (.accepted { bean with path := path, group := g }) ∧
      build m path = .ok { m with path := some path, group := some g } :=
  ⟨checkRouterPath_of_hasGroup { bean with path := path, group := [] } h,
    build_of_hasGroup m h⟩

/-- The group is empty exactly behind a doubled slash. -/
theorem hasGroup_nil_iff {path : Str} :
    HasGroup path [] ↔ startsWith path ['/', '/'] = true := by
  rw [startsWith, List.isPrefixOf_iff_prefix]
  constructor
  · rintro ⟨rest, rfl, -⟩
    exact ⟨rest, rfl⟩
  · rintro ⟨rest, rfl⟩
    exact ⟨rest, rfl, List.not_mem_nil⟩

theorem exists_nonempty_group_iff {path : Str} (h : ∃ g, HasGroup path g) :
    (∃ g rest, path = '/' :: (g ++ '/' :: rest) ∧ '/' ∉ g ∧ g ≠ []) ↔ ¬ HasGroup path [] := by
  constructor
  · rintro ⟨g, rest, hpath, hslash, hne⟩ hempty
    exact hne (LeadingSegment.unique ⟨rest, hpath, hslash⟩ hempty)
  · intro hnonempty
    obtain ⟨g, hg⟩ := h
    have hne : g ≠ [] := fun heq => hnonempty (heq ▸ hg)
    obtain ⟨rest, hpath, hslash⟩ := hg
    exact ⟨g, rest, hpath, hslash, hne⟩

/-- The two checkers are one language exactly on the paths that do not start with two
slashes: behind these both accept an empty group. -/
theorem sameLanguage_iff (bean : RouterBean) (m : RouterManager) (path : Str) :
    SameLanguage bean m path ↔ startsWith path ['/', '/'] = false := by
  rw [← Bool.not_eq_true, ← hasGroup_nil_iff]
  by_cases h : ∃ g, HasGroup path g
  · obtain ⟨hcheck, hbuild⟩ := checkers_agree bean m h.choose_spec
    rw [← exists_nonempty_group_iff h]
    constructor
    · exact fun hsame => hsame.grammar.mp ⟨_, hbuild⟩
    · intro hgroup
      refine ⟨⟨fun _ => ⟨_, hbuild⟩, fun _ => ⟨_, hcheck⟩⟩, ?_, ?_, ?_, ?_⟩
      · intro bean' m' hbean' hm'
        rw [hcheck] at hbean'
        rw [hbuild] at hm'
        cases hbean'
        cases hm'
        rfl
      · rw [hcheck]
        exact nofun
      · rw [hbuild]
        exact nofun
      · exact ⟨fun _ => hgroup, fun _ => ⟨_, hbuild⟩⟩
  · obtain ⟨error, hcheck⟩ := @checkRouterPath_of_refused { bean with path := path, group := [] } h
    obtain ⟨message, hbuild⟩ := build_of_refused m h
    refine ⟨fun _ hempty => h ⟨[], hempty⟩, fun _ => ?_⟩
    constructor
    · rw [hcheck, hbuild]
      exact ⟨nofun, nofun⟩
    · rw [hcheck]
      exact nofun
    · rw [hcheck]
      exact nofun
    · rw [hbuild]
      exact nofun
    · rw [exists_build_iff]
      refine ⟨fun hgroup => absurd hgroup h, ?_⟩
      rintro ⟨g, rest, hpath, hslash, -⟩
      exact ⟨g, rest, hpath, hslash⟩

/-- Both checkers accept the empty group of `//x`. -/
theorem not_sameLanguage_emptyGroup :
    ¬ ∀ (bean : RouterBean) (m : RouterManager) (path : Str), SameLanguage bean m path := by
  intro hlaw
  have hgrammar := (hlaw ⟨.activity, [], [], []⟩ {} "//x".toList).grammar
  obtain ⟨g, rest, hpath, hslash, hne⟩ := hgrammar.mp ⟨_, rfl⟩
  exact hne (LeadingSegment.unique ⟨rest, hpath, hslash⟩ (hasGroup_nil_iff.mpr (by decide)))

/-! ## What a call leaves alone -/

section Frame

variable (rt : Runtime) (context : Context) (m : RouterManager)

/-- The request fields of two managers agree. -/
structure SameRequest (m m' : RouterManager) : Prop where
  group : m'.group = m.group
  path : m'.path = m.path
  bundle : m'.bundle = m.bundle

theorem loadGroup_sameRequest (group : Str) :
    SameRequest m (loadGroup rt context m group).2 := by
  rw [loadGroup]
  split
  · exact ⟨rfl, rfl, rfl⟩
  · split
    · exact ⟨rfl, rfl, rfl⟩
    · exact ⟨rfl, rfl, rfl⟩

theorem loadPath_sameRequest (g : ARouterGroup) (group path : Str) :
    SameRequest m (loadPath rt m g group path).2 := by
  rw [loadPath]
  split
  · exact ⟨rfl, rfl, rfl⟩
  · split
    · exact ⟨rfl, rfl, rfl⟩
    · exact ⟨rfl, rfl, rfl⟩

theorem SameRequest.trans {m m' m'' : RouterManager} (h : SameRequest m m')
    (h' : SameRequest m' m'') : SameRequest m m'' :=
  ⟨h'.group.trans h.group, h'.path.trans h.path, h'.bundle.trans h.bundle⟩

/-- `navigation` reads the request and leaves it as it is. -/
theorem findBean_sameRequest : SameRequest m (findBean rt context m).2 := by
  rw [findBean]
  split
  · rename_i group path _ _
    have hgroup := loadGroup_sameRequest rt context m group
    cases hload : loadGroup rt context m group with
    | mk found m₁ =>
        rw [hload] at hgroup
        cases found with
        | none => exact hgroup
        | some g =>
            have hpath := loadPath_sameRequest rt m₁ g group path
            dsimp only
            split
            · exact hgroup
            · cases hload' : loadPath rt m₁ g group path with
              | mk found' m₂ =>
                  rw [hload'] at hpath
                  cases found' with
                  | none => exact hgroup.trans hpath
                  | some p =>
                      dsimp only
                      split <;> exact hgroup.trans hpath
  · exact ⟨rfl, rfl, rfl⟩

/-- Without a path nothing is looked up. -/
theorem findBean_of_path_none {rt : Runtime} {context : Context} {m : RouterManager}
    (hpath : m.path = none) : findBean rt context m = (none, m) := by
  rw [findBean, hpath]
  cases m.group with
  | none => rfl
  | some g => rfl

theorem navigation_snd : (navigation rt context m).2 = (findBean rt context m).2 := by
  rw [navigation]
  cases findBean rt context m with
  | mk found m' =>
      cases found with
      | none => rfl
      | some bean =>
          dsimp only
          cases bean.typeEnum with
          | activity => rfl
          | call => rfl

/-- An Activity is started with the bundle of the manager. -/
theorem extras_of_navigation {target : Str} {extras : Bundle}
    (h : (navigation rt context m).1 = .startActivity target extras) : extras = m.bundle := by
  have hframe := findBean_sameRequest rt context m
  rw [navigation] at h
  cases hfind : findBean rt context m with
  | mk found m' =>
      rw [hfind] at h hframe
      cases found with
      | none => cases h
      | some bean =>
          cases htype : bean.typeEnum with
          | activity =>
              simp only [htype, Navigation.startActivity.injEq] at h
              rw [← h.2, hframe.bundle]
          | call =>
              simp only [htype] at h
              split at h <;> cases h

end Frame

/-! ## The caches do not matter -/

/-- The bean a path leads to when every class is loaded anew. -/
def routeOf (rt : Runtime) (package path group : Str) : Option RouterBean :=
  (newGroup rt package group).bind fun g =>
    (newPath rt g group).bind fun p => p.getPathMap.lookup path

/-- The request fields belong together, and the caches hold what the class loader
returns for the package. -/
structure Consistent (rt : Runtime) (package : Str) (m : RouterManager) : Prop where
  request : ∀ path, m.path = some path → ∃ g, HasGroup path g ∧ m.group = some g
  groups : m.groupLruCache.Holds fun group g => newGroup rt package group = some g
  paths : m.pathLruCache.Holds fun path p =>
    ∃ group g, HasGroup path group ∧ newGroup rt package group = some g ∧
      newPath rt g group = some p

section Caches

variable {rt : Runtime} {context : Context} {m : RouterManager}

theorem consistent_initial (rt : Runtime) (package : Str) : Consistent rt package {} where
  request := fun path h => by cases h
  groups := LruCache.holds_empty _ _
  paths := LruCache.holds_empty _ _

theorem Consistent.loadGroup (h : Consistent rt context.packageName m) (group : Str) :
    (loadGroup rt context m group).1 = newGroup rt context.packageName group ∧
      Consistent rt context.packageName (loadGroup rt context m group).2 := by
  have hsnd := h.groups.get_snd group
  rw [Router.loadGroup]
  cases hget : m.groupLruCache.get group with
  | mk found cache =>
      rw [hget] at hsnd
      cases found with
      | some g =>
          have hfst := h.groups.get_fst (show (m.groupLruCache.get group).1 = some g by rw [hget])
          exact ⟨hfst.symm, h.request, hsnd, h.paths⟩
      | none =>
          cases hnew : newGroup rt context.packageName group with
          | none => exact ⟨rfl, h.request, hsnd, h.paths⟩
          | some g => exact ⟨rfl, h.request, hsnd.put hnew, h.paths⟩

theorem Consistent.loadPath (h : Consistent rt context.packageName m) {group path : Str}
    (hpath : HasGroup path group) {g : ARouterGroup}
    (hg : newGroup rt context.packageName group = some g) :
    (loadPath rt m g group path).1 = newPath rt g group ∧
      Consistent rt context.packageName (loadPath rt m g group path).2 := by
  have hsnd := h.paths.get_snd path
  rw [Router.loadPath]
  cases hget : m.pathLruCache.get path with
  | mk found cache =>
      rw [hget] at hsnd
      cases found with
      | some p =>
          obtain ⟨group', g', hpath', hg', hp⟩ :=
            h.paths.get_fst (show (m.pathLruCache.get path).1 = some p by rw [hget])
          obtain rfl := hpath'.unique hpath
          obtain rfl : g' = g := Option.some.inj (hg'.symm.trans hg)
          exact ⟨hp.symm, h.request, h.groups, hsnd⟩
      | none =>
          cases hnew : newPath rt g group with
          | none => exact ⟨rfl, h.request, h.groups, hsnd⟩
          | some p =>
              exact ⟨rfl, h.request, h.groups, hsnd.put ⟨group, g, hpath, hg, hnew⟩⟩

theorem lookup_eq_none_of_isEmpty {V : Type} {entries : HashMap V}
    (h : entries.entries.isEmpty = true) (k : Str) : entries.lookup k = none := by
  by_contra hne
  obtain ⟨v, hv⟩ := Option.ne_none_iff_exists'.mp hne
  rw [entries_ne_nil_of_lookup hv] at h
  cases h

/-- `navigation` finds the bean that it would find without caches. -/
theorem Consistent.findBean (h : Consistent rt context.packageName m) {path group : Str}
    (hpath : m.path = some path) (hgroup : HasGroup path group) :
    (findBean rt context m).1 = routeOf rt context.packageName path group ∧
      Consistent rt context.packageName (findBean rt context m).2 := by
  obtain ⟨group', hgroup', hmgroup⟩ := h.request path hpath
  obtain rfl := hgroup'.unique hgroup
  obtain ⟨hload, hconsistent⟩ := h.loadGroup group'
  rw [Router.findBean, hmgroup, hpath, routeOf]
  dsimp only
  cases hpair : Router.loadGroup rt context m group' with
  | mk found m₁ =>
      rw [hpair] at hload hconsistent
      rw [← hload]
      cases found with
      | none => exact ⟨rfl, hconsistent⟩
      | some g =>
          obtain ⟨hload', hconsistent'⟩ := hconsistent.loadPath hgroup hload.symm
          dsimp only
          rw [Option.bind_some]
          split
          · rename_i hempty
            rw [newPath, lookup_eq_none_of_isEmpty hempty]
            exact ⟨rfl, hconsistent⟩
          · cases hpair' : Router.loadPath rt m₁ g group' path with
            | mk found' m₂ =>
                rw [hpair'] at hload' hconsistent'
                rw [← hload']
                cases found' with
                | none => exact ⟨rfl, hconsistent'⟩
                | some p =>
                    dsimp only
                    rw [Option.bind_some]
                    split
                    · rename_i hempty
                      rw [lookup_eq_none_of_isEmpty hempty]
                      exact ⟨rfl, hconsistent'⟩
                    · exact ⟨rfl, hconsistent'⟩

end Caches

/-! ## Runs -/

/-- A method call on the singleton. -/
inductive Op
  | build (path : Str)
  | withExtra (c : WithCall)
  | navigation (context : Context)

/-- The manager after a call.  Where `build` throws, no field has been assigned. -/
def step (rt : Runtime) (m : RouterManager) : Op → RouterManager
  | .build path =>
    match build m path with
    | .ok m' => m'
    | .error _ => m
  | .withExtra c => withExtra m c
  | .navigation context => (navigation rt context m).2

/-- The manager after a sequence of calls. -/
def run (rt : Runtime) (m : RouterManager) (ops : List Op) : RouterManager :=
  ops.foldl (step rt) m

/-- Every navigation is made with a context of the package. -/
def InPackage (package : Str) : Op → Prop
  | .navigation context => context.packageName = package
  | _ => True

theorem step_build_of_hasGroup (rt : Runtime) (m : RouterManager) {path g : Str}
    (h : HasGroup path g) :
    step rt m (.build path) = { m with path := some path, group := some g } := by
  rw [step, build_of_hasGroup m h]

theorem step_build_of_refused (rt : Runtime) (m : RouterManager) {path : Str}
    (h : ¬ ∃ g, HasGroup path g) : step rt m (.build path) = m := by
  rw [step]
  cases hbuild : build m path with
  | error e => rfl
  | ok m' => exact absurd (exists_build_iff.mp ⟨m', hbuild⟩) h

theorem step_navigation_sameRequest (rt : Runtime) (m : RouterManager) (context : Context) :
    SameRequest m (step rt m (.navigation context)) := by
  rw [step, navigation_snd]
  exact findBean_sameRequest rt context m

theorem Consistent.step {rt : Runtime} {package : Str} {m : RouterManager}
    (h : Consistent rt package m) {op : Op} (hop : InPackage package op) :
    Consistent rt package (step rt m op) := by
  cases op with
  | build path =>
      by_cases hpath : ∃ g, HasGroup path g
      · obtain ⟨g, hg⟩ := hpath
        rw [step_build_of_hasGroup rt m hg]
        refine ⟨?_, h.groups, h.paths⟩
        intro path' hpath'
        obtain rfl := Option.some.inj hpath'
        exact ⟨g, hg, rfl⟩
      · rw [step_build_of_refused rt m hpath]
        exact h
  | withExtra c => exact ⟨h.request, h.groups, h.paths⟩
  | navigation context =>
      obtain rfl : context.packageName = package := hop
      rw [Router.step, navigation_snd]
      cases hpath : m.path with
      | some path =>
          obtain ⟨g, hg, -⟩ := h.request path hpath
          exact (h.findBean hpath hg).2
      | none =>
          rw [findBean_of_path_none hpath]
          exact h

/-- The caches stay consistent over every run within one package. -/
theorem Consistent.run {rt : Runtime} {package : Str} {m : RouterManager}
    (h : Consistent rt package m) {ops : List Op} (hops : ∀ op ∈ ops, InPackage package op) :
    Consistent rt package (run rt m ops) := by
  induction ops generalizing m with
  | nil => exact h
  | cons op ops ih =>
      apply ih (h.step (hops op (by simp)))
      exact fun op' hop' => hops op' (by simp [hop'])

end StudyNotes.Router
