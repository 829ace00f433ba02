/-
# The two halves of the router together

The processor files a class under the annotated group if there is one, and the
manager looks it up under the group in its path.  When every path starts with the
module name, the two agree on a class exactly when its annotation names no other
group and no later class of the module's group claims the same path.
-/

import StudyNotes.Lib.Fallible
import StudyNotes.Router.Manager
import StudyNotes.Router.Tables

namespace StudyNotes.Router

open StudyNotes.Text StudyNotes.Fallible

/-! ## Which elements a round accepts -/

/-- An element is filed, or reported with two messages. -/
theorem processElement_cases {s s' : ProcessorState} {e : Element}
    (h : processElement s e = .ok s') :
    (e.Valid ∧ s'.errors = s.errors) ∨ (¬ e.Valid ∧ s'.errors ≠ []) := by
  by_cases hvalid : e.Valid
  · rw [processElement_of_valid s hvalid] at h
    obtain rfl := Except.ok.inj h
    exact Or.inl ⟨hvalid, rfl⟩
  · refine Or.inr ⟨hvalid, ?_⟩
    rw [processElement] at h
    split at h
    · cases h
    · split at h
      · cases h
      · rename_i type htype
        cases hcheck : checkRouterPath ⟨type, e.className, e.path, e.group⟩ with
        | error exception =>
            rw [hcheck] at h
            cases h
        | ok result =>
            rw [hcheck] at h
            cases result with
            | accepted bean =>
                exact absurd ⟨by simp [htype], hasGroup_of_accepted hcheck⟩ hvalid
            | rejected error =>
                obtain rfl := Except.ok.inj h
                simp

theorem errors_foldlM_processElement {elements : List Element} {s s' : ProcessorState}
    (h : elements.foldlM processElement s = .ok s') :
    s'.errors = [] ↔ s.errors = [] ∧ ∀ e ∈ elements, e.Valid := by
  induction elements generalizing s with
  | nil =>
      obtain rfl := Except.ok.inj h
      simp
  | cons e elements ih =>
      obtain ⟨t, hstep, hrest⟩ := foldlM_cons_eq_ok_iff.mp h
      rw [ih hrest, List.forall_mem_cons]
      rcases processElement_cases hstep with ⟨hvalid, herrors⟩ | ⟨hinvalid, herrors⟩
      · rw [herrors, and_iff_right hvalid]
      · simp [hinvalid, herrors]

theorem errors_writePathFiles (env : ProcessingEnv)
    (entries : List (Sigma fun _ : Str => List RouterBean)) (s : ProcessorState) :
    (writePathFiles env entries s).errors = s.errors := by
  induction entries generalizing s with
  | nil => rfl
  | cons x entries ih =>
      rw [writePathFiles]
      cases env.filer s.attempts s.files (pathFile x.1 x.2) with
      | ok => exact ih _
      | ioException => exact ih _
      | otherException => rfl

theorem errors_createGroupFile (env : ProcessingEnv) (s : ProcessorState) :
    (createGroupFile env s).errors = s.errors := by
  rw [createGroupFile]
  split
  · rfl
  · dsimp only
    cases env.filer s.attempts s.files (groupFile env s.mAllGroupMap) with
    | ok => rfl
    | ioException => rfl
    | otherException => rfl

/-- A first round reports nothing exactly when it accepts every element. -/
theorem errors_process {env : ProcessingEnv} {elements : List Element} {s : ProcessorState}
    (h : process env {} elements = .ok s) : s.errors = [] ↔ ∀ e ∈ elements, e.Valid := by
  rw [process] at h
  split at h
  · rename_i hempty
    obtain rfl := Except.ok.inj h
    rw [List.isEmpty_iff.mp hempty]
    simp
  · obtain ⟨t, hfold, hfiles⟩ := bind_eq_ok_iff.mp h
    obtain rfl := Except.ok.inj hfiles
    rw [errors_createGroupFile, createPathFile, errors_writePathFiles,
      errors_foldlM_processElement hfold]
    simp

/-! ## From the generated classes to a route -/

/-- `Class.forName` finds exactly the generated classes, in the package of the
module. -/
def Loads (rt : Runtime) (env : ProcessingEnv) (s : ProcessorState) : Prop :=
  ∀ name, rt.forName name =
    s.files.find? fun file => qualifiedName env.aptPackage file.className = name

/-- A class loader of the generated classes. -/
def Runtime.loading (env : ProcessingEnv) (s : ProcessorState) : Runtime where
  forName := fun name => s.files.find? fun file => qualifiedName env.aptPackage file.className = name
  instantiable := fun _ => true

theorem Loads.forName {rt : Runtime} {env : ProcessingEnv} {s : ProcessorState}
    (h : Loads rt env s) (name : Str) :
    rt.forName (qualifiedName env.aptPackage name) = findClass s.files name := by
  rw [h, findClass]
  congr 1
  funext file
  simp [qualifiedName]

/-- The manager finds the last bean filed under the module's group and the path. -/
theorem FirstRound.routeOf {env : ProcessingEnv} {elements : List Element} {s : ProcessorState}
    (h : FirstRound env elements s) {rt : Runtime} (hrt : Loads rt env s) (path : Str) :
    routeOf rt env.aptPackage path env.options =
      (beansIn elements env.options).reverse.find? (·.path = path) := by
  have hgroup : newGroup rt env.aptPackage env.options =
      some ⟨(env.groupOrder.arrange s.mAllGroupMap.entries).map fun entry =>
        (entry.1, qualifiedName env.aptPackage entry.2)⟩ := by
    rw [newGroup, show env.aptPackage ++ '.' :: (FILE_GROUP_NAME ++ env.options) =
      qualifiedName env.aptPackage (GROUP_FILE_NAME ++ env.options) from rfl, hrt.forName,
      h.findClass_group]
    rfl
  rw [Router.routeOf, hgroup, Option.bind_some, newPath, ARouterGroup.getGroupMap,
    h.lookup_groupPuts]
  by_cases hbeans : beansIn elements env.options = []
  · rw [if_pos hbeans, hbeans]
    rfl
  · rw [if_neg hbeans, Option.bind_some, hrt.forName, h.findClass_path hbeans]
    exact lookup_pathPuts _ _

/-! ## Reaching a class -/

/-- The bean is one of the class, with its type. -/
def IsBeanOf (e : Element) (bean : RouterBean) : Prop :=
  bean.myClass = e.className ∧ e.typeEnum? = some bean.typeEnum

/-- `build(p)` accepts the path of the class, and `navigation` then acts on a bean
of this class. -/
def Reaches (rt : Runtime) (context : Context) (m : RouterManager) (e : Element) : Prop :=
  ∃ m', build m e.path = .ok m' ∧ ∃ bean, (findBean rt context m').1 = some bean ∧ IsBeanOf e bean

/-- The annotation names no group, or that of the module. -/
def InModuleGroup (env : ProcessingEnv) (e : Element) : Prop :=
  e.group = [] ∨ e.group = env.options

/-- What is reached is decided by the beans of the module's group. -/
theorem FirstRound.reaches_iff_find? {env : ProcessingEnv} {elements : List Element}
    {s : ProcessorState} (h : FirstRound env elements s) {rt : Runtime} (hrt : Loads rt env s)
    {context : Context} (hcontext : context.packageName = env.aptPackage) {m : RouterManager}
    (hm : Consistent rt env.aptPackage m) {e : Element} (he : HasGroup e.path env.options) :
    Reaches rt context m e ↔
      ∃ bean, (beansIn elements env.options).reverse.find? (·.path = e.path) = some bean ∧
        IsBeanOf e bean := by
  let m' : RouterManager := { m with path := some e.path, group := some env.options }
  have hbuild : build m e.path = .ok m' := build_of_hasGroup m he
  have hm' : Consistent rt context.packageName m' := by
    rw [hcontext]
    exact ⟨fun path hpath => ⟨_, Option.some.inj hpath ▸ he, rfl⟩, hm.groups, hm.paths⟩
  have hfind : (findBean rt context m').1 =
      (beansIn elements env.options).reverse.find? (·.path = e.path) := by
    rw [(hm'.findBean rfl he).1, hcontext, h.routeOf hrt]
  rw [Reaches, hbuild]
  simp only [Except.ok.injEq, exists_eq_left', hfind]

theorem bean_group_eq_iff {env : ProcessingEnv} {e : Element} (he : HasGroup e.path env.options) :
    e.bean.group = env.options ↔ InModuleGroup env e := by
  rw [Element.bean_group he, effectiveGroup, InModuleGroup]
  by_cases hgroup : e.group = []
  · simp [hgroup]
  · simp [hgroup]

theorem mem_beansIn {elements : List Element} {g : Str} {bean : RouterBean} :
    bean ∈ beansIn elements g ↔ ∃ d ∈ elements, d.bean.group = g ∧ d.bean = bean := by
  rw [beansIn, List.mem_filter, List.mem_map]
  constructor
  · rintro ⟨⟨d, hd, rfl⟩, hg⟩
    exact ⟨d, hd, of_decide_eq_true hg, rfl⟩
  · rintro ⟨d, hd, hg, rfl⟩
    exact ⟨⟨d, hd, rfl⟩, decide_eq_true hg⟩

theorem isBeanOf_bean {e : Element} (he : e.Valid) : IsBeanOf e e.bean := by
  refine ⟨rfl, ?_⟩
  obtain ⟨type, htype⟩ := Option.ne_none_iff_exists'.mp he.typed
  simp [Element.bean, htype]

section

variable {pre post : List Element} {e : Element} {g : Str}

/-- Among distinct classes, the last bean with the path is one of `e` exactly when
`e` is filed in the group and nothing after it has its path. -/
theorem find?_isBeanOf_iff (hset : ((pre ++ e :: post).map Element.className).Nodup)
    (he : e.Valid) :
    (∃ bean, (beansIn (pre ++ e :: post) g).reverse.find? (·.path = e.path) = some bean ∧
        IsBeanOf e bean) ↔
      e.bean.group = g ∧ ∀ d ∈ post, d.bean.group = g → d.path ≠ e.path := by
  have hother : ∀ d ∈ pre ++ e :: post, d.className = e.className → d = e := fun d hd hname =>
    List.inj_on_of_nodup_map hset hd (by simp) hname
  have hpost : e ∉ post := by
    have hnodup := (List.nodup_append.mp (List.Nodup.of_map _ hset)).2.1
    exact (List.nodup_cons.mp hnodup).1
  have hsplit : (beansIn (pre ++ e :: post) g).reverse =
      (beansIn post g).reverse ++ (beansIn (pre ++ [e]) g).reverse := by
    rw [← List.reverse_append, beansIn, beansIn, beansIn, ← List.filter_append, ← List.map_append]
    simp
  constructor
  · rintro ⟨bean, hfind, hname, -⟩
    obtain ⟨d, hd, hgroup, rfl⟩ :=
      mem_beansIn.mp (List.mem_reverse.mp (List.mem_of_find?_eq_some hfind))
    obtain rfl := hother d hd hname
    refine ⟨hgroup, fun d' hd' hgroup' hpath => ?_⟩
    -- a later bean with the path would have been found first
    have hmem : d'.bean ∈ (beansIn post g).reverse :=
      List.mem_reverse.mpr (mem_beansIn.mpr ⟨d', hd', hgroup', rfl⟩)
    cases hlater : (beansIn post g).reverse.find? (·.path = d.path) with
    | none =>
        have hne := List.find?_eq_none.mp hlater d'.bean hmem
        exact hne (decide_eq_true hpath)
    | some bean =>
        rw [hsplit, List.find?_append, hlater] at hfind
        obtain ⟨d'', hd'', -, hbean⟩ :=
          mem_beansIn.mp (List.mem_reverse.mp (List.mem_of_find?_eq_some hlater))
        have heq : d'' = d := by
          apply hother d'' (by simp [hd''])
          rw [← show d''.bean.myClass = d''.className from rfl, hbean, Option.some.inj hfind]
          rfl
        exact hpost (heq ▸ hd'')
  · rintro ⟨hgroup, hlater⟩
    refine ⟨e.bean, ?_, isBeanOf_bean he⟩
    have hnone : (beansIn post g).reverse.find? (·.path = e.path) = none := by
      rw [List.find?_eq_none]
      intro bean hbean
      obtain ⟨d, hd, hg, rfl⟩ := mem_beansIn.mp (List.mem_reverse.mp hbean)
      exact fun hpath => hlater d hd hg (of_decide_eq_true hpath)
    have hlast : (beansIn (pre ++ [e]) g).reverse = e.bean :: (beansIn pre g).reverse := by
      rw [beansIn, List.map_append, List.filter_append, List.reverse_append]
      simp [beansIn, hgroup]
    rw [hsplit, List.find?_append, hnone, Option.none_or, hlast]
    exact List.find?_cons_of_pos (decide_eq_true rfl)

end

/-- Registration and routing agree on a class exactly when its annotation names no
other group and no later class of the module's group has its path. -/
theorem reaches_iff (env : ProcessingEnv) (henv : env.filer = createOnce)
    (pre post : List Element) (e : Element) (s : ProcessorState)
    (hprocess : process env {} (pre ++ e :: post) = .ok s) (haccepted : s.errors = [])
    (hset : ((pre ++ e :: post).map Element.className).Nodup)
    (hmodule : ∀ d ∈ pre ++ e :: post, HasGroup d.path env.options)
    (rt : Runtime) (hrt : Loads rt env s)
    (context : Context) (hcontext : context.packageName = env.aptPackage)
    (ops : List Op) (hops : ∀ op ∈ ops, InPackage env.aptPackage op) :
    Reaches rt context (run rt {} ops) e ↔
      InModuleGroup env e ∧ ∀ d ∈ post, InModuleGroup env d → d.path ≠ e.path := by
  have hvalid : ∀ d ∈ pre ++ e :: post, d.Valid := (errors_process hprocess).mp haccepted
  obtain ⟨s', hround⟩ := exists_firstRound henv (by simp) hvalid
  obtain rfl : s' = s := Except.ok.inj (hround.processed.symm.trans hprocess)
  have he : e ∈ pre ++ e :: post := by simp
  have hpost : ∀ d ∈ post, (d.bean.group = env.options ↔ InModuleGroup env d) := fun d hd =>
    bean_group_eq_iff (hmodule d (by simp [hd]))
  have hm : Consistent rt env.aptPackage (run rt {} ops) := (consistent_initial _ _).run hops
  rw [hround.reaches_iff_find? hrt hcontext hm (hmodule e he),
    find?_isBeanOf_iff hset (hvalid e he), bean_group_eq_iff (hmodule e he)]
  apply and_congr_right'
  apply forall₂_congr
  intro d hd
  rw [hpost d hd]

/-- The two Activities of the application module: the first is reached, whatever
ran before within the package. -/
theorem reaches_mainActivity :
    ∃ s, process appModule {} [mainActivity, batteryActivity] = .ok s ∧
      Reaches (.loading appModule s) ⟨appModule.aptPackage⟩
        (run (.loading appModule s) {} [.build batteryActivity.path,
          .navigation ⟨appModule.aptPackage⟩]) mainActivity := by
  have hvalid : ∀ e ∈ [] ++ mainActivity :: [batteryActivity], e.Valid := by
    simpa using ⟨mainActivity_valid, batteryActivity_valid⟩
  obtain ⟨s, hround⟩ := exists_firstRound (show appModule.filer = createOnce from rfl)
    (show [] ++ mainActivity :: [batteryActivity] ≠ [] by simp) hvalid
  refine ⟨s, hround.processed, ?_⟩
  refine (reaches_iff appModule rfl [] [batteryActivity] mainActivity s hround.processed
    ((errors_process hround.processed).mpr hvalid) (by decide) ?_ _ (fun _ => rfl) _ rfl _ ?_).mpr ?_
  · simpa using ⟨mainActivity_hasGroup, batteryActivity_hasGroup⟩
  · simp [InPackage]
  · refine ⟨Or.inr rfl, fun d hd _ => ?_⟩
    obtain rfl := List.mem_singleton.mp hd
    decide

/-- `MainActivity` annotated with a group of its own. -/
def regroupedActivity : Element := { mainActivity with group := "user".toList }

/-- A class whose annotation names another group is filed where nobody looks. -/
theorem not_reaches_regroupedActivity :
    ¬ ∀ (env : ProcessingEnv) (elements : List Element) (s : ProcessorState) (rt : Runtime)
        (context : Context), env.filer = createOnce → process env {} elements = .ok s →
        s.errors = [] → (elements.map Element.className).Nodup →
        (∀ e ∈ elements, HasGroup e.path env.options) → Loads rt env s →
        context.packageName = env.aptPackage → ∀ e ∈ elements, Reaches rt context {} e := by
  intro hlaw
  have hgroup : HasGroup regroupedActivity.path appModule.options := mainActivity_hasGroup
  have hvalid : ∀ e ∈ [regroupedActivity], e.Valid := by
    intro e he
    obtain rfl := List.mem_singleton.mp he
    exact ⟨by decide, _, hgroup⟩
  obtain ⟨s, hround⟩ := exists_firstRound (show appModule.filer = createOnce from rfl)
    (show [regroupedActivity] ≠ [] by simp) hvalid
  have hreaches := hlaw appModule [regroupedActivity] s (.loading appModule s)
    ⟨appModule.aptPackage⟩ rfl hround.processed ((errors_process hround.processed).mpr hvalid)
    (by decide) (by simpa using hgroup) (fun _ => rfl) rfl regroupedActivity (by simp)
  obtain ⟨bean, hbean, -⟩ :=
    (hround.reaches_iff_find? (fun _ => rfl) rfl (consistent_initial _ _) hgroup).mp hreaches
  have hnone : beansIn [regroupedActivity] appModule.options = [] := by decide
  rw [hnone] at hbean
  cases hbean

end StudyNotes.Router
