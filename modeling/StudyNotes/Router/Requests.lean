/-
# Requests on the shared singleton

A request is a chain `build(p)`, some `with*` calls, `navigation(ctx)`.  The path
and the group are replaced by every `build`, the bundle by nobody: extras pile up
over the life of the singleton, so a request sends exactly its own extras when it
overwrites every key that an earlier one left behind.  Two callers whose chains
interleave share all three fields, and each acts on its own route exactly when
the other's calls are overtaken or agree with its own.
-/

import StudyNotes.Lib.Run
import StudyNotes.Router.Manager

namespace StudyNotes.Router

open StudyNotes.Text StudyNotes.Run

/-- One use of the fluent API. -/
structure Request where
  path : Str
  calls : List WithCall
  context : Context

/-- The keys a request sets. -/
def Request.keys (r : Request) : List Str := r.calls.map WithCall.key

/-- The extras a request gives, the last value winning for a repeated key. -/
def Request.extras (r : Request) : Bundle := putAll .empty r.calls

/-- `build` returns on this path. -/
def accepts (path : Str) : Bool :=
  match build {} path with
  | .ok _ => true
  | .error _ => false

theorem accepts_iff {path : Str} : accepts path = true ↔ ∃ g, HasGroup path g := by
  rw [← @exists_build_iff {} path, accepts]
  cases build {} path with
  | ok m => simp
  | error e => simp

/-! ## One request after the other -/

/-- A whole request: a `build` that throws ends it. -/
def request (rt : Runtime) (m : RouterManager) (r : Request) :
    Except JavaException Navigation × RouterManager :=
  match build m r.path with
  | .error e => (.error e, m)
  | .ok m =>
    match navigation rt r.context (r.calls.foldl withExtra m) with
    | (outcome, m) => (.ok outcome, m)

/-- The singleton after a sequence of requests. -/
def serve (rt : Runtime) (m : RouterManager) (rs : List Request) : RouterManager :=
  rs.foldl (fun m r => (request rt m r).2) m

theorem bundle_foldl_withExtra (calls : List WithCall) (m : RouterManager) :
    (calls.foldl withExtra m).bundle = putAll m.bundle calls := by
  induction calls generalizing m with
  | nil => rfl
  | cons c calls ih => rw [List.foldl_cons, ih, putAll_cons, withExtra]

theorem request_of_refused (rt : Runtime) (m : RouterManager) {r : Request}
    (h : accepts r.path = false) : (request rt m r).2 = m := by
  rw [request]
  cases hbuild : build m r.path with
  | error e => rfl
  | ok m' =>
      have hgroup := exists_build_iff.mp ⟨m', hbuild⟩
      rw [accepts_iff.mpr hgroup] at h
      cases h

theorem bundle_request (rt : Runtime) (m : RouterManager) {r : Request}
    (h : accepts r.path = true) : (request rt m r).2.bundle = putAll m.bundle r.calls := by
  obtain ⟨g, hg⟩ := accepts_iff.mp h
  rw [request, build_of_hasGroup m hg]
  dsimp only
  rw [navigation_snd, (findBean_sameRequest _ _ _).bundle, bundle_foldl_withExtra]

/-- The extras of the Intent a request starts. -/
theorem extras_of_request {rt : Runtime} {m : RouterManager} {r : Request} {target : Str}
    {extras : Bundle} (h : (request rt m r).1 = .ok (.startActivity target extras)) :
    extras = putAll m.bundle r.calls := by
  rw [request] at h
  cases hbuild : build m r.path with
  | error e =>
      rw [hbuild] at h
      cases h
  | ok m' =>
      obtain ⟨g, hg⟩ := exists_build_iff.mp ⟨m', hbuild⟩
      rw [build_of_hasGroup m hg] at hbuild h
      rw [extras_of_navigation rt r.context _ (Except.ok.inj h), bundle_foldl_withExtra]

/-- A key is in the bundle once an accepted request has set it, and stays there. -/
theorem bundle_serve_ne_none_iff (rt : Runtime) (rs : List Request) (k : Str) :
    (serve rt {} rs).bundle k ≠ none ↔ ∃ q ∈ rs, accepts q.path = true ∧ k ∈ q.keys := by
  induction rs using List.reverseRecOn with
  | nil => simp [serve, Bundle.empty]
  | append_singleton rs r ih =>
      rw [serve, List.foldl_append, List.foldl_cons, List.foldl_nil, ← serve]
      cases hr : accepts r.path with
      | false =>
          rw [request_of_refused rt _ hr, ih]
          simp [or_and_right, exists_or, hr]
      | true =>
          rw [bundle_request rt _ hr]
          by_cases hk : k ∈ r.keys
          · rw [putAll_of_mem _ .empty hk]
            simp [putAll_empty_ne_none_iff.mpr hk, or_and_right, exists_or, hr, hk]
          · rw [putAll_of_notMem _ hk, ih]
            simp [or_and_right, exists_or, hk]

/-- Extras on top of a bundle are just the given ones exactly when every key of the
bundle is overwritten. -/
theorem putAll_eq_putAll_empty_iff {bundle : Bundle} {calls : List WithCall} :
    putAll bundle calls = putAll .empty calls ↔
      ∀ k, bundle k ≠ none → k ∈ calls.map WithCall.key := by
  constructor
  · intro h k hk
    by_contra hnot
    have happ := congrFun h k
    rw [putAll_of_notMem _ hnot, putAll_of_notMem _ hnot] at happ
    exact hk happ
  · intro h
    funext k
    by_cases hk : k ∈ calls.map WithCall.key
    · exact putAll_of_mem _ _ hk
    · rw [putAll_of_notMem _ hk, putAll_of_notMem _ hk]
      by_contra hne
      exact hk (h k hne)

/-- After the earlier requests, `r` starts an Activity with these extras. -/
def StartsWith (rt : Runtime) (earlier : List Request) (r : Request) (extras : Bundle) : Prop :=
  ∃ target, (request rt (serve rt {} earlier) r).1 = .ok (.startActivity target extras)

/-- The Intent of `r`, if it starts one, has the extras of `r`. -/
def SendsOwnExtras (rt : Runtime) (earlier : List Request) (r : Request) : Prop :=
  ∀ extras, StartsWith rt earlier r extras → extras = r.extras

/-- Every key that an earlier accepted request has set is set again. -/
def OverwritesEarlier (earlier : List Request) (r : Request) : Prop :=
  ∀ q ∈ earlier, accepts q.path = true → ∀ k ∈ q.keys, k ∈ r.keys

theorem extras_eq_iff {rt : Runtime} {earlier : List Request} {r : Request} {extras : Bundle}
    (h : StartsWith rt earlier r extras) :
    extras = r.extras ↔ OverwritesEarlier earlier r := by
  obtain ⟨target, htarget⟩ := h
  rw [extras_of_request htarget, Request.extras, putAll_eq_putAll_empty_iff]
  simp only [bundle_serve_ne_none_iff]
  constructor
  · intro hkeys q hq haccepts k hk
    exact hkeys k ⟨q, hq, haccepts, hk⟩
  · rintro hkeys k ⟨q, hq, haccepts, hk⟩
    exact hkeys q hq haccepts k hk

/-- Over a whole run, every started Intent has the extras of its own request
exactly when every request that starts one overwrites all the keys left behind. -/
theorem everyRequest_sendsOwnExtras_iff (rt : Runtime) (rs : List Request) :
    EveryStep (SendsOwnExtras rt) rs ↔
      EveryStep (fun earlier r => (∃ extras, StartsWith rt earlier r extras) →
        OverwritesEarlier earlier r) rs := by
  apply forall₃_congr
  intro earlier r _
  constructor
  · rintro hown ⟨extras, hextras⟩
    exact (extras_eq_iff hextras).mp (hown extras hextras)
  · intro hkeys extras hextras
    exact (extras_eq_iff hextras).mpr (hkeys ⟨extras, hextras⟩)

/-- An application with one Activity in its table. -/
def oneActivity : Runtime where
  forName := fun name =>
    if name = "app.ARouter$$Group$$app".toList then
      some (.group "ARouter$$Group$$app".toList
        [("app".toList, "app.ARouter$$Path$$app".toList)])
    else if name = "app.ARouter$$Path$$app".toList then
      some (.path "ARouter$$Path$$app".toList
        [("/app/Main".toList, ⟨.activity, "Main".toList, "/app/Main".toList, "app".toList⟩)])
    else none
  instantiable := fun _ => true

def plainRequest : Request := ⟨"/app/Main".toList, [], ⟨"app".toList⟩⟩

def userRequest : Request := { plainRequest with calls := [.withInt "user".toList 7] }

theorem plainRequest_startsWith :
    StartsWith oneActivity [userRequest] plainRequest
      (serve oneActivity {} [userRequest]).bundle :=
  ⟨"Main".toList, rfl⟩

/-- A request without extras sends those of the request before it. -/
theorem not_everyRequest_sendsOwnExtras :
    ¬ ∀ (rt : Runtime) (rs : List Request), EveryStep (SendsOwnExtras rt) rs := by
  intro hlaw
  have hown := hlaw oneActivity [userRequest, plainRequest] [userRequest] plainRequest
    (List.prefix_refl _)
  have hkeys := (extras_eq_iff plainRequest_startsWith).mp (hown _ plainRequest_startsWith)
  exact absurd (hkeys userRequest (by simp) (by decide) "user".toList (by decide)) (by decide)

/-! ## Two callers at once -/

/-- The calls a request makes: its chain ends where `build` throws. -/
def Request.chain (r : Request) : List Op :=
  if accepts r.path then
    .build r.path :: r.calls.map .withExtra ++ [.navigation r.context]
  else [.build r.path]

/-- The calls of two callers, `false` and `true`, merged into one sequence: each
caller's calls are those of its request, in order. -/
def Interleaves (requests : Bool → Request) (schedule : List (Bool × Op)) : Prop :=
  ∀ i, (schedule.filter (·.1 = i)).map Prod.snd = (requests i).chain

/-- `navigation` on `m` acts on the request's path and carries its extras.  It
reads nothing but the fields of the manager. -/
structure ActsOn (r : Request) (m : RouterManager) : Prop where
  path : m.path = some r.path
  extras : ∀ k ∈ r.keys, m.bundle k = r.extras k

/-- The last accepted `build` before this point. -/
def LastBuild (calls : List (Bool × Op)) (i : Bool) (path : Str) : Prop :=
  ∃ before after, calls = before ++ (i, .build path) :: after ∧ accepts path = true ∧
    ∀ x ∈ after, ∀ path', x.2 = .build path' → accepts path' = false

/-- The last `with*` call that stored under its key before this point. -/
def LastStore (calls : List (Bool × Op)) (i : Bool) (c : WithCall) : Prop :=
  ∃ before after, calls = before ++ (i, .withExtra c) :: after ∧
    ∀ x ∈ after, ∀ c', x.2 = .withExtra c' → c'.key ≠ c.key

/-- Where the other caller was the last to build, or to store under one of the
request's keys, it gave the same path or value. -/
structure Undisturbed (i : Bool) (r : Request) (calls : List (Bool × Op)) : Prop where
  path : ∀ path, LastBuild calls (!i) path → path = r.path
  extras : ∀ c, LastStore calls (!i) c → c.key ∈ r.keys → r.extras c.key = some c.value

section Interleaving

variable (rt : Runtime)

/-- Only an accepted `build` moves the path. -/
theorem path_step (m : RouterManager) {op : Op}
    (h : ∀ path, op = .build path → accepts path = false) : (step rt m op).path = m.path := by
  cases op with
  | build path =>
      rw [step_build_of_refused rt m]
      rw [← accepts_iff, h path rfl]
      exact Bool.false_ne_true
  | withExtra c => rfl
  | navigation context => exact (step_navigation_sameRequest rt m context).path

/-- Only a `with*` call on a key changes what is stored there. -/
theorem bundle_step (m : RouterManager) {op : Op} {k : Str}
    (h : ∀ c, op = .withExtra c → c.key ≠ k) : (step rt m op).bundle k = m.bundle k := by
  cases op with
  | build path =>
      by_cases hpath : ∃ g, HasGroup path g
      · obtain ⟨g, hg⟩ := hpath
        rw [step_build_of_hasGroup rt m hg]
      · rw [step_build_of_refused rt m hpath]
  | withExtra c => exact Bundle.put_of_ne _ (h c rfl).symm _
  | navigation context => rw [(step_navigation_sameRequest rt m context).bundle]

theorem path_run (m : RouterManager) {ops : List Op}
    (h : ∀ op ∈ ops, ∀ path, op = .build path → accepts path = false) :
    (run rt m ops).path = m.path := by
  induction ops generalizing m with
  | nil => rfl
  | cons op ops ih =>
      rw [run, List.foldl_cons, ← run, ih _ fun x hx => h x (List.mem_cons_of_mem _ hx)]
      exact path_step rt m (h op List.mem_cons_self)

theorem bundle_run (m : RouterManager) {ops : List Op} {k : Str}
    (h : ∀ op ∈ ops, ∀ c, op = .withExtra c → c.key ≠ k) :
    (run rt m ops).bundle k = m.bundle k := by
  induction ops generalizing m with
  | nil => rfl
  | cons op ops ih =>
      rw [run, List.foldl_cons, ← run, ih _ fun x hx => h x (List.mem_cons_of_mem _ hx)]
      exact bundle_step rt m (h op List.mem_cons_self)

theorem run_append_cons (m : RouterManager) (before after : List (Bool × Op)) (x : Bool × Op) :
    run rt m ((before ++ x :: after).map Prod.snd) =
      run rt (step rt (run rt m (before.map Prod.snd)) x.2) (after.map Prod.snd) := by
  simp [run]

variable {calls : List (Bool × Op)} {i : Bool}

/-- The last accepted `build` decides the path. -/
theorem LastBuild.path_run {path : Str} (h : LastBuild calls i path) (m : RouterManager) :
    (run rt m (calls.map Prod.snd)).path = some path := by
  obtain ⟨before, after, rfl, haccepts, hafter⟩ := h
  obtain ⟨g, hg⟩ := accepts_iff.mp haccepts
  rw [run_append_cons, Router.path_run, step_build_of_hasGroup _ _ hg]
  intro op hop path' hpath'
  obtain ⟨x, hx, rfl⟩ := List.mem_map.mp hop
  exact hafter x hx path' hpath'

/-- The last store under a key decides its value. -/
theorem LastStore.bundle_run {c : WithCall} (h : LastStore calls i c) (m : RouterManager) :
    (run rt m (calls.map Prod.snd)).bundle c.key = some c.value := by
  obtain ⟨before, after, rfl, hafter⟩ := h
  rw [run_append_cons, Router.bundle_run]
  · exact Bundle.put_same _ _ _
  · intro op hop c' hc'
    obtain ⟨x, hx, rfl⟩ := List.mem_map.mp hop
    exact hafter x hx c' hc'

theorem LastBuild.filter {path : Str} (h : LastBuild calls i path) :
    LastBuild (calls.filter (·.1 = i)) i path := by
  obtain ⟨before, after, rfl, haccepts, hafter⟩ := h
  refine ⟨before.filter (·.1 = i), after.filter (·.1 = i), ?_, haccepts, ?_⟩
  · rw [List.filter_append, List.filter_cons_of_pos (by simp)]
  · exact fun x hx => hafter x (List.mem_filter.mp hx).1

theorem LastStore.filter {c : WithCall} (h : LastStore calls i c) :
    LastStore (calls.filter (·.1 = i)) i c := by
  obtain ⟨before, after, rfl, hafter⟩ := h
  refine ⟨before.filter (·.1 = i), after.filter (·.1 = i), ?_, ?_⟩
  · rw [List.filter_append, List.filter_cons_of_pos (by simp)]
  · exact fun x hx => hafter x (List.mem_filter.mp hx).1

/-- Where a path was accepted, some caller made the last accepted `build`. -/
theorem exists_lastBuild {path : Str} (hpath : accepts path = true)
    (hmem : .build path ∈ calls.map Prod.snd) : ∃ i path', LastBuild calls i path' := by
  obtain ⟨x, hx, hxop⟩ := List.mem_map.mp hmem
  obtain ⟨before, ⟨i, op⟩, after, rfl, ⟨path', rfl, haccepts⟩, hafter⟩ :=
    exists_last (P := fun y : Bool × Op => ∃ path', y.2 = .build path' ∧ accepts path' = true)
      ⟨x, hx, path, hxop, hpath⟩
  refine ⟨i, path', before, after, rfl, haccepts, fun y hy p hp => ?_⟩
  exact Bool.eq_false_iff.mpr fun htrue => hafter y hy ⟨p, hp, htrue⟩

/-- Where a key was set, some caller made the last store under it. -/
theorem exists_lastStore {c : WithCall} (hmem : .withExtra c ∈ calls.map Prod.snd) :
    ∃ i c', LastStore calls i c' ∧ c'.key = c.key := by
  obtain ⟨x, hx, hxop⟩ := List.mem_map.mp hmem
  obtain ⟨before, ⟨i, op⟩, after, rfl, ⟨c', rfl, hkey⟩, hafter⟩ :=
    exists_last (P := fun y : Bool × Op => ∃ c', y.2 = .withExtra c' ∧ c'.key = c.key)
      ⟨x, hx, c, hxop, rfl⟩
  refine ⟨i, c', ⟨before, after, rfl, fun y hy d hd heq => ?_⟩, hkey⟩
  exact hafter y hy ⟨d, hd, heq.trans hkey⟩

/-- The calls of a request before its `navigation`. -/
def Request.beforeNavigation (r : Request) : List Op := .build r.path :: r.calls.map .withExtra

theorem run_beforeNavigation {r : Request} (h : accepts r.path = true) :
    (run rt {} r.beforeNavigation).path = some r.path ∧
      (run rt {} r.beforeNavigation).bundle = r.extras := by
  obtain ⟨g, hg⟩ := accepts_iff.mp h
  have hfold : ∀ m : RouterManager, run rt m (r.calls.map .withExtra) = r.calls.foldl withExtra m :=
    fun m => List.foldl_map
  rw [Request.beforeNavigation, run, List.foldl_cons, ← run, step_build_of_hasGroup rt _ hg]
  refine ⟨?_, ?_⟩
  · rw [Router.path_run]
    intro op hop path hpath
    obtain ⟨c, -, rfl⟩ := List.mem_map.mp hop
    cases hpath
  · rw [hfold, bundle_foldl_withExtra]
    rfl

/-- What precedes the only navigation of a list. -/
theorem eq_of_append_navigation {xs ys zs : List Op} {context context' : Context}
    (hzs : ∀ op ∈ zs, ∀ c, op ≠ .navigation c)
    (h : xs ++ .navigation context :: ys = zs ++ [.navigation context']) : xs = zs := by
  induction zs generalizing xs with
  | nil =>
      cases xs with
      | nil => rfl
      | cons x xs => simp at h
  | cons z zs ih =>
      cases xs with
      | nil =>
          obtain ⟨hhead, -⟩ := List.cons.inj h
          exact absurd hhead.symm (hzs z (by simp) context)
      | cons x xs =>
          obtain ⟨rfl, htail⟩ := List.cons.inj h
          rw [ih (fun op hop => hzs op (by simp [hop])) htail]

/-- A caller that navigates was accepted and has made all its other calls. -/
theorem Interleaves.before {requests : Bool → Request} {pre post : List (Bool × Op)}
    {context : Context}
    (h : Interleaves requests (pre ++ (i, .navigation context) :: post)) :
    accepts (requests i).path = true ∧
      (pre.filter (·.1 = i)).map Prod.snd = (requests i).beforeNavigation := by
  have hcalls := h i
  rw [List.filter_append, List.filter_cons_of_pos (by simp), List.map_append, List.map_cons,
    Request.chain] at hcalls
  split at hcalls
  · rename_i haccepts
    have hown : ∀ op ∈ (requests i).beforeNavigation, ∀ c, op ≠ .navigation c := by
      intro op hop c hc
      rw [hc, Request.beforeNavigation] at hop
      simp at hop
    exact ⟨haccepts, eq_of_append_navigation hown hcalls⟩
  · -- a chain that ends at its `build` has no navigation
    have hmem : Op.navigation context ∈ [Op.build (requests i).path] := by
      rw [← hcalls]
      simp
    simp at hmem

end Interleaving

/-- In every interleaving of two requests, a navigation acts on its caller's route
and carries its extras exactly when the other caller did not disturb it. -/
theorem actsOn_iff_undisturbed (rt : Runtime) (m : RouterManager) (requests : Bool → Request)
    (schedule : List (Bool × Op)) (hschedule : Interleaves requests schedule)
    (pre post : List (Bool × Op)) (i : Bool) (context : Context)
    (hsplit : schedule = pre ++ (i, .navigation context) :: post) :
    ActsOn (requests i) (run rt m (pre.map Prod.snd)) ↔ Undisturbed i (requests i) pre := by
  subst hsplit
  obtain ⟨haccepts, hown⟩ := hschedule.before
  obtain ⟨hownPath, hownBundle⟩ := run_beforeNavigation rt haccepts
  have hmem : ∀ op ∈ (requests i).beforeNavigation, op ∈ pre.map Prod.snd := by
    intro op hop
    rw [← hown] at hop
    exact List.map_subset _ (List.filter_subset_self _) hop
  constructor
  · intro hacts
    refine ⟨fun path hlast => ?_, fun c hlast hkey => ?_⟩
    · exact Option.some.inj ((hlast.path_run rt m).symm.trans hacts.path)
    · rw [← hacts.extras c.key hkey, hlast.bundle_run rt m]
  · intro hfree
    refine ⟨?_, fun k hk => ?_⟩
    · obtain ⟨j, path, hlast⟩ :=
        exists_lastBuild haccepts (hmem _ (by simp [Request.beforeNavigation]))
      rw [hlast.path_run rt m]
      by_cases hj : j = i
      · subst hj
        have hrun := hlast.filter.path_run rt {}
        rw [hown, hownPath] at hrun
        exact hrun.symm
      · obtain rfl : j = !i := Bool.eq_not.mpr hj
        rw [hfree.path path hlast]
    · obtain ⟨c₀, hc₀, rfl⟩ := List.mem_map.mp hk
      obtain ⟨j, c, hlast, hkey⟩ := exists_lastStore (hmem (.withExtra c₀)
        (by simp [Request.beforeNavigation, hc₀]))
      rw [← hkey, hlast.bundle_run rt m]
      by_cases hj : j = i
      · subst hj
        have hrun := hlast.filter.bundle_run rt {}
        rw [hown, hownBundle] at hrun
        exact hrun.symm
      · obtain rfl : j = !i := Bool.eq_not.mpr hj
        exact (hfree.extras c hlast (hkey ▸ hk)).symm

/-- Caller `false` asks for a path with an extra, caller `true` for another. -/
def twoRequests : Bool → Request
  | false => userRequest
  | true => { plainRequest with path := "/order/List".toList }

/-- The calls before the navigation of caller `false`, the other chain being over. -/
def oneByOne : List (Bool × Op) :=
  [(true, .build "/order/List".toList), (true, .navigation ⟨"app".toList⟩),
    (false, .build "/app/Main".toList), (false, .withExtra (.withInt "user".toList 7))]

/-- A chain that starts after the other one has ended is not disturbed. -/
theorem actsOn_oneByOne : ActsOn userRequest (run oneActivity {} (oneByOne.map Prod.snd)) := by
  refine (actsOn_iff_undisturbed oneActivity {} twoRequests
    (oneByOne ++ [(false, .navigation ⟨"app".toList⟩)]) ?_ oneByOne [] false ⟨"app".toList⟩ rfl).mpr
    ?_
  · intro i
    cases i <;> rfl
  · refine ⟨fun path hlast => ?_, fun c hlast _ => ?_⟩
    · have hrun := hlast.path_run oneActivity {}
      exact Option.some.inj (hrun.symm.trans rfl)
    · obtain ⟨before, after, hsplit, -⟩ := hlast
      have hmem : (true, Op.withExtra c) ∈ oneByOne := by
        rw [hsplit]
        simp
      simp [oneByOne] at hmem

/-- With one `build` between another and its navigation, the navigation acts on the
other caller's path. -/
theorem not_actsOn_overtaken :
    ¬ ∀ (rt : Runtime) (m : RouterManager) (requests : Bool → Request)
        (schedule : List (Bool × Op)), Interleaves requests schedule →
        ∀ pre post i context, schedule = pre ++ (i, .navigation context) :: post →
          ActsOn (requests i) (run rt m (pre.map Prod.snd)) := by
  intro hlaw
  have hacts := hlaw oneActivity {} twoRequests
    [(false, .build userRequest.path), (false, .withExtra (.withInt "user".toList 7)),
      (true, .build "/order/List".toList), (false, .navigation ⟨"app".toList⟩),
      (true, .navigation ⟨"app".toList⟩)] (fun i => by cases i <;> rfl)
    [(false, .build userRequest.path), (false, .withExtra (.withInt "user".toList 7)),
      (true, .build "/order/List".toList)] [(true, .navigation ⟨"app".toList⟩)] false
    ⟨"app".toList⟩ rfl
  exact absurd hacts.path (by decide)

end StudyNotes.Router
