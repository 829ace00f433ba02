/-
# Several processing rounds

The processor keeps its maps over rounds, but a class can be created once and the
refusal of the `Filer` is swallowed.  The first round with annotated elements
therefore fixes the Group class and the Path classes of its groups, and later
elements are lost.  The route tables agree with those of a single round exactly
when at most one round has elements.
-/

import StudyNotes.Router.Tables

namespace StudyNotes.Router

open StudyNotes.Text

/-- The rounds of one compilation. -/
def processRounds (env : ProcessingEnv) (s : ProcessorState) (rounds : List (List Element)) :
    Except JavaException ProcessorState :=
  rounds.foldlM (process env) s

/-- Two sets of generated classes hold the same tables. -/
structure SameTables (env : ProcessingEnv) (files files' : List JavaFile) : Prop where
  group : groupTable files env.options = groupTable files' env.options
  path : ∀ g, pathTable files g = pathTable files' g

/-- Spreading the elements over rounds ends with the tables of a single round. -/
def RoundsAgree (env : ProcessingEnv) (rounds : List (List Element)) : Prop :=
  ∃ s t, processRounds env {} rounds = .ok s ∧ process env {} rounds.flatten = .ok t ∧
    SameTables env s.files t.files

/-! ## Classes are written once -/

theorem prefix_files_createPathFile {env : ProcessingEnv} (henv : env.filer = createOnce)
    (s : ProcessorState) : s.files <+: (createPathFile env s).files := by
  have hkeys : (env.pathOrder.arrange s.mAllPathMap.entries).NodupKeys :=
    (List.perm_nodupKeys (env.pathOrder.perm _)).mpr s.mAllPathMap.nodupKeys
  rw [createPathFile, files_writePathFiles henv _ hkeys]
  exact List.prefix_append _ _

theorem prefix_files_createGroupFile {env : ProcessingEnv} (henv : env.filer = createOnce)
    (s : ProcessorState) : s.files <+: (createGroupFile env s).files := by
  rw [createGroupFile_of_createOnce henv]
  split_ifs
  · exact List.prefix_refl _
  · exact List.prefix_refl _
  · exact List.prefix_append _ _

/-- A round of valid elements succeeds and leaves every existing class alone. -/
theorem exists_process_prefix {env : ProcessingEnv} (henv : env.filer = createOnce)
    (s : ProcessorState) {elements : List Element} (hvalid : ∀ e ∈ elements, e.Valid) :
    ∃ s', process env s elements = .ok s' ∧ s.files <+: s'.files := by
  cases elements with
  | nil => exact ⟨s, rfl, List.prefix_refl _⟩
  | cons e elements =>
      let filed' := ((e :: elements).map Element.bean).foldl fileBean s
      refine ⟨createGroupFile env (createPathFile env filed'), ?_, ?_⟩
      · rw [process, foldlM_processElement _ hvalid]
        rfl
      · have hfiles : s.files = filed'.files := (files_foldl_fileBean _ _).symm
        rw [hfiles]
        exact (prefix_files_createPathFile henv _).trans (prefix_files_createGroupFile henv _)

theorem exists_processRounds_prefix {env : ProcessingEnv} (henv : env.filer = createOnce)
    (rounds : List (List Element)) (s : ProcessorState)
    (hvalid : ∀ r ∈ rounds, ∀ e ∈ r, e.Valid) :
    ∃ s', processRounds env s rounds = .ok s' ∧ s.files <+: s'.files := by
  induction rounds generalizing s with
  | nil => exact ⟨s, rfl, List.prefix_refl _⟩
  | cons r rounds ih =>
      obtain ⟨s₁, hround, hbegins₁⟩ := exists_process_prefix henv s (hvalid r (by simp))
      obtain ⟨s', hrounds, hbegins⟩ := ih s₁ fun r' hr' => hvalid r' (by simp [hr'])
      refine ⟨s', ?_, hbegins₁.trans hbegins⟩
      rw [processRounds, List.foldlM_cons, hround]
      exact hrounds

/-! ## Rounds without elements -/

theorem processRounds_filter (env : ProcessingEnv) (rounds : List (List Element))
    (s : ProcessorState) :
    processRounds env s (rounds.filter (!·.isEmpty)) = processRounds env s rounds := by
  induction rounds generalizing s with
  | nil => rfl
  | cons r rounds ih =>
      cases r with
      | nil => exact ih s
      | cons e r =>
          rw [List.filter_cons_of_pos (by simp), processRounds, processRounds,
            List.foldlM_cons, List.foldlM_cons]
          congr 1
          funext s'
          exact ih s'

theorem flatten_filter (rounds : List (List Element)) :
    (rounds.filter (!·.isEmpty)).flatten = rounds.flatten := by
  induction rounds with
  | nil => rfl
  | cons r rounds ih =>
      cases r with
      | nil => simpa using ih
      | cons e r => simpa using ih

/-! ## The first round with elements decides -/

theorem beansIn_append (xs ys : List Element) (g : Str) :
    beansIn (xs ++ ys) g = beansIn xs g ++ beansIn ys g := by
  simp [beansIn]

/-- Of the beans of a group, the last element's is the one its path maps to. -/
theorem find?_beansIn_concat (front : List Element) (e : Element) :
    (beansIn (front ++ [e]) e.bean.group).reverse.find? (·.path = e.path) = some e.bean := by
  rw [beansIn_append, List.reverse_append]
  simp [beansIn, Element.bean]

theorem not_sameTables_of_later {env : ProcessingEnv} {first : List Element}
    {later front : List Element} {e : Element} {s₁ s t : ProcessorState}
    (hfirst : FirstRound env first s₁) (hbegins : s₁.files <+: s.files)
    (hsingle : FirstRound env (first ++ later) t) (hlast : first ++ later = front ++ [e])
    (hlater : ∀ d ∈ first, d.className ≠ e.className) : ¬ SameTables env s.files t.files := by
  intro hsame
  obtain ⟨more, hmore⟩ := hbegins
  have hpresent : beansIn (first ++ later) e.bean.group ≠ [] :=
    beansIn_ne_nil_of_mem (by rw [hlast]; simp)
  -- the Group class is the one of the first round, so the group occurs there
  have hgroup : beansIn first e.bean.group ≠ [] := by
    have hfound : groupTable s.files env.options = groupTable s₁.files env.options := by
      rw [groupTable, groupTable, ← hmore, findClass_append_left (by simp [hfirst.findClass_group])]
    have heq := hsame.group
    rw [hfound, hfirst.groupTable, hsingle.groupTable] at heq
    have happ := congrFun (Option.some.inj heq) e.bean.group
    rw [if_neg hpresent] at happ
    intro hnil
    rw [if_pos hnil] at happ
    cases happ
  -- and so is its Path class, which then cannot hold the last element
  have hfound : pathTable s.files e.bean.group = pathTable s₁.files e.bean.group := by
    rw [pathTable, pathTable, ← hmore,
      findClass_append_left (by simp [hfirst.findClass_path hgroup])]
  have heq := hsame.path e.bean.group
  rw [hfound, hfirst.pathTable hgroup, hsingle.pathTable hpresent] at heq
  have happ := congrFun (Option.some.inj heq) e.path
  rw [hlast, find?_beansIn_concat] at happ
  have hmem := List.mem_reverse.mp (List.mem_of_find?_eq_some happ)
  obtain ⟨d, hd, hbean⟩ := List.mem_map.mp (List.mem_filter.mp hmem).1
  exact hlater d hd (congrArg RouterBean.myClass hbean)

/-- A second round with elements loses one of them. -/
theorem not_roundsAgree_of_two {env : ProcessingEnv} (henv : env.filer = createOnce)
    {first second : List Element} {rest : List (List Element)} (hfirst : first ≠ [])
    (hsecond : second ≠ []) (hvalid : ∀ e ∈ (first :: second :: rest).flatten, e.Valid)
    (hset : ((first :: second :: rest).flatten.map Element.className).Nodup) :
    ¬ RoundsAgree env (first :: second :: rest) := by
  rintro ⟨s, t, hrounds, hsingle, hsame⟩
  have hvalidRounds : ∀ r ∈ first :: second :: rest, ∀ e ∈ r, e.Valid :=
    fun r hr e he => hvalid e (List.mem_flatten.mpr ⟨r, hr, he⟩)
  let later := (second :: rest).flatten
  have hlater : later ≠ [] := by simp [later, hsecond]
  obtain ⟨s₁, hround⟩ := exists_firstRound henv hfirst (hvalidRounds first (by simp))
  obtain ⟨s', hs', hbegins⟩ := exists_processRounds_prefix henv (second :: rest) s₁
    fun r hr => hvalidRounds r (List.mem_cons_of_mem _ hr)
  obtain rfl : s' = s := by
    rw [processRounds, List.foldlM_cons, hround.processed] at hrounds
    exact Except.ok.inj (hs'.symm.trans hrounds)
  obtain ⟨t', ht'⟩ := exists_firstRound henv
    (show first ++ later ≠ [] by simp [hlater]) hvalid
  obtain rfl : t' = t := Except.ok.inj (ht'.processed.symm.trans hsingle)
  have hconcat : first ++ later = (first ++ later.dropLast) ++ [later.getLast hlater] := by
    rw [List.append_assoc, List.dropLast_append_getLast]
  refine not_sameTables_of_later hround hbegins ht' hconcat ?_ hsame
  intro d hd heq
  rw [List.flatten_cons, List.map_append, List.nodup_append] at hset
  exact hset.2.2 _ (List.mem_map_of_mem hd) _
    (List.mem_map_of_mem (List.getLast_mem hlater)) heq

/-- A single round with elements is a single round. -/
theorem roundsAgree_singleton {env : ProcessingEnv} (henv : env.filer = createOnce)
    {round : List Element} (hvalid : ∀ e ∈ round, e.Valid) : RoundsAgree env [round] := by
  obtain ⟨s, hs, -⟩ := exists_process_prefix henv {} hvalid
  refine ⟨s, s, ?_, ?_, rfl, fun _ => rfl⟩
  · simp [processRounds, hs]
  · simpa using hs

/-- The tables do not depend on the rounds exactly when at most one round has
elements. -/
theorem roundsAgree_iff (env : ProcessingEnv) (henv : env.filer = createOnce)
    (rounds : List (List Element)) (hvalid : ∀ e ∈ rounds.flatten, e.Valid)
    (hset : (rounds.flatten.map Element.className).Nodup) :
    RoundsAgree env rounds ↔ (rounds.filter (!·.isEmpty)).length ≤ 1 := by
  have hskip : RoundsAgree env rounds ↔ RoundsAgree env (rounds.filter (!·.isEmpty)) := by
    rw [RoundsAgree, RoundsAgree, processRounds_filter, flatten_filter]
  rw [hskip]
  rw [← flatten_filter rounds] at hvalid hset
  have hnonempty : ∀ r ∈ rounds.filter (!·.isEmpty), r ≠ [] := by
    intro r hr hnil
    simp [hnil] at hr
  generalize rounds.filter (!·.isEmpty) = rs at hvalid hset hnonempty ⊢
  match rs with
  | [] => exact ⟨fun _ => by simp, fun _ => ⟨{}, {}, rfl, rfl, rfl, fun _ => rfl⟩⟩
  | [r] => exact ⟨fun _ => by simp, fun _ => roundsAgree_singleton henv (by simpa using hvalid)⟩
  | first :: second :: rest =>
      refine ⟨fun hagree => ?_, fun hle => by simp at hle⟩
      exact absurd hagree (not_roundsAgree_of_two henv (hnonempty first (by simp))
        (hnonempty second (by simp)) hvalid hset)

/-- One round with two Activities, and a round without any. -/
theorem roundsAgree_one_round :
    RoundsAgree appModule [[mainActivity, batteryActivity], []] := by
  refine (roundsAgree_iff appModule rfl _ ?_ ?_).mpr ?_
  · simpa using ⟨mainActivity_valid, batteryActivity_valid⟩
  · decide
  · decide

/-- The same two Activities in two rounds: the second is in no table. -/
theorem not_roundsAgree_two_rounds :
    ¬ ∀ (env : ProcessingEnv) (rounds : List (List Element)), env.filer = createOnce →
      (∀ e ∈ rounds.flatten, e.Valid) → (rounds.flatten.map Element.className).Nodup →
        RoundsAgree env rounds := by
  intro hlaw
  have hvalid : ∀ e ∈ [[mainActivity], [batteryActivity]].flatten, e.Valid := by
    simpa using ⟨mainActivity_valid, batteryActivity_valid⟩
  have hset : ([[mainActivity], [batteryActivity]].flatten.map Element.className).Nodup := by
    decide
  exact not_roundsAgree_of_two rfl (by simp) (by simp) hvalid hset
    (hlaw appModule _ rfl hvalid hset)

end StudyNotes.Router
