/-
# Which loader serves a class (`NewClassLoaderInjector`)

The application class and the classes of the framework belong to the old loader, any
other class to the new loader if it has it.  A request that a definition makes under
the flag is answered from the new dex path or not at all, so it gets its own class
only where that is a class of the new dex path, with all above it in turn.

Where every class that is asked for is of this kind the answers are right.  That
nothing less is enough is read off the answers of single calls right after the
injection.
-/

import StudyNotes.Patch.ClassLoaders
import Mathlib.Algebra.Order.BigOperators.Group.List
import Mathlib.Algebra.Order.Group.Nat

namespace StudyNotes.Patch

open StudyNotes.Fallible StudyNotes.Text

namespace Classes

variable (c : Classes)

/-! ## What the loaders are for -/

/-- The class that a request has to return. -/
def expected (name : Str) : Outcome :=
  if c.has .system name then .found .system
  else if c.isUnpatched name && c.has .old name then .found .old
  else if c.has .new name then .found .new
  else if c.has .old name then .found .old
  else .classNotFound

/-- Every request among these calls, whoever made it, gets its own class. -/
def Faithful (names : List Str) : Prop :=
  ∀ fuel s, c.loadClasses fuel names .injected = some s →
    ∀ answer ∈ s.requests, answer.2 = c.expected answer.1

variable {c} {load : Loading}

/-! ## Where every class is the right one -/

variable (c) in
/-- A class that can be requested under the flag: it is a system class, or it belongs to
the new dex path with all that its definition asks for in turn. -/
inductive Nestable : Str → Prop
  | system {name : Str} (h : c.expected name = .found .system) : Nestable name
  | new {name : Str} (h : c.expected name = .found .new)
      (hsupers : ∀ m ∈ c.supers .new name, Nestable m) : Nestable name

variable (c) in
/-- A class that can be requested without it.  Only a class of the framework that the
old loader lacks is defined without the flag. -/
inductive Loadable : Str → Prop
  | system {name : Str} (h : c.expected name = .found .system) : Loadable name
  | absent {name : Str} (h : c.expected name = .classNotFound) : Loadable name
  | old {name : Str} (h : c.expected name = .found .old)
      (hsupers : c.defined name = false → ∀ m ∈ c.supers .old name, c.Nestable m) : Loadable name
  | new {name : Str} (h : c.expected name = .found .new) (hunpatched : c.isUnpatched name = false)
      (hsupers : ∀ m ∈ c.supers .new name, c.Nestable m) : Loadable name
  | unpatched {name : Str} (h : c.expected name = .found .new) (hunpatched : c.isUnpatched name = true)
      (hpresent : ∀ m ∈ c.supers .new name, c.expected m ≠ .classNotFound)
      (hsupers : ∀ m ∈ c.supers .new name, Loadable m) : Loadable name

variable (c) in
/-- Every request so far was answered with its own class. -/
def Answered (s : Loaders) : Prop := ∀ answer ∈ s.requests, answer.2 = c.expected answer.1

variable (c) in
/-- So was every loaded class the right one. -/
structure Kept (s : Loaders) : Prop where
  loaded : ∀ name source, s.loaded name = some source → c.expected name = .found source
  requests : c.Answered s

theorem Answered.answer {s : Loaders} (hs : c.Answered s) (name : Str) :
    c.Answered (s.answer name (c.expected name)) := by
  intro answer hanswer
  rcases List.mem_append.mp hanswer with hold | hnew
  · exact hs answer hold
  · rw [List.mem_singleton.mp hnew]

theorem Kept.answer {s : Loaders} (hs : c.Kept s) (name : Str) :
    c.Kept (s.answer name (c.expected name)) :=
  ⟨hs.loaded, hs.requests.answer name⟩

theorem Kept.set {s : Loaders} (hs : c.Kept s) (flag : Bool) : c.Kept (s.set flag) :=
  ⟨hs.loaded, hs.requests⟩

theorem Kept.define {s : Loaders} (hs : c.Kept s) {name : Str} {source : Source}
    (h : c.expected name = .found source) : c.Kept (s.define name source) := by
  refine ⟨fun name' source' hloaded => ?_, hs.requests⟩
  rcases Loaders.loaded_define hloaded with ⟨rfl, rfl⟩ | hold
  · exact h
  · exact hs.loaded name' source' hold

variable (c) in
/-- The loader answers this request with its own class, and so those it makes itself. -/
def Serves (load : Loading) (flag : Bool) (name : Str) : Prop :=
  ∀ s : Loaders, s.mCallFindClassOfLeafDirectly = flag → c.Kept s →
    Meets (load name s) fun r => r.1 = c.expected name ∧ c.Kept r.2

theorem loadSupers_kept (hload : c.Growing load) {flag : Bool} {names : List Str}
    (hserves : ∀ name ∈ names, c.Serves load flag name)
    (hpresent : ∀ name ∈ names, ∃ source, c.expected name = .found source) {s : Loaders}
    (hflag : s.mCallFindClassOfLeafDirectly = flag) (hs : c.Kept s) :
    Meets (loadSupers load names s) fun r => r.1 = true ∧ c.Kept r.2 := by
  induction names generalizing s with
  | nil => exact Meets.some ⟨rfl, hs⟩
  | cons name names ih =>
      have hhead := hserves name List.mem_cons_self s hflag hs
      refine meets_loadSupers_cons ((hload name s).and hhead) ?_ ?_
      · rintro source t ⟨hgrows, heq, hkept⟩
        apply ih
        · exact fun name' hname' => hserves name' (List.mem_cons_of_mem _ hname')
        · exact fun name' hname' => hpresent name' (List.mem_cons_of_mem _ hname')
        · exact hgrows.1.flag.trans hflag
        · rw [show Outcome.found source = c.expected name from heq]
          exact hkept.answer name
      · rintro outcome t ⟨-, heq, -⟩ hne
        obtain ⟨source, hsource⟩ := hpresent name List.mem_cons_self
        exact absurd (heq.trans hsource) (hne source)

theorem pathFindClass_serves (hload : c.Growing load) {flag : Bool} {source : Source} {name : Str}
    (hhas : c.has source name) (h : c.expected name = .found source)
    (hserves : ∀ m ∈ c.supers source name, c.Serves load flag m)
    (hpresent : ∀ m ∈ c.supers source name, ∃ source, c.expected m = .found source) :
    c.Serves (c.pathFindClass load source) flag name := by
  intro s hflag hs
  rw [pathFindClass, if_pos hhas]
  refine Meets.bind (loadSupers_kept hload hserves hpresent hflag hs) ?_
  rintro ⟨resolved, t⟩ ⟨rfl, hkept⟩
  exact Meets.some ⟨h.symm, hkept.define h⟩

/-- The four rules of the dispatcher. -/
theorem expected_cases (name : Str) :
    (c.has .system name = true ∧ c.expected name = .found .system) ∨
    (c.has .system name = false ∧ c.has .old name = true ∧
      (c.isUnpatched name = true ∨ c.has .new name = false) ∧ c.expected name = .found .old) ∨
    (c.has .system name = false ∧ c.has .new name = true ∧
      (c.isUnpatched name = true → c.has .old name = false) ∧ c.expected name = .found .new) ∨
    (c.has .system name = false ∧ c.has .old name = false ∧ c.has .new name = false ∧
      c.expected name = .classNotFound) := by
  rw [expected]
  cases c.has .system name <;> cases c.isUnpatched name <;> cases c.has .old name <;>
    cases c.has .new name <;> simp

theorem has_of_expected {name : Str} {source : Source} (h : c.expected name = .found source) :
    c.has source name = true := by
  rcases c.expected_cases name with h' | h' | h' | h' <;> simp_all

theorem system_of_expected {name : Str} {outcome : Outcome} (h : c.expected name = outcome)
    (hne : outcome ≠ .found .system) : c.has .system name = false := by
  rcases c.expected_cases name with h' | h' | h' | h' <;> simp_all

theorem old_of_expected {name : Str} (h : c.expected name = .found .old) :
    c.isUnpatched name = true ∨ c.has .new name = false := by
  rcases c.expected_cases name with h' | h' | h' | h' <;> simp_all

theorem new_of_expected {name : Str} (h : c.expected name = .found .new)
    (hunpatched : c.isUnpatched name = true) : c.has .old name = false := by
  rcases c.expected_cases name with h' | h' | h' | h' <;> simp_all

theorem absent_of_expected {name : Str} (h : c.expected name = .classNotFound) :
    c.has .system name = false ∧ c.has .old name = false ∧ c.has .new name = false := by
  rcases c.expected_cases name with h' | h' | h' | h' <;> simp_all

theorem present_of_expected {name : Str} (h : c.expected name ≠ .classNotFound) :
    ∃ source, c.expected name = .found source := by
  rcases c.expected_cases name with h' | h' | h' | h' <;> simp_all

theorem newLoadClass_serves {fuel : ℕ} {flag : Bool} {name : Str}
    (h : ∀ s : Loaders, s.mCallFindClassOfLeafDirectly = flag → c.Kept s → s.loaded name = none →
      c.has .system name = false →
      Meets (c.newLoadClass (fuel + 1) name s) fun r => r.1 = c.expected name ∧ c.Kept r.2) :
    c.Serves (c.newLoadClass (fuel + 1)) flag name := by
  intro s hflag hs
  cases hloaded : s.loaded name with
  | some source =>
      rw [newLoadClass_loaded fuel hloaded]
      exact Meets.some ⟨(hs.loaded name source hloaded).symm, hs⟩
  | none =>
      cases hsystem : c.has .system name with
      | true =>
          rw [newLoadClass_system fuel hloaded hsystem]
          exact Meets.some ⟨by simp [expected, hsystem], hs⟩
      | false => exact h s hflag hs hloaded hsystem

theorem Nestable.present {name : Str} (h : c.Nestable name) :
    ∃ source, c.expected name = .found source := by
  cases h with
  | system h => exact ⟨_, h⟩
  | new h _ => exact ⟨_, h⟩

theorem Nestable.serves {name : Str} (h : c.Nestable name) (fuel : ℕ) :
    c.Serves (c.newLoadClass fuel) true name := by
  induction fuel generalizing name with
  | zero => exact fun s _ _ => Meets.none
  | succ fuel ih =>
      apply newLoadClass_serves
      intro s hflag hs hloaded hsystem
      rw [newLoadClass_flagged fuel hflag hloaded hsystem]
      cases h with
      | system h => exact absurd (has_of_expected h) (by simp [hsystem])
      | new h hsupers =>
          exact pathFindClass_serves (newLoadClass_grows fuel) (has_of_expected h) h
            (fun m hm => ih (hsupers m hm)) (fun m hm => (hsupers m hm).present) s hflag hs

theorem findClassIn_serves {name : Str} (hserves : c.Serves load true name) {s : Loaders}
    (hs : c.Kept s) :
    Meets (findClassIn load name s) fun r => r.1 = c.expected name ∧ c.Kept r.2 :=
  Meets.bind (hserves (s.set true) rfl (hs.set true)) fun _ hr =>
    Meets.some ⟨hr.1, hr.2.set false⟩

theorem oldLoadClass_serves {name : Str} (h : c.expected name = .found .old)
    (hsupers : c.defined name = false → ∀ m ∈ c.supers .old name, c.Nestable m) (fuel : ℕ) :
    c.Serves (c.oldLoadClass (c.newLoadClass fuel)) true name := by
  intro s hflag hs
  cases hdefined : c.defined name with
  | true =>
      rw [oldLoadClass, if_pos hdefined]
      exact Meets.some ⟨h.symm, hs⟩
  | false =>
      have hsystem := system_of_expected h (by simp)
      rw [oldLoadClass, if_neg (by simp [hdefined]), if_neg (by simp [hsystem])]
      exact pathFindClass_serves (newLoadClass_grows fuel) (has_of_expected h) h
        (fun m hm => (hsupers hdefined m hm).serves fuel)
        (fun m hm => (hsupers hdefined m hm).present) s hflag hs

/-- The call finds nothing and does nothing. -/
def Lacks (load : Loading) (name : Str) (s : Loaders) : Prop :=
  Meets (load name s) fun r => r = (.classNotFound, s)

theorem pathFindClass_lacks {source : Source} {name : Str} (hhas : c.has source name = false)
    (s : Loaders) : Lacks (c.pathFindClass load source) name s := by
  rw [Lacks, pathFindClass, if_neg (by simp [hhas])]
  exact Meets.some rfl

theorem oldLoadClass_lacks {name : Str} (hsystem : c.has .system name = false)
    (hold : c.has .old name = false) (s : Loaders) : Lacks (c.oldLoadClass load) name s := by
  have hdefined : c.defined name ≠ true := fun h => by simp [c.has_of_defined name h] at hold
  rw [Lacks, oldLoadClass, if_neg hdefined, if_neg (by simp [hsystem])]
  exact pathFindClass_lacks hold s

theorem newLoadClass_lacks (fuel : ℕ) {name : Str} {s : Loaders}
    (hflag : s.mCallFindClassOfLeafDirectly = true) (hloaded : s.loaded name = none)
    (hsystem : c.has .system name = false) (hnew : c.has .new name = false) :
    Lacks (c.newLoadClass fuel) name s := by
  cases fuel with
  | zero => exact Meets.none
  | succ fuel =>
      rw [Lacks, newLoadClass_flagged fuel hflag hloaded hsystem]
      exact pathFindClass_lacks hnew s

theorem findClassIn_lacks {name : Str} {s : Loaders}
    (hflag : s.mCallFindClassOfLeafDirectly = false) (h : Lacks load name (s.set true)) :
    Lacks (findClassIn load) name s := by
  refine Meets.bind h ?_
  rintro r rfl
  refine Meets.some ?_
  simp [Loaders.set, ← hflag]

/-- Where the dispatcher finds nothing, the new dex path is asked. -/
theorem meets_newLoadClass_of_lacks {fuel : ℕ} {name : Str} {s : Loaders}
    {Q : Outcome × Loaders → Prop} (hloaded : s.loaded name = none)
    (hsystem : c.has .system name = false) (hlacks : Lacks (c.findClass (c.newLoadClass fuel)) name s)
    (hown : Meets (c.pathFindClass (c.newLoadClass fuel) .new name s) Q) :
    Meets (c.newLoadClass (fuel + 1) name s) Q := by
  refine meets_newLoadClass hloaded hsystem hlacks ?_ ?_
  · rintro r rfl _ hne
    exact absurd rfl hne
  · rintro outcome t hr _
    cases hr
    exact hown

/-- For a class that is not on the new dex path the dispatcher asks the old loader in the
end. -/
theorem meets_findClass_old {fuel : ℕ} {name : Str} {s : Loaders} {Q : Outcome × Loaders → Prop}
    (hflag : s.mCallFindClassOfLeafDirectly = false) (hloaded : s.loaded name = none)
    (hsystem : c.has .system name = false)
    (hnew : c.isUnpatched name = true ∨ c.has .new name = false)
    (hold : Meets (findClassIn (c.oldLoadClass (c.newLoadClass fuel)) name s) Q) :
    Meets (c.findClass (c.newLoadClass fuel) name s) Q := by
  cases hunpatched : c.isUnpatched name with
  | true => rwa [findClass_unpatched hunpatched hflag]
  | false =>
      have hprobe : Lacks (findClassIn (c.newLoadClass fuel)) name s := by
        apply findClassIn_lacks hflag
        apply newLoadClass_lacks fuel (s := s.set true) rfl hloaded hsystem
        exact hnew.resolve_left (by simp [hunpatched])
      refine meets_findClass hunpatched hflag hprobe ?_ ?_
      · rintro r rfl hne
        exact absurd rfl hne
      · rintro t hr
        cases hr
        exact hold

theorem Loadable.serves {name : Str} (h : c.Loadable name) (fuel : ℕ) :
    c.Serves (c.newLoadClass fuel) false name := by
  induction fuel generalizing name with
  | zero => exact fun s _ _ => Meets.none
  | succ fuel ih =>
      apply newLoadClass_serves
      intro s hflag hs hloaded hsystem
      have hlacks : c.has .old name = false →
          Lacks (findClassIn (c.oldLoadClass (c.newLoadClass fuel))) name s :=
        fun hold => findClassIn_lacks hflag (oldLoadClass_lacks hsystem hold (s.set true))
      -- a class that the dispatcher finds is returned as it is
      have hdispatch : (∃ source, c.expected name = .found source) →
          Meets (c.findClass (c.newLoadClass fuel) name s)
            (fun r => r.1 = c.expected name ∧ c.Kept r.2) →
          Meets (c.newLoadClass (fuel + 1) name s)
            (fun r => r.1 = c.expected name ∧ c.Kept r.2) := by
        rintro ⟨source, hsource⟩ hmeets
        refine meets_newLoadClass hloaded hsystem hmeets (fun r hr _ _ => hr) ?_
        rintro outcome t ⟨hr, -⟩ hnone
        simp only [hsource] at hr
        simp [hr] at hnone
      cases h with
      | system h => exact absurd (has_of_expected h) (by simp [hsystem])
      | absent h =>
          obtain ⟨-, hold, hnew⟩ := absent_of_expected h
          apply meets_newLoadClass_of_lacks hloaded hsystem
          · exact meets_findClass_old hflag hloaded hsystem (.inr hnew) (hlacks hold)
          · apply (pathFindClass_lacks hnew s).mono
            rintro r rfl
            exact ⟨h.symm, hs⟩
      | old h hsupers =>
          apply hdispatch ⟨_, h⟩
          apply meets_findClass_old hflag hloaded hsystem (old_of_expected h)
          exact findClassIn_serves (oldLoadClass_serves h hsupers fuel) hs
      | new h hunpatched hsupers =>
          apply hdispatch ⟨_, h⟩
          have hprobe := findClassIn_serves ((Nestable.new h hsupers).serves fuel) hs
          refine meets_findClass hunpatched hflag hprobe (fun r hr _ => hr) ?_
          rintro t ⟨hr, -⟩
          simp [h] at hr
      | unpatched h hunpatched hpresent hsupers =>
          apply meets_newLoadClass_of_lacks hloaded hsystem
          · apply meets_findClass_old hflag hloaded hsystem (.inl hunpatched)
            exact hlacks (new_of_expected h hunpatched)
          · exact pathFindClass_serves (newLoadClass_grows fuel) (has_of_expected h) h
              (fun m hm => ih (hsupers m hm)) (fun m hm => present_of_expected (hpresent m hm))
              s hflag hs

/-! ## Nowhere else

From the answers of a call under the flag the whole hierarchy above the class can be
read off, as long as the loaded classes were read off in the same way.
-/

variable (c) in
/-- Every loaded class is one that can be requested under the flag. -/
def Closed (s : Loaders) : Prop := ∀ name source, s.loaded name = some source → c.Nestable name

theorem Closed.define {s : Loaders} (hs : c.Closed s) {name : Str} (h : c.Nestable name)
    (source : Source) : c.Closed (s.define name source) := by
  intro name' source' hloaded
  rcases Loaders.loaded_define hloaded with ⟨rfl, -⟩ | hold
  · exact h
  · exact hs name' source' hold

theorem Answered.of_follows {s t : Loaders} (ht : c.Answered t) (hst : c.Follows s t) :
    c.Answered s :=
  fun answer hanswer => ht answer (hst.requests.subset hanswer)

theorem Answered.last {s : Loaders} {name : Str} {outcome : Outcome}
    (hs : c.Answered (s.answer name outcome)) : c.Answered s ∧ outcome = c.expected name := by
  refine ⟨fun answer hanswer => hs answer (List.mem_append_left _ hanswer), ?_⟩
  exact hs (name, outcome) (List.mem_append_right _ List.mem_cons_self)

variable (c) in
/-- A right answer of the call shows that the class can be requested under the flag. -/
def Shows (load : Loading) (name : Str) (s : Loaders) : Prop :=
  Meets (load name s) fun r => c.Closed s → c.Answered r.2 → r.1 = c.expected name →
    c.Closed r.2 ∧ ∀ source, r.1 = .found source → c.Nestable name

theorem loadSupers_shows (hload : c.Growing load) {names : List Str}
    (hshows : ∀ name ∈ names, ∀ s : Loaders, s.mCallFindClassOfLeafDirectly = true →
      c.Shows load name s) {s : Loaders} (hflag : s.mCallFindClassOfLeafDirectly = true) :
    Meets (loadSupers load names s) fun r => c.Closed s → c.Answered r.2 →
      c.Closed r.2 ∧ (r.1 = true → ∀ name ∈ names, c.Nestable name) := by
  induction names generalizing s with
  | nil => exact Meets.some fun hs _ => ⟨hs, by simp⟩
  | cons name names ih =>
      apply meets_loadSupers_cons ((hload name s).and (hshows name List.mem_cons_self s hflag))
      · rintro source t ⟨hgrows, hhead⟩
        have htail := ih (fun name' hname' => hshows name' (List.mem_cons_of_mem _ hname'))
          (s := t.answer name (.found source)) (hgrows.1.flag.trans hflag)
        apply ((loadSupers_follows hload names _).and htail).mono
        rintro r ⟨hfollows, hrest⟩ hs hr
        obtain ⟨ht, hright⟩ := (hr.of_follows hfollows.1).last
        obtain ⟨hclosed, hname⟩ := hhead hs ht hright
        obtain ⟨hclosed', hnames⟩ := hrest hclosed hr
        refine ⟨hclosed', fun htrue name' hname' => ?_⟩
        rcases List.mem_cons.mp hname' with hsame | hmem
        · exact hsame ▸ hname source rfl
        · exact hnames htrue name' hmem
      · rintro outcome t ⟨-, hhead⟩ - hs hr
        obtain ⟨ht, hright⟩ := hr.last
        exact ⟨(hhead hs ht hright).1, by simp⟩

/-- A definition under the flag shows it of every superclass and interface. -/
theorem pathFindClass_shows (hload : c.Growing load) {source : Source} {name : Str}
    (hshows : ∀ m ∈ c.supers source name, ∀ s : Loaders,
      s.mCallFindClassOfLeafDirectly = true → c.Shows load m s)
    {s : Loaders} (hflag : s.mCallFindClassOfLeafDirectly = true) :
    Meets (c.pathFindClass load source name s) fun r => c.Closed s → c.Answered r.2 →
      (∃ t, c.Closed t ∧ (r.2 = t ∨ r.1 = .found source ∧ r.2 = t.define name source)) ∧
        ∀ src, r.1 = .found src → src = source ∧ ∀ m ∈ c.supers source name, c.Nestable m := by
  rw [pathFindClass]
  split
  · apply Meets.bind (loadSupers_shows hload hshows hflag)
    rintro ⟨resolved, t⟩ ht
    cases resolved with
    | true =>
        refine Meets.some fun hs hr => ?_
        obtain ⟨hclosed, hsupers⟩ := ht hs hr
        refine ⟨⟨t, hclosed, .inr ⟨rfl, rfl⟩⟩, fun src hsrc => ?_⟩
        exact ⟨(Outcome.found.inj hsrc).symm, hsupers rfl⟩
    | false =>
        refine Meets.some fun hs hr => ⟨⟨t, (ht hs hr).1, .inl rfl⟩, fun src hsrc => ?_⟩
        exact absurd hsrc (failed_ne_found src)
  · exact Meets.some fun hs _ => ⟨⟨s, hs, .inl rfl⟩, by simp⟩

theorem newLoadClass_shows (fuel : ℕ) {name : Str} {s : Loaders}
    (hflag : s.mCallFindClassOfLeafDirectly = true) : c.Shows (c.newLoadClass fuel) name s := by
  induction fuel generalizing name s with
  | zero => exact Meets.none
  | succ fuel ih =>
      cases hloaded : s.loaded name with
      | some source =>
          rw [Shows, newLoadClass_loaded fuel hloaded]
          exact Meets.some fun hs _ _ => ⟨hs, fun _ _ => hs name source hloaded⟩
      | none =>
          cases hsystem : c.has .system name with
          | true =>
              rw [Shows, newLoadClass_system fuel hloaded hsystem]
              refine Meets.some fun hs _ _ => ⟨hs, fun _ _ => Nestable.system ?_⟩
              simp [expected, hsystem]
          | false =>
              rw [Shows, newLoadClass_flagged fuel hflag hloaded hsystem]
              apply (pathFindClass_shows (newLoadClass_grows fuel)
                (fun m _ t ht => @ih m t ht) hflag).mono
              intro r hr hs hanswered hright
              obtain ⟨⟨t, ht, hstate⟩, hsupers⟩ := hr hs hanswered
              have hnest : ∀ source, r.1 = .found source → c.Nestable name := by
                intro source hsource
                obtain ⟨rfl, habove⟩ := hsupers source hsource
                exact Nestable.new (hright.symm.trans hsource) habove
              refine ⟨?_, hnest⟩
              rcases hstate with hsame | ⟨hfound, hdefine⟩
              · exact hsame ▸ ht
              · exact hdefine ▸ ht.define (hnest _ hfound) .new

/-- A class that the old loader has to define shows it of all that the definition asks
for. -/
theorem newLoadClass_shows_old (fuel : ℕ) {name : Str} (h : c.expected name = .found .old)
    (hdefined : c.defined name = false) :
    Meets (c.newLoadClass fuel name .injected) fun r => c.Answered r.2 → r.1 = .found .old →
      ∀ m ∈ c.supers .old name, c.Nestable m := by
  cases fuel with
  | zero => exact Meets.none
  | succ fuel =>
      have hsystem := system_of_expected h (by simp)
      have hold : Meets (findClassIn (c.oldLoadClass (c.newLoadClass fuel)) name .injected)
          fun r => c.Answered r.2 → r.1 = .found .old →
            ∀ m ∈ c.supers .old name, c.Nestable m := by
        apply Meets.bind (P := fun r => c.Answered r.2 → r.1 = .found .old →
          ∀ m ∈ c.supers .old name, c.Nestable m)
        · rw [oldLoadClass, if_neg (by simp [hdefined]), if_neg (by simp [hsystem])]
          apply (pathFindClass_shows (newLoadClass_grows fuel)
            (fun m _ t ht => newLoadClass_shows fuel ht) rfl).mono
          intro r hr hanswered hfound
          exact ((hr (fun _ _ hnone => by cases hnone) hanswered).2 _ hfound).2
        · exact fun r hr => Meets.some hr
      have hdispatch := meets_findClass_old rfl rfl hsystem (old_of_expected h) hold
      apply meets_newLoadClass rfl hsystem hdispatch
      · exact fun r hr _ _ => hr
      · intro outcome t _ _
        apply (pathFindClass_source _ .new name t).mono
        intro r hr _ hfound
        exact absurd (hr _ hfound) (by simp)

theorem sound_injected : c.Sound .injected := fun _ _ hnone => by cases hnone

/-- A refused request is right only for a class that is nowhere. -/
theorem Answered.not_has {s : Loaders} (hs : c.Answered s) {answer : Str × Outcome}
    (hanswer : answer ∈ s.requests) (hrefused : ∀ source, answer.2 ≠ .found source)
    (source : Source) : ¬ c.has source answer.1 := by
  intro hhas
  have hne : c.expected answer.1 ≠ .classNotFound := by
    intro h
    obtain ⟨hsystem, hold, hnew⟩ := absent_of_expected h
    cases source <;> simp_all
  obtain ⟨src, hsrc⟩ := present_of_expected hne
  exact hrefused src ((hs answer hanswer).trans hsrc)

variable (c) in
/-- What a first try from the new dex path leaves behind, if it succeeds and if not. -/
def Tried (name : Str) (r : Outcome × Loaders) : Prop :=
  c.Follows .injected r.2 ∧
    (c.Answered r.2 → r.1 = .found .new → ∀ m ∈ c.supers .new name, c.Nestable m) ∧
    ((∀ source, r.1 ≠ .found source) → ∃ answer ∈ r.2.requests,
      answer.1 ∈ c.supers .new name ∧ ∀ source, answer.2 ≠ .found source)

theorem findClassIn_tried (fuel : ℕ) {name : Str} (h : c.expected name = .found .new) :
    Meets (findClassIn (c.newLoadClass fuel) name .injected) (c.Tried name) := by
  cases fuel with
  | zero => exact Meets.none
  | succ fuel =>
      have hsystem := system_of_expected h (by simp)
      have hgrows := newLoadClass_grows (c := c) fuel
      have hhas := has_of_expected h
      have hshows := pathFindClass_shows hgrows (s := Loaders.injected.set true)
        (fun m (_ : m ∈ c.supers .new name) t ht => newLoadClass_shows fuel ht) rfl
      have hdefine := defineClass_spec hgrows (Loaders.injected.set true) hhas
      rw [findClassIn, newLoadClass_flagged fuel rfl rfl hsystem]
      rw [pathFindClass, if_pos hhas] at hshows ⊢
      apply Meets.bind (hshows.and hdefine)
      rintro ⟨outcome, t⟩ ⟨hsupers, hfollows, hcases⟩
      refine Meets.some ⟨hfollows.set rfl, fun hanswered hfound => ?_, fun hne => ?_⟩
      · exact ((hsupers (fun _ _ hnone => by cases hnone) hanswered).2 _ hfound).2
      · rcases hcases with ⟨hfound, -⟩ | ⟨-, hrefused⟩
        · exact absurd hfound (hne _)
        · exact hrefused

theorem oldLoadClass_ne_new (load : Loading) (name : Str) (s : Loaders) :
    Meets (c.oldLoadClass load name s) fun r => r.1 ≠ .found .new := by
  rw [oldLoadClass]
  split
  · exact Meets.some (by simp)
  · split
    · exact Meets.some (by simp)
    · apply (pathFindClass_source load .old name s).mono
      intro r hr hfound
      exact absurd (hr _ hfound) (by simp)

/-- A patched class shows it of all that its definition asks for: a second try without
the flag comes only after a request was refused. -/
theorem newLoadClass_shows_new (fuel : ℕ) {name : Str} (h : c.expected name = .found .new)
    (hunpatched : c.isUnpatched name = false) :
    Meets (c.newLoadClass fuel name .injected) fun r => c.Answered r.2 → r.1 = .found .new →
      ∀ m ∈ c.supers .new name, c.Nestable m := by
  cases fuel with
  | zero => exact Meets.none
  | succ fuel =>
      have hsystem := system_of_expected h (by simp)
      have hgrows := newLoadClass_grows (c := c) fuel
      have hdispatch : Meets (c.findClass (c.newLoadClass fuel) name .injected) (c.Tried name) := by
        apply meets_findClass hunpatched rfl (findClassIn_tried fuel h) (fun r hr _ => hr)
        intro t ht
        have hold : Meets (findClassIn (c.oldLoadClass (c.newLoadClass fuel)) name t)
            fun r => r.1 ≠ .found .new :=
          Meets.bind (oldLoadClass_ne_new _ name _) fun r hr => Meets.some hr
        apply ((findClassIn_grows (oldLoadClass_grows hgrows) name ht.1.flag).and hold).mono
        rintro r ⟨hr, hne⟩
        refine ⟨ht.1.trans hr.1, fun _ hfound => absurd hfound hne, fun _ => ?_⟩
        obtain ⟨answer, hmem, hrefused⟩ := ht.2.2 (by simp)
        exact ⟨answer, hr.1.requests.subset hmem, hrefused⟩
      apply meets_newLoadClass rfl hsystem hdispatch (fun r hr _ _ => hr.2.1)
      intro outcome t ht hnone
      obtain ⟨answer, hmem, habove, hrefused⟩ := ht.2.2 (by rcases hnone with rfl | rfl <;> simp)
      rw [pathFindClass, if_pos (has_of_expected h)]
      apply (defineClass_spec hgrows t (has_of_expected h)).mono
      rintro r ⟨hfollows, hcases⟩ hanswered hfound
      rcases hcases with ⟨-, hpresent⟩ | ⟨hne, -⟩
      · obtain ⟨source, hhas⟩ := hpresent (ht.1.sound sound_injected) answer.1 habove
        exact absurd hhas (hanswered.not_has (hfollows.requests.subset hmem) hrefused source)
      · exact absurd hfound (hne _)

/-- A class of the framework that only the new dex path has is defined where all above it
is there. -/
theorem newLoadClass_present (fuel : ℕ) {name : Str} (h : c.expected name = .found .new)
    (hunpatched : c.isUnpatched name = true) :
    Meets (c.newLoadClass fuel name .injected) fun r => r.1 = .found .new →
      ∀ m ∈ c.supers .new name, ∃ source, c.has source m := by
  cases fuel with
  | zero => exact Meets.none
  | succ fuel =>
      have hsystem := system_of_expected h (by simp)
      apply meets_newLoadClass_of_lacks rfl hsystem
      · rw [Lacks, findClass_unpatched hunpatched rfl]
        apply findClassIn_lacks rfl
        exact oldLoadClass_lacks hsystem (new_of_expected h hunpatched) _
      · rw [pathFindClass, if_pos (has_of_expected h)]
        apply (defineClass_spec (newLoadClass_grows fuel) _ (has_of_expected h)).mono
        rintro r ⟨-, hcases⟩ hfound
        rcases hcases with ⟨-, hpresent⟩ | ⟨hne, -⟩
        · exact hpresent sound_injected
        · exact absurd hfound (hne _)

/-! ## Runs of outermost calls -/

theorem loadClasses_cons (fuel : ℕ) (name : Str) (names : List Str) (s : Loaders) :
    c.loadClasses fuel (name :: names) s = (c.newLoadClass fuel name s >>= fun r =>
      c.loadClasses fuel names (r.2.answer name r.1)) := by
  rw [loadClasses, List.foldlM_cons, request]
  cases c.newLoadClass fuel name s with
  | none => rfl
  | some r => rfl

theorem exists_loadClasses {fuel : ℕ} {names : List Str}
    (hfuel : ∀ name ∈ names, c.cost false name ≤ fuel) {s : Loaders}
    (hflag : s.mCallFindClassOfLeafDirectly = false) :
    ∃ s', c.loadClasses fuel names s = some s' ∧ s'.mCallFindClassOfLeafDirectly = false := by
  induction names generalizing s with
  | nil => exact ⟨s, rfl, hflag⟩
  | cons name names ih =>
      have hends := newLoadClass_ends (hfuel name List.mem_cons_self) s hflag
      obtain ⟨r, hr⟩ := Option.isSome_iff_exists.mp hends
      have hflag' := ((newLoadClass_grows fuel name s).result r hr).1.flag.trans hflag
      rw [loadClasses_cons, hr]
      exact ih (fun name' hname' => hfuel name' (List.mem_cons_of_mem _ hname')) hflag'

theorem loadClasses_kept {fuel : ℕ} {names : List Str} (h : ∀ name ∈ names, c.Loadable name)
    {s : Loaders} (hflag : s.mCallFindClassOfLeafDirectly = false) (hs : c.Kept s) :
    Meets (c.loadClasses fuel names s) c.Kept := by
  induction names generalizing s with
  | nil => exact Meets.some hs
  | cons name names ih =>
      have hhead := (h name List.mem_cons_self).serves fuel s hflag hs
      rw [loadClasses_cons]
      apply Meets.bind ((newLoadClass_grows fuel name s).and hhead)
      rintro ⟨outcome, t⟩ ⟨hgrows, hright, hkept⟩
      apply ih
      · exact fun name' hname' => h name' (List.mem_cons_of_mem _ hname')
      · exact hgrows.1.flag.trans hflag
      · rw [show outcome = c.expected name from hright]
        exact hkept.answer name

variable (c) in
/-- With fuel enough all the calls have returned or thrown, and the flag is cleared. -/
def Terminates (names : List Str) : Prop :=
  ∃ enough, ∀ fuel, enough ≤ fuel → ∃ s, c.loadClasses fuel names .injected = some s ∧
    s.mCallFindClassOfLeafDirectly = false

theorem terminates (names : List Str) : c.Terminates names := by
  refine ⟨(names.map (c.cost false)).sum, fun fuel hfuel => ?_⟩
  apply exists_loadClasses _ rfl
  intro name hname
  exact (List.single_le_sum (by simp) _ (List.mem_map_of_mem hname)).trans hfuel

theorem kept_injected : c.Kept .injected where
  loaded _ _ hnone := by cases hnone
  requests := by simp [Answered, Loaders.injected]

theorem faithful_of_loadable {names : List Str} (h : ∀ name ∈ names, c.Loadable name) :
    c.Faithful names :=
  fun _ s hs => ((loadClasses_kept h rfl kept_injected).result s hs).requests

/-- A first call that is faithful. -/
theorem exists_newLoadClass {name : Str} (h : c.Faithful [name]) :
    ∃ fuel r, c.newLoadClass fuel name .injected = some r ∧ c.Answered r.2 ∧
      r.1 = c.expected name := by
  have hends := newLoadClass_ends (c := c) (Nat.le_refl (c.cost false name)) .injected rfl
  obtain ⟨r, hr⟩ := Option.isSome_iff_exists.mp hends
  have hcall : c.loadClasses (c.cost false name) [name] .injected = some (r.2.answer name r.1) := by
    rw [loadClasses_cons, hr]
    rfl
  have hanswered : c.Answered (r.2.answer name r.1) := h _ _ hcall
  exact ⟨_, r, hr, hanswered.last⟩

theorem loadable_of_faithful (h : ∀ names, c.Faithful names) (name : Str) : c.Loadable name := by
  induction hrank : c.rank name using Nat.strong_induction_on generalizing name with
  | _ n ih =>
      subst hrank
      obtain ⟨fuel, r, hr, hanswered, hright⟩ := exists_newLoadClass (h [name])
      rcases c.expected_cases name with hsystem | hold | hnew | habsent
      · exact .system hsystem.2
      · obtain ⟨-, -, -, hold⟩ := hold
        refine .old hold fun hdefined => ?_
        exact (newLoadClass_shows_old fuel hold hdefined).result r hr hanswered (hright.trans hold)
      · obtain ⟨-, -, -, hnew⟩ := hnew
        have hfound := hright.trans hnew
        cases hunpatched : c.isUnpatched name with
        | false =>
            refine .new hnew hunpatched ?_
            exact (newLoadClass_shows_new fuel hnew hunpatched).result r hr hanswered hfound
        | true =>
            have hpresent := (newLoadClass_present fuel hnew hunpatched).result r hr hfound
            refine .unpatched hnew hunpatched (fun m hm hnone => ?_) fun m hm => ?_
            · obtain ⟨source, hhas⟩ := hpresent m hm
              obtain ⟨hsystem, hold, hpath⟩ := absent_of_expected hnone
              cases source <;> simp_all
            · exact ih (c.rank m) (c.rank_lt .new name m hm) m rfl
      · exact .absent habsent.2.2.2

/-- Loading ends with the flag cleared in every hierarchy.  The classes are the right
ones in every run of calls for loadable classes, and in all runs exactly where every
class is loadable. -/
theorem terminates_and_faithful_iff (c : Classes) :
    (∀ names, c.Terminates names) ∧
      (∀ names, (∀ name ∈ names, c.Loadable name) → c.Faithful names) ∧
      ((∀ names, c.Faithful names) ↔ ∀ name, c.Loadable name) := by
  refine ⟨terminates, fun names => faithful_of_loadable, loadable_of_faithful, ?_⟩
  intro h names
  exact faithful_of_loadable fun name _ => h name

/-- A class of the application. -/
def activity : Str := "MainActivity".toList

/-- A class of the framework. -/
def hotfix : Str := frameworkPackage ++ "Hotfix".toList

/-- Both are in the old dex files and on the new dex path, and the first extends the
second. -/
def extendsFramework : Classes where
  has source name := source ≠ .system ∧ (name = activity ∨ name = hotfix)
  supers _ name := if name = activity then [hotfix] else []
  defined _ := false
  mApplicationClassName := "com.chencc.androidstudynotescode.MyApplication".toList
  suppresses := true
  rank name := if name = activity then 1 else 0
  rank_lt source name above habove := by
    have hne : hotfix ≠ activity := by decide
    split at habove
    · next hname =>
      rw [List.mem_singleton] at habove
      rw [habove, if_neg hne, if_pos hname]
      exact Nat.one_pos
    · cases habove
  has_of_defined name hdefined := by cases hdefined

theorem not_faithful_extendsFramework : ¬ extendsFramework.Faithful [activity] := by
  intro h
  have hcall : (extendsFramework.loadClasses 3 [activity] .injected).map (·.requests) =
      some [(hotfix, .found .new), (activity, .found .new)] := by
    decide
  obtain ⟨s, hs, hrequests⟩ := Option.map_eq_some_iff.mp hcall
  have hright := h 3 s hs (hotfix, .found .new) (by rw [hrequests]; exact List.mem_cons_self)
  exact absurd hright (by decide)

end Classes

end StudyNotes.Patch
