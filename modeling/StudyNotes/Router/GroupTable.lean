/-
# The group table never dangles

A compilation writes its classes one after another.  A group enters `mAllGroupMap` only
behind the successful write of its Path class, and the map is never emptied, so
whatever the `Filer` refuses and wherever the loop of `createPathFile` is abandoned,
a Group class lists only Path classes that were written before it, each under the
group it was written for.
-/

import StudyNotes.Lib.Fallible
import StudyNotes.Lib.Run
import StudyNotes.Router.Processor

namespace StudyNotes.Router

open StudyNotes.Text StudyNotes.Run StudyNotes.Fallible

/-- The rounds of one compilation.  An exception out of `process` ends it; the loop over
the elements, the only part that throws one, comes before the writes of its round. -/
def compile (env : ProcessingEnv) (s : ProcessorState) : List (List Element) → ProcessorState
  | [] => s
  | elements :: rounds =>
      match process env s elements with
      | .ok s => compile env s rounds
      | .error _ => s

/-- The Path class of a group, made of beans of this group only. -/
structure IsPathClassOf (file : JavaFile) (group : Str) : Prop where
  generated : ∃ beans, file = pathFile group beans ∧ ∀ bean ∈ beans, bean.group = group

/-- A class written after `before` refers to classes written before it: a Group class
lists under each group a Path class generated for this group.  A Path class is always
the class of some group. -/
def Backed (env : ProcessingEnv) (before : List JavaFile) (file : JavaFile) : Prop :=
  match file with
  | .path .. => ∃ group, IsPathClassOf file group
  | .group _ puts =>
      ∀ put ∈ puts, ∃ pathClass ∈ before, IsPathClassOf pathClass put.1 ∧
        put.2 = qualifiedName env.aptPackage pathClass.className

/-- What the fields of the processor have to do with the classes written. -/
structure Traced (env : ProcessingEnv) (s : ProcessorState) : Prop where
  beans : ∀ entry ∈ s.mAllPathMap.entries, ∀ bean ∈ entry.2, bean.group = entry.1
  groups : ∀ entry ∈ s.mAllGroupMap.entries,
    ∃ pathClass ∈ s.files, IsPathClassOf pathClass entry.1 ∧ entry.2 = pathClass.className
  files : EveryStep (Backed env) s.files

/-- An entry of a map after `put` is the new one or an old one. -/
theorem mem_entries_insert {V : Type} {m : HashMap V} {k : Str} {v : V}
    {entry : Sigma fun _ : Str => V} (h : entry ∈ (m.insert k v).entries) :
    entry = ⟨k, v⟩ ∨ entry ∈ m.entries := by
  rw [AList.entries_insert, List.mem_cons] at h
  exact h.imp_right fun hmem => (List.kerase_sublist k m.entries).subset hmem

namespace Traced

variable {env : ProcessingEnv} {s : ProcessorState}

theorem initial (env : ProcessingEnv) : Traced env {} where
  beans := fun entry h => by cases h
  groups := fun entry h => by cases h
  files := everyStep_nil

theorem fileBean (h : Traced env s) (bean : RouterBean) : Traced env (fileBean s bean) := by
  refine ⟨?_, h.groups, h.files⟩
  intro entry hentry
  rcases mem_entries_insert hentry with rfl | hold
  · intro bean' hbean'
    rcases List.mem_append.mp hbean' with hearlier | hnew
    · cases hlookup : s.mAllPathMap.lookup bean.group with
      | none =>
          rw [hlookup] at hearlier
          cases hearlier
      | some beans =>
          rw [hlookup] at hearlier
          have hmem := AList.mem_lookup_iff.mp (Option.mem_def.mpr hlookup)
          exact h.beans _ hmem bean' hearlier
    · rw [List.mem_singleton.mp hnew]
  · exact h.beans entry hold

theorem processElement (h : Traced env s) {e : Element} {s' : ProcessorState}
    (hs' : processElement s e = .ok s') : Traced env s' := by
  obtain ⟨bean, rfl⟩ | ⟨errors, rfl⟩ := processElement_outcome hs'
  · exact h.fileBean bean
  · exact ⟨h.beans, h.groups, h.files⟩

theorem foldlM_processElement (h : Traced env s) {elements : List Element}
    {s' : ProcessorState} (hs' : elements.foldlM Router.processElement s = .ok s') :
    Traced env s' := by
  induction elements generalizing s with
  | nil =>
      obtain rfl := Except.ok.inj hs'
      exact h
  | cons e elements ih =>
      obtain ⟨t, ht, hrest⟩ := foldlM_cons_eq_ok_iff.mp hs'
      exact ih (h.processElement ht) hrest

/-- A write that succeeds is recorded; the classes written before stay. -/
theorem pathWritten (h : Traced env s) {group : Str} {beans : List RouterBean}
    (hbeans : ∀ bean ∈ beans, bean.group = group) (attempts : ℕ) :
    Traced env { s with
      attempts := attempts
      files := s.files ++ [pathFile group beans]
      mAllGroupMap := s.mAllGroupMap.insert group (pathFile group beans).className } := by
  have hclass : IsPathClassOf (pathFile group beans) group := ⟨beans, rfl, hbeans⟩
  refine ⟨h.beans, ?_, h.files.concat ⟨group, hclass⟩⟩
  intro entry hentry
  rcases mem_entries_insert hentry with rfl | hold
  · exact ⟨pathFile group beans, by simp, hclass, rfl⟩
  · obtain ⟨pathClass, hmem, hgroup⟩ := h.groups entry hold
    exact ⟨pathClass, List.mem_append_left _ hmem, hgroup⟩

/-- Whatever a write does, the loop goes on from a traced state or ends in one. -/
theorem writePathFiles (h : Traced env s)
    {entries : List (Sigma fun _ : Str => List RouterBean)}
    (hentries : ∀ entry ∈ entries, ∀ bean ∈ entry.2, bean.group = entry.1) :
    Traced env (writePathFiles env entries s) := by
  induction entries generalizing s with
  | nil => exact h
  | cons entry entries ih =>
      rw [List.forall_mem_cons] at hentries
      have htried : Traced env { s with attempts := s.attempts + 1 } :=
        ⟨h.beans, h.groups, h.files⟩
      rw [Router.writePathFiles]
      cases env.filer s.attempts s.files (pathFile entry.1 entry.2) with
      | ok => exact ih (h.pathWritten hentries.1 _) hentries.2
      | ioException => exact ih htried hentries.2
      | otherException => exact htried

theorem createPathFile (h : Traced env s) : Traced env (createPathFile env s) := by
  apply h.writePathFiles
  intro entry hentry
  exact h.beans entry ((env.pathOrder.perm _).mem_iff.mp hentry)

/-- The Group class lists what `mAllGroupMap` holds. -/
theorem backed_groupFile (h : Traced env s) :
    Backed env s.files (groupFile env s.mAllGroupMap) := by
  intro put hput
  obtain ⟨entry, hentry, rfl⟩ := List.mem_map.mp hput
  obtain ⟨pathClass, hmem, hgroup, hname⟩ :=
    h.groups entry ((env.groupOrder.perm _).mem_iff.mp hentry)
  exact ⟨pathClass, hmem, hgroup, by rw [hname]⟩

theorem createGroupFile (h : Traced env s) : Traced env (createGroupFile env s) := by
  have htried : Traced env { s with attempts := s.attempts + 1 } :=
    ⟨h.beans, h.groups, h.files⟩
  rw [Router.createGroupFile]
  split
  · exact h
  · dsimp only
    cases env.filer s.attempts s.files (groupFile env s.mAllGroupMap) with
    | ok =>
        refine ⟨h.beans, ?_, h.files.concat h.backed_groupFile⟩
        intro entry hentry
        obtain ⟨pathClass, hmem, hgroup⟩ := h.groups entry hentry
        exact ⟨pathClass, List.mem_append_left _ hmem, hgroup⟩
    | ioException => exact htried
    | otherException => exact htried

theorem process (h : Traced env s) {elements : List Element} {s' : ProcessorState}
    (hs' : process env s elements = .ok s') : Traced env s' := by
  rw [Router.process] at hs'
  split at hs'
  · obtain rfl := Except.ok.inj hs'
    exact h
  · obtain ⟨t, ht, hwritten⟩ := bind_eq_ok_iff.mp hs'
    obtain rfl := Except.ok.inj hwritten
    exact (h.foldlM_processElement ht).createPathFile.createGroupFile

theorem compile (h : Traced env s) (rounds : List (List Element)) :
    Traced env (compile env s rounds) := by
  induction rounds generalizing s with
  | nil => exact h
  | cons elements rounds ih =>
      rw [Router.compile]
      cases hround : Router.process env s elements with
      | ok s' => exact ih (h.process hround)
      | error exception => exact h

end Traced

/-- Whatever the elements of the rounds are and whichever writes fail, a Group class lists
under each group a Path class that was generated before it, for this very group. -/
theorem everyStep_backed_compile (env : ProcessingEnv) (rounds : List (List Element)) :
    EveryStep (Backed env) (compile env {} rounds).files :=
  ((Traced.initial env).compile rounds).files

end StudyNotes.Router
