/-
# The sampler's window (`StackSampler.mStackMap`)

The sampler keeps its stacks in a map in the order of insertion and makes room for a new
one when there are a hundred.  While the clock goes forward, the map is a window on all
samples that were ever taken, and `getStacks` answers for the samples in it.  Its interval
stops one below the end it is asked for, and nowhere if that is the least number.
-/

import Mathlib.Algebra.Group.Int.Defs
import StudyNotes.Lib.LinkedMap
import StudyNotes.Lib.Refinement
import StudyNotes.Monitor.StackSampler

namespace StudyNotes.Monitor

open StudyNotes.Refinement

/-! ## The map -/

abbrev SampleMap := LinkedMap Int64 String

/-- A closed interval of time stamps. -/
structure LongRange where
  first : Int64
  last : Int64

def LongRange.contains (range : LongRange) (key : Int64) : Bool :=
  range.first ≤ key && key ≤ range.last

/-- `startTime until endTime`, of the Kotlin library.  Below the least number there is
none to stop at, so the interval is the empty one `1..0`. -/
def longUntil (startTime endTime : Int64) : LongRange :=
  if endTime ≤ Int64.minValue then ⟨1, 0⟩ else ⟨startTime, endTime - 1⟩

/-- `SEPARATOR`. -/
def separator : String := "\r\n"

/-- A line of the answer, with the time format. -/
def line (format : Int64 → String) (sample : Int64 × String) : String :=
  format sample.1 ++ separator ++ separator ++ sample.2

namespace SampleMap

/-- The synchronized part of `mRunnable`. -/
def store (mStackMap : SampleMap) (now : Int64) (stack : String) : SampleMap :=
  let mStackMap :=
    if h : mStackMap.size = mMaxCount then
      mStackMap.remove (mStackMap.firstKey (h ▸ Nat.succ_pos 99))
    else mStackMap
  mStackMap.put now stack

/-- `getStacks(startTime, endTime)`. -/
def getStacks (format : Int64 → String) (mStackMap : SampleMap) (startTime endTime : Int64) :
    List String :=
  (mStackMap.entries.filter fun sample => (longUntil startTime endTime).contains sample.1).map
    (line format)

end SampleMap

/-- What happens to the map, one call after another under its lock. -/
inductive WindowCall
  | run (now : Int64) (stack : String)
  | getStacks (startTime endTime : Int64)
  deriving DecidableEq

/-- The map of the sampler. -/
def sampleMachine (format : Int64 → String) :
    Machine SampleMap WindowCall (Option (List String))
  | mStackMap, .run now stack => (none, mStackMap.store now stack)
  | mStackMap, .getStacks startTime endTime =>
      (some (mStackMap.getStacks format startTime endTime), mStackMap)

/-! ## The window -/

/-- The samples that are kept, of all that were taken. -/
def window (samples : List (Int64 × String)) : List (Int64 × String) :=
  samples.drop (samples.length - mMaxCount)

/-- The samples of the window in `[startTime, endTime)`. -/
def windowBetween (samples : List (Int64 × String)) (startTime endTime : Int64) :
    List (Int64 × String) :=
  (window samples).filter fun sample => startTime ≤ sample.1 ∧ sample.1 < endTime

/-- All samples are remembered, and an answer is about the window. -/
def windowMachine (format : Int64 → String) :
    Machine (List (Int64 × String)) WindowCall (Option (List String))
  | samples, .run now stack => (none, samples ++ [(now, stack)])
  | samples, .getStacks startTime endTime =>
      (some ((windowBetween samples startTime endTime).map (line format)), samples)

/-- The samples of a run. -/
def taken : List WindowCall → List (Int64 × String)
  | [] => []
  | .run now stack :: calls => (now, stack) :: taken calls
  | .getStacks _ _ :: calls => taken calls

/-- The clock goes forward. -/
def Ascending (samples : List (Int64 × String)) : Prop :=
  samples.Pairwise fun x y => x.1 < y.1

instance (samples : List (Int64 × String)) : Decidable (Ascending samples) :=
  inferInstanceAs (Decidable (samples.Pairwise fun x y => x.1 < y.1))

/-- The next sample is later than all before it. -/
def Later (samples : List (Int64 × String)) : WindowCall → Prop
  | .run now stack => Ascending (samples ++ [(now, stack)])
  | .getStacks _ _ => True

/-! ## The interval -/

theorem contains_longUntil_iff (startTime endTime key : Int64) :
    (longUntil startTime endTime).contains key = true ↔ startTime ≤ key ∧ key < endTime := by
  rw [LongRange.contains, Bool.and_eq_true, decide_eq_true_iff, decide_eq_true_iff, longUntil]
  have hkey := key.le_toInt
  have hend := endTime.toInt_lt
  have hend' := endTime.le_toInt
  have hmin : Int64.minValue.toInt = -2 ^ 63 := rfl
  by_cases hleast : endTime ≤ Int64.minValue
  · -- No key is below the least number, and none is in `1..0`.
    rw [if_pos hleast]
    have hone : (1 : Int64).toInt = 1 := rfl
    have hzero : (0 : Int64).toInt = 0 := rfl
    simp only [Int64.le_iff_toInt_le, Int64.lt_iff_toInt_lt] at hleast ⊢
    omega
  · rw [if_neg hleast]
    have hone : (1 : Int64).toInt = 1 := rfl
    have hlast : (endTime - 1).toInt = endTime.toInt - 1 := by
      simp only [Int64.le_iff_toInt_le] at hleast
      rw [Int64.toInt_sub, Int.bmod_def]
      omega
    simp only [Int64.le_iff_toInt_le, Int64.lt_iff_toInt_lt]
    omega

theorem SampleMap.getStacks_eq (format : Int64 → String) {mStackMap : SampleMap}
    {samples : List (Int64 × String)} (h : mStackMap.entries = window samples)
    (startTime endTime : Int64) :
    mStackMap.getStacks format startTime endTime =
      (windowBetween samples startTime endTime).map (line format) := by
  rw [SampleMap.getStacks, windowBetween, h]
  refine congrArg _ (List.filter_congr fun sample _ => ?_)
  rw [Bool.eq_iff_iff, contains_longUntil_iff, decide_eq_true_iff]

/-! ## One sample -/

section Store

variable {samples : List (Int64 × String)} {now : Int64} {stack : String}

theorem length_window (samples : List (Int64 × String)) :
    (window samples).length = min samples.length mMaxCount := by
  rw [window, List.length_drop]
  omega

/-- The window moves on by one sample once it is full. -/
theorem window_concat (samples : List (Int64 × String)) (sample : Int64 × String) :
    window (samples ++ [sample]) =
      (if (window samples).length = mMaxCount then (window samples).tail else window samples) ++
        [sample] := by
  have hlength := length_window samples
  rw [window, List.length_append, List.length_singleton]
  by_cases hfull : (window samples).length = mMaxCount
  · have hnext : samples.length + 1 - mMaxCount = samples.length - mMaxCount + 1 := by omega
    have hle : samples.length - mMaxCount + 1 ≤ samples.length := by
      have hpos : 0 < mMaxCount := by decide
      omega
    rw [if_pos hfull, window, List.tail_drop, hnext, List.drop_append_of_le_length hle]
  · have hall : samples.length + 1 - mMaxCount = samples.length - mMaxCount := by omega
    rw [if_neg hfull, window, hall, List.drop_append_of_le_length (Nat.sub_le _ _)]

/-- A sample under a new time stamp goes to the end, after the oldest one made room. -/
theorem SampleMap.entries_store {mStackMap : SampleMap}
    (hnew : now ∉ mStackMap.entries.map Prod.fst) :
    (mStackMap.store now stack).entries =
      (if mStackMap.entries.length = mMaxCount then mStackMap.entries.tail
        else mStackMap.entries) ++ [(now, stack)] := by
  rw [SampleMap.store]
  by_cases hfull : mStackMap.size = mMaxCount
  · have hfull' : mStackMap.entries.length = mMaxCount := hfull
    have hrest := mStackMap.entries_remove_firstKey (hfull ▸ Nat.succ_pos 99)
    rw [dif_pos hfull, if_pos hfull', LinkedMap.entries_put_of_notMem, hrest]
    -- The key is also new to what is left.
    rw [hrest]
    exact fun hmem => hnew (List.map_subset _ (List.tail_subset _) hmem)
  · have hfull' : ¬ mStackMap.entries.length = mMaxCount := hfull
    rw [dif_neg hfull, if_neg hfull', mStackMap.entries_put_of_notMem hnew]

/-- A later time stamp is a new one. -/
theorem Ascending.notMem (h : Ascending (samples ++ [(now, stack)])) :
    now ∉ (window samples).map Prod.fst := by
  intro hmem
  obtain ⟨sample, hsample, rfl⟩ := List.mem_map.mp hmem
  have hlt := (List.pairwise_append.mp h).2.2 sample (List.mem_of_mem_drop hsample) _
    List.mem_cons_self
  exact Int64.lt_irrefl hlt

end Store

/-! ## Every run -/

/-- The map is the window on all samples, as long as the clock goes forward. -/
theorem sampleMachine_refines (format : Int64 → String) :
    Machine.Refines (sampleMachine format) (windowMachine format)
      (fun mStackMap samples => mStackMap.entries = window samples) Later where
  answer := by
    rintro mStackMap samples (⟨now, stack⟩ | ⟨startTime, endTime⟩) hrel -
    · rfl
    · exact congrArg some (SampleMap.getStacks_eq format hrel startTime endTime)
  next := by
    rintro mStackMap samples (⟨now, stack⟩ | ⟨startTime, endTime⟩) hrel hlater
    · have hnew : now ∉ mStackMap.entries.map Prod.fst := by
        rw [hrel]
        exact Ascending.notMem hlater
      show (mStackMap.store now stack).entries = window (samples ++ [(now, stack)])
      rw [SampleMap.entries_store hnew, hrel, window_concat]
    · exact hrel

theorem windowMachine_final (format : Int64 → String) (samples : List (Int64 × String))
    (calls : List WindowCall) :
    (windowMachine format).final samples calls = samples ++ taken calls := by
  induction calls generalizing samples with
  | nil => exact (List.append_nil samples).symm
  | cons call calls ih =>
      cases call with
      | run now stack =>
          rw [taken, List.append_cons]
          exact ih (samples ++ [(now, stack)])
      | getStacks startTime endTime => exact ih samples

theorem admitted_of_ascending (format : Int64 → String) (samples : List (Int64 × String))
    {calls : List WindowCall} (h : Ascending (samples ++ taken calls)) :
    (windowMachine format).Admitted Later samples calls := by
  induction calls generalizing samples with
  | nil => exact True.intro
  | cons call calls ih =>
      cases call with
      | run now stack =>
          rw [taken, List.append_cons] at h
          exact ⟨h.sublist (List.sublist_append_left _ _), ih _ h⟩
      | getStacks startTime endTime => exact ⟨True.intro, ih _ h⟩

/-- In every run in which the time stamps ascend, the map holds the last hundred samples in
their order, each `getStacks` on the way was answered for the window of its moment, and the
next one returns the samples of its interval, in order and once each. -/
theorem sampleMachine_window (format : Int64 → String) (calls : List WindowCall)
    (hclock : Ascending (taken calls)) :
    ((sampleMachine format).final .empty calls).entries =
        (taken calls).drop ((taken calls).length - 100) ∧
      ((sampleMachine format).final .empty calls).size = min (taken calls).length 100 ∧
      (sampleMachine format).answers .empty calls = (windowMachine format).answers [] calls ∧
      ∀ startTime endTime,
        ((sampleMachine format).final .empty calls).getStacks format startTime endTime =
            (windowBetween (taken calls) startTime endTime).map (line format) ∧
          Ascending (windowBetween (taken calls) startTime endTime) := by
  have hstart : (LinkedMap.empty : SampleMap).entries = window [] := rfl
  have hadmitted := admitted_of_ascending format [] hclock
  have hentries := (sampleMachine_refines format).final hstart hadmitted
  rw [windowMachine_final, List.nil_append] at hentries
  refine ⟨hentries, ?_, (sampleMachine_refines format).answers_eq hstart hadmitted, ?_⟩
  · rw [LinkedMap.size, hentries, length_window]
    rfl
  · intro startTime endTime
    refine ⟨SampleMap.getStacks_eq format hentries startTime endTime, ?_⟩
    exact hclock.sublist (List.filter_sublist.trans (List.drop_sublist _ _))

/-- After a hundred and one samples the oldest one is gone, and the least number ends the
empty interval. -/
theorem sampleMachine_window_full :
    Ascending (taken ((List.range 101).map fun i => .run (.ofNat i) "main")) ∧
      ((sampleMachine fun _ => "").final .empty
        ((List.range 101).map fun i => .run (.ofNat i) "main")).size = 100 ∧
      ((sampleMachine fun _ => "").final .empty
        ((List.range 101).map fun i => .run (.ofNat i) "main")).getStacks (fun _ => "") 0
          Int64.minValue = [] := by
  have hclock : Ascending (taken ((List.range 101).map fun i => .run (.ofNat i) "main")) := by
    decide +kernel
  obtain ⟨-, hsize, -, hstacks⟩ := sampleMachine_window (fun _ => "") _ hclock
  refine ⟨hclock, ?_, ?_⟩
  · rw [hsize]
    decide +kernel
  · rw [(hstacks 0 Int64.minValue).1]
    decide +kernel

end StudyNotes.Monitor
