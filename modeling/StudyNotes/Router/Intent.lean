/-
# Intent extras

What travels between a caller and the class it starts: texts as keys, and values
that keep their type.  A `Bundle` is a finite map, so two bundles are equal when
they answer every key alike.
-/

import Mathlib.Logic.Function.Basic
import StudyNotes.Lib.Text

namespace StudyNotes.Router

open StudyNotes.Text

/-- An object of a `Parcelable` class; `id` tells instances apart. -/
structure Obj where
  className : Str
  id : ℕ
  deriving DecidableEq, Repr

/-- A stored value with its run-time type.  `other` stands for the types neither
half of the router reads. -/
inductive Extra
  | int (value : Int32)
  | boolean (value : Bool)
  | string (value : Str)
  | parcelable (value : Obj)
  | null
  | other
  deriving DecidableEq

/-- `android.os.Bundle`. -/
abbrev Bundle := Str → Option Extra

namespace Bundle

/-- The empty bundle. -/
def empty : Bundle := fun _ => none

/-- `putInt`, `putString` and `putParcelable` all store one value under a key. -/
def put (bundle : Bundle) (key : Str) (value : Extra) : Bundle :=
  Function.update bundle key (some value)

@[simp]
theorem put_same (bundle : Bundle) (key : Str) (value : Extra) :
    bundle.put key value key = some value :=
  Function.update_self _ _ _

theorem put_of_ne (bundle : Bundle) {key k : Str} (h : k ≠ key) (value : Extra) :
    bundle.put key value k = bundle k :=
  Function.update_of_ne h _ _

end Bundle

/-- A `with*` call of the fluent API.  References may be null. -/
inductive WithCall
  | withInt (key : Str) (value : Int32)
  | withString (key : Str) (value : Option Str)
  | withParcelable (key : Str) (value : Option Obj)
  deriving DecidableEq

namespace WithCall

/-- The key a call stores under. -/
def key : WithCall → Str
  | .withInt key _ => key
  | .withString key _ => key
  | .withParcelable key _ => key

/-- The value a call stores. -/
def value : WithCall → Extra
  | .withInt _ v => .int v
  | .withString _ v => v.elim .null .string
  | .withParcelable _ v => v.elim .null .parcelable

end WithCall

/-- The extras given by a sequence of calls on top of a bundle; a repeated key
keeps its last value. -/
def putAll (bundle : Bundle) (calls : List WithCall) : Bundle :=
  calls.foldl (fun b c => b.put c.key c.value) bundle

@[simp]
theorem putAll_nil (bundle : Bundle) : putAll bundle [] = bundle := rfl

@[simp]
theorem putAll_cons (bundle : Bundle) (c : WithCall) (calls : List WithCall) :
    putAll bundle (c :: calls) = putAll (bundle.put c.key c.value) calls := rfl

theorem putAll_append (bundle : Bundle) (calls calls' : List WithCall) :
    putAll bundle (calls ++ calls') = putAll (putAll bundle calls) calls' :=
  List.foldl_append

/-- A key that is not set keeps its value. -/
theorem putAll_of_notMem (bundle : Bundle) {calls : List WithCall} {k : Str}
    (hk : k ∉ calls.map WithCall.key) : putAll bundle calls k = bundle k := by
  induction calls generalizing bundle with
  | nil => rfl
  | cons c calls ih =>
      rw [List.map_cons, List.mem_cons, not_or] at hk
      rw [putAll_cons, ih _ hk.2, Bundle.put_of_ne _ hk.1]

/-- A key that is set does not depend on what was there before. -/
theorem putAll_of_mem (bundle bundle' : Bundle) {calls : List WithCall} {k : Str}
    (hk : k ∈ calls.map WithCall.key) : putAll bundle calls k = putAll bundle' calls k := by
  induction calls generalizing bundle bundle' with
  | nil => simp at hk
  | cons c calls ih =>
      rw [putAll_cons, putAll_cons]
      by_cases hmem : k ∈ calls.map WithCall.key
      · exact ih _ _ hmem
      · obtain rfl : k = c.key := by simpa [hmem] using hk
        rw [putAll_of_notMem _ hmem, putAll_of_notMem _ hmem, Bundle.put_same, Bundle.put_same]

/-- The keys of the extras given by a sequence of calls. -/
theorem putAll_empty_ne_none_iff {calls : List WithCall} {k : Str} :
    putAll .empty calls k ≠ none ↔ k ∈ calls.map WithCall.key := by
  induction calls using List.reverseRecOn with
  | nil => simp [Bundle.empty]
  | append_singleton calls c ih =>
      rw [putAll_append, putAll_cons, putAll_nil, List.map_append, List.mem_append,
        List.map_singleton, List.mem_singleton]
      by_cases h : k = c.key
      · simp [h]
      · rw [Bundle.put_of_ne _ h, ih]
        simp [h]

end StudyNotes.Router
