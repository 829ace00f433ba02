/-
# A least-recently-used cache

The behaviour of `android.util.LruCache` with unit-sized entries: a hit moves its
entry to the young end, an insertion replaces the entry of its key and evicts from
the old end.  What a client needs is one rule: a fact about every entry survives
every operation, so a cache that is filled only with right answers gives only
right answers.
-/

import Mathlib.Data.List.Basic

namespace StudyNotes

/-- The entries of a cache, the least recently used one first. -/
structure LruCache (K V : Type*) where
  maxSize : ℕ
  entries : List (K × V) := []

namespace LruCache

variable {K V : Type*} [DecidableEq K]

/-- `cache.get(key)`, with the cache as it is left. -/
def get (cache : LruCache K V) (key : K) : Option V × LruCache K V :=
  match cache.entries.lookup key with
  | none => (none, cache)
  | some v =>
    (some v, { cache with entries := cache.entries.filter (·.1 ≠ key) ++ [(key, v)] })

/-- `cache.put(key, value)`, trimming to `maxSize`. -/
def put (cache : LruCache K V) (key : K) (value : V) : LruCache K V :=
  let entries := cache.entries.filter (·.1 ≠ key) ++ [(key, value)]
  { cache with entries := entries.drop (entries.length - cache.maxSize) }

/-- Eviction by anyone: only the entries under the keys that are kept stay. -/
def evict (cache : LruCache K V) (keep : K → Bool) : LruCache K V :=
  { cache with entries := cache.entries.filter fun e => keep e.1 }

/-- `P` holds of every entry. -/
def Holds (P : K → V → Prop) (cache : LruCache K V) : Prop :=
  ∀ e ∈ cache.entries, P e.1 e.2

omit [DecidableEq K] in
theorem holds_empty (P : K → V → Prop) (n : ℕ) : Holds P { maxSize := n } := by
  simp [Holds]

theorem Holds.get_fst {P : K → V → Prop} {cache : LruCache K V} (h : cache.Holds P) {key : K}
    {v : V} (hv : (cache.get key).1 = some v) : P key v := by
  unfold get at hv
  cases hlookup : cache.entries.lookup key with
  | none => simp [hlookup] at hv
  | some w =>
      simp only [hlookup, Option.some.injEq] at hv
      subst hv
      obtain ⟨l₁, l₂, hentries, -⟩ := List.lookup_eq_some_iff.mp hlookup
      exact h (key, w) (by simp [hentries])

theorem Holds.get_snd {P : K → V → Prop} {cache : LruCache K V} (h : cache.Holds P) (key : K) :
    (cache.get key).2.Holds P := by
  unfold get
  cases hlookup : cache.entries.lookup key with
  | none => exact h
  | some w =>
      have hw : P key w := h.get_fst (show (cache.get key).1 = some w by simp [get, hlookup])
      intro e he
      simp only [List.mem_append, List.mem_filter, List.mem_singleton] at he
      rcases he with ⟨hmem, -⟩ | rfl
      · exact h e hmem
      · exact hw

theorem Holds.put {P : K → V → Prop} {cache : LruCache K V} (h : cache.Holds P) {key : K}
    {value : V} (hv : P key value) : (cache.put key value).Holds P := by
  intro e he
  have hmem := List.mem_of_mem_drop he
  simp only [List.mem_append, List.mem_filter, List.mem_singleton] at hmem
  rcases hmem with ⟨hmem, -⟩ | rfl
  · exact h e hmem
  · exact hv

omit [DecidableEq K] in
theorem Holds.evict {P : K → V → Prop} {cache : LruCache K V} (h : cache.Holds P)
    (keep : K → Bool) : (cache.evict keep).Holds P := by
  intro e he
  exact h e (List.mem_of_mem_filter he)

end LruCache

end StudyNotes
