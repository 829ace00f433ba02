/-
# A map in the order of insertion

The behaviour of `LinkedHashMap`: a new key goes to the end, a key that is there keeps its
place, and the first key is the one that has been there longest.
-/

import Mathlib.Data.List.Nodup

namespace StudyNotes

/-- The entries of a map in their order, under keys of their own. -/
structure LinkedMap (K V : Type) where
  entries : List (K × V)
  nodup : (entries.map Prod.fst).Nodup

namespace LinkedMap

variable {K V : Type}

def empty : LinkedMap K V := ⟨[], List.nodup_nil⟩

def size (map : LinkedMap K V) : ℕ := map.entries.length

/-- `keys.iterator().next()`, which there is in a map that is not empty. -/
def firstKey (map : LinkedMap K V) (h : 0 < map.size) : K :=
  (map.entries.head (List.ne_nil_of_length_pos h)).1

variable [DecidableEq K]

theorem map_fst_replace (entries : List (K × V)) (key : K) (value : V) :
    (entries.map fun x => if x.1 = key then (key, value) else x).map Prod.fst =
      entries.map Prod.fst := by
  rw [List.map_map]
  refine List.map_congr_left fun x _ => ?_
  by_cases hx : x.1 = key
  · simp [hx]
  · simp [hx]

def remove (map : LinkedMap K V) (key : K) : LinkedMap K V where
  entries := map.entries.filter (·.1 ≠ key)
  nodup := map.nodup.sublist (List.filter_sublist.map Prod.fst)

def put (map : LinkedMap K V) (key : K) (value : V) : LinkedMap K V :=
  if h : key ∈ map.entries.map Prod.fst then
    { entries := map.entries.map fun x => if x.1 = key then (key, value) else x
      nodup := by
        rw [map_fst_replace]
        exact map.nodup }
  else
    { entries := map.entries ++ [(key, value)]
      nodup := by
        rw [List.map_append, List.map_singleton, ← List.concat_eq_append, List.nodup_concat]
        exact ⟨h, map.nodup⟩ }

variable (map : LinkedMap K V) {key : K} {value : V}

theorem entries_put (key : K) (value : V) :
    (map.put key value).entries =
      if key ∈ map.entries.map Prod.fst then
        map.entries.map fun x => if x.1 = key then (key, value) else x
      else map.entries ++ [(key, value)] := by
  rw [put]
  split
  next => rfl
  next => rfl

/-- A new key goes to the end. -/
theorem entries_put_of_notMem (h : key ∉ map.entries.map Prod.fst) :
    (map.put key value).entries = map.entries ++ [(key, value)] := by
  rw [entries_put, if_neg h]

/-- No other entry has the first key. -/
theorem entries_remove_firstKey (h : 0 < map.size) :
    (map.remove (map.firstKey h)).entries = map.entries.tail := by
  obtain ⟨entries, hnodup⟩ := map
  cases entries with
  | nil => exact absurd h (Nat.lt_irrefl 0)
  | cons first rest =>
      rw [List.map_cons, List.nodup_cons] at hnodup
      show (first :: rest).filter (fun x => decide (x.1 ≠ first.1)) = rest
      rw [List.filter_cons_of_neg (by simp), List.filter_eq_self]
      intro x hx
      have hne : x.1 ≠ first.1 := fun heq => hnodup.1 (heq ▸ List.mem_map_of_mem hx)
      exact decide_eq_true hne

end LinkedMap

end StudyNotes
