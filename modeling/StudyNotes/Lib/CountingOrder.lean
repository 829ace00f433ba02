/-
# The order of a counting sort

The places of a list, ordered by the keys found there and, for one key, as they stand.  A
place is found in this order by counting: the smaller keys, and the same key before it.
-/

import Mathlib.Data.List.Basic
import Mathlib.Data.List.Perm.Basic

namespace StudyNotes.CountingOrder

variable (keys : List ℕ)

/-- How many keys are smaller. -/
def below (n : ℕ) : ℕ := keys.countP fun key => decide (key < n)

/-- How often a key stands before a place. -/
def earlier (n place : ℕ) : ℕ := (keys.take place).count n

/-- The places of a key. -/
def bucket (n : ℕ) : List ℕ := (List.range keys.length).filter fun j => keys[j]? = some n

/-- The places of the keys smaller than `n`, in order. -/
def ordered (n : ℕ) : List ℕ := (List.range n).flatMap (bucket keys)

variable {keys} {n m place : ℕ}

theorem earlier_succ {k key : ℕ} (hkey : keys[k]? = some key) :
    earlier keys n (k + 1) = earlier keys n k + if key = n then 1 else 0 := by
  rw [earlier, List.take_add_one, List.count_append, earlier, hkey]
  simp [List.count_singleton]

theorem earlier_lt_count (h : keys[place]? = some n) :
    earlier keys n place < keys.count n := by
  obtain ⟨hlt, hget⟩ := List.getElem?_eq_some_iff.mp h
  have hsplit : keys = keys.take place ++ n :: keys.drop (place + 1) := by
    rw [← hget, List.getElem_cons_drop, List.take_append_drop]
  have hcount := congrArg (List.count n) hsplit
  rw [List.count_append, List.count_cons_self] at hcount
  rw [earlier]
  omega

theorem below_eq_zero (hnone : ∀ key ∈ keys, n ≤ key) : below keys n = 0 := by
  rw [below, List.countP_eq_zero]
  intro key hmem
  rw [decide_eq_true_eq, Nat.not_lt]
  exact hnone key hmem

theorem below_succ : below keys (n + 1) = below keys n + keys.count n := by
  induction keys with
  | nil => rfl
  | cons key keys ih =>
      have ih' : keys.countP (fun key => decide (key < n + 1)) =
          keys.countP (fun key => decide (key < n)) + keys.count n := ih
      rw [below, below, List.countP_cons, List.countP_cons, List.count_cons, ih']
      simp only [decide_eq_true_eq, beq_iff_eq]
      split <;> split <;> split <;> omega

theorem below_eq_length (hall : ∀ key ∈ keys, key < n) :
    below keys n = keys.length := by
  rw [below, List.countP_eq_length]
  intro key hmem
  rw [decide_eq_true_eq]
  exact hall key hmem

theorem below_mono (h : n ≤ m) : below keys n ≤ below keys m := by
  refine List.countP_mono_left fun key _ hkey => ?_
  rw [decide_eq_true_eq] at hkey ⊢
  omega

theorem below_le_length : below keys n ≤ keys.length := List.countP_le_length

theorem length_filter_range (n : ℕ) {k : ℕ} (hk : k ≤ keys.length) :
    ((List.range k).filter fun j => keys[j]? = some n).length = earlier keys n k := by
  induction k with
  | zero => simp [earlier]
  | succ k ih =>
      have hlt : k < keys.length := hk
      have hget : keys[k]? = some keys[k] := List.getElem?_eq_getElem hlt
      rw [earlier_succ hget, List.range_succ, List.filter_append, List.length_append,
        ih (by omega), List.filter_singleton, hget]
      by_cases heq : keys[k] = n
      · simp [heq]
      · simp [heq]

theorem length_bucket : (bucket keys n).length = keys.count n := by
  rw [bucket, length_filter_range n (Nat.le_refl _), earlier, List.take_length]

/-- A place comes after the earlier ones of its key. -/
theorem bucket_getElem? (h : keys[place]? = some n) :
    (bucket keys n)[earlier keys n place]? = some place := by
  obtain ⟨hlt, hget⟩ := List.getElem?_eq_some_iff.mp h
  have hrange : List.range keys.length =
      List.range place ++ place :: List.range' (place + 1) (keys.length - (place + 1)) := by
    rw [List.range_eq_range', List.range_eq_range', ← List.range'_succ,
      show keys.length - (place + 1) + 1 = keys.length - place by omega]
    have happend := List.range'_append_1 (s := 0) (m := place) (n := keys.length - place)
    rw [Nat.zero_add, Nat.add_sub_cancel' (Nat.le_of_lt hlt)] at happend
    exact happend.symm
  rw [bucket, hrange, List.filter_append, List.filter_cons_of_pos (by simp [h]),
    List.getElem?_append_right (Nat.le_of_eq (length_filter_range n (by omega))),
    length_filter_range n (by omega), Nat.sub_self, List.getElem?_cons_zero]

theorem ordered_succ : ordered keys (n + 1) = ordered keys n ++ bucket keys n := by
  rw [ordered, List.range_succ, List.flatMap_append, List.flatMap_singleton, ordered]

theorem length_ordered : (ordered keys n).length = below keys n := by
  induction n with
  | zero => rw [below_eq_zero fun key _ => Nat.zero_le key]; rfl
  | succ n ih => rw [ordered_succ, List.length_append, ih, length_bucket, below_succ]

theorem lt_of_mem_ordered (h : place ∈ ordered keys n) : place < keys.length := by
  obtain ⟨m, -, hm⟩ := List.mem_flatMap.mp h
  exact List.mem_range.mp (List.mem_filter.mp hm).1

/-- Where a place is found in the order. -/
theorem ordered_getElem? (h : keys[place]? = some n) (hlt : n < m) :
    (ordered keys m)[below keys n + earlier keys n place]? = some place := by
  induction m with
  | zero => exact absurd hlt (Nat.not_lt_zero n)
  | succ m ih =>
      have hcount := earlier_lt_count h
      rw [ordered_succ]
      by_cases heq : n = m
      · subst heq
        rw [List.getElem?_append_right (by rw [length_ordered]; omega), length_ordered,
          Nat.add_sub_cancel_left, bucket_getElem? h]
      · have hprefix := ih (by omega)
        obtain ⟨hinside, -⟩ := List.getElem?_eq_some_iff.mp hprefix
        rw [List.getElem?_append_left hinside, hprefix]

theorem mem_bucket : place ∈ bucket keys n ↔ keys[place]? = some n := by
  rw [bucket, List.mem_filter, List.mem_range, decide_eq_true_eq]
  exact ⟨And.right, fun h => ⟨(List.getElem?_eq_some_iff.mp h).1, h⟩⟩

/-- The order is by keys, and for one key by places. -/
theorem ordered_pairwise (keys : List ℕ) (n : ℕ) : (ordered keys n).Pairwise fun i j =>
    ∃ a b, keys[i]? = some a ∧ keys[j]? = some b ∧ (a < b ∨ a = b ∧ i < j) := by
  induction n with
  | zero => exact List.Pairwise.nil
  | succ n ih =>
      rw [ordered_succ, List.pairwise_append]
      refine ⟨ih, ?_, ?_⟩
      · have hrange : (bucket keys n).Pairwise (· < ·) :=
          List.Pairwise.filter _ List.pairwise_lt_range
        refine hrange.imp_of_mem ?_
        intro i j hi hj hlt
        exact ⟨n, n, mem_bucket.mp hi, mem_bucket.mp hj, Or.inr ⟨rfl, hlt⟩⟩
      · intro i hi j hj
        obtain ⟨k, hk, hik⟩ := List.mem_flatMap.mp hi
        exact ⟨k, n, mem_bucket.mp hik, mem_bucket.mp hj, Or.inl (List.mem_range.mp hk)⟩

/-- Every place is in the order once. -/
theorem ordered_perm (hall : ∀ key ∈ keys, key < n) :
    (ordered keys n).Perm (List.range keys.length) := by
  have hnodup : (ordered keys n).Nodup := by
    refine (ordered_pairwise keys n).imp ?_
    rintro i j ⟨a, b, hi, hj, hlt⟩ rfl
    rw [hi] at hj
    cases hj
    omega
  rw [List.perm_ext_iff_of_nodup hnodup List.nodup_range]
  intro i
  rw [List.mem_range]
  refine ⟨lt_of_mem_ordered, fun hi => ?_⟩
  have hget : keys[i]? = some keys[i] := List.getElem?_eq_getElem hi
  exact List.mem_of_getElem? (ordered_getElem? hget (hall _ (List.getElem_mem hi)))

end StudyNotes.CountingOrder
