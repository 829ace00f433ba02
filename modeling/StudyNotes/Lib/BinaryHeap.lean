/-
# Heaps in arrays

A heap has its entries from number 1 on, each of them not below the one with half its number.
Entry 0 is a sentinel that is not above any other.  An entry that is too small moves up and one
that is too large moves down; both loops carry a hole with them and fill it at the end.
-/

import Mathlib.Order.Lattice
import StudyNotes.Lib.Checked

namespace StudyNotes.BinaryHeap

open StudyNotes.Checked

variable {α κ : Type} [LinearOrder κ] (key : α → κ)

/-- Moves the hole up until `a` fits into it.  Without the sentinel there would be no end. -/
def siftUp (heap : List α) (hole : ℕ) (a : α) : Option (List α) :=
  if h : 0 < hole ∧ hole < heap.length then
    let parent := heap.get ⟨hole / 2, by omega⟩
    if key a < key parent then siftUp (heap.set hole parent) (hole / 2) a
    else some (heap.set hole a)
  else none
termination_by hole
decreasing_by omega

/-- The smaller one of two children, if there are two. -/
def smallerChild (heap : List α) (child : ℕ) : ℕ :=
  if h : child + 1 < heap.length then
    if key heap[child + 1] < key heap[child] then child + 1 else child
  else child

theorem smallerChild_lt {heap : List α} {child : ℕ} (h : child < heap.length) :
    smallerChild key heap child < heap.length := by
  rw [smallerChild]
  split
  · split <;> omega
  · exact h

theorem le_smallerChild (heap : List α) (child : ℕ) : child ≤ smallerChild key heap child := by
  rw [smallerChild]
  split
  · split <;> omega
  · exact Nat.le_refl _

/-- Moves the hole down until `a` fits into it. -/
def siftDown (heap : List α) (hole : ℕ) (a : α) : Option (List α) :=
  if h : 0 < hole ∧ 2 * hole < heap.length then
    let child := heap.get ⟨smallerChild key heap (2 * hole), smallerChild_lt key h.2⟩
    if key a < key child then some (heap.set hole a)
    else siftDown (heap.set hole child) (smallerChild key heap (2 * hole)) a
  else write heap hole a
termination_by heap.length - hole
decreasing_by
  have hle := le_smallerChild key heap (2 * hole)
  rw [List.length_set]
  omega

/-- A new entry, in an array with so many places. -/
def insert (size : ℕ) (heap : List α) (a : α) : Option (List α) := do
  let heap ← push size heap a
  siftUp key heap (heap.length - 1) a

/-- Takes the first entry out and puts the last one in its place. -/
def extract (heap : List α) : Option (α × List α) := do
  let root ← heap[1]?
  let last ← heap[heap.length - 1]?
  let heap := (heap.set 1 last).dropLast
  if heap.length ≤ 1 then return (root, heap)
  else return (root, ← siftDown key heap 1 last)

/-- No entry is below its parent. -/
def Ordered (heap : List α) : Prop :=
  ∀ (i : ℕ) (a b : α), 2 ≤ i → heap[i / 2]? = some a → heap[i]? = some b → key a ≤ key b

/-- A heap but for an entry that may be too small. -/
structure OrderedAbove (heap : List α) (hole : ℕ) : Prop where
  others : ∀ (i : ℕ) (a b : α), 2 ≤ i → i ≠ hole → heap[i / 2]? = some a → heap[i]? = some b →
    key a ≤ key b
  around : ∀ (i : ℕ) (a b : α), 2 ≤ hole → i / 2 = hole → heap[hole / 2]? = some a →
    heap[i]? = some b → key a ≤ key b

/-- A heap but for an entry that may be too large. -/
structure OrderedBelow (heap : List α) (hole : ℕ) : Prop where
  others : ∀ (i : ℕ) (a b : α), 2 ≤ i → i / 2 ≠ hole → heap[i / 2]? = some a →
    heap[i]? = some b → key a ≤ key b
  around : ∀ (i : ℕ) (a b : α), 2 ≤ hole → i / 2 = hole → heap[hole / 2]? = some a →
    heap[i]? = some b → key a ≤ key b

section Spec

variable {key} {heap : List α} {hole : ℕ} {a b : α}

theorem getElem?_set_of_lt (hlt : hole < heap.length) (a : α) (i : ℕ) :
    (heap.set hole a)[i]? = if hole = i then some a else heap[i]? := by
  rw [List.getElem?_set, if_pos hlt]

/-- An entry and the hole change places. -/
theorem set_set_perm {i j : ℕ} (hi : i < heap.length) (hj : heap[j]? = some b) (hne : i ≠ j)
    (a : α) : ((heap.set i b).set j a).Perm (heap.set i a) := by
  obtain ⟨hj', rfl⟩ := List.getElem?_eq_some_iff.mp hj
  have hi' : i < (heap.set i a).length := by rw [List.length_set]; exact hi
  have hj'' : j < (heap.set i a).length := by rw [List.length_set]; exact hj'
  have hswap := List.set_set_perm hi' hj''
  rw [List.getElem_set_self, List.getElem_set_ne hne, List.set_set] at hswap
  exact hswap

theorem Ordered.root_le (h : Ordered key heap) {root : α} (hroot : heap[1]? = some root) {i : ℕ}
    (hpos : 1 ≤ i) (hb : heap[i]? = some b) : key root ≤ key b := by
  induction i using Nat.strongRecOn generalizing b with
  | ind i ih =>
      by_cases hone : i = 1
      · rw [hone, hroot] at hb
        rw [Option.some.inj hb]
      · have hlt := (List.getElem?_eq_some_iff.mp hb).1
        have hparent : heap[i / 2]? = some heap[i / 2] := List.getElem?_eq_getElem (by omega)
        exact le_trans (ih (i / 2) (by omega) (by omega) hparent)
          (h i _ b (by omega) hparent hb)

/-- A hole at the end can only be too small. -/
theorem Ordered.concat (h : Ordered key heap) (a : α) :
    OrderedAbove key (heap ++ [a]) heap.length := by
  refine ⟨fun i x y hi hne hx hy => ?_, fun i x y hhole hi _ hy => ?_⟩
  · have hlt := (List.getElem?_eq_some_iff.mp hy).1
    rw [List.length_append, List.length_singleton] at hlt
    rw [List.getElem?_append_left (by omega)] at hx hy
    exact h i x y hi hx hy
  · have hlt := (List.getElem?_eq_some_iff.mp hy).1
    rw [List.length_append, List.length_singleton] at hlt
    omega

/-- The hole goes up by one place. -/
theorem OrderedAbove.up {parent : α} (h : OrderedAbove key (heap.set hole a) hole)
    (htwo : 2 ≤ hole) (hlt : hole < heap.length) (hparent : heap[hole / 2]? = some parent)
    (hless : key a < key parent) :
    OrderedAbove key ((heap.set hole parent).set (hole / 2) a) (hole / 2) := by
  have hparent' : (heap.set hole a)[hole / 2]? = some parent := by
    rw [List.getElem?_set_ne (by omega), hparent]
  -- Only the entries at the hole and at its parent are others than before.
  have hnew (i : ℕ) : ((heap.set hole parent).set (hole / 2) a)[i]? =
      if hole / 2 = i then some a else if hole = i then some parent
        else (heap.set hole a)[i]? := by
    rw [getElem?_set_of_lt (by rw [List.length_set]; omega), getElem?_set_of_lt hlt,
      getElem?_set_of_lt hlt]
    split
    · rfl
    · split <;> rfl
  refine ⟨fun i x y hi hne hx hy => ?_, fun i x y hhole hi hx hy => ?_⟩
  · rw [hnew] at hx hy
    rw [if_neg (Ne.symm hne)] at hy
    by_cases hself : hole = i
    · subst hself
      rw [if_pos rfl] at hx hy
      cases hx
      cases hy
      exact le_of_lt hless
    · rw [if_neg hself] at hy
      by_cases hsibling : hole / 2 = i / 2
      · rw [if_pos hsibling] at hx
        cases hx
        rw [hsibling] at hparent'
        exact le_trans (le_of_lt hless) (h.others i _ y hi (Ne.symm hself) hparent' hy)
      · rw [if_neg hsibling] at hx
        by_cases hchild : hole = i / 2
        · rw [if_pos hchild] at hx
          cases hx
          exact h.around i _ y htwo hchild.symm hparent' hy
        · rw [if_neg hchild] at hx
          exact h.others i x y hi (Ne.symm hself) hx hy
  · rw [hnew, if_neg (by omega), if_neg (by omega)] at hx
    rw [hnew, if_neg (by omega)] at hy
    have hgrand := h.others (hole / 2) x parent hhole (by omega) hx hparent'
    by_cases hself : hole = i
    · rw [if_pos hself] at hy
      cases hy
      exact hgrand
    · rw [if_neg hself] at hy
      rw [← hi] at hparent'
      exact le_trans hgrand (h.others i _ y (by omega) (Ne.symm hself) hparent' hy)

theorem returns_siftUp (hpos : 0 < hole) (hlt : hole < heap.length)
    (hsentinel : ∀ s, heap[0]? = some s → key s ≤ key a)
    (h : OrderedAbove key (heap.set hole a) hole) :
    Returns (siftUp key heap hole a) fun heap' => Ordered key heap' ∧
      heap'.Perm (heap.set hole a) ∧ heap'[0]? = heap[0]? := by
  induction hole using Nat.strongRecOn generalizing heap with
  | ind hole ih =>
      have hparent : heap[hole / 2]? = some heap[hole / 2] := List.getElem?_eq_getElem (by omega)
      rw [siftUp, dif_pos ⟨hpos, hlt⟩]
      show Returns (if key a < key heap[hole / 2] then _ else _) _
      split
      · rename_i hless
        have htwo : 2 ≤ hole := by
          by_contra hone
          have hle := hsentinel _ (by rw [← hparent, show hole / 2 = 0 by omega])
          exact absurd hless (not_lt_of_ge hle)
        have hsize : (heap.set hole heap[hole / 2]).length = heap.length := List.length_set
        have hzero : (heap.set hole heap[hole / 2])[0]? = heap[0]? :=
          List.getElem?_set_ne (by omega)
        refine (ih (hole / 2) (by omega) (by omega) (by omega) (fun s hs => ?_)
          (h.up htwo hlt hparent hless)).mono ?_
        · rw [hzero] at hs
          exact hsentinel s hs
        · rintro heap' ⟨hordered, hperm, hroot⟩
          exact ⟨hordered, hperm.trans (set_set_perm hlt hparent (by omega) a),
            hroot.trans hzero⟩
      · rename_i hge
        refine Returns.of_eq rfl ⟨fun i x y hi hx hy => ?_, List.Perm.refl _,
          List.getElem?_set_ne (by omega)⟩
        by_cases hself : i = hole
        · subst hself
          rw [List.getElem?_set_ne (by omega), hparent] at hx
          rw [getElem?_set_of_lt hlt, if_pos rfl] at hy
          cases hx
          cases hy
          exact not_lt.mp hge
        · exact h.others i x y hi hself hx hy

variable (key) in
/-- The smaller child is not above the other. -/
theorem smallerChild_spec {child : ℕ} (hlt : child < heap.length) :
    (smallerChild key heap child = child ∨ smallerChild key heap child = child + 1) ∧
      ∀ (i : ℕ) (c b : α), i = child ∨ i = child + 1 →
        heap[smallerChild key heap child]? = some c → heap[i]? = some b → key c ≤ key b := by
  rw [smallerChild]
  by_cases hboth : child + 1 < heap.length
  · have hfirst : heap[child]? = some heap[child] := List.getElem?_eq_getElem hlt
    have hsecond : heap[child + 1]? = some heap[child + 1] := List.getElem?_eq_getElem hboth
    rw [dif_pos hboth]
    split
    · rename_i hless
      refine ⟨Or.inr rfl, fun i c b hi hc hb => ?_⟩
      rw [hsecond] at hc
      cases hc
      rcases hi with rfl | rfl
      · rw [hfirst] at hb
        cases hb
        exact le_of_lt hless
      · rw [hsecond] at hb
        cases hb
        exact le_refl _
    · rename_i hge
      refine ⟨Or.inl rfl, fun i c b hi hc hb => ?_⟩
      rw [hfirst] at hc
      cases hc
      rcases hi with rfl | rfl
      · rw [hfirst] at hb
        cases hb
        exact le_refl _
      · rw [hsecond] at hb
        cases hb
        exact not_lt.mp hge
  · rw [dif_neg hboth]
    refine ⟨Or.inl rfl, fun i c b hi hc hb => ?_⟩
    rcases hi with rfl | rfl
    · rw [hc] at hb
      cases hb
      exact le_refl _
    · exact absurd (List.getElem?_eq_some_iff.mp hb).1 hboth

/-- The hole goes down by one place, to the smaller child. -/
theorem OrderedBelow.down {child : ℕ} {c : α} (h : OrderedBelow key (heap.set hole a) hole)
    (hpos : 0 < hole) (hlt : hole < heap.length) (hchild : child / 2 = hole)
    (hc : heap[child]? = some c) (hle : key c ≤ key a)
    (hsmaller : ∀ (i : ℕ) (b : α), i / 2 = hole → heap[i]? = some b → key c ≤ key b) :
    OrderedBelow key ((heap.set hole c).set child a) child := by
  have hlt' := (List.getElem?_eq_some_iff.mp hc).1
  have hnew (i : ℕ) : ((heap.set hole c).set child a)[i]? =
      if child = i then some a else if hole = i then some c else (heap.set hole a)[i]? := by
    rw [getElem?_set_of_lt (by rw [List.length_set]; exact hlt'), getElem?_set_of_lt hlt,
      getElem?_set_of_lt hlt]
    split
    · rfl
    · split <;> rfl
  have hold {i : ℕ} (hi : hole ≠ i) : (heap.set hole a)[i]? = heap[i]? :=
    List.getElem?_set_ne hi
  refine ⟨fun i x y hi hne hx hy => ?_, fun i x y hhole hi hx hy => ?_⟩
  · rw [hnew, if_neg (Ne.symm hne)] at hx
    rw [hnew] at hy
    by_cases hparent : hole = i / 2
    · rw [if_pos hparent] at hx
      cases hx
      by_cases hself : child = i
      · rw [if_pos hself] at hy
        cases hy
        exact hle
      · rw [if_neg hself, if_neg (by omega), hold (by omega)] at hy
        exact hsmaller i y hparent.symm hy
    · rw [if_neg hparent] at hx
      rw [if_neg (by omega)] at hy
      by_cases hself : hole = i
      · rw [if_pos hself] at hy
        cases hy
        subst hself
        refine h.around child x c hi hchild hx ?_
        rw [hold (by omega), hc]
      · rw [if_neg hself] at hy
        exact h.others i x y hi (Ne.symm hparent) hx hy
  · rw [hnew, if_neg (by omega), if_pos hchild.symm] at hx
    cases hx
    rw [hnew, if_neg (by omega), if_neg (by omega)] at hy
    refine h.others i c y (by omega) (by omega) ?_ hy
    rw [hi, hold (by omega), hc]

theorem returns_siftDown (hpos : 0 < hole) (hlt : hole < heap.length)
    (h : OrderedBelow key (heap.set hole a) hole) :
    Returns (siftDown key heap hole a) fun heap' => Ordered key heap' ∧
      heap'.Perm (heap.set hole a) ∧ heap'[0]? = heap[0]? := by
  induction hleft : heap.length - hole using Nat.strongRecOn generalizing heap hole with
  | ind left ih =>
      by_cases hmore : 2 * hole < heap.length
      · obtain ⟨hchild, hsmaller⟩ := smallerChild_spec key hmore
        have hlt' := smallerChild_lt key hmore
        have hstep : siftDown key heap hole a =
            if key a < key heap[smallerChild key heap (2 * hole)] then some (heap.set hole a)
            else siftDown key (heap.set hole heap[smallerChild key heap (2 * hole)])
              (smallerChild key heap (2 * hole)) a := by
          rw [siftDown, dif_pos ⟨hpos, hmore⟩]
          rfl
        rw [hstep]
        have hget : heap[smallerChild key heap (2 * hole)]? =
            some heap[smallerChild key heap (2 * hole)] := List.getElem?_eq_getElem hlt'
        generalize heap[smallerChild key heap (2 * hole)] = c at hget ⊢
        generalize smallerChild key heap (2 * hole) = child at hchild hsmaller hlt' hget ⊢
        have hsmaller' : ∀ (i : ℕ) (b : α), i / 2 = hole → heap[i]? = some b → key c ≤ key b :=
          fun i b hi hb => hsmaller i c b (by omega) hget hb
        split
        · rename_i hless
          refine Returns.of_eq rfl ⟨fun i x y hi hx hy => ?_, List.Perm.refl _,
            List.getElem?_set_ne (by omega)⟩
          by_cases hself : i / 2 = hole
          · rw [getElem?_set_of_lt hlt, if_pos hself.symm] at hx
            rw [List.getElem?_set_ne (by omega)] at hy
            cases hx
            exact le_trans (le_of_lt hless) (hsmaller' i y hself hy)
          · exact h.others i x y hi hself hx hy
        · rename_i hge
          have hsize : (heap.set hole c).length = heap.length := List.length_set
          refine (ih (heap.length - child) (by omega) (by omega) (by omega)
            (h.down hpos hlt (by omega) hget (not_lt.mp hge) hsmaller')
            (by rw [hsize])).mono ?_
          rintro heap' ⟨hordered, hperm, hroot⟩
          exact ⟨hordered, hperm.trans (set_set_perm hlt hget (by omega) a),
            hroot.trans (List.getElem?_set_ne (by omega))⟩
      · rw [siftDown, dif_neg (fun hboth => hmore hboth.2)]
        refine Returns.of_eq (write_eq hlt a) ⟨fun i x y hi hx hy => ?_, List.Perm.refl _,
          List.getElem?_set_ne (by omega)⟩
        refine h.others i x y hi (fun hself => ?_) hx hy
        have hlt' := (List.getElem?_eq_some_iff.mp hy).1
        rw [List.length_set] at hlt'
        omega

/-! ## The entries of a heap -/

/-- A heap with some entries after its sentinel. -/
structure Holds (key : α → κ) (sentinel : α) (live heap : List α) : Prop where
  ordered : Ordered key heap
  zero : heap[0]? = some sentinel
  perm : heap.Perm (sentinel :: live)

variable {sentinel : α} {live : List α}

theorem holds_singleton (key : α → κ) (sentinel : α) : Holds key sentinel [] [sentinel] := by
  refine ⟨fun i a b hi _ hb => ?_, rfl, List.Perm.refl _⟩
  have hlt := (List.getElem?_eq_some_iff.mp hb).1
  rw [List.length_singleton] at hlt
  omega

theorem Holds.length_eq (h : Holds key sentinel live heap) : heap.length = live.length + 1 :=
  h.perm.length_eq

theorem Holds.congr {key' : α → κ} (h : Holds key sentinel live heap)
    (hkey : ∀ b ∈ sentinel :: live, key' b = key b) : Holds key' sentinel live heap := by
  refine ⟨fun i a b hi ha hb => ?_, h.zero, h.perm⟩
  rw [hkey a (h.perm.mem_iff.mp (List.mem_of_getElem? ha)),
    hkey b (h.perm.mem_iff.mp (List.mem_of_getElem? hb))]
  exact h.ordered i a b hi ha hb

theorem Holds.returns_insert (h : Holds key sentinel live heap) {size : ℕ}
    (hsize : heap.length < size) (hsentinel : key sentinel ≤ key a) :
    Returns (insert key size heap a) (Holds key sentinel (a :: live)) := by
  have hpos := h.length_eq
  have hset : (heap ++ [a]).set heap.length a = heap ++ [a] := by
    rw [List.set_append_right _ _ (Nat.le_refl _), Nat.sub_self]
    rfl
  refine Returns.bind (Returns.of_eq (push_eq hsize a) rfl) ?_
  rintro _ rfl
  have hlast : (heap ++ [a]).length - 1 = heap.length := by
    rw [List.length_append, List.length_singleton, Nat.add_sub_cancel]
  have hzero : (heap ++ [a])[0]? = some sentinel := by
    rw [List.getElem?_append_left (by omega), h.zero]
  rw [hlast]
  refine (returns_siftUp (by omega) (by rw [List.length_append]; simp) (fun s hs => ?_) ?_).mono ?_
  · rw [hzero] at hs
    rw [← Option.some.inj hs]
    exact hsentinel
  · rw [hset]
    exact h.ordered.concat a
  · rintro heap' ⟨hordered, hperm, hroot⟩
    rw [hset] at hperm
    refine ⟨hordered, hroot.trans hzero, hperm.trans ?_⟩
    calc (heap ++ [a]).Perm (a :: heap) := List.perm_append_singleton a heap
      _ |>.Perm (a :: sentinel :: live) := h.perm.cons a
      _ |>.Perm (sentinel :: a :: live) := List.Perm.swap sentinel a live

theorem Holds.returns_extract (h : Holds key sentinel live heap) (hne : live ≠ []) :
    Returns (extract key heap) fun (root, heap') => ∃ live', live.Perm (root :: live') ∧
      (∀ b ∈ live', key root ≤ key b) ∧ Holds key sentinel live' heap' := by
  obtain ⟨hordered, hzero, hperm⟩ := h
  cases heap with
  | nil => cases hzero
  | cons s rest =>
      cases hzero
      have hrest : rest.Perm live := List.perm_cons sentinel |>.mp hperm
      cases rest with
      | nil => exact absurd hrest.nil_eq.symm hne
      | cons root tail =>
          have hroot : ∀ b ∈ tail, key root ≤ key b := by
            intro b hb
            obtain ⟨i, hi⟩ := List.mem_iff_getElem?.mp hb
            have hfirst : (sentinel :: root :: tail)[1]? = some root := rfl
            exact hordered.root_le hfirst (i := i + 2) (Nat.succ_pos _) hi
          refine Returns.bind (Returns.of_eq rfl rfl) ?_
          rintro _ rfl
          rcases List.eq_nil_or_concat tail with rfl | ⟨init, last, rfl⟩
          · exact Returns.pure ⟨[], hrest.symm, List.forall_mem_nil _, holds_singleton key sentinel⟩
          · rw [List.concat_eq_append] at *
            have hlast : (sentinel :: root :: (init ++ [last]))[
                (sentinel :: root :: (init ++ [last])).length - 1]? = some last := by
              rw [← List.getLast?_eq_getElem?, ← List.cons_append, ← List.cons_append,
                List.getLast?_concat]
            refine Returns.bind (Returns.of_eq hlast rfl) ?_
            rintro _ rfl
            have hdrop : ((sentinel :: root :: (init ++ [last])).set 1 last).dropLast =
                sentinel :: last :: init := by
              rw [List.set_cons_succ, List.set_cons_zero, ← List.cons_append, ← List.cons_append,
                List.dropLast_concat]
            rw [hdrop]
            dsimp only
            rw [if_neg (by rw [List.length_cons, List.length_cons]; omega)]
            refine Returns.bind (returns_siftDown Nat.one_pos (by simp) ?_) ?_
            · refine ⟨fun i x y hi hside hx hy => ?_, fun i x y htwo => absurd htwo (by decide)⟩
              have hsame (j : ℕ) (hj : 2 ≤ j) (z : α)
                  (hz : ((sentinel :: last :: init).set 1 last)[j]? = some z) :
                  (sentinel :: root :: (init ++ [last]))[j]? = some z := by
                obtain ⟨k, rfl⟩ := Nat.exists_eq_add_of_le' hj
                have hz' : init[k]? = some z := hz
                have hk := (List.getElem?_eq_some_iff.mp hz').1
                show (init ++ [last])[k]? = some z
                rw [List.getElem?_append_left hk, hz']
              exact hordered i x y hi (hsame _ (by omega) x hx) (hsame _ hi y hy)
            · rintro heap' ⟨hordered', hperm', hzero'⟩
              have hmove : (root :: (init ++ [last])).Perm (root :: last :: init) :=
                (List.perm_append_singleton last init).cons root
              refine Returns.pure ⟨last :: init, hrest.symm.trans hmove, fun b hb => ?_,
                hordered', hzero', hperm'⟩
              exact hroot b ((List.perm_append_singleton last init).mem_iff.mpr hb)

end Spec

end StudyNotes.BinaryHeap
