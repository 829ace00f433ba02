/-
# Move to front

A list of symbols from which one is taken by its place and put in front of the others.  A
text is coded by the places at which its symbols are found, one after the other, and read
again by taking the symbols from these places.
-/

import Mathlib.Data.List.Perm.Basic

namespace StudyNotes.MoveToFront

variable {α : Type}

/-- The symbol at a place goes to the front. -/
def toFront (symbols : List α) (n : ℕ) : List α := symbols[n]?.toList ++ symbols.eraseIdx n

variable {symbols : List α} {n : ℕ}

theorem toFront_eq (h : n < symbols.length) :
    toFront symbols n = symbols[n] :: symbols.eraseIdx n := by
  rw [toFront, List.getElem?_eq_getElem h]
  rfl

theorem length_toFront (h : n < symbols.length) : (toFront symbols n).length = symbols.length := by
  rw [toFront_eq h, List.length_cons, List.length_eraseIdx_of_lt h]
  omega

/-- The symbols before the place move back by one. -/
theorem getElem?_toFront (h : n < symbols.length) (i : ℕ) :
    (toFront symbols n)[i]? =
      if i = 0 then symbols[n]? else if i ≤ n then symbols[i - 1]? else symbols[i]? := by
  rw [toFront_eq h]
  cases i with
  | zero => rw [List.getElem?_cons_zero, if_pos rfl, List.getElem?_eq_getElem h]
  | succ i =>
      rw [List.getElem?_cons_succ, if_neg (Nat.succ_ne_zero i), List.getElem?_eraseIdx]
      rfl

theorem toFront_perm (h : n < symbols.length) : (toFront symbols n).Perm symbols := by
  rw [toFront_eq h]
  exact List.getElem_cons_eraseIdx_perm h

/-- A list is what its places say. -/
theorem eq_toFront {moved : List α} (h : n < symbols.length)
    (hmoved : ∀ i, moved[i]? =
      if i = 0 then symbols[n]? else if i ≤ n then symbols[i - 1]? else symbols[i]?) :
    moved = toFront symbols n :=
  List.ext_getElem? fun i => (hmoved i).trans (getElem?_toFront h i).symm

/-- The symbol in front stays there. -/
theorem toFront_zero (h : 0 < symbols.length) : toFront symbols 0 = symbols :=
  (eq_toFront h fun i => by
    by_cases hi : i = 0
    · rw [if_pos hi, hi]
    · rw [if_neg hi, if_neg (by omega)]).symm

theorem toFront_append (hn : n < symbols.length) (others : List α) :
    toFront (symbols ++ others) n = toFront symbols n ++ others := by
  rw [toFront, toFront, List.getElem?_append_left hn, List.eraseIdx_append_of_lt_length hn,
    List.append_assoc]

/-! ## Texts -/

section Texts

variable [DecidableEq α] {c : α}

theorem getElem?_idxOf (hc : c ∈ symbols) : symbols[symbols.idxOf c]? = some c := by
  rw [List.getElem?_eq_getElem (List.idxOf_lt_length_of_mem hc), List.getElem_idxOf]

theorem getElem?_ne_of_lt_idxOf {k : ℕ} (hk : k < symbols.idxOf c) : symbols[k]? ≠ some c := by
  intro hget
  obtain ⟨hlt, heq⟩ := List.getElem?_eq_some_iff.mp hget
  have hne : (symbols[k] == c) = false := List.not_of_lt_findIdx hk
  rw [heq, beq_self_eq_true] at hne
  cases hne

/-- The places at which the symbols of a text are found. -/
def places (symbols : List α) : List α → List ℕ
  | [] => []
  | c :: text => symbols.idxOf c :: places (toFront symbols (symbols.idxOf c)) text

/-- The symbols at some places. -/
def takeAll (symbols : List α) : List ℕ → Option (List α)
  | [] => some []
  | n :: ns => do
      let c ← symbols[n]?
      return c :: (← takeAll (toFront symbols n) ns)

theorem takeAll_places {text : List α} (hmem : ∀ c ∈ text, c ∈ symbols) :
    takeAll symbols (places symbols text) = some text := by
  induction text generalizing symbols with
  | nil => rfl
  | cons c text ih =>
      have hc := hmem c List.mem_cons_self
      have hlt := List.idxOf_lt_length_of_mem hc
      have hrest := ih fun d hd => (toFront_perm hlt).mem_iff.mpr
        (hmem d (List.mem_cons_of_mem _ hd))
      rw [places, takeAll, getElem?_idxOf hc, hrest]
      rfl

theorem places_lt {text : List α} (hmem : ∀ c ∈ text, c ∈ symbols) :
    ∀ n ∈ places symbols text, n < symbols.length := by
  induction text generalizing symbols with
  | nil => exact List.forall_mem_nil _
  | cons c text ih =>
      intro n hn
      have hlt := List.idxOf_lt_length_of_mem (hmem c List.mem_cons_self)
      rcases List.mem_cons.mp hn with rfl | hn
      · exact hlt
      · have hrest := ih (fun d hd => (toFront_perm hlt).mem_iff.mpr
          (hmem d (List.mem_cons_of_mem _ hd))) n hn
        rw [length_toFront hlt] at hrest
        exact hrest

theorem length_places (symbols text : List α) : (places symbols text).length = text.length := by
  induction text generalizing symbols with
  | nil => rfl
  | cons c text ih => rw [places, List.length_cons, List.length_cons, ih]

end Texts

theorem mem_of_takeAll {ns : List ℕ} {text : List α} (h : takeAll symbols ns = some text) :
    text.length = ns.length ∧ ∀ c ∈ text, c ∈ symbols := by
  induction ns generalizing symbols text with
  | nil =>
      cases h
      exact ⟨rfl, List.forall_mem_nil _⟩
  | cons n ns ih =>
      rw [takeAll] at h
      obtain ⟨c, hc, h⟩ := Option.bind_eq_some_iff.mp h
      obtain ⟨rest, hrest, h⟩ := Option.bind_eq_some_iff.mp h
      cases h
      obtain ⟨hlen, hmem⟩ := ih hrest
      have hlt := (List.getElem?_eq_some_iff.mp hc).1
      refine ⟨by rw [List.length_cons, List.length_cons, hlen], fun d hd => ?_⟩
      rcases List.mem_cons.mp hd with rfl | hd
      · exact List.mem_of_getElem? hc
      · exact (toFront_perm hlt).mem_iff.mp (hmem d hd)

end StudyNotes.MoveToFront
