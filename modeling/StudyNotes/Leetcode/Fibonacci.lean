/-
# Five ways to the Fibonacci numbers

`fib1` is the plain recursion, `fib2` keeps known values in an array in which 0 stands for
an unknown one, `fib3` fills an array from the front and `fib4` keeps two values only.  All
four add 32-bit numbers that wrap around, and all four return the same.  `fib` reduces each
sum by a prime that is small enough for sums of two remainders to fit.
-/

import Mathlib.Data.Nat.Fib.Basic
import StudyNotes.Lib.Tabulation

namespace StudyNotes.Fibonacci

open StudyNotes.Effect StudyNotes.Machine StudyNotes.Tabulation

inductive Error where
  | negativeArraySize
  | indexOutOfBounds
deriving DecidableEq

/-! ## The functions -/

/-- Below 1 the recursion goes on to the least number and comes back from the largest. -/
theorem descends {n : Int32} (h : ¬ (n = 1 ∨ n = 2)) :
    (n - 1 - 1).toUInt32.toNat < (n - 1).toUInt32.toNat ∧
      (n - 2 - 1).toUInt32.toNat < (n - 1).toUInt32.toNat := by
  have hone : n.toBitVec ≠ 1 := fun heq => h (Or.inl (Int32.toBitVec_inj.mp heq))
  have htwo : n.toBitVec ≠ 2 := fun heq => h (Or.inr (Int32.toBitVec_inj.mp heq))
  show (n.toBitVec - 1 - 1).toNat < (n.toBitVec - 1).toNat ∧
    (n.toBitVec - 2 - 1).toNat < (n.toBitVec - 1).toNat
  bv_omega

/-- The plain recursion.  The depth of the stack is not bounded here. -/
def fib1 (n : Int32) : Int32 :=
  if n = 1 ∨ n = 2 then 1 else fib1 (n - 1) + fib1 (n - 2)
termination_by (n - 1).toUInt32.toNat
decreasing_by
  · exact (descends ‹_›).1
  · exact (descends ‹_›).2

/-- `Array(size) { 0 }`. -/
def newArray (size : Int32) : Except Error (List Int32) :=
  if size < 0 then .error .negativeArraySize else .ok (List.replicate size.toNatClampNeg 0)

def helperFib2 (n : Int32) : EStateM Error (List Int32) Int32 :=
  if n = 1 ∨ n = 2 then pure 1
  else do
    let known ← load .indexOutOfBounds n
    if known ≠ 0 then load .indexOutOfBounds n
    else do
      let before ← helperFib2 (n - 1)
      let beforeThat ← helperFib2 (n - 2)
      store .indexOutOfBounds n (before + beforeThat)
      load .indexOutOfBounds n
termination_by (n - 1).toUInt32.toNat
decreasing_by
  · exact (descends ‹_›).1
  · exact (descends ‹_›).2

def fib2 (n : Int32) : Except Error Int32 := do
  if n = 1 then pure 1
  else do
    let array ← newArray (n + 1)
    evalOn (helperFib2 n) array

/-- The number of turns of a loop over `3..n`. -/
def turnsFrom3 (n : Int32) : ℕ := (n.toInt - 2).toNat

/-- The loop of `fib3`, from the index `i` on. -/
def fillTable : ℕ → Int32 → EStateM Error (List Int32) PUnit
  | 0, _ => pure ⟨⟩
  | turns + 1, i => do
      let before ← load .indexOutOfBounds (i - 1)
      let beforeThat ← load .indexOutOfBounds (i - 2)
      store .indexOutOfBounds i (before + beforeThat)
      fillTable turns (i + 1)

/-- What `fib3` does with its array. -/
def tableFib3 (n : Int32) : EStateM Error (List Int32) Int32 := do
  store .indexOutOfBounds 1 1
  store .indexOutOfBounds 2 1
  fillTable (turnsFrom3 n) 3
  load .indexOutOfBounds n

def fib3 (n : Int32) : Except Error Int32 := do
  if n = 1 ∨ n = 2 then pure 1
  else do
    let array ← newArray (n + 1)
    evalOn (tableFib3 n) array

def fib4 (int : Int32) : Int32 :=
  if int = 1 ∨ int = 2 then 1
  else (slide (fun m n => m + n) (turnsFrom3 int) (1, 1)).2

/-- The two variables of `fib` after some turns of its loop. -/
def fibVariables (turns : ℕ) : Int32 × Int32 :=
  slide (fun a b => (a + b) % 1000000007) turns (0, 1)

def fib (n : Int32) : Int32 := (fibVariables n.toNatClampNeg).1

/-! ## The Fibonacci numbers as 32-bit numbers -/

/-- The Fibonacci number modulo 2^32, as a signed number. -/
def wrapped (k : ℕ) : Int32 := .ofNat (Nat.fib k)

theorem follows_wrapped : Follows (fun m n => m + n) wrapped := by
  intro k
  rw [wrapped, Nat.fib_add_two, Int32.ofNat_add]
  rfl

theorem wrapped_add_three (k : ℕ) : wrapped (k + 3) = wrapped (k + 2) + wrapped (k + 1) := by
  rw [follows_wrapped (k + 1), Int32.add_comm]

/-! ## Small indices -/

section Index

variable {k : ℕ}

theorem ofNat_eq_iff {j : ℕ} (hk : k < 2 ^ 31) (hj : j < 2 ^ 31) :
    Int32.ofNat k = .ofNat j ↔ k = j := by
  constructor
  · intro heq
    have hclamp := congrArg Int32.toNatClampNeg heq
    rwa [Int32.toNatClampNeg_ofNat_of_lt hk, Int32.toNatClampNeg_ofNat_of_lt hj] at hclamp
  · rintro rfl
    rfl

/-- The functions answer at once for 1 and 2, and the answer is right. -/
theorem small_or_large (hpos : 1 ≤ k) (hk : k < 2 ^ 31) :
    (Int32.ofNat k = 1 ∨ Int32.ofNat k = 2) ∧ wrapped k = 1 ∨
      ¬ (Int32.ofNat k = 1 ∨ Int32.ofNat k = 2) ∧ ∃ j, k = j + 3 := by
  have hone : Int32.ofNat k = 1 ↔ k = 1 := ofNat_eq_iff (j := 1) hk (by decide)
  have htwo : Int32.ofNat k = 2 ↔ k = 2 := ofNat_eq_iff (j := 2) hk (by decide)
  rw [hone, htwo]
  by_cases hsmall : k = 1 ∨ k = 2
  · refine Or.inl ⟨hsmall, ?_⟩
    rcases hsmall with rfl | rfl
    · rfl
    · rfl
  · exact Or.inr ⟨hsmall, k - 3, by omega⟩

theorem ofNat_add_three_sub_one (j : ℕ) : Int32.ofNat (j + 3) - 1 = .ofNat (j + 2) :=
  (Int32.ofNat_sub (j + 3) 1 (by omega)).symm

theorem ofNat_add_three_sub_two (j : ℕ) : Int32.ofNat (j + 3) - 2 = .ofNat (j + 1) :=
  (Int32.ofNat_sub (j + 3) 2 (by omega)).symm

theorem turnsFrom3_ofNat (hk : k < 2 ^ 31) : turnsFrom3 (.ofNat k) = k - 2 := by
  rw [turnsFrom3, Int32.toInt_ofNat_of_lt hk]
  omega

/-- The array has a cell for every index up to the last one. -/
theorem newArray_bind {α : Type} (hk : k + 1 < 2 ^ 31) (f : List Int32 → Except Error α) :
    newArray (.ofNat k + 1) >>= f = f (List.replicate (k + 1) 0) := by
  have hsize : Int32.ofNat k + 1 = .ofNat (k + 1) := (Int32.ofNat_add k 1).symm
  have hnot : ¬ Int32.ofNat (k + 1) < 0 := Int32.not_lt.mpr (ofNat_nonneg hk)
  rw [hsize, newArray, if_neg hnot, Int32.toNatClampNeg_ofNat_of_lt hk]
  rfl

end Index

/-! ## The plain recursion and the two variables -/

theorem fib1_ofNat (k : ℕ) (hpos : 1 ≤ k) (hk : k < 2 ^ 31) : fib1 (.ofNat k) = wrapped k := by
  induction k using Nat.strongRecOn with
  | ind k ih =>
      rw [fib1]
      rcases small_or_large hpos hk with ⟨hsmall, hvalue⟩ | ⟨hlarge, j, rfl⟩
      · rw [if_pos hsmall, hvalue]
      · rw [if_neg hlarge, ofNat_add_three_sub_one, ofNat_add_three_sub_two,
          ih (j + 2) (by omega) (by omega) (by omega),
          ih (j + 1) (by omega) (by omega) (by omega), wrapped_add_three]

theorem fib4_ofNat {k : ℕ} (hpos : 1 ≤ k) (hk : k < 2 ^ 31) : fib4 (.ofNat k) = wrapped k := by
  rw [fib4]
  rcases small_or_large hpos hk with ⟨hsmall, hvalue⟩ | ⟨hlarge, j, rfl⟩
  · rw [if_pos hsmall, hvalue]
  · have hstart : ((1, 1) : Int32 × Int32) = (wrapped 1, wrapped (1 + 1)) := rfl
    rw [if_neg hlarge, turnsFrom3_ofNat hk, Nat.add_sub_assoc (by decide), hstart,
      follows_wrapped.slide_eq]
    exact congrArg wrapped (by omega)

/-! ## The memo array -/

/-- The helper returns the right value from every memo array with a cell for it, and leaves
a memo array. -/
theorem helperFib2_ofNat (k : ℕ) (hpos : 1 ≤ k) (hk : k < 2 ^ 31) {cells : List Int32}
    (hlength : k < cells.length) (hmemo : Memo 0 wrapped cells) :
    ∃ cells', helperFib2 (.ofNat k) cells = .ok (wrapped k) cells' ∧
      cells'.length = cells.length ∧ Memo 0 wrapped cells' := by
  induction k using Nat.strongRecOn generalizing cells with
  | ind k ih =>
      rw [helperFib2]
      rcases small_or_large hpos hk with ⟨hsmall, hvalue⟩ | ⟨hlarge, j, rfl⟩
      · rw [if_pos hsmall, hvalue]
        exact ⟨cells, rfl, rfl, hmemo⟩
      · have hcell : cells[j + 3]? = some cells[j + 3] := List.getElem?_eq_getElem hlength
        rw [if_neg hlarge, bind_of_ok (load_eq hk hcell)]
        by_cases hknown : cells[j + 3] ≠ 0
        · rw [if_pos hknown, load_eq hk hcell, hmemo.eq_of_ne hcell hknown]
          exact ⟨cells, rfl, rfl, hmemo⟩
        · -- The second call finds the array as the first one left it.
          obtain ⟨first, hfirst, hlength₁, hmemo₁⟩ :=
            ih (j + 2) (by omega) (by omega) (by omega) (by omega) hmemo
          obtain ⟨second, hsecond, hlength₂, hmemo₂⟩ :=
            ih (j + 1) (by omega) (by omega) (by omega) (by omega) hmemo₁
          have hroom : j + 3 < second.length := by omega
          rw [if_neg hknown, ofNat_add_three_sub_one, ofNat_add_three_sub_two, bind_of_ok hfirst,
            bind_of_ok hsecond, ← wrapped_add_three, bind_of_ok (store_eq hk hroom)]
          refine ⟨second.set (j + 3) (wrapped (j + 3)), ?_, ?_, hmemo₂.set (j + 3)⟩
          · exact load_eq hk (List.getElem?_set_self hroom)
          · rw [List.length_set, hlength₂, hlength₁]

theorem fib2_ofNat {k : ℕ} (hpos : 1 ≤ k) (hk : k + 1 < 2 ^ 31) :
    fib2 (.ofNat k) = .ok (wrapped k) := by
  have hk' : k < 2 ^ 31 := Nat.lt_of_succ_lt hk
  rw [fib2]
  by_cases hone : Int32.ofNat k = 1
  · obtain rfl : k = 1 := (ofNat_eq_iff (j := 1) hk' (by decide)).mp hone
    rfl
  · obtain ⟨cells, hcells, -, -⟩ := helperFib2_ofNat k hpos hk'
      (by rw [List.length_replicate]; omega) (memo_replicate (k + 1))
    rw [if_neg hone, newArray_bind hk]
    exact evalOn_of_ok hcells

/-! ## The table -/

/-- Each turn of the loop finds the two cells before its own filled. -/
theorem fillTable_eq (turns i : ℕ) {cells : List Int32} (hlength : i + 3 + turns ≤ cells.length)
    (hsize : cells.length < 2 ^ 31) (hfilled : Filled wrapped (i + 3) cells) :
    ∃ cells', fillTable turns (.ofNat (i + 3)) cells = .ok ⟨⟩ cells' ∧
      Filled wrapped (i + 3 + turns) cells' := by
  induction turns generalizing i cells with
  | zero => exact ⟨cells, rfl, hfilled⟩
  | succ turns ih =>
      have hbefore : cells[i + 2]? = some (wrapped (i + 2)) := hfilled _ (by omega)
      have hbeforeThat : cells[i + 1]? = some (wrapped (i + 1)) := hfilled _ (by omega)
      have hnext : Int32.ofNat (i + 3) + 1 = .ofNat (i + 1 + 3) := by
        rw [Nat.add_right_comm i 1 3, Int32.ofNat_add (i + 3) 1]
        rfl
      have hstep : Filled wrapped (i + 1 + 3) (cells.set (i + 3) (wrapped (i + 3))) := by
        rw [Nat.add_right_comm i 1 3]
        exact hfilled.set (by omega)
      obtain ⟨cells', hcells, hfilled'⟩ := ih (i + 1) (by rw [List.length_set]; omega)
        (by rwa [List.length_set]) hstep
      rw [fillTable, ofNat_add_three_sub_one, ofNat_add_three_sub_two,
        bind_of_ok (load_eq (by omega) hbefore), bind_of_ok (load_eq (by omega) hbeforeThat),
        ← wrapped_add_three, bind_of_ok (store_eq (by omega) (by omega)), hnext]
      refine ⟨cells', hcells, ?_⟩
      rwa [show i + 3 + (turns + 1) = i + 1 + 3 + turns by omega]

/-- The array before the loop. -/
theorem filled_start (j : ℕ) :
    Filled wrapped 3 (((List.replicate (j + 4) 0).set 1 1).set 2 1) := by
  intro i hi
  obtain rfl | rfl | rfl : i = 0 ∨ i = 1 ∨ i = 2 := by omega
  · rfl
  · rfl
  · rfl

theorem tableFib3_ofNat {j : ℕ} (hj : j + 4 < 2 ^ 31) :
    ∃ cells, tableFib3 (.ofNat (j + 3)) (List.replicate (j + 4) 0) =
      .ok (wrapped (j + 3)) cells := by
  let array : List Int32 := List.replicate (j + 4) 0
  have hlength : array.length = j + 4 := List.length_replicate
  have hone : store Error.indexOutOfBounds 1 1 array = .ok ⟨⟩ (array.set 1 1) :=
    store_eq (i := 1) (by decide) (by omega)
  have htwo : store Error.indexOutOfBounds 2 1 (array.set 1 1) =
      .ok ⟨⟩ ((array.set 1 1).set 2 1) :=
    store_eq (i := 2) (by decide) (by rw [List.length_set]; omega)
  have hlength' : ((array.set 1 1).set 2 1).length = j + 4 := by
    rw [List.length_set, List.length_set, hlength]
  have hstart : Filled wrapped 3 ((array.set 1 1).set 2 1) := filled_start j
  obtain ⟨cells, hcells, hfilled⟩ := fillTable_eq (j + 1) 0 (by omega) (by omega) hstart
  have hturns : turnsFrom3 (.ofNat (j + 3)) = j + 1 := turnsFrom3_ofNat (by omega)
  rw [tableFib3, bind_of_ok hone, bind_of_ok htwo, hturns]
  refine ⟨cells, ?_⟩
  rw [bind_of_ok (x := fillTable (j + 1) 3) hcells]
  exact load_eq (by omega) (hfilled (j + 3) (by omega))

theorem fib3_ofNat {k : ℕ} (hpos : 1 ≤ k) (hk : k + 1 < 2 ^ 31) :
    fib3 (.ofNat k) = .ok (wrapped k) := by
  rw [fib3]
  rcases small_or_large hpos (Nat.lt_of_succ_lt hk) with ⟨hsmall, hvalue⟩ | ⟨hlarge, j, rfl⟩
  · rw [if_pos hsmall, hvalue]
    rfl
  · obtain ⟨cells, hcells⟩ := tableFib3_ofNat hk
    rw [if_neg hlarge, newArray_bind hk]
    exact evalOn_of_ok hcells

/-! ## Every number -/

/-- The four functions return the same, the reads and writes of the two arrays are inside,
and the helper leaves a memo array whenever it got one. -/
theorem fibs_agree (n : Int32) (hpos : 1 ≤ n) (hsize : n < 2147483647) :
    fib1 n = .ofNat (Nat.fib n.toNatClampNeg) ∧
      fib2 n = .ok (.ofNat (Nat.fib n.toNatClampNeg)) ∧
      fib3 n = .ok (.ofNat (Nat.fib n.toNatClampNeg)) ∧
      fib4 n = .ofNat (Nat.fib n.toNatClampNeg) ∧
      ∀ cells, n.toNatClampNeg < cells.length → Memo 0 wrapped cells →
        ∃ cells', helperFib2 n cells = .ok (.ofNat (Nat.fib n.toNatClampNeg)) cells' ∧
          cells'.length = cells.length ∧ Memo 0 wrapped cells' := by
  have hpos' := Int32.le_iff_toInt_le.mp hpos
  have hsize' := Int32.lt_iff_toInt_lt.mp hsize
  have hn : Int32.ofNat n.toNatClampNeg = n :=
    Int32.ofNat_toNatClampNeg n (Int32.le_trans (by decide) hpos)
  have hk : 1 ≤ n.toNatClampNeg ∧ n.toNatClampNeg + 1 < 2 ^ 31 := by
    have hone : (1 : Int32).toInt = 1 := rfl
    have hlast : (2147483647 : Int32).toInt = 2 ^ 31 - 1 := rfl
    have hclamp : n.toNatClampNeg = n.toInt.toNat := rfl
    omega
  generalize n.toNatClampNeg = k at hn hk ⊢
  subst hn
  have hk' : k < 2 ^ 31 := Nat.lt_of_succ_lt hk.2
  exact ⟨fib1_ofNat k hk.1 hk', fib2_ofNat hk.1 hk.2, fib3_ofNat hk.1 hk.2, fib4_ofNat hk.1 hk',
    fun cells hlength hmemo => helperFib2_ofNat k hk.1 hk' hlength hmemo⟩

/-- The first sum that wraps around. -/
theorem fibs_agree_fortySeven :
    (1 : Int32) ≤ 47 ∧ (47 : Int32) < 2147483647 ∧ fib1 47 = -1323752223 ∧
      fib2 47 = .ok (-1323752223) ∧ fib3 47 = .ok (-1323752223) ∧ fib4 47 = -1323752223 ∧
      ∃ cells, helperFib2 47 (List.replicate 48 0) = .ok (-1323752223) cells ∧
        Memo 0 wrapped cells := by
  have hvalue : Int32.ofNat (Nat.fib (47 : Int32).toNatClampNeg) = -1323752223 := by
    decide +kernel
  obtain ⟨h1, h2, h3, h4, hmemo⟩ := fibs_agree 47 (by decide) (by decide)
  rw [hvalue] at h1 h2 h3 h4 hmemo
  obtain ⟨cells, hcells, -, hcells'⟩ :=
    hmemo (List.replicate 48 0) (by decide) (memo_replicate 48)
  exact ⟨by decide, by decide, h1, h2, h3, h4, cells, hcells, hcells'⟩

/-! ## Remainders -/

/-- The Fibonacci number modulo the prime, as a 32-bit number. -/
def reduced (k : ℕ) : Int32 := .ofNat (Nat.fib k % 1000000007)

theorem toInt_reduced (k : ℕ) : (reduced k).toInt = (Nat.fib k % 1000000007 : ℕ) :=
  Int32.toInt_ofNat_of_lt (Nat.lt_trans (Nat.mod_lt _ (by decide)) (by decide))

/-- Two remainders are small enough for their sum. -/
theorem reduced_add_reduced (j k : ℕ) :
    reduced j + reduced k = .ofNat (Nat.fib j % 1000000007 + Nat.fib k % 1000000007) ∧
      Nat.fib j % 1000000007 + Nat.fib k % 1000000007 < 2 ^ 31 := by
  refine ⟨(Int32.ofNat_add _ _).symm, ?_⟩
  have hj := Nat.mod_lt (Nat.fib j) (show 0 < 1000000007 by decide)
  have hk := Nat.mod_lt (Nat.fib k) (show 0 < 1000000007 by decide)
  omega

theorem follows_reduced : Follows (fun a b => (a + b) % 1000000007) reduced := by
  intro k
  obtain ⟨hsum, hfits⟩ := reduced_add_reduced k (k + 1)
  have hmod : Int32.ofNat ((Nat.fib k % 1000000007 + Nat.fib (k + 1) % 1000000007) % 1000000007) =
      .ofNat (Nat.fib k % 1000000007 + Nat.fib (k + 1) % 1000000007) % 1000000007 :=
    Int32.ofNat_mod hfits (by decide)
  show reduced (k + 2) = (reduced k + reduced (k + 1)) % 1000000007
  rw [hsum, ← hmod, ← Nat.add_mod, ← Nat.fib_add_two, reduced]

theorem fibVariables_eq (turns : ℕ) :
    fibVariables turns = (reduced turns, reduced (turns + 1)) := by
  have hslide := follows_reduced.slide_eq turns 0
  rw [Nat.zero_add, Nat.zero_add] at hslide
  exact hslide

/-- The loop ends with the Fibonacci number modulo the prime, and before each of its turns
the sum of the two variables fits and leaves a remainder that is not negative. -/
theorem toInt_fib (n : Int32) :
    (fib n).toInt = (Nat.fib n.toInt.toNat % 1000000007 : ℕ) ∧
      ∀ i < n.toInt.toNat,
        0 ≤ (fibVariables i).1.toInt + (fibVariables i).2.toInt ∧
          (fibVariables i).1.toInt + (fibVariables i).2.toInt < 2 ^ 31 ∧
          ((fibVariables i).1 + (fibVariables i).2).toInt =
            (fibVariables i).1.toInt + (fibVariables i).2.toInt ∧
          0 ≤ (((fibVariables i).1 + (fibVariables i).2) % 1000000007).toInt := by
  constructor
  · rw [fib, fibVariables_eq]
    exact toInt_reduced _
  · intro i _
    obtain ⟨hsum, hfits⟩ := reduced_add_reduced i (i + 1)
    have hremainder : (reduced i + reduced (i + 1)) % 1000000007 = reduced (i + 2) :=
      (follows_reduced i).symm
    rw [fibVariables_eq, hremainder, hsum, Int32.toInt_ofNat_of_lt hfits, toInt_reduced,
      toInt_reduced, toInt_reduced]
    omega

end StudyNotes.Fibonacci
