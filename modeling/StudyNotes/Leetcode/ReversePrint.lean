/-
# Three ways to print a list backwards

`reversePrint` counts the nodes and fills an array from its end, `reversePrintStack` goes
through a stack, and `reversePrintRecursion` counts the nodes on its way down and fills the
array on its way back.  The last two keep what they work on in top-level variables.  The
stack is empty again after each call and every call makes an array of its own, but the
count is never set back: after one list that is not empty, the recursive version leaves
zeros at the end.
-/

import Mathlib.Algebra.Group.Int.Defs
import Mathlib.Algebra.Group.Nat.Defs
import Mathlib.Data.List.Forall2
import StudyNotes.Lib.ArrayHeap
import StudyNotes.Lib.Effect
import StudyNotes.Lib.Machine

namespace StudyNotes.ReversePrint

open StudyNotes.ArrayHeap StudyNotes.Effect StudyNotes.Machine

/-- A reference to a `ListNode`, with the nodes after it. -/
inductive ListNode where
  | null
  | node (val : Int32) (next : ListNode)
deriving DecidableEq, Repr

/-- The values of a list, from its head on. -/
def ListNode.values : ListNode → List Int32
  | .null => []
  | .node val next => val :: next.values

/-- The top-level variables `size`, `stack` and `array`, and the arrays made so far.  The
top of the stack comes first. -/
structure Globals where
  size : Int32
  stack : List ListNode
  array : Option ℕ
  heap : Heap Int32

def Globals.initial : Globals := ⟨0, [], none, .empty⟩

inductive Error where
  | negativeArraySize
  | indexOutOfBounds
  | nullPointer
  | emptyStack
deriving DecidableEq

/-- `IntArray(size)`. -/
def intArray (size : Int32) : EStateM Error Globals ℕ := do
  if size < 0 then throw .negativeArraySize
  else do
    let heap := (← get).heap
    modify fun globals =>
      { globals with heap := globals.heap.push (List.replicate size.toNatClampNeg 0) }
    pure heap.next

/-- `array[index] = val`. -/
def setAt (ref : ℕ) (index val : Int32) : EStateM Error Globals Unit := do
  match (← get).heap.read ref with
  | none => throw .nullPointer
  | some array =>
      if 0 ≤ index ∧ index.toNatClampNeg < array.length then
        modify fun globals =>
          { globals with heap := globals.heap.write ref index.toNatClampNeg val }
      else throw .indexOutOfBounds

/-- `array!!`. -/
def getArray : EStateM Error Globals ℕ := do
  match (← get).array with
  | some ref => pure ref
  | none => throw .nullPointer

/-! ## The three functions -/

/-- The first loop of `reversePrint`. -/
def countNodes : ListNode → Int32 → Int32
  | .null, len => len
  | .node _ next, len => countNodes next (len + 1)

/-- The second loop of `reversePrint`. -/
def fillFromEnd (result : ℕ) : ListNode → Int32 → EStateM Error Globals Unit
  | .null, _ => pure ()
  | .node val next, len => do
      setAt result (len - 1) val
      fillFromEnd result next (len - 1)

def reversePrint (head : ListNode) : EStateM Error Globals (Option ℕ) := do
  let len := countNodes head 0
  let result ← intArray len
  fillFromEnd result head len
  pure (some result)

/-- The loop that pushes the nodes. -/
def pushAll : ListNode → EStateM Error Globals Unit
  | .null => pure ()
  | .node val next => do
      modify fun globals => { globals with stack := .node val next :: globals.stack }
      pushAll next

/-- `stack.size`. -/
def stackSize : EStateM Error Globals Int32 := do
  pure (.ofNat (← get).stack.length)

/-- The value of `stack.pop()`. -/
def popVal : EStateM Error Globals Int32 := do
  match (← get).stack with
  | [] => throw .emptyStack
  | node :: stack =>
      modify fun globals => { globals with stack := stack }
      match node with
      | .null => throw .nullPointer
      | .node val _ => pure val

/-- The loop that pops them, with the number of turns left.  `stack.size` is read once, before
the first turn. -/
def popAll : ℕ → Int32 → EStateM Error Globals Unit
  | 0, _ => pure ()
  | turns + 1, i => do
      let ref ← getArray
      setAt ref i (← popVal)
      popAll turns (i + 1)

def reversePrintStack (head : ListNode) : EStateM Error Globals (Option ℕ) := do
  pushAll head
  let ref ← intArray (← stackSize)
  modify fun globals => { globals with array := some ref }
  popAll (← stackSize).toNatClampNeg 0
  pure (← get).array

def reversePrintRecursion : ListNode → EStateM Error Globals (Option ℕ)
  | .null => do
      let ref ← intArray (← get).size
      modify fun globals => { globals with array := some ref }
      pure (← get).array
  | .node val next => do
      let index := (← get).size
      modify fun globals => { globals with size := globals.size + 1 }
      let _ ← reversePrintRecursion next
      let ref ← getArray
      setAt ref ((← get).size - index - 1) val
      pure (← get).array

/-! ## One access -/

section Access

variable {globals globals' : Globals} {heap : Heap Int32} {array : List Int32} {val : Int32}

theorem intArray_ofNat {n : ℕ} (hn : n < 2 ^ 31) (globals : Globals) :
    intArray (.ofNat n) globals =
      .ok globals.heap.next { globals with heap := globals.heap.push (List.replicate n 0) } := by
  have hnonneg : ¬ Int32.ofNat n < 0 := Int32.not_lt.mpr (ofNat_nonneg hn)
  rw [intArray, if_neg hnonneg, Int32.toNatClampNeg_ofNat_of_lt hn]
  rfl

/-- An array that is made has a length that fits, and is made of zeros. -/
theorem intArray_eq_ok {size : Int32} {ref : ℕ} (h : intArray size globals = .ok ref globals') :
    0 ≤ size ∧ ref = globals.heap.next ∧
      globals' = { globals with
        heap := globals.heap.push (List.replicate size.toNatClampNeg 0) } := by
  unfold intArray at h
  split at h
  · cases h
  · rename_i hnonneg
    cases h
    exact ⟨Int32.not_lt.mp hnonneg, rfl, rfl⟩

theorem setAt_ofNat (globals : Globals) (hheap : globals.heap = heap.push array) {index : ℕ}
    (hindex : index < array.length) (hfits : array.length < 2 ^ 31) (val : Int32) :
    setAt heap.next (.ofNat index) val globals =
      .ok () { globals with heap := heap.push (array.set index val) } := by
  have hlt : index < 2 ^ 31 := Nat.lt_trans hindex hfits
  have hnonneg : (0 : Int32) ≤ .ofNat index := ofNat_nonneg hlt
  have hread : globals.heap.read heap.next = some array := by rw [hheap, Heap.read_push_self]
  rw [setAt, get_bind]
  simp only [hread, Int32.toNatClampNeg_ofNat_of_lt hlt, hnonneg, hindex, and_self, if_true]
  rw [modify_eq, hheap, Heap.write_push]

/-- A write to the newest array keeps its length. -/
theorem setAt_eq_ok (hheap : globals.heap = heap.push array) {index : Int32}
    (h : setAt heap.next index val globals = .ok () globals') :
    ∃ array', array'.length = array.length ∧
      globals' = { globals with heap := heap.push array' } := by
  have hread : globals.heap.read heap.next = some array := by rw [hheap, Heap.read_push_self]
  rw [setAt, get_bind] at h
  simp only [hread] at h
  split at h
  · cases h
    refine ⟨array.set index.toNatClampNeg val, List.length_set, ?_⟩
    simp only [hheap, Heap.write_push]
  · cases h

/-- The first zero after what is filled is overwritten. -/
theorem set_append_replicate (filled : List Int32) (n : ℕ) (val : Int32) :
    (filled ++ List.replicate (n + 1) 0).set filled.length val =
      filled ++ val :: List.replicate n 0 := by
  rw [List.set_append_right _ _ (Nat.le_refl _), Nat.sub_self, List.replicate_succ,
    List.set_cons_zero]

theorem getArray_of_eq {ref : ℕ} (h : globals.array = some ref) :
    getArray globals = .ok ref globals := by
  rw [getArray, get_bind, h]
  rfl

end Access

/-! ## From the end -/

section FromEnd

variable {globals globals' : Globals} {heap : Heap Int32} {array : List Int32}

theorem countNodes_ofNat (head : ListNode) (n : ℕ) :
    countNodes head (.ofNat n) = .ofNat (n + head.values.length) := by
  induction head generalizing n with
  | null => rfl
  | node val next ih =>
      have hsucc : Int32.ofNat n + 1 = .ofNat (n + 1) := (Int32.ofNat_add n 1).symm
      rw [countNodes, hsucc, ih, ListNode.values, List.length_cons]
      congr 1
      omega

/-- What is left to fill is as long as the rest of the list. -/
theorem fillFromEnd_eq (globals : Globals) {head : ListNode} (filled : List Int32)
    (hheap : globals.heap = heap.push (List.replicate head.values.length 0 ++ filled))
    (hfits : head.values.length + filled.length < 2 ^ 31) :
    fillFromEnd heap.next head (.ofNat head.values.length) globals =
      .ok () { globals with heap := heap.push (head.values.reverse ++ filled) } := by
  induction head generalizing globals filled with
  | null =>
      rw [fillFromEnd, ListNode.values, List.reverse_nil]
      rw [ListNode.values, List.length_nil, List.replicate_zero] at hheap
      rw [← hheap]
      rfl
  | node val next ih =>
      have hpred : Int32.ofNat (next.values.length + 1) - 1 = .ofNat next.values.length :=
        (Int32.ofNat_sub (next.values.length + 1) 1 (by omega)).symm
      have hset : (List.replicate (next.values.length + 1) 0 ++ filled).set next.values.length val =
          List.replicate next.values.length 0 ++ val :: filled := by
        rw [List.replicate_succ', List.append_assoc, List.set_append_right _ _ (by simp)]
        simp
      rw [ListNode.values, List.length_cons] at hheap hfits ⊢
      rw [fillFromEnd, hpred]
      rw [bind_of_ok (setAt_ofNat _ hheap (by simp; omega) (by simp; omega) val), hset]
      rw [ih _ (val :: filled) rfl (by rw [List.length_cons]; omega)]
      simp

/-- `reversePrint` returns a new array with the values in reverse order. -/
theorem reversePrint_eq {head : ListNode} (hfits : head.values.length < 2 ^ 31)
    (globals : Globals) :
    reversePrint head globals =
      .ok (some globals.heap.next)
        { globals with heap := globals.heap.push head.values.reverse } := by
  have hlen : countNodes head 0 = .ofNat head.values.length := by
    have hcount := countNodes_ofNat head 0
    rwa [Nat.zero_add] at hcount
  have hfill : fillFromEnd globals.heap.next head (.ofNat head.values.length)
      { globals with heap := globals.heap.push (List.replicate head.values.length 0) } =
      .ok () { globals with heap := globals.heap.push (head.values.reverse ++ []) } :=
    fillFromEnd_eq _ [] (by rw [List.append_nil]) (by simpa using hfits)
  rw [reversePrint, hlen, bind_of_ok (intArray_ofNat hfits globals), bind_of_ok hfill,
    List.append_nil]
  rfl

theorem fillFromEnd_eq_ok {head : ListNode} {len : Int32} (hheap : globals.heap = heap.push array)
    (h : fillFromEnd heap.next head len globals = .ok () globals') :
    ∃ array', array'.length = array.length ∧
      globals' = { globals with heap := heap.push array' } := by
  induction head generalizing globals array len with
  | null =>
      cases h
      exact ⟨array, rfl, by rw [← hheap]⟩
  | node val next ih =>
      obtain ⟨_, globals₁, hset, hrest⟩ := bind_eq_ok_iff.mp h
      obtain ⟨array₁, hlength₁, rfl⟩ := setAt_eq_ok hheap hset
      obtain ⟨array₂, hlength₂, rfl⟩ := ih rfl hrest
      exact ⟨array₂, hlength₂.trans hlength₁, rfl⟩

theorem reversePrint_eq_ok {head : ListNode} {result : Option ℕ}
    (h : reversePrint head globals = .ok result globals') :
    result = some globals.heap.next ∧
      ∃ array, globals'.heap = globals.heap.push array ∧ array.length < 2 ^ 31 := by
  obtain ⟨ref, globals₁, hmade, hrest⟩ := bind_eq_ok_iff.mp h
  obtain ⟨-, rfl, rfl⟩ := intArray_eq_ok hmade
  obtain ⟨_, globals₂, hfill, hreturn⟩ := bind_eq_ok_iff.mp hrest
  obtain ⟨array, hlength, rfl⟩ := fillFromEnd_eq_ok rfl hfill
  cases hreturn
  rw [List.length_replicate] at hlength
  exact ⟨rfl, array, rfl, hlength ▸ Int32.toNatClampNeg_lt _⟩

end FromEnd

/-! ## Through the stack -/

section ThroughStack

variable {globals globals' : Globals} {heap : Heap Int32} {array vals : List Int32}

/-- The node holds the value. -/
def ListNode.Holds (node : ListNode) (val : Int32) : Prop := ∃ next, node = .node val next

theorem pushAll_eq (head : ListNode) (hstack : List.Forall₂ ListNode.Holds globals.stack vals) :
    ∃ stack, pushAll head globals = .ok () { globals with stack := stack } ∧
      List.Forall₂ ListNode.Holds stack (head.values.reverse ++ vals) := by
  induction head generalizing globals vals with
  | null => exact ⟨globals.stack, rfl, hstack⟩
  | node val next ih =>
      let pushed : Globals := { globals with stack := .node val next :: globals.stack }
      have hpushed : List.Forall₂ ListNode.Holds pushed.stack (val :: vals) :=
        List.Forall₂.cons ⟨next, rfl⟩ hstack
      obtain ⟨stack, hpush, hholds⟩ := ih hpushed
      refine ⟨stack, ?_, ?_⟩
      · rw [pushAll, modify_bind, hpush]
      · simpa [ListNode.values] using hholds

theorem popVal_of_holds {node : ListNode} {stack : List ListNode} {val : Int32}
    (hstack : globals.stack = node :: stack) (hnode : node.Holds val) :
    popVal globals = .ok val { globals with stack := stack } := by
  obtain ⟨next, rfl⟩ := hnode
  rw [popVal, get_bind, hstack]
  rfl

theorem popVal_eq_ok {val : Int32} (h : popVal globals = .ok val globals') :
    globals'.array = globals.array ∧ globals'.heap = globals.heap := by
  rw [popVal, get_bind] at h
  cases hstack : globals.stack with
  | nil =>
      rw [hstack] at h
      cases h
  | cons node stack =>
      rw [hstack] at h
      cases node with
      | null => cases h
      | node val next =>
          cases h
          exact ⟨rfl, rfl⟩

theorem stackSize_eq (globals : Globals) :
    stackSize globals = .ok (.ofNat globals.stack.length) globals := rfl

/-- The values come from the stack in the order of the array. -/
theorem popAll_eq (globals : Globals) (front : List Int32)
    (harray : globals.array = some heap.next)
    (hheap : globals.heap = heap.push (front ++ List.replicate vals.length 0))
    (hstack : List.Forall₂ ListNode.Holds globals.stack vals)
    (hfits : front.length + vals.length < 2 ^ 31) :
    popAll vals.length (.ofNat front.length) globals =
      .ok () { globals with stack := [], heap := heap.push (front ++ vals) } := by
  induction vals generalizing globals front with
  | nil =>
      rw [List.length_nil, List.replicate_zero] at hheap
      rw [List.length_nil, popAll, ← hheap, ← List.forall₂_nil_right_iff.mp hstack]
      rfl
  | cons val vals ih =>
      obtain ⟨node, stack, hnode, hrest, hcons⟩ := List.forall₂_cons_right_iff.mp hstack
      have hsucc : Int32.ofNat front.length + 1 = .ofNat (front ++ [val]).length := by
        rw [List.length_append]
        exact (Int32.ofNat_add front.length 1).symm
      rw [List.length_cons] at hheap hfits ⊢
      let popped : Globals := { globals with stack := stack }
      let written : Globals :=
        { popped with heap := heap.push (front ++ [val] ++ List.replicate vals.length 0) }
      have hwrite : setAt heap.next (.ofNat front.length) val popped = .ok () written := by
        rw [setAt_ofNat popped hheap (by simp) (by simp; omega) val, set_append_replicate]
        simp [written]
      rw [popAll, bind_of_ok (getArray_of_eq harray), bind_of_ok (popVal_of_holds hcons hnode),
        bind_of_ok hwrite, hsucc, ih written (front ++ [val]) harray rfl hrest (by simp; omega)]
      simp [written, popped]

/-- So does `reversePrintStack`, which leaves its stack empty as it found it. -/
theorem reversePrintStack_eq {head : ListNode} (hfits : head.values.length < 2 ^ 31)
    (hstack : globals.stack = []) :
    reversePrintStack head globals =
      .ok (some globals.heap.next)
        { globals with
          array := some globals.heap.next
          heap := globals.heap.push head.values.reverse } := by
  have hempty : List.Forall₂ ListNode.Holds globals.stack [] := by
    rw [hstack]
    exact List.Forall₂.nil
  obtain ⟨stack, hpush, hholds⟩ := pushAll_eq head hempty
  rw [List.append_nil] at hholds
  have hsize : Int32.ofNat stack.length = .ofNat head.values.reverse.length := by
    rw [hholds.length_eq]
  have hreverse : head.values.reverse.length < 2 ^ 31 := by simpa using hfits
  let made : Globals :=
    { globals with
      stack := stack
      array := some globals.heap.next
      heap := globals.heap.push (List.replicate head.values.reverse.length 0) }
  have hpop := popAll_eq made [] rfl rfl hholds (by simpa using hfits)
  rw [reversePrintStack, bind_of_ok hpush, bind_of_ok (stackSize_eq _), hsize,
    bind_of_ok (intArray_ofNat hreverse _), modify_bind, bind_of_ok (stackSize_eq _), hsize,
    Int32.toNatClampNeg_ofNat_of_lt hreverse]
  refine (bind_of_ok hpop).trans ?_
  rw [get_bind, hstack]
  rfl

theorem popAll_eq_ok {turns : ℕ} {i : Int32} (h : popAll turns i globals = .ok () globals')
    (harray : globals.array = some heap.next) (hheap : globals.heap = heap.push array) :
    globals'.array = some heap.next ∧
      ∃ array', array'.length = array.length ∧ globals'.heap = heap.push array' := by
  induction turns generalizing globals array i with
  | zero =>
      cases h
      exact ⟨harray, array, rfl, hheap⟩
  | succ turns ih =>
      rw [popAll, bind_of_ok (getArray_of_eq harray)] at h
      obtain ⟨val, globals₁, hpop, hwrite⟩ := bind_eq_ok_iff.mp h
      obtain ⟨harray₁, hheap₁⟩ := popVal_eq_ok hpop
      obtain ⟨_, globals₂, hset, hrest⟩ := bind_eq_ok_iff.mp hwrite
      obtain ⟨array₂, hlength₂, rfl⟩ := setAt_eq_ok (hheap₁.trans hheap) hset
      obtain ⟨harray₃, array₃, hlength₃, hheap₃⟩ := ih hrest (harray₁.trans harray) rfl
      exact ⟨harray₃, array₃, hlength₃.trans hlength₂, hheap₃⟩

theorem reversePrintStack_eq_ok {head : ListNode} (hstack : globals.stack = [])
    {result : Option ℕ} (h : reversePrintStack head globals = .ok result globals') :
    result = some globals.heap.next ∧
      ∃ array, globals'.heap = globals.heap.push array ∧ array.length < 2 ^ 31 := by
  have hempty : List.Forall₂ ListNode.Holds globals.stack [] := by
    rw [hstack]
    exact List.Forall₂.nil
  obtain ⟨stack, hpush, -⟩ := pushAll_eq head hempty
  rw [reversePrintStack, bind_of_ok hpush, bind_of_ok (stackSize_eq _)] at h
  obtain ⟨ref, globals₁, hmade, hrest⟩ := bind_eq_ok_iff.mp h
  obtain ⟨-, rfl, rfl⟩ := intArray_eq_ok hmade
  rw [modify_bind, bind_of_ok (stackSize_eq _)] at hrest
  obtain ⟨_, globals₂, hpop, hreturn⟩ := bind_eq_ok_iff.mp hrest
  obtain ⟨harray, array, hlength, hheap⟩ := popAll_eq_ok hpop rfl rfl
  cases hreturn
  rw [List.length_replicate] at hlength
  exact ⟨harray, array, hheap, hlength ▸ Int32.toNatClampNeg_lt _⟩

end ThroughStack

/-! ## By recursion -/

section ByRecursion

variable {globals globals' : Globals}

/-- The array ends with as many zeros as `size` has counted before the call. -/
theorem reversePrintRecursion_eq {head : ListNode} (globals : Globals) {counted : ℕ}
    (hsize : globals.size = .ofNat counted) (hfits : counted + head.values.length < 2 ^ 31) :
    reversePrintRecursion head globals =
      .ok (some globals.heap.next)
        { globals with
          size := .ofNat (counted + head.values.length)
          array := some globals.heap.next
          heap := globals.heap.push (head.values.reverse ++ List.replicate counted 0) } := by
  induction head generalizing globals counted with
  | null =>
      rw [ListNode.values, List.length_nil, Nat.add_zero] at hfits ⊢
      rw [reversePrintRecursion, get_bind, hsize, bind_of_ok (intArray_ofNat hfits globals),
        modify_bind, ← hsize]
      rfl
  | node val next ih =>
      let entered : Globals := { globals with size := globals.size + 1 }
      have hentered : entered.size = .ofNat (counted + 1) := by
        simp only [entered, hsize]
        exact (Int32.ofNat_add counted 1).symm
      rw [ListNode.values, List.length_cons] at hfits ⊢
      have hnext := ih entered hentered (by omega)
      let filled : Globals :=
        { globals with
          size := .ofNat (counted + 1 + next.values.length)
          array := some globals.heap.next
          heap := globals.heap.push (next.values.reverse ++ List.replicate (counted + 1) 0) }
      -- On the way back `size` is what it was at the bottom, so the index counts the nodes
      -- after this one.
      have hindex : filled.size - globals.size - 1 = .ofNat next.values.length := by
        simp only [filled, hsize]
        rw [← Int32.ofNat_sub _ _ (by omega)]
        exact (Int32.ofNat_sub _ 1 (by omega)).symm.trans (congrArg _ (by omega))
      have hget : getArray filled = .ok globals.heap.next filled := getArray_of_eq rfl
      let written : Globals :=
        { filled with
          heap := globals.heap.push ((val :: next.values).reverse ++ List.replicate counted 0) }
      have hwrite :
          setAt globals.heap.next (.ofNat next.values.length) val filled = .ok () written := by
        rw [← List.length_reverse, setAt_ofNat filled rfl (by simp) (by simp; omega) val,
          set_append_replicate]
        simp [written]
      have hcount : counted + 1 + next.values.length = counted + (next.values.length + 1) := by
        omega
      rw [reversePrintRecursion, get_bind, modify_bind, bind_of_ok hnext]
      refine (bind_of_ok hget).trans ?_
      rw [get_bind, hindex, bind_of_ok hwrite, ← hcount]
      rfl

/-- However it is called, the array has the length `size` has reached at the bottom. -/
theorem reversePrintRecursion_eq_ok {head : ListNode} {result : Option ℕ}
    (h : reversePrintRecursion head globals = .ok result globals') :
    result = some globals.heap.next ∧ globals'.array = some globals.heap.next ∧
      0 ≤ globals.size + .ofNat head.values.length ∧
      ∃ array, globals'.heap = globals.heap.push array ∧
        array.length = (globals.size + .ofNat head.values.length).toNatClampNeg := by
  induction head generalizing globals globals' result with
  | null =>
      rw [reversePrintRecursion, get_bind] at h
      obtain ⟨ref, globals₁, hmade, hrest⟩ := bind_eq_ok_iff.mp h
      obtain ⟨hnonneg, rfl, rfl⟩ := intArray_eq_ok hmade
      cases hrest
      have hzero : globals.size + .ofNat ListNode.null.values.length = globals.size :=
        Int32.add_zero globals.size
      rw [hzero]
      exact ⟨rfl, rfl, hnonneg, _, rfl, List.length_replicate⟩
  | node val next ih =>
      rw [reversePrintRecursion, get_bind, modify_bind] at h
      obtain ⟨result₁, globals₁, hnext, hrest⟩ := bind_eq_ok_iff.mp h
      obtain ⟨-, harray, hnonneg, array, hheap, hlength⟩ := ih hnext
      rw [bind_of_ok (getArray_of_eq harray), get_bind] at hrest
      obtain ⟨_, globals₂, hset, hreturn⟩ := bind_eq_ok_iff.mp hrest
      obtain ⟨array₂, hlength₂, rfl⟩ := setAt_eq_ok hheap hset
      cases hreturn
      have hsum : globals.size + .ofNat (ListNode.node val next).values.length =
          globals.size + 1 + .ofNat next.values.length := by
        rw [ListNode.values, List.length_cons, Nat.add_comm, Int32.ofNat_add, ← Int32.add_assoc]
        rfl
      rw [hsum]
      exact ⟨harray, harray, hnonneg, array₂, rfl, hlength₂.trans hlength⟩

end ByRecursion

/-! ## Every call of a process -/

inductive Call where
  | reversePrint (head : ListNode)
  | reversePrintStack (head : ListNode)
  | reversePrintRecursion (head : ListNode)
deriving DecidableEq

namespace Call

def head : Call → ListNode
  | .reversePrint head => head
  | .reversePrintStack head => head
  | .reversePrintRecursion head => head

def run : Call → EStateM Error Globals (Option ℕ)
  | .reversePrint head => ReversePrint.reversePrint head
  | .reversePrintStack head => ReversePrint.reversePrintStack head
  | .reversePrintRecursion head => ReversePrint.reversePrintRecursion head

def isRecursion : Call → Bool
  | .reversePrintRecursion _ => true
  | _ => false

/-- A call of the recursive version on a list that is not empty. -/
def counts : Call → Bool
  | .reversePrintRecursion head => head ≠ .null
  | _ => false

/-- How far a call moves `size`. -/
def counted (call : Call) : ℕ := if call.isRecursion then call.head.values.length else 0

theorem counted_ne_zero_iff {call : Call} : call.counted ≠ 0 ↔ call.counts = true := by
  cases call with
  | reversePrint head => simp [counted, counts, isRecursion]
  | reversePrintStack head => simp [counted, counts, isRecursion]
  | reversePrintRecursion head =>
      cases head with
      | null => simp [counted, counts, isRecursion, Call.head, ListNode.values]
      | node val next => simp [counted, counts, isRecursion, Call.head, ListNode.values]

variable {globals globals' : Globals} {call : Call}

/-- A call that starts with an empty stack and, where it uses it, with `size` at 0. -/
theorem run_eq {size : ℕ} (hsize : globals.size = .ofNat size) (hstack : globals.stack = [])
    (hfits : call.head.values.length < 2 ^ 31) (hfresh : call.isRecursion = true → size = 0) :
    ∃ globals', call.run globals = .ok (some globals.heap.next) globals' ∧
      globals'.heap = globals.heap.push call.head.values.reverse ∧ globals'.stack = [] ∧
      globals'.size = .ofNat (size + call.counted) := by
  cases call with
  | reversePrint head => exact ⟨_, reversePrint_eq hfits globals, rfl, hstack, hsize⟩
  | reversePrintStack head => exact ⟨_, reversePrintStack_eq hfits hstack, rfl, hstack, hsize⟩
  | reversePrintRecursion head =>
      obtain rfl : size = 0 := hfresh rfl
      have hrun := reversePrintRecursion_eq globals hsize (by rw [Nat.zero_add]; exact hfits)
      rw [List.replicate_zero, List.append_nil] at hrun
      exact ⟨_, hrun, rfl, hstack, rfl⟩

/-- Whatever a call returns is a new array, no longer than an `Int` can say. -/
theorem run_eq_ok (hstack : globals.stack = []) {result : Option ℕ}
    (h : call.run globals = .ok result globals') :
    result = some globals.heap.next ∧
      ∃ array, globals'.heap = globals.heap.push array ∧ array.length < 2 ^ 31 := by
  cases call with
  | reversePrint head => exact reversePrint_eq_ok h
  | reversePrintStack head => exact reversePrintStack_eq_ok hstack h
  | reversePrintRecursion head =>
      obtain ⟨hresult, -, -, array, hheap, hlength⟩ := reversePrintRecursion_eq_ok h
      exact ⟨hresult, array, hheap, hlength ▸ Int32.toNatClampNeg_lt _⟩

end Call

/-- Every call returns an array with the values of its list in reverse order, and the arrays
returned before are what they were. -/
def ReversesFrom : List ℕ → Globals → List Call → Prop
  | _, _, [] => True
  | returned, globals, call :: calls =>
      ∃ result globals', call.run globals = .ok (some result) globals' ∧
        globals'.heap.read result = some call.head.values.reverse ∧
        (∀ earlier ∈ returned, globals'.heap.read earlier = globals.heap.read earlier) ∧
        ReversesFrom (result :: returned) globals' calls

/-- The same of all the calls of a process. -/
def Reverses (calls : List Call) : Prop := ReversesFrom [] .initial calls

section Reverses

variable {returned : List ℕ} {globals : Globals} {call : Call} {calls : List Call} {size : ℕ}

/-- The list is not too long, and `size` is 0 where it matters. -/
theorem ReversesFrom.head (hsize : globals.size = .ofNat size) (hsize' : size < 2 ^ 31)
    (hstack : globals.stack = []) (h : ReversesFrom returned globals (call :: calls)) :
    call.head.values.length < 2 ^ 31 ∧ (call.isRecursion = true → size = 0) := by
  obtain ⟨result, globals', hrun, hread, -, -⟩ := h
  obtain ⟨hresult, array, hheap, hlength⟩ := Call.run_eq_ok hstack hrun
  cases hresult
  rw [hheap, Heap.read_push_self, Option.some.injEq] at hread
  subst hread
  rw [List.length_reverse] at hlength
  refine ⟨hlength, fun hrecursion => ?_⟩
  cases call with
  | reversePrint head => cases hrecursion
  | reversePrintStack head => cases hrecursion
  | reversePrintRecursion head =>
      obtain ⟨-, -, hnonneg, array', hheap', hlength'⟩ := reversePrintRecursion_eq_ok hrun
      have harray : array' = head.values.reverse := by
        have hread :
            (globals.heap.push array').read globals.heap.next = some head.values.reverse := by
          rw [← hheap', hheap, Heap.read_push_self]
          rfl
        rwa [Heap.read_push_self, Option.some.injEq] at hread
      rw [harray, List.length_reverse] at hlength'
      -- The sum may wrap, but only a `size` of 0 brings it back to the length.
      have hround : globals.size + .ofNat head.values.length = .ofNat head.values.length :=
        (Int32.ofNat_toNatClampNeg _ hnonneg).symm.trans (congrArg Int32.ofNat hlength'.symm)
      have hzero : Int32.ofNat size = 0 := hsize.symm.trans (Int32.add_eq_right.mp hround)
      have hint : ((size : ℕ) : ℤ) = 0 := by
        rw [← Int32.toInt_ofNat_of_lt hsize', hzero, Int32.toInt_zero]
      omega

/-- A call that goes well leaves the rest to be shown. -/
theorem reversesFrom_cons_iff (calls : List Call) (hsize : globals.size = .ofNat size)
    (hstack : globals.stack = []) (hfits : call.head.values.length < 2 ^ 31)
    (hfresh : call.isRecursion = true → size = 0)
    (hreturned : ∀ ref ∈ returned, ref < globals.heap.next) :
    ∃ globals', globals'.size = .ofNat (size + call.counted) ∧ globals'.stack = [] ∧
      (∀ ref ∈ globals.heap.next :: returned, ref < globals'.heap.next) ∧
      (ReversesFrom returned globals (call :: calls) ↔
        ReversesFrom (globals.heap.next :: returned) globals' calls) := by
  obtain ⟨globals', hrun, hheap, hstack', hsize'⟩ := Call.run_eq hsize hstack hfits hfresh
  refine ⟨globals', hsize', hstack', ?_, ?_, ?_⟩
  · intro ref hmem
    rw [hheap, Heap.next_push]
    rcases List.mem_cons.mp hmem with rfl | hearlier
    · exact Nat.lt_succ_self _
    · exact Nat.lt_succ_of_lt (hreturned ref hearlier)
  · rintro ⟨result, globals'', hrun', -, -, hcalls⟩
    rw [hrun] at hrun'
    cases hrun'
    exact hcalls
  · intro hcalls
    refine ⟨_, globals', hrun, ?_, fun earlier hearlier => ?_, hcalls⟩
    · rw [hheap, Heap.read_push_self]
    · rw [hheap, Heap.read_push_of_lt (hreturned earlier hearlier)]

/-- Whether all goes well from a point between two calls, where `size` stands at some
count. -/
theorem reversesFrom_iff (hsize : globals.size = .ofNat size) (hsize' : size < 2 ^ 31)
    (hstack : globals.stack = []) (hreturned : ∀ ref ∈ returned, ref < globals.heap.next) :
    ReversesFrom returned globals calls ↔
      (∀ call ∈ calls, call.head.values.length < 2 ^ 31) ∧
      (size ≠ 0 → ∀ call ∈ calls, call.isRecursion = false) ∧
      calls.Pairwise fun earlier later => earlier.counts = true → later.isRecursion = false := by
  induction calls generalizing globals returned size with
  | nil => simp [ReversesFrom]
  | cons call calls ih =>
      rw [List.pairwise_cons, List.forall_mem_cons, List.forall_mem_cons]
      by_cases hhead : call.head.values.length < 2 ^ 31 ∧ (call.isRecursion = true → size = 0)
      · obtain ⟨hfits, hfresh⟩ := hhead
        obtain ⟨globals', hsize₁, hstack₁, hreturned₁, hcons⟩ :=
          reversesFrom_cons_iff calls hsize hstack hfits hfresh hreturned
        have hlt : size + call.counted < 2 ^ 31 := by
          unfold Call.counted
          split
          · rename_i hrecursion
            rw [hfresh hrecursion]
            omega
          · omega
        rw [hcons, ih hsize₁ hlt hstack₁ hreturned₁]
        have hcounts : call.counts = true ↔ call.counted ≠ 0 := Call.counted_ne_zero_iff.symm
        constructor
        · rintro ⟨hlengths, hnone, hpairs⟩
          refine ⟨⟨hfits, hlengths⟩, fun hne => ⟨?_, hnone (by omega)⟩,
            fun later hlater hcount => ?_, hpairs⟩
          · exact Bool.eq_false_iff.mpr fun hrecursion => hne (hfresh hrecursion)
          · have hne := hcounts.mp hcount
            exact hnone (by omega) later hlater
        · rintro ⟨⟨-, hlengths⟩, hnone, hlater, hpairs⟩
          refine ⟨hlengths, fun hne => ?_, hpairs⟩
          by_cases hzero : size = 0
          · have hcount := hcounts.mpr (by omega : call.counted ≠ 0)
            exact fun later hmem => hlater later hmem hcount
          · exact (hnone hzero).2
      · constructor
        · intro h
          exact absurd (h.head hsize hsize' hstack) hhead
        · rintro ⟨⟨hfits, -⟩, hnone, -⟩
          refine absurd ⟨hfits, fun hrecursion => ?_⟩ hhead
          by_contra hne
          rw [(hnone hne).1] at hrecursion
          cases hrecursion

end Reverses

/-- Every call of a process returns its list in reverse order, in an array that stays what
it is, exactly where no list has more nodes than an `Int` can count and no call of
`reversePrintRecursion` comes after one on a list that is not empty. -/
theorem reverses_iff (calls : List Call) :
    Reverses calls ↔
      (∀ call ∈ calls, call.head.values.length < 2 ^ 31) ∧
      calls.Pairwise fun earlier later => earlier.counts = true → later.isRecursion = false := by
  have hnone : ∀ ref ∈ ([] : List ℕ), ref < Globals.initial.heap.next := by simp
  have hsize : Globals.initial.size = .ofNat 0 := rfl
  rw [Reverses, reversesFrom_iff hsize (by omega) rfl hnone]
  simp

/-- A second call of `reversePrintRecursion`, on a list of one node. -/
theorem not_reverses_twice :
    ¬ Reverses
      [.reversePrintRecursion (.node 1 .null), .reversePrintRecursion (.node 2 .null)] := by
  have hnone : ∀ ref ∈ ([] : List ℕ), ref < Globals.initial.heap.next := by simp
  have hsize : Globals.initial.size = .ofNat 0 := rfl
  rw [Reverses, reversesFrom_iff hsize (by omega) rfl hnone]
  rintro ⟨-, -, hpairs⟩
  have hpair := (List.pairwise_cons.mp hpairs).1 _ List.mem_cons_self rfl
  cases hpair

end StudyNotes.ReversePrint
