/-
# Code lengths

`BZ2_hbMakeCodeLengths` merges the two lightest nodes of a heap until one is left, and the levels
of the leaves are the code lengths.  Where one of them is too long, all weights are made smaller
and it begins again.  The lower eight bits of a weight are the height of its node.
-/

import Mathlib.Algebra.Order.BigOperators.Group.List
import StudyNotes.Bzip2.Huffman
import StudyNotes.Lib.BinaryHeap
import StudyNotes.Lib.Bits
import StudyNotes.Lib.WeightedTree

namespace StudyNotes.Bzip2

open StudyNotes.Checked StudyNotes.CanonicalCode StudyNotes.WeightedTree

/-- The places of `weight` and of `parent`. -/
abbrev Node := Fin (maxAlphaSize * 2)

def node (n : ℕ) : Option Node := if h : n < maxAlphaSize * 2 then some ⟨n, h⟩ else none

/-- Entry 0 of the heap and of the nodes. -/
def sentinel : Node := ⟨0, Nat.succ_pos _⟩

/-- A number that an `Int32` holds. -/
def int32 (n : ℕ) : Option ℕ := if n < 2 ^ 31 then some n else none

/-- `WEIGHTOF`. -/
def weightOf (z : ℕ) : ℕ := z &&& 0xffffff00

/-- `DEPTHOF`. -/
def depthOf (z : ℕ) : ℕ := z &&& 0x000000ff

/-- `ADDWEIGHTS`. -/
def addWeights (zw1 zw2 : ℕ) : ℕ :=
  (weightOf zw1 + weightOf zw2) ||| (1 + max (depthOf zw1) (depthOf zw2))

/-- The arrays `weight` and `parent`, and `heap` as far as `nHeap`. -/
structure Nodes where
  weight : Vector ℕ (maxAlphaSize * 2)
  parent : Vector ℤ (maxAlphaSize * 2)
  heap : List Node
  nNodes : ℕ

namespace Nodes

/-- The heap before its first entry.  What the arrays hold beyond the nodes is not read. -/
def start (weight : Vector ℕ (maxAlphaSize * 2)) (alphaSize : ℕ) : Nodes where
  weight := weight.set sentinel 0
  parent := (Vector.replicate _ 0).set sentinel (-2)
  heap := [sentinel]
  nNodes := alphaSize

/-- `nHeap++; heap[nHeap] = n; UPHEAP(nHeap)`. -/
def upHeap (s : Nodes) (n : Node) : Option Nodes := do
  return { s with heap := ← BinaryHeap.insert s.weight.get (maxAlphaSize + 2) s.heap n }

/-- `heap[1] = heap[nHeap]; nHeap--; DOWNHEAP(1)`, after the first entry is read. -/
def downHeap (s : Nodes) : Option (Node × Nodes) := do
  let (n, heap) ← BinaryHeap.extract s.weight.get s.heap
  return (n, { s with heap })

/-- A turn of the loop that fills the heap. -/
def putLeaf (i : ℕ) (s : Nodes) : Option Nodes := do
  let n ← node i
  upHeap { s with parent := s.parent.set n (-1) } n

/-- A new node over two others. -/
def join (s : Nodes) (n1 n2 : Node) : Option Nodes := do
  let nNodes := s.nNodes + 1
  let n ← node nNodes
  let z ← int32 (addWeights (s.weight.get n1) (s.weight.get n2))
  upHeap
    { s with
      weight := s.weight.set n z
      parent := ((s.parent.set n1 nNodes).set n2 nNodes).set n (-1)
      nNodes } n

/-- A turn of the loop that empties the heap. -/
def merge (s : Nodes) : Option Nodes := do
  let (n1, s) ← s.downHeap
  let (n2, s) ← s.downHeap
  s.join n1 n2

/-- The loop; every turn takes one entry from the heap. -/
def mergeAll : ℕ → Nodes → Option Nodes
  | 0, _ => none
  | turns + 1, s => if s.heap.length - 1 > 1 then do mergeAll turns (← s.merge) else some s

/-- The loop that counts the steps to the root. -/
def climb (s : Nodes) : ℕ → Node → ℕ → Option ℕ
  | 0, _, _ => none
  | turns + 1, k, j =>
      if s.parent.get k ≥ 0 then do s.climb turns (← node (s.parent.get k).toNat) (j + 1)
      else some j

/-- The code lengths; each is stored in a byte. -/
def levelsOf (s : Nodes) (alphaSize : ℕ) : Option (List ℕ) :=
  (List.range' 1 alphaSize).mapM fun i => do
    let j ← s.climb (maxAlphaSize * 2) (← node i) 0
    guard (j < 256)
    return j

end Nodes

/-- The loop that fills `weight`. -/
def initWeights (freq : List ℕ) (alphaSize : ℕ) : Option (Vector ℕ (maxAlphaSize * 2)) :=
  loop 0 alphaSize (fun i weight => do
    let f ← freq[i]?
    return weight.set (← node (i + 1)) (← int32 ((if f = 0 then 1 else f) <<< 8)))
    (Vector.replicate _ 0)

/-- The loop that makes the weights smaller. -/
def scaleWeights (weight : Vector ℕ (maxAlphaSize * 2)) (alphaSize : ℕ) :
    Option (Vector ℕ (maxAlphaSize * 2)) :=
  loop 1 (alphaSize + 1) (fun i weight => do
    let n ← node i
    return weight.set n ((1 + weight.get n >>> 8 / 2) <<< 8)) weight

/-- The loop of `BZ2_hbMakeCodeLengths`. -/
def makeLengths : ℕ → Vector ℕ (maxAlphaSize * 2) → ℕ → ℕ → Option (List ℕ)
  | 0, _, _, _ => none
  | turns + 1, weight, alphaSize, maxLen => do
      let s ← loop 1 (alphaSize + 1) Nodes.putLeaf (Nodes.start weight alphaSize)
      guard (s.heap.length - 1 < maxAlphaSize + 2)
      let s ← s.mergeAll (maxAlphaSize + 2)
      guard (s.nNodes < maxAlphaSize * 2)
      let len ← s.levelsOf alphaSize
      if len.any (· > maxLen) then
        makeLengths turns (← scaleWeights s.weight alphaSize) alphaSize maxLen
      else return len

/-- `BZ2_hbMakeCodeLengths`, in no more turns than the sum of the weights. -/
def hbMakeCodeLengths (freq : List ℕ) (alphaSize maxLen : ℕ) : Option (List ℕ) := do
  let weight ← initWeights freq alphaSize
  makeLengths (freq.sum + alphaSize + 1) weight alphaSize maxLen

/-! ## Weights -/

theorem node_eq {n : ℕ} (h : n < maxAlphaSize * 2) : node n = some ⟨n, h⟩ := dif_pos h

theorem int32_eq {n : ℕ} (h : n < 2 ^ 31) : int32 n = some n := if_pos h

theorem weightOf_eq {z : ℕ} (h : z < 2 ^ 32) : weightOf z = z / 2 ^ 8 * 2 ^ 8 := by
  have hmask : (0xffffff00 : ℕ) = (2 ^ 24 - 1) <<< 8 := rfl
  rw [weightOf, hmask, ← Nat.shiftRight_eq_div_pow, ← Nat.shiftLeft_eq]
  refine Nat.eq_of_testBit_eq fun i => ?_
  rw [Nat.testBit_and, Nat.testBit_shiftLeft, Nat.testBit_shiftLeft, Nat.testBit_two_pow_sub_one,
    Nat.testBit_shiftRight]
  by_cases hlow : 8 ≤ i
  · rw [Nat.add_sub_cancel' hlow]
    by_cases hhigh : i < 32
    · simp [hlow, show i - 8 < 24 by omega]
    · have hzero : z.testBit i = false :=
        Nat.testBit_lt_two_pow (Nat.lt_of_lt_of_le h (Nat.pow_le_pow_right (by decide) (by omega)))
      simp [hzero]
  · simp [hlow]

/-- A weight with the height of its node. -/
theorem addWeights_eq {w1 w2 d1 d2 : ℕ} (hw : w1 + w2 < 2 ^ 23) (h1 : d1 < 255) (h2 : d2 < 255) :
    addWeights (w1 * 2 ^ 8 + d1) (w2 * 2 ^ 8 + d2) = (w1 + w2) * 2 ^ 8 + (1 + max d1 d2) := by
  have hdepth {w d : ℕ} (hd : d < 255) : depthOf (w * 2 ^ 8 + d) = d := by
    have hmask : depthOf (w * 2 ^ 8 + d) = (w * 2 ^ 8 + d) % 2 ^ 8 :=
      Nat.and_two_pow_sub_one_eq_mod _ 8
    rw [hmask]
    omega
  have hweight {w d : ℕ} (hw : w < 2 ^ 23) (hd : d < 255) :
      weightOf (w * 2 ^ 8 + d) = w * 2 ^ 8 := by
    rw [weightOf_eq (by omega)]
    omega
  rw [addWeights, hdepth h1, hdepth h2, hweight (by omega) h1, hweight (by omega) h2, ← Nat.add_mul,
    Bits.mul_or_eq_add (by omega)]

/-! ## The trees behind the nodes -/

namespace Nodes

/-- A node stands for a tree: the parents of its parts lead to it. -/
inductive Stands (s : Nodes) : Node → CodeTree → Prop
  | single (n : Node) : Stands s n (.leaf n.val)
  | merged {n left right : Node} {l r : CodeTree} (hleft : s.parent.get left = n.val)
      (hright : s.parent.get right = n.val) (hle : left.val ≤ s.nNodes) (hle' : right.val ≤ s.nNodes)
      (hl : Stands s left l) (hr : Stands s right r) : Stands s n (.node l r)

/-- Some nodes with their trees, of weights `w` at the leaves. -/
structure Trees (w : ℕ → ℕ) (alphaSize : ℕ) (live : List (Node × CodeTree)) (s : Nodes) : Prop where
  nodup : (live.map Prod.fst).Nodup
  zero : s.weight.get sentinel = 0
  range : ∀ p ∈ live, 1 ≤ p.1.val ∧ p.1.val ≤ s.nNodes
  root : ∀ p ∈ live, s.parent.get p.1 = -1
  stands : ∀ p ∈ live, s.Stands p.1 p.2
  weight : ∀ p ∈ live, s.weight.get p.1 = p.2.weight w * 2 ^ 8 + p.2.height
  leaf : ∀ i : Node, 1 ≤ i.val → i.val ≤ alphaSize → s.weight.get i = w i.val * 2 ^ 8
  greedy : Greedy w (live.map Prod.snd)
  leaves : (live.flatMap fun p => p.2.leaves).Perm (List.range' 1 alphaSize)
  count : s.nNodes + live.length = 2 * alphaSize
  le_nNodes : alphaSize ≤ s.nNodes

/-- The nodes in the heap. -/
structure Holds (w : ℕ → ℕ) (alphaSize : ℕ) (live : List (Node × CodeTree)) (s : Nodes) : Prop
    extends s.Trees w alphaSize live where
  heap : BinaryHeap.Holds s.weight.get sentinel (live.map Prod.fst) s.heap

section Spec

variable {s s' : Nodes} {w : ℕ → ℕ} {alphaSize : ℕ} {live rest : List (Node × CodeTree)} {n : Node}
  {t : CodeTree}

theorem get_set (v : Vector ℕ (maxAlphaSize * 2)) (n m : Node) (z : ℕ) :
    (v.set n z).get m = if n = m then z else v.get m := by
  show (v.set n z)[m.val] = if n = m then z else v[m.val]
  rw [Vector.getElem_set]
  simp only [Fin.ext_iff]

theorem get_set_parent (v : Vector ℤ (maxAlphaSize * 2)) (n m : Node) (p : ℤ) :
    (v.set n p).get m = if n = m then p else v.get m := by
  show (v.set n p)[m.val] = if n = m then p else v[m.val]
  rw [Vector.getElem_set]
  simp only [Fin.ext_iff]

/-- Nodes with a parent keep it. -/
theorem Stands.mono (h : s.Stands n t) (hle : s.nNodes ≤ s'.nNodes)
    (hkeep : ∀ i : Node, i.val ≤ s.nNodes → 0 ≤ s.parent.get i → s'.parent.get i = s.parent.get i) :
    s'.Stands n t := by
  induction h with
  | single n => exact .single n
  | merged hleft hright hl hr _ _ ihl ihr =>
      refine .merged ?_ ?_ (Nat.le_trans hl hle) (Nat.le_trans hr hle) ihl ihr
      · rw [hkeep _ hl (by rw [hleft]; exact Int.natCast_nonneg _), hleft]
      · rw [hkeep _ hr (by rw [hright]; exact Int.natCast_nonneg _), hright]

/-- From a leaf the parents lead to the root in as many steps as its level. -/
theorem Stands.climb (h : s.Stands n t) {d i k : ℕ} (hmem : (i, k) ∈ t.levels d) :
    ∃ leaf : Node, leaf.val = i ∧ ∀ turns j,
      s.climb (turns + (k - d)) leaf j = s.climb turns n (j + (k - d)) := by
  induction h generalizing d with
  | single n =>
      rw [CodeTree.levels, List.mem_singleton] at hmem
      cases hmem
      refine ⟨n, rfl, fun turns j => ?_⟩
      rw [Nat.sub_self, Nat.add_zero, Nat.add_zero]
  | @merged n left right l r hleft hright _ _ _ _ ihl ihr =>
      have hstep : ∀ {child : Node} {leaf : Node}, s.parent.get child = n.val →
          d + 1 ≤ k →
          (∀ turns j, s.climb (turns + (k - (d + 1))) leaf j =
            s.climb turns child (j + (k - (d + 1)))) →
          ∀ turns j, s.climb (turns + (k - d)) leaf j = s.climb turns n (j + (k - d)) := by
        intro child leaf hparent hlevel hclimb turns j
        have hturn := hclimb (turns + 1) j
        rw [show turns + 1 + (k - (d + 1)) = turns + (k - d) by omega] at hturn
        have hnode : node (s.parent.get child).toNat = some n := by
          rw [hparent, Int.toNat_natCast]
          exact node_eq n.isLt
        rw [hturn, Nodes.climb, if_pos (by rw [hparent]; exact Int.natCast_nonneg _), hnode,
          show j + (k - (d + 1)) + 1 = j + (k - d) by omega]
        rfl
      rw [CodeTree.levels, List.mem_append] at hmem
      rcases hmem with hmem | hmem
      · obtain ⟨leaf, hleaf, hclimb⟩ := ihl hmem
        exact ⟨leaf, hleaf, hstep hleft (CodeTree.level_le hmem).1 hclimb⟩
      · obtain ⟨leaf, hleaf, hclimb⟩ := ihr hmem
        exact ⟨leaf, hleaf, hstep hright (CodeTree.level_le hmem).1 hclimb⟩

theorem returns_upHeap {live : List Node}
    (h : BinaryHeap.Holds s.weight.get sentinel live s.heap) (hzero : s.weight.get sentinel = 0)
    (hsize : live.length ≤ maxAlphaSize) (n : Node) :
    Returns (s.upHeap n) fun s' => ∃ heap, s' = { s with heap } ∧
      BinaryHeap.Holds s.weight.get sentinel (n :: live) heap := by
  have hlt : s.heap.length < maxAlphaSize + 2 := by
    rw [h.length_eq]
    omega
  refine Returns.bind (h.returns_insert (a := n) hlt ?_) fun heap hheap => ?_
  · rw [hzero]
    exact Nat.zero_le _
  · exact Returns.pure ⟨heap, rfl, hheap⟩

/-! ## The leaves -/

/-- The heap after some leaves. -/
structure Leaves (w : ℕ → ℕ) (alphaSize : ℕ) (i : ℕ) (s : Nodes) : Prop where
  nNodes : s.nNodes = alphaSize
  zero : s.weight.get sentinel = 0
  leaf : ∀ n : Node, 1 ≤ n.val → n.val ≤ alphaSize → s.weight.get n = w n.val * 2 ^ 8
  root : ∀ n : Node, 1 ≤ n.val → n.val < i → s.parent.get n = -1
  heap : ∃ live : List Node, BinaryHeap.Holds s.weight.get sentinel live s.heap ∧
    live.Nodup ∧ (live.map Fin.val).Perm (List.range' 1 (i - 1))

theorem Leaves.returns_putLeaf {i : ℕ} (h : s.Leaves w alphaSize i) (hpos : 1 ≤ i)
    (hle : i ≤ alphaSize) (halpha : alphaSize ≤ maxAlphaSize) :
    Returns (s.putLeaf i) (Leaves w alphaSize (i + 1)) := by
  have hmax : maxAlphaSize = 258 := rfl
  have hi : i < maxAlphaSize * 2 := by omega
  obtain ⟨live, hheap, hnodup, hperm⟩ := h.heap
  have hlength := hperm.length_eq
  rw [List.length_map, List.length_range'] at hlength
  refine Returns.bind (Returns.of_eq (node_eq hi) rfl) ?_
  rintro _ rfl
  refine (returns_upHeap (s := { s with parent := s.parent.set i (-1) }) hheap h.zero (by omega)
    _).mono ?_
  rintro _ ⟨heap, rfl, hheap'⟩
  refine ⟨h.nNodes, h.zero, h.leaf, fun n hn hlt => ?_, _, hheap', ?_, ?_⟩
  · refine (get_set_parent s.parent ⟨i, hi⟩ n (-1)).trans ?_
    split
    · rfl
    · rename_i hne
      refine h.root n hn (Nat.lt_of_le_of_ne (Nat.le_of_lt_succ hlt) fun heq => hne ?_)
      exact Fin.ext heq.symm
  · refine List.nodup_cons.mpr ⟨fun hmem => ?_, hnodup⟩
    have hin : i ∈ List.range' 1 (i - 1) := hperm.mem_iff.mp (List.mem_map_of_mem hmem)
    rw [List.mem_range'_1] at hin
    omega
  · rw [List.map_cons, Nat.add_sub_cancel]
    have hsucc : List.range' 1 i = List.range' 1 (i - 1) ++ [i] := by
      have hconcat : List.range' 1 (i - 1 + 1) = List.range' 1 (i - 1) ++ [1 + 1 * (i - 1)] :=
        List.range'_concat
      rw [Nat.sub_add_cancel hpos, Nat.one_mul, Nat.add_comm 1, Nat.sub_add_cancel hpos] at hconcat
      exact hconcat
    rw [hsucc]
    exact (hperm.cons i).trans (List.perm_append_singleton i _).symm

/-- The trees of the leaves. -/
theorem Leaves.exists_holds (h : s.Leaves w alphaSize (alphaSize + 1)) (hw : ∀ i, 1 ≤ w i) :
    ∃ live, s.Holds w alphaSize live := by
  obtain ⟨live, hheap, hnodup, hperm⟩ := h.heap
  rw [Nat.add_sub_cancel] at hperm
  have hrange : ∀ n ∈ live, 1 ≤ n.val ∧ n.val ≤ alphaSize := by
    intro n hn
    have hin := hperm.mem_iff.mp (List.mem_map_of_mem hn)
    rw [List.mem_range'_1] at hin
    omega
  have hfst : (live.map fun n => (n, CodeTree.leaf n.val)).map Prod.fst = live := by
    rw [List.map_map]
    exact List.map_id live
  have hsnd : (live.map fun n => (n, CodeTree.leaf n.val)).map Prod.snd =
      (live.map Fin.val).map CodeTree.leaf := by
    rw [List.map_map, List.map_map]
    rfl
  have hmem : ∀ p ∈ live.map (fun n => (n, CodeTree.leaf n.val)),
      ∃ n ∈ live, p = (n, .leaf n.val) := by
    intro p hp
    obtain ⟨n, hn, rfl⟩ := List.mem_map.mp hp
    exact ⟨n, hn, rfl⟩
  have hlength := hperm.length_eq
  rw [List.length_map, List.length_range'] at hlength
  refine ⟨live.map fun n => (n, .leaf n.val),
    ⟨?_, h.zero, ?_, ?_, ?_, ?_, h.leaf, ?_, ?_, ?_, ?_⟩, ?_⟩
  · rw [hfst]
    exact hnodup
  · intro p hp
    obtain ⟨n, hn, rfl⟩ := hmem p hp
    rw [h.nNodes]
    exact hrange n hn
  · intro p hp
    obtain ⟨n, hn, rfl⟩ := hmem p hp
    exact h.root n (hrange n hn).1 (Nat.lt_succ_of_le (hrange n hn).2)
  · intro p hp
    obtain ⟨n, hn, rfl⟩ := hmem p hp
    exact .single n
  · intro p hp
    obtain ⟨n, hn, rfl⟩ := hmem p hp
    show s.weight.get n = w n.val * 2 ^ 8 + 0
    rw [Nat.add_zero]
    exact h.leaf n (hrange n hn).1 (hrange n hn).2
  · rw [hsnd]
    exact greedy_leaves fun i _ => hw i
  · rw [List.flatMap_map, List.flatMap_def]
    have hsingle : live.map (fun n : Node => CodeTree.leaves (.leaf n.val)) =
        (live.map Fin.val).map fun i => [i] := by
      rw [List.map_map]
      rfl
    rw [hsingle, ← List.flatMap_def, List.flatMap_singleton']
    exact hperm
  · rw [h.nNodes, List.length_map, hlength, Nat.two_mul]
  · exact Nat.le_of_eq h.nNodes.symm
  · rw [hfst]
    exact hheap

/-! ## Merging -/

/-- What all leaves weigh. -/
def total (w : ℕ → ℕ) (alphaSize : ℕ) : ℕ := ((List.range' 1 alphaSize).map w).sum

theorem Trees.sum_weight (h : s.Trees w alphaSize live) :
    (live.map fun p => p.2.weight w).sum = total w alphaSize := by
  have hsum : ∀ live : List (Node × CodeTree), (live.map fun p => p.2.weight w).sum =
      ((live.flatMap fun p => p.2.leaves).map w).sum := by
    intro live
    induction live with
    | nil => rfl
    | cons p live ih =>
        rw [List.map_cons, List.sum_cons, List.flatMap_cons, List.map_append, List.sum_append, ih,
          CodeTree.weight_eq_sum]
  rw [hsum, total, (h.leaves.map w).sum_eq]

theorem Trees.weight_le (h : s.Trees w alphaSize live) {p : Node × CodeTree} (hp : p ∈ live) :
    p.2.weight w ≤ total w alphaSize := by
  rw [← h.sum_weight]
  exact List.single_le_sum (fun _ _ => Nat.zero_le _) _ (List.mem_map_of_mem hp)

/-- No tree is higher than its weight allows. -/
theorem Trees.fib_le (h : s.Trees w alphaSize live) {p : Node × CodeTree} (hp : p ∈ live) :
    Nat.fib (p.2.height + 2) ≤ total w alphaSize :=
  Nat.le_trans (h.greedy.heavy p.2 (List.mem_map_of_mem hp)).fib_le (h.weight_le hp)

theorem Trees.height_le (h : s.Trees w alphaSize live) (htotal : total w alphaSize < 2 ^ 23)
    {p : Node × CodeTree} (hp : p ∈ live) : p.2.height ≤ 32 := by
  by_contra hhigh
  have hfib : Nat.fib 35 ≤ Nat.fib (p.2.height + 2) := Nat.fib_mono (by omega)
  have hvalue : Nat.fib 35 = 9227465 := rfl
  have hle := h.fib_le hp
  omega

/-- The weight of a node orders the nodes by the weights of their trees. -/
theorem Trees.weight_le_weight (h : s.Trees w alphaSize live) (htotal : total w alphaSize < 2 ^ 23)
    {p q : Node × CodeTree} (hp : p ∈ live) (hq : q ∈ live)
    (hle : s.weight.get p.1 ≤ s.weight.get q.1) : p.2.weight w ≤ q.2.weight w := by
  have hheight := h.height_le htotal hq
  rw [h.weight p hp, h.weight q hq] at hle
  omega

theorem Trees.withHeap (h : s.Trees w alphaSize live) (heap : List Node) :
    Trees w alphaSize live { s with heap } :=
  ⟨h.nodup, h.zero, h.range, h.root,
    fun p hp => (h.stands p hp).mono (Nat.le_refl _) fun _ _ _ => rfl, h.weight, h.leaf, h.greedy,
    h.leaves, h.count, h.le_nNodes⟩

theorem Trees.perm (h : s.Trees w alphaSize live) (hperm : live.Perm rest) :
    s.Trees w alphaSize rest := by
  have hmem : ∀ p ∈ rest, p ∈ live := fun p hp => hperm.mem_iff.mpr hp
  refine ⟨(hperm.map _).nodup_iff.mp h.nodup, h.zero, fun p hp => h.range p (hmem p hp),
    fun p hp => h.root p (hmem p hp), fun p hp => h.stands p (hmem p hp),
    fun p hp => h.weight p (hmem p hp), h.leaf, h.greedy.perm (hperm.map _),
    (hperm.flatMap_right _).symm.trans h.leaves, ?_, h.le_nNodes⟩
  rw [← hperm.length_eq]
  exact h.count

theorem exists_perm_cons {α β : Type} {f : α → β} {as : List α} {b : β} {bs : List β}
    (h : (as.map f).Perm (b :: bs)) :
    ∃ a rest, as.Perm (a :: rest) ∧ f a = b ∧ (rest.map f).Perm bs := by
  obtain ⟨a, ha, rfl⟩ := List.mem_map.mp (h.mem_iff.mpr List.mem_cons_self)
  obtain ⟨before, after, rfl⟩ := List.append_of_mem ha
  refine ⟨a, before ++ after, List.perm_middle, rfl, ?_⟩
  rw [List.map_append, List.map_cons] at h
  rw [List.map_append]
  exact List.perm_cons (f a) |>.mp (List.perm_middle.symm.trans h)

theorem returns_downHeap (h : BinaryHeap.Holds s.weight.get sentinel (live.map Prod.fst) s.heap)
    (hne : live ≠ []) :
    Returns s.downHeap fun (n, s') => ∃ p rest heap, live.Perm (p :: rest) ∧ p.1 = n ∧
      s' = { s with heap } ∧ (∀ q ∈ rest, s.weight.get p.1 ≤ s.weight.get q.1) ∧
      BinaryHeap.Holds s.weight.get sentinel (rest.map Prod.fst) heap := by
  refine Returns.bind (h.returns_extract fun hnil => hne (List.map_eq_nil_iff.mp hnil)) ?_
  rintro ⟨n, heap⟩ ⟨others, hperm, hmin, hheap⟩
  obtain ⟨p, rest, hperm', rfl, hothers⟩ := exists_perm_cons hperm
  refine Returns.pure ⟨p, rest, heap, hperm', rfl, rfl, fun q hq => ?_, ?_⟩
  · exact hmin q.1 (hothers.mem_iff.mp (List.mem_map_of_mem hq))
  · exact ⟨hheap.ordered, hheap.zero, hheap.perm.trans (hothers.symm.cons _)⟩

/-! ### A new node over the two lightest -/

/-- The arrays when `n` has become the parent of two nodes, with a weight of its own. -/
def joined (s : Nodes) (n n1 n2 : Node) (z : ℕ) : Nodes :=
  { s with
    weight := s.weight.set n z
    parent := ((s.parent.set n1 (s.nNodes + 1 : ℕ)).set n2 (s.nNodes + 1 : ℕ)).set n (-1)
    nNodes := s.nNodes + 1 }

theorem get_weight_joined (n n1 n2 i : Node) (z : ℕ) :
    (s.joined n n1 n2 z).weight.get i = if n = i then z else s.weight.get i :=
  get_set s.weight n i z

theorem get_parent_joined (n n1 n2 i : Node) (z : ℕ) :
    (s.joined n n1 n2 z).parent.get i =
      if n = i then -1 else if n2 = i then ((s.nNodes + 1 : ℕ) : ℤ)
        else if n1 = i then ((s.nNodes + 1 : ℕ) : ℤ) else s.parent.get i := by
  refine (get_set_parent _ n i _).trans ?_
  rw [get_set_parent, get_set_parent]

theorem ne_sentinel (hval : n.val = s.nNodes + 1) : n ≠ sentinel := by
  intro heq
  have hzero : n.val = 0 := congrArg Fin.val heq
  omega

/-- The next node is none of those that are there. -/
theorem Trees.ne_next (h : s.Trees w alphaSize live) (hval : n.val = s.nNodes + 1)
    {q : Node × CodeTree} (hq : q ∈ live) : n ≠ q.1 := by
  intro heq
  have hle := (h.range q hq).2
  rw [← heq] at hle
  omega

section Join

variable {p1 p2 : Node × CodeTree} {z : ℕ}

/-- The weights of two nodes add up to the weight of the tree over both. -/
theorem Trees.addWeights_eq (h : s.Trees w alphaSize (p1 :: p2 :: rest))
    (htotal : total w alphaSize < 2 ^ 23) :
    addWeights (s.weight.get p1.1) (s.weight.get p2.1) =
      (CodeTree.node p1.2 p2.2).weight w * 2 ^ 8 + (CodeTree.node p1.2 p2.2).height ∧
    (CodeTree.node p1.2 p2.2).weight w * 2 ^ 8 + (CodeTree.node p1.2 p2.2).height < 2 ^ 31 := by
  have hp1 : p1 ∈ p1 :: p2 :: rest := List.mem_cons_self
  have hp2 : p2 ∈ p1 :: p2 :: rest := List.mem_cons_of_mem _ List.mem_cons_self
  have hsum := h.sum_weight
  rw [List.map_cons, List.map_cons, List.sum_cons, List.sum_cons] at hsum
  have hh1 := h.height_le htotal hp1
  have hh2 := h.height_le htotal hp2
  constructor
  · rw [h.weight p1 hp1, h.weight p2 hp2]
    exact Bzip2.addWeights_eq (by omega) (by omega) (by omega)
  · rw [CodeTree.weight, CodeTree.height]
    omega

/-- The nodes that were there stand for the trees they stood for. -/
theorem Trees.stands_joined (h : s.Trees w alphaSize (p1 :: p2 :: rest))
    (hval : n.val = s.nNodes + 1) {q : Node × CodeTree} (hq : q ∈ p1 :: p2 :: rest) :
    (s.joined n p1.1 p2.1 z).Stands q.1 q.2 := by
  refine (h.stands q hq).mono (Nat.le_succ _) fun i hi hpos => ?_
  rw [get_parent_joined, if_neg (fun heq => by rw [← heq] at hi; omega)]
  -- A node with a parent is neither of the two.
  have hroot : ∀ p ∈ p1 :: p2 :: rest, p.1 ≠ i := by
    intro p hp heq
    rw [← heq, h.root p hp] at hpos
    exact absurd hpos (by decide)
  rw [if_neg (hroot p2 (List.mem_cons_of_mem _ List.mem_cons_self)),
    if_neg (hroot p1 List.mem_cons_self)]

/-- The new node stands for the tree over both. -/
theorem Trees.stands_node (h : s.Trees w alphaSize (p1 :: p2 :: rest))
    (hval : n.val = s.nNodes + 1) :
    (s.joined n p1.1 p2.1 z).Stands n (.node p1.2 p2.2) := by
  have hp1 : p1 ∈ p1 :: p2 :: rest := List.mem_cons_self
  have hp2 : p2 ∈ p1 :: p2 :: rest := List.mem_cons_of_mem _ List.mem_cons_self
  refine .merged ?_ ?_ ?_ ?_ (h.stands_joined hval hp1) (h.stands_joined hval hp2)
  · rw [get_parent_joined, if_neg (h.ne_next hval hp1), hval]
    split
    · rfl
    · rw [if_pos rfl]
  · rw [get_parent_joined, if_neg (h.ne_next hval hp2), if_pos rfl, hval]
  · exact Nat.le_succ_of_le (h.range p1 hp1).2
  · exact Nat.le_succ_of_le (h.range p2 hp2).2

theorem Trees.joined (h : s.Trees w alphaSize (p1 :: p2 :: rest)) (hval : n.val = s.nNodes + 1)
    (htotal : total w alphaSize < 2 ^ 23)
    (hmin1 : ∀ q ∈ p2 :: rest, s.weight.get p1.1 ≤ s.weight.get q.1)
    (hmin2 : ∀ q ∈ rest, s.weight.get p2.1 ≤ s.weight.get q.1)
    (hz : (CodeTree.node p1.2 p2.2).weight w * 2 ^ 8 + (CodeTree.node p1.2 p2.2).height = z) :
    (s.joined n p1.1 p2.1 z).Trees w alphaSize ((n, .node p1.2 p2.2) :: rest) := by
  have hp1 : p1 ∈ p1 :: p2 :: rest := List.mem_cons_self
  have hp2 : p2 ∈ p1 :: p2 :: rest := List.mem_cons_of_mem _ List.mem_cons_self
  have hrest : ∀ q ∈ rest, q ∈ p1 :: p2 :: rest := fun q hq =>
    List.mem_cons_of_mem _ (List.mem_cons_of_mem _ hq)
  have hnodup : (p1.1 :: p2.1 :: rest.map Prod.fst).Nodup := h.nodup
  obtain ⟨hne1, hnodup⟩ := List.nodup_cons.mp hnodup
  obtain ⟨hne2, hnodup⟩ := List.nodup_cons.mp hnodup
  refine ⟨?_, ?_, ?_, ?_, ?_, ?_, ?_, ?_, ?_, ?_, ?_⟩
  · refine List.nodup_cons.mpr ⟨fun hmem => ?_, hnodup⟩
    obtain ⟨q, hq, heq⟩ := List.mem_map.mp hmem
    exact h.ne_next hval (hrest q hq) heq.symm
  · rw [get_weight_joined, if_neg (ne_sentinel hval), h.zero]
  · intro q hq
    rcases List.mem_cons.mp hq with rfl | hq
    · show 1 ≤ n.val ∧ n.val ≤ s.nNodes + 1
      omega
    · have hrange := h.range q (hrest q hq)
      exact ⟨hrange.1, Nat.le_succ_of_le hrange.2⟩
  · intro q hq
    rw [get_parent_joined]
    rcases List.mem_cons.mp hq with rfl | hq
    · rw [if_pos rfl]
    · have hmem : q.1 ∈ rest.map Prod.fst := List.mem_map_of_mem hq
      rw [if_neg (h.ne_next hval (hrest q hq)), if_neg (fun heq => hne2 (by rw [heq]; exact hmem)),
        if_neg (fun heq => hne1 (by rw [heq]; exact List.mem_cons_of_mem _ hmem)),
        h.root q (hrest q hq)]
  · intro q hq
    rcases List.mem_cons.mp hq with rfl | hq
    · exact h.stands_node hval
    · exact h.stands_joined hval (hrest q hq)
  · intro q hq
    rw [get_weight_joined]
    rcases List.mem_cons.mp hq with rfl | hq
    · rw [if_pos rfl, hz]
    · rw [if_neg (h.ne_next hval (hrest q hq)), h.weight q (hrest q hq)]
  · intro i hi hle
    have hnodes := h.le_nNodes
    rw [get_weight_joined, if_neg (fun heq => by rw [← heq] at hle; omega), h.leaf i hi hle]
  · refine h.greedy.merge (List.Perm.refl _) (fun t ht => ?_) fun t ht => ?_
    · obtain ⟨q, hq, rfl⟩ := List.mem_map.mp (show t ∈ (p2 :: rest).map Prod.snd from ht)
      exact h.weight_le_weight htotal hp1 (List.mem_cons_of_mem _ hq) (hmin1 q hq)
    · obtain ⟨q, hq, rfl⟩ := List.mem_map.mp ht
      exact h.weight_le_weight htotal hp2 (hrest q hq) (hmin2 q hq)
  · have hleaves := h.leaves
    rw [List.flatMap_cons, List.flatMap_cons, ← List.append_assoc] at hleaves
    exact hleaves
  · have hcount := h.count
    rw [List.length_cons, List.length_cons] at hcount
    show s.nNodes + 1 + (rest.length + 1) = _
    omega
  · exact Nat.le_succ_of_le h.le_nNodes

/-- Two nodes that are lighter than the others get a parent. -/
theorem Trees.returns_join (h : s.Trees w alphaSize (p1 :: p2 :: rest))
    (hheap : BinaryHeap.Holds s.weight.get sentinel (rest.map Prod.fst) s.heap)
    (htotal : total w alphaSize < 2 ^ 23) (halpha : alphaSize ≤ maxAlphaSize)
    (hmin1 : ∀ q ∈ p2 :: rest, s.weight.get p1.1 ≤ s.weight.get q.1)
    (hmin2 : ∀ q ∈ rest, s.weight.get p2.1 ≤ s.weight.get q.1) :
    Returns (s.join p1.1 p2.1) fun s' => ∃ n,
      s'.Holds w alphaSize ((n, .node p1.2 p2.2) :: rest) := by
  have hmax : maxAlphaSize = 258 := rfl
  have hcount := h.count
  have hnodes := h.le_nNodes
  rw [List.length_cons, List.length_cons] at hcount
  have hnew : s.nNodes + 1 < maxAlphaSize * 2 := by omega
  refine Returns.bind (P := fun n => n.val = s.nNodes + 1) (Returns.of_eq (node_eq hnew) rfl)
    fun n hval => ?_
  obtain ⟨hadd, hfits⟩ := h.addWeights_eq htotal
  refine Returns.bind (Returns.of_eq (P := fun z => z = _) (int32_eq (hadd ▸ hfits)) hadd) ?_
  rintro _ rfl
  have htrees := h.joined hval htotal hmin1 hmin2 rfl
  have hkey : ∀ b ∈ sentinel :: rest.map Prod.fst, n ≠ b := by
    intro b hb
    rcases List.mem_cons.mp hb with rfl | hb
    · exact ne_sentinel hval
    · obtain ⟨q, hq, rfl⟩ := List.mem_map.mp hb
      exact h.ne_next hval (List.mem_cons_of_mem _ (List.mem_cons_of_mem _ hq))
  generalize (CodeTree.node p1.2 p2.2).weight w * 2 ^ 8 + (CodeTree.node p1.2 p2.2).height = z
    at htrees
  have hheap' : BinaryHeap.Holds (s.weight.set n z).get sentinel (rest.map Prod.fst) s.heap :=
    hheap.congr fun b hb => by rw [get_set, if_neg (hkey b hb)]
  refine (returns_upHeap hheap' htrees.zero ?_ n).mono ?_
  · rw [List.length_map]
    omega
  rintro _ ⟨heap, rfl, hheap⟩
  exact ⟨n, htrees.withHeap heap, hheap⟩

end Join

theorem Holds.returns_merge (h : s.Holds w alphaSize live) (htotal : total w alphaSize < 2 ^ 23)
    (halpha : alphaSize ≤ maxAlphaSize) (hmore : 2 ≤ live.length) :
    Returns s.merge fun s' => ∃ live', s'.Holds w alphaSize live' ∧
      live'.length + 1 = live.length := by
  refine Returns.bind (returns_downHeap h.heap (fun hnil => by
    rw [hnil, List.length_nil] at hmore
    omega)) ?_
  rintro ⟨_, _⟩ ⟨p1, others, heap1, hperm1, rfl, rfl, hmin1, hheap1⟩
  have hlength1 := hperm1.length_eq
  rw [List.length_cons] at hlength1
  refine Returns.bind (returns_downHeap (s := { s with heap := heap1 }) hheap1 (fun hnil => by
    rw [hnil, List.length_nil] at hlength1
    omega)) ?_
  rintro ⟨_, _⟩ ⟨p2, rest, heap2, hperm2, rfl, rfl, hmin2, hheap2⟩
  have hlength2 := hperm2.length_eq
  rw [List.length_cons] at hlength2
  have htrees := (h.toTrees.perm (hperm1.trans (hperm2.cons p1))).withHeap heap2
  refine (htrees.returns_join hheap2 htotal halpha ?_ hmin2).mono ?_
  · exact fun q hq => hmin1 q (hperm2.mem_iff.mpr hq)
  · rintro s' ⟨n, hs'⟩
    refine ⟨_, hs', ?_⟩
    rw [List.length_cons]
    omega

/-- One node is left. -/
theorem Holds.returns_mergeAll (h : s.Holds w alphaSize live) (htotal : total w alphaSize < 2 ^ 23)
    (halpha : alphaSize ≤ maxAlphaSize) (hne : live ≠ []) {turns : ℕ}
    (hturns : live.length ≤ turns) :
    Returns (s.mergeAll turns) fun s' => ∃ p, s'.Holds w alphaSize [p] := by
  induction turns generalizing s live with
  | zero => exact absurd (List.length_eq_zero_iff.mp (Nat.le_zero.mp hturns)) hne
  | succ turns ih =>
      have hlength := h.heap.length_eq
      rw [List.length_map] at hlength
      have hpos := List.length_pos_iff.mpr hne
      rw [mergeAll]
      by_cases hmore : s.heap.length - 1 > 1
      · rw [if_pos hmore]
        refine Returns.bind (h.returns_merge htotal halpha (by omega)) ?_
        rintro s' ⟨live', hs', hless⟩
        exact ih hs' (fun hnil => by rw [hnil, List.length_nil] at hless; omega) (by omega)
      · rw [if_neg hmore]
        obtain ⟨p, rfl⟩ := List.length_eq_one_iff.mp (show live.length = 1 by omega)
        exact Returns.of_eq rfl ⟨p, h⟩

/-- The levels of the leaves of a tree, in the order of the leaves. -/
structure LevelsOf (w : ℕ → ℕ) (alphaSize : ℕ) (t : CodeTree) (len : List ℕ) : Prop where
  fib_le : Nat.fib (t.height + 2) ≤ total w alphaSize
  le_height : ∀ n ∈ len, n ≤ t.height
  perm : len.Perm ((t.levels 0).map Prod.snd)
  length_eq : len.length = alphaSize

theorem Holds.leaves_perm {p : Node × CodeTree} (h : s.Holds w alphaSize [p]) :
    ((p.2.levels 0).map Prod.fst).Perm (List.range' 1 alphaSize) := by
  have hleaves := h.leaves
  rw [List.flatMap_singleton] at hleaves
  rw [CodeTree.map_fst_levels]
  exact hleaves

/-- A symbol's turn of the last loop finds the level of its leaf. -/
theorem Holds.returns_level {p : Node × CodeTree} (h : s.Holds w alphaSize [p])
    (htotal : total w alphaSize < 2 ^ 23) {i : ℕ} (hi : i ∈ List.range' 1 alphaSize) :
    Returns (do
      let j ← s.climb (maxAlphaSize * 2) (← node i) 0
      guard (j < 256)
      return j) fun j => (i, j) ∈ p.2.levels 0 := by
  have hmax : maxAlphaSize = 258 := rfl
  have hp : p ∈ [p] := List.mem_cons_self
  have hheight := h.height_le htotal hp
  obtain ⟨⟨_, k⟩, hk, rfl⟩ := List.mem_map.mp (h.leaves_perm.mem_iff.mpr hi)
  dsimp only
  have hlevel := CodeTree.level_le hk
  obtain ⟨leaf, hleaf, hsteps⟩ := (h.stands p hp).climb hk
  have hnode : node _ = some leaf := (node_eq (hleaf ▸ leaf.isLt)).trans
    (congrArg some (Fin.ext hleaf.symm))
  have hroot : s.climb (maxAlphaSize * 2) leaf 0 = some k := by
    have hturns := hsteps (maxAlphaSize * 2 - k) 0
    have hlast : s.climb (maxAlphaSize * 2 - k) p.1 (0 + (k - 0)) = some k := by
      obtain ⟨turns, hturns'⟩ : ∃ turns, maxAlphaSize * 2 - k = turns + 1 :=
        ⟨maxAlphaSize * 2 - k - 1, by omega⟩
      rw [hturns', climb, if_neg (by rw [h.root p hp]; decide), Nat.zero_add, Nat.sub_zero]
    rw [hlast, Nat.sub_zero, Nat.sub_add_cancel (by omega)] at hturns
    exact hturns
  refine Returns.bind (Returns.of_eq hnode rfl) ?_
  rintro _ rfl
  refine Returns.bind (Returns.of_eq hroot rfl) ?_
  rintro _ rfl
  refine Returns.bind (Returns.guard (by omega)) fun _ _ => ?_
  exact Returns.pure hk

/-- Keys with a value each are the pairs of a list that has every key once. -/
theorem zip_perm {κ ν : Type} {keys : List κ} {values : List ν} {pairs : List (κ × ν)}
    (hkeys : (pairs.map Prod.fst).Perm keys) (hnodup : keys.Nodup)
    (hvalues : List.Forall₂ (fun i j => (i, j) ∈ pairs) keys values) :
    (keys.zip values).Perm pairs := by
  have hfst : (keys.zip values).map Prod.fst = keys :=
    List.map_fst_zip hvalues.length_eq.le
  have hpairs : (pairs.map Prod.fst).Nodup := hkeys.nodup_iff.mpr hnodup
  refine (List.perm_ext_iff_of_nodup ?_ hpairs.of_map).mpr fun q => ⟨fun hq => ?_, fun hq => ?_⟩
  · refine List.Nodup.of_map Prod.fst ?_
    rw [hfst]
    exact hnodup
  · exact List.forall₂_zip hvalues (a := q.1) (b := q.2) hq
  · have hin : q.1 ∈ (keys.zip values).map Prod.fst := by
      rw [hfst]
      exact hkeys.mem_iff.mp (List.mem_map_of_mem hq)
    obtain ⟨r, hr, heq⟩ := List.mem_map.mp hin
    have hr' : r ∈ pairs := List.forall₂_zip hvalues (a := r.1) (b := r.2) hr
    rwa [← List.inj_on_of_nodup_map hpairs hr' hq heq]

theorem Holds.returns_levelsOf {p : Node × CodeTree} (h : s.Holds w alphaSize [p])
    (htotal : total w alphaSize < 2 ^ 23) :
    Returns (s.levelsOf alphaSize) (LevelsOf w alphaSize p.2) := by
  have hp : p ∈ [p] := List.mem_cons_self
  have hheight := h.height_le htotal hp
  refine (Returns.mapM fun i hi => h.returns_level htotal hi).mono fun len hlen => ?_
  have hlength := hlen.length_eq
  rw [List.length_range'] at hlength
  have hsnd : ((List.range' 1 alphaSize).zip len).map Prod.snd = len :=
    List.map_snd_zip (by rw [List.length_range', hlength])
  have hperm := (zip_perm h.leaves_perm List.nodup_range' hlen).map Prod.snd
  rw [hsnd] at hperm
  refine ⟨h.fib_le hp, fun n hn => ?_, hperm, hlength.symm⟩
  obtain ⟨q, hq, rfl⟩ := List.mem_map.mp (hperm.mem_iff.mp hn)
  have hlevel := CodeTree.level_le hq
  omega

end Spec

end Nodes

/-! ## The whole loop -/

/-- The leaves have the weights `w`. -/
def Weighs (w : ℕ → ℕ) (alphaSize : ℕ) (weight : Vector ℕ (maxAlphaSize * 2)) : Prop :=
  ∀ n : Node, 1 ≤ n.val → n.val ≤ alphaSize → weight.get n = w n.val * 2 ^ 8

/-- Lengths of the words of a complete code. -/
structure CompleteCode (alphaSize maxLen : ℕ) (len : List ℕ) : Prop where
  length_eq : len.length = alphaSize
  range : ∀ n ∈ len, 1 ≤ n ∧ n ≤ maxLen
  kraft : CanonicalCode.kraft maxLen len = 2 ^ maxLen

section Loop

variable {w : ℕ → ℕ} {alphaSize maxLen : ℕ} {weight : Vector ℕ (maxAlphaSize * 2)} {t : CodeTree}
  {len freq : List ℕ}

open Nodes

theorem leaves_start (h : Weighs w alphaSize weight) :
    (Nodes.start weight alphaSize).Leaves w alphaSize 1 := by
  refine ⟨rfl, ?_, fun n hn hle => ?_, fun n hn hlt => absurd hlt (Nat.not_lt.mpr hn), [],
    BinaryHeap.holds_singleton _ _, List.nodup_nil, List.Perm.refl _⟩
  · exact (get_set weight sentinel sentinel 0).trans (if_pos rfl)
  · refine (get_set weight sentinel n 0).trans ((if_neg fun heq => ?_).trans (h n hn hle))
    rw [← heq] at hn
    exact absurd hn (by decide)

theorem returns_scaleWeights (h : Weighs w alphaSize weight) (halpha : alphaSize ≤ maxAlphaSize) :
    Returns (scaleWeights weight alphaSize) (Weighs (fun i => 1 + w i / 2) alphaSize) := by
  have hmax : maxAlphaSize = 258 := rfl
  refine (Returns.loop (fun i weight => ∀ n : Node, 1 ≤ n.val → n.val ≤ alphaSize →
    weight.get n = (if n.val < i then 1 + w n.val / 2 else w n.val) * 2 ^ 8)
    (Nat.succ_le_succ (Nat.zero_le _)) ?_ ?_).mono ?_
  · intro n hn hle
    rw [if_neg (Nat.not_lt.mpr hn)]
    exact h n hn hle
  · intro i weight hi hlt hweight
    have hi' : i < maxAlphaSize * 2 := by omega
    have hget := hweight ⟨i, hi'⟩ hi (Nat.le_of_lt_succ hlt)
    rw [if_neg (Nat.lt_irrefl i)] at hget
    refine Returns.bind (Returns.of_eq (node_eq hi') rfl) ?_
    rintro _ rfl
    refine Returns.pure fun n hn hle => (get_set weight ⟨i, hi'⟩ n _).trans ?_
    rw [hget, Nat.shiftRight_eq_div_pow, Nat.mul_div_cancel _ (Nat.two_pow_pos 8), Nat.shiftLeft_eq]
    by_cases heq : (⟨i, hi'⟩ : Node) = n
    · subst heq
      rw [if_pos rfl, if_pos (Nat.lt_succ_self i)]
    · have hne : i ≠ n.val := fun hval => heq (Fin.ext hval)
      rw [if_neg heq, hweight n hn hle]
      simp only [show n.val < i + 1 ↔ n.val < i by omega]
  · intro weight hweight n hn hle
    rw [hweight n hn hle, if_pos (Nat.lt_succ_of_le hle)]

theorem returns_initWeights (halpha : alphaSize ≤ maxAlphaSize) (hfreq : alphaSize ≤ freq.length)
    (hsum : freq.sum < 2 ^ 23) :
    Returns (initWeights freq alphaSize)
      (Weighs (fun i => max 1 (freq[i - 1]?.getD 0)) alphaSize) := by
  have hmax : maxAlphaSize = 258 := rfl
  refine (Returns.loop (fun i weight => Weighs (fun i => max 1 (freq[i - 1]?.getD 0)) i weight)
    (Nat.zero_le _) (fun n hn hle => absurd hle (by omega)) ?_).mono fun _ h => h
  intro i weight _ hi hweight
  have hget : freq[i]? = some freq[i] := List.getElem?_eq_getElem (by omega)
  have hle : freq[i] ≤ freq.sum :=
    List.single_le_sum (fun _ _ => Nat.zero_le _) _ (List.getElem_mem (by omega))
  generalize freq[i] = f at hget hle
  have hi' : i + 1 < maxAlphaSize * 2 := by omega
  have hone : (if f = 0 then 1 else f) = max 1 f := by
    split <;> omega
  have hfits : max 1 f <<< 8 < 2 ^ 31 := by
    rw [Nat.shiftLeft_eq]
    omega
  refine Returns.bind (Returns.of_eq hget rfl) ?_
  rintro _ rfl
  refine Returns.bind (Returns.of_eq (node_eq hi') rfl) ?_
  rintro _ rfl
  rw [hone]
  refine Returns.bind (Returns.of_eq (int32_eq hfits) rfl) ?_
  rintro _ rfl
  refine Returns.pure fun n hn hle => (get_set weight ⟨i + 1, hi'⟩ n _).trans ?_
  by_cases heq : (⟨i + 1, hi'⟩ : Node) = n
  · subst heq
    rw [if_pos rfl, Nat.shiftLeft_eq]
    show max 1 f * 2 ^ 8 = max 1 (freq[i]?.getD 0) * 2 ^ 8
    rw [hget]
    rfl
  · have hne : i + 1 ≠ n.val := fun hval => heq (Fin.ext hval)
    rw [if_neg heq, hweight n hn (by omega)]

/-- With a code word that is too long, some symbol is not among the lightest. -/
theorem exists_heavy (halpha : alphaSize ≤ maxAlphaSize) (hmaxLen : 12 ≤ maxLen)
    (hlevels : LevelsOf w alphaSize t len) (hlong : ∃ n ∈ len, n > maxLen) :
    ∃ i ∈ List.range' 1 alphaSize, 3 ≤ w i := by
  obtain ⟨n, hn, hgt⟩ := hlong
  have hheight := hlevels.le_height n hn
  have hfib : Nat.fib 15 ≤ Nat.fib (t.height + 2) := Nat.fib_mono (by omega)
  have hvalue : Nat.fib 15 = 610 := rfl
  have hmax : maxAlphaSize = 258 := rfl
  have hle := hlevels.fib_le
  by_contra hlight
  have hsum : ((List.range' 1 alphaSize).map w).sum ≤
      ((List.range' 1 alphaSize).map w).length * 2 := by
    refine List.sum_le_card_nsmul _ _ fun m hm => ?_
    obtain ⟨i, hi, rfl⟩ := List.mem_map.mp hm
    by_contra hmore
    exact hlight ⟨i, hi, by omega⟩
  rw [List.length_map, List.length_range'] at hsum
  have htotal : total w alphaSize = ((List.range' 1 alphaSize).map w).sum := rfl
  omega

theorem completeCode_of_levels (halpha : 2 ≤ alphaSize) (hlevels : LevelsOf w alphaSize t len)
    (hshort : ∀ n ∈ len, n ≤ maxLen) : CompleteCode alphaSize maxLen len := by
  refine ⟨hlevels.length_eq, fun n hn => ⟨?_, hshort n hn⟩, ?_⟩
  · obtain ⟨q, hq, rfl⟩ := List.mem_map.mp (hlevels.perm.mem_iff.mp hn)
    cases t with
    | leaf i =>
        have hlength := hlevels.perm.length_eq
        rw [hlevels.length_eq] at hlength
        exact absurd halpha (by rw [hlength]; exact (by decide : ¬2 ≤ 1))
    | node left right =>
        rw [CodeTree.levels, List.mem_append] at hq
        rcases hq with hq | hq
        · exact (CodeTree.level_le hq).1
        · exact (CodeTree.level_le hq).1
  · obtain ⟨i, hi⟩ := CodeTree.exists_lowest 0 t
    have hheight := hshort _ (hlevels.perm.mem_iff.mpr (List.mem_map_of_mem hi))
    have hsum := CodeTree.sum_levels hheight
    rw [kraft, (hlevels.perm.map _).sum_eq, List.map_map]
    exact hsum

theorem returns_makeLengths (htwo : 2 ≤ alphaSize) (halpha : alphaSize ≤ maxAlphaSize)
    (hmaxLen : 12 ≤ maxLen) (hw : ∀ i, 1 ≤ w i) (hweight : Weighs w alphaSize weight)
    (htotal : total w alphaSize < 2 ^ 23) {turns : ℕ} (hturns : total w alphaSize < turns) :
    Returns (makeLengths turns weight alphaSize maxLen) (CompleteCode alphaSize maxLen) := by
  induction turns generalizing w weight with
  | zero => exact absurd hturns (Nat.not_lt_zero _)
  | succ turns ih =>
      refine Returns.bind (Returns.loop (fun i s => s.Leaves w alphaSize i) (by omega)
        (leaves_start hweight) fun i s hi hlt hs =>
          hs.returns_putLeaf hi (Nat.le_of_lt_succ hlt) halpha) fun s hs => ?_
      obtain ⟨live, hlive⟩ := hs.exists_holds hw
      have hsize := hlive.heap.length_eq
      have hcount := hlive.count
      rw [hs.nNodes] at hcount
      rw [List.length_map] at hsize
      refine Returns.bind (Returns.guard (by omega)) fun _ _ => ?_
      refine Returns.bind (hlive.returns_mergeAll htotal halpha (fun hnil => by
        rw [hnil, List.length_nil] at hcount
        omega) (by omega)) ?_
      rintro s' ⟨p, hs'⟩
      have hnodes := hs'.count
      rw [List.length_singleton] at hnodes
      refine Returns.bind (Returns.guard (by omega)) fun _ _ => ?_
      refine Returns.bind (hs'.returns_levelsOf htotal) fun len hlen => ?_
      split
      · rename_i hlong
        rw [List.any_eq_true] at hlong
        obtain ⟨i, hi, hheavy⟩ := exists_heavy halpha hmaxLen hlen (by
          obtain ⟨n, hn, hgt⟩ := hlong
          exact ⟨n, hn, of_decide_eq_true hgt⟩)
        have hless : total (fun i => 1 + w i / 2) alphaSize < total w alphaSize := by
          refine List.sum_lt_sum _ _ (fun i _ => ?_) ⟨i, hi, ?_⟩
          · have hpos := hw i
            omega
          · omega
        refine Returns.bind (returns_scaleWeights (fun n hn hle => hs'.leaf n hn hle) halpha)
          fun weight hweight => ?_
        exact ih (fun i => Nat.le_add_right _ _) hweight (by omega) (by omega)
      · rename_i hshort
        refine Returns.pure (completeCode_of_levels htwo hlen fun n hn => ?_)
        by_contra hgt
        exact hshort (List.any_eq_true.mpr ⟨n, hn, decide_eq_true (Nat.not_le.mp hgt)⟩)

theorem returns_hbMakeCodeLengths (htwo : 2 ≤ alphaSize) (halpha : alphaSize ≤ maxAlphaSize)
    (hmaxLen : 12 ≤ maxLen) (hfreq : freq.length = alphaSize)
    (hsum : freq.sum + alphaSize < 2 ^ 23) :
    Returns (hbMakeCodeLengths freq alphaSize maxLen) (CompleteCode alphaSize maxLen) := by
  have htotal : total (fun i => max 1 (freq[i - 1]?.getD 0)) alphaSize ≤ freq.sum + alphaSize := by
    have hfun : (List.range' 1 alphaSize).map (fun i => max 1 (freq[i - 1]?.getD 0)) =
        freq.map (max 1) := by
      refine List.ext_getElem? fun i => ?_
      rw [List.getElem?_map, List.getElem?_map]
      by_cases hi : i < alphaSize
      · rw [List.getElem?_range' hi, List.getElem?_eq_getElem (by omega)]
        simp [show i < freq.length by omega]
      · rw [List.getElem?_eq_none (by rw [List.length_range']; omega),
          List.getElem?_eq_none (by omega)]
        rfl
    have hle : ∀ freq : List ℕ, (freq.map (max 1)).sum ≤ freq.sum + freq.length := by
      intro freq
      induction freq with
      | nil => exact Nat.le_refl _
      | cons f freq ih =>
          rw [List.map_cons, List.sum_cons, List.sum_cons, List.length_cons]
          omega
    rw [total, hfun, ← hfreq]
    exact hle freq
  refine Returns.bind (returns_initWeights halpha (by omega) (by omega)) fun weight hweight => ?_
  exact returns_makeLengths htwo halpha hmaxLen (fun i => Nat.le_max_left _ _) hweight (by omega)
    (by omega)

end Loop

/-! ## The code of some frequencies -/

/-- The lengths that are made of some frequencies, the words that the encoder gives them, and the
tables that the decoder makes of the lengths belong together: each word is found once all its bits
are there, and not before. -/
theorem symbols_found_by_words {freq : List ℕ} (htwo : 2 ≤ freq.length)
    (halpha : freq.length ≤ maxAlphaSize) (hsum : freq.sum + freq.length < 2 ^ 23) :
    ∃ len code table, hbMakeCodeLengths freq freq.length 17 = some len ∧
      hbAssignCodes (List.replicate len.length 0) len (minLenOf len) (maxLenOf len) len.length =
        some code ∧
      hbCreateDecodeTables len (minLenOf len) (maxLenOf len) len.length = some table ∧
      ∀ symbol < freq.length, ∃ n w, len[symbol]? = some n ∧ code[symbol]? = some w ∧
        1 ≤ n ∧ n ≤ 17 ∧ w < 2 ^ n ∧ table.lookup n w = some (.symbol symbol) ∧
        ∀ zn, minLenOf len ≤ zn → zn < n → table.lookup zn (w / 2 ^ (n - zn)) = some .more := by
  obtain ⟨len, hlen, hcode⟩ : Returns (hbMakeCodeLengths freq freq.length 17) _ :=
    returns_hbMakeCodeLengths htwo halpha (by decide) rfl hsum
  have hne : len ≠ [] := by
    rw [← List.length_pos_iff, hcode.length_eq]
    omega
  have hmin : ∀ n ∈ len, minLenOf len ≤ n := fun n hn => minLenOf_le hn
  have hmax : ∀ n ∈ len, n ≤ maxLenOf len := fun n hn => le_maxLenOf hn
  have hlong := (hcode.range _ (maxLenOf_mem (fun n hn => (hcode.range n hn).1) hne)).2
  have hle : minLenOf len ≤ maxLenOf len :=
    hmin _ (maxLenOf_mem (fun n hn => (hcode.range n hn).1) hne)
  have hsize : len.length ≤ maxAlphaSize := by
    rw [hcode.length_eq]
    exact halpha
  obtain ⟨code, hassign, hwords⟩ :
      Returns (hbAssignCodes (List.replicate len.length 0) len _ _ len.length) _ :=
    returns_hbAssignCodes List.length_replicate hmin hmax hle
  obtain ⟨table, htable, hcanonical⟩ := returns_hbCreateDecodeTables hsize hmin hmax hle
    (Nat.lt_of_le_of_lt (Nat.succ_le_succ hlong) (by decide))
  refine ⟨len, code, table, hlen, hassign, htable, fun symbol hsymbol => ?_⟩
  obtain ⟨n, hn⟩ : ∃ n, len[symbol]? = some n :=
    ⟨_, List.getElem?_eq_getElem (by rw [hcode.length_eq]; exact hsymbol)⟩
  have hmem := List.mem_of_getElem? hn
  obtain ⟨hpos, hn17⟩ := hcode.range n hmem
  have hfits := first_add_count_le (Nat.le_of_eq hcode.kraft) hn17
  have hearlier := CountingOrder.earlier_lt_count hn
  have hlt : word len n symbol < 2 ^ n := by
    rw [word]
    omega
  refine ⟨n, word len n symbol, hn, hwords symbol n hn trivial, hpos, hn17, hlt,
    hcanonical.lookup_word (hmin n hmem) (hmax n hmem) (by omega) hsize hn, fun zn hzn hlt' => ?_⟩
  exact hcanonical.lookup_prefix symbol hzn hlt' (hmax n hmem) (by omega)

theorem symbols_found_by_words_uneven :
    ∃ len code table, hbMakeCodeLengths [40, 3, 11, 1, 20] 5 17 = some len ∧
      hbAssignCodes (List.replicate len.length 0) len (minLenOf len) (maxLenOf len) len.length =
        some code ∧
      hbCreateDecodeTables len (minLenOf len) (maxLenOf len) len.length = some table ∧
      ∀ symbol < 5, ∃ n w, len[symbol]? = some n ∧ code[symbol]? = some w ∧
        1 ≤ n ∧ n ≤ 17 ∧ w < 2 ^ n ∧ table.lookup n w = some (.symbol symbol) ∧
        ∀ zn, minLenOf len ≤ zn → zn < n → table.lookup zn (w / 2 ^ (n - zn)) = some .more :=
  @symbols_found_by_words [40, 3, 11, 1, 20] (by decide) (by decide) (by decide)

end StudyNotes.Bzip2
