/-
# Rebuilding a tree from its traversals

`buildTree` enters the positions of the inorder traversal in a map and then works on pairs
of windows: a start in the preorder traversal and two ends in the inorder traversal.  A
window pair belongs to a subtree whose traversals stand there, and the map, whatever
earlier calls have left in it, gives the position of every value of the tree.
-/

import Mathlib.Algebra.Group.Int.Defs
import Mathlib.Data.Int.Cast.Basic
import Mathlib.Data.List.Nodup
import StudyNotes.Lib.Effect

namespace StudyNotes.Leetcode

open StudyNotes.Effect

/-! ## Trees -/

/-- A reference to a `TreeNode`, with the nodes below it. -/
inductive TreeNode where
  | null
  | node (val : Int32) (left right : TreeNode)
deriving DecidableEq, Repr

namespace TreeNode

def preorder : TreeNode → List Int32
  | .null => []
  | .node val left right => val :: (left.preorder ++ right.preorder)

def inorder : TreeNode → List Int32
  | .null => []
  | .node val left right => left.inorder ++ val :: right.inorder

/-- The number of nodes. -/
def size : TreeNode → ℕ
  | .null => 0
  | .node _ left right => left.size + right.size + 1

/-- The values are pairwise distinct. -/
def Distinct (tree : TreeNode) : Prop := tree.inorder.Nodup

variable (tree : TreeNode)

@[simp] theorem length_preorder : tree.preorder.length = tree.size := by
  induction tree with
  | null => rfl
  | node val left right ihleft ihright => simp [preorder, size, ihleft, ihright]

@[simp] theorem length_inorder : tree.inorder.length = tree.size := by
  induction tree with
  | null => rfl
  | node val left right ihleft ihright =>
      simp only [inorder, size, List.length_append, List.length_cons, ihleft, ihright]
      omega

end TreeNode

/-! ## The globals -/

/-- The top-level variables of the two builders: `map`, `preo`, and the two cursors `in`
and `pre`. -/
structure Globals where
  map : Int32 → Option ℤ
  preo : Option (List Int32)
  inCursor : ℤ
  preCursor : ℤ

namespace Globals

def initial : Globals := ⟨fun _ => none, none, 0, 0⟩

end Globals

inductive Error where
  | nullPointer
  | indexOutOfBounds
  | outOfFuel
deriving DecidableEq

/-- `array[index]`. -/
def getAt (array : List Int32) (index : ℤ) : EStateM Error Globals Int32 :=
  if 0 ≤ index then
    match array[index.toNat]? with
    | some val => pure val
    | none => throw .indexOutOfBounds
  else throw .indexOutOfBounds

/-- `preo!!`. -/
def getPreo : EStateM Error Globals (List Int32) := do
  match (← get).preo with
  | some preo => pure preo
  | none => throw .nullPointer

/-- `recursive`, with a bound on its depth. -/
def recursive : ℕ → ℤ → ℤ → ℤ → EStateM Error Globals TreeNode
  | 0, _, _, _ => throw .outOfFuel
  | fuel + 1, preRootIdx, inLeftIdx, inRightIdx =>
      if inLeftIdx > inRightIdx then pure .null
      else do
        let val ← getAt (← getPreo) preRootIdx
        let key ← getAt (← getPreo) preRootIdx
        let idx := ((← get).map key).getD 0
        let left ← recursive fuel (preRootIdx + 1) inLeftIdx (idx - 1)
        let right ← recursive fuel (preRootIdx + (idx - 1 - inLeftIdx + 1) + 1) (idx + 1) inRightIdx
        pure (.node val left right)

/-- The loop `map[inorder[i]] = i`, from the index `i` on. -/
def fillMap (map : Int32 → Option ℤ) : List Int32 → ℤ → Int32 → Option ℤ
  | [], _ => map
  | val :: inorder, i => fillMap (fun key => if key = val then some i else map key) inorder (i + 1)

def buildTree (fuel : ℕ) (preorder inorder : List Int32) : EStateM Error Globals TreeNode := do
  modify fun globals =>
    { globals with preo := some preorder, map := fillMap globals.map inorder 0 }
  recursive fuel 0 0 (inorder.length - 1)

/-! ## The map -/

theorem fillMap_of_notMem {map : Int32 → Option ℤ} {inorder : List Int32} {i : ℤ} {key : Int32}
    (h : key ∉ inorder) : fillMap map inorder i key = map key := by
  induction inorder generalizing map i with
  | nil => rfl
  | cons val inorder ih =>
      rw [List.mem_cons, not_or] at h
      rw [fillMap, ih h.2, if_neg h.1]

/-- The last position of a value, whatever the map held before. -/
theorem fillMap_append_cons (map : Int32 → Option ℤ) (front : List Int32) {key : Int32}
    {back : List Int32} (h : key ∉ back) (i : ℤ) :
    fillMap map (front ++ key :: back) i key = some (i + front.length) := by
  induction front generalizing map i with
  | nil =>
      rw [List.nil_append, fillMap, fillMap_of_notMem h, if_pos rfl]
      simp
  | cons val front ih =>
      rw [List.cons_append, fillMap, ih, List.length_cons]
      congr 1
      push_cast
      omega

/-! ## The windows -/

/-- The traversals of `tree` stand at `preRootIdx` and `inLeftIdx`, and the map knows the
positions of its values. -/
structure Window (globals : Globals) (tree : TreeNode) (preRootIdx inLeftIdx : ℤ) : Prop where
  preorder : ∃ front back, globals.preo = some (front ++ tree.preorder ++ back) ∧
    preRootIdx = front.length
  map : ∀ front key back, tree.inorder = front ++ key :: back →
    globals.map key = some (inLeftIdx + front.length)

theorem getAt_append (front : List Int32) (val : Int32) (back : List Int32) (globals : Globals) :
    getAt (front ++ val :: back) front.length globals = .ok val globals := by
  rw [getAt, if_pos (by omega)]
  simp [pure, EStateM.pure]

namespace Window

variable {globals : Globals} {val : Int32} {left right : TreeNode} {preRootIdx inLeftIdx : ℤ}

theorem ofLeft (h : Window globals (.node val left right) preRootIdx inLeftIdx) :
    Window globals left (preRootIdx + 1) inLeftIdx := by
  obtain ⟨front, back, hpreo, hfront⟩ := h.preorder
  refine ⟨⟨front ++ [val], right.preorder ++ back, ?_, by simp [hfront]⟩, ?_⟩
  · rw [hpreo]
    simp [TreeNode.preorder]
  · intro before key later hinorder
    refine h.map before key (later ++ val :: right.inorder) ?_
    rw [TreeNode.inorder, hinorder]
    simp

theorem ofRight (h : Window globals (.node val left right) preRootIdx inLeftIdx) :
    Window globals right (preRootIdx + left.size + 1) (inLeftIdx + left.size + 1) := by
  obtain ⟨front, back, hpreo, hfront⟩ := h.preorder
  refine ⟨⟨front ++ val :: left.preorder, back, ?_, ?_⟩, ?_⟩
  · rw [hpreo]
    simp [TreeNode.preorder]
  · simp [hfront]
    omega
  · intro before key later hinorder
    have hmap := h.map (left.inorder ++ val :: before) key later (by
      rw [TreeNode.inorder, hinorder]
      simp)
    rw [hmap]
    congr 1
    simp
    omega

/-- The root is the first of the preorder traversal, and the map splits the inorder
traversal at it. -/
theorem root (h : Window globals (.node val left right) preRootIdx inLeftIdx) :
    (∃ preo, globals.preo = some preo ∧ getAt preo preRootIdx globals = .ok val globals) ∧
      globals.map val = some (inLeftIdx + left.size) := by
  obtain ⟨front, back, hpreo, hfront⟩ := h.preorder
  refine ⟨⟨_, hpreo, ?_⟩, ?_⟩
  · rw [hfront, List.append_assoc]
    exact getAt_append front val _ globals
  · have hmap := h.map left.inorder val right.inorder rfl
    rw [hmap, TreeNode.length_inorder]

/-- A window is rebuilt to its tree. -/
theorem recursive {tree : TreeNode} (h : Window globals tree preRootIdx inLeftIdx) {fuel : ℕ}
    (hfuel : tree.size < fuel) :
    recursive fuel preRootIdx inLeftIdx (inLeftIdx + tree.size - 1) globals = .ok tree globals := by
  induction tree generalizing preRootIdx inLeftIdx fuel with
  | null =>
      obtain ⟨fuel, rfl⟩ := Nat.exists_eq_succ_of_ne_zero (Nat.ne_of_gt hfuel)
      have hempty : inLeftIdx > inLeftIdx + (TreeNode.null.size : ℤ) - 1 := by
        simp only [TreeNode.size]
        omega
      rw [Leetcode.recursive, if_pos hempty]
      rfl
  | node val left right ihleft ihright =>
      obtain ⟨fuel, rfl⟩ := Nat.exists_eq_succ_of_ne_zero (Nat.ne_of_gt (Nat.zero_lt_of_lt hfuel))
      obtain ⟨⟨preo, hpreo, hval⟩, hmap⟩ := h.root
      rw [TreeNode.size] at hfuel
      have hgetPreo : getPreo globals = .ok preo globals := by
        rw [getPreo, get_bind, hpreo]
        rfl
      have hleft := ihleft h.ofLeft (by omega : left.size < fuel)
      have hright := ihright h.ofRight (by omega : right.size < fuel)
      have hrightStart : preRootIdx + (inLeftIdx + left.size - 1 - inLeftIdx + 1) + 1 =
          preRootIdx + left.size + 1 := by omega
      have hrightEnd : inLeftIdx + ((left.size + right.size + 1 : ℕ) : ℤ) - 1 =
          inLeftIdx + left.size + 1 + right.size - 1 := by
        push_cast
        omega
      rw [Leetcode.recursive, TreeNode.size, if_neg (by push_cast; omega)]
      rw [bind_of_ok hgetPreo, bind_of_ok hval, bind_of_ok hgetPreo, bind_of_ok hval, get_bind,
        hmap, Option.getD_some, bind_of_ok hleft, hrightStart, hrightEnd, bind_of_ok hright]
      rfl

end Window

/-! ## Whole trees -/

/-- What `buildTree` sets before it recurses. -/
def Globals.prepared (globals : Globals) (preorder inorder : List Int32) : Globals :=
  { globals with preo := some preorder, map := fillMap globals.map inorder 0 }

theorem window_prepared {tree : TreeNode} (h : tree.Distinct) (globals : Globals) :
    Window (globals.prepared tree.preorder tree.inorder) tree 0 0 where
  preorder := ⟨[], [], by simp [Globals.prepared], by simp⟩
  map := by
    intro front key back hinorder
    have hnodup : (front ++ key :: back).Nodup := hinorder ▸ h
    have hback : key ∉ back := (List.nodup_cons.mp (List.nodup_append.mp hnodup).2.1).1
    show fillMap globals.map tree.inorder 0 key = _
    rw [hinorder, fillMap_append_cons _ _ hback]

/-- `buildTree` returns the tree, whatever the globals are. -/
theorem buildTree_eq {tree : TreeNode} (h : tree.Distinct) (globals : Globals) {fuel : ℕ}
    (hfuel : tree.size < fuel) :
    buildTree fuel tree.preorder tree.inorder globals =
      .ok tree (globals.prepared tree.preorder tree.inorder) := by
  have hrec := (window_prepared h globals).recursive hfuel
  have hend : (tree.inorder.length : ℤ) - 1 = 0 + tree.size - 1 := by
    rw [TreeNode.length_inorder]
    omega
  rw [buildTree, hend]
  exact hrec

/-- The globals after some calls of `buildTree`, on any arrays and however they ended. -/
def afterBuildTree (fuel : ℕ) (calls : List (List Int32 × List Int32)) : Globals :=
  calls.foldl (fun globals call => final (buildTree fuel call.1 call.2 globals)) .initial

/-- After any earlier calls a tree with distinct values is rebuilt from its traversals, and
no access is out of range. -/
theorem buildTree_traversals (calls : List (List Int32 × List Int32)) (tree : TreeNode)
    (hdistinct : tree.Distinct) :
    ∃ depth, ∀ fuel, depth ≤ fuel → ∃ globals,
      buildTree fuel tree.preorder tree.inorder (afterBuildTree fuel calls) = .ok tree globals :=
  ⟨tree.size + 1, fun fuel hfuel =>
    ⟨_, buildTree_eq hdistinct (afterBuildTree fuel calls) (Nat.lt_of_succ_le hfuel)⟩⟩

/-- A tree of two nodes, after a call on the same values in another order. -/
theorem buildTree_two_nodes :
    ∃ depth, ∀ fuel, depth ≤ fuel → ∃ globals,
      buildTree fuel [1, 2] [2, 1] (afterBuildTree fuel [([2, 1], [1, 2])]) =
        .ok (.node 1 (.node 2 .null .null) .null) globals :=
  buildTree_traversals [([2, 1], [1, 2])] (.node 1 (.node 2 .null .null) .null)
    (List.nodup_cons.mpr ⟨by decide, List.nodup_singleton 1⟩)

end StudyNotes.Leetcode
