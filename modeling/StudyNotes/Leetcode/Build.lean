/-
# The second tree builder

`build` reads both traversals through two top-level cursors and stops at a value instead of
a bound.  From the start of the traversals it rebuilds the tree, unless the sentinel
`Int.MAX_VALUE` is itself the first value of a subtree on the right spine.  Nothing sets
the cursors back: after one tree that is not empty, no other is rebuilt.
-/

import Mathlib.Data.List.Perm.Basic
import StudyNotes.Leetcode.BuildTree

namespace StudyNotes.Leetcode

open StudyNotes.Effect

/-- `build`, with a bound on its depth. -/
def build : ℕ → List Int32 → List Int32 → Int32 → EStateM Error Globals TreeNode
  | 0, _, _, _ => throw .outOfFuel
  | fuel + 1, preorder, inorder, stop => do
      if (← get).preCursor ≥ preorder.length then pure .null
      else if (← getAt inorder (← get).inCursor) = stop then do
        modify fun globals => { globals with inCursor := globals.inCursor + 1 }
        pure .null
      else do
        let pre := (← get).preCursor
        modify fun globals => { globals with preCursor := globals.preCursor + 1 }
        let val ← getAt preorder pre
        let left ← build fuel preorder inorder val
        let right ← build fuel preorder inorder stop
        pure (.node val left right)

/-- `Int.MAX_VALUE`. -/
def maxValue : Int32 := 2147483647

/-! ## One step -/

section Step

variable {fuel : ℕ} {preorder inorder : List Int32} {stop val : Int32} {globals : Globals}

theorem build_of_le (h : (preorder.length : ℤ) ≤ globals.preCursor) :
    build (fuel + 1) preorder inorder stop globals = .ok .null globals := by
  rw [build, get_bind, if_pos h]
  rfl

theorem build_of_stop (h : globals.preCursor < preorder.length)
    (hstop : getAt inorder globals.inCursor globals = .ok stop globals) :
    build (fuel + 1) preorder inorder stop globals =
      .ok .null { globals with inCursor := globals.inCursor + 1 } := by
  have hnot : ¬ (preorder.length : ℤ) ≤ globals.preCursor := Int.not_le.mpr h
  rw [build, get_bind, if_neg hnot, get_bind, bind_of_ok hstop, if_pos rfl, modify_bind]
  rfl

/-- A node is made of the next value of the preorder traversal, then its two subtrees. -/
theorem build_of_ne (h : globals.preCursor < preorder.length)
    (hval : getAt inorder globals.inCursor globals = .ok val globals) (hne : val ≠ stop) :
    build (fuel + 1) preorder inorder stop globals =
      (do
        let root ← getAt preorder globals.preCursor
        let left ← build fuel preorder inorder root
        let right ← build fuel preorder inorder stop
        pure (TreeNode.node root left right))
        { globals with preCursor := globals.preCursor + 1 } := by
  have hnot : ¬ (preorder.length : ℤ) ≤ globals.preCursor := Int.not_le.mpr h
  rw [build, get_bind, if_neg hnot, get_bind, bind_of_ok hval, if_neg hne, get_bind, modify_bind]

end Step

/-! ## The cursors run along the traversals -/

/-- No subtree on the right spine begins with the sentinel. -/
def TreeNode.SpineAvoids (stop : Int32) : TreeNode → Prop
  | .null => True
  | .node val left right =>
      (TreeNode.node val left right).inorder.head? ≠ some stop ∧ right.SpineAvoids stop

instance TreeNode.decidableSpineAvoids (stop : Int32) : ∀ tree : TreeNode,
    Decidable (tree.SpineAvoids stop)
  | .null => isTrue trivial
  | .node _ _ right =>
      have := TreeNode.decidableSpineAvoids stop right
      inferInstanceAs (Decidable (_ ∧ _))

/-- The cursors stand before `tree` in both traversals: `front` and `before` are behind
them, `back` and `later` come after the tree.  At the end of the preorder traversal the
other cursor no longer matters. -/
structure Stands (preorder inorder : List Int32) (globals : Globals) (tree : TreeNode)
    (front back before later : List Int32) : Prop where
  preorder_eq : preorder = front ++ tree.preorder ++ back
  inorder_eq : inorder = before ++ tree.inorder ++ later
  preCursor : globals.preCursor = front.length
  inCursor : globals.preCursor < preorder.length → globals.inCursor = before.length

namespace Stands

variable {preorder inorder front back before later : List Int32} {globals globals' : Globals}
  {val stop : Int32} {left right tree : TreeNode}

theorem preCursor_lt
    (h : Stands preorder inorder globals (.node val left right) front back before later) :
    globals.preCursor < preorder.length := by
  rw [h.preCursor, h.preorder_eq]
  simp only [TreeNode.preorder, List.length_append, List.length_cons]
  omega

/-- The first value of the tree is under the inorder cursor. -/
theorem head
    (h : Stands preorder inorder globals (.node val left right) front back before later) :
    ∃ first, (TreeNode.node val left right).inorder.head? = some first ∧
      getAt inorder globals.inCursor globals = .ok first globals := by
  cases hinorder : (TreeNode.node val left right).inorder with
  | nil => simp [TreeNode.inorder] at hinorder
  | cons first rest =>
      refine ⟨first, rfl, ?_⟩
      rw [h.inorder_eq, hinorder, h.inCursor h.preCursor_lt, List.append_assoc]
      exact getAt_append before first _ globals

/-- The root is under the preorder cursor. -/
theorem root (h : Stands preorder inorder globals (.node val left right) front back before later) :
    getAt preorder globals.preCursor globals' = .ok val globals' := by
  rw [h.preorder_eq, h.preCursor, List.append_assoc]
  exact getAt_append front val _ globals'

/-- One value further in the preorder traversal, the cursors stand before the left
subtree. -/
theorem ofLeft
    (h : Stands preorder inorder globals (.node val left right) front back before later) :
    Stands preorder inorder { globals with preCursor := globals.preCursor + 1 } left
      (front ++ [val]) (right.preorder ++ back) before (val :: (right.inorder ++ later)) where
  preorder_eq := by
    rw [h.preorder_eq]
    simp [TreeNode.preorder]
  inorder_eq := by
    rw [h.inorder_eq]
    simp [TreeNode.inorder]
  preCursor := by simp [h.preCursor]
  inCursor := fun _ => h.inCursor h.preCursor_lt

/-- Behind the left subtree and its root, the cursors stand before the right one. -/
theorem ofRight (h : Stands preorder inorder globals (.node val left right) front back before later)
    (hpre : globals'.preCursor = (front ++ [val]).length + left.size)
    (hin : globals'.preCursor < preorder.length →
      globals'.inCursor = before.length + left.size + 1) :
    Stands preorder inorder globals' right (front ++ val :: left.preorder) back
      (before ++ left.inorder ++ [val]) later where
  preorder_eq := by
    rw [h.preorder_eq]
    simp [TreeNode.preorder]
  inorder_eq := by
    rw [h.inorder_eq]
    simp [TreeNode.inorder]
  preCursor := by
    rw [hpre]
    simp only [List.length_append, List.length_cons, List.length_nil, TreeNode.length_preorder]
    push_cast
    omega
  inCursor := by
    intro hlt
    rw [hin hlt]
    simp only [List.length_append, List.length_cons, List.length_nil, TreeNode.length_inorder]
    push_cast
    omega

/-- The first value is not the one to stop at, where that comes later. -/
theorem head_ne (hnodup : inorder.Nodup) {rest : List Int32}
    (h : Stands preorder inorder globals tree front back before (stop :: rest)) :
    tree.inorder.head? ≠ some stop := by
  intro hhead
  rw [h.inorder_eq, List.append_assoc] at hnodup
  have hdisjoint := (List.nodup_append.mp (List.nodup_append.mp hnodup).2.1).2.2
  exact hdisjoint stop (List.mem_of_mem_head? hhead) stop List.mem_cons_self rfl

/-- From before a tree, `build` returns it and leaves the cursors behind it, where the
value to stop at comes next or nothing comes at all. -/
theorem build (hnodup : inorder.Nodup) {fuel : ℕ}
    (h : Stands preorder inorder globals tree front back before later)
    (hstop : (∃ rest, later = stop :: rest) ∨ back = [] ∧ tree.SpineAvoids stop)
    (hfuel : tree.size < fuel) :
    ∃ globals', build fuel preorder inorder stop globals = .ok tree globals' ∧
      globals'.preCursor = front.length + tree.size ∧
      (globals'.preCursor < preorder.length →
        globals'.inCursor = before.length + tree.size + 1) := by
  induction tree generalizing globals front back before later stop fuel with
  | null =>
      obtain ⟨fuel, rfl⟩ := Nat.exists_eq_succ_of_ne_zero (Nat.ne_of_gt hfuel)
      rcases Int.lt_or_le globals.preCursor preorder.length with hlt | hle
      · -- More is to come, so the value to stop at is under the cursor.
        have hback : back ≠ [] := by
          rintro rfl
          rw [h.preCursor, h.preorder_eq] at hlt
          simp [TreeNode.preorder] at hlt
        rcases hstop with ⟨rest, rfl⟩ | ⟨hnil, -⟩
        · have hget : getAt inorder globals.inCursor globals = .ok stop globals := by
            rw [h.inorder_eq, h.inCursor hlt, TreeNode.inorder, List.append_nil]
            exact getAt_append before stop rest globals
          refine ⟨_, build_of_stop hlt hget, ?_, fun _ => ?_⟩
          · simp [h.preCursor, TreeNode.size]
          · simp [h.inCursor hlt, TreeNode.size]
        · exact absurd hnil hback
      · refine ⟨globals, build_of_le hle, ?_, fun hlt => absurd hlt (Int.not_lt.mpr hle)⟩
        simp [h.preCursor, TreeNode.size]
  | node val left right ihleft ihright =>
      obtain ⟨fuel, rfl⟩ := Nat.exists_eq_succ_of_ne_zero (Nat.ne_of_gt (Nat.zero_lt_of_lt hfuel))
      rw [TreeNode.size] at hfuel
      obtain ⟨first, hfirst, hget⟩ := h.head
      have hne : first ≠ stop := by
        rintro rfl
        rcases hstop with ⟨rest, rfl⟩ | ⟨-, havoids⟩
        · exact h.head_ne hnodup hfirst
        · exact havoids.1 hfirst
      obtain ⟨globals₁, hleft, hpre₁, hin₁⟩ := ihleft h.ofLeft (Or.inl ⟨_, rfl⟩)
        (by omega : left.size < fuel)
      obtain ⟨globals₂, hright, hpre₂, hin₂⟩ := ihright (h.ofRight hpre₁ hin₁)
        (hstop.imp_right fun havoids => ⟨havoids.1, havoids.2.2⟩) (by omega : right.size < fuel)
      refine ⟨globals₂, ?_, ?_, ?_⟩
      · rw [build_of_ne h.preCursor_lt hget hne]
        rw [bind_of_ok h.root, bind_of_ok hleft, bind_of_ok hright]
        rfl
      · rw [hpre₂]
        simp only [List.length_append, List.length_cons, TreeNode.length_preorder, TreeNode.size]
        push_cast
        omega
      · intro hlt
        rw [hin₂ hlt]
        simp only [List.length_append, List.length_cons, List.length_nil, TreeNode.length_inorder,
          TreeNode.size]
        push_cast
        omega

/-- Where a subtree of the right spine begins with the sentinel, it is taken for the end. -/
theorem build_ne (hnodup : inorder.Nodup) {fuel : ℕ}
    (h : Stands preorder inorder globals tree front [] before later)
    (hspine : ¬ tree.SpineAvoids stop) (hfuel : tree.size < fuel) (globals' : Globals) :
    Leetcode.build fuel preorder inorder stop globals ≠ .ok tree globals' := by
  induction tree generalizing globals front before later fuel with
  | null => exact absurd trivial hspine
  | node val left right _ ihright =>
      obtain ⟨fuel, rfl⟩ := Nat.exists_eq_succ_of_ne_zero (Nat.ne_of_gt (Nat.zero_lt_of_lt hfuel))
      rw [TreeNode.size] at hfuel
      obtain ⟨first, hfirst, hget⟩ := h.head
      by_cases heq : first = stop
      · subst heq
        rw [build_of_stop h.preCursor_lt hget]
        intro hnull
        cases hnull
      · have hright : ¬ right.SpineAvoids stop := by
          intro havoids
          refine hspine ⟨?_, havoids⟩
          rw [hfirst]
          exact fun hstop => heq (Option.some.inj hstop)
        obtain ⟨globals₁, hleft, hpre₁, hin₁⟩ := h.ofLeft.build hnodup (Or.inl ⟨_, rfl⟩)
          (by omega : left.size < fuel)
        have hne := ihright (h.ofRight hpre₁ hin₁) hright (by omega : right.size < fuel)
        rw [build_of_ne h.preCursor_lt hget heq, bind_of_ok h.root, bind_of_ok hleft]
        intro hok
        obtain ⟨right', globals₂, hbuild, hpure⟩ := bind_eq_ok_iff.mp hok
        cases hpure
        exact hne hbuild

end Stands

/-! ## Where the cursors are not at the start -/

theorem TreeNode.preorder_perm_inorder (tree : TreeNode) : tree.preorder.Perm tree.inorder := by
  induction tree with
  | null => exact List.Perm.refl []
  | node val left right ihleft ihright =>
      exact ((ihleft.append ihright).cons val).trans List.perm_middle.symm

theorem keeps_getAt (array : List Int32) (index : ℤ) : Keeps (getAt array index) := by
  unfold getAt
  refine Keeps.ite ?_ (Keeps.throw _)
  split
  · exact Keeps.pure _
  · exact Keeps.throw _

theorem getElem?_of_getAt {array : List Int32} {index : ℤ} {globals globals' : Globals}
    {val : Int32} (h : getAt array index globals = .ok val globals') :
    0 ≤ index ∧ array[index.toNat]? = some val := by
  unfold getAt at h
  split at h
  · rename_i hnonneg
    refine ⟨hnonneg, ?_⟩
    cases hval : array[index.toNat]? with
    | none =>
        rw [hval] at h
        cases h
    | some found =>
        rw [hval] at h
        cases h
        rfl
  · cases h

/-- The root of what `build` returns was under the preorder cursor. -/
theorem preorder_of_build_eq {fuel : ℕ} {preorder inorder : List Int32} {stop val : Int32}
    {left right : TreeNode} {globals globals' : Globals}
    (h : build fuel preorder inorder stop globals = .ok (.node val left right) globals') :
    0 ≤ globals.preCursor ∧ preorder[globals.preCursor.toNat]? = some val := by
  cases fuel with
  | zero => cases h
  | succ fuel =>
      rw [build] at h
      obtain ⟨_, _, hglobals, hbuild⟩ := bind_eq_ok_iff.mp h
      cases hglobals
      split at hbuild
      · cases hbuild
      · obtain ⟨_, _, hglobals, hrest⟩ := bind_eq_ok_iff.mp hbuild
        cases hglobals
        obtain ⟨first, globals₁, hfirst, hnode⟩ := bind_eq_ok_iff.mp hrest
        rw [(keeps_getAt _ _).eq_of_ok hfirst] at hnode
        split at hnode
        · cases hnode
        · obtain ⟨_, _, hglobals, hpre⟩ := bind_eq_ok_iff.mp hnode
          cases hglobals
          obtain ⟨_, globals₂, -, hval⟩ := bind_eq_ok_iff.mp hpre
          obtain ⟨root, globals₃, hroot, hleft⟩ := bind_eq_ok_iff.mp hval
          obtain ⟨left', globals₄, -, hright⟩ := bind_eq_ok_iff.mp hleft
          obtain ⟨right', globals₅, -, hpure⟩ := bind_eq_ok_iff.mp hright
          cases hpure
          exact getElem?_of_getAt hroot

/-- Once a node has been made, no tree but the empty one is rebuilt. -/
theorem build_ne_of_preCursor_pos {tree : TreeNode} (hdistinct : tree.Distinct)
    (hne : tree ≠ .null) {globals : Globals} (hpos : 0 < globals.preCursor) (fuel : ℕ)
    (globals' : Globals) :
    build fuel tree.preorder tree.inorder maxValue globals ≠ .ok tree globals' := by
  intro hbuild
  cases tree with
  | null => exact hne rfl
  | node val left right =>
      have hnodup : (TreeNode.node val left right).preorder.Nodup :=
        (TreeNode.preorder_perm_inorder _).nodup_iff.mpr hdistinct
      obtain ⟨-, hget⟩ := preorder_of_build_eq hbuild
      obtain ⟨index, hindex⟩ : ∃ index, globals.preCursor.toNat = index + 1 :=
        Nat.exists_eq_succ_of_ne_zero (by omega)
      rw [hindex, TreeNode.preorder, List.getElem?_cons_succ] at hget
      exact (List.nodup_cons.mp hnodup).1 (List.mem_of_getElem? hget)

/-- The empty tree is rebuilt always. -/
theorem build_null {fuel : ℕ} (hfuel : 0 < fuel) {globals : Globals}
    (hnonneg : 0 ≤ globals.preCursor) (stop : Int32) :
    build fuel TreeNode.null.preorder TreeNode.null.inorder stop globals = .ok .null globals := by
  obtain ⟨fuel, rfl⟩ := Nat.exists_eq_succ_of_ne_zero (Nat.ne_of_gt hfuel)
  exact build_of_le hnonneg

/-! ## Every call of a process -/

/-- A call of `buildTree` on any arrays, or a call of `build` on the traversals of a tree. -/
inductive Call where
  | buildTree (preorder inorder : List Int32)
  | build (tree : TreeNode)
deriving DecidableEq

/-- A call of `build` on a tree that is not empty. -/
def Call.buildsNode : Call → Bool
  | .buildTree _ _ => false
  | .build tree => tree ≠ .null

/-- Every call of `build` returns what `buildTree` would return. -/
def AgreeFrom (fuel : ℕ) : Globals → List Call → Prop
  | _, [] => True
  | globals, .buildTree preorder inorder :: calls =>
      AgreeFrom fuel (final (Leetcode.buildTree fuel preorder inorder globals)) calls
  | globals, .build tree :: calls =>
      ∃ result globals₁ globals₂,
        Leetcode.buildTree fuel tree.preorder tree.inorder globals = .ok result globals₁ ∧
        Leetcode.build fuel tree.preorder tree.inorder maxValue globals = .ok result globals₂ ∧
        AgreeFrom fuel globals₂ calls

/-- The two builders agree in a process, given enough fuel. -/
def BuildersAgree (calls : List Call) : Prop :=
  ∃ depth, ∀ fuel, depth ≤ fuel → AgreeFrom fuel .initial calls

theorem size_pos {tree : TreeNode} (h : tree ≠ .null) : 0 < tree.size := by
  cases tree with
  | null => exact absurd rfl h
  | node val left right => exact Nat.succ_pos _

section Agree

variable {fuel : ℕ} {globals : Globals} {calls : List Call}

/-- `buildTree` does not touch the cursors. -/
theorem cursors_buildTree (fuel : ℕ) (globals : Globals) (preorder inorder : List Int32) :
    (final (buildTree fuel preorder inorder globals)).preCursor = globals.preCursor ∧
      (final (buildTree fuel preorder inorder globals)).inCursor = globals.inCursor := by
  have hkeeps : ∀ fuel a b c, Keeps (recursive fuel a b c) := by
    intro fuel
    induction fuel with
    | zero => exact fun _ _ _ => Keeps.throw _
    | succ fuel ih =>
        intro a b c
        have hpreo : Keeps getPreo := by
          refine Keeps.bind Keeps.get fun globals => ?_
          split
          · exact Keeps.pure _
          · exact Keeps.throw _
        refine Keeps.ite (Keeps.pure _) ?_
        refine Keeps.bind hpreo fun preo => Keeps.bind (keeps_getAt _ _) fun val => ?_
        refine Keeps.bind hpreo fun preo' => Keeps.bind (keeps_getAt _ _) fun key => ?_
        refine Keeps.bind Keeps.get fun globals => Keeps.bind (ih _ _ _) fun left => ?_
        exact Keeps.bind (ih _ _ _) fun right => Keeps.pure _
  have hfinal : final (buildTree fuel preorder inorder globals) =
      globals.prepared preorder inorder :=
    hkeeps fuel 0 0 (inorder.length - 1) (globals.prepared preorder inorder)
  rw [hfinal]
  exact ⟨rfl, rfl⟩

/-- `buildTree` returns the tree, so agreeing is returning it too. -/
theorem agreeFrom_build_iff {tree : TreeNode} (hdistinct : tree.Distinct)
    (hsize : tree.size < fuel) :
    AgreeFrom fuel globals (.build tree :: calls) ↔
      ∃ globals', build fuel tree.preorder tree.inorder maxValue globals = .ok tree globals' ∧
        AgreeFrom fuel globals' calls := by
  rw [AgreeFrom, buildTree_eq hdistinct globals hsize]
  constructor
  · rintro ⟨result, globals₁, globals₂, hresult, hbuild, hcalls⟩
    cases hresult
    exact ⟨globals₂, hbuild, hcalls⟩
  · rintro ⟨globals', hbuild, hcalls⟩
    exact ⟨tree, _, globals', rfl, hbuild, hcalls⟩

theorem agreeFrom_null_iff (hfuel : 0 < fuel) (hnonneg : 0 ≤ globals.preCursor) :
    AgreeFrom fuel globals (.build .null :: calls) ↔ AgreeFrom fuel globals calls := by
  have hdistinct : TreeNode.null.Distinct := List.nodup_nil
  rw [agreeFrom_build_iff hdistinct hfuel, build_null hfuel hnonneg]
  constructor
  · rintro ⟨globals', hbuild, hcalls⟩
    cases hbuild
    exact hcalls
  · intro hcalls
    exact ⟨globals, rfl, hcalls⟩

/-- Behind a node, the builders agree while no other node is asked for. -/
theorem agreeFrom_used_iff (hpos : 0 < globals.preCursor)
    (htrees : ∀ tree, .build tree ∈ calls → tree.Distinct ∧ tree.size < fuel) :
    AgreeFrom fuel globals calls ↔ calls.countP Call.buildsNode = 0 := by
  induction calls generalizing globals with
  | nil => simp [AgreeFrom]
  | cons call calls ih =>
      have hlater : ∀ tree, .build tree ∈ calls → tree.Distinct ∧ tree.size < fuel :=
        fun tree hmem => htrees tree (List.mem_cons_of_mem _ hmem)
      rw [List.countP_cons]
      cases call with
      | buildTree preorder inorder =>
          obtain ⟨hcursor, -⟩ := cursors_buildTree fuel globals preorder inorder
          rw [AgreeFrom, ih (by rw [hcursor]; exact hpos) hlater]
          simp [Call.buildsNode]
      | build tree =>
          obtain ⟨hdistinct, hsize⟩ := htrees tree List.mem_cons_self
          by_cases hnull : tree = .null
          · subst hnull
            rw [agreeFrom_null_iff (Nat.zero_lt_of_lt hsize) (Int.le_of_lt hpos), ih hpos hlater]
            simp [Call.buildsNode]
          · have hnode : Call.buildsNode (.build tree) = true := decide_eq_true hnull
            rw [agreeFrom_build_iff hdistinct hsize, hnode]
            constructor
            · rintro ⟨globals', hbuild, -⟩
              exact absurd hbuild (build_ne_of_preCursor_pos hdistinct hnull hpos fuel globals')
            · intro hcount
              simp at hcount

/-- The first tree that is not empty is rebuilt where its right spine avoids the sentinel,
and then it has to be the last one. -/
theorem agreeFrom_node_iff (hpre : globals.preCursor = 0) (hin : globals.inCursor = 0)
    {tree : TreeNode} (hdistinct : tree.Distinct) (hsize : tree.size < fuel) (hne : tree ≠ .null)
    (hlater : ∀ tree, .build tree ∈ calls → tree.Distinct ∧ tree.size < fuel) :
    AgreeFrom fuel globals (.build tree :: calls) ↔
      tree.SpineAvoids maxValue ∧ calls.countP Call.buildsNode = 0 := by
  have hstands : Stands tree.preorder tree.inorder globals tree [] [] [] [] :=
    ⟨by simp, by simp, by simp [hpre], fun _ => by simp [hin]⟩
  rw [agreeFrom_build_iff hdistinct hsize]
  by_cases havoids : tree.SpineAvoids maxValue
  · obtain ⟨globals', hbuild, hpre', -⟩ :=
      hstands.build hdistinct (Or.inr ⟨rfl, havoids⟩) hsize
    have hpos : 0 < globals'.preCursor := by
      have hnonempty := size_pos hne
      rw [hpre', List.length_nil]
      omega
    rw [← agreeFrom_used_iff hpos hlater]
    constructor
    · rintro ⟨globals'', hbuild', hcalls⟩
      rw [hbuild] at hbuild'
      cases hbuild'
      exact ⟨havoids, hcalls⟩
    · rintro ⟨-, hcalls⟩
      exact ⟨globals', hbuild, hcalls⟩
  · constructor
    · rintro ⟨globals', hbuild, -⟩
      exact absurd hbuild (hstands.build_ne hdistinct havoids hsize globals')
    · rintro ⟨hspine, -⟩
      exact absurd hspine havoids

/-- Calls that ask for no node ask for nothing a sentinel could spoil. -/
theorem spineAvoids_of_countP_eq_zero (h : calls.countP Call.buildsNode = 0) {tree : TreeNode}
    (hmem : .build tree ∈ calls) (stop : Int32) : tree.SpineAvoids stop := by
  have hnull : tree = .null := by
    simpa [Call.buildsNode] using List.countP_eq_zero.mp h _ hmem
  rw [hnull]
  trivial

/-- A process that has built nothing yet. -/
theorem agreeFrom_fresh_iff (hpre : globals.preCursor = 0) (hin : globals.inCursor = 0)
    (htrees : ∀ tree, .build tree ∈ calls → tree.Distinct ∧ tree.size < fuel) :
    AgreeFrom fuel globals calls ↔
      calls.countP Call.buildsNode ≤ 1 ∧
        ∀ tree, .build tree ∈ calls → tree.SpineAvoids maxValue := by
  induction calls generalizing globals with
  | nil => simp [AgreeFrom]
  | cons call calls ih =>
      have hlater : ∀ tree, .build tree ∈ calls → tree.Distinct ∧ tree.size < fuel :=
        fun tree hmem => htrees tree (List.mem_cons_of_mem _ hmem)
      rw [List.countP_cons]
      cases call with
      | buildTree preorder inorder =>
          obtain ⟨hpre', hin'⟩ := cursors_buildTree fuel globals preorder inorder
          rw [AgreeFrom, ih (hpre'.trans hpre) (hin'.trans hin) hlater]
          simp [Call.buildsNode]
      | build tree =>
          obtain ⟨hdistinct, hsize⟩ := htrees tree List.mem_cons_self
          by_cases hnull : tree = .null
          · subst hnull
            rw [agreeFrom_null_iff (Nat.zero_lt_of_lt hsize) (Int.le_of_eq hpre.symm),
              ih hpre hin hlater]
            simp [Call.buildsNode, TreeNode.SpineAvoids]
          · have hnode : Call.buildsNode (.build tree) = true := decide_eq_true hnull
            rw [agreeFrom_node_iff hpre hin hdistinct hsize hnull hlater, if_pos hnode]
            constructor
            · rintro ⟨havoids, hnone⟩
              refine ⟨by omega, fun other hother => ?_⟩
              rcases List.mem_cons.mp hother with heq | hmem
              · cases heq
                exact havoids
              · exact spineAvoids_of_countP_eq_zero hnone hmem maxValue
            · rintro ⟨hcount, hall⟩
              exact ⟨hall tree List.mem_cons_self, by omega⟩

/-- More fuel than any tree of the calls has nodes. -/
theorem exists_fuel (calls : List Call) :
    ∃ depth, ∀ tree, .build tree ∈ calls → tree.size < depth := by
  induction calls with
  | nil => exact ⟨0, by simp⟩
  | cons call calls ih =>
      obtain ⟨depth, hdepth⟩ := ih
      cases call with
      | buildTree preorder inorder => exact ⟨depth, by simpa using hdepth⟩
      | build tree =>
          refine ⟨depth + tree.size + 1, fun other hother => ?_⟩
          rcases List.mem_cons.mp hother with heq | hmem
          · cases heq
            omega
          · have hlt := hdepth other hmem
            omega

end Agree

/-- The builders agree in a process exactly where at most one tree that is not empty is
asked of `build`, and no subtree on its right spine begins with the sentinel. -/
theorem buildersAgree_iff (calls : List Call)
    (hdistinct : ∀ tree, .build tree ∈ calls → tree.Distinct) :
    BuildersAgree calls ↔
      calls.countP Call.buildsNode ≤ 1 ∧
        ∀ tree, .build tree ∈ calls → tree.SpineAvoids maxValue := by
  obtain ⟨enough, henough⟩ := exists_fuel calls
  have hfresh : ∀ fuel, enough ≤ fuel →
      (AgreeFrom fuel .initial calls ↔ calls.countP Call.buildsNode ≤ 1 ∧
        ∀ tree, .build tree ∈ calls → tree.SpineAvoids maxValue) := by
    intro fuel hfuel
    refine agreeFrom_fresh_iff rfl rfl fun tree hmem => ⟨hdistinct tree hmem, ?_⟩
    exact Nat.lt_of_lt_of_le (henough tree hmem) hfuel
  constructor
  · rintro ⟨depth, hagree⟩
    exact (hfresh (max depth enough) (Nat.le_max_right _ _)).mp (hagree _ (Nat.le_max_left _ _))
  · intro hcondition
    exact ⟨enough, fun fuel hfuel => (hfresh fuel hfuel).mpr hcondition⟩

/-- One tree with two nodes, around the empty tree. -/
theorem buildersAgree_two_nodes :
    BuildersAgree [.build .null, .build (.node 1 (.node 2 .null .null) .null), .build .null] := by
  refine (buildersAgree_iff _ ?_).mpr ⟨by decide, ?_⟩
  · intro tree hmem
    obtain rfl | rfl : tree = .null ∨ tree = .node 1 (.node 2 .null .null) .null := by
      simpa [or_comm] using hmem
    · exact List.nodup_nil
    · simp [TreeNode.Distinct, TreeNode.inorder]
  · intro tree hmem
    obtain rfl | rfl : tree = .null ∨ tree = .node 1 (.node 2 .null .null) .null := by
      simpa [or_comm] using hmem
    · trivial
    · decide

/-- A second tree of one node is not rebuilt, and neither is the node that holds the
sentinel. -/
theorem not_forall_buildersAgree :
    ¬ (∀ calls : List Call, (∀ tree, .build tree ∈ calls → tree.Distinct) →
        BuildersAgree calls) ∧
      ¬ BuildersAgree [.build (.node 1 .null .null), .build (.node 2 .null .null)] ∧
      ¬ BuildersAgree [.build (.node 2147483647 .null .null)] := by
  have hleaf : ∀ val : Int32, (TreeNode.node val .null .null).Distinct :=
    fun val => List.nodup_singleton val
  have htwice : ¬ BuildersAgree [.build (.node 1 .null .null), .build (.node 2 .null .null)] := by
    rintro ⟨depth, hagree⟩
    have hfresh := (agreeFrom_fresh_iff rfl rfl ?_).mp (hagree (depth + 2) (by omega))
    · exact absurd hfresh.1 (by decide)
    · intro tree hmem
      obtain rfl | rfl : tree = .node 1 .null .null ∨ tree = .node 2 .null .null := by
        simpa using hmem
      all_goals exact ⟨hleaf _, by simp [TreeNode.size]⟩
  have hsentinel : ¬ BuildersAgree [.build (.node 2147483647 .null .null)] := by
    rintro ⟨depth, hagree⟩
    have hfresh := (agreeFrom_fresh_iff rfl rfl ?_).mp (hagree (depth + 2) (by omega))
    · exact absurd (hfresh.2 _ List.mem_cons_self) (by decide)
    · intro tree hmem
      obtain rfl : tree = .node 2147483647 .null .null := by simpa using hmem
      exact ⟨hleaf _, by simp [TreeNode.size]⟩
  refine ⟨fun hall => htwice (hall _ fun tree hmem => ?_), htwice, hsentinel⟩
  obtain rfl | rfl : tree = .node 1 .null .null ∨ tree = .node 2 .null .null := by
    simpa using hmem
  all_goals exact hleaf _

end StudyNotes.Leetcode
