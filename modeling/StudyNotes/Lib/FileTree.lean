/-
# Directory trees and the files below a directory

Two views of one directory.  A `Node` is a tree in the order in which a listing
returns it, and is what a recursive walk sees.  `Files` are the regular files by
their paths, and are what writing to paths changes.  The leaves of a tree have
paths no two of which lie above one another, and files with such paths can be
written in any order.
-/

import Mathlib.Data.List.Infix
import Mathlib.Data.List.Nodup
import StudyNotes.Lib.Text

namespace StudyNotes.FileTree

open StudyNotes.Text

/-! ## Paths -/

/-- The names from a directory down to a file. -/
abbrev Path := List Str

/-- The name of a directory entry. -/
def IsName (name : Str) : Prop :=
  name ≠ [] ∧ '/' ∉ name ∧ name ≠ ".".toList ∧ name ≠ "..".toList

instance : DecidablePred IsName := fun _ => inferInstanceAs (Decidable (_ ∧ _))

/-- The names joined by slashes. -/
def join (path : Path) : Str := ['/'].intercalate path

/-- The names, each followed by a slash. -/
def base (path : Path) : Str := path.flatMap (· ++ ['/'])

/-- The names in a text on a Unix; doubled slashes do not matter. -/
def components (text : Str) : Path := (text.splitOn '/').filter (· ≠ [])

theorem splitOn_join {path : Path} (hpath : ∀ name ∈ path, '/' ∉ name) (hne : path ≠ []) :
    (join path).splitOn '/' = path :=
  List.splitOn_intercalate '/' hpath hne

theorem components_join {path : Path} (hpath : ∀ name ∈ path, IsName name) :
    components (join path) = path := by
  by_cases hne : path = []
  · subst hne
    rfl
  · rw [components, splitOn_join (fun name hname => (hpath name hname).2.1) hne,
      List.filter_eq_self]
    exact fun name hname => decide_eq_true (hpath name hname).1

theorem components_append_slash (text text' : Str) :
    components (text ++ '/' :: text') = components text ++ components text' := by
  have hsplit := List.splitOnP_append_cons (p := (· == '/')) text text' (beq_self_eq_true '/')
  rw [components, List.splitOn_eq_splitOnP, hsplit, List.filter_append]
  rfl

theorem join_append_singleton (path : Path) (name : Str) :
    join (path ++ [name]) = base path ++ name := by
  induction path with
  | nil => simp [join, base]
  | cons n path ih =>
      have hne : path ++ [name] ≠ [] := by simp
      rw [List.cons_append, join, List.intercalate_cons_of_ne_nil hne, ← join, ih, base, base,
        List.flatMap_cons]
      simp

theorem join_cons (name : Str) (path : Path) :
    join (name :: path) = name ++ path.flatMap ('/' :: ·) := by
  induction path generalizing name with
  | nil => simp [join]
  | cons n path ih =>
      rw [join, List.intercalate_cons_of_ne_nil (List.cons_ne_nil _ _), ← join, ih,
        List.flatMap_cons]
      simp

/-- The slashes tell the names apart. -/
theorem base_injective {path path' : Path} (hpath : ∀ name ∈ path, '/' ∉ name)
    (hpath' : ∀ name ∈ path', '/' ∉ name) (h : base path = base path') : path = path' := by
  have hsplit : ∀ {p : Path}, (∀ name ∈ p, '/' ∉ name) → (base p).splitOn '/' = p ++ [[]] := by
    intro p hp
    have hjoin := join_append_singleton p []
    rw [List.append_nil] at hjoin
    rw [← hjoin, splitOn_join _ (by simp)]
    intro name hname
    rcases List.mem_append.mp hname with hmem | hmem
    · exact hp name hmem
    · rw [List.mem_singleton.mp hmem]
      exact List.not_mem_nil
  have heq := hsplit hpath
  rw [h, hsplit hpath'] at heq
  exact (List.append_cancel_right heq).symm

/-- Neither path lies above the other, and they differ. -/
def Apart (path path' : Path) : Prop := ¬ path <+: path' ∧ ¬ path' <+: path

instance (path path' : Path) : Decidable (Apart path path') :=
  inferInstanceAs (Decidable (_ ∧ _))

theorem Apart.symm {path path' : Path} (h : Apart path path') : Apart path' path := ⟨h.2, h.1⟩

theorem Apart.ne {path path' : Path} (h : Apart path path') : path ≠ path' :=
  fun heq => h.1 (heq ▸ List.prefix_refl _)

/-- Below different entries of one directory. -/
theorem apart_of_prefix {front path path' : Path} {name name' : Str} (hne : name ≠ name')
    (h : front ++ [name] <+: path) (h' : front ++ [name'] <+: path') : Apart path path' := by
  have hdiffer : ∀ {q : Path}, front ++ [name] <+: q → front ++ [name'] <+: q → False := by
    intro q hq hq'
    have hbegins := List.prefix_of_prefix_length_le hq hq' (by simp)
    exact hne (by simpa using hbegins.eq_of_length (by simp))
  exact ⟨fun hle => hdiffer (h.trans hle) h', fun hle => hdiffer h (h'.trans hle)⟩

/-! ## Trees -/

/-- A file with its content, or a directory with its entries as a listing returns
them. -/
inductive Node
  | file (name : Str) (bytes : List UInt8)
  | dir (name : Str) (children : List Node)

namespace Node

def name : Node → Str
  | .file name _ => name
  | .dir name _ => name

/-- Induction over the tree, with the hypothesis for every entry of a directory. -/
@[elab_as_elim, induction_eliminator]
theorem induction {P : Node → Prop} (file : ∀ name bytes, P (.file name bytes))
    (dir : ∀ name children, (∀ c ∈ children, P c) → P (.dir name children)) : ∀ n, P n := by
  intro n
  refine @Node.rec P (fun cs => ∀ c ∈ cs, P c) file (fun name cs ih => dir name cs ih)
    (by simp) ?_ n
  intro c cs hc hcs d hd
  rcases List.mem_cons.mp hd with rfl | hmem
  · exact hc
  · exact hcs d hmem

end Node

/-- Entries that can stand in one directory: proper names, all different. -/
def Siblings (nodes : List Node) : Prop :=
  (∀ n ∈ nodes, IsName n.name) ∧ nodes.Pairwise (·.name ≠ ·.name)

/-- At every level of the tree the entries can stand in one directory. -/
inductive WellFormed : Node → Prop
  | file (name : Str) (bytes : List UInt8) : WellFormed (.file name bytes)
  | dir (name : Str) {children : List Node} (siblings : Siblings children)
      (below : ∀ c ∈ children, WellFormed c) : WellFormed (.dir name children)

/-- What a walk through a tree comes to: files, and directories without entries. -/
inductive Item
  | file (path : Path) (bytes : List UInt8)
  | emptyDir (path : Path)

def Item.path : Item → Path
  | .file path _ => path
  | .emptyDir path => path

mutual

/-- The items of a node that stands in the directory `front`. -/
def items (front : Path) : Node → List Item
  | .file name bytes => [.file (front ++ [name]) bytes]
  | .dir name children =>
    if children.isEmpty then [.emptyDir (front ++ [name])]
    else itemsAll (front ++ [name]) children

/-- The items of the entries of the directory `front`. -/
def itemsAll (front : Path) : List Node → List Item
  | [] => []
  | n :: nodes => items front n ++ itemsAll front nodes

end

theorem itemsAll_eq_flatMap (front : Path) (nodes : List Node) :
    itemsAll front nodes = nodes.flatMap (items front) := by
  induction nodes with
  | nil => rfl
  | cons n nodes ih => rw [itemsAll, List.flatMap_cons, ih]

/-- An item lies at or below the node it comes from. -/
theorem prefix_path_of_mem_items {n : Node} :
    ∀ {front : Path} {i : Item}, i ∈ items front n → front ++ [n.name] <+: i.path := by
  induction n with
  | file name bytes =>
      intro front i hi
      rw [items, List.mem_singleton] at hi
      rw [hi]
      exact List.prefix_refl _
  | dir name children ih =>
      intro front i hi
      rw [items] at hi
      split at hi
      · rw [List.mem_singleton] at hi
        rw [hi]
        exact List.prefix_refl _
      · rw [itemsAll_eq_flatMap, List.mem_flatMap] at hi
        obtain ⟨c, hc, hic⟩ := hi
        exact (List.prefix_append _ _).trans (ih c hc hic)

/-- The items of a well-formed tree lie apart. -/
theorem pairwise_apart_itemsAll {nodes : List Node} (hsiblings : Siblings nodes) (front : Path)
    (hbelow : ∀ n ∈ nodes, (items front n).Pairwise fun i j => Apart i.path j.path) :
    (itemsAll front nodes).Pairwise fun i j => Apart i.path j.path := by
  rw [itemsAll_eq_flatMap, List.pairwise_flatMap]
  refine ⟨hbelow, hsiblings.2.imp ?_⟩
  intro n n' hne i hi j hj
  exact apart_of_prefix hne (prefix_path_of_mem_items hi) (prefix_path_of_mem_items hj)

theorem WellFormed.pairwise_apart {n : Node} (h : WellFormed n) :
    ∀ front, (items front n).Pairwise fun i j => Apart i.path j.path := by
  induction h with
  | file name bytes =>
      intro front
      rw [items]
      exact List.pairwise_singleton _ _
  | dir name siblings below ih =>
      intro front
      rw [items]
      split
      · exact List.pairwise_singleton _ _
      · exact pairwise_apart_itemsAll siblings _ fun c hc => ih c hc _

/-- The names on the way to an item are proper names. -/
theorem WellFormed.isName_of_mem {n : Node} (h : WellFormed n) :
    ∀ {front : Path}, (∀ name ∈ front, IsName name) → IsName n.name →
      ∀ i ∈ items front n, ∀ name ∈ i.path, IsName name := by
  induction h with
  | file name bytes =>
      intro front hfront hname i hi
      rw [items, List.mem_singleton] at hi
      rw [hi]
      exact List.forall_mem_append.mpr ⟨hfront, List.forall_mem_singleton.mpr hname⟩
  | dir name siblings below ih =>
      intro front hfront hname i hi
      have hfront' : ∀ m ∈ front ++ [name], IsName m :=
        List.forall_mem_append.mpr ⟨hfront, List.forall_mem_singleton.mpr hname⟩
      rw [items] at hi
      split at hi
      · rw [List.mem_singleton] at hi
        rw [hi]
        exact hfront'
      · rw [itemsAll_eq_flatMap, List.mem_flatMap] at hi
        obtain ⟨c, hc, hic⟩ := hi
        exact ih c hc hfront' (siblings.1 c hc) i hic

/-- An item seen from one directory further up. -/
def Item.under (name : Str) : Item → Item
  | .file path bytes => .file (name :: path) bytes
  | .emptyDir path => .emptyDir (name :: path)

theorem itemsAll_under {nodes : List Node} {name : Str} {front : Path}
    (h : ∀ n ∈ nodes, items (name :: front) n = (items front n).map (Item.under name)) :
    itemsAll (name :: front) nodes = (itemsAll front nodes).map (Item.under name) := by
  rw [itemsAll_eq_flatMap, itemsAll_eq_flatMap, List.map_flatMap]
  exact List.flatMap_congr h

theorem items_under (name : Str) (n : Node) :
    ∀ front, items (name :: front) n = (items front n).map (Item.under name) := by
  induction n with
  | file m bytes => intro front; rfl
  | dir m children ih =>
      intro front
      rw [items, items]
      split
      · rfl
      · exact itemsAll_under fun c hc => ih c hc _

/-- The file at an item. -/
def Item.file? : Item → Option (Path × List UInt8)
  | .file path bytes => some (path, bytes)
  | .emptyDir _ => none

/-! ## Files by their paths -/

/-- The files below a directory. -/
abbrev Files := List (Path × List UInt8)

/-- There is a file below `path`. -/
def Files.isDirectory (files : Files) (path : Path) : Bool :=
  files.any fun f => path <+: f.1 ∧ path ≠ f.1

/-- There is a file above `path`. -/
def Files.isBlocked (files : Files) (path : Path) : Bool :=
  files.any fun f => f.1 <+: path ∧ f.1 ≠ path

/-- Writing a file, with the directories on the way to it created: it fails on a
directory and below a file, and replaces a file. -/
def Files.write (files : Files) (path : Path) (bytes : List UInt8) : Option Files :=
  if files.isDirectory path || files.isBlocked path then none
  else some (files.filter (·.1 ≠ path) ++ [(path, bytes)])

/-- Writing several files. -/
def Files.writeAll (files : Files) (new : Files) : Option Files :=
  new.foldlM (fun fs f => fs.write f.1 f.2) files

theorem Files.write_of_apart {files : Files} {path : Path} (bytes : List UInt8)
    (h : ∀ f ∈ files, Apart f.1 path) : files.write path bytes = some (files ++ [(path, bytes)]) := by
  have hdir : files.isDirectory path = false := by
    rw [Files.isDirectory, List.any_eq_false]
    intro f hf hbelow
    exact (h f hf).2 (of_decide_eq_true hbelow).1
  have hblocked : files.isBlocked path = false := by
    rw [Files.isBlocked, List.any_eq_false]
    intro f hf habove
    exact (h f hf).1 (of_decide_eq_true habove).1
  have hnew : files.filter (·.1 ≠ path) = files := by
    rw [List.filter_eq_self]
    exact fun f hf => decide_eq_true (h f hf).ne
  rw [Files.write, hdir, hblocked, hnew]
  rfl

/-- Files whose paths lie apart can all be written. -/
theorem Files.writeAll_of_apart {files new : Files}
    (h : (files ++ new).Pairwise fun f g => Apart f.1 g.1) :
    files.writeAll new = some (files ++ new) := by
  induction new generalizing files with
  | nil => rw [List.append_nil]; rfl
  | cons f new ih =>
      have hfirst : ∀ g ∈ files, Apart g.1 f.1 := fun g hg =>
        (List.pairwise_append.mp h).2.2 g hg f List.mem_cons_self
      rw [Files.writeAll, List.foldlM_cons, Files.write_of_apart f.2 hfirst, Option.bind_eq_bind,
        Option.bind_some, ← Files.writeAll, ih]
      · rw [List.append_assoc]
        rfl
      · rw [List.append_assoc]
        exact h

/-- Every file afterwards was there before or has been written. -/
theorem Files.mem_of_writeAll {files new files' : Files} (h : files.writeAll new = some files') :
    ∀ f ∈ files', f ∈ files ∨ f ∈ new := by
  induction new generalizing files with
  | nil =>
      obtain rfl := Option.some.inj h
      exact fun f hf => Or.inl hf
  | cons g new ih =>
      rw [Files.writeAll, List.foldlM_cons, Option.bind_eq_bind, Option.bind_eq_some_iff] at h
      obtain ⟨files₁, hwrite, hrest⟩ := h
      intro f hf
      rcases ih hrest f hf with hmem | hmem
      · rw [Files.write] at hwrite
        split at hwrite
        · cases hwrite
        · obtain rfl := Option.some.inj hwrite
          rcases List.mem_append.mp hmem with hold | hnew
          · exact Or.inl (List.mem_filter.mp hold).1
          · exact Or.inr (List.mem_cons.mpr (Or.inl (List.mem_singleton.mp hnew)))
      · exact Or.inr (List.mem_cons_of_mem _ hmem)

end StudyNotes.FileTree
