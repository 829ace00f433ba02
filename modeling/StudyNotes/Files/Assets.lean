/-
# Copying assets

`AssetsUtil.putAssetsToSDCard` copies an asset, or a directory of assets with all that is
below it.  At a directory it appends the whole asset path to the target, at a file only
the last name: the first directory is placed right, and every directory below it is
placed once more under the full path.  A file at the top level has no slash to cut its
name at.
-/

import Mathlib.Algebra.Order.BigOperators.Group.List
import Mathlib.Algebra.Order.Group.Nat
import StudyNotes.Lib.Effect
import StudyNotes.Lib.Storage

namespace StudyNotes.AssetsUtil

open StudyNotes.Text StudyNotes.FileTree StudyNotes.Effect

/-! ## The assets -/

/-- No directory of the tree is empty. -/
inductive Full : Node → Prop
  | file (name : Str) (bytes : List UInt8) : Full (.file name bytes)
  | dir (name : Str) {children : List Node} (ne : children ≠ []) (below : ∀ c ∈ children, Full c) :
      Full (.dir name children)

/-- The entries of the `assets` directory. -/
structure Assets where
  entries : List Node
  siblings : Siblings entries
  wellFormed : ∀ n ∈ entries, WellFormed n
  full : ∀ n ∈ entries, Full n

/-- The entries of a directory. -/
def children : Node → List Node
  | .file _ _ => []
  | .dir _ children => children

def isFile : Node → Bool
  | .file _ _ => true
  | .dir _ _ => false

/-- The entry of a directory with a name. -/
def child (node : Node) (name : Str) : Option Node :=
  (children node).find? fun c => c.name = name

namespace Assets

variable (assets : Assets)

/-- What is at a path. -/
def lookup (path : Path) : Option Node := path.foldlM child (.dir [] assets.entries)

/-- `AssetManager.list`. -/
def list (assetsPath : Str) : List Str :=
  match assets.lookup (components assetsPath) with
  | some node => (children node).map Node.name
  | none => []

end Assets

/-! ## The copying -/

/-- What a call ends with when it does not return. -/
inductive Thrown where
  | ioException
  | stringIndexOutOfBounds
  | outOfFuel
deriving DecidableEq

/-- `AssetManager.open`. -/
def Assets.openAsset (assets : Assets) (assetsPath : Str) :
    EStateM Thrown Storage (List UInt8) :=
  match assets.lookup (components assetsPath) with
  | some (.file _ bytes) => pure bytes
  | _ => throw .ioException

/-- `assetsPath.substring(assetsPath.lastIndexOf('/'))`, where the index -1 throws. -/
def lastPart (assetsPath : Str) : EStateM Thrown Storage Str :=
  match lastIndexOf assetsPath '/' with
  | some index => pure (assetsPath.drop index)
  | none => throw .stringIndexOutOfBounds

/-- The loop that reads 1024 bytes at a time and writes them. -/
def readLoop (is : List UInt8) (written : List UInt8) : List UInt8 :=
  if is = [] then written else readLoop (is.drop 1024) (written ++ is.take 1024)
termination_by is.length
decreasing_by
  rename_i h
  have := List.length_pos_of_ne_nil h
  simp only [List.length_drop]
  omega

def createNewFile (file : Path) : EStateM Thrown Storage Unit := do
  match (← get).createNewFile file with
  | some storage => set storage
  | none => throw .ioException

/-- The branch of a file. -/
def Assets.putFile (assets : Assets) (assetsPath sdCardPath : Str) :
    EStateM Thrown Storage Unit := do
  let is ← assets.openAsset assetsPath
  let name ← lastPart assetsPath
  let file := components (sdCardPath ++ '/' :: name)
  if (← get).isThere file then
    return
  else
    createNewFile file
    modify fun storage => storage.overwrite file (readLoop is [])

/-- The directory that is made for a directory. -/
def makeDirectory (sdCardPath : Str) : EStateM Thrown Storage Unit :=
  modify fun storage =>
    if storage.isThere (components sdCardPath) then storage
    else storage.mkdirs (components sdCardPath)

/-- `catch (IOException e)`. -/
def catchIOException (x : EStateM Thrown Storage Unit) : EStateM Thrown Storage Unit :=
  fun storage =>
    match x storage with
    | .error .ioException storage => .ok () storage
    | result => result

/-- `putAssetsToSDCard`, with a bound on the depth of the recursion. -/
def Assets.putAssetsToSDCard (assets : Assets) : ℕ → Str → Str → EStateM Thrown Storage Unit
  | 0, _, _ => throw .outOfFuel
  | fuel + 1, assetsPath, sdCardPath =>
      catchIOException
        (let files := assets.list assetsPath
        if files = [] then assets.putFile assetsPath sdCardPath
        else do
          let sdCardPath := sdCardPath ++ '/' :: assetsPath
          makeDirectory sdCardPath
          files.forM fun stringFile =>
            assets.putAssetsToSDCard fuel (assetsPath ++ '/' :: stringFile) sdCardPath)

/-! ## Paths and names -/

theorem readLoop_eq (is written : List UInt8) : readLoop is written = written ++ is := by
  fun_induction readLoop is written with
  | case1 written => rw [List.append_nil]
  | case2 is written h ih => rw [ih, List.append_assoc, List.take_append_drop]

theorem join_concat {path : Path} (hpath : path ≠ []) (name : Str) :
    join (path ++ [name]) = join path ++ '/' :: name := by
  obtain ⟨front, last, rfl⟩ := (List.eq_nil_or_concat path).resolve_left hpath
  rw [List.concat_eq_append, join_append_singleton, join_append_singleton, base,
    List.flatMap_append]
  simp [base]

/-- The last name is cut off with its slash, where there is one. -/
theorem lastPart_concat {path : Path} (hpath : path ≠ []) {name : Str} (hname : '/' ∉ name) :
    lastPart (join (path ++ [name])) = pure ('/' :: name) := by
  have hrev : '/' ∉ name.reverse := fun hmem => hname (List.mem_reverse.mp hmem)
  have hlast : lastIndexOf (join path ++ '/' :: name) '/' = some (join path).length := by
    rw [lastIndexOf, List.reverse_append, List.reverse_cons, List.append_assoc,
      List.singleton_append, idxOf?_append_cons hrev]
    simp only [Option.map_some, List.length_append, List.length_cons, List.length_reverse]
    congr 1
    omega
  rw [lastPart, join_concat hpath, hlast]
  simp

theorem lastPart_single {name : Str} (hname : '/' ∉ name) :
    lastPart (join [name]) = throw .stringIndexOutOfBounds := by
  have hrev : '/' ∉ name.reverse := fun hmem => hname (List.mem_reverse.mp hmem)
  have hnone : lastIndexOf name '/' = none := by
    rw [lastIndexOf, List.idxOf?_eq_none_iff.mpr hrev, Option.map_none]
  have hjoin : join [name] = name := by simp [join]
  rw [lastPart, hjoin, hnone]

theorem components_slash_name {text name : Str} (hname : IsName name) :
    components (text ++ '/' :: '/' :: name) = components text ++ [name] := by
  have hsingle : components ('/' :: name) = [name] := by
    have hjoin : components (join [name]) = [name] := components_join (by simpa using hname)
    have hslash := components_append_slash [] name
    rw [List.nil_append] at hslash
    rw [hslash]
    simpa [join, components] using hjoin
  rw [components_append_slash, hsingle]

/-! ## What is found at a path -/

section Lookup

variable {assets : Assets} {path : Path} {node c : Node} {name : Str}

theorem mem_of_child (h : child node name = some c) : c ∈ children node ∧ c.name = name := by
  refine ⟨List.mem_of_find?_eq_some h, ?_⟩
  simpa using List.find?_some h

theorem siblings_children (h : WellFormed node) : Siblings (children node) := by
  cases h with
  | file name bytes => exact ⟨by simp [children], by simp [children]⟩
  | dir name siblings below => exact siblings

theorem wellFormed_child (h : WellFormed node) (hc : c ∈ children node) : WellFormed c := by
  cases h with
  | file name bytes => simp [children] at hc
  | dir name siblings below => exact below c hc

theorem full_child (h : Full node) (hc : c ∈ children node) : Full c := by
  cases h with
  | file name bytes => simp [children] at hc
  | dir name ne below => exact below c hc

/-- An entry is found by its name. -/
theorem child_name (h : WellFormed node) (hc : c ∈ children node) :
    child node c.name = some c := by
  obtain ⟨d, hd⟩ : ∃ d, child node c.name = some d := by
    rw [← Option.isSome_iff_exists, child, List.find?_isSome]
    exact ⟨c, hc, by simp⟩
  obtain ⟨hmem, hname⟩ := mem_of_child hd
  rw [hd]
  have hnames : ((children node).map Node.name).Nodup :=
    List.pairwise_map.mpr (siblings_children h).2
  rw [List.inj_on_of_nodup_map hnames hmem hc hname]

theorem Assets.lookup_concat (path : Path) (name : Str) :
    assets.lookup (path ++ [name]) = (assets.lookup path).bind (child · name) := by
  rw [lookup, List.foldlM_append]
  simp [lookup]

/-- What is found is well formed, has no empty directory below it, and has proper names
on the way to it. -/
structure Found (path : Path) (node : Node) : Prop where
  wellFormed : WellFormed node
  full : ∀ c ∈ children node, Full c
  names : ∀ name ∈ path, IsName name

theorem Found.child (h : Found path node) (hc : c ∈ children node) :
    Found (path ++ [c.name]) c where
  wellFormed := wellFormed_child h.wellFormed hc
  full := fun _ hd => full_child (h.full c hc) hd
  names := by
    intro name hname
    rcases List.mem_append.mp hname with hbefore | hlast
    · exact h.names name hbefore
    · rw [List.mem_singleton.mp hlast]
      exact (siblings_children h.wellFormed).1 c hc

theorem Assets.found (h : assets.lookup path = some node) : Found path node := by
  induction path using List.reverseRecOn generalizing node with
  | nil =>
      obtain rfl := Option.some.inj h
      exact ⟨.dir [] assets.siblings assets.wellFormed, assets.full, by simp⟩
  | append_singleton path name ih =>
      rw [lookup_concat, Option.bind_eq_some_iff] at h
      obtain ⟨parent, hparent, hchild⟩ := h
      obtain ⟨hmem, rfl⟩ := mem_of_child hchild
      exact (ih hparent).child hmem

/-- The last name of a path is that of what is found. -/
theorem Assets.exists_front (h : assets.lookup path = some node) (hpath : path ≠ []) :
    ∃ front, path = front ++ [node.name] := by
  obtain ⟨front, name, rfl⟩ := (List.eq_nil_or_concat path).resolve_left hpath
  rw [List.concat_eq_append, lookup_concat, Option.bind_eq_some_iff] at h
  obtain ⟨parent, -, hchild⟩ := h
  rw [(mem_of_child hchild).2]
  exact ⟨front, List.concat_eq_append⟩

theorem Assets.full_of_lookup (h : assets.lookup path = some node) (hpath : path ≠ []) :
    Full node := by
  obtain ⟨front, name, rfl⟩ := (List.eq_nil_or_concat path).resolve_left hpath
  rw [List.concat_eq_append, lookup_concat, Option.bind_eq_some_iff] at h
  obtain ⟨parent, hparent, hchild⟩ := h
  exact (assets.found hparent).full node (mem_of_child hchild).1

theorem Assets.list_ne_nil {inner : List Node} (h : assets.lookup path = some (.dir name inner))
    (hpath : path ≠ []) : (children (.dir name inner)).map Node.name ≠ [] := by
  cases assets.full_of_lookup h hpath with
  | dir name ne below => simpa [children] using ne

theorem Assets.lookup_child (h : assets.lookup path = some node) (hc : c ∈ children node) :
    assets.lookup (path ++ [c.name]) = some c := by
  rw [lookup_concat, h]
  exact child_name (assets.found h).wellFormed hc

theorem Assets.list_join (h : assets.lookup path = some node) :
    assets.list (join path) = (children node).map Node.name := by
  rw [list, components_join (assets.found h).names, h]

theorem Assets.openAsset_join {bytes : List UInt8}
    (h : assets.lookup path = some (.file name bytes)) :
    assets.openAsset (join path) = pure bytes := by
  rw [openAsset, components_join (assets.found h).names, h]

end Lookup

/-! ## Where the files go -/

/-- A file below a directory, by its path from there. -/
inductive FileIn : List Node → Path → List UInt8 → Prop
  | file {nodes : List Node} {name : Str} {bytes : List UInt8} (h : .file name bytes ∈ nodes) :
      FileIn nodes [name] bytes
  | dir {nodes inner : List Node} {name : Str} {path : Path} {bytes : List UInt8}
      (h : .dir name inner ∈ nodes) (below : FileIn inner path bytes) :
      FileIn nodes (name :: path) bytes

/-- Where the file at `rest` below the directory `path` is put, whose own target is
`target`: every directory on the way appends its full path. -/
def place (path target : Path) : Path → Path
  | [] => target
  | [name] => target ++ [name]
  | name :: rest => place (path ++ [name]) (target ++ (path ++ [name])) rest

/-- The target of something below what is found at `path`, when it is copied to
`target`. -/
def Reaches (path target : Path) : Node → Path → Prop
  | .file name _, q => q = target ++ [name]
  | .dir _ inner, q => ∃ rest bytes, FileIn inner rest bytes ∧ q = place path (target ++ path) rest

theorem FileIn.ne_nil {nodes : List Node} {path : Path} {bytes : List UInt8}
    (h : FileIn nodes path bytes) : path ≠ [] := by
  cases h with
  | file h => simp
  | dir h below => simp

theorem place_cons {rest : Path} (h : rest ≠ []) (path target : Path) (name : Str) :
    place path target (name :: rest) =
      place (path ++ [name]) (target ++ (path ++ [name])) rest := by
  cases rest with
  | nil => exact absurd rfl h
  | cons n rest => rfl

/-- What a directory's entry reaches, the directory reaches. -/
theorem Reaches.of_child {path target q : Path} {name : Str} {inner : List Node} {c : Node}
    (hc : c ∈ inner) (h : Reaches (path ++ [c.name]) (target ++ path) c q) :
    Reaches path target (.dir name inner) q := by
  cases c with
  | file cname bytes => exact ⟨[cname], bytes, .file hc, h⟩
  | dir cname nodes =>
      obtain ⟨rest, bytes, hrest, rfl⟩ := h
      exact ⟨cname :: rest, bytes, .dir hc hrest, (place_cons hrest.ne_nil _ _ _).symm⟩

/-- A file that is not directly in the directory is placed too deep. -/
theorem lt_length_place (path : Path) (hpath : path ≠ []) (target : Path) {rest : Path}
    (h : 2 ≤ rest.length) : target.length + rest.length < (place path target rest).length := by
  induction rest generalizing path target with
  | nil => simp at h
  | cons name rest ih =>
      have hlength := List.length_pos_of_ne_nil hpath
      cases rest with
      | nil => simp at h
      | cons n rest =>
          rw [place_cons (List.cons_ne_nil _ _)]
          cases rest with
          | nil =>
              simp only [place, List.length_append, List.length_cons, List.length_nil]
              omega
          | cons n' rest =>
              have hdeeper := ih (path ++ [name]) (by simp) (target ++ (path ++ [name]))
                (by simp)
              simp only [List.length_append, List.length_cons, List.length_nil] at hdeeper ⊢
              omega

/-- Only files with `Q` are new. -/
def Adds (Q : Path → Prop) (storage storage' : Storage) : Prop :=
  ∀ q, storage'.files q ≠ none → storage.files q ≠ none ∨ Q q

theorem Adds.refl (Q : Path → Prop) (storage : Storage) : Adds Q storage storage :=
  fun _ => Or.inl

theorem Adds.trans {Q : Path → Prop} {s t u : Storage} (h : Adds Q s t) (h' : Adds Q t u) :
    Adds Q s u := by
  intro q hq
  rcases h' q hq with hbefore | hnew
  · exact h q hbefore
  · exact Or.inr hnew

theorem Adds.mono {Q Q' : Path → Prop} (hQ : ∀ q, Q q → Q' q) {s t : Storage} (h : Adds Q s t) :
    Adds Q' s t :=
  fun q hq => (h q hq).imp_right (hQ q)

theorem adds_overwrite {Q : Path → Prop} {path : Path} (hpath : Q path) (storage : Storage)
    (bytes : List UInt8) : Adds Q storage (storage.overwrite path bytes) := by
  intro q hq
  by_cases heq : q = path
  · exact Or.inr (heq ▸ hpath)
  · rw [Storage.files_overwrite_of_ne heq] at hq
    exact Or.inl hq

/-! ## What a call adds -/

section Puts

variable {assets : Assets} {path : Path} {node : Node} {Q : Path → Prop}

/-- Catching an exception does not undo what was done. -/
theorem final_catchIOException (x : EStateM Thrown Storage Unit) (storage : Storage) :
    final (catchIOException x storage) = final (x storage) := by
  rw [catchIOException]
  cases x storage with
  | ok a s => rfl
  | error e s =>
      cases e with
      | ioException => rfl
      | stringIndexOutOfBounds => rfl
      | outOfFuel => rfl

theorem adds_createNewFile {file : Path} (hfile : Q file) (storage : Storage) :
    Adds Q storage (final (createNewFile file storage)) := by
  unfold createNewFile
  rw [get_bind]
  cases h : storage.createNewFile file with
  | none => exact Adds.refl Q storage
  | some storage' =>
      rw [Storage.createNewFile] at h
      split at h
      · obtain rfl := Option.some.inj h
        exact adds_overwrite hfile storage []
      · cases h

theorem adds_putFile {name : Str} {bytes : List UInt8}
    (h : assets.lookup path = some (.file name bytes)) (hpath : path ≠ []) (sdCardPath : Str)
    (storage : Storage) :
    Adds (Reaches path (components sdCardPath) (.file name bytes)) storage
      (final (assets.putFile (join path) sdCardPath storage)) := by
  have hopen := assets.openAsset_join h
  obtain ⟨front, rfl⟩ := assets.exists_front h hpath
  have hname : IsName name := (assets.found h).names name (by simp [Node.name])
  unfold Assets.putFile
  rw [hopen, pure_bind]
  by_cases hfront : front = []
  · subst hfront
    rw [List.nil_append, Node.name, lastPart_single hname.2.1]
    exact Adds.refl _ storage
  · have htarget : Reaches (front ++ [name]) (components sdCardPath) (.file name bytes)
        (components sdCardPath ++ [name]) := rfl
    rw [Node.name, lastPart_concat hfront hname.2.1, pure_bind, components_slash_name hname]
    refine final_bind (R := Adds _) Adds.trans (Adds.refl _ storage) fun storage' t => ?_
    split
    · exact Adds.refl _ t
    · refine final_bind (R := Adds _) Adds.trans (adds_createNewFile htarget t) fun _ u => ?_
      exact adds_overwrite htarget u _

theorem adds_makeDirectory (sdCardPath : Str) (storage : Storage) :
    Adds Q storage (final (makeDirectory sdCardPath storage)) := by
  intro q hq
  refine Or.inl ?_
  have hfiles : (final (makeDirectory sdCardPath storage)).files = storage.files := by
    show (if storage.isThere (components sdCardPath) then storage
      else storage.mkdirs (components sdCardPath)).files = storage.files
    split
    · rfl
    · exact Storage.files_mkdirs
  rw [← hfiles]
  exact hq

/-- Whatever a call does, and however it ends, it adds files at their targets only. -/
theorem adds_put (hlookup : assets.lookup path = some node) (hpath : path ≠ [])
    (fuel : ℕ) (sdCardPath : Str) (storage : Storage) :
    Adds (Reaches path (components sdCardPath) node) storage
      (final (assets.putAssetsToSDCard fuel (join path) sdCardPath storage)) := by
  induction fuel generalizing path node sdCardPath storage with
  | zero => exact Adds.refl _ storage
  | succ fuel ih =>
      rw [Assets.putAssetsToSDCard, final_catchIOException, assets.list_join hlookup]
      cases node with
      | file name bytes => exact adds_putFile hlookup hpath sdCardPath storage
      | dir name inner =>
          have hfound := assets.found hlookup
          rw [if_neg (assets.list_ne_nil hlookup hpath)]
          refine final_bind (R := Adds _) Adds.trans (adds_makeDirectory _ storage) fun _ t => ?_
          refine final_forM (Adds.refl _) Adds.trans ?_ t
          intro stringFile hfile s
          obtain ⟨c, hc, rfl⟩ := List.mem_map.mp hfile
          have hchild := ih (assets.lookup_child hlookup hc) (by simp)
            (sdCardPath ++ '/' :: join path) s
          rw [join_concat hpath, components_append_slash, components_join hfound.names] at hchild
          exact hchild.mono fun q hq => hq.of_child hc

end Puts

end StudyNotes.AssetsUtil
