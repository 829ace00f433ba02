/-
# When packing conserves the program

The shell installs its own dex and every original one, byte for byte, exactly
when there is something to extract, no directory at the root poses as a dex file,
every dex and its encryption are short enough for an array, and no new name meets a
file: neither one whose turn is still to come nor one that was renamed before.
-/

import Mathlib.Algebra.Order.BigOperators.Group.List
import Mathlib.Algebra.Order.Group.Nat
import StudyNotes.Dex.Renaming

namespace StudyNotes.Dex

open StudyNotes.Text StudyNotes.Fallible StudyNotes.FileTree

/-! ## Encryption -/

/-- The wrapped length is not negative. -/
def Readable (bytes : List UInt8) : Prop := bytes.length % 2 ^ 32 < 2 ^ 31

/-- The part of a file that is read. -/
def wrapped (bytes : List UInt8) : List UInt8 := bytes.take (bytes.length % 2 ^ 32)

theorem length_wrapped (bytes : List UInt8) :
    (wrapped bytes).length = bytes.length % 2 ^ 32 := by
  rw [wrapped, List.length_take]
  exact min_eq_left (Nat.mod_le _ _)

theorem getBytes_eq_ok_iff {bytes bytes' : List UInt8} :
    getBytes bytes = .ok bytes' ↔ Readable bytes ∧ bytes' = wrapped bytes := by
  unfold getBytes Readable
  by_cases hlength : bytes.length % 2 ^ 32 < 2 ^ 31
  · rw [if_pos hlength, Except.ok.injEq]
    exact ⟨fun h => ⟨hlength, h.symm⟩, fun h => h.2.symm⟩
  · rw [if_neg hlength]
    constructor
    · intro h
      cases h
    · intro h
      exact absurd h.1 hlength

/-- What is read of a dex can be encrypted into an array. -/
structure Encryptable (cipher : Cipher) (bytes : List UInt8) : Prop where
  readable : Readable bytes
  fits : (cipher.encrypt (wrapped bytes)).length < 2 ^ 31

theorem doFinal_eq_ok_iff {cipher : Cipher} {content result : List UInt8} :
    cipher.doFinal content = .ok result ↔
      (cipher.encrypt content).length < 2 ^ 31 ∧ result = cipher.encrypt content := by
  rw [Cipher.doFinal]
  by_cases hlength : (cipher.encrypt content).length < 2 ^ 31
  · rw [if_pos hlength, Except.ok.injEq]
    exact ⟨fun h => ⟨hlength, h.symm⟩, fun h => h.2.symm⟩
  · rw [if_neg hlength]
    constructor
    · intro h
      cases h
    · intro h
      exact absurd h.1 hlength

/-- The entry after its encryption. -/
def encrypted (cipher : Cipher) (f : Path × List UInt8) : Path × List UInt8 :=
  if isRootDex f then (f.1, cipher.encrypt (wrapped f.2)) else f

@[simp]
theorem encrypted_path (cipher : Cipher) (f : Path × List UInt8) : (encrypted cipher f).1 = f.1 := by
  rw [encrypted]
  split
  · rfl
  · rfl

theorem encryptEntry_eq_ok_iff {cipher : Cipher} {f g : Path × List UInt8} :
    encryptEntry cipher f = .ok g ↔
      (isDexDir f = false ∧ (isRootDex f = true → Encryptable cipher f.2)) ∧
        g = encrypted cipher f := by
  obtain ⟨path, bytes⟩ := f
  cases path with
  | nil => simp [encryptEntry, isDexDir, isRootDex, encrypted, eq_comm]
  | cons name rest =>
      cases rest with
      | nil =>
          cases hdex : endsWith name DEX with
          | false => simp [encryptEntry, isDexDir, isRootDex, encrypted, hdex, eq_comm]
          | true =>
              have hboth : Encryptable cipher bytes ↔
                  Readable bytes ∧ (cipher.encrypt (wrapped bytes)).length < 2 ^ 31 :=
                ⟨fun h => ⟨h.readable, h.fits⟩, fun h => ⟨h.1, h.2⟩⟩
              simp only [encryptEntry, isDexDir, isRootDex, encrypted, hdex, if_true,
                bind_eq_ok_iff, getBytes_eq_ok_iff, doFinal_eq_ok_iff, and_assoc,
                exists_and_left, exists_eq_left, hboth]
              simp [eq_comm, and_assoc]
      | cons name' rest =>
          cases hdex : endsWith name DEX with
          | false => simp [encryptEntry, isDexDir, isRootDex, encrypted, hdex, eq_comm]
          | true => simp [encryptEntry, isDexDir, hdex]

theorem isRootDex_congr {f g : Path × List UInt8} (h : f.1 = g.1) : isRootDex f = isRootDex g := by
  rw [isRootDex, isRootDex, h]

theorem isDexDir_congr {f g : Path × List UInt8} (h : f.1 = g.1) : isDexDir f = isDexDir g := by
  rw [isDexDir, isDexDir, h]

theorem mem_rootDexes {files : Files} {bytes : List UInt8} :
    bytes ∈ rootDexes files ↔ ∃ f ∈ files, isRootDex f = true ∧ f.2 = bytes := by
  simp only [rootDexes, List.mem_map, List.mem_filter, and_assoc]

theorem rootDexes_map_encrypted (cipher : Cipher) (files : Files) :
    rootDexes (files.map (encrypted cipher)) =
      (rootDexes files).map fun bytes => cipher.encrypt (wrapped bytes) := by
  have hdex : isRootDex ∘ encrypted cipher = isRootDex :=
    funext fun f => isRootDex_congr (encrypted_path cipher f)
  rw [rootDexes, rootDexes, List.filter_map, hdex, List.map_map, List.map_map]
  apply List.map_congr_left
  intro f hf
  rw [Function.comp_apply, encrypted, if_pos (List.mem_filter.mp hf).2]
  rfl

/-- What the shell reads back. -/
def opened (cipher : Cipher) (bytes : List UInt8) : List UInt8 :=
  match getBytes bytes with
  | .ok bytes' => cipher.decrypt bytes'
  | .error _ => bytes

theorem opened_encrypt (cipher : Cipher) {bytes : List UInt8} (h : Encryptable cipher bytes) :
    opened cipher (cipher.encrypt (wrapped bytes)) = wrapped bytes := by
  have hlength : (cipher.encrypt (wrapped bytes)).length < 2 ^ 31 := h.fits
  have hmod : (cipher.encrypt (wrapped bytes)).length % 2 ^ 32 =
      (cipher.encrypt (wrapped bytes)).length := Nat.mod_eq_of_lt (by omega)
  have hread : getBytes (cipher.encrypt (wrapped bytes)) =
      .ok (cipher.encrypt (wrapped bytes)) := by
    apply getBytes_eq_ok_iff.mpr
    refine ⟨by rw [Readable, hmod]; exact hlength, ?_⟩
    conv_rhs => rw [wrapped, hmod, List.take_length]
  rw [opened, hread]
  exact cipher.decrypt_encrypt _

theorem rootDexes_map_decryptEntry (cipher : Cipher) (files : Files) :
    rootDexes (files.map (decryptEntry cipher)) =
      (files.filter isRootDex).map fun f =>
        if f.1 = [CLASSES_DEX] then f.2 else opened cipher f.2 := by
  have hpath : ∀ f, (decryptEntry cipher f).1 = f.1 := by
    intro f
    rw [decryptEntry]
    split
    · split
      · rfl
      · rfl
    · rfl
  have hdex : isRootDex ∘ decryptEntry cipher = isRootDex :=
    funext fun f => isRootDex_congr (hpath f)
  rw [rootDexes, List.filter_map, hdex, List.map_map]
  apply List.map_congr_left
  intro f hf
  rw [Function.comp_apply, decryptEntry, (List.mem_filter.mp hf).2, Bool.true_and, opened]
  by_cases hclasses : f.1 = [CLASSES_DEX]
  · rw [if_pos hclasses, if_neg (by simpa using hclasses)]
  · rw [if_neg hclasses, if_pos (by simpa using hclasses)]
    cases getBytes f.2 with
    | ok bytes => rfl
    | error e => rfl

/-! ## Packing -/

/-- One run of the packer: the APK, the order of the listing, the shell's dex, the
directory as the second listing finds it, and the signing of the result. -/
structure Packing where
  cipher : Cipher
  apk : ZipOutputStream
  names : ∀ f ∈ apk.filterMap extracted, f.1 ≠ [] ∧ ∀ name ∈ f.1, IsName name ∧ name ≠ TEMP
  apart : (apk.filterMap extracted).Pairwise fun f g => Apart f.1 g.1
  listing : List Str
  listing_nodup : listing.Nodup
  mem_listing : ∀ name, name ∈ listing ↔ ∃ f ∈ apk.filterMap extracted, f.1.head? = some name
  shell : List UInt8
  tree : TempDir
  enumerates : ∀ files, prepare cipher apk listing shell = .ok files →
    tree.files.Perm files ∧ ∀ path, .emptyDir path ∉ tree.contents
  sign : ZipOutputStream → ZipOutputStream
  sign_entries : ∀ archive,
    (sign archive).filter (·.name ∉ SIGNATURE_FILES) = archive.filter (·.name ∉ SIGNATURE_FILES)

namespace Packing

variable (p : Packing)

/-- What is extracted of the APK. -/
def files : Files := p.apk.filterMap extracted

/-- The shell's dex and every dex at the root of the APK. -/
def originals : List (List UInt8) := p.shell :: rootDexes p.files

/-- The directory after the loop. -/
def renamed : Files := renameDexes (p.files.map (encrypted p.cipher)) p.listing.zipIdx

/-- The shell installs the originals, each once and byte for byte. -/
def Conserved : Prop :=
  ∃ files archive dexes, prepare p.cipher p.apk p.listing p.shell = .ok files ∧
    zip p.tree.node = .ok archive ∧ installed p.cipher (p.sign archive) = .ok dexes ∧
      dexes.Perm p.originals

/-- The old and new names of the dex files, in the order of the listing. -/
def renamings : List (Str × Str) :=
  (p.listing.zipIdx.filter fun x => endsWith x.1 DEX).map renamePair

/-- Nothing stands in the way of the packing. -/
structure Conservable : Prop where
  extracts : p.files ≠ []
  noDexDir : NoDexDir p.files
  short : ∀ bytes ∈ p.originals, bytes.length < 2 ^ 31
  fits : ∀ bytes ∈ rootDexes p.files, (p.cipher.encrypt bytes).length < 2 ^ 31
  clear : p.renamings.Pairwise Clear

variable {p}

theorem unZip_apk : unZip p.apk = .ok p.files := by
  rw [unZip, foldlM_extract_eq_ok_iff]
  exact Files.writeAll_of_apart p.apart

theorem encryptAPKFile_eq_ok_iff {files : Files} :
    encryptAPKFile p.cipher p.apk = .ok files ↔
      (NoDexDir p.files ∧ ∀ bytes ∈ rootDexes p.files, Encryptable p.cipher bytes) ∧
        files = p.files.map (encrypted p.cipher) := by
  rw [encryptAPKFile, unZip_apk]
  show p.files.mapM (encryptEntry p.cipher) = .ok files ↔ _
  rw [mapM_eq_ok_iff fun f g => encryptEntry_eq_ok_iff]
  apply and_congr_left'
  constructor
  · intro h
    refine ⟨fun f hf => (h f hf).1, fun bytes hbytes => ?_⟩
    obtain ⟨f, hf, hdex, rfl⟩ := mem_rootDexes.mp hbytes
    exact (h f hf).2 hdex
  · intro h f hf
    exact ⟨h.1 f hf, fun hdex => h.2 f.2 (mem_rootDexes.mpr ⟨f, hf, hdex, rfl⟩)⟩

theorem noDexDir_map_encrypted (h : NoDexDir p.files) :
    NoDexDir (p.files.map (encrypted p.cipher)) := by
  intro f hf
  obtain ⟨g, hg, rfl⟩ := List.mem_map.mp hf
  rw [isDexDir_congr (encrypted_path p.cipher g)]
  exact h g hg

theorem isFile_map_encrypted (path : Path) :
    isFile (p.files.map (encrypted p.cipher)) path = true ↔ ∃ f ∈ p.files, f.1 = path := by
  rw [isFile_iff]
  constructor
  · rintro ⟨f, hf, rfl⟩
    obtain ⟨g, hg, rfl⟩ := List.mem_map.mp hf
    exact ⟨g, hg, (encrypted_path p.cipher g).symm⟩
  · rintro ⟨f, hf, rfl⟩
    exact ⟨_, List.mem_map_of_mem hf, encrypted_path p.cipher f⟩

/-- The listing has the name of every file at the root. -/
theorem mem_listing_of_isFile {name : Str}
    (h : isFile (p.files.map (encrypted p.cipher)) [name] = true) : name ∈ p.listing := by
  obtain ⟨f, hf, hpath⟩ := (isFile_map_encrypted _).mp h
  exact (p.mem_listing name).mpr ⟨f, hf, by rw [hpath]; rfl⟩

/-- The loop starts with every dex pending. -/
theorem pending (h : NoDexDir p.files) :
    Pending [] (p.listing.zipIdx.filter fun x => endsWith x.1 DEX)
      (p.files.map (encrypted p.cipher)) := by
  have hsublist : ((p.listing.zipIdx.filter fun x => endsWith x.1 DEX).map Prod.fst).Sublist
      p.listing := by
    have hmap := (List.filter_sublist (p := fun x : Str × ℕ => endsWith x.1 DEX)
      (l := p.listing.zipIdx)).map Prod.fst
    rwa [List.zipIdx_map_fst] at hmap
  have hmem : ∀ name, endsWith name DEX = true → name ∈ p.listing →
      name ∈ (p.listing.zipIdx.filter fun x => endsWith x.1 DEX).map Prod.fst := by
    intro name hname hlisted
    rw [← List.zipIdx_map_fst 0 p.listing] at hlisted
    obtain ⟨x, hx, rfl⟩ := List.mem_map.mp hlisted
    exact List.mem_map_of_mem (List.mem_filter.mpr ⟨hx, hname⟩)
  refine ⟨noDexDir_map_encrypted h, fun x hx => (List.mem_filter.mp hx).2,
    p.listing_nodup.sublist hsublist, ?_, by simp⟩
  intro m hm
  constructor
  · exact fun hfile => Or.inr (hmem m hm (mem_listing_of_isFile hfile))
  · intro hop
    have hlisted := hsublist.subset (hop.resolve_left List.not_mem_nil)
    obtain ⟨f, hf, hhead⟩ := (p.mem_listing m).mp hlisted
    refine (isFile_map_encrypted _).mpr ⟨f, hf, ?_⟩
    -- a listed dex is a file, since no directory poses as one
    have hdir := h f hf
    match hpath : f.1, hhead with
    | [name], hhead => rw [Option.some.inj hhead]
    | name :: name' :: rest, hhead =>
        rw [isDexDir, hpath] at hdir
        rw [Option.some.inj hhead] at hdir
        exact absurd hm (by rw [show endsWith m DEX = false from hdir]; decide)

theorem renamed_spec (h : NoDexDir p.files) :
    Renamed (p.files.map (encrypted p.cipher)) p.renamed :=
  renamed_renameDexes (noDexDir_map_encrypted h) _

/-- After the loop the name of the shell's dex is free. -/
theorem path_ne_classesDex (h : NoDexDir p.files) : ∀ f ∈ p.renamed, f.1 ≠ [CLASSES_DEX] := by
  apply isFile_eq_false_iff.mp
  apply not_isFile_classesDex (noDexDir_map_encrypted h)
  intro hfile
  rw [List.zipIdx_map_fst]
  exact mem_listing_of_isFile hfile

/-- Every path after the loop is one of the APK or that of a dex at the root. -/
theorem mem_renamed (h : NoDexDir p.files) {f : Path × List UInt8} (hf : f ∈ p.renamed) :
    (∃ g ∈ p.files, f.1 = g.1) ∨ isRootDex f = true := by
  rcases (renamed_spec h).mem f hf with hmem | hdex
  · obtain ⟨g, hg, rfl⟩ := List.mem_map.mp hmem
    exact Or.inl ⟨g, hg, encrypted_path p.cipher g⟩
  · exact Or.inr hdex

/-- The shell's dex goes to a free place. -/
theorem write_shell (h : NoDexDir p.files) (bytes : List UInt8) :
    p.renamed.write [CLASSES_DEX] bytes = some (p.renamed ++ [([CLASSES_DEX], bytes)]) := by
  have hdir : p.renamed.isDirectory [CLASSES_DEX] = false :=
    (renamed_spec h).noDexDir.isDirectory_eq_false (by decide)
  have hblocked : p.renamed.isBlocked [CLASSES_DEX] = false := by
    rw [Files.isBlocked, List.any_eq_false]
    intro f hf habove
    obtain ⟨hbegins, hne⟩ := of_decide_eq_true habove
    rcases List.prefix_cons_iff.mp hbegins with hnil | ⟨rest, hrest, hrest'⟩
    · rcases mem_renamed h hf with ⟨g, hg, hpath⟩ | hdex
      · exact (p.names g hg).1 (hpath ▸ hnil)
      · rw [isRootDex, hnil] at hdex
        cases hdex
    · exact hne (by rw [hrest, List.prefix_nil.mp hrest'])
  have hfilter : p.renamed.filter (·.1 ≠ [CLASSES_DEX]) = p.renamed := by
    rw [List.filter_eq_self]
    exact fun f hf => decide_eq_true (path_ne_classesDex h f hf)
  rw [Files.write, hdir, hblocked, hfilter]
  rfl

theorem storeShell_eq_ok_iff (h : NoDexDir p.files) {files : Files} :
    storeShell p.renamed p.shell = .ok files ↔
      (p.files ≠ [] ∧ Readable p.shell) ∧
        files = p.renamed ++ [([CLASSES_DEX], wrapped p.shell)] := by
  have hempty : p.renamed.isEmpty = true ↔ p.files = [] := by
    rw [List.isEmpty_iff, (renamed_spec h).eq_nil, List.map_eq_nil_iff]
  rw [storeShell]
  by_cases hnil : p.files = []
  · rw [if_pos (hempty.mpr hnil)]
    simp [hnil]
  · rw [if_neg (fun hrenamed => hnil (hempty.mp hrenamed)), bind_eq_ok_iff]
    simp only [getBytes_eq_ok_iff, write_shell h, Except.ok.injEq, and_assoc, exists_and_left,
      exists_eq_left, ne_eq, hnil, not_false_eq_true, true_and]
    exact and_congr_right' eq_comm

theorem prepare_eq_ok_iff {files : Files} :
    prepare p.cipher p.apk p.listing p.shell = .ok files ↔
      (p.files ≠ [] ∧ NoDexDir p.files ∧ Readable p.shell ∧
        ∀ bytes ∈ rootDexes p.files, Encryptable p.cipher bytes) ∧
        files = p.renamed ++ [([CLASSES_DEX], wrapped p.shell)] := by
  rw [prepare]
  constructor
  · intro h
    obtain ⟨files₁, hencrypt, hstore⟩ := bind_eq_ok_iff.mp h
    obtain ⟨⟨hdir, hread⟩, rfl⟩ := encryptAPKFile_eq_ok_iff.mp hencrypt
    obtain ⟨⟨hne, hshell⟩, hfiles⟩ := (storeShell_eq_ok_iff hdir).mp hstore
    exact ⟨⟨hne, hdir, hshell, hread⟩, hfiles⟩
  · rintro ⟨⟨hne, hdir, hshell, hread⟩, hfiles⟩
    have hencrypt := encryptAPKFile_eq_ok_iff.mpr ⟨⟨hdir, hread⟩, rfl⟩
    have hstore := (storeShell_eq_ok_iff hdir).mpr ⟨⟨hne, hshell⟩, hfiles⟩
    exact bind_eq_ok_iff.mpr ⟨_, hencrypt, hstore⟩

/-! ## What the shell installs -/

theorem filterMap_extracted_sign (archive : ZipOutputStream) :
    (p.sign archive).filterMap extracted = archive.filterMap extracted := by
  have hskip : ∀ entries : ZipOutputStream,
      (entries.filter (·.name ∉ SIGNATURE_FILES)).filterMap extracted =
        entries.filterMap extracted := by
    intro entries
    rw [List.filterMap_filter]
    apply List.filterMap_congr
    intro entry _
    by_cases hsigned : entry.name ∈ SIGNATURE_FILES
    · rw [extracted, if_pos hsigned, if_neg (by simpa using hsigned)]
    · rw [if_pos (by simpa using hsigned)]
  rw [← hskip, p.sign_entries, hskip]

theorem temp_notMem_prepared (h : NoDexDir p.files) {f : Path × List UInt8}
    (hf : f ∈ p.renamed ++ [([CLASSES_DEX], wrapped p.shell)]) : TEMP ∉ f.1 := by
  have hdex : ∀ name, endsWith name DEX = true → TEMP ∉ [name] := by
    intro name hname hmem
    rw [← List.mem_singleton.mp hmem] at hname
    exact absurd hname (by decide)
  rcases List.mem_append.mp hf with hmem | hshell
  · rcases mem_renamed h hmem with ⟨g, hg, hpath⟩ | hroot
    · rw [hpath]
      exact fun htemp => ((p.names g hg).2 TEMP htemp).2 rfl
    · obtain ⟨name, hpath, hname⟩ := exists_name_of_isRootDex hroot
      rw [hpath]
      exact hdex name hname
  · rw [List.mem_singleton.mp hshell]
    exact hdex CLASSES_DEX (by decide)

/-- A dex at the root is not a signature. -/
theorem rootDexes_unsigned (t : TempDir) : t.unsigned.filter isRootDex = t.files.filter isRootDex := by
  rw [TempDir.unsigned, List.filter_filter]
  apply List.filter_congr
  intro f _
  cases hroot : isRootDex f with
  | false => rfl
  | true =>
      obtain ⟨name, hpath, hname⟩ := exists_name_of_isRootDex hroot
      have hnot : ∀ signature ∈ SIGNATURE_FILES, endsWith signature DEX = false := by decide
      have hunsigned : join f.1 ∉ SIGNATURE_FILES := by
        intro hmem
        have hfalse := hnot _ hmem
        rw [hpath, show join [name] = name by simp [join], hname] at hfalse
        cases hfalse
      simpa using hunsigned

/-- What the shell hands to `V19.install`. -/
theorem installed_of_prepare {files : Files}
    (h : prepare p.cipher p.apk p.listing p.shell = .ok files) :
    ∃ archive dexes, zip p.tree.node = .ok archive ∧
      installed p.cipher (p.sign archive) = .ok dexes ∧
        dexes.Perm (wrapped p.shell :: (rootDexes p.renamed).map (opened p.cipher)) := by
  obtain ⟨hperm, hempty⟩ := p.enumerates files h
  obtain ⟨⟨-, hdir, -⟩, rfl⟩ := prepare_eq_ok_iff.mp h
  have htemp : p.tree.NoTempFile := fun f hf => temp_notMem_prepared hdir (hperm.mem_iff.mp hf)
  have htwin : p.tree.NoTwinEmptyDirs := fun path _ hpath => absurd hpath (hempty path)
  obtain ⟨archive, hzip, hunZip⟩ := unZip_zip htemp htwin
  have hsigned : unZip (p.sign archive) = .ok p.tree.unsigned := by
    rw [unZip, foldlM_extract_eq_ok_iff] at hunZip ⊢
    rw [filterMap_extracted_sign]
    exact hunZip
  refine ⟨archive, _, hzip, by rw [installed, hsigned]; rfl, ?_⟩
  rw [rootDexes_map_decryptEntry, rootDexes_unsigned]
  refine ((hperm.filter isRootDex).map _).trans ?_
  rw [List.filter_append, List.map_append]
  have hopened : (p.renamed.filter isRootDex).map
      (fun f => if f.1 = [CLASSES_DEX] then f.2 else opened p.cipher f.2) =
        (rootDexes p.renamed).map (opened p.cipher) := by
    rw [rootDexes, List.map_map]
    apply List.map_congr_left
    intro f hf
    exact if_neg (path_ne_classesDex hdir f (List.mem_filter.mp hf).1)
  rw [hopened]
  exact List.perm_append_comm

theorem conserved_iff_perm :
    p.Conserved ↔ (p.files ≠ [] ∧ NoDexDir p.files ∧ Readable p.shell ∧
        ∀ bytes ∈ rootDexes p.files, Encryptable p.cipher bytes) ∧
      (wrapped p.shell :: (rootDexes p.renamed).map (opened p.cipher)).Perm p.originals := by
  constructor
  · rintro ⟨files, archive, dexes, hprepare, hzip, hinstalled, hperm⟩
    obtain ⟨archive', dexes', hzip', hinstalled', hperm'⟩ := installed_of_prepare hprepare
    obtain rfl := Except.ok.inj (hzip.symm.trans hzip')
    obtain rfl := Except.ok.inj (hinstalled.symm.trans hinstalled')
    exact ⟨(prepare_eq_ok_iff.mp hprepare).1, hperm'.symm.trans hperm⟩
  · rintro ⟨hprepared, hperm⟩
    have hprepare := prepare_eq_ok_iff.mpr ⟨hprepared, rfl⟩
    obtain ⟨archive, dexes, hzip, hinstalled, hperm'⟩ := installed_of_prepare hprepare
    exact ⟨_, archive, dexes, hprepare, hzip, hinstalled, hperm'.trans hperm⟩

/-! ## The condition -/

/-- Where the loop loses nothing, the shell reads back what was read. -/
theorem map_opened_renamed (hdir : NoDexDir p.files)
    (hread : ∀ bytes ∈ rootDexes p.files, Encryptable p.cipher bytes)
    (hlength : (rootDexes p.renamed).length = (rootDexes p.files).length) :
    wrapped p.shell :: (rootDexes p.renamed).map (opened p.cipher) = p.originals.map wrapped := by
  have hencrypted := rootDexes_map_encrypted p.cipher p.files
  have hsame : rootDexes p.renamed = rootDexes (p.files.map (encrypted p.cipher)) := by
    apply (renamed_spec hdir).sublist.eq_of_length
    rw [hlength, hencrypted, List.length_map]
  rw [hsame, hencrypted, List.map_map, originals, List.map_cons]
  congr 1
  apply List.map_congr_left
  intro bytes hbytes
  exact opened_encrypt p.cipher (hread bytes hbytes)

theorem length_rootDexes_renamed_iff (hdir : NoDexDir p.files) :
    (rootDexes p.renamed).length = (rootDexes p.files).length ↔ p.renamings.Pairwise Clear := by
  have hloop := (pending hdir).length_eq_iff
  rw [renameDexes_filter, rootDexes_map_encrypted, List.length_map] at hloop
  exact hloop.trans (and_iff_left (by simp))

theorem wrapped_of_short {bytes : List UInt8} (h : bytes.length < 2 ^ 31) :
    wrapped bytes = bytes := by
  rw [wrapped, Nat.mod_eq_of_lt (by omega), List.take_length]

theorem readable_of_short {bytes : List UInt8} (h : bytes.length < 2 ^ 31) : Readable bytes := by
  rw [Readable, Nat.mod_eq_of_lt (by omega)]
  exact h

/-- Files that are read in part are not conserved, whatever the order. -/
theorem short_of_perm {contents : List (List UInt8)} (hread : ∀ bytes ∈ contents, Readable bytes)
    (hperm : (contents.map wrapped).Perm contents) :
    ∀ bytes ∈ contents, bytes.length < 2 ^ 31 := by
  have hsum := (hperm.map List.length).sum_eq
  rw [List.map_map] at hsum
  intro bytes hbytes
  by_contra hlong
  have hle : ∀ b ∈ contents, (List.length ∘ wrapped) b ≤ b.length := by
    intro b _
    rw [Function.comp_apply, length_wrapped]
    exact Nat.mod_le _ _
  have hlt : (List.length ∘ wrapped) bytes < bytes.length := by
    have hshort : bytes.length % 2 ^ 32 < 2 ^ 31 := hread bytes hbytes
    rw [Function.comp_apply, length_wrapped]
    omega
  have hless := List.sum_lt_sum _ _ hle ⟨bytes, hbytes, hlt⟩
  omega

/-- The packer and the shell conserve the program exactly when nothing stands in
the way of the packing. -/
theorem conserved_iff (p : Packing) : p.Conserved ↔ p.Conservable := by
  rw [conserved_iff_perm]
  constructor
  · rintro ⟨⟨hne, hdir, hshell, hread⟩, hperm⟩
    have hlength : (rootDexes p.renamed).length = (rootDexes p.files).length := by
      simpa [originals] using hperm.length_eq
    rw [map_opened_renamed hdir hread hlength] at hperm
    have hreadable : ∀ bytes ∈ p.originals, Readable bytes :=
      List.forall_mem_cons.mpr ⟨hshell, fun bytes hbytes => (hread bytes hbytes).readable⟩
    have hshort := short_of_perm hreadable hperm
    refine ⟨hne, hdir, hshort, ?_, (length_rootDexes_renamed_iff hdir).mp hlength⟩
    intro bytes hbytes
    have hfits := (hread bytes hbytes).fits
    rwa [wrapped_of_short (hshort bytes (List.mem_cons_of_mem _ hbytes))] at hfits
  · intro h
    obtain ⟨hshell, hdexes⟩ := List.forall_mem_cons.mp h.short
    have hread : ∀ bytes ∈ rootDexes p.files, Encryptable p.cipher bytes := by
      intro bytes hbytes
      refine ⟨readable_of_short (hdexes bytes hbytes), ?_⟩
      rw [wrapped_of_short (hdexes bytes hbytes)]
      exact h.fits bytes hbytes
    have hlength := (length_rootDexes_renamed_iff h.noDexDir).mpr h.clear
    have hwhole : p.originals.map wrapped = p.originals.map id :=
      List.map_congr_left fun bytes hbytes => wrapped_of_short (h.short bytes hbytes)
    refine ⟨⟨h.extracts, h.noDexDir, readable_of_short hshell, hread⟩, ?_⟩
    rw [map_opened_renamed h.noDexDir hread hlength, hwhole, List.map_id]

/-! ## One APK in two orders -/

/-- Blocks of 16 bytes, the last one filled up with the number of bytes missing in it. -/
def pad (bytes : List UInt8) : List UInt8 :=
  bytes ++ List.replicate (16 - bytes.length % 16) (UInt8.ofNat (16 - bytes.length % 16))

def unpad (bytes : List UInt8) : List UInt8 :=
  bytes.take (bytes.length - (bytes.getLast?.getD 0).toNat)

theorem unpad_pad (bytes : List UInt8) : unpad (pad bytes) = bytes := by
  obtain ⟨n, hn, hlt⟩ : ∃ n, 16 - bytes.length % 16 = n + 1 ∧ n < 16 :=
    ⟨15 - bytes.length % 16, by omega, by omega⟩
  have hlast : (pad bytes).getLast? = some (UInt8.ofNat (n + 1)) := by
    rw [pad, hn, List.replicate_succ', ← List.append_assoc, List.getLast?_concat]
  have htoNat : (UInt8.ofNat (n + 1)).toNat = n + 1 := by
    rw [UInt8.toNat_ofNat']
    omega
  have hlength : (pad bytes).length - (n + 1) = bytes.length := by
    rw [pad, hn, List.length_append, List.length_replicate]
    omega
  rw [unpad, hlast, Option.getD_some, htoNat, hlength, pad, List.take_left]

/-- The padding of AES with nothing encrypted. -/
def paddingCipher : Cipher where
  encrypt := pad
  decrypt := unpad
  decrypt_encrypt := unpad_pad

/-- Two dex files and two others. -/
def twoDexApk : ZipOutputStream :=
  [⟨"AndroidManifest.xml".toList, [0]⟩, ⟨"resources.arsc".toList, [0]⟩,
    ⟨"classes.dex".toList, [1]⟩, ⟨"classes2.dex".toList, [2]⟩]

theorem names_twoDexApk : ∀ f ∈ twoDexApk.filterMap extracted,
    f.1 ≠ [] ∧ ∀ name ∈ f.1, IsName name ∧ name ≠ TEMP := by
  decide

theorem apart_twoDexApk :
    (twoDexApk.filterMap extracted).Pairwise fun f g => Apart f.1 g.1 := by
  decide

/-- A listing of the root, entry by entry. -/
theorem mem_listing_of_perm {files : Files} {listing : List Str}
    (h : (listing.map some).Perm (files.map fun f => f.1.head?)) (name : Str) :
    name ∈ listing ↔ ∃ f ∈ files, f.1.head? = some name := by
  rw [← List.mem_map, ← h.mem_iff]
  simp

/-- A directory of files only. -/
def flatDir (entries : List (Str × List UInt8)) (names : ∀ e ∈ entries, IsName e.1)
    (nodup : (entries.map Prod.fst).Nodup) : TempDir where
  children := entries.map fun e => .file e.1 e.2
  siblings := by
    refine ⟨?_, ?_⟩
    · intro n hn
      obtain ⟨e, he, rfl⟩ := List.mem_map.mp hn
      exact names e he
    · rw [List.pairwise_map]
      exact List.pairwise_map.mp nodup
  wellFormed := by
    intro n hn
    obtain ⟨e, -, rfl⟩ := List.mem_map.mp hn
    exact .file e.1 e.2

theorem contents_flatDir (entries : List (Str × List UInt8)) (names : ∀ e ∈ entries, IsName e.1)
    (nodup : (entries.map Prod.fst).Nodup) :
    (flatDir entries names nodup).contents = entries.map fun e => .file [e.1] e.2 := by
  rw [TempDir.contents, flatDir, itemsAll_eq_flatMap, List.flatMap_map, List.map_eq_flatMap]
  rfl

/-- The packing of that APK with a dex of one byte as the shell's. -/
def twoDexPacking (listing : List Str) (nodup : listing.Nodup)
    (perm : (listing.map some).Perm ((twoDexApk.filterMap extracted).map fun f => f.1.head?))
    (left : List (Str × List UInt8)) (names : ∀ e ∈ left, IsName e.1)
    (left_nodup : (left.map Prod.fst).Nodup)
    (prepared : prepare paddingCipher twoDexApk listing [3] = .ok (left.map fun e => ([e.1], e.2))) :
    Packing where
  cipher := paddingCipher
  apk := twoDexApk
  names := names_twoDexApk
  apart := apart_twoDexApk
  listing := listing
  listing_nodup := nodup
  mem_listing := mem_listing_of_perm perm
  shell := [3]
  tree := flatDir left names left_nodup
  enumerates := by
    intro files h
    obtain rfl := Except.ok.inj (prepared.symm.trans h)
    rw [TempDir.files, contents_flatDir, List.filterMap_map]
    refine ⟨?_, by simp⟩
    rw [show Item.file? ∘ (fun e : Str × List UInt8 => Item.file [e.1] e.2) =
      some ∘ fun e => ([e.1], e.2) from rfl, List.filterMap_eq_map]
  sign := id
  sign_entries _ := rfl

/-- `classes.dex` becomes `classes2.dex` while that file is still waiting. -/
def lossyPacking : Packing :=
  twoDexPacking ["AndroidManifest.xml".toList, "resources.arsc".toList, "classes.dex".toList,
      "classes2.dex".toList] (by decide) (by decide)
    [("AndroidManifest.xml".toList, [0]), ("resources.arsc".toList, [0]),
      ("classes23.dex".toList, pad [1]), ("classes.dex".toList, [3])] (by decide) (by decide)
    (by decide)

/-- The same APK in an order in which nothing is lost. -/
def luckyPacking : Packing :=
  twoDexPacking ["classes.dex".toList, "classes2.dex".toList, "AndroidManifest.xml".toList,
      "resources.arsc".toList] (by decide) (by decide)
    [("AndroidManifest.xml".toList, [0]), ("resources.arsc".toList, [0]),
      ("classes0.dex".toList, pad [1]), ("classes21.dex".toList, pad [2]),
      ("classes.dex".toList, [3])]
    (by decide) (by decide) (by decide)

theorem conserved_luckyPacking : luckyPacking.Conserved :=
  (conserved_iff luckyPacking).mpr
    { extracts := by decide
      noDexDir := by unfold NoDexDir; decide
      short := by decide
      fits := by decide
      clear := by unfold Clear; decide }

/-- The dex that was `classes2.dex` is gone. -/
theorem not_conserved_lossyPacking : ¬ ∀ p : Packing, p.Conserved := by
  intro hlaw
  have hperm := (conserved_iff_perm.mp (hlaw lossyPacking)).2
  have hlost : [2] ∉ wrapped lossyPacking.shell ::
      (rootDexes lossyPacking.renamed).map (opened lossyPacking.cipher) := by decide
  exact hlost (hperm.mem_iff.mpr (by decide))

end Packing

end StudyNotes.Dex
