/-
# `executePatch`

The program around the loop: it reads the header, opens the three blocks of the patch,
reads the old file, rebuilds the new one, and writes it to the file named by `argv[2]`.
Every call that can go wrong does so by choice of an environment, also those whose result
the program compares with -1 although they return a `size_t`.

A run works on the files and ends by returning, in `err`, or in behaviour that C leaves
undefined.
-/

import StudyNotes.Lib.Effect
import StudyNotes.Bspatch.Format

namespace StudyNotes.Bspatch

/-! ## Files and calls -/

inductive Block where
  | control
  | diff
  | extra
deriving DecidableEq

/-- The calls of the C library and of libbzip2 that may fail. -/
inductive Call where
  | fopenPatch
  | fclosePatch
  | fopenBlock (block : Block)
  | fseekBlock (block : Block)
  | bzReadOpen (block : Block)
  | fopenOld
  | fseekOldEnd
  | ftellOld
  | mallocOld
  | fseekOldSet
  | fcloseOld
  | mallocNew
  | fcloseBlocks
  | fopenNew
  | fcloseNew
deriving DecidableEq

/-- What the calls of one run answer, and what `malloc` leaves in the buffers.  A count is
the number of bytes that can be transferred before the transfer stops. -/
structure Env where
  fails : Call → Bool
  bzerror : Block → ℤ
  headerCount : ℕ
  oldCount : ℕ
  newCount : ℕ
  flushed : ℕ
  pold : Memory
  pnew : Memory

/-- The files, and whether `argv[2]` has been opened for writing. -/
structure World where
  files : String → Option Bytes
  opened : Bool

/-- Why a run does not return: `err` with its exit code and text (one call passes `NULL`),
undefined behaviour, or too little fuel for the loop. -/
inductive Stop where
  | err (exitcode : ℕ) (text : Option String)
  | undefined
  | unfinished
deriving DecidableEq

abbrev Run := EStateM Stop World

def corrupt : Stop := .err 1 (some "Corrupt patch\n")

/-- `if (bad) err(1, text)`. -/
def check (bad : Bool) (text : Option String) : Run Unit :=
  if bad then throw (.err 1 text) else pure ()

/-- `fopen(file, "rb")`, with the bytes that can be read from it. -/
def fopen (fails : Bool) (file text : String) : Run Bytes := do
  let w ← get
  match w.files file with
  | none => throw (.err 1 (some text))
  | some bytes => if fails then throw (.err 1 (some text)) else pure bytes

/-- A `size_t` that equals -1. -/
def sizeMax : ℕ := 2 ^ 32 - 1

/-! ## The parts of the program -/

/-- The values of the header, checked. -/
structure Header where
  bzctrllen : Int32
  bzdatalen : Int32
  newsize : Int32
  newsize_nonneg : 0 ≤ newsize.toInt

/-- The three lengths are read from the header and checked. -/
def readLengths (header : Bytes) : Run Header :=
  let bzctrllen := offtin (header.drop 8)
  let bzdatalen := offtin (header.drop 16)
  let newsize := offtin (header.drop 24)
  if h : bzctrllen < 0 ∨ bzdatalen < 0 ∨ newsize < 0 then
    throw corrupt
  else
    pure ⟨bzctrllen, bzdatalen, newsize, by
      simpa [Int32.lt_iff_toInt_lt] using fun hneg => h (.inr (.inr hneg))⟩

/-- The header is read and checked, and the patch file closed. -/
def readHeader (env : Env) (patchfile : String) : Run Header := do
  let patch ← fopen (env.fails .fopenPatch) patchfile s!"fopen({patchfile})"
  let header := patch.take (min 32 env.headerCount)
  if header.length < 32 then do
    -- `feof`: the patch file ended before 32 bytes
    check (patch.length ≤ env.headerCount) (some "Corrupt patch\n")
    throw (.err 1 (some s!"fread({patchfile})"))
  else do
    check (header.take 8 ≠ magic) (some "Corrupt patch\n")
    let h ← readLengths header
    check (env.fails .fclosePatch) (some s!"fclose({patchfile})")
    return h

/-- The old file as the program has it: the buffer and the size. -/
structure OldFile where
  pold : Memory
  oldsize : Int32

/-- `ftell` at the end of a file: -1 where the offset does not fit in a `long`. -/
def ftell (env : Env) (old : Bytes) : Int32 :=
  if env.fails .ftellOld ∨ 2 ^ 31 ≤ old.length then -1 else .ofNat old.length

/-- The bytes that `fread(pold, 1, oldsize, fs)` delivers.  Where the `fseek` before it fails
the file is still at its end. -/
def freadOld (env : Env) (old : Bytes) : Bytes :=
  if env.fails .fseekOldSet then []
  else (old.take env.oldCount).take (ftell env old).toUInt32.toNat

def readOld (env : Env) (oldfile : String) : Run OldFile := do
  let old ← fopen (env.fails .fopenOld) oldfile s!"Open failed :{oldfile}"
  check (env.fails .fseekOldEnd) (some s!"Seek failed :{oldfile}")
  let oldsize := ftell env old
  check (env.fails .mallocOld) (some s!"Malloc failed :{oldfile}")
  let stored := freadOld env old
  -- a size of -1 leaves a buffer of no bytes
  if (oldsize + 1).toUInt32.toNat < stored.length then
    throw .undefined
  else do
    check (stored.length = sizeMax) (some s!"Read failed :{oldfile}")
    check (env.fails .fcloseOld) (some s!"Close failed :{oldfile}")
    return ⟨store env.pold 0 stored, oldsize⟩

/-- The first bytes of a buffer. -/
def contents (m : Memory) (n : ℕ) : Bytes := (List.range n).map fun (k : ℕ) => m k

/-- The new file is created and written.  A failing `fclose` may have flushed a part of it. -/
def writeNew (env : Env) (newfile : String) (pnew : Memory) (newsize : Int32) : Run Unit := do
  check (env.fails .fopenNew) (some s!"Create failed :{newfile}")
  let written := contents pnew (min newsize.toNatClampNeg env.newCount)
  let put (bytes : Bytes) : Run Unit :=
    modify fun w => ⟨Function.update w.files newfile (some bytes), true⟩
  put []
  check (written.length = sizeMax) (some s!"Write failed :{newfile}")
  if env.fails .fcloseNew then do
    put (written.take env.flushed)
    throw (.err 1 (some s!"Close failed :{newfile}"))
  else
    put written

/-! ## The library and the loop -/

/-- libbzip2 with its streams opened on a file, from a position on.  What a stream holds is
what it decompresses to: a read stores bytes in that order, and a read that passes the
program's check has taken them all off. -/
structure Bzip2 (σ : Type) extends Bzlib σ where
  decompressed : Bytes → Bytes
  bzReadOpen : Bytes → σ
  content : σ → Bytes
  content_bzReadOpen : ∀ bytes, content (bzReadOpen bytes) = decompressed bytes
  stored_prefix : ∀ s len, (bzRead s len).stored <+: content s
  content_rest : ∀ s len, (bzRead s len).Good len →
    content (bzRead s len).rest = (content s).drop len.toNatClampNeg

section

variable {σ : Type} (lib : Bzip2 σ) (env : Env)

/-- One block is opened: `fopen`, `fseek` to its offset, which must not be negative, and
`BZ2_bzReadOpen`. -/
def openBlock (block : Block) (patchfile : String) (offset : Int32) : Run σ := do
  let patch ← fopen (env.fails (.fopenBlock block)) patchfile s!"fopen({patchfile})"
  let position := offset.toInt
  check (env.fails (.fseekBlock block) || position < 0)
    (some s!"fseeko({patchfile}, {position})")
  let code := env.bzerror block
  check (env.fails (.bzReadOpen block)) (some s!"BZ2_bzReadOpen, bz2err = {code}")
  return lib.bzReadOpen (patch.drop position.toNat)

/-- The loop.  After an access outside of the buffers nothing is promised. -/
def loop (b : Buffers) : ℕ → State σ → Except Stop Memory
  | 0, _ => .error .unfinished
  | fuel + 1, s =>
      if s.newpos < b.newsize then
        if (round lib.toBzlib b s).All (Access.InBounds b) then
          match (round lib.toBzlib b s).result with
          | none => .error corrupt
          | some t => loop b fuel t
        else .error .undefined
      else .ok s.pnew

/-- The loop as a part of a run.  Each round takes 24 bytes from the control stream. -/
def runLoop (b : Buffers) (s : State σ) : Run Memory :=
  match loop lib b ((lib.content s.control).length + 1) s with
  | .ok pnew => pure pnew
  | .error e => throw e

/-- Everything before `argv[2]` is opened: the new buffer and its size. -/
def rebuildNew (oldfile patchfile : String) : Run (Memory × Int32) := do
  let h ← readHeader env patchfile
  let control ← openBlock lib env .control patchfile 32
  let diff ← openBlock lib env .diff patchfile (32 + h.bzctrllen)
  let extra ← openBlock lib env .extra patchfile (32 + h.bzctrllen + h.bzdatalen)
  let old ← readOld env oldfile
  check (env.fails .mallocNew) none
  let pnew ← runLoop lib ⟨old.pold, old.oldsize, h.newsize, h.newsize_nonneg⟩
    (start env.pnew control diff extra)
  check (env.fails .fcloseBlocks) (some s!"fclose({patchfile})")
  return (pnew, h.newsize)

def executePatch (argv : List String) : Run ℕ :=
  match argv with
  | [_, oldfile, newfile, patchfile] => do
      let new ← rebuildNew lib env oldfile patchfile
      writeNew env newfile new.1 new.2
      return 0
  | _ =>
      let program := argv.headD ""
      throw (.err 1 (some s!"usage: {program} oldfile newfile patchfile\n"))

/-! ## What a run leaves behind -/

theorem keeps_check (bad : Bool) (text : Option String) : Effect.Keeps (check bad text) :=
  .ite (.throw _) (.pure _)

theorem keeps_fopen (fails : Bool) (file text : String) :
    Effect.Keeps (fopen fails file text) := by
  refine .bind .get fun w => ?_
  split
  next => exact .throw _
  next => exact .ite (.throw _) (.pure _)

theorem keeps_readLengths (header : Bytes) : Effect.Keeps (readLengths header) := by
  unfold readLengths
  dsimp only
  split
  next => exact .throw _
  next => exact .pure _

theorem keeps_readHeader (patchfile : String) : Effect.Keeps (readHeader env patchfile) := by
  refine .bind (keeps_fopen _ _ _) fun patch => .ite ?_ ?_
  · exact .bind (keeps_check _ _) fun _ => .throw _
  · refine .bind (keeps_check _ _) fun _ => .bind (keeps_readLengths _) fun h => ?_
    exact .bind (keeps_check _ _) fun _ => .pure _

theorem keeps_openBlock (block : Block) (patchfile : String) (offset : Int32) :
    Effect.Keeps (openBlock lib env block patchfile offset) := by
  refine .bind (keeps_fopen _ _ _) fun patch => .bind (keeps_check _ _) fun _ => ?_
  exact .bind (keeps_check _ _) fun _ => .pure _

theorem keeps_readOld (oldfile : String) : Effect.Keeps (readOld env oldfile) := by
  refine .bind (keeps_fopen _ _ _) fun old => .bind (keeps_check _ _) fun _ => ?_
  refine .bind (keeps_check _ _) fun _ => .ite (.throw _) ?_
  refine .bind (keeps_check _ _) fun _ => ?_
  exact .bind (keeps_check _ _) fun _ => .pure _

theorem keeps_runLoop (b : Buffers) (s : State σ) : Effect.Keeps (runLoop lib b s) := by
  unfold runLoop
  split
  next => exact .pure _
  next => exact .throw _

/-- Nothing before the new file is opened touches a file. -/
theorem keeps_rebuildNew (oldfile patchfile : String) :
    Effect.Keeps (rebuildNew lib env oldfile patchfile) := by
  refine .bind (keeps_readHeader env _) fun h => .bind (keeps_openBlock lib env _ _ _) fun _ => ?_
  refine .bind (keeps_openBlock lib env _ _ _) fun _ => ?_
  refine .bind (keeps_openBlock lib env _ _ _) fun _ => .bind (keeps_readOld env _) fun old => ?_
  refine .bind (keeps_check _ _) fun _ => .bind (keeps_runLoop lib _ _) fun pnew => ?_
  exact .bind (keeps_check _ _) fun _ => .pure _

/-- Where the new file could not be opened, the files are as they were. -/
theorem writeNew_of_not_opened {newfile : String} {pnew : Memory} {newsize : Int32} {w w' : World}
    {e : Stop} (h : writeNew env newfile pnew newsize w = .error e w') (hopened : w'.opened = false) :
    w' = w := by
  rcases Effect.bind_eq_error_iff.mp h with h | ⟨_, u, -, h⟩
  · exact (keeps_check _ _).eq_of_error h
  · -- from here on the new file is open
    have hopen : w'.opened = true := by
      rcases Effect.bind_eq_error_iff.mp h with h | ⟨_, v, hv, h⟩
      · cases h
      · have hvopen : v.opened = true := by
          cases hv
          rfl
        rcases Effect.bind_eq_error_iff.mp h with h | ⟨_, x, hx, h⟩
        · rwa [(keeps_check _ _).eq_of_error h]
        · split at h
          next =>
            cases h
            rfl
          next => cases h
    simp [hopen] at hopened

/-! ## What the parts return -/

/-- The run ended in `err`. -/
def IsErr (e : Stop) : Prop := ∃ exitcode text, e = .err exitcode text

theorem isErr_corrupt : IsErr corrupt := ⟨_, _, rfl⟩

theorem check_ends (bad : Bool) (text : Option String) (w : World) :
    Effect.Ends (check bad text) w (fun _ t => t = w ∧ bad = false) IsErr := by
  cases bad with
  | false => exact ⟨rfl, rfl⟩
  | true => exact ⟨_, _, rfl⟩

theorem fopen_ends (fails : Bool) (file text : String) (w : World) :
    Effect.Ends (fopen fails file text) w
      (fun bytes t => t = w ∧ w.files file = some bytes) IsErr := by
  refine .bind (Q := fun v t => v = w ∧ t = w) ⟨rfl, rfl⟩ ?_
  rintro v t ⟨rfl, rfl⟩
  split
  next => exact .throw ⟨_, _, rfl⟩
  next bytes hbytes =>
    split
    next => exact .throw ⟨_, _, rfl⟩
    next => exact .pure ⟨rfl, hbytes⟩

/-- The header of the patch, as the program has it: the values modulo `2 ^ 32`, none of them
negative. -/
structure HeaderOf (patch : Bytes) (h : Header) : Prop where
  length : 32 ≤ patch.length
  magic : patch.take 8 = magic
  bzctrllen : h.bzctrllen = .ofInt (lengthX patch)
  bzdatalen : h.bzdatalen = .ofInt (lengthY patch)
  newsize : h.newsize = .ofInt (sizeofNew patch)
  bzctrllen_nonneg : 0 ≤ h.bzctrllen.toInt
  bzdatalen_nonneg : 0 ≤ h.bzdatalen.toInt

theorem offtin_header (patch : Bytes) {k : ℕ} (hk : k ≤ 24) :
    offtin ((patch.take 32).drop k) = .ofInt (value (patch.drop k)) := by
  rw [offtin_eq, List.drop_take, value_take _ (by omega)]

theorem readLengths_ends {patch : Bytes} (hlength : 32 ≤ patch.length)
    (hmagic : patch.take 8 = magic) (w : World) :
    Effect.Ends (readLengths (patch.take 32)) w (fun h t => t = w ∧ HeaderOf patch h) IsErr := by
  unfold readLengths
  dsimp only
  split
  next => exact .throw isErr_corrupt
  next hlens =>
    simp only [not_or, Int32.lt_iff_toInt_lt, Int32.toInt_zero, Int.not_lt] at hlens
    refine .pure ⟨rfl, hlength, hmagic, ?_, ?_, ?_, hlens.1, hlens.2.1⟩
    · exact offtin_header patch (by omega)
    · exact offtin_header patch (by omega)
    · exact offtin_header patch (by omega)

theorem readHeader_ends (patchfile : String) (w : World) :
    Effect.Ends (readHeader env patchfile) w
      (fun h t => t = w ∧ ∃ patch, w.files patchfile = some patch ∧ HeaderOf patch h) IsErr := by
  refine .bind (fopen_ends _ _ _ w) ?_
  rintro patch t ⟨rfl, hpatch⟩
  dsimp only
  split
  next =>
    refine .bind (check_ends _ _ t) ?_
    rintro _ _ -
    exact .throw ⟨_, _, rfl⟩
  next hlength =>
    have hcount : min 32 env.headerCount = 32 ∧ 32 ≤ patch.length := by
      rw [List.length_take] at hlength
      omega
    rw [hcount.1]
    refine .bind (check_ends _ _ t) ?_
    rintro _ _ ⟨rfl, hmagic⟩
    have hmagic : patch.take 8 = magic := by
      simpa [List.take_take] using hmagic
    refine .bind (readLengths_ends hcount.2 hmagic _) ?_
    rintro h _ ⟨rfl, hheader⟩
    refine .bind (check_ends _ _ _) ?_
    rintro _ _ ⟨rfl, -⟩
    exact .pure ⟨rfl, patch, hpatch, hheader⟩

theorem openBlock_ends (block : Block) {patchfile : String} (offset : Int32) {w : World}
    {patch : Bytes} (hpatch : w.files patchfile = some patch) :
    Effect.Ends (openBlock lib env block patchfile offset) w
      (fun s t => t = w ∧ 0 ≤ offset.toInt ∧
        lib.content s = lib.decompressed (patch.drop offset.toInt.toNat)) IsErr := by
  refine .bind (fopen_ends _ _ _ w) ?_
  rintro bytes _ ⟨rfl, hbytes⟩
  obtain rfl : patch = bytes := Option.some.inj (hpatch.symm.trans hbytes)
  refine .bind (check_ends _ _ _) ?_
  rintro _ _ ⟨rfl, hseek⟩
  refine .bind (check_ends _ _ _) ?_
  rintro _ _ ⟨rfl, -⟩
  refine .pure ⟨rfl, ?_, lib.content_bzReadOpen _⟩
  simp only [Bool.or_eq_false_iff, decide_eq_false_iff_not, Int.not_lt] at hseek
  exact hseek.2

/-- The program has the size of the old file and all its bytes. -/
def OldComplete (old : Bytes) : Prop :=
  (ftell env old).toInt = old.length ∧ freadOld env old = old

instance (old : Bytes) : Decidable (OldComplete env old) := inferInstanceAs (Decidable (_ ∧ _))

/-- `malloc(oldsize + 1)` makes room for the old file. -/
theorem length_le_malloc {old : Bytes} {oldsize : Int32} (h : oldsize.toInt = old.length) :
    old.length ≤ (oldsize + 1).toUInt32.toNat := by
  have hnonneg : 0 ≤ oldsize := by
    rw [Int32.le_iff_toInt_le, Int32.toInt_zero]
    omega
  have hlt := oldsize.toInt_lt
  have hsize := Int32.toNat_toUInt32_of_le hnonneg
  rw [Int32.toNatClampNeg] at hsize
  have hone : (1 : Int32).toUInt32.toNat = 1 := rfl
  rw [Int32.toUInt32_add, UInt32.toNat_add, hone]
  omega

theorem store_zero (m : Memory) (bytes : Bytes) {i : ℕ} (hi : i < bytes.length) :
    store m 0 bytes i = bytes.getD i 0 := by
  have hindex : (0 : ℤ) ≤ i ∧ (i : ℤ) < 0 + bytes.length := by omega
  rw [store, if_pos hindex, Int.sub_zero, Int.toNat_natCast]

theorem readOld_ends (oldfile : String) {w : World}
    (hold : ∀ old, w.files oldfile = some old → OldComplete env old) :
    Effect.Ends (readOld env oldfile) w
      (fun o t => t = w ∧ ∃ old, w.files oldfile = some old ∧ o.oldsize.toInt = old.length ∧
        ∀ i : ℕ, i < old.length → o.pold i = old.getD i 0) IsErr := by
  refine .bind (fopen_ends _ _ _ w) ?_
  rintro old _ ⟨rfl, hbytes⟩
  obtain ⟨hsize, hread⟩ := hold old hbytes
  refine .bind (check_ends _ _ _) ?_
  rintro _ _ ⟨rfl, -⟩
  refine .bind (check_ends _ _ _) ?_
  rintro _ _ ⟨rfl, -⟩
  rw [hread, if_neg (Nat.not_lt.mpr (length_le_malloc hsize))]
  refine .bind (check_ends _ _ _) ?_
  rintro _ _ ⟨rfl, -⟩
  refine .bind (check_ends _ _ _) ?_
  rintro _ _ ⟨rfl, -⟩
  exact .pure ⟨rfl, old, hbytes, hsize, fun i hi => store_zero env.pold old hi⟩

/-- A run that gets through has written the bytes of the buffer, as many as the transfer
took. -/
theorem writeNew_ends (newfile : String) (pnew : Memory) (newsize : Int32) (w : World) :
    Effect.Ends (writeNew env newfile pnew newsize) w
      (fun _ t => t.files newfile =
        some (contents pnew (min newsize.toNatClampNeg env.newCount))) IsErr := by
  refine .bind (check_ends _ _ _) ?_
  rintro _ _ ⟨rfl, -⟩
  refine .bind (Q := fun _ _ => True) trivial ?_
  rintro _ t -
  refine .bind (check_ends _ _ _) ?_
  rintro _ _ ⟨rfl, -⟩
  split
  next => exact .bind (Q := fun _ _ => True) trivial fun _ _ _ => .throw ⟨_, _, rfl⟩
  next => exact Function.update_self _ _ _

end

end StudyNotes.Bspatch
