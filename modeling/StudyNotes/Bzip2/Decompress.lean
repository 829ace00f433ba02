/-
# The states of the decoder

`BZ2_decompress` is one `switch` over the labels of `GET_BITS`.  A state is a label with the
variables that are used after it, all of which are in `DState` or in its save area; a step
takes the bits that are asked for there and runs to the next label or to a `RETURN`.
-/

import StudyNotes.Bzip2.BitStream
import StudyNotes.Bzip2.Block
import StudyNotes.Bzip2.Huffman

namespace StudyNotes.Bzip2

open StudyNotes.Checked

/-- A code length that passed the check of `curr`. -/
abbrev CodeLength := { n : ℕ // 1 ≤ n ∧ n ≤ 20 }

/-- A coding table with its entry of `minLens`. -/
structure Table where
  table : DecodeTable
  minLen : ℕ
  minLen_pos : 0 < minLen

/-- What is known of a block after its selectors. -/
structure Coding where
  seqToUnseq : List UInt8
  nGroups : ℕ
  selector : List ℕ

/-- The place in the groups of values: `groupNo`, `groupPos`, and the table that `gLimit`,
`gBase` and `gPerm` point to. -/
structure Group where
  groupNo : ℤ
  groupPos : ℕ
  table : Table

/-- The labels `BZ_X_MAGIC_1` to `BZ_X_CCRC_4`.  `mtfBits` stands for `BZ_X_MTF_1`, `BZ_X_MTF_3`
and `BZ_X_MTF_5`, and `mtfBit` for the labels after them. -/
inductive Reading where
  | magic1
  | magic2
  | magic3
  | magic4
  | blkhdr (d : Stream) (i : Fin 6)
  | bcrc (d : Stream) (i : Fin 4) (crc : UInt32)
  | randbit (d : Stream) (crc : UInt32)
  | origPtr (d : Stream) (crc : UInt32) (blockRandomised : Bool) (i : Fin 3) (origPtr : ℕ)
  | mapping1 (h : BlockHead) (inUse16 : List Bool)
  | mapping2 (h : BlockHead) (inUse16 inUse : List Bool) (i j : ℕ)
  | selector1 (h : BlockHead) (seqToUnseq : List UInt8)
  | selector2 (h : BlockHead) (seqToUnseq : List UInt8) (nGroups : ℕ)
  | selector3 (h : BlockHead) (seqToUnseq : List UInt8) (nGroups nSelectors : ℕ)
      (selectorMtf : List ℕ) (j : ℕ)
  | coding1 (h : BlockHead) (c : Coding) (lens : List (List CodeLength))
  | coding2 (h : BlockHead) (c : Coding) (lens : List (List CodeLength)) (len : List CodeLength)
      (curr : CodeLength)
  | coding3 (h : BlockHead) (c : Coding) (lens : List (List CodeLength)) (len : List CodeLength)
      (curr : CodeLength)
  | mtfBits (h : BlockHead) (c : Coding) (tables : List Table) (place : Place) (v : Values)
      (g : Group)
  | mtfBit (h : BlockHead) (c : Coding) (tables : List Table) (place : Place) (v : Values)
      (g : Group) (zn zvec : ℕ)
  | endhdr (d : Stream) (i : Fin 5)
  | ccrc (i : Fin 4) (crc : UInt32)

/-- How a call of `BZ2_decompress` ends when it does not wait for input: with a block that is
ready for output, with one of its results, or with an access outside an array. -/
inductive Decoded where
  | output (b : Block) (s : Output Fetch) (d : Stream)
  | streamEnd (storedCombinedCRC : UInt32)
  | dataErrorMagic
  | dataError
  | returnsTrue
  | outside

namespace Reading

/-- The number of bits that are asked for. -/
def width : Reading → ℕ
  | magic1 | magic2 | magic3 | magic4 => 8
  | blkhdr .. | bcrc .. | origPtr .. | endhdr .. | ccrc .. => 8
  | randbit .. | mapping1 .. | mapping2 .. | selector3 .. | coding2 .. | coding3 .. => 1
  | selector1 .. => 3
  | selector2 .. => 15
  | coding1 .. => 5
  | mtfBits _ _ _ _ _ g => g.table.minLen
  | mtfBit .. => 1

theorem width_pos (s : Reading) : 0 < s.width := by
  cases s
  case mtfBits g => exact g.table.minLen_pos
  all_goals exact Nat.succ_pos _

/-- The label `BZ_X_BLKHDR_1`. -/
abbrev blkhdr1 (d : Stream) : Reading := .blkhdr d 0

/-- Where the code runs on to. -/
abbrev Next := Reading ⊕ Decoded

/-- What freshly allocated memory holds. -/
structure Fresh where
  ll4 : ℕ → UInt8
  mtfa : ℕ → UInt8
  mtfbase : ℕ → ℕ

/-! ## Headers -/

/-- After `BZ_X_MAGIC_4`, with the memory that is taken then. -/
def startStream (fresh : Fresh) (smallDecompress : Bool) (value : ℕ) : Next :=
  if value < 0x30 + 1 ∨ value > 0x30 + 9 then .inr .dataErrorMagic
  else
    let blockSize100k := value - 0x30
    let ll4 :=
      if smallDecompress then (List.range ((1 + blockSize100k * 100000) / 2)).map fresh.ll4 else []
    let mtf := ⟨(List.range 4096).map fresh.mtfa, (List.range 16).map fresh.mtfbase⟩
    .inl (.blkhdr { smallDecompress, blockSize100k, mtf, ll4 } 0)

/-- The six bytes before a block. -/
def blockMagic : Vector ℕ 6 := #v[0x31, 0x41, 0x59, 0x26, 0x53, 0x59]

/-- The bytes from the second on before the end of a stream. -/
def endMagic : Vector ℕ 5 := #v[0x72, 0x45, 0x38, 0x50, 0x90]

def afterBlkhdr (d : Stream) (i : Fin 6) (uc : ℕ) : Next :=
  if i.val = 0 ∧ uc = 0x17 then .inl (.endhdr d 0)
  else if uc ≠ blockMagic[i] then .inr .dataError
  else if h : i.val + 1 < 6 then .inl (.blkhdr d ⟨i.val + 1, h⟩)
  else .inl (.bcrc d 0 0)

def afterBcrc (d : Stream) (i : Fin 4) (crc : UInt32) (uc : ℕ) : Next :=
  let crc := crc <<< 8 ||| UInt32.ofNat uc
  if h : i.val + 1 < 4 then .inl (.bcrc d ⟨i.val + 1, h⟩ crc) else .inl (.randbit d crc)

def afterOrigPtr (d : Stream) (crc : UInt32) (blockRandomised : Bool) (i : Fin 3) (origPtr uc : ℕ) :
    Next :=
  let origPtr := 2 ^ 8 * origPtr + uc
  if h : i.val + 1 < 3 then .inl (.origPtr d crc blockRandomised ⟨i.val + 1, h⟩ origPtr)
  else if origPtr > 10 + 100000 * d.blockSize100k then .inr .dataError
  else .inl (.mapping1 { d with storedBlockCRC := crc, blockRandomised, origPtr } [])

def afterEndhdr (d : Stream) (i : Fin 5) (uc : ℕ) : Next :=
  if uc ≠ endMagic[i] then .inr .dataError
  else if h : i.val + 1 < 5 then .inl (.endhdr d ⟨i.val + 1, h⟩)
  else .inl (.ccrc 0 0)

def afterCcrc (i : Fin 4) (crc : UInt32) (uc : ℕ) : Next :=
  let crc := crc <<< 8 ||| UInt32.ofNat uc
  if h : i.val + 1 < 4 then .inl (.ccrc ⟨i.val + 1, h⟩ crc) else .inr (.streamEnd crc)

/-! ## The mapping table -/

def endMapping (h : BlockHead) (inUse : List Bool) : Option Next := do
  let seqToUnseq ← makeMapsD inUse
  if seqToUnseq.length = 0 then return .inr .dataError
  else return .inl (.selector1 h seqToUnseq)

/-- The loop over the sixteen parts of the table, from `i` on. -/
def nextMapping (h : BlockHead) (inUse16 inUse : List Bool) (i : ℕ) : Option Next :=
  if i < 16 then do
    if ← inUse16[i]? then return .inl (.mapping2 h inUse16 inUse i 0)
    else nextMapping h inUse16 inUse (i + 1)
  else endMapping h inUse
termination_by 16 - i

def afterMapping1 (h : BlockHead) (inUse16 : List Bool) (uc : ℕ) : Option Next := do
  let inUse16 ← push 16 inUse16 (decide (uc = 1))
  if inUse16.length < 16 then return .inl (.mapping1 h inUse16)
  else nextMapping h inUse16 (List.replicate 256 false) 0

/-- Marks a byte whose bit is set. -/
def mark (inUse : List Bool) (k uc : ℕ) : Option (List Bool) :=
  if uc = 1 then write inUse k true else some inUse

def afterMapping2 (h : BlockHead) (inUse16 inUse : List Bool) (i j uc : ℕ) : Option Next := do
  let inUse ← mark inUse (i * 16 + j) uc
  if j + 1 < 16 then return .inl (.mapping2 h inUse16 inUse i (j + 1))
  else nextMapping h inUse16 inUse (i + 1)

/-! ## The selectors -/

/-- The block under "Undo the MTF values for the selectors". -/
def undoSelectors (nGroups : ℕ) (selectorMtf : List ℕ) : Option (List ℕ) := do
  let (_, selector) ← selectorMtf.foldlM (fun (pos, selector) v => do
    let tmp ← pos[v]?
    let pos ← write (← shiftUp pos 0 v) 0 tmp
    return (pos, selector ++ [tmp])) (List.range nGroups, [])
  return selector

def afterSelector3 (h : BlockHead) (seqToUnseq : List UInt8) (nGroups nSelectors : ℕ)
    (selectorMtf : List ℕ) (j uc : ℕ) : Option Next := do
  if uc = 0 then
    let selectorMtf ← push maxSelectors selectorMtf j
    if selectorMtf.length < nSelectors then
      return .inl (.selector3 h seqToUnseq nGroups nSelectors selectorMtf 0)
    else
      let selector ← undoSelectors nGroups selectorMtf
      return .inl (.coding1 h { seqToUnseq, nGroups, selector } [])
  else if j + 1 ≥ nGroups then return .inr .dataError
  else return .inl (.selector3 h seqToUnseq nGroups nSelectors selectorMtf (j + 1))

/-! ## The values -/

/-- `GET_MTF_VAL` where a group begins. -/
def newGroup (h : BlockHead) (c : Coding) (tables : List Table) (place : Place) (v : Values)
    (groupNo : ℤ) : Option Next := do
  let groupNo := groupNo + 1
  if groupNo ≥ c.selector.length then return .inr .dataError
  else
    let table ← tables[← c.selector[← index groupNo]?]?
    return .inl (.mtfBits h c tables place v { groupNo, groupPos := 50 - 1, table })

/-- `GET_MTF_VAL` as far as its first label. -/
def nextVal (h : BlockHead) (c : Coding) (tables : List Table) (place : Place) (v : Values)
    (g : Group) : Option Next :=
  if g.groupPos = 0 then newGroup h c tables place v g.groupNo
  else some (.inl (.mtfBits h c tables place v { g with groupPos := g.groupPos - 1 }))

def endBlock (h : BlockHead) (v : Values) : Option Next := do
  match ← finishBlock h v with
  | .output b s =>
      return .inr (.output b s { h.toStream with mtf := v.mtf, ll4 := b.arrays.ll4 h.ll4 })
  | .dataError => return .inr .dataError
  | .returnsTrue => return .inr .returnsTrue

def afterVal (h : BlockHead) (c : Coding) (tables : List Table) (place : Place) (v : Values)
    (g : Group) (nextSym : ℕ) : Option Next := do
  match ← handle c.seqToUnseq (100000 * h.blockSize100k) place v nextSym with
  | .next place v => nextVal h c tables place v g
  | .blockEnd v => endBlock h v
  | .dataError => return .inr .dataError

/-- The loop of `GET_MTF_VAL`, up to its label or to the value. -/
def afterBits (h : BlockHead) (c : Coding) (tables : List Table) (place : Place) (v : Values)
    (g : Group) (zn zvec : ℕ) : Option Next := do
  match ← g.table.table.lookup zn zvec with
  | .symbol nextSym => afterVal h c tables place v g nextSym
  | .more => return .inl (.mtfBit h c tables place v g (zn + 1) zvec)
  | .dataError => return .inr .dataError

/-! ## The coding tables -/

theorem minLenOf_pos (len : List CodeLength) : 0 < minLenOf (len.map Subtype.val) := by
  refine le_minLenOf (fun n hn => ?_) (by decide)
  obtain ⟨m, -, rfl⟩ := List.mem_map.mp hn
  exact m.property.1

/-- A turn of the loop under "Create the Huffman decoding tables". -/
def createTable (len : List CodeLength) : Option Table := do
  let length := len.map Subtype.val
  let table ← hbCreateDecodeTables length (minLenOf length) (maxLenOf length) length.length
  return { table, minLen := minLenOf length, minLen_pos := minLenOf_pos len }

/-- After the coding tables: the tables are created and the values begin. -/
def endCoding (h : BlockHead) (c : Coding) (lens : List (List CodeLength)) : Option Next := do
  let tables ← lens.mapM createTable
  let mtf ← h.mtf.init
  newGroup h c tables .first (Values.empty mtf) (-1)

/-- The check of `curr`, before `BZ_X_CODING_2`. -/
def checkCurr (h : BlockHead) (c : Coding) (lens : List (List CodeLength)) (len : List CodeLength)
    (curr : ℕ) : Next :=
  if hcurr : 1 ≤ curr ∧ curr ≤ 20 then .inl (.coding2 h c lens len ⟨curr, hcurr⟩)
  else .inr .dataError

def afterCoding2 (h : BlockHead) (c : Coding) (lens : List (List CodeLength))
    (len : List CodeLength) (curr : CodeLength) (uc : ℕ) : Option Next := do
  let alphaSize := c.seqToUnseq.length + 2
  if uc = 0 then
    let len ← push maxAlphaSize len curr
    if len.length < alphaSize then return checkCurr h c lens len curr
    else
      let lens := lens ++ [len]
      if lens.length < c.nGroups then return .inl (.coding1 h c lens) else endCoding h c lens
  else return .inl (.coding3 h c lens len curr)

def afterCoding3 (h : BlockHead) (c : Coding) (lens : List (List CodeLength))
    (len : List CodeLength) (curr : CodeLength) (uc : ℕ) : Next :=
  if uc = 0 then checkCurr h c lens len (curr + 1) else checkCurr h c lens len (curr - 1)

/-! ## The switch -/

/-- The code after a label, with the number that `GET_BITS` gives. -/
def after (fresh : Fresh) (smallDecompress : Bool) (s : Reading) (value : ℕ) : Option Next :=
  match s with
  | magic1 => if value ≠ 0x42 then some (.inr .dataErrorMagic) else some (.inl .magic2)
  | magic2 => if value ≠ 0x5a then some (.inr .dataErrorMagic) else some (.inl .magic3)
  | magic3 => if value ≠ 0x68 then some (.inr .dataErrorMagic) else some (.inl .magic4)
  | magic4 => startStream fresh smallDecompress value
  | blkhdr d i => afterBlkhdr d i value
  | bcrc d i crc => afterBcrc d i crc value
  | randbit d crc => some (.inl (.origPtr d crc (decide (value = 1)) 0 0))
  | origPtr d crc blockRandomised i ptr => afterOrigPtr d crc blockRandomised i ptr value
  | mapping1 h inUse16 => afterMapping1 h inUse16 value
  | mapping2 h inUse16 inUse i j => afterMapping2 h inUse16 inUse i j value
  | selector1 h seqToUnseq =>
      if value < 2 ∨ value > 6 then some (.inr .dataError)
      else some (.inl (.selector2 h seqToUnseq value))
  | selector2 h seqToUnseq nGroups =>
      if value < 1 then some (.inr .dataError)
      else some (.inl (.selector3 h seqToUnseq nGroups value [] 0))
  | selector3 h seqToUnseq nGroups nSelectors selectorMtf j =>
      afterSelector3 h seqToUnseq nGroups nSelectors selectorMtf j value
  | coding1 h c lens => checkCurr h c lens [] value
  | coding2 h c lens len curr => afterCoding2 h c lens len curr value
  | coding3 h c lens len curr => afterCoding3 h c lens len curr value
  | mtfBits h c tables place v g => afterBits h c tables place v g g.table.minLen value
  | mtfBit h c tables place v g zn zvec => afterBits h c tables place v g zn (2 * zvec + value)
  | endhdr d i => afterEndhdr d i value
  | ccrc i crc => afterCcrc i crc value

/-- `BZ2_decompress` as a machine that asks for bits. -/
def machine (fresh : Fresh) (smallDecompress : Bool) : BitMachine Reading Decoded where
  width := width
  width_pos := width_pos
  step s value := (after fresh smallDecompress s value).getD (.inr .outside)

end Reading

end StudyNotes.Bzip2
