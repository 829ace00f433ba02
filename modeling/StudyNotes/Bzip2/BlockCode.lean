/-
# The code of a block

The part of `BZ2_compressBlock` that writes a block, from the sorted rotations on.  The decoder
comes from its bits to a block that gives the same bytes, in memory of any contents and with
either version of its arrays.
-/

import StudyNotes.Bzip2.Receive
import StudyNotes.Bzip2.Tables

namespace StudyNotes.Bzip2

open StudyNotes.Checked StudyNotes.MoveToFront StudyNotes.Bits StudyNotes.BurrowsWheeler

/-! ## The code -/

/-- The loop of `BZ2_blockSort` that finds the block itself among its rotations; there is no
result where `origPtr` stays -1. -/
def findOrigPtr (arr1 : List UInt16) (nblock i : ℕ) : Option ℕ :=
  if i < nblock then do
    if (← ptrAt arr1 i) = 0 then return i else findOrigPtr arr1 nblock (i + 1)
  else none
termination_by nblock - i

/-- `sendMTFValues`. -/
def sendMTFValues (w : Writer) (inUse : List Bool) (nInUse : ℕ) (mtfFreq mtfv : List ℕ) :
    Option Writer := do
  let (lens, selector) ← chooseTables mtfFreq (nInUse + 2) mtfv
  sendCoded w inUse lens selector mtfv

/-- What `unseqToSeq` and `mtfFreq` hold when they are not in use. -/
structure Scratch where
  unseqToSeq : Vector UInt8 256
  mtfFreq : Vector ℕ 258

/-- A block in `BZ2_compressBlock`, with `arr1` as the sort leaves it. -/
def sendBlock (scratch : Scratch) (w : Writer) (block : List UInt8) (inUse : List Bool)
    (blockCRC : UInt32) (arr1 : List UInt16) : Option Writer := do
  let origPtr ← findOrigPtr arr1 block.length 0
  let w := [0x31, 0x41, 0x59, 0x26, 0x53, 0x59].foldl Writer.putUChar w
  let w := w.putUInt32 blockCRC
  let w := w.bit false
  let w := w.bsW 24 (.ofNat origPtr)
  let (v, nInUse) ←
    generateMTFValues block inUse scratch.unseqToSeq.toList arr1 scratch.mtfFreq.toList
  sendMTFValues w inUse nInUse v.mtfFreq ((v.arr1.take v.wr).map UInt16.toNat)

/-! ## Sorted rotations -/

/-- What the sort leaves in `ptr`: where the rotations of the block begin, in order. -/
def SortsBlock (block : List UInt8) (arr1 : List UInt16) : Prop :=
  ∃ ptr : List ℕ, ptr.Perm (List.range block.length) ∧
    (ptr.map (keys block).rotate).Pairwise (· ≤ ·) ∧
    ∀ (i p : ℕ), ptr[i]? = some p → ptrAt arr1 i = some p

section Sorted

variable {block : List UInt8} {arr1 : List UInt16} {ptr : List ℕ}

theorem findOrigPtr_eq (hptr : ∀ (i p : ℕ), ptr[i]? = some p → ptrAt arr1 i = some p)
    (hmem : 0 ∈ ptr) {i : ℕ} (hi : i ≤ ptr.idxOf 0) :
    findOrigPtr arr1 ptr.length i = some (ptr.idxOf 0) := by
  have hlt := List.idxOf_lt_length_of_mem hmem
  induction hleft : ptr.idxOf 0 - i generalizing i with
  | zero =>
      obtain rfl : i = ptr.idxOf 0 := by omega
      rw [findOrigPtr, if_pos hlt, hptr _ _ (getElem?_idxOf hmem)]
      rfl
  | succ left ih =>
      have hget : ptr[i]? = some ptr[i] := List.getElem?_eq_getElem (by omega)
      have hne : ptr[i] ≠ 0 := fun hzero =>
        getElem?_ne_of_lt_idxOf (show i < ptr.idxOf 0 by omega) (hzero ▸ hget)
      rw [findOrigPtr, if_pos (by omega), hptr _ _ hget]
      dsimp only [Option.bind_eq_bind, Option.bind_some]
      rw [if_neg hne]
      exact ih (by omega) (by omega)

/-- The bytes before the places where the rotations begin. -/
def lastColumn (block : List UInt8) (ptr : List ℕ) : List UInt8 :=
  ptr.map fun p => block[(p + block.length - 1) % block.length]?.getD 0

theorem getElem?_before {p : ℕ} (hp : p < block.length) :
    block[(p + block.length - 1) % block.length]? =
      some (block[(p + block.length - 1) % block.length]?.getD 0) := by
  have hlt := Nat.mod_lt (p + block.length - 1) (Nat.zero_lt_of_lt hp)
  rw [List.getElem?_eq_getElem hlt]
  rfl

theorem lastBytes_lastColumn (hperm : ptr.Perm (List.range block.length))
    (hptr : ∀ (i p : ℕ), ptr[i]? = some p → ptrAt arr1 i = some p) :
    LastBytes block arr1 (lastColumn block ptr) := by
  refine ⟨?_, fun i c hc => ?_⟩
  · rw [lastColumn, List.length_map, hperm.length_eq, List.length_range]
  · rw [lastColumn, List.getElem?_map, Option.map_eq_some_iff] at hc
    obtain ⟨p, hp, rfl⟩ := hc
    have hlt := List.mem_range.mp (hperm.mem_iff.mp (List.mem_of_getElem? hp))
    exact ⟨p, hlt, hptr i p hp, getElem?_before hlt⟩

/-- The rotations end in these bytes. -/
theorem lastColumn_rotate (hperm : ptr.Perm (List.range block.length)) :
    LastColumn (ptr.map (keys block).rotate) (keys (lastColumn block ptr)) := by
  have hkeys : keys (lastColumn block ptr) =
      ptr.map fun p => (block[(p + block.length - 1) % block.length]?.getD 0).toNat := List.map_map
  rw [LastColumn, hkeys, List.map_map, List.map_map]
  refine List.map_congr_left fun p hp => ?_
  have hlt := List.mem_range.mp (hperm.mem_iff.mp hp)
  show ((keys block).rotate p).getLast? =
    some (block[(p + block.length - 1) % block.length]?.getD 0).toNat
  have hplace : (block.length - 1 + p) % block.length = (p + block.length - 1) % block.length := by
    rw [show block.length - 1 + p = p + block.length - 1 by omega]
  rw [List.getLast?_eq_getElem?, List.length_rotate, length_keys,
    List.getElem?_rotate (by rw [length_keys]; omega), length_keys, hplace]
  exact keys_getElem? (getElem?_before hlt)

theorem sorted_rotate (hperm : ptr.Perm (List.range block.length))
    (hsorted : (ptr.map (keys block).rotate).Pairwise (· ≤ ·)) :
    Sorted (keys block) (ptr.map (keys block).rotate) := by
  refine ⟨?_, hsorted⟩
  rw [rotations, length_keys]
  exact hperm.map _

/-- The text is found again in the last column. -/
theorem rowByte_lastColumn (hperm : ptr.Perm (List.range block.length))
    (hsorted : (ptr.map (keys block).rotate).Pairwise (· ≤ ·)) (hmem : 0 ∈ ptr) {m : ℕ}
    (hm : m < block.length) :
    block[m]? = some (rowByte (lastColumn block ptr) (ptr.idxOf 0) m) := by
  have hstart : (ptr.map (keys block).rotate)[ptr.idxOf 0]? = some (keys block) := by
    rw [List.getElem?_map, getElem?_idxOf hmem, Option.map_some, List.rotate_zero]
  exact rowByte_eq (sorted_rotate hperm hsorted) (lastColumn_rotate hperm) hstart hm

end Sorted

/-! ## The values of a block -/

section Values

variable {arr1 : List UInt16} {eob zPend n : ℕ} {w : MtfWriter} {values ps : List ℕ}

theorem MtfWriter.Written.mtfv_eq (h : w.Written arr1 eob values) (heob : eob < 2 ^ 16) :
    (w.arr1.take w.wr).map UInt16.toNat = values := by
  refine List.ext_getElem? fun k => ?_
  rw [List.getElem?_map, List.getElem?_take, h.wr]
  by_cases hk : k < values.length
  · have hget : values[k]? = some values[k] := List.getElem?_eq_getElem hk
    have hle := h.le _ (List.getElem_mem hk)
    have hword : (UInt16.ofNat values[k]).toNat = values[k] := by
      rw [UInt16.toNat_ofNat', Nat.mod_eq_of_lt (by omega)]
    rw [if_pos hk, h.mtfv k _ hget, hget, Option.map_some, hword]
  · rw [if_neg hk, List.getElem?_eq_none (Nat.not_lt.mp hk)]
    rfl

theorem runValues_le_one : ∀ v ∈ runValues zPend, v ≤ 1 := by
  intro v hv
  obtain ⟨d, hd, rfl⟩ := List.mem_map.mp hv
  rcases BijectiveBinary.mem_digits hd with rfl | rfl
  · exact Nat.zero_le 1
  · exact Nat.le_refl 1

theorem length_valuesOf_le (zPend : ℕ) (ps : List ℕ) :
    (valuesOf zPend ps).length ≤ zPend + ps.length := by
  induction ps generalizing zPend with
  | nil => exact length_runValues_le zPend
  | cons p ps ih =>
      cases p with
      | zero =>
          have hrest := ih (zPend + 1)
          rw [valuesOf, List.length_cons]
          omega
      | succ p =>
          have hrun := length_runValues_le zPend
          have hrest := ih 0
          rw [valuesOf, List.length_append, List.length_cons, List.length_cons]
          omega

theorem valuesOf_lt (hpos : 0 < n) (hps : ∀ p ∈ ps, p < n) :
    ∀ v ∈ valuesOf zPend ps, v < n + 1 := by
  have hrun : ∀ (zPend : ℕ), ∀ v ∈ runValues zPend, v < n + 1 := by
    intro zPend v hv
    have hle := runValues_le_one v hv
    omega
  induction ps generalizing zPend with
  | nil => exact hrun zPend
  | cons p ps ih =>
      have hrest : ∀ zPend : ℕ, ∀ v ∈ valuesOf zPend ps, v < n + 1 := fun _ =>
        ih fun q hq => hps q (List.mem_cons_of_mem _ hq)
      have hp := hps p List.mem_cons_self
      cases p with
      | zero => exact hrest (zPend + 1)
      | succ p =>
          rw [valuesOf, List.forall_mem_append, List.forall_mem_cons]
          exact ⟨hrun zPend, Nat.succ_lt_succ hp, hrest 0⟩

end Values

/-! ## The block that the decoder comes to -/

/-- A block that is ready for output, with the bytes and the checksum of the encoder's. -/
structure Gives (block : List UInt8) (crc : UInt32) (d d' : Stream) (b : Block) (s : Output Fetch) :
    Prop where
  storedBlockCRC : b.storedBlockCRC = crc
  saveNblock : b.saveNblock = block.length
  begins : ∃ f, s.Begins b f ∧ ∀ (m : ℕ) (c : UInt8), block[m]? = some c → f m = c
  smallDecompress : d'.smallDecompress = d.smallDecompress
  blockSize100k : d'.blockSize100k = d.blockSize100k
  valid : d'.Valid

/-- From the header of a block on, the decoder uses up these bits. -/
def BlockCode (blockSize100k : ℕ) (block : List UInt8) (crc : UInt32) (bits : List Bool) : Prop :=
  ∀ (fresh : Reading.Fresh) (smallDecompress : Bool) (d : Stream), d.Valid →
    d.blockSize100k = blockSize100k → ∃ b s d', Gives block crc d d' b s ∧
      (Reading.machine fresh smallDecompress).Reads (.blkhdr1 d) bits (.inr (.output b s d'))

section Gives

variable {h : BlockHead} {v : Values} {seqToUnseq symbols : List UInt8}

theorem Values.Holds.returns_endBlock (hv : v.Holds seqToUnseq symbols) (hh : h.toStream.Valid)
    (hfits : v.ll.length ≤ 100000 * h.blockSize100k) (horig : h.origPtr < v.ll.length)
    (hrandom : h.blockRandomised = false) {block : List UInt8}
    (hlength : v.ll.length = block.length)
    (hblock : ∀ m < block.length, block[m]? = some (rowByte v.ll h.origPtr m)) :
    ∃ b s d', Gives block h.storedBlockCRC h.toStream d' b s ∧
      Reading.endBlock h v = some (.inr (.output b s d')) := by
  obtain ⟨r, hr, b, s, rfl, hcrc, hsave, -, hbegins⟩ :
      Returns (finishBlock h v) _ :=
    returns_finishBlock hv.counts horig hfits hh.le_nine fun hsmall =>
      Nat.le_trans hfits (hh.ll4 hsmall)
  have hend : Reading.endBlock h v = some (.inr (.output b s
      { h.toStream with mtf := v.mtf, ll4 := b.arrays.ll4 h.ll4 })) := by
    rw [Reading.endBlock, hr]
    rfl
  obtain ⟨next, hnext, hvalid⟩ := Reading.returns_endBlock hh ⟨hfits, symbols, hv⟩
  rw [hend] at hnext
  cases hnext
  refine ⟨b, s, { h.toStream with mtf := v.mtf, ll4 := b.arrays.ll4 h.ll4 },
    ⟨hcrc, hsave.trans hlength, ⟨_, hbegins, fun m c hc => ?_⟩, rfl, rfl, hvalid.1⟩, hend⟩
  have hm := (List.getElem?_eq_some_iff.mp hc).1
  rw [hblock m hm] at hc
  rw [hrandom, unmask, if_neg (by decide)]
  exact Option.some.inj hc

theorem byteOf_idxOf {alphabet : List UInt8} (hsize : alphabet.length ≤ 256) {c : UInt8}
    (hc : c ∈ alphabet) : byteOf alphabet (.ofNat (alphabet.idxOf c)) = c := by
  rw [byteOf, toNat_idxOf hc hsize, getElem?_idxOf hc]
  rfl

/-- The last column is read from its values. -/
theorem returns_handleAll_numbered {alphabet ll : List UInt8} {mtf : MtfArray UInt8} {nblockMAX : ℕ}
    (hempty : (Values.empty mtf).Holds alphabet (firstBytes alphabet.length))
    (hsize : alphabet.length ≤ 256) (hpos : 0 < alphabet.length) (hmem : ∀ c ∈ ll, c ∈ alphabet)
    (hroom : ll.length ≤ nblockMAX) (hmax : nblockMAX ≤ 900000) :
    Returns (handleAll alphabet nblockMAX .first (Values.empty mtf)
        (valuesOf 0 (places (firstBytes alphabet.length) (numbered alphabet ll)) ++
          [alphabet.length + 1])) fun r =>
      ∃ v symbols, r = .blockEnd v ∧ v.Holds alphabet symbols ∧ v.ll = ll := by
  have hnumbered : ∀ b ∈ numbered alphabet ll, b ∈ firstBytes alphabet.length := by
    intro b hb
    obtain ⟨c, hc, rfl⟩ := List.mem_map.mp hb
    rw [mem_firstBytes hsize, toNat_idxOf (hmem c hc) hsize]
    exact List.idxOf_lt_length_of_mem (hmem c hc)
  have hfirst : (firstBytes alphabet.length)[0]? = some 0 := by
    rw [firstBytes, List.getElem?_map, List.getElem?_range hpos]
    rfl
  have hlength : (numbered alphabet ll).length = ll.length := List.length_map _
  have hbytes : (numbered alphabet ll).map (byteOf alphabet) = ll := by
    rw [numbered, List.map_map]
    exact (List.map_congr_left fun c hc => byteOf_idxOf hsize (hmem c hc)).trans (List.map_id ll)
  have hroom' : (Values.empty mtf).ll.length + 0 + (numbered alphabet ll).length ≤ nblockMAX := by
    rw [hlength]
    show 0 + 0 + ll.length ≤ nblockMAX
    omega
  refine (hempty.returns_handleAll hsize hnumbered hfirst (.inl rfl) hroom' hmax).mono ?_
  rintro _ ⟨v, symbols, rfl, hv, hll⟩
  refine ⟨v, symbols, rfl, hv, hll.trans ?_⟩
  rw [hbytes]
  rfl

/-- The decoder reads the header of a block and its code. -/
theorem blockCode_of_coded {block ll : List UInt8} {inUse : List Bool} {crc : UInt32}
    {blockSize100k origPtr : ℕ} {lens : List (List ℕ)} {selector values : List ℕ}
    {tableAt : ℕ → CodeTable} (hinUse : inUse.length = 256)
    (hmem : ∀ c ∈ ll, c ∈ occurring inUse 256)
    (hvalues : values = valuesOf 0 (places (firstBytes (occurring inUse 256).length)
      (numbered (occurring inUse 256) ll)))
    (hlength : ll.length = block.length) (hsize : ll.length ≤ 100000 * blockSize100k)
    (horig : origPtr < ll.length)
    (hblock : ∀ m < block.length, block[m]? = some (rowByte ll origPtr m))
    (hchosen : Chosen ((occurring inUse 256).length + 2) lens selector
      (values ++ [(occurring inUse 256).length + 1]))
    (hvalid : ∀ (i t : ℕ) (len : List ℕ), selector[i]? = some t → lens[t]? = some len →
      (tableAt i).len = len ∧ (tableAt i).Valid ((occurring inUse 256).length + 2)) :
    BlockCode blockSize100k block crc (ofBytes [0x31, 0x41, 0x59, 0x26, 0x53, 0x59] ++
      (ofBytes (toBytes 4 crc.toNat) ++ (false :: (ofBytes (toBytes 3 origPtr) ++
        codedBits inUse lens selector (values ++ [(occurring inUse 256).length + 1]) tableAt)))) := by
  intro fresh smallDecompress d hd hn
  have hnine := hd.le_nine
  have halpha := length_occurring_le inUse 256
  have hused : occurring inUse 256 ≠ [] := by
    have hbyte := hmem _ (List.getElem_mem (Nat.zero_lt_of_lt horig))
    exact List.ne_nil_of_mem hbyte
  have hpos := List.length_pos_iff.mpr hused
  have hnumbered : ∀ b ∈ numbered (occurring inUse 256) ll,
      b ∈ firstBytes (occurring inUse 256).length := by
    intro b hb
    obtain ⟨c, hc, rfl⟩ := List.mem_map.mp hb
    rw [mem_firstBytes halpha, toNat_idxOf (hmem c hc) halpha]
    exact List.idxOf_lt_length_of_mem (hmem c hc)
  have hlt : ∀ x ∈ values, x < (occurring inUse 256).length + 1 := by
    rw [hvalues]
    refine valuesOf_lt hpos fun p hp => ?_
    have hplace := places_lt hnumbered p hp
    rw [length_firstBytes] at hplace
    exact hplace
  have hcount : (values ++ [(occurring inUse 256).length + 1]).length ≤ 900050 := by
    have hle := length_valuesOf_le 0 (places (firstBytes (occurring inUse 256).length)
      (numbered (occurring inUse 256) ll))
    rw [← hvalues, length_places, numbered, List.length_map] at hle
    rw [List.length_append, List.length_singleton]
    omega
  obtain ⟨mtf, hinit, hempty⟩ : Returns d.mtf.init _ :=
    returns_holds_empty hd.mtfa hd.mtfbase halpha
  obtain ⟨_, hhandle, v, symbols, rfl, hv, hll⟩ :
      Returns (handleAll _ (100000 * d.blockSize100k) .first (Values.empty mtf) _) _ :=
    returns_handleAll_numbered hempty halpha hpos hmem (by rw [hn]; exact hsize) (by omega)
  rw [← hvalues] at hhandle
  obtain ⟨b, s, d', hgives, hend⟩ := hv.returns_endBlock
    (h := ⟨d, crc, false, origPtr⟩) hd (by rw [hll, hn]; exact hsize) (by rw [hll]; exact horig) rfl
    (show v.ll.length = block.length by rw [hll]; exact hlength) (by rw [hll]; exact hblock)
  refine ⟨b, s, d', hgives, ?_⟩
  have hlast : Returns (Reading.endBlock _ v)
      (Reading.LeadsTo fresh smallDecompress [] (.inr (.output b s d'))) :=
    Returns.of_eq hend ⟨rfl, rfl⟩
  have hrest := Reading.leadsTo_coded (h := ⟨d, crc, false, origPtr⟩) hinUse hused hchosen
    hcount hvalid hlt hinit hhandle hlast
  rw [List.append_nil] at hrest
  exact Reading.leadsTo_blockMagic (Reading.leadsTo_bcrc crc
    (Reading.leadsTo_randbit (by omega) hnine hrest))

end Gives

section Send

variable {w : Writer} {bits : List Bool}

theorem Writer.Holds.putBytes (h : w.Holds bits) (bytes : List UInt8) :
    (bytes.foldl Writer.putUChar w).Holds (bits ++ ofBytes bytes) :=
  h.foldl fun c _ _ _ h => h.putUChar c

/-- The header of a block. -/
theorem Writer.Holds.blockHeader (h : w.Holds bits) (crc : UInt32) {origPtr : ℕ}
    (horig : origPtr < 2 ^ 24) :
    (((([0x31, 0x41, 0x59, 0x26, 0x53, 0x59].foldl Writer.putUChar w).putUInt32 crc).bit false).bsW 24
      (.ofNat origPtr)).Holds (bits ++ (ofBytes [0x31, 0x41, 0x59, 0x26, 0x53, 0x59] ++
        (ofBytes (toBytes 4 crc.toNat) ++ (false :: ofBytes (toBytes 3 origPtr))))) := by
  have hword : (UInt32.ofNat origPtr).toNat = origPtr :=
    UInt32.toNat_ofNat_of_lt' (Nat.lt_trans horig (by decide))
  have hptr := ((((h.putBytes [0x31, 0x41, 0x59, 0x26, 0x53, 0x59]).putUInt32 crc).bit false).bsW
    (n := 24) (by decide) (by decide) (by rw [hword]; exact horig))
  rw [hword] at hptr
  rw [ofBytes_toBytes, ofBytes_toBytes]
  simp only [List.append_assoc, List.singleton_append] at hptr
  exact hptr

/-- A block whose rotations are sorted is written as bits that lead back to it. -/
theorem Writer.Holds.returns_sendBlock (h : w.Holds bits) (scratch : Scratch) (crc : UInt32)
    {block : List UInt8} {inUse : List Bool} {arr1 : List UInt16} {blockSize100k : ℕ}
    (hmarks : Collector.Marks inUse block) (hne : block ≠ [])
    (hsize : block.length ≤ 100000 * blockSize100k) (hblock : blockSize100k ≤ 9)
    (hsort : SortsBlock block arr1) :
    Returns (sendBlock scratch w block inUse crc arr1) fun w => ∃ code,
      w.Holds (bits ++ code) ∧ BlockCode blockSize100k block crc code := by
  obtain ⟨ptr, hperm, hsorted, hptr⟩ := hsort
  have hpos := List.length_pos_iff.mpr hne
  have hlength : ptr.length = block.length := by rw [hperm.length_eq, List.length_range]
  have hzero : 0 ∈ ptr := hperm.mem_iff.mpr (List.mem_range.mpr hpos)
  have horig := List.idxOf_lt_length_of_mem hzero
  have hll := lastBytes_lastColumn hperm hptr
  have hcolumn : (lastColumn block ptr).length = block.length := hll.1
  have hmem : ∀ c ∈ lastColumn block ptr, c ∈ occurring inUse 256 := by
    intro c hc
    obtain ⟨p, hp, rfl⟩ := List.mem_map.mp hc
    have hlt := List.mem_range.mp (hperm.mem_iff.mp hp)
    have hin := List.mem_of_getElem? (getElem?_before hlt)
    rw [mem_occurring (Nat.le_refl 256), hmarks.2, decide_eq_true hin]
    exact ⟨UInt8.toNat_lt _, rfl⟩
  have hfits : block.length < arr1.length := by
    have hlast := hptr (ptr.length - 1) _ (List.getElem?_eq_getElem (by omega))
    obtain ⟨_, -, hlast⟩ := Option.bind_eq_some_iff.mp hlast
    obtain ⟨_, hsecond, -⟩ := Option.bind_eq_some_iff.mp hlast
    have hlt := (List.getElem?_eq_some_iff.mp hsecond).1
    omega
  have hfind : findOrigPtr arr1 block.length 0 = some (ptr.idxOf 0) := by
    rw [← hlength]
    exact findOrigPtr_eq hptr hzero (Nat.zero_le _)
  refine Returns.bind (Returns.of_eq hfind rfl) ?_
  rintro _ rfl
  refine Returns.bind (returns_generateMTFValues hmarks.1 scratch.unseqToSeq.size_toArray
    scratch.mtfFreq.size_toArray hfits hll hmem) ?_
  rintro ⟨v, nInUse⟩ ⟨rfl, hv⟩
  dsimp only at hv ⊢
  have halpha := length_occurring_le inUse 256
  rw [hv.mtfv_eq (by omega)]
  generalize hvalues : valuesOf 0 (places (firstBytes (occurring inUse 256).length)
    (numbered (occurring inUse 256) (lastColumn block ptr))) = values at hv ⊢
  have hcount : values.length ≤ block.length := by
    have hle := length_valuesOf_le 0 (places (firstBytes (occurring inUse 256).length)
      (numbered (occurring inUse 256) (lastColumn block ptr)))
    rw [hvalues, length_places, numbered, List.length_map, hcolumn] at hle
    omega
  have hfreq : (occurring inUse 256).length + 2 ≤ v.mtfFreq.length :=
    (List.getElem?_eq_some_iff.mp (hv.mtfFreq _ (Nat.le_refl _))).1
  have hvlt : ∀ x ∈ values ++ [(occurring inUse 256).length + 1],
      x < (occurring inUse 256).length + 2 := fun x hx => Nat.lt_succ_of_le (hv.le x hx)
  have hlast : (values ++ [(occurring inUse 256).length + 1]).length ≤ 900050 := by
    rw [List.length_append, List.length_singleton]
    omega
  have hmax : (occurring inUse 256).length + 2 ≤ maxAlphaSize := Nat.add_le_add_right halpha 2
  refine Returns.bind (returns_chooseTables hfreq (Nat.le_add_left 2 _) hmax
    (List.concat_ne_nil _ _) hvlt hlast) ?_
  rintro ⟨lens, selector⟩ hchosen
  have hheader := h.blockHeader crc (show ptr.idxOf 0 < 2 ^ 24 by omega)
  refine (hheader.returns_sendCoded hchosen (Nat.succ_pos _) hlast hvlt).mono ?_
  rintro w ⟨tableAt, hw, hvalid⟩
  rw [List.append_assoc] at hw
  refine ⟨_, hw, ?_⟩
  simp only [List.append_assoc, List.cons_append]
  exact blockCode_of_coded hmarks.1 hmem hvalues.symm hcolumn (by omega) (by omega)
    (fun m hm => rowByte_lastColumn hperm hsorted hzero hm) hchosen hvalid

end Send

/-! ## The parts by themselves -/

section Inverse

variable {block : List UInt8} {ptr : List ℕ} {h : BlockHead} {unzftab : List ℤ}

/-- If the rotations are sorted, the decoder finds the block in their last column, in either
version. -/
theorem invert_lastColumn (hperm : ptr.Perm (List.range block.length))
    (hsorted : (ptr.map (keys block).rotate).Pairwise (· ≤ ·)) (hne : block ≠ [])
    (hcounts : Counts unzftab (lastColumn block ptr)) (horig : h.origPtr = ptr.idxOf 0)
    (hfits : block.length ≤ 100000 * h.blockSize100k) (hvalid : h.toStream.Valid) :
    ∃ cftab arrays tPos f, makeCftab unzftab = some cftab ∧
      invert h (lastColumn block ptr) cftab = some (arrays, tPos) ∧
      Produces (arrays.get h.blockSize100k) tPos f ∧
      ∀ (m : ℕ) (c : UInt8), block[m]? = some c → f m = c := by
  have hzero : 0 ∈ ptr := hperm.mem_iff.mpr (List.mem_range.mpr (List.length_pos_iff.mpr hne))
  have hlength : (lastColumn block ptr).length = block.length := by
    rw [lastColumn, List.length_map, hperm.length_eq, List.length_range]
  have hrow : h.origPtr < (lastColumn block ptr).length := by
    rw [horig, lastColumn, List.length_map]
    exact List.idxOf_lt_length_of_mem hzero
  obtain ⟨cftab, hmake, hcftab⟩ := returns_makeCftab hcounts.2
  obtain ⟨⟨arrays, tPos⟩, hinvert, hproduces, -⟩ := returns_invert hcftab hrow
    (by rw [hlength]; exact hfits) hvalid.le_nine fun hsmall => by
      rw [hlength]
      exact Nat.le_trans hfits (hvalid.ll4 hsmall)
  refine ⟨cftab, arrays, tPos, _, hmake, hinvert, hproduces, fun m c hc => ?_⟩
  have hm := (List.getElem?_eq_some_iff.mp hc).1
  rw [rowByte_lastColumn hperm hsorted hzero hm, ← horig] at hc
  exact Option.some.inj hc

/-- The block `banana` and the order of its rotations. -/
def banana : List UInt8 := [0x62, 0x61, 0x6e, 0x61, 0x6e, 0x61]

def bananaPtr : List ℕ := [5, 3, 1, 0, 4, 2]

theorem invert_lastColumn_banana :
    ∃ cftab arrays tPos f,
      makeCftab ((List.range 256).map fun c =>
        if c = 0x61 then 3 else if c = 0x62 then 1 else if c = 0x6e then 2 else 0) = some cftab ∧
      invert ⟨⟨false, 1, ⟨.replicate 4096 0, .replicate 16 0⟩, []⟩, 0, false, 3⟩
        (lastColumn banana bananaPtr) cftab = some (arrays, tPos) ∧
      Produces (arrays.get 1) tPos f ∧ ∀ (m : ℕ) (c : UInt8), banana[m]? = some c → f m = c :=
  invert_lastColumn (by decide) (by decide +kernel) (by decide)
    ⟨by rw [List.length_map, List.length_range], by decide +kernel⟩ rfl (by decide)
    ⟨by decide, List.length_replicate, List.length_replicate, fun h => absurd h Bool.false_ne_true⟩

end Inverse

section Places

variable {block unseqToSeq ll : List UInt8} {inUse : List Bool} {arr1 : List UInt16}
  {mtfFreq : List ℕ} {nblockMAX : ℕ} {m : MtfArray UInt8}

/-- The values that the encoder makes of the last column, places in a list with the runs of zeros
shortened, are those that the decoder makes the column of. -/
theorem handleAll_generateMTFValues (hinUse : inUse.length = 256) (hunseq : unseqToSeq.length = 256)
    (hfreq : mtfFreq.length = 258) (hsize : block.length < arr1.length)
    (hll : LastBytes block arr1 ll) (hmem : ∀ c ∈ ll, c ∈ occurring inUse 256) (hne : ll ≠ [])
    (hroom : ll.length ≤ nblockMAX) (hmax : nblockMAX ≤ 900000) (hmtfa : m.mtfa.length = 4096)
    (hmtfbase : m.mtfbase.length = 16) :
    ∃ w nInUse mtf v, generateMTFValues block inUse unseqToSeq arr1 mtfFreq = some (w, nInUse) ∧
      m.init = some mtf ∧
      handleAll (occurring inUse 256) nblockMAX .first (Values.empty mtf)
        ((w.arr1.take w.wr).map UInt16.toNat) = some (.blockEnd v) ∧ v.ll = ll := by
  have hsize' := length_occurring_le inUse 256
  obtain ⟨⟨w, nInUse⟩, hw, rfl, hwritten⟩ :=
    returns_generateMTFValues hinUse hunseq hfreq hsize hll hmem
  obtain ⟨mtf, hinit, hempty⟩ : Returns m.init _ := returns_holds_empty hmtfa hmtfbase hsize'
  have hpos := List.length_pos_iff.mpr
    (List.ne_nil_of_mem (hmem _ (List.getElem_mem (List.length_pos_iff.mpr hne))))
  obtain ⟨_, hhandle, v, symbols, rfl, -, hv⟩ :
      Returns (handleAll _ nblockMAX .first (Values.empty mtf) _) _ :=
    returns_handleAll_numbered hempty hsize' hpos hmem hroom hmax
  refine ⟨w, _, mtf, v, hw, hinit, ?_, hv⟩
  rw [hwritten.mtfv_eq (by omega)]
  exact hhandle

/-- That order as it stands in `arr1`, two halves of a word to an entry. -/
def bananaArr1 : List UInt16 := [5, 0, 3, 0, 1, 0, 0, 0, 4, 0, 2, 0]

theorem lastBytes_banana : LastBytes banana bananaArr1 [0x6e, 0x6e, 0x62, 0x61, 0x61, 0x61] := by
  have hrows : ∀ i < 6, ∃ p < 6, ptrAt bananaArr1 i = some p ∧
      banana[(p + 6 - 1) % 6]? = [0x6e, 0x6e, 0x62, 0x61, 0x61, 0x61][i]? := by decide
  refine ⟨rfl, fun i c hc => ?_⟩
  obtain ⟨p, hp, hptr, hrow⟩ := hrows i (List.getElem?_eq_some_iff.mp hc).1
  exact ⟨p, hp, hptr, hrow.trans hc⟩

theorem handleAll_generateMTFValues_banana :
    ∃ w nInUse mtf v,
      generateMTFValues banana ((List.range 256).map fun c => decide (c ∈ [0x61, 0x62, 0x6e]))
          (.replicate 256 0) bananaArr1 (.replicate 258 0) = some (w, nInUse) ∧
      MtfArray.init ⟨.replicate 4096 0, .replicate 16 0⟩ = some mtf ∧
      handleAll (occurring ((List.range 256).map fun c => decide (c ∈ [0x61, 0x62, 0x6e])) 256)
        99981 .first (Values.empty mtf) ((w.arr1.take w.wr).map UInt16.toNat) =
          some (.blockEnd v) ∧
      v.ll = [0x6e, 0x6e, 0x62, 0x61, 0x61, 0x61] :=
  handleAll_generateMTFValues (by rw [List.length_map, List.length_range]) List.length_replicate
    List.length_replicate (by decide) lastBytes_banana (by decide +kernel) (by decide) (by decide)
    (by decide) List.length_replicate List.length_replicate

end Places

end StudyNotes.Bzip2
