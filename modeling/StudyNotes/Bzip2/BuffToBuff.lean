/-
# From one buffer to another

`BZ2_bzBuffToBuffCompress` and `BZ2_bzBuffToBuffDecompress`.  The first collects one block after
the other, each up to its limit, and writes them as a stream; a run that is cut by the end of a
block goes on in the next.  The second reads block after block and compares the checksums.
Together they give back what was put in.
-/

import StudyNotes.Bzip2.BlockCode
import StudyNotes.Bzip2.BzDecompress

namespace StudyNotes.Bzip2

open StudyNotes.Checked StudyNotes.MoveToFront StudyNotes.Bits StudyNotes.BurrowsWheeler

/-! ## Decompression -/

section Unpack

open Output

variable {crc : UInt32} {d d' : Stream} {b : Block} {o : Output Fetch} {runs : List RunOf}
  {blockSize100k : ℕ} {text : List UInt8} {combinedCRC : UInt32} {bits code : List Bool}

/-- The text of a block is written where there is enough space. -/
theorem Gives.write_text (h : Gives (codeOf runs) (checksum (textOf runs)) d d' b o)
    (hproper : Proper runs) (smallDecompress : Bool) (u : Unpacking) {availOut : ℕ}
    (hspace : (textOf runs).length ≤ availOut) :
    u.write smallDecompress b o d' availOut =
      (⟨.reading (.blkhdr1 d'), combineCRC u.calculatedCombinedCRC (checksum (textOf runs)),
        u.out ++ textOf runs⟩, availOut - (textOf runs).length) := by
  obtain ⟨f, hbegins, hf⟩ := h.begins
  have hrest : rest f b.saveNblock o.nblockUsed = (textOf runs, false) := by
    have hpre : codeOf runs = [] ++ codeOf runs := rfl
    rw [h.saveNblock, hbegins.nblockUsed]
    exact rest_eq hf hpre hproper
  have hpending : pending f b.saveNblock o = textOf runs :=
    (pending_of_zero hbegins.stateOutLen).trans (congrArg Prod.fst hrest)
  have hcrc : finaliseCRC ((textOf runs).foldl updateCRC o.calculatedBlockCRC) =
      checksum (textOf runs) := by
    rw [hbegins.calculatedBlockCRC]
    rfl
  rcases u.write_cases smallDecompress d' availOut ⟨hbegins.k0, hbegins.source⟩ hpending
    (congrArg Prod.snd hrest) with ⟨-, hwrite⟩ | ⟨hle, hcorrupt, -⟩
  · rw [hwrite, Unpacking.finish, hcrc, h.storedBlockCRC, if_neg]
    rintro (hfalse | hne)
    · cases hfalse
    · exact hne rfl
  · cases hcorrupt (Nat.le_antisymm hspace hle)

open Reading

/-- A call of `BZ2_decompress` reads what there is to be read. -/
theorem decode_eq {fresh : Fresh} {smallDecompress : Bool} {s : Reading} {result : Decoded}
    {left : List Bool} (hs : s.Valid)
    (h : (machine fresh smallDecompress).Reads s bits (.inr result)) {r : Reader}
    (hlive : r.bsLive < 32) (hr : r.bits = bits ++ left) :
    ∃ r', decode (machine fresh smallDecompress) s r = (.inr result, r') ∧ r'.bsLive < 32 ∧
      r'.bits = left := by
  have hreached : Reached (machine fresh smallDecompress) Reading.Valid s r.bits
      (decode (machine fresh smallDecompress) s r) :=
    reached_decode (fun _ hs => hs.width_le) (fun _ value _ hs => hs.step value) hs hlive
  have hrun := hreached.run_eq
  rw [hr, h.run_append_eq left] at hrun
  obtain ⟨hresult, hleft⟩ := Prod.mk.inj hrun
  exact ⟨_, Prod.ext hresult.symm rfl, hreached.live, hleft.symm⟩

/-- From the header of a block on, these bits are read to the end of the stream, and the text is
written. -/
def Unpacks (blockSize100k : ℕ) (text : List UInt8) (combinedCRC : UInt32) (bits : List Bool) :
    Prop :=
  ∀ (fresh : Fresh) (smallDecompress : Bool) (d : Stream), d.Valid →
    d.blockSize100k = blockSize100k → ∀ (r : Reader) (left : List Bool), r.bsLive < 32 →
    r.bits = bits ++ left → ∀ (out : List UInt8) (availOut : ℕ), text.length ≤ availOut →
      DState.StreamEnds (out ++ text) (DState.bzDecompress fresh smallDecompress
        ⟨⟨.reading (.blkhdr1 d), combinedCRC, out⟩, r, availOut⟩)

/-- The bits at the end of a stream. -/
def trailerBits (combinedCRC : UInt32) : List Bool :=
  ofBytes [0x17, 0x72, 0x45, 0x38, 0x50, 0x90] ++ ofBytes (toBytes 4 combinedCRC.toNat)

theorem unpacks_end (blockSize100k : ℕ) (combinedCRC : UInt32) :
    Unpacks blockSize100k [] combinedCRC (trailerBits combinedCRC) := by
  intro fresh smallDecompress d hd hn r left hlive hr out availOut hspace
  have hread : (machine fresh smallDecompress).Reads (.blkhdr d 0) (trailerBits combinedCRC) _ :=
    leadsTo_endMagic (leadsTo_ccrc combinedCRC)
  obtain ⟨r', hdecode, -⟩ := decode_eq (s := .blkhdr d 0) hd hread hlive hr
  have hturn : DState.turn fresh smallDecompress
      ⟨⟨.reading (.blkhdr d 0), combinedCRC, out⟩, r, availOut⟩ = _ := DState.turn_of_result hdecode
  have hstanding : (Decoded.streamEnd combinedCRC).standing combinedCRC = .ended .streamEnd :=
    congrArg Standing.ended (if_neg (not_not.mpr rfl))
  rw [hstanding] at hturn
  rw [DState.bzDecompress_of_inr hturn, List.append_nil]
  exact ⟨rfl, rfl⟩

theorem BlockCode.unpacks (h : BlockCode blockSize100k (codeOf runs) (checksum (textOf runs)) code)
    (hproper : Proper runs)
    (hrest : Unpacks blockSize100k text (combineCRC combinedCRC (checksum (textOf runs))) bits) :
    Unpacks blockSize100k (textOf runs ++ text) combinedCRC (code ++ bits) := by
  intro fresh smallDecompress d hd hn r left hlive hr out availOut hspace
  obtain ⟨b, o, d', hgives, hread⟩ := h fresh smallDecompress d hd hn
  rw [List.append_assoc] at hr
  rw [List.length_append] at hspace
  obtain ⟨r', hdecode, hlive', hr'⟩ := decode_eq (s := .blkhdr d 0) hd hread hlive hr
  have hturn : DState.turn fresh smallDecompress
      ⟨⟨.reading (.blkhdr d 0), combinedCRC, out⟩, r, availOut⟩ = _ := DState.turn_of_result hdecode
  have hwrite := hgives.write_text hproper smallDecompress ⟨.output b o d', combinedCRC, out⟩
    (show (textOf runs).length ≤ availOut by omega)
  have hall := hrest fresh smallDecompress d' hgives.valid (hgives.blockSize100k.trans hn) r' left
    hlive' hr' (out ++ textOf runs) (availOut - (textOf runs).length) (by omega)
  have hturn' : DState.turn fresh smallDecompress
      ⟨⟨(Decoded.output b o d').standing combinedCRC, combinedCRC, out⟩, r', availOut⟩ = _ :=
    DState.turn_of_output hwrite
  rw [DState.bzDecompress_of_inl hturn, DState.bzDecompress_of_inl hturn', ← List.append_assoc]
  exact hall

end Unpack

/-! ## Compression -/

/-- The fields of `EState` that last from block to block, with the bytes that were written at
`next_out`. -/
structure EState extends Collector, Writer where
  blockNo : ℕ
  blockSize100k : ℕ
  combinedCRC : UInt32
  out : List UInt8

namespace EState

def nblockMAX (s : EState) : ℕ := 100000 * s.blockSize100k - 19

/-- The bytes of `arr2`, which `block` points to. -/
def blockBytes (s : EState) : ℕ := 4 * (100000 * s.blockSize100k + 34)

/-- `prepare_new_block`. -/
def prepareNewBlock (s : EState) : EState :=
  { s with toCollector := s.toCollector.prepareNewBlock, zbits := [], blockNo := s.blockNo + 1 }

/-- `copy_output_until_stop` where there is space for all bytes of `zbits`. -/
def copyOutputUntilStop (s : EState) : EState := { s with out := s.out ++ s.zbits }

/-- "If this is the first block, create the stream header." -/
def streamHeader (s : EState) : Writer :=
  if s.blockNo = 1 then
    [0x42, 0x5a, 0x68, .ofNat (0x30 + s.blockSize100k)].foldl Writer.putUChar s.toWriter.initWrite
  else s.toWriter

/-- "If this is the last block, add the stream trailer." -/
def streamTrailer (w : Writer) (combinedCRC : UInt32) : Writer :=
  let w := [0x17, 0x72, 0x45, 0x38, 0x50, 0x90].foldl Writer.putUChar w
  let w := w.putUInt32 combinedCRC
  { w with zbits := w.finishWrite }

section Code

variable (sort : List UInt8 → List UInt16) (scratch : ℕ → Scratch)

/-- `BZ2_compressBlock`, with a sort and with what the scratch arrays hold at each block. -/
def compressBlock (s : EState) (isLastBlock : Bool) : Option EState := do
  let s : EState :=
    if s.block.length > 0 then
      let blockCRC := finaliseCRC s.blockCRC
      { s with
        blockCRC, combinedCRC := combineCRC s.combinedCRC blockCRC
        zbits := if s.blockNo > 1 then [] else s.zbits }
    else s
  let w := s.streamHeader
  let w ←
    if s.block.length > 0 then
      sendBlock (scratch s.blockNo) w s.block s.inUse s.blockCRC (sort s.block)
    else pure w
  return { s with toWriter := if isLastBlock then streamTrailer w s.combinedCRC else w }

/-- `handle_compress` in the mode `BZ_M_FINISHING`, where there is space for all of the output.
Every turn takes some of the input, so that `turns` does not run out. -/
def handleCompress : ℕ → EState → List UInt8 → Option EState
  | 0, _, _ => none
  | turns + 1, s, nextIn => do
      let (collector, nextIn) ←
        s.toCollector.copyInputUntilStop s.nblockMAX s.blockBytes nextIn
      if nextIn = [] then
        let collector ← collector.flushRL s.blockBytes
        let s ← compressBlock sort scratch { s with toCollector := collector } true
        return s.copyOutputUntilStop
      else if collector.block.length ≥ s.nblockMAX then
        let s ← compressBlock sort scratch { s with toCollector := collector } false
        handleCompress turns s.copyOutputUntilStop.prepareNewBlock nextIn
      else handleCompress turns { s with toCollector := collector } nextIn

/-- What `BZ2_bzCompressInit` makes of some memory. -/
def compressInit (memory : EState) (blockSize100k : ℕ) : EState :=
  prepareNewBlock
    { memory with
      toCollector := memory.toCollector.initRL, blockNo := 0, blockSize100k, combinedCRC := 0
      out := [] }

end Code

section Pack

variable {sort : List UInt8 → List UInt16} {scratch : ℕ → Scratch} {s : EState}
  {bits : List Bool} {runs : List RunOf}

/-- The bits of the stream before a block. -/
def Sent (s : EState) (bits : List Bool) : Prop :=
  1 ≤ s.blockNo ∧ s.zbits = [] ∧ ∃ code, s.streamHeader.Holds code ∧ bits = ofBytes s.out ++ code

/-- The rotations of every block that there can be are sorted. -/
def Sorts (sort : List UInt8 → List UInt16) : Prop :=
  ∀ block, block ≠ [] → block.length ≤ 900000 → SortsBlock block (sort block)

/-- A block is written, of which the decoder makes its text. -/
theorem returns_compressBlock (hsort : Sorts sort) (hs : s.Sent bits)
    (hstored : s.toCollector.Stored runs) (hne : s.block ≠ [])
    (hsize : s.block.length ≤ 100000 * s.blockSize100k) (hle : s.blockSize100k ≤ 9)
    (isLastBlock : Bool) :
    Returns (s.compressBlock sort scratch isLastBlock) fun s' => ∃ w sent code,
      s'.toCollector = { s.toCollector with blockCRC := finaliseCRC s.blockCRC } ∧
      s'.blockNo = s.blockNo ∧ s'.blockSize100k = s.blockSize100k ∧
      s'.combinedCRC = combineCRC s.combinedCRC (checksum (textOf runs)) ∧ s'.out = s.out ∧
      s'.toWriter = (if isLastBlock then streamTrailer w s'.combinedCRC else w) ∧
      w.Holds sent ∧ bits ++ code = ofBytes s.out ++ sent ∧
      BlockCode s.blockSize100k (codeOf runs) (checksum (textOf runs)) code := by
  obtain ⟨-, hzbits, sent, hsent, rfl⟩ := hs
  have hpos : s.block.length > 0 := List.length_pos_iff.mpr hne
  have hcrc : finaliseCRC s.blockCRC = checksum (textOf runs) := congrArg finaliseCRC hstored.crc
  have hclear : (if s.blockNo > 1 then [] else s.zbits) = s.zbits := by
    rw [hzbits]
    exact ite_self _
  rw [compressBlock]
  dsimp only
  rw [if_pos hpos, hclear]
  dsimp only
  rw [if_pos hpos]
  have hheader : (streamHeader
      { s with blockCRC := finaliseCRC s.blockCRC,
               combinedCRC := combineCRC s.combinedCRC (finaliseCRC s.blockCRC) }).Holds sent := hsent
  refine Returns.bind (hheader.returns_sendBlock (scratch s.blockNo) (finaliseCRC s.blockCRC)
    hstored.inUse hne hsize hle (hsort _ hne (by omega))) ?_
  rintro w ⟨code, hw, hcode⟩
  refine Returns.pure ⟨w, sent ++ code, code, rfl, rfl, rfl, ?_, rfl, rfl, hw, ?_, ?_⟩
  · rw [← hcrc]
  · exact List.append_assoc _ _ _
  · rw [← hcrc, ← hstored.block]
    exact hcode

theorem holds_streamTrailer {w : Writer} (h : w.Holds bits) (combinedCRC : UInt32) :
    ∃ padding, ofBytes (streamTrailer w combinedCRC).zbits =
      bits ++ (trailerBits combinedCRC ++ List.replicate padding false) := by
  obtain ⟨padding, -, hfinish⟩ :=
    ((h.putBytes [0x17, 0x72, 0x45, 0x38, 0x50, 0x90]).putUInt32 combinedCRC).finishWrite
  refine ⟨padding, hfinish.trans ?_⟩
  rw [trailerBits, ofBytes_toBytes]
  simp only [List.append_assoc]

theorem codeOf_eq_nil (hproper : Proper runs) (hnil : codeOf runs = []) : runs = [] := by
  cases runs with
  | nil => rfl
  | cons run runs =>
      have hpos := (hproper.1 run List.mem_cons_self).1
      rw [codeOf, List.flatMap_cons, List.append_eq_nil_iff, RunOf.code] at hnil
      obtain ⟨hcode, -⟩ := hnil
      split at hcode
      · rw [List.replicate_eq_nil_iff] at hcode
        exact absurd hcode (Nat.ne_of_gt hpos)
      · exact absurd (List.append_eq_nil_iff.mp hcode).2 (List.cons_ne_nil _ _)

/-- The last block, which can be empty, and the end of the stream. -/
theorem returns_lastBlock (hsort : Sorts sort) (hs : s.Sent bits)
    (hstored : s.toCollector.Stored runs) (hproper : Proper runs)
    (hsize : s.block.length ≤ 100000 * s.blockSize100k) (hle : s.blockSize100k ≤ 9) :
    Returns (s.compressBlock sort scratch true) fun s' => ∃ code padding,
      ofBytes s'.copyOutputUntilStop.out = bits ++ (code ++ List.replicate padding false) ∧
      Unpacks s.blockSize100k (textOf runs) s.combinedCRC code := by
  by_cases hne : s.block = []
  · obtain ⟨-, -, sent, hsent, rfl⟩ := hs
    have hruns := codeOf_eq_nil hproper (hstored.block.symm.trans hne)
    have hnone : ¬s.block.length > 0 := by
      rw [hne]
      exact Nat.lt_irrefl 0
    rw [compressBlock]
    dsimp only
    rw [if_neg hnone, if_neg hnone]
    obtain ⟨padding, htrailer⟩ := holds_streamTrailer hsent s.combinedCRC
    refine Returns.pure ⟨trailerBits s.combinedCRC, padding, ?_, ?_⟩
    · show ofBytes (s.out ++ (streamTrailer s.streamHeader s.combinedCRC).zbits) = _
      rw [ofBytes_append, htrailer]
      simp only [List.append_assoc]
    · rw [hruns]
      exact unpacks_end _ _
  · refine (returns_compressBlock hsort hs hstored hne hsize hle true).mono ?_
    rintro s' ⟨w, sent, code, -, -, -, hcrc, hout, hw, hsent, hbits, hcode⟩
    obtain ⟨padding, htrailer⟩ := holds_streamTrailer hsent s'.combinedCRC
    refine ⟨code ++ trailerBits s'.combinedCRC, padding, ?_, ?_⟩
    · show ofBytes (s'.out ++ s'.toWriter.zbits) = _
      rw [ofBytes_append, hout, hw, if_pos rfl, htrailer, ← List.append_assoc, ← hbits]
      simp only [List.append_assoc]
    · have hend := unpacks_end s.blockSize100k s'.combinedCRC
      rw [hcrc] at hend ⊢
      have hall := hcode.unpacks hproper hend
      rw [List.append_nil] at hall
      exact hall

/-- The bytes of the stream are handed on, and the bits that do not fill one stay. -/
theorem Holds.handOn {w : Writer} (h : w.Holds bits) :
    ∃ code, Writer.Holds { w with zbits := [] } code ∧ bits = ofBytes w.zbits ++ code := by
  obtain ⟨hle, x, hx, hbuff, rfl⟩ := h
  exact ⟨_, ⟨hle, x, hx, hbuff, rfl⟩, rfl⟩

theorem holds_prepareNewBlock {c : Collector} (h : c.Holds runs) : c.prepareNewBlock.Holds [] := by
  have hempty := (Collector.holds_init c).toStored
  refine ⟨⟨hempty.block, hempty.crc, hempty.inUse⟩, ?_, fun hidle => ⟨(h.idle hidle).1, rfl⟩⟩
  refine ⟨fun run hrun => h.proper.1 run (List.mem_append_right _ hrun), ?_⟩
  exact (List.isChain_append.mp h.proper.2).2.1

/-- A full block is written, and the next one begins with the run that is open. -/
theorem returns_fullBlock (hsort : Sorts sort) (hs : s.Sent bits) {c : Collector}
    (hc : c.Holds runs) (hne : c.block ≠ [])
    (hsize : c.block.length ≤ 100000 * s.blockSize100k) (hle : s.blockSize100k ≤ 9) :
    Returns (compressBlock sort scratch { s with toCollector := c } false) fun s' =>
      ∃ next code, next = s'.copyOutputUntilStop.prepareNewBlock ∧ next.Sent (bits ++ code) ∧
        next.toCollector.Holds [] ∧ next.pending = c.pending ∧
        next.blockSize100k = s.blockSize100k ∧
        next.combinedCRC = combineCRC s.combinedCRC (checksum (textOf runs)) ∧
        BlockCode s.blockSize100k (codeOf runs) (checksum (textOf runs)) code := by
  refine (returns_compressBlock (s := { s with toCollector := c }) hsort hs hc.toStored hne hsize
    hle false).mono ?_
  rintro s' ⟨w, sent, code, hcollector, hno, hblocks, hcrc, hout, hw, hsent, hbits, hcode⟩
  obtain ⟨rest, hrest, hsplit⟩ := Holds.handOn hsent
  have hw' : s'.toWriter = w := hw
  refine ⟨_, code, rfl, ⟨Nat.le_add_left 1 _, rfl, rest, ?_, ?_⟩, ?_, ?_, hblocks, hcrc, hcode⟩
  · have hlater : ¬s'.blockNo + 1 = 1 := by
      have hfirst := hs.1
      dsimp only at hno
      omega
    show Writer.Holds (if s'.blockNo + 1 = 1 then _ else _) rest
    rw [if_neg hlater]
    show Writer.Holds { s'.toWriter with zbits := [] } rest
    rw [hw']
    exact hrest
  · show bits ++ code = ofBytes (s'.out ++ s'.toWriter.zbits) ++ rest
    rw [hbits, hout, hw', ofBytes_append, hsplit, List.append_assoc]
  · show s'.toCollector.prepareNewBlock.Holds []
    rw [hcollector]
    show c.prepareNewBlock.Holds []
    exact holds_prepareNewBlock hc
  · show s'.toCollector.pending = _
    rw [hcollector]
    rfl

/-- All of the input is written as a stream. -/
theorem returns_handleCompress (hsort : Sorts sort) {turns : ℕ} {nextIn : List UInt8}
    (hs : s.Sent bits) (hholds : s.toCollector.Holds []) (hpos : 1 ≤ s.blockSize100k)
    (hle : s.blockSize100k ≤ 9) (hturns : nextIn.length < turns) :
    Returns (handleCompress sort scratch turns s nextIn) fun s' => ∃ code padding,
      ofBytes s'.out = bits ++ (code ++ List.replicate padding false) ∧
      Unpacks s.blockSize100k (textOf s.pending ++ nextIn) s.combinedCRC code := by
  induction turns generalizing s bits nextIn with
  | zero => exact absurd hturns (Nat.not_lt_zero _)
  | succ turns ih =>
      have hnone : s.block.length = 0 := congrArg List.length hholds.block
      have hmax : s.nblockMAX + 19 = 100000 * s.blockSize100k := by
        rw [nblockMAX]
        omega
      have hbytes : s.blockBytes = 4 * (100000 * s.blockSize100k + 34) := rfl
      refine Returns.bind (hholds.returns_copyInputUntilStop (show s.nblockMAX + 4 ≤ s.blockBytes by
        omega) (by omega) nextIn) ?_
      rintro ⟨c, left⟩ ⟨runs, taken, hc, rfl, htext, hlength, hstart, hstop⟩
      rw [List.nil_append] at htext
      dsimp only at hlength hstart hstop htext ⊢
      by_cases hleft : left = []
      · rw [if_pos hleft]
        have hroom : c.block.length + 5 ≤ s.blockBytes := by omega
        refine Returns.bind (hc.returns_flushRL hroom) ?_
        rintro c' ⟨hstored, -⟩
        have hgrown := Collector.length_codeOf_append_le runs (Collector.length_pending_le c)
        rw [← hstored.block, ← hc.block] at hgrown
        refine Returns.bind (returns_lastBlock (s := { s with toCollector := c' }) hsort hs hstored
          hc.proper (show c'.block.length ≤ 100000 * s.blockSize100k by omega) hle) ?_
        rintro s' ⟨code, padding, hout, hcode⟩
        refine Returns.pure ⟨code, padding, hout, ?_⟩
        rw [hleft, List.append_nil, ← htext]
        exact hcode
      · have hfull := hstop hleft
        have htaken : taken ≠ [] := by
          intro hnil
          rw [hstart hnil] at hfull
          omega
        have hmore := List.length_pos_iff.mpr htaken
        have hne : c.block ≠ [] := by
          rw [← List.length_pos_iff]
          omega
        rw [List.length_append] at hturns
        rw [if_neg hleft, if_pos hfull]
        refine Returns.bind (returns_fullBlock hsort hs hc hne (by omega) hle) ?_
        rintro s' ⟨next, code, hnext, hsent, hholds', hpending, hsize, hcrc, hcode⟩
        rw [← hnext]
        have hproper : Proper runs :=
          ⟨fun run hrun => hc.proper.1 run (List.mem_append_left _ hrun),
            (List.isChain_append.mp hc.proper.2).1⟩
        refine (ih hsent hholds' (by rw [hsize]; exact hpos) (by rw [hsize]; exact hle)
          (show left.length < turns by omega)).mono ?_
        rintro s'' ⟨later, padding, hall, hunpacks⟩
        rw [hsize, hpending] at hunpacks
        refine ⟨code ++ later, padding, ?_, ?_⟩
        · rw [hall]
          simp only [List.append_assoc]
        · have hrest' : Unpacks s.blockSize100k (textOf c.pending ++ left)
              (combineCRC s.combinedCRC (checksum (textOf runs))) later := by
            rw [← hcrc]
            exact hunpacks
          have hblock := hcode.unpacks hproper hrest'
          have htext' : textOf runs ++ (textOf c.pending ++ left) =
              textOf s.pending ++ (taken ++ left) := by
            rw [← List.append_assoc, ← List.append_assoc, ← htext, textOf, textOf, textOf,
              List.flatMap_append]
          rw [htext'] at hblock
          exact hblock

end Pack

end EState

/-! ## From one buffer to another -/

open Reading

section Buffers

variable {fresh : Fresh} {smallDecompress : Bool}

/-- The bits are read to the state they lead to. -/
theorem decode_of_reads {s s' : Reading} {bits left : List Bool} (hs : s.Valid)
    (h : (machine fresh smallDecompress).Reads s bits (.inl s')) {r : Reader}
    (hlive : r.bsLive < 32) (hr : r.bits = bits ++ left) :
    ∃ r', decode (machine fresh smallDecompress) s r =
        decode (machine fresh smallDecompress) s' r' ∧ r'.bsLive < 32 ∧ r'.bits = left := by
  generalize hnext : (Sum.inl s' : Next) = next at h
  induction h generalizing r with
  | refl s =>
      cases hnext
      exact ⟨r, rfl, hlive, hr⟩
  | @step s t bits later _ hlength hstep _ ih =>
      have hwidth : s.width ≤ 24 := hs.width_le
      have henough : s.width ≤ r.bits.length := by
        rw [hr, List.length_append, List.length_append, hlength]
        show s.width ≤ s.width + _ + _
        omega
      obtain ⟨v, r', hget, hlive', hv, hbits⟩ := Reader.getBits_of_le hwidth hlive henough
      have hsplit : toBits s.width v.toNat ++ r'.bits = bits ++ (later ++ left) := by
        rw [← List.append_assoc, ← hr]
        exact hbits.symm
      obtain ⟨rfl, hr'⟩ := List.append_inj hsplit (by rw [length_toBits]; exact hlength.symm)
      rw [ofBits_toBits hv] at hstep
      obtain ⟨r'', hdecode, hrest⟩ := ih (hs.step _ hstep) hlive' hr' hnext
      refine ⟨r'', ?_, hrest⟩
      rw [decode_of_some hget, hstep]
      exact hdecode
  | last => cases hnext

theorem valid_streamOf {blockSize100k : ℕ} (hle : blockSize100k ≤ 9) :
    (streamOf fresh smallDecompress blockSize100k).Valid := by
  refine ⟨hle, ?_, ?_, fun hsmall => ?_⟩
  · rw [streamOf, List.length_map, List.length_range]
  · rw [streamOf, List.length_map, List.length_range]
  · dsimp only [streamOf] at hsmall ⊢
    rw [if_pos hsmall, List.length_map, List.length_range]
    omega

variable (fresh smallDecompress) in
/-- The header of a stream leads to its first block. -/
theorem bzDecompress_header {blockSize100k : ℕ} {bits left : List Bool} {text : List UInt8}
    (hpos : 1 ≤ blockSize100k) (hle : blockSize100k ≤ 9)
    (h : Unpacks blockSize100k text 0 bits) {r : Reader} (hlive : r.bsLive < 32)
    (hr : r.bits = ofBytes [0x42, 0x5a, 0x68, .ofNat (0x30 + blockSize100k)] ++ (bits ++ left))
    {availOut : ℕ} (hspace : text.length ≤ availOut) :
    DState.StreamEnds text (DState.bzDecompress fresh smallDecompress
      ⟨⟨.reading .magic1, 0, []⟩, r, availOut⟩) := by
  have hread : (machine fresh smallDecompress).Reads magic1
      (ofBytes [0x42, 0x5a, 0x68, .ofNat (0x30 + blockSize100k)] ++ [])
      (.inl (.blkhdr (streamOf fresh smallDecompress blockSize100k) 0)) :=
    leadsTo_streamHeader hpos hle (.refl _)
  rw [List.append_nil] at hread
  obtain ⟨r', hdecode, hlive', hr'⟩ := decode_of_reads (s := magic1) trivial hread hlive hr
  have hall := h fresh smallDecompress (streamOf fresh smallDecompress blockSize100k)
    (valid_streamOf hle) rfl r' left hlive' hr' [] availOut hspace
  have hturn : DState.turn fresh smallDecompress ⟨⟨.reading .magic1, 0, []⟩, r, availOut⟩ =
      DState.turn fresh smallDecompress ⟨⟨.reading (.blkhdr1
        (streamOf fresh smallDecompress blockSize100k)), 0, []⟩, r', availOut⟩ := by
    rw [DState.turn, DState.turn]
    dsimp only
    rw [hdecode]
  rw [DState.bzDecompress_of_turn_eq hturn]
  exact hall

end Buffers

/-- What the functions from buffer to buffer return, with the bytes in `dest`. -/
inductive BuffResult where
  | ok (dest : List UInt8)
  | outbuffFull
  | unexpectedEof
  | sequenceError
  | paramError
  | dataErrorMagic
  | dataError
  deriving DecidableEq

/-- `BZ2_bzBuffToBuffCompress`, with a sort and with what the memory holds that it takes.  Without
input and space there is no progress, which is an error of its own. -/
def bzBuffToBuffCompress (sort : List UInt8 → List UInt16) (scratch : ℕ → Scratch) (memory : EState)
    (destLen : ℕ) (source : List UInt8) (blockSize100k verbosity workFactor : ℤ) :
    Option BuffResult :=
  if blockSize100k < 1 ∨ blockSize100k > 9 ∨ verbosity < 0 ∨ verbosity > 4 ∨ workFactor < 0 ∨
      workFactor > 250 then some .paramError
  else do
    let s ← EState.handleCompress sort scratch (source.length + 1)
      (EState.compressInit memory blockSize100k.toNat) source
    if source = [] ∧ destLen = 0 then return .sequenceError
    else if s.out.length > destLen then return .outbuffFull
    else return .ok s.out

/-- `BZ2_bzBuffToBuffDecompress`. -/
def bzBuffToBuffDecompress (fresh : Fresh) (destLen : ℕ) (source : List UInt8)
    (small verbosity : ℤ) : Option BuffResult :=
  if small ≠ 0 ∧ small ≠ 1 ∨ verbosity < 0 ∨ verbosity > 4 then some .paramError
  else
    let s := DState.bzDecompress fresh (small = 1)
      { DState.init with reader := { Reader.init with nextIn := source }, availOut := destLen }
    match s.standing with
    | .ended .streamEnd => some (.ok s.out)
    | .ended .dataErrorMagic => some .dataErrorMagic
    | .ended .dataError => some .dataError
    -- The first of these is not reached, the second is an access outside an array.
    | .ended .returnsTrue => none
    | .ended .outside => none
    | _ => some (if s.availOut > 0 then .unexpectedEof else .outbuffFull)

/-- What is compressed is decompressed again, in either version, if the sort sorts and the buffers
are large enough. -/
theorem bzBuffToBuffDecompress_compress {sort : List UInt8 → List UInt16} (hsort : EState.Sorts sort)
    (scratch : ℕ → Scratch) (memory : EState) (source : List UInt8)
    {blockSize100k verbosity workFactor : ℤ} (hblock : 1 ≤ blockSize100k ∧ blockSize100k ≤ 9)
    (hverbosity : 0 ≤ verbosity ∧ verbosity ≤ 4) (hwork : 0 ≤ workFactor ∧ workFactor ≤ 250) :
    ∃ dest, (∀ destLen, dest.length ≤ destLen →
        bzBuffToBuffCompress sort scratch memory destLen source blockSize100k verbosity workFactor =
          some (.ok dest)) ∧
      ∀ (fresh : Fresh) (destLen : ℕ) (small verbosity' : ℤ), small = 0 ∨ small = 1 →
        0 ≤ verbosity' ∧ verbosity' ≤ 4 → source.length ≤ destLen →
        bzBuffToBuffDecompress fresh destLen dest small verbosity' = some (.ok source) := by
  obtain ⟨n, rfl⟩ := Int.eq_ofNat_of_zero_le (show 0 ≤ blockSize100k by omega)
  generalize hinit : EState.compressInit memory n = s
  have hsent : s.Sent (ofBytes [0x42, 0x5a, 0x68, .ofNat (0x30 + n)]) := by
    rw [← hinit]
    refine ⟨Nat.le_refl 1, rfl, _, ?_, rfl⟩
    exact Writer.Holds.putBytes (Writer.holds_initWrite _) _
  have hholds : s.toCollector.Holds [] := by
    rw [← hinit]
    exact Collector.holds_init _
  have hsize : s.blockSize100k = n := by
    rw [← hinit]
    rfl
  have hcrc : s.combinedCRC = 0 := by
    rw [← hinit]
    rfl
  have hpending : s.pending = [] := by
    rw [← hinit]
    rfl
  obtain ⟨s', hs', code, padding, hout, hunpacks⟩ :
      Returns (EState.handleCompress sort scratch (source.length + 1) s source) _ :=
    EState.returns_handleCompress hsort hsent hholds (by omega) (by omega)
      (Nat.lt_succ_self source.length)
  rw [hsize, hcrc, hpending] at hunpacks
  have hbits : 8 * s'.out.length = 32 + (code.length + padding) := by
    rw [← length_ofBytes, hout]
    simp
  refine ⟨s'.out, fun destLen hlen => ?_, fun fresh destLen small verbosity' hsmall hv hlen => ?_⟩
  · rw [bzBuffToBuffCompress, if_neg (by omega), Int.toNat_natCast, hinit, hs']
    dsimp only [Option.bind_eq_bind, Option.bind_some]
    rw [if_neg (by omega), if_neg (by omega)]
    rfl
  · obtain ⟨hstanding, htext⟩ := bzDecompress_header fresh (small = 1)
      (r := { Reader.init with nextIn := s'.out }) (by omega) (by omega) hunpacks
      (show 0 < 32 by decide) hout hlen
    rw [bzBuffToBuffDecompress, if_neg (by omega)]
    change (DState.bzDecompress fresh (small = 1)
      { DState.init with
        reader := { Reader.init with nextIn := s'.out }, availOut := destLen }).standing = _
      at hstanding
    dsimp only
    rw [hstanding]
    exact congrArg (fun text => some (BuffResult.ok text)) htext

/-! ## A sort -/

/-- The rotations of a block in order, by the sort of the standard library. -/
def sortRotations (block : List UInt8) : List UInt16 :=
  ((List.range block.length).mergeSort fun p q =>
      decide ((keys block).rotate p ≤ (keys block).rotate q)).flatMap
    fun p => [.ofNat p, .ofNat (p / 2 ^ 16)]

theorem ptrAt_flatMap {ptr : List ℕ} (hptr : ∀ p ∈ ptr, p < 2 ^ 32) {i p : ℕ}
    (hi : ptr[i]? = some p) :
    ptrAt (ptr.flatMap fun p => [.ofNat p, .ofNat (p / 2 ^ 16)]) i = some p := by
  induction ptr generalizing i with
  | nil => cases hi
  | cons q ptr ih =>
      have hq := hptr q List.mem_cons_self
      cases i with
      | zero =>
          cases hi
          have hlow : (UInt16.ofNat p).toNat + 2 ^ 16 * (UInt16.ofNat (p / 2 ^ 16)).toNat = p := by
            rw [UInt16.toNat_ofNat', UInt16.toNat_ofNat']
            omega
          exact congrArg some hlow
      | succ i =>
          exact ih (fun p hp => hptr p (List.mem_cons_of_mem _ hp)) hi

theorem sorts_sortRotations : EState.Sorts sortRotations := by
  intro block _ hsize
  have hperm := List.mergeSort_perm (List.range block.length) fun p q =>
    decide ((keys block).rotate p ≤ (keys block).rotate q)
  have hsorted : ((List.range block.length).mergeSort fun p q =>
      decide ((keys block).rotate p ≤ (keys block).rotate q)).Pairwise fun p q =>
        decide ((keys block).rotate p ≤ (keys block).rotate q) = true := by
    apply List.pairwise_mergeSort
    · intro p q r hpq hqr
      rw [decide_eq_true_eq] at hpq hqr ⊢
      exact le_trans hpq hqr
    · intro p q
      rw [Bool.or_eq_true, decide_eq_true_eq, decide_eq_true_eq]
      exact le_total _ _
  refine ⟨_, hperm, List.pairwise_map.mpr (hsorted.imp fun h => of_decide_eq_true h), ?_⟩
  refine fun i p hi => ptrAt_flatMap (fun p hp => ?_) hi
  have hlt := List.mem_range.mp (hperm.mem_iff.mp hp)
  omega

/-- A run that takes two counts, and a word. -/
def runAndWord : List UInt8 := List.replicate 300 0x61 ++ banana

theorem bzBuffToBuffDecompress_compress_runAndWord :
    ∃ dest, (∀ destLen, dest.length ≤ destLen →
        bzBuffToBuffCompress sortRotations (fun _ => ⟨.replicate 256 7, .replicate 258 7⟩)
          ⟨⟨0, 0, [], [], 0⟩, ⟨[], 0, 0⟩, 0, 0, 0, []⟩ destLen runAndWord 1 0 30 =
            some (.ok dest)) ∧
      ∀ (fresh : Fresh) (destLen : ℕ) (small verbosity' : ℤ), small = 0 ∨ small = 1 →
        0 ≤ verbosity' ∧ verbosity' ≤ 4 → runAndWord.length ≤ destLen →
        bzBuffToBuffDecompress fresh destLen dest small verbosity' = some (.ok runAndWord) :=
  bzBuffToBuffDecompress_compress sorts_sortRotations _ _ runAndWord (by decide) (by decide)
    (by decide)

end StudyNotes.Bzip2
