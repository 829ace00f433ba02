/-
# Reading a block back

What the decoder does with the bits that the encoder writes.  Each part of a block is read
from the label where it begins, whatever comes after it: if the rest leads somewhere from where
the code runs on to, the part and the rest lead there too.
-/

import StudyNotes.Bzip2.DecompressSafety
import StudyNotes.Bzip2.Send

namespace StudyNotes.Bzip2

open StudyNotes.Checked StudyNotes.MoveToFront StudyNotes.Bits StudyNotes.CanonicalCode

namespace Reading

/-- From where the code runs on to, the bits are used up and lead there. -/
def LeadsTo (fresh : Fresh) (smallDecompress : Bool) (bits : List Bool) (last next : Next) : Prop :=
  (machine fresh smallDecompress).ReadsFrom bits last next

section Receive

variable {fresh : Fresh} {smallDecompress : Bool} {rest : List Bool} {last : Next} {s : Reading}
  {d : Stream} {h : BlockHead} {c : Coding}

theorem leadsTo_number {n value : ℕ} (hwidth : s.width = n) (hvalue : value < 2 ^ n)
    (hafter : Returns (after fresh smallDecompress s value)
      (LeadsTo fresh smallDecompress rest last)) :
    LeadsTo fresh smallDecompress (toBits n value ++ rest) last (.inl s) := by
  obtain ⟨next, heq, hnext⟩ := hafter
  refine BitMachine.reads_number hwidth hvalue ?_
  show (machine fresh smallDecompress).ReadsFrom rest last
    ((after fresh smallDecompress s value).getD (.inr .outside))
  rw [heq]
  exact hnext

theorem leadsTo_bit {b : Bool} (hwidth : s.width = 1)
    (hafter : Returns (after fresh smallDecompress s b.toNat)
      (LeadsTo fresh smallDecompress rest last)) :
    LeadsTo fresh smallDecompress (b :: rest) last (.inl s) := by
  have hbit : toBits 1 b.toNat = [b] := by cases b <;> rfl
  have hread := leadsTo_number hwidth (show b.toNat < 2 ^ 1 from Bool.toNat_lt b) hafter
  rw [hbit] at hread
  exact hread

theorem leadsTo_byte {byte : UInt8} {bytes : List UInt8} (hwidth : s.width = 8)
    (hafter : Returns (after fresh smallDecompress s byte.toNat)
      (LeadsTo fresh smallDecompress (ofBytes bytes ++ rest) last)) :
    LeadsTo fresh smallDecompress (ofBytes (byte :: bytes) ++ rest) last (.inl s) := by
  rw [ofBytes_cons, List.append_assoc]
  exact leadsTo_number hwidth byte.toNat_lt hafter

/-! ## Headers -/

/-- The stream after its header, in the memory it is given. -/
def streamOf (fresh : Fresh) (smallDecompress : Bool) (blockSize100k : ℕ) : Stream :=
  { smallDecompress, blockSize100k
    mtf := ⟨(List.range 4096).map fresh.mtfa, (List.range 16).map fresh.mtfbase⟩
    ll4 := if smallDecompress then
        (List.range ((1 + blockSize100k * 100000) / 2)).map fresh.ll4 else [] }

theorem leadsTo_streamHeader {blockSize100k : ℕ} (hpos : 1 ≤ blockSize100k)
    (hle : blockSize100k ≤ 9)
    (hrest : LeadsTo fresh smallDecompress rest last
      (.inl (.blkhdr (streamOf fresh smallDecompress blockSize100k) 0))) :
    LeadsTo fresh smallDecompress
      (ofBytes [0x42, 0x5a, 0x68, .ofNat (0x30 + blockSize100k)] ++ rest) last (.inl magic1) := by
  have hbyte : (UInt8.ofNat (0x30 + blockSize100k)).toNat = 0x30 + blockSize100k := by
    rw [UInt8.toNat_ofNat']
    omega
  refine leadsTo_byte rfl (Returns.of_eq rfl (leadsTo_byte rfl (Returns.of_eq rfl
    (leadsTo_byte rfl (Returns.of_eq rfl (leadsTo_byte rfl (Returns.of_eq rfl ?_)))))))
  rw [hbyte, startStream, if_neg (by omega), Nat.add_sub_cancel_left]
  exact hrest

theorem leadsTo_blockMagic (hrest : LeadsTo fresh smallDecompress rest last (.inl (.bcrc d 0 0))) :
    LeadsTo fresh smallDecompress (ofBytes [0x31, 0x41, 0x59, 0x26, 0x53, 0x59] ++ rest) last
      (.inl (.blkhdr d 0)) :=
  leadsTo_byte rfl (Returns.of_eq rfl (leadsTo_byte rfl (Returns.of_eq rfl
    (leadsTo_byte rfl (Returns.of_eq rfl (leadsTo_byte rfl (Returns.of_eq rfl
      (leadsTo_byte rfl (Returns.of_eq rfl (leadsTo_byte rfl (Returns.of_eq rfl hrest)))))))))))

theorem leadsTo_endMagic (hrest : LeadsTo fresh smallDecompress rest last (.inl (.ccrc 0 0))) :
    LeadsTo fresh smallDecompress (ofBytes [0x17, 0x72, 0x45, 0x38, 0x50, 0x90] ++ rest) last
      (.inl (.blkhdr d 0)) :=
  leadsTo_byte rfl (Returns.of_eq rfl (leadsTo_byte rfl (Returns.of_eq rfl
    (leadsTo_byte rfl (Returns.of_eq rfl (leadsTo_byte rfl (Returns.of_eq rfl
      (leadsTo_byte rfl (Returns.of_eq rfl (leadsTo_byte rfl (Returns.of_eq rfl hrest)))))))))))

/-- A checksum grows by a byte. -/
theorem crc_step (value k : ℕ) :
    UInt32.ofNat (value / 2 ^ (8 * (k + 1))) <<< 8 |||
        UInt32.ofNat (UInt8.ofNat (value / 2 ^ (8 * k))).toNat =
      UInt32.ofNat (value / 2 ^ (8 * k)) := by
  rw [UInt8.toNat_ofNat', Nat.mul_succ, Nat.pow_add, ← Nat.div_div_eq_div_mul]
  exact ofNat_shiftLeft_or _

/-- The four bytes of a checksum, read at four labels. -/
theorem leadsTo_crc {label : Fin 4 → UInt32 → Reading} {value : ℕ} {next : Option Next}
    (hwidth : ∀ i crc, (label i crc).width = 8) (hvalue : value < 2 ^ 32)
    (hstep : ∀ (i : Fin 4) (hi : i.val + 1 < 4) (crc : UInt32) (uc : ℕ),
      after fresh smallDecompress (label i crc) uc =
        some (.inl (label ⟨i.val + 1, hi⟩ (crc <<< 8 ||| UInt32.ofNat uc))))
    (hlast : ∀ (crc : UInt32) (uc : ℕ), crc <<< 8 ||| UInt32.ofNat uc = UInt32.ofNat value →
      after fresh smallDecompress (label 3 crc) uc = next)
    (hrest : Returns next (LeadsTo fresh smallDecompress rest last)) :
    LeadsTo fresh smallDecompress (ofBytes (toBytes 4 value) ++ rest) last (.inl (label 0 0)) := by
  have hzero : UInt32.ofNat (value / 2 ^ (8 * 4)) = 0 := by
    rw [Nat.div_eq_of_lt hvalue]
    rfl
  have hfour := crc_step value 3
  have hone : UInt32.ofNat (value / 2 ^ (8 * 0)) = UInt32.ofNat value := by
    rw [Nat.mul_zero, Nat.pow_zero, Nat.div_one]
  rw [hzero] at hfour
  refine leadsTo_byte (hwidth 0 _) (Returns.of_eq (hstep 0 (show 0 + 1 < 4 by decide) _ _) ?_)
  rw [hfour]
  refine leadsTo_byte (hwidth 1 _) (Returns.of_eq (hstep 1 (show 1 + 1 < 4 by decide) _ _) ?_)
  rw [crc_step value 2]
  refine leadsTo_byte (hwidth 2 _) (Returns.of_eq (hstep 2 (show 2 + 1 < 4 by decide) _ _) ?_)
  rw [crc_step value 1]
  refine leadsTo_byte (hwidth 3 _) ?_
  show Returns (after _ _ (label 3 _) _) _
  rw [hlast _ _ ((crc_step value 0).trans hone)]
  exact hrest

theorem leadsTo_bcrc (crc : UInt32)
    (hrest : LeadsTo fresh smallDecompress rest last (.inl (.randbit d crc))) :
    LeadsTo fresh smallDecompress (ofBytes (toBytes 4 crc.toNat) ++ rest) last
      (.inl (.bcrc d 0 0)) := by
  have hlast : Returns (some (Sum.inl (randbit d crc))) (LeadsTo fresh smallDecompress rest last) :=
    Returns.of_eq rfl hrest
  refine leadsTo_crc (show ∀ i crc, (bcrc d i crc).width = 8 from fun _ _ => rfl)
    crc.toNat_lt (fun i hi crc uc => ?_) (fun crc' uc heq => ?_) hlast
  · rw [after, afterBcrc, dif_pos hi]
  · rw [UInt32.ofNat_toNat] at heq
    rw [after, afterBcrc, heq]
    rfl

theorem leadsTo_ccrc (crc : UInt32) :
    LeadsTo fresh smallDecompress (ofBytes (toBytes 4 crc.toNat)) (.inr (.streamEnd crc))
      (.inl (.ccrc 0 0)) := by
  have hread : LeadsTo fresh smallDecompress (ofBytes (toBytes 4 crc.toNat) ++ [])
      (.inr (.streamEnd crc)) (.inl (.ccrc 0 0)) := by
    have hlast : Returns (some (Sum.inr (.streamEnd crc)))
        (LeadsTo fresh smallDecompress [] (.inr (.streamEnd crc))) := Returns.of_eq rfl ⟨rfl, rfl⟩
    refine leadsTo_crc (show ∀ i crc, (ccrc i crc).width = 8 from fun _ _ => rfl)
      crc.toNat_lt (fun i hi crc uc => ?_) (fun crc' uc heq => ?_) hlast
    · rw [after, afterCcrc, dif_pos hi]
    · rw [UInt32.ofNat_toNat] at heq
      rw [after, afterCcrc, heq]
      rfl
  rw [List.append_nil] at hread
  exact hread

/-- The randomised bit and `origPtr`. -/
theorem leadsTo_randbit {crc : UInt32} {blockRandomised : Bool} {origPtr : ℕ}
    (hfits : origPtr ≤ 10 + 100000 * d.blockSize100k) (hblock : d.blockSize100k ≤ 9)
    (hrest : LeadsTo fresh smallDecompress rest last
      (.inl (.mapping1 { d with storedBlockCRC := crc, blockRandomised, origPtr } []))) :
    LeadsTo fresh smallDecompress (blockRandomised :: (ofBytes (toBytes 3 origPtr) ++ rest)) last
      (.inl (.randbit d crc)) := by
  have hbit : decide (blockRandomised.toNat = 1) = blockRandomised := by
    cases blockRandomised <;> rfl
  refine leadsTo_bit rfl (Returns.of_eq rfl ?_)
  rw [hbit]
  refine leadsTo_byte rfl (Returns.of_eq rfl (leadsTo_byte rfl (Returns.of_eq rfl
    (leadsTo_byte rfl (Returns.of_eq rfl ?_)))))
  have hptr : 2 ^ 8 * (2 ^ 8 * (2 ^ 8 * 0 + (UInt8.ofNat (origPtr / 2 ^ (8 * 2))).toNat) +
      (UInt8.ofNat (origPtr / 2 ^ (8 * 1))).toNat) + (UInt8.ofNat (origPtr / 2 ^ (8 * 0))).toNat =
        origPtr := by
    simp only [UInt8.toNat_ofNat']
    omega
  rw [afterOrigPtr]
  dsimp only
  rw [hptr, dif_neg (by decide), if_neg (by omega)]
  exact hrest

/-! ## The mapping table -/

/-- The table as far as its first entries are read. -/
def marked (inUse : List Bool) (k : ℕ) : List Bool :=
  (List.range 256).map fun i => decide (i < k) && inUse[i]?.getD false

variable {inUse : List Bool}

theorem getElem?_marked (inUse : List Bool) (k : ℕ) {i : ℕ} (hi : i < 256) :
    (marked inUse k)[i]? = some (decide (i < k) && inUse[i]?.getD false) := by
  rw [marked, List.getElem?_map, List.getElem?_range hi]
  rfl

theorem getElem?_marked_of_le (inUse : List Bool) (k : ℕ) {i : ℕ} (hi : 256 ≤ i) :
    (marked inUse k)[i]? = none := by
  rw [List.getElem?_eq_none_iff, marked, List.length_map, List.length_range]
  exact hi

/-- Two tables with the same entries. -/
theorem marked_eq {cells : List Bool} {k : ℕ} (hsize : cells.length = 256)
    (h : ∀ i < 256, cells[i]? = some (decide (i < k) && inUse[i]?.getD false)) :
    cells = marked inUse k := by
  refine List.ext_getElem? fun i => ?_
  by_cases hi : i < 256
  · rw [h i hi, getElem?_marked inUse k hi]
  · rw [getElem?_marked_of_le inUse k (Nat.not_lt.mp hi), List.getElem?_eq_none_iff]
    omega

theorem marked_zero (inUse : List Bool) : List.replicate 256 false = marked inUse 0 := by
  refine marked_eq List.length_replicate fun i hi => ?_
  rw [List.getElem?_replicate_of_lt hi, decide_eq_false (Nat.not_lt_zero i), Bool.false_and]

theorem marked_all (hsize : inUse.length = 256) : inUse = marked inUse 256 := by
  refine marked_eq hsize fun i hi => ?_
  rw [decide_eq_true hi, Bool.true_and, List.getElem?_eq_getElem (by omega)]
  rfl

theorem length_marked (inUse : List Bool) (k : ℕ) : (marked inUse k).length = 256 := by
  rw [marked, List.length_map, List.length_range]

theorem mark_marked (inUse : List Bool) {k : ℕ} (hk : k < 256) :
    mark (marked inUse k) k (inUse[k]?.getD false).toNat = some (marked inUse (k + 1)) := by
  cases hbit : inUse[k]?.getD false with
  | true =>
      rw [mark, if_pos Bool.toNat_true, write_eq (by rw [length_marked]; exact hk)]
      refine congrArg some (marked_eq (by rw [List.length_set, length_marked]) fun i hi => ?_)
      rw [List.getElem?_set, length_marked]
      by_cases heq : k = i
      · rw [if_pos heq, if_pos hk, ← heq, hbit, decide_eq_true (Nat.lt_succ_self k)]
        rfl
      · rw [if_neg heq, getElem?_marked inUse k hi]
        simp only [show i < k + 1 ↔ i < k by omega]
  | false =>
      rw [mark, if_neg (by decide)]
      refine congrArg some (marked_eq (length_marked _ _) fun i hi => ?_)
      rw [getElem?_marked inUse k hi]
      by_cases heq : k = i
      · rw [← heq, hbit, Bool.and_false, Bool.and_false]
      · simp only [show i < k + 1 ↔ i < k by omega]

theorem marked_skip {i : ℕ} (hpart : inUsePart inUse i = false) :
    marked inUse (i * 16) = marked inUse ((i + 1) * 16) := by
  refine marked_eq (length_marked _ _) fun k hk => ?_
  rw [getElem?_marked inUse _ hk]
  by_cases hin : i * 16 ≤ k ∧ k < (i + 1) * 16
  · have hnone : inUse[k]?.getD false = false := by
      rw [inUsePart, List.any_eq_false] at hpart
      have hbit := hpart (k - i * 16) (List.mem_range.mpr (by omega))
      rw [Nat.add_sub_cancel' hin.1, Bool.not_eq_true] at hbit
      exact hbit
    rw [hnone, Bool.and_false, Bool.and_false]
  · simp only [show k < i * 16 ↔ k < (i + 1) * 16 by omega]

/-- A part of the table, from one of its entries on. -/
theorem leadsTo_mapping2 {inUse16 : List Bool} {i j left : ℕ} (hi : i < 16) (hj : j + left + 1 = 16)
    (hrest : Returns (nextMapping h inUse16 (marked inUse ((i + 1) * 16)) (i + 1))
      (LeadsTo fresh smallDecompress rest last)) :
    LeadsTo fresh smallDecompress
      ((List.range' j (left + 1)).map (fun j => inUse[i * 16 + j]?.getD false) ++ rest) last
      (.inl (.mapping2 h inUse16 (marked inUse (i * 16 + j)) i j)) := by
  induction left generalizing j with
  | zero =>
      refine leadsTo_bit rfl ?_
      show Returns (afterMapping2 _ _ _ _ _ _) _
      rw [afterMapping2, mark_marked inUse (by omega), show i * 16 + j + 1 = (i + 1) * 16 by omega]
      dsimp only [Option.bind_eq_bind, Option.bind_some]
      rw [if_neg (by omega)]
      exact hrest
  | succ left ih =>
      have hnext := ih (j := j + 1) (by omega)
      rw [List.range'_succ, List.map_cons, List.cons_append]
      refine leadsTo_bit rfl ?_
      show Returns (afterMapping2 _ _ _ _ _ _) _
      rw [afterMapping2, mark_marked inUse (by omega)]
      dsimp only [Option.bind_eq_bind, Option.bind_some]
      rw [if_pos (by omega)]
      exact Returns.pure hnext

/-- The parts of the table from one of them on. -/
theorem leadsTo_nextMapping (hsize : inUse.length = 256) {i left : ℕ} (hi : i + left = 16)
    (hrest : Returns (endMapping h inUse) (LeadsTo fresh smallDecompress rest last)) :
    Returns (nextMapping h ((List.range 16).map (inUsePart inUse)) (marked inUse (i * 16)) i)
      (LeadsTo fresh smallDecompress ((List.range' i left).flatMap (fun i =>
        if inUsePart inUse i then partBits inUse i else []) ++ rest) last) := by
  induction left generalizing i with
  | zero =>
      have hall : marked inUse (i * 16) = inUse := by
        rw [show i * 16 = 256 by omega]
        exact (marked_all hsize).symm
      rw [nextMapping, if_neg (by omega), hall]
      exact hrest
  | succ left ih =>
      have hnext := ih (i := i + 1) (by omega)
      have hget : ((List.range 16).map (inUsePart inUse))[i]? = some (inUsePart inUse i) := by
        rw [List.getElem?_map, List.getElem?_range (by omega)]
        rfl
      rw [nextMapping, if_pos (by omega), hget, List.range'_succ, List.flatMap_cons,
        List.append_assoc]
      cases hpart : inUsePart inUse i with
      | true =>
          have hread := leadsTo_mapping2 (by omega) (show 0 + 15 + 1 = 16 from rfl) hnext
          rw [← List.range_eq_range'] at hread
          exact Returns.pure hread
      | false =>
          rw [marked_skip hpart]
          exact hnext

/-- The bits that tell which parts there are. -/
theorem leadsTo_mapping1 {bits before : List Bool} (hsize : before.length + bits.length = 16)
    (hne : bits ≠ [])
    (hrest : Returns (nextMapping h (before ++ bits) (List.replicate 256 false) 0)
      (LeadsTo fresh smallDecompress rest last)) :
    LeadsTo fresh smallDecompress (bits ++ rest) last (.inl (.mapping1 h before)) := by
  induction bits generalizing before with
  | nil => exact absurd rfl hne
  | cons b bits ih =>
      have hbit : decide (b.toNat = 1) = b := by cases b <;> rfl
      rw [List.length_cons] at hsize
      refine leadsTo_bit rfl ?_
      show Returns (afterMapping1 _ _ _) _
      rw [afterMapping1, push_eq (by omega), hbit]
      dsimp only [Option.bind_eq_bind, Option.bind_some]
      by_cases hmore : bits = []
      · subst hmore
        rw [if_neg (by rw [List.length_append, List.length_singleton]; simp at hsize; omega)]
        exact hrest
      · have hpos := List.length_pos_iff.mpr hmore
        rw [if_pos (by rw [List.length_append, List.length_singleton]; omega)]
        refine Returns.pure (ih ?_ hmore ?_)
        · rw [List.length_append, List.length_singleton]
          omega
        · rw [List.append_assoc]
          exact hrest

/-- The whole table. -/
theorem leadsTo_mapping (hsize : inUse.length = 256) (hused : occurring inUse 256 ≠ [])
    (hrest : LeadsTo fresh smallDecompress rest last (.inl (.selector1 h (occurring inUse 256)))) :
    LeadsTo fresh smallDecompress (mappingBits inUse ++ rest) last (.inl (.mapping1 h [])) := by
  have hend : Returns (endMapping h inUse) (LeadsTo fresh smallDecompress rest last) := by
    refine Returns.bind (returns_makeMapsD hsize) ?_
    rintro _ rfl
    rw [if_neg (fun hzero => hused (List.length_eq_zero_iff.mp hzero))]
    exact Returns.pure hrest
  have hparts := leadsTo_nextMapping hsize (show 0 + 16 = 16 from rfl) hend
  rw [Nat.zero_mul, ← marked_zero, ← List.range_eq_range'] at hparts
  rw [mappingBits, List.append_assoc]
  exact leadsTo_mapping1 rfl (List.cons_ne_nil _ _) hparts

/-! ## The selectors -/

variable {seqToUnseq : List UInt8} {nGroups nSelectors : ℕ}

/-- A selector from its bit `j` on. -/
theorem leadsTo_selector {selectorMtf : List ℕ} {j left : ℕ} (hgroups : j + left < nGroups)
    (hrest : Returns (afterSelector3 h seqToUnseq nGroups nSelectors selectorMtf (j + left) 0)
      (LeadsTo fresh smallDecompress rest last)) :
    LeadsTo fresh smallDecompress (List.replicate left true ++ false :: rest) last
      (.inl (.selector3 h seqToUnseq nGroups nSelectors selectorMtf j)) := by
  induction left generalizing j with
  | zero => exact leadsTo_bit rfl hrest
  | succ left ih =>
      rw [List.replicate_succ, List.cons_append]
      refine leadsTo_bit rfl ?_
      show Returns (afterSelector3 h seqToUnseq nGroups nSelectors selectorMtf j 1) _
      rw [afterSelector3, if_neg Nat.one_ne_zero, if_neg (by omega)]
      refine Returns.pure (ih (by omega) ?_)
      rw [Nat.add_assoc, Nat.add_comm 1 left]
      exact hrest

/-- The selectors from one of them on. -/
theorem leadsTo_selector3 {before js : List ℕ} {selector : List ℕ}
    (hgroups : ∀ j ∈ js, j < nGroups) (hne : js ≠ [])
    (hcount : before.length + js.length = nSelectors) (hmax : nSelectors ≤ maxSelectors)
    (hundo : undoSelectors nGroups (before ++ js) = some selector)
    (hrest : LeadsTo fresh smallDecompress rest last
      (.inl (.coding1 h { seqToUnseq, nGroups, selector } []))) :
    LeadsTo fresh smallDecompress
      (js.flatMap (fun j => List.replicate j true ++ [false]) ++ rest) last
      (.inl (.selector3 h seqToUnseq nGroups nSelectors before 0)) := by
  induction js generalizing before with
  | nil => exact absurd rfl hne
  | cons j js ih =>
      rw [List.length_cons] at hcount
      have hj := hgroups j List.mem_cons_self
      rw [List.flatMap_cons, List.append_assoc, List.append_assoc]
      refine leadsTo_selector (by omega) ?_
      rw [afterSelector3, if_pos rfl, push_eq (by omega), Nat.zero_add]
      dsimp only [Option.bind_eq_bind, Option.bind_some]
      have hundo' : undoSelectors nGroups (before ++ [j] ++ js) = some selector := by
        rw [List.append_assoc]
        exact hundo
      by_cases hmore : js = []
      · subst hmore
        rw [List.append_nil] at hundo'
        rw [List.length_nil] at hcount
        rw [if_neg (by rw [List.length_append, List.length_singleton]; omega), hundo']
        exact Returns.pure hrest
      · have hpos := List.length_pos_iff.mpr hmore
        rw [if_pos (by rw [List.length_append, List.length_singleton]; omega)]
        refine Returns.pure (ih (fun j hj => hgroups j (List.mem_cons_of_mem _ hj)) hmore ?_ hundo')
        rw [List.length_append, List.length_singleton]
        omega

theorem leadsTo_selectors {selector : List ℕ} (hgroups : Groups nGroups)
    (hselector : ∀ t ∈ selector, t < nGroups) (hne : selector ≠ [])
    (hcount : selector.length ≤ maxSelectors)
    (hrest : LeadsTo fresh smallDecompress rest last
      (.inl (.coding1 h { seqToUnseq, nGroups, selector } []))) :
    LeadsTo fresh smallDecompress
      (selectorBits nGroups (places (List.range nGroups) selector) ++ rest) last
      (.inl (.selector1 h seqToUnseq)) := by
  have hmem : ∀ t ∈ selector, t ∈ List.range nGroups := fun t ht =>
    List.mem_range.mpr (hselector t ht)
  have hplaces : ∀ j ∈ places (List.range nGroups) selector, j < nGroups := by
    intro j hj
    have hlt := places_lt hmem j hj
    rw [List.length_range] at hlt
    exact hlt
  have hlength : (places (List.range nGroups) selector).length = selector.length :=
    length_places _ _
  have hundo : undoSelectors nGroups (places (List.range nGroups) selector) = some selector := by
    obtain ⟨selector', heq, htake⟩ := returns_undoSelectors hplaces
    rw [takeAll_places hmem] at htake
    rw [heq, Option.some.inj htake]
  have hpos := List.length_pos_iff.mpr hne
  have hmax : maxSelectors < 2 ^ 15 := by decide
  rw [selectorBits, List.append_assoc, List.append_assoc, hlength]
  refine leadsTo_number rfl (show nGroups < 2 ^ 3 from Nat.lt_of_le_of_lt hgroups.2 (by decide)) ?_
  show Returns (if nGroups < 2 ∨ nGroups > 6 then _ else _) _
  obtain ⟨htwo, hsix⟩ := hgroups
  rw [if_neg (by omega)]
  refine Returns.of_eq rfl (leadsTo_number rfl (show selector.length < 2 ^ 15 by omega) ?_)
  show Returns (if selector.length < 1 then _ else _) _
  rw [if_neg (by omega)]
  refine Returns.of_eq rfl (leadsTo_selector3 hplaces (fun hnil => ?_) ?_ hcount hundo hrest)
  · rw [hnil] at hlength
    exact hne (List.length_eq_zero_iff.mp hlength.symm)
  · rw [hlength, List.length_nil, Nat.zero_add]

/-! ## The code lengths -/

variable {lens : List (List CodeLength)} {len : List CodeLength} {curr target : CodeLength}

theorem checkCurr_of_mem (curr : CodeLength) {n : ℕ} (hn : n = curr.val) :
    checkCurr h c lens len n = .inl (.coding2 h c lens len curr) := by
  subst hn
  rw [checkCurr, dif_pos curr.property]

/-- Steps up. -/
theorem leadsTo_up {k : ℕ} (htarget : target.val = curr.val + k)
    (hrest : LeadsTo fresh smallDecompress rest last (.inl (.coding2 h c lens len target))) :
    LeadsTo fresh smallDecompress ((List.replicate k [true, false]).flatten ++ rest) last
      (.inl (.coding2 h c lens len curr)) := by
  induction k generalizing curr with
  | zero =>
      rw [show curr = target from Subtype.ext htarget.symm]
      exact hrest
  | succ k ih =>
      have hnext : 1 ≤ curr.val + 1 ∧ curr.val + 1 ≤ 20 := by
        have hle := target.property.2
        omega
      rw [List.replicate_succ, List.flatten_cons, List.append_assoc]
      refine leadsTo_bit rfl (Returns.of_eq rfl (leadsTo_bit rfl (Returns.of_eq rfl ?_)))
      show LeadsTo _ _ _ _ (checkCurr h c lens len (curr.val + 1))
      rw [checkCurr_of_mem ⟨curr.val + 1, hnext⟩ rfl]
      refine ih ?_
      show target.val = curr.val + 1 + k
      omega

/-- Steps down. -/
theorem leadsTo_down {k : ℕ} (htarget : curr.val = target.val + k)
    (hrest : LeadsTo fresh smallDecompress rest last (.inl (.coding2 h c lens len target))) :
    LeadsTo fresh smallDecompress ((List.replicate k [true, true]).flatten ++ rest) last
      (.inl (.coding2 h c lens len curr)) := by
  induction k generalizing curr with
  | zero =>
      rw [show curr = target from Subtype.ext htarget]
      exact hrest
  | succ k ih =>
      have hnext : 1 ≤ curr.val - 1 ∧ curr.val - 1 ≤ 20 := by
        have hpos := target.property.1
        have hle := curr.property.2
        omega
      rw [List.replicate_succ, List.flatten_cons, List.append_assoc]
      refine leadsTo_bit rfl (Returns.of_eq rfl (leadsTo_bit rfl (Returns.of_eq rfl ?_)))
      show LeadsTo _ _ _ _ (checkCurr h c lens len (curr.val - 1))
      rw [checkCurr_of_mem ⟨curr.val - 1, hnext⟩ rfl]
      refine ih ?_
      show curr.val - 1 = target.val + k
      omega

theorem leadsTo_difference
    (hrest : LeadsTo fresh smallDecompress rest last (.inl (.coding2 h c lens len target))) :
    LeadsTo fresh smallDecompress (differenceBits curr target ++ rest) last
      (.inl (.coding2 h c lens len curr)) := by
  rw [differenceBits, List.append_assoc]
  rcases Nat.le_total curr.val target.val with hle | hle
  · refine leadsTo_up (show target.val = curr.val + (target.val - curr.val) by omega) ?_
    rw [Nat.sub_eq_zero_of_le hle]
    exact hrest
  · rw [Nat.sub_eq_zero_of_le hle]
    exact leadsTo_down (by omega) hrest

/-- Where the code runs on to after some of the tables. -/
def afterTable (h : BlockHead) (c : Coding) (lens : List (List CodeLength)) : Option Next :=
  if lens.length < c.nGroups then some (.inl (.coding1 h c lens)) else endCoding h c lens

/-- The lengths of a table from one of them on. -/
theorem leadsTo_lengths {before todo : List CodeLength} (hne : todo ≠ [])
    (hsize : before.length + todo.length = c.seqToUnseq.length + 2)
    (halpha : c.seqToUnseq.length ≤ 256)
    (hrest : Returns (afterTable h c (lens ++ [before ++ todo]))
      (LeadsTo fresh smallDecompress rest last)) :
    LeadsTo fresh smallDecompress (lengthsBits curr (todo.map Subtype.val) ++ rest) last
      (.inl (.coding2 h c lens before curr)) := by
  induction todo generalizing before curr with
  | nil => exact absurd rfl hne
  | cons n todo ih =>
      have hmax : maxAlphaSize = 256 + 2 := rfl
      rw [List.length_cons] at hsize
      rw [List.map_cons, lengthsBits, List.append_assoc, List.cons_append]
      refine leadsTo_difference (leadsTo_bit rfl ?_)
      show Returns (afterCoding2 h c lens before n 0) _
      rw [afterCoding2, if_pos rfl, push_eq (by omega)]
      dsimp only [Option.bind_eq_bind, Option.bind_some]
      by_cases hmore : todo = []
      · subst hmore
        rw [List.length_nil] at hsize
        rw [if_neg (by rw [List.length_append, List.length_singleton]; omega)]
        exact hrest
      · have hpos := List.length_pos_iff.mpr hmore
        rw [if_pos (by rw [List.length_append, List.length_singleton]; omega),
          checkCurr_of_mem n rfl]
        refine Returns.pure (ih hmore ?_ ?_)
        · rw [List.length_append, List.length_singleton]
          omega
        · rw [List.append_assoc]
          exact hrest

theorem leadsTo_table (hsize : len.length = c.seqToUnseq.length + 2)
    (halpha : c.seqToUnseq.length ≤ 256)
    (hrest : Returns (afterTable h c (lens ++ [len])) (LeadsTo fresh smallDecompress rest last)) :
    LeadsTo fresh smallDecompress (tableBits (len.map Subtype.val) ++ rest) last
      (.inl (.coding1 h c lens)) := by
  cases len with
  | nil => cases hsize
  | cons curr len =>
      have hcurr : curr.val < 2 ^ 5 := Nat.lt_of_le_of_lt curr.property.2 (by decide)
      rw [tableBits, List.append_assoc]
      refine leadsTo_number rfl hcurr ?_
      show Returns (some (checkCurr h c lens [] curr.val)) _
      rw [checkCurr_of_mem curr rfl]
      refine Returns.of_eq rfl (leadsTo_lengths (List.cons_ne_nil _ _) ?_ halpha hrest)
      rw [List.length_nil, Nat.zero_add, hsize]

/-- The tables from one of them on. -/
theorem leadsTo_tables {todo : List (List CodeLength)} (hne : todo ≠ [])
    (hcount : lens.length + todo.length = c.nGroups)
    (hsize : ∀ len ∈ todo, len.length = c.seqToUnseq.length + 2)
    (halpha : c.seqToUnseq.length ≤ 256)
    (hrest : Returns (endCoding h c (lens ++ todo)) (LeadsTo fresh smallDecompress rest last)) :
    LeadsTo fresh smallDecompress
      (todo.flatMap (fun len => tableBits (len.map Subtype.val)) ++ rest) last
      (.inl (.coding1 h c lens)) := by
  induction todo generalizing lens with
  | nil => exact absurd rfl hne
  | cons len todo ih =>
      rw [List.length_cons] at hcount
      rw [List.flatMap_cons, List.append_assoc]
      refine leadsTo_table (hsize len List.mem_cons_self) halpha ?_
      by_cases hmore : todo = []
      · subst hmore
        rw [List.length_nil] at hcount
        rw [afterTable, if_neg (by rw [List.length_append, List.length_singleton]; omega)]
        exact hrest
      · have hpos := List.length_pos_iff.mpr hmore
        rw [afterTable, if_pos (by rw [List.length_append, List.length_singleton]; omega)]
        refine Returns.of_eq rfl (ih hmore ?_ (fun l hl => hsize l (List.mem_cons_of_mem _ hl)) ?_)
        · rw [List.length_append, List.length_singleton]
          omega
        · rw [List.append_assoc]
          exact hrest

/-! ## The values -/

variable {tables : List Table} {place : Place} {v v' : Values} {g : Group} {length : List ℕ}

/-- A word from its bit `zn` on. -/
theorem returns_afterBits_word {zn n symbol : ℕ} (htable : g.table.Of length)
    (halpha : length.length ≤ maxAlphaSize) (hsymbol : length[symbol]? = some n)
    (hzn : g.table.minLen ≤ zn) (hle : zn ≤ n)
    (hrest : Returns (afterVal h c tables place v g symbol)
      (LeadsTo fresh smallDecompress rest last)) :
    Returns (afterBits h c tables place v g zn (word length n symbol / 2 ^ (n - zn)))
      (LeadsTo fresh smallDecompress (toBits (n - zn) (word length n symbol) ++ rest) last) := by
  have hmem := List.mem_of_getElem? hsymbol
  have hmax := le_maxLenOf hmem
  have hlong := htable.le_twenty _ htable.maxLen_mem
  induction hleft : n - zn generalizing zn with
  | zero =>
      obtain rfl : zn = n := by omega
      rw [Nat.pow_zero, Nat.div_one, afterBits,
        htable.canonical.lookup_word hzn hmax hlong halpha hsymbol]
      exact hrest
  | succ left ih =>
      have hnext := @ih (zn + 1) (by omega) (by omega) (by omega)
      have hmore := htable.canonical.lookup_prefix symbol hzn (by omega) hmax hlong
      rw [hleft] at hmore
      rw [afterBits, hmore]
      refine Returns.of_eq rfl (leadsTo_bit rfl ?_)
      have hvalue : 2 * (word length n symbol / 2 ^ (left + 1)) +
          (decide (word length n symbol / 2 ^ left % 2 = 1)).toNat =
            word length n symbol / 2 ^ left := by
        have hbit : (decide (word length n symbol / 2 ^ left % 2 = 1)).toNat =
            word length n symbol / 2 ^ left % 2 := by
          rcases Nat.mod_two_eq_zero_or_one (word length n symbol / 2 ^ left) with hzero | hone
          · rw [hzero]
            rfl
          · rw [hone]
            rfl
        rw [hbit, Nat.pow_succ, ← Nat.div_div_eq_div_mul]
        omega
      show Returns (afterBits _ _ _ _ _ _ _ _) _
      rw [hvalue]
      exact hnext

theorem leadsTo_word {n symbol : ℕ} (htable : g.table.Of length)
    (halpha : length.length ≤ maxAlphaSize) (hsymbol : length[symbol]? = some n)
    (hfits : word length n symbol < 2 ^ n)
    (hrest : Returns (afterVal h c tables place v g symbol)
      (LeadsTo fresh smallDecompress rest last)) :
    LeadsTo fresh smallDecompress (toBits n (word length n symbol) ++ rest) last
      (.inl (.mtfBits h c tables place v g)) := by
  have hmin := htable.minLen_le n (List.mem_of_getElem? hsymbol)
  have hsplit : toBits n (word length n symbol) =
      toBits g.table.minLen (word length n symbol / 2 ^ (n - g.table.minLen)) ++
        toBits (n - g.table.minLen) (word length n symbol) := by
    rw [← toBits_add, Nat.add_sub_cancel' hmin]
  rw [hsplit, List.append_assoc]
  refine leadsTo_number rfl ?_
    (returns_afterBits_word htable halpha hsymbol (Nat.le_refl _) hmin hrest)
  rw [Nat.div_lt_iff_lt_mul (Nat.two_pow_pos _), ← Nat.pow_add, Nat.add_sub_cancel' hmin]
  exact hfits

/-- The decoder has the table that the encoder used for a group of values. -/
structure Decodes (alphaSize : ℕ) (t : Table) (code : CodeTable) : Prop where
  of_len : t.Of code.len
  valid : code.Valid alphaSize

/-- The place of a group when the value with number `k` is read. -/
structure GroupAt (c : Coding) (tables : List Table) (k : ℕ) (g : Group) : Prop where
  groupNo : g.groupNo = ((k / 50 : ℕ) : ℤ)
  groupPos : g.groupPos + k % 50 + 1 = 50
  table : ∃ t, c.selector[k / 50]? = some t ∧ tables[t]? = some g.table

/-- The tables of the groups of some values. -/
def Coded (c : Coding) (tables : List Table) (tableAt : ℕ → CodeTable) (count : ℕ) : Prop :=
  ∀ i, 50 * i < count → ∃ t table, c.selector[i]? = some t ∧ tables[t]? = some table ∧
    Decodes (c.seqToUnseq.length + 2) table (tableAt i)

variable {tableAt : ℕ → CodeTable} {count k : ℕ}

theorem Coded.returns_newGroup (hcoded : Coded c tables tableAt count) {i : ℕ} {groupNo : ℤ}
    (hi : groupNo + 1 = (i : ℤ)) (hlt : 50 * i < count) :
    Returns (newGroup h c tables place v groupNo) fun next =>
      ∃ g, next = .inl (.mtfBits h c tables place v g) ∧ GroupAt c tables (50 * i) g := by
  obtain ⟨t, table, hselector, htable, -⟩ := hcoded i hlt
  have hsize := (List.getElem?_eq_some_iff.mp hselector).1
  rw [newGroup, hi, if_neg (by omega), index_natCast]
  dsimp only [Option.bind_eq_bind, Option.bind_some]
  rw [hselector, Option.bind_some, htable]
  refine Returns.pure ⟨_, rfl, ?_, ?_, ?_⟩
  · rw [Nat.mul_div_cancel_left i (show 0 < 50 by decide)]
  · rw [Nat.mul_mod_right]
  · rw [Nat.mul_div_cancel_left i (show 0 < 50 by decide)]
    exact ⟨t, hselector, htable⟩

theorem GroupAt.returns_nextVal (hg : GroupAt c tables k g) (hcoded : Coded c tables tableAt count)
    (hlt : k + 1 < count) :
    Returns (nextVal h c tables place v g) fun next =>
      ∃ g, next = .inl (.mtfBits h c tables place v g) ∧ GroupAt c tables (k + 1) g := by
  have hpos := hg.groupPos
  rw [nextVal]
  by_cases hend : g.groupPos = 0
  · rw [if_pos hend]
    have hk : 50 * (k / 50 + 1) = k + 1 := by omega
    rw [← hk]
    exact hcoded.returns_newGroup (by rw [hg.groupNo]; omega) (by omega)
  · rw [if_neg hend]
    have hdiv : (k + 1) / 50 = k / 50 := by omega
    refine Returns.of_eq rfl ⟨_, rfl, ?_, ?_, ?_⟩
    · rw [hdiv]
      exact hg.groupNo
    · show g.groupPos - 1 + (k + 1) % 50 + 1 = 50
      omega
    · rw [hdiv]
      exact hg.table

/-- The bits of a value are those of its word. -/
theorem leadsTo_value (hg : GroupAt c tables k g) (hcoded : Coded c tables tableAt count)
    (hlt : k < count) (halpha : c.seqToUnseq.length ≤ 256) {x : ℕ}
    (hx : x < c.seqToUnseq.length + 2)
    (hrest : Returns (afterVal h c tables place v g x) (LeadsTo fresh smallDecompress rest last)) :
    LeadsTo fresh smallDecompress (valueBits (tableAt (k / 50)) x ++ rest) last
      (.inl (.mtfBits h c tables place v g)) := by
  obtain ⟨t, table, hselector, htable, hdecodes⟩ := hcoded (k / 50) (by omega)
  obtain ⟨t', hselector', htable'⟩ := hg.table
  rw [hselector] at hselector'
  obtain rfl := Option.some.inj hselector'
  rw [htable] at htable'
  obtain rfl := Option.some.inj htable'
  obtain ⟨n, hsymbol, hcode, -, -, hfits⟩ := hdecodes.valid.exists_word hx
  rw [valueBits, hsymbol, hcode]
  refine leadsTo_word hdecodes.of_len ?_ hsymbol hfits hrest
  rw [hdecodes.valid.length_len]
  exact Nat.add_le_add_right halpha 2

/-- The values of a block, up to the one that ends it. -/
theorem leadsTo_values {values : List ℕ} {eob : ℕ} (heob : eob = c.seqToUnseq.length + 1)
    (halpha : c.seqToUnseq.length ≤ 256) (hvalues : ∀ x ∈ values, x < eob)
    (hcoded : Coded c tables tableAt count) (hcount : k + values.length + 1 = count)
    (hg : GroupAt c tables k g)
    (hhandle : handleAll c.seqToUnseq (100000 * h.blockSize100k) place v (values ++ [eob]) =
      some (.blockEnd v'))
    (hrest : Returns (endBlock h v') (LeadsTo fresh smallDecompress rest last)) :
    LeadsTo fresh smallDecompress (valuesBits tableAt k (values ++ [eob]) ++ rest) last
      (.inl (.mtfBits h c tables place v g)) := by
  induction values generalizing k place v g with
  | nil =>
      rw [List.length_nil] at hcount
      rw [List.nil_append, valuesBits, valuesBits, List.append_nil]
      refine leadsTo_value hg hcoded (by omega) halpha (by omega) ?_
      rw [List.nil_append, handleAll_cons] at hhandle
      obtain ⟨r, hr, hnext⟩ := Option.bind_eq_some_iff.mp hhandle
      rw [afterVal]
      refine Returns.bind (Returns.of_eq hr rfl) ?_
      rintro _ rfl
      cases r with
      | next place v => cases hnext
      | blockEnd v =>
          cases hnext
          exact hrest
      | dataError => cases hnext
  | cons x values ih =>
      rw [List.length_cons] at hcount
      have hx := hvalues x List.mem_cons_self
      rw [List.cons_append, valuesBits, List.append_assoc]
      refine leadsTo_value hg hcoded (by omega) halpha (by omega) ?_
      rw [List.cons_append, handleAll_cons] at hhandle
      obtain ⟨r, hr, hnext⟩ := Option.bind_eq_some_iff.mp hhandle
      rw [afterVal]
      refine Returns.bind (Returns.of_eq hr rfl) ?_
      rintro _ rfl
      cases r with
      | next place v =>
          refine (hg.returns_nextVal hcoded (by omega)).mono ?_
          rintro _ ⟨g, rfl, hg⟩
          exact ih (fun y hy => hvalues y (List.mem_cons_of_mem _ hy)) (by omega) hg hnext
      | blockEnd v => exact absurd hr (handle_ne_blockEnd (by omega))
      | dataError => cases hnext

/-! ## A whole block -/

theorem exists_codeLengths {len : List ℕ} (hrange : ∀ n ∈ len, 1 ≤ n ∧ n ≤ 17) :
    ∃ l : List CodeLength, l.map Subtype.val = len := by
  induction len with
  | nil => exact ⟨[], rfl⟩
  | cons n len ih =>
      obtain ⟨l, rfl⟩ := ih fun m hm => hrange m (List.mem_cons_of_mem _ hm)
      obtain ⟨hpos, hle⟩ := hrange n List.mem_cons_self
      exact ⟨⟨n, hpos, by omega⟩ :: l, rfl⟩

theorem exists_tables {lens : List (List ℕ)} (hrange : ∀ len ∈ lens, ∀ n ∈ len, 1 ≤ n ∧ n ≤ 17) :
    ∃ ls : List (List CodeLength), ls.map (List.map Subtype.val) = lens := by
  induction lens with
  | nil => exact ⟨[], rfl⟩
  | cons len lens ih =>
      obtain ⟨ls, rfl⟩ := ih fun l hl => hrange l (List.mem_cons_of_mem _ hl)
      obtain ⟨l, rfl⟩ := exists_codeLengths (hrange len List.mem_cons_self)
      exact ⟨l :: ls, rfl⟩

/-- The decoder makes the tables of the encoder. -/
theorem returns_createTables {ls : List (List CodeLength)} {alphaSize : ℕ} (hpos : 0 < alphaSize)
    (halpha : alphaSize ≤ maxAlphaSize) (hsize : ∀ l ∈ ls, l.length = alphaSize) :
    Returns (ls.mapM createTable) fun tables =>
      List.Forall₂ (fun l t => t.Of (l.map Subtype.val)) ls tables := by
  refine Returns.mapM fun l hl => returns_createTable (fun hnil => ?_) ?_
  · have hlength := hsize l hl
    rw [hnil, List.length_nil] at hlength
    omega
  · rw [hsize l hl]
    exact halpha

/-- The groups of some values have the tables that were chosen for them. -/
theorem coded_of_chosen {ls : List (List CodeLength)} {selector mtfv : List ℕ}
    (hchosen : Chosen (c.seqToUnseq.length + 2) (ls.map (List.map Subtype.val)) selector mtfv)
    (hselector : c.selector = selector)
    (htables : List.Forall₂ (fun l t => t.Of (l.map Subtype.val)) ls tables)
    (hvalid : ∀ (i t : ℕ) (len : List ℕ), selector[i]? = some t →
      (ls.map (List.map Subtype.val))[t]? = some len →
        (tableAt i).len = len ∧ (tableAt i).Valid (c.seqToUnseq.length + 2)) :
    Coded c tables tableAt mtfv.length := by
  intro i hi
  have hcount := hchosen.count
  have hlt : i < selector.length := by omega
  have hget : selector[i]? = some selector[i] := List.getElem?_eq_getElem hlt
  have ht := hchosen.selector_lt _ (List.getElem_mem hlt)
  rw [List.length_map] at ht
  have ht' : selector[i] < tables.length := by rw [← htables.length_eq]; exact ht
  obtain ⟨hlen, hcode⟩ := hvalid i selector[i] _ hget
    (by rw [List.getElem?_map, List.getElem?_eq_getElem ht]; rfl)
  refine ⟨selector[i], tables[selector[i]], by rw [hselector]; exact hget,
    List.getElem?_eq_getElem ht', ?_, hcode⟩
  rw [hlen]
  exact htables.get ht ht'

/-- What the encoder writes after the header of a block leads to the end of the values. -/
theorem leadsTo_coded {lens : List (List ℕ)} {selector values : List ℕ} {mtf : MtfArray UInt8}
    (hinUse : inUse.length = 256) (hused : occurring inUse 256 ≠ [])
    (hchosen : Chosen ((occurring inUse 256).length + 2) lens selector
      (values ++ [(occurring inUse 256).length + 1]))
    (hsize : (values ++ [(occurring inUse 256).length + 1]).length ≤ 900050)
    (hvalid : ∀ (i t : ℕ) (len : List ℕ), selector[i]? = some t → lens[t]? = some len →
      (tableAt i).len = len ∧ (tableAt i).Valid ((occurring inUse 256).length + 2))
    (hvalues : ∀ x ∈ values, x < (occurring inUse 256).length + 1)
    (hinit : h.mtf.init = some mtf)
    (hhandle : handleAll (occurring inUse 256) (100000 * h.blockSize100k) .first (Values.empty mtf)
      (values ++ [(occurring inUse 256).length + 1]) = some (.blockEnd v'))
    (hrest : Returns (endBlock h v') (LeadsTo fresh smallDecompress rest last)) :
    LeadsTo fresh smallDecompress
      (codedBits inUse lens selector (values ++ [(occurring inUse 256).length + 1]) tableAt ++ rest)
      last (.inl (.mapping1 h [])) := by
  have halpha := length_occurring_le inUse 256
  generalize hseq : occurring inUse 256 = seq at *
  obtain ⟨ls, rfl⟩ := exists_tables hchosen.range
  have hgroups := hchosen.groups
  have hcount := hchosen.count
  rw [List.length_append, List.length_singleton] at hsize hcount
  rw [List.length_map] at hgroups
  have hlens : ∀ l ∈ ls, l.length = seq.length + 2 := by
    intro l hl
    have hlength := hchosen.length_len _ (List.mem_map_of_mem hl)
    rw [List.length_map] at hlength
    exact hlength
  have hne : ls ≠ [] := fun hnil => by
    rw [hnil, List.length_nil] at hgroups
    omega
  rw [codedBits, List.append_assoc, List.append_assoc, List.append_assoc, List.length_map,
    List.flatMap_map]
  refine leadsTo_mapping hinUse (by rw [hseq]; exact hused) ?_
  rw [hseq]
  refine leadsTo_selectors hgroups ?_ ?_ (by unfold maxSelectors; omega) ?_
  · intro t ht
    have hlt := hchosen.selector_lt t ht
    rw [List.length_map] at hlt
    exact hlt
  · intro hnil
    rw [hnil, List.length_nil] at hcount
    omega
  refine leadsTo_tables hne (Nat.zero_add _) hlens halpha ?_
  rw [List.nil_append]
  refine Returns.bind (returns_createTables (Nat.succ_pos _) (Nat.add_le_add_right halpha 2) hlens)
    fun tables htables => ?_
  refine Returns.bind (Returns.of_eq hinit rfl) ?_
  rintro _ rfl
  have hcoded := coded_of_chosen (c := { seqToUnseq := seq, nGroups := ls.length, selector })
    hchosen rfl htables hvalid
  rw [List.length_append, List.length_singleton] at hcoded
  refine (hcoded.returns_newGroup (show (-1 : ℤ) + 1 = (0 : ℕ) from rfl) (Nat.succ_pos _)).mono ?_
  rintro _ ⟨g, rfl, hg⟩
  exact leadsTo_values rfl halpha hvalues hcoded (by rw [Nat.zero_add]) hg hhandle hrest

end Receive

end Reading

end StudyNotes.Bzip2
