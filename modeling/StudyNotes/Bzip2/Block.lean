/-
# The bytes of a block

When the values of a block are read, `BZ2_decompress` checks the counts, inverts the transform
and fetches the first byte; `BZ_GET_FAST` and `BZ_GET_SMALL` give the others.  The bytes of a
block that was randomised are changed where the table `BZ2_rNums` says so.
-/

import StudyNotes.Bzip2.BlockValues
import StudyNotes.Bzip2.Output

namespace StudyNotes.Bzip2

open StudyNotes.Checked

set_option maxRecDepth 4000 in
/-- `BZ2_rNums`. -/
def rNums : Vector ℤ 512 := #v[
  619, 720, 127, 481, 931, 816, 813, 233, 566, 247, 985, 724, 205, 454, 863, 491, 741, 242, 949,
  214, 733, 859, 335, 708, 621, 574, 73, 654, 730, 472, 419, 436, 278, 496, 867, 210, 399, 680, 480,
  51, 878, 465, 811, 169, 869, 675, 611, 697, 867, 561, 862, 687, 507, 283, 482, 129, 807, 591, 733,
  623, 150, 238, 59, 379, 684, 877, 625, 169, 643, 105, 170, 607, 520, 932, 727, 476, 693, 425, 174,
  647, 73, 122, 335, 530, 442, 853, 695, 249, 445, 515, 909, 545, 703, 919, 874, 474, 882, 500, 594,
  612, 641, 801, 220, 162, 819, 984, 589, 513, 495, 799, 161, 604, 958, 533, 221, 400, 386, 867,
  600, 782, 382, 596, 414, 171, 516, 375, 682, 485, 911, 276, 98, 553, 163, 354, 666, 933, 424, 341,
  533, 870, 227, 730, 475, 186, 263, 647, 537, 686, 600, 224, 469, 68, 770, 919, 190, 373, 294, 822,
  808, 206, 184, 943, 795, 384, 383, 461, 404, 758, 839, 887, 715, 67, 618, 276, 204, 918, 873, 777,
  604, 560, 951, 160, 578, 722, 79, 804, 96, 409, 713, 940, 652, 934, 970, 447, 318, 353, 859, 672,
  112, 785, 645, 863, 803, 350, 139, 93, 354, 99, 820, 908, 609, 772, 154, 274, 580, 184, 79, 626,
  630, 742, 653, 282, 762, 623, 680, 81, 927, 626, 789, 125, 411, 521, 938, 300, 821, 78, 343, 175,
  128, 250, 170, 774, 972, 275, 999, 639, 495, 78, 352, 126, 857, 956, 358, 619, 580, 124, 737, 594,
  701, 612, 669, 112, 134, 694, 363, 992, 809, 743, 168, 974, 944, 375, 748, 52, 600, 747, 642, 182,
  862, 81, 344, 805, 988, 739, 511, 655, 814, 334, 249, 515, 897, 955, 664, 981, 649, 113, 974, 459,
  893, 228, 433, 837, 553, 268, 926, 240, 102, 654, 459, 51, 686, 754, 806, 760, 493, 403, 415, 394,
  687, 700, 946, 670, 656, 610, 738, 392, 760, 799, 887, 653, 978, 321, 576, 617, 626, 502, 894,
  679, 243, 440, 680, 879, 194, 572, 640, 724, 926, 56, 204, 700, 707, 151, 457, 449, 797, 195, 791,
  558, 945, 679, 297, 59, 87, 824, 713, 663, 412, 693, 342, 606, 134, 108, 571, 364, 631, 212, 174,
  643, 304, 329, 343, 97, 430, 751, 497, 314, 983, 374, 822, 928, 140, 206, 73, 263, 980, 736, 876,
  478, 430, 305, 170, 514, 364, 692, 829, 82, 855, 953, 676, 246, 369, 970, 294, 750, 807, 827, 150,
  790, 288, 923, 804, 378, 215, 828, 592, 281, 565, 555, 710, 82, 896, 831, 547, 261, 524, 462, 293,
  465, 502, 56, 661, 821, 976, 991, 658, 869, 905, 758, 745, 193, 768, 550, 608, 933, 378, 286, 215,
  979, 792, 961, 61, 688, 793, 644, 986, 403, 106, 366, 905, 644, 372, 567, 466, 434, 645, 210, 389,
  550, 919, 135, 780, 773, 635, 389, 707, 100, 626, 958, 165, 504, 920, 176, 193, 713, 857, 265,
  203, 50, 668, 108, 645, 990, 626, 197, 510, 357, 358, 850, 858, 364, 936, 638]

/-- What moves on from byte to byte: `tPos`, and `BZ_RAND_DECLS`. -/
structure Fetch where
  tPos : UInt32
  rNToGo : ℤ
  rTPos : ℕ

/-- `BZ_RAND_UPD_MASK`. -/
def randUpdMask (rNToGo : ℤ) (rTPos : ℕ) : Option (ℤ × ℕ) := do
  if rNToGo = 0 then
    return ((← rNums[rTPos]?) - 1, if rTPos + 1 = 512 then 0 else rTPos + 1)
  else return (rNToGo - 1, rTPos)

/-- `BZ_RAND_MASK`. -/
def randMask (rNToGo : ℤ) : UInt8 := if rNToGo = 1 then 1 else 0

/-- The arrays of the inverted transform. -/
inductive Arrays where
  | fast (tt : List UInt32)
  | small (a : SmallArrays) (cftab : List ℤ)

/-- `ll4` after a block. -/
def Arrays.ll4 (before : List UInt8) : Arrays → List UInt8
  | .fast _ => before
  | .small a _ => a.ll4

/-- A block that is ready for output. -/
structure Block where
  blockSize100k : ℕ
  blockRandomised : Bool
  storedBlockCRC : UInt32
  saveNblock : ℕ
  arrays : Arrays

/-- `BZ_GET_FAST` or `BZ_GET_SMALL`. -/
def Arrays.get (blockSize100k : ℕ) : Arrays → UInt32 → Option (Option (UInt8 × UInt32))
  | .fast tt => getFast blockSize100k tt
  | .small a cftab => getSmall blockSize100k a cftab

/-- The next byte of a block. -/
def Block.get (b : Block) (p : Fetch) : Option (Option (UInt8 × Fetch)) := do
  match ← b.arrays.get b.blockSize100k p.tPos with
  | none => return none
  | some (k, tPos) =>
      if b.blockRandomised then
        let (rNToGo, rTPos) ← randUpdMask p.rNToGo p.rTPos
        return some (k ^^^ randMask rNToGo, ⟨tPos, rNToGo, rTPos⟩)
      else return some (k, { p with tPos })

/-- What lasts from block to block: the memory that is taken for the stream, of which `ll4` and
the arrays of the list are not cleared. -/
structure Stream where
  smallDecompress : Bool
  blockSize100k : ℕ
  mtf : MtfArray UInt8
  ll4 : List UInt8

/-- What is kept of the header of a block until its values are read. -/
structure BlockHead extends Stream where
  storedBlockCRC : UInt32
  blockRandomised : Bool
  origPtr : ℕ

/-- How `BZ2_decompress` ends with a block: with its first byte fetched, with `BZ_DATA_ERROR`, or
with the `True` that `BZ_GET_FAST` returns where it is used. -/
inductive Finished where
  | output (b : Block) (s : Output Fetch)
  | dataError
  | returnsTrue

/-- The checks of `unzftab` and of `cftab`. -/
def inRange (nblock : ℕ) (cells : List ℤ) : Bool := cells.all fun n => 0 ≤ n ∧ n ≤ nblock

def nonDescending : List ℤ → Bool
  | m :: n :: cells => m ≤ n && nonDescending (n :: cells)
  | _ => true

/-- The arrays and the first row. -/
def invert (h : BlockHead) (ll : List UInt8) (cftab : List ℤ) : Option (Arrays × UInt32) :=
  if h.smallDecompress then do
    let a ← invertSmall ll.length h.origPtr ⟨ll.map UInt8.toUInt16, h.ll4⟩ cftab
    return (.small a cftab, .ofNat h.origPtr)
  else do
    let (tt, _) ← fillTt ll.length (ll.map UInt8.toUInt32) cftab
    return (.fast tt, (← tt[h.origPtr]?) >>> 8)

/-- The part of `BZ2_decompress` after the loop over the values. -/
def finishBlock (h : BlockHead) (v : Values) : Option Finished := do
  let nblock := v.ll.length
  if h.origPtr ≥ nblock then return .dataError
  if !inRange nblock v.unzftab then return .dataError
  let cftab ← makeCftab v.unzftab
  if !inRange nblock cftab then return .dataError
  if !nonDescending cftab then return .dataError
  let (arrays, tPos) ← invert h v.ll cftab
  let b : Block :=
    { blockSize100k := h.blockSize100k, blockRandomised := h.blockRandomised
      storedBlockCRC := h.storedBlockCRC, saveNblock := nblock, arrays }
  match ← b.get ⟨tPos, 0, 0⟩ with
  | none => return .returnsTrue
  | some (k0, p) =>
      return .output b
        { stateOutCh := 0, stateOutLen := 0, nblockUsed := 1, k0, tPos := p,
          calculatedBlockCRC := initialiseCRC, out := [], availOut := 0 }

/-! ## The mask -/

theorem exists_randUpdMask {rTPos : ℕ} (hpos : rTPos < 512) (rNToGo : ℤ) :
    ∃ n r, randUpdMask rNToGo rTPos = some (n, r) ∧ r < 512 := by
  have hget : rNums[rTPos]? = some rNums[rTPos] := getElem?_pos rNums rTPos hpos
  by_cases hzero : rNToGo = 0
  · rw [randUpdMask, if_pos hzero, hget]
    refine ⟨_, _, rfl, ?_⟩
    split
    · decide
    · omega
  · rw [randUpdMask, if_neg hzero]
    exact ⟨_, _, rfl, hpos⟩

/-- The numbers of the mask after some bytes. -/
def maskAfter : ℕ → ℤ × ℕ
  | 0 => (0, 0)
  | m + 1 => (randUpdMask (maskAfter m).1 (maskAfter m).2).getD (0, 0)

theorem maskAfter_lt (m : ℕ) : (maskAfter m).2 < 512 := by
  induction m with
  | zero => decide
  | succ m ih =>
      obtain ⟨n, r, heq, hlt⟩ := exists_randUpdMask ih (maskAfter m).1
      rw [maskAfter, heq]
      exact hlt

theorem randUpdMask_maskAfter (m : ℕ) :
    randUpdMask (maskAfter m).1 (maskAfter m).2 =
      some ((maskAfter (m + 1)).1, (maskAfter (m + 1)).2) := by
  obtain ⟨n, r, heq, -⟩ := exists_randUpdMask (maskAfter_lt m) (maskAfter m).1
  rw [maskAfter, heq]
  rfl

/-- The bytes of a block, of which a randomised one has some changed. -/
def unmask (blockRandomised : Bool) (f : ℕ → UInt8) (m : ℕ) : UInt8 :=
  if blockRandomised then f m ^^^ randMask (maskAfter (m + 1)).1 else f m

section Get

variable {b : Block} {f : ℕ → UInt8} {tPos : UInt32}

theorem Block.produces_get (h : Produces (b.arrays.get b.blockSize100k) tPos f) :
    Produces b.get ⟨tPos, 0, 0⟩ (unmask b.blockRandomised f) := by
  obtain ⟨x, rfl, hx⟩ := h
  cases hrandom : b.blockRandomised with
  | true =>
      refine ⟨fun m => ⟨x m, (maskAfter m).1, (maskAfter m).2⟩, rfl, fun m => ?_⟩
      rw [Block.get]
      dsimp only
      rw [hx, hrandom, randUpdMask_maskAfter]
      rfl
  | false =>
      refine ⟨fun m => ⟨x m, 0, 0⟩, rfl, fun m => ?_⟩
      rw [Block.get]
      dsimp only
      rw [hx, hrandom]
      rfl

end Get

/-! ## The end of a block -/

theorem nonDescending_of_le {cells : List ℤ}
    (h : ∀ (k : ℕ) (m n : ℤ), cells[k]? = some m → cells[k + 1]? = some n → m ≤ n) :
    nonDescending cells = true := by
  induction cells with
  | nil => rfl
  | cons m cells ih =>
      cases cells with
      | nil => rfl
      | cons n cells =>
          rw [nonDescending, decide_eq_true (h 0 m n rfl rfl), Bool.true_and]
          exact ih fun k => h (k + 1)

section Finish

variable {h : BlockHead} {ll : List UInt8} {cftab : List ℤ} {v : Values}

theorem Counts.inRange {unzftab : List ℤ} (hcounts : Counts unzftab ll) :
    inRange ll.length unzftab = true := by
  rw [Bzip2.inRange, List.all_eq_true]
  intro n hn
  obtain ⟨c, hc, rfl⟩ := List.mem_iff_getElem.mp hn
  have hget := hcounts.2 c (by rw [← hcounts.1]; exact hc)
  rw [List.getElem?_eq_getElem hc] at hget
  have hle := List.count_le_length (a := c) (l := keys ll)
  rw [length_keys] at hle
  rw [Option.some.inj hget, decide_eq_true_eq]
  omega

theorem Cftab.inRange (hcftab : Cftab ll cftab) : inRange ll.length cftab = true := by
  rw [Bzip2.inRange, List.all_eq_true]
  intro n hn
  obtain ⟨c, hc, rfl⟩ := List.mem_iff_getElem.mp hn
  have hget := hcftab.2 c (by rw [← hcftab.1]; exact hc)
  rw [List.getElem?_eq_getElem hc] at hget
  have hle : CountingOrder.below (keys ll) c ≤ (keys ll).length := CountingOrder.below_le_length
  rw [length_keys] at hle
  rw [Option.some.inj hget, decide_eq_true_eq]
  omega

theorem Cftab.nonDescending (hcftab : Cftab ll cftab) : nonDescending cftab = true := by
  refine nonDescending_of_le fun k m n hm hn => ?_
  have hk := (List.getElem?_eq_some_iff.mp hn).1
  rw [hcftab.1] at hk
  rw [hcftab.2 k (by omega)] at hm
  rw [hcftab.2 (k + 1) hk] at hn
  rw [← Option.some.inj hm, ← Option.some.inj hn]
  exact Int.ofNat_le.mpr (CountingOrder.below_mono (Nat.le_succ k))

/-- Both versions give the bytes of the rows. -/
theorem returns_invert (hcftab : Cftab ll cftab) (horig : h.origPtr < ll.length)
    (hfits : ll.length ≤ 100000 * h.blockSize100k) (hblock : h.blockSize100k ≤ 9)
    (hll4 : h.smallDecompress = true → ll.length ≤ 2 * h.ll4.length) :
    Returns (invert h ll cftab) fun (arrays, tPos) =>
      Produces (arrays.get h.blockSize100k) tPos (rowByte ll h.origPtr) ∧
        (arrays.ll4 h.ll4).length = h.ll4.length := by
  rw [invert]
  split
  · rename_i hsmall
    refine Returns.bind ((returns_invertSmall hcftab (by omega) horig ?_ (hll4 hsmall) ?_).and
      fun a => length_of_invertSmall) fun a ha => ?_
    · exact Nat.le_of_eq (List.length_map _).symm
    · intro j c hc
      show (ll.map UInt8.toUInt16)[j]? = _
      rw [List.getElem?_map, hc, Option.map_some]
    · exact Returns.pure ⟨produces_getSmall hcftab (by omega) hfits horig ha.1, ha.2⟩
  · refine Returns.bind (returns_fillTt hcftab (by omega)) ?_
    rintro ⟨tt, _⟩ ⟨-, htt⟩
    have hget : ll[h.origPtr]? = some ll[h.origPtr] := List.getElem?_eq_getElem horig
    have hrow := nextRow_lt horig
    refine Returns.bind (Returns.of_eq (htt _ _ hget) rfl) ?_
    rintro _ rfl
    refine Returns.pure ⟨?_, rfl⟩
    show Produces (getFast _ tt) (pack _ _ >>> 8) _
    rw [pack_shiftRight _ (by omega)]
    exact produces_getFast (by omega) hfits horig htt

/-- The state before the first byte of a block is written. -/
structure Output.Begins (s : Output Fetch) (b : Block) (f : ℕ → UInt8) : Prop
    extends s.At b.get f b.saveNblock where
  stateOutLen : s.stateOutLen = 0
  nblockUsed : s.nblockUsed = 1
  calculatedBlockCRC : s.calculatedBlockCRC = initialiseCRC

/-- A block is ready for output if `origPtr` is one of its rows. -/
theorem returns_finishBlock (hcounts : Counts v.unzftab v.ll) (horig : h.origPtr < v.ll.length)
    (hfits : v.ll.length ≤ 100000 * h.blockSize100k) (hblock : h.blockSize100k ≤ 9)
    (hll4 : h.smallDecompress = true → v.ll.length ≤ 2 * h.ll4.length) :
    Returns (finishBlock h v) fun r => ∃ b s, r = .output b s ∧
      b.storedBlockCRC = h.storedBlockCRC ∧ b.saveNblock = v.ll.length ∧
      (b.arrays.ll4 h.ll4).length = h.ll4.length ∧
      s.Begins b (unmask h.blockRandomised (rowByte v.ll h.origPtr)) := by
  rw [finishBlock]
  dsimp only
  rw [if_neg (Nat.not_le.mpr horig), if_neg (by rw [hcounts.inRange]; decide)]
  refine Returns.bind (returns_makeCftab hcounts.2) fun cftab hcftab => ?_
  rw [if_neg (by rw [hcftab.inRange]; decide), if_neg (by rw [hcftab.nonDescending]; decide)]
  refine Returns.bind (returns_invert hcftab horig hfits hblock hll4) ?_
  rintro ⟨arrays, tPos⟩ ⟨hproduces, hll4'⟩
  dsimp only at hproduces hll4' ⊢
  have hget := Block.produces_get (b := ⟨h.blockSize100k, h.blockRandomised, h.storedBlockCRC,
    v.ll.length, arrays⟩) hproduces
  obtain ⟨p, hfirst, hrest⟩ := Output.first_of_produces hget
  refine Returns.bind (Returns.of_eq hfirst rfl) ?_
  rintro _ rfl
  refine Returns.pure ⟨_, _, rfl, rfl, rfl, hll4', ⟨⟨fun _ => rfl, hrest⟩, rfl, rfl, rfl⟩⟩

theorem finishBlock_of_le (horig : v.ll.length ≤ h.origPtr) :
    finishBlock h v = some .dataError := by
  rw [finishBlock]
  dsimp only
  rw [if_pos horig]
  rfl

end Finish

end StudyNotes.Bzip2
