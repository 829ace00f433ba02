/-
# The values of a block

`generateMTFValues` goes along the last column of the sorted rotations, moves each symbol to
the front of a list and writes the place where it was found; runs of the place 0 are written
as numbers with the digits `BZ_RUNA` and `BZ_RUNB`.  The values are written over the sorted
order, which is read from the same memory: they never overtake it.
-/

import StudyNotes.Lib.BijectiveBinary
import StudyNotes.Bzip2.MoveToFront
import StudyNotes.Bzip2.BlockInverse

namespace StudyNotes.Bzip2

open StudyNotes.Checked StudyNotes.MoveToFront StudyNotes.BijectiveBinary

/-- `BZ_RUNA`. -/
def runA : ℕ := 0

/-- `BZ_RUNB`. -/
def runB : ℕ := 1

/-! ## The bytes that occur -/

/-- `makeMaps_e`: the table `unseqToSeq` and `nInUse`. -/
def makeMapsE (inUse : List Bool) (unseqToSeq : List UInt8) : Option (List UInt8 × ℕ) :=
  loop 0 256 (fun i (unseqToSeq, nInUse) => do
    if ← inUse[i]? then return (← write unseqToSeq i (.ofNat nInUse), nInUse + 1)
    else return (unseqToSeq, nInUse)) (unseqToSeq, 0)

/-- `makeMaps_d`: of `seqToUnseq` the part that is filled, which has `nInUse` places. -/
def makeMapsD (inUse : List Bool) : Option (List UInt8) :=
  loop 0 256 (fun i seqToUnseq => do
    if ← inUse[i]? then push 256 seqToUnseq (.ofNat i) else return seqToUnseq) []

/-- The bytes below `n` that occur, in their order. -/
def occurring (inUse : List Bool) (n : ℕ) : List UInt8 :=
  ((List.range n).filter fun i => inUse[i]? = some true).map .ofNat

section Maps

variable {inUse : List Bool} {unseqToSeq : List UInt8} {c : UInt8} {k n : ℕ}

theorem occurring_succ (inUse : List Bool) (n : ℕ) :
    occurring inUse (n + 1) =
      occurring inUse n ++ if inUse[n]? = some true then [.ofNat n] else [] := by
  rw [occurring, List.range_succ, List.filter_append, List.map_append, List.filter_singleton,
    occurring]
  refine congrArg (_ ++ ·) ?_
  by_cases huse : inUse[n]? = some true
  · rw [if_pos huse, decide_eq_true huse]
    rfl
  · rw [if_neg huse, decide_eq_false huse]
    rfl

theorem length_occurring_le (inUse : List Bool) (n : ℕ) : (occurring inUse n).length ≤ n := by
  rw [occurring, List.length_map]
  exact Nat.le_trans (List.length_filter_le _ _) (Nat.le_of_eq List.length_range)

theorem mem_occurring (hn : n ≤ 256) :
    c ∈ occurring inUse n ↔ c.toNat < n ∧ inUse[c.toNat]? = some true := by
  simp only [occurring, List.mem_map, List.mem_filter, List.mem_range, decide_eq_true_eq]
  constructor
  · rintro ⟨i, ⟨hi, huse⟩, rfl⟩
    rw [UInt8.toNat_ofNat', Nat.mod_eq_of_lt (by omega)]
    exact ⟨hi, huse⟩
  · rintro ⟨hc, huse⟩
    exact ⟨c.toNat, ⟨hc, huse⟩, UInt8.ofNat_toNat⟩

/-- The decoder finds the bytes that occur. -/
theorem returns_makeMapsD (hsize : inUse.length = 256) :
    Returns (makeMapsD inUse) fun seqToUnseq => seqToUnseq = occurring inUse 256 := by
  refine Returns.loop (fun i seqToUnseq => seqToUnseq = occurring inUse i) (Nat.zero_le _) rfl ?_
  rintro i _ - hi rfl
  have hget : inUse[i]? = some inUse[i] := List.getElem?_eq_getElem (by omega)
  refine Returns.bind (Returns.of_eq hget rfl) ?_
  rintro _ rfl
  rw [occurring_succ, hget]
  cases inUse[i] with
  | true =>
      have hfits := length_occurring_le inUse i
      exact Returns.of_eq (push_eq (by omega) _) rfl
  | false => exact Returns.pure (List.append_nil _).symm

/-- The encoder numbers them. -/
theorem returns_makeMapsE (hsize : inUse.length = 256) (hseq : unseqToSeq.length = 256) :
    Returns (makeMapsE inUse unseqToSeq) fun (unseqToSeq, nInUse) =>
      nInUse = (occurring inUse 256).length ∧
        ∀ k (c : UInt8), (occurring inUse 256)[k]? = some c →
          unseqToSeq[c.toNat]? = some (.ofNat k) := by
  refine (Returns.loop (fun i (s : List UInt8 × ℕ) => s.1.length = 256 ∧
    s.2 = (occurring inUse i).length ∧ ∀ k (c : UInt8), (occurring inUse i)[k]? = some c →
      s.1[c.toNat]? = some (.ofNat k)) (Nat.zero_le _) ?_ ?_).mono fun _ h => h.2
  · refine ⟨hseq, rfl, ?_⟩
    intro k c hc
    cases hc
  · rintro i ⟨table, nInUse⟩ - hi ⟨hlen, hcount, htable⟩
    dsimp only at hlen hcount htable
    have hget : inUse[i]? = some inUse[i] := List.getElem?_eq_getElem (by omega)
    refine Returns.bind (Returns.of_eq hget rfl) ?_
    rintro _ rfl
    rw [occurring_succ, hget]
    cases inUse[i] with
    | true =>
        refine Returns.bind (Returns.of_eq (write_eq (by omega) _) rfl) ?_
        rintro _ rfl
        refine Returns.pure ⟨by rw [List.length_set, hlen], ?_, ?_⟩
        · rw [if_pos rfl, List.length_append, hcount]
          rfl
        · intro k c hc
          have hi' : (UInt8.ofNat i).toNat = i := by
            rw [UInt8.toNat_ofNat', Nat.mod_eq_of_lt (by omega)]
          rw [if_pos rfl, List.getElem?_append] at hc
          split at hc
          · have hlt : c.toNat < i := ((mem_occurring (by omega)).mp (List.mem_of_getElem? hc)).1
            rw [List.getElem?_set_ne (by omega)]
            exact htable k c hc
          · rw [List.getElem?_singleton] at hc
            split at hc
            · cases hc
              rw [hi', List.getElem?_set_self (by omega), hcount]
              exact congrArg (fun k => some (UInt8.ofNat k)) (by omega)
            · cases hc
    | false =>
        rw [if_neg (by decide), if_neg (by decide), List.append_nil]
        exact Returns.pure ⟨hlen, hcount, htable⟩

end Maps

/-! ## The encoder -/

/-- The part of `EState` that the values are written to: the memory of `arr1` as numbers of 16
bits, and of these `wr` written. -/
structure MtfWriter where
  arr1 : List UInt16
  wr : ℕ
  mtfFreq : List ℕ

/-- `ptr[i]`, which has the lower 16 bits first. -/
def ptrAt (arr1 : List UInt16) (i : ℕ) : Option ℕ := do
  return (← arr1[2 * i]?).toNat + 2 ^ 16 * (← arr1[2 * i + 1]?).toNat

namespace MtfWriter

/-- `mtfv[wr] = v; wr++; s->mtfFreq[v]++`. -/
def put (w : MtfWriter) (v : ℕ) : Option MtfWriter := do
  return { arr1 := ← write w.arr1 w.wr (.ofNat v)
           wr := w.wr + 1
           mtfFreq := ← write w.mtfFreq v ((← w.mtfFreq[v]?) + 1) }

/-- The loop that writes a run, after `zPend--`. -/
def putRun (w : MtfWriter) (zPend : ℕ) : Option MtfWriter := do
  let w ← w.put (if zPend % 2 = 1 then runB else runA)
  if zPend < 2 then return w else putRun w ((zPend - 2) / 2)

/-- Writes the run that is pending, if any. -/
def flush (w : MtfWriter) (zPend : ℕ) : Option MtfWriter :=
  if zPend > 0 then w.putRun (zPend - 1) else some w

end MtfWriter

/-- A turn of the loop over the sorted order, for `ptr[i]`. -/
def mtfTurn (block unseqToSeq : List UInt8) (i : ℕ) (s : List UInt8 × ℕ × MtfWriter) :
    Option (List UInt8 × ℕ × MtfWriter) := do
  let (yy, zPend, w) := s
  let j : ℤ := (← ptrAt w.arr1 i) - 1
  let j := if j < 0 then j + block.length else j
  let ll ← unseqToSeq[(← block[← index j]?).toNat]?
  if (← yy[0]?) = ll then return (yy, zPend + 1, w)
  else
    let w ← w.flush zPend
    let (yy, j) ← seek ll (← write yy 1 (← yy[0]?)) 1 (← yy[1]?)
    return (yy, 0, ← w.put (j + 1))

/-- `generateMTFValues`, with what `unseqToSeq` and `mtfFreq` hold before.  It returns `nInUse`
too. -/
def generateMTFValues (block : List UInt8) (inUse : List Bool) (unseqToSeq : List UInt8)
    (arr1 : List UInt16) (mtfFreq : List ℕ) : Option (MtfWriter × ℕ) := do
  let (unseqToSeq, nInUse) ← makeMapsE inUse unseqToSeq
  let eob := nInUse + 1
  let mtfFreq ← loop 0 (eob + 1) (fun i mtfFreq => write mtfFreq i 0) mtfFreq
  let yy := (List.range nInUse).map UInt8.ofNat
  let (_, zPend, w) ←
    loop 0 block.length (mtfTurn block unseqToSeq) (yy, 0, ⟨arr1, 0, mtfFreq⟩)
  let w ← w.flush zPend
  return (← w.put eob, nInUse)

/-! ### What is written -/

/-- A run of the place 0. -/
def runValues (zPend : ℕ) : List ℕ := (digits zPend).map (· - 1)

/-- The values for some places, after a run that is pending. -/
def valuesOf (zPend : ℕ) : List ℕ → List ℕ
  | [] => runValues zPend
  | 0 :: ps => valuesOf (zPend + 1) ps
  | (p + 1) :: ps => runValues zPend ++ (p + 2) :: valuesOf 0 ps

/-- The values so far, in memory that was otherwise left as it was. -/
structure MtfWriter.Written (arr1 : List UInt16) (eob : ℕ) (w : MtfWriter) (values : List ℕ) :
    Prop where
  wr : w.wr = values.length
  mtfv : ∀ (k v : ℕ), values[k]? = some v → w.arr1[k]? = some (UInt16.ofNat v)
  kept : ∀ k, values.length ≤ k → w.arr1[k]? = arr1[k]?
  le : ∀ v ∈ values, v ≤ eob
  mtfFreq : ∀ v ≤ eob, w.mtfFreq[v]? = some (values.count v)

section Encoder

variable {arr1 : List UInt16} {eob zPend v : ℕ} {w : MtfWriter} {values : List ℕ}

theorem MtfWriter.Written.returns_put (h : w.Written arr1 eob values)
    (hfits : values.length < arr1.length) (hv : v ≤ eob) :
    Returns (w.put v) fun w => w.Written arr1 eob (values ++ [v]) := by
  have hinside : w.wr < w.arr1.length := by
    have hkept := h.kept values.length (Nat.le_refl _)
    rw [List.getElem?_eq_getElem hfits] at hkept
    rw [h.wr]
    exact (List.getElem?_eq_some_iff.mp hkept).1
  have hfreq := h.mtfFreq v hv
  refine Returns.bind (Returns.of_eq (write_eq hinside _) rfl) ?_
  rintro _ rfl
  refine Returns.bind (Returns.of_eq hfreq rfl) ?_
  rintro _ rfl
  refine Returns.bind (Returns.of_eq (write_eq (List.getElem?_eq_some_iff.mp hfreq).1 _) rfl) ?_
  rintro _ rfl
  refine Returns.pure ⟨?_, ?_, ?_, ?_, ?_⟩
  · rw [List.length_append, h.wr]
    rfl
  · intro k u hu
    show (w.arr1.set _ _)[k]? = _
    rw [List.getElem?_append] at hu
    split at hu
    · rw [List.getElem?_set_ne (by rw [h.wr]; omega)]
      exact h.mtfv k u hu
    · rw [List.getElem?_singleton] at hu
      split at hu
      · cases hu
        obtain rfl : k = w.wr := by
          rw [h.wr]
          omega
        exact List.getElem?_set_self hinside
      · cases hu
  · intro k hk
    rw [List.length_append, List.length_singleton] at hk
    show (w.arr1.set _ _)[k]? = _
    rw [List.getElem?_set_ne (by rw [h.wr]; omega), h.kept k (by omega)]
  · intro u hu
    rcases List.mem_append.mp hu with hold | hnew
    · exact h.le u hold
    · rw [List.mem_singleton.mp hnew]
      exact hv
  · intro u hu
    show (w.mtfFreq.set _ _)[u]? = _
    rw [List.count_append, List.count_singleton, List.getElem?_set]
    by_cases heq : v = u
    · rw [if_pos heq, if_pos (List.getElem?_eq_some_iff.mp hfreq).1, heq, beq_self_eq_true,
        if_pos rfl]
    · rw [if_neg heq, h.mtfFreq u hu, if_neg (by rw [beq_iff_eq]; exact heq), Nat.add_zero]

theorem runValues_succ (zPend : ℕ) :
    runValues (zPend + 1) =
      (if zPend % 2 = 1 then runB else runA) ::
        if zPend < 2 then [] else runValues ((zPend - 2) / 2 + 1) := by
  rw [runValues, digits_of_pos (Nat.succ_pos zPend), List.map_cons, Nat.succ_sub_one]
  congr 1
  · rcases Nat.mod_two_eq_zero_or_one zPend with hmod | hmod
    · rw [if_neg (by omega), if_neg (by omega)]
      rfl
    · rw [if_pos (by omega), if_pos hmod]
      rfl
  · split
    · rw [show zPend / 2 = 0 by omega, digits_zero]
      rfl
    · rw [show zPend / 2 = (zPend - 2) / 2 + 1 by omega]
      rfl

theorem MtfWriter.Written.returns_putRun (h : w.Written arr1 eob values) (heob : 1 ≤ eob)
    (hfits : values.length + (runValues (zPend + 1)).length ≤ arr1.length) :
    Returns (w.putRun zPend) fun w => w.Written arr1 eob (values ++ runValues (zPend + 1)) := by
  induction zPend using Nat.strongRecOn generalizing w values with
  | ind zPend ih =>
      rw [runValues_succ, List.length_cons] at hfits
      rw [putRun, runValues_succ]
      have hle : (if zPend % 2 = 1 then runB else runA) ≤ eob := by
        split
        · exact heob
        · exact Nat.zero_le _
      refine Returns.bind (h.returns_put (by omega) hle) fun w hw => ?_
      split
      · exact Returns.pure hw
      · rename_i hmore
        rw [if_neg hmore] at hfits
        refine (ih _ (by omega) hw ?_).mono ?_
        · rw [List.length_append, List.length_singleton]
          omega
        · intro w hw
          rw [List.append_assoc] at hw
          exact hw

theorem length_runValues_le (zPend : ℕ) : (runValues zPend).length ≤ zPend := by
  rw [runValues, List.length_map]
  exact length_digits_le zPend

theorem MtfWriter.Written.returns_flush (h : w.Written arr1 eob values) (heob : 1 ≤ eob)
    (hfits : values.length + zPend ≤ arr1.length) :
    Returns (w.flush zPend) fun w => w.Written arr1 eob (values ++ runValues zPend) := by
  cases zPend with
  | zero =>
      rw [flush, if_neg (Nat.lt_irrefl 0), runValues, digits_zero, List.map_nil, List.append_nil]
      exact Returns.pure h
  | succ zPend =>
      have hshort := length_runValues_le (zPend + 1)
      rw [flush, if_pos (Nat.succ_pos zPend), Nat.add_sub_cancel]
      exact h.returns_putRun heob (by omega)

/-- The last bytes of the rotations, in the sorted order that `ptr` holds. -/
def LastBytes (block : List UInt8) (arr1 : List UInt16) (ll : List UInt8) : Prop :=
  ll.length = block.length ∧ ∀ i c, ll[i]? = some c → ∃ p < block.length,
    ptrAt arr1 i = some p ∧ block[(p + block.length - 1) % block.length]? = some c

theorem index_before {p size : ℕ} (hp : p < size) :
    index (if ((p : ℤ) - 1) < 0 then (p : ℤ) - 1 + size else (p : ℤ) - 1) =
      some ((p + size - 1) % size) := by
  rcases Nat.eq_zero_or_pos p with rfl | hpos
  · have hlast : ((0 : ℕ) : ℤ) - 1 + size = (size - 1 : ℕ) := by omega
    rw [if_pos (by omega), hlast, index_natCast, Nat.zero_add, Nat.mod_eq_of_lt (by omega)]
  · have hbefore : (p : ℤ) - 1 = (p - 1 : ℕ) := by omega
    rw [if_neg (by omega), hbefore, index_natCast, show p + size - 1 = p - 1 + size by omega,
      Nat.add_mod_right, Nat.mod_eq_of_lt (by omega)]

/-- The loop of `generateMTFValues` begins at the second symbol. -/
theorem seek_second {symbols : List UInt8} {first second c : UInt8} (hc : c ∈ symbols)
    (hfirst : symbols[0]? = some first) (hsecond : symbols[1]? = some second) (hne : first ≠ c) :
    seek c (symbols.set 1 first) 1 second =
      some (toFront symbols (symbols.idxOf c), symbols.idxOf c) := by
  have hplace := getElem?_idxOf hc
  have hpos : 1 ≤ symbols.idxOf c := by
    by_contra hzero
    rw [show symbols.idxOf c = 0 by omega, hfirst] at hplace
    exact hne (Option.some.inj hplace)
  have hlt := (List.getElem?_eq_some_iff.mp hsecond).1
  refine seek_eq List.length_set hpos hplace (fun k => getElem?_ne_of_lt_idxOf) hsecond
    fun k hk => ?_
  rw [List.getElem?_set]
  by_cases hone : 1 = k
  · rw [if_pos hone, if_pos hlt, if_pos (Nat.le_of_eq hone.symm), ← hone, Nat.sub_self, hfirst]
  · rw [if_neg hone, if_neg (by omega)]

/-- After `i` turns. -/
structure Encoding (arr1 : List UInt16) (eob : ℕ) (symbols lls : List UInt8) (i : ℕ)
    (s : List UInt8 × ℕ × MtfWriter) : Prop where
  perm : s.1.Perm symbols
  written : ∃ values, s.2.2.Written arr1 eob values ∧ values.length + s.2.1 ≤ i ∧
    values ++ valuesOf s.2.1 (places s.1 (lls.drop i)) = valuesOf 0 (places symbols lls)

theorem Encoding.returns_mtfTurn {block unseqToSeq ll lls symbols : List UInt8} {i : ℕ}
    {s : List UInt8 × ℕ × MtfWriter} (hll : LastBytes block arr1 ll)
    (hsize : block.length ≤ arr1.length) (hlls : lls.length = ll.length)
    (hseq : ∀ (k : ℕ) (c b : UInt8), ll[k]? = some c → lls[k]? = some b →
      unseqToSeq[c.toNat]? = some b)
    (hmem : ∀ b ∈ lls, b ∈ symbols) (heob : symbols.length < eob) (hi : i < block.length)
    (h : Encoding arr1 eob symbols lls i s) :
    Returns (mtfTurn block unseqToSeq i s) (Encoding arr1 eob symbols lls (i + 1)) := by
  obtain ⟨yy, zPend, w⟩ := s
  obtain ⟨hperm, values, hw, hroom, hvalues⟩ := h
  dsimp only at hperm hw hroom hvalues
  have hi' : i < lls.length := by rw [hlls, hll.1]; exact hi
  have hbyte : ll[i]? = some ll[i] := List.getElem?_eq_getElem (by rw [hll.1]; exact hi)
  have hsymbol : lls[i]? = some lls[i] := List.getElem?_eq_getElem hi'
  obtain ⟨p, hp, hptr, hblock⟩ := hll.2 i _ hbyte
  have hptr' : ptrAt w.arr1 i = some p := by
    rw [ptrAt, hw.kept _ (by omega), hw.kept _ (by omega)]
    exact hptr
  have hin : lls[i] ∈ yy := hperm.mem_iff.mpr (hmem _ (List.getElem_mem hi'))
  have hyy : yy.length = symbols.length := hperm.length_eq
  have hlt := List.idxOf_lt_length_of_mem hin
  have hfirst : yy[0]? = some yy[0] := List.getElem?_eq_getElem (by omega)
  have hnext : places yy (lls.drop i) =
      yy.idxOf lls[i] :: places (toFront yy (yy.idxOf lls[i])) (lls.drop (i + 1)) := by
    rw [List.drop_eq_getElem_cons hi', places]
  rw [hnext] at hvalues
  rw [mtfTurn]
  refine Returns.bind (Returns.of_eq hptr' rfl) ?_
  rintro _ rfl
  refine Returns.bind (Returns.of_eq (index_before hp) rfl) ?_
  rintro _ rfl
  refine Returns.bind (Returns.of_eq hblock rfl) ?_
  rintro _ rfl
  refine Returns.bind (Returns.of_eq (hseq i _ _ hbyte hsymbol) rfl) ?_
  rintro _ rfl
  refine Returns.bind (Returns.of_eq hfirst rfl) ?_
  rintro _ rfl
  by_cases hsame : yy[0] = lls[i]
  · have hzero : yy.idxOf lls[i] = 0 := by
      by_contra hne
      rw [hsame] at hfirst
      exact getElem?_ne_of_lt_idxOf (Nat.pos_of_ne_zero hne) hfirst
    rw [hzero] at hvalues
    rw [if_pos hsame]
    rw [toFront_zero (by omega)] at hvalues
    exact Returns.pure ⟨hperm, values, hw, Nat.succ_le_succ hroom, hvalues⟩
  · obtain ⟨n, hn⟩ : ∃ n, yy.idxOf lls[i] = n + 1 := by
      refine Nat.exists_eq_succ_of_ne_zero fun hzero => hsame ?_
      have hplace := getElem?_idxOf hin
      rw [hzero, hfirst] at hplace
      exact Option.some.inj hplace
    rw [if_neg hsame]
    refine Returns.bind (hw.returns_flush (by omega) (by omega)) fun w' hw' => ?_
    have hshort := length_runValues_le zPend
    have hsecond : yy[1]? = some yy[1] := List.getElem?_eq_getElem (by omega)
    refine Returns.bind (Returns.of_eq hfirst rfl) ?_
    rintro _ rfl
    refine Returns.bind (Returns.of_eq (write_eq (by omega) _) rfl) ?_
    rintro _ rfl
    refine Returns.bind (Returns.of_eq hsecond rfl) ?_
    rintro _ rfl
    refine Returns.bind (Returns.of_eq (seek_second hin hfirst hsecond hsame) rfl) ?_
    rintro _ rfl
    rw [hn] at hvalues hlt ⊢
    have hroom' : (values ++ runValues zPend).length < arr1.length := by
      rw [List.length_append]
      omega
    refine Returns.bind (hw'.returns_put hroom' (show n + 1 + 1 ≤ eob by omega)) fun w'' hw'' => ?_
    refine Returns.pure ⟨(toFront_perm hlt).trans hperm, _, hw'', ?_, ?_⟩
    · rw [List.length_append, List.length_append, List.length_singleton]
      dsimp only
      omega
    · rw [← hvalues, valuesOf, List.append_assoc, List.append_assoc]
      rfl

/-- The numbers that the encoder gives to the bytes of a text. -/
def numbered (alphabet text : List UInt8) : List UInt8 :=
  text.map fun c => .ofNat (alphabet.idxOf c)

/-- The first so many numbers. -/
def firstBytes (n : ℕ) : List UInt8 := (List.range n).map UInt8.ofNat

theorem toNat_idxOf {alphabet : List UInt8} {c : UInt8} (hc : c ∈ alphabet)
    (hsize : alphabet.length ≤ 256) :
    (UInt8.ofNat (alphabet.idxOf c)).toNat = alphabet.idxOf c := by
  have hlt := List.idxOf_lt_length_of_mem hc
  rw [UInt8.toNat_ofNat', Nat.mod_eq_of_lt (by omega)]

theorem mem_firstBytes {n : ℕ} {b : UInt8} (hn : n ≤ 256) : b ∈ firstBytes n ↔ b.toNat < n := by
  rw [firstBytes, List.mem_map]
  constructor
  · rintro ⟨i, hi, rfl⟩
    rw [List.mem_range] at hi
    rw [UInt8.toNat_ofNat', Nat.mod_eq_of_lt (by omega)]
    exact hi
  · intro hb
    exact ⟨b.toNat, List.mem_range.mpr hb, UInt8.ofNat_toNat⟩

theorem length_firstBytes (n : ℕ) : (firstBytes n).length = n := by
  rw [firstBytes, List.length_map, List.length_range]

/-- The values of a block. -/
theorem returns_generateMTFValues {block unseqToSeq ll : List UInt8} {inUse : List Bool}
    {mtfFreq : List ℕ} (hinUse : inUse.length = 256) (hunseq : unseqToSeq.length = 256)
    (hfreq : mtfFreq.length = 258) (hsize : block.length < arr1.length)
    (hll : LastBytes block arr1 ll) (hmem : ∀ c ∈ ll, c ∈ occurring inUse 256) :
    Returns (generateMTFValues block inUse unseqToSeq arr1 mtfFreq) fun (w, nInUse) =>
      nInUse = (occurring inUse 256).length ∧
        w.Written arr1 (nInUse + 1) (valuesOf 0 (places (firstBytes nInUse)
          (numbered (occurring inUse 256) ll)) ++ [nInUse + 1]) := by
  have hcount := length_occurring_le inUse 256
  refine Returns.bind (returns_makeMapsE hinUse hunseq) ?_
  rintro ⟨unseqToSeq, nInUse⟩ ⟨rfl, hseq⟩
  dsimp only at hseq ⊢
  generalize halphabet : occurring inUse 256 = alphabet at hmem hseq hcount ⊢
  have hlls : ∀ b ∈ numbered alphabet ll, b ∈ firstBytes alphabet.length := by
    intro b hb
    obtain ⟨c, hc, rfl⟩ := List.mem_map.mp hb
    rw [mem_firstBytes hcount, toNat_idxOf (hmem c hc) hcount]
    exact List.idxOf_lt_length_of_mem (hmem c hc)
  have hseq' : ∀ (k : ℕ) (c b : UInt8), ll[k]? = some c →
      (numbered alphabet ll)[k]? = some b → unseqToSeq[c.toNat]? = some b := by
    intro k c b hc hb
    rw [numbered, List.getElem?_map, hc, Option.map_some] at hb
    rw [← Option.some.inj hb]
    exact hseq _ _ (getElem?_idxOf (hmem c (List.mem_of_getElem? hc)))
  refine Returns.bind (Returns.loop (fun i mtfFreq => mtfFreq.length = 258 ∧
    ∀ v < i, mtfFreq[v]? = some 0) (Nat.zero_le _)
    ⟨hfreq, fun v hv => absurd hv (Nat.not_lt_zero v)⟩ ?_) ?_
  · rintro i mtfFreq - hi ⟨hlen, hzero⟩
    refine Returns.of_eq (write_eq (by omega) _) ⟨by rw [List.length_set, hlen], fun v hv => ?_⟩
    rw [List.getElem?_set]
    by_cases heq : i = v
    · rw [if_pos heq, if_pos (by omega)]
    · rw [if_neg heq, hzero v (by omega)]
  rintro mtfFreq ⟨-, hzero⟩
  refine Returns.bind (Returns.loop
    (Encoding arr1 (alphabet.length + 1) (firstBytes alphabet.length) (numbered alphabet ll))
    (Nat.zero_le _) ?_ ?_) ?_
  · refine ⟨List.Perm.refl _, [], ⟨rfl, (fun _ _ hk => by cases hk), fun _ _ => rfl,
      List.forall_mem_nil _, ?_⟩, Nat.le_refl 0, rfl⟩
    intro v hv
    rw [List.count_nil]
    exact hzero v (by omega)
  · intro i s _ hi hs
    refine hs.returns_mtfTurn hll (Nat.le_of_lt hsize) (List.length_map _) hseq' hlls ?_ hi
    rw [length_firstBytes]
    exact Nat.lt_succ_self _
  rintro ⟨yy, zPend, w⟩ ⟨-, values, hw, hroom, hvalues⟩
  dsimp only at hw hroom hvalues
  have hend : valuesOf zPend (places yy ((numbered alphabet ll).drop block.length)) =
      runValues zPend := by
    rw [List.drop_of_length_le (by rw [numbered, List.length_map, hll.1]), places, valuesOf]
  rw [hend] at hvalues
  have hflush := hw.returns_flush (Nat.succ_pos _)
    (show values.length + zPend ≤ arr1.length by omega)
  refine Returns.bind hflush fun w hw => ?_
  rw [hvalues] at hw
  have hshort := length_runValues_le zPend
  refine Returns.bind (hw.returns_put ?_ (Nat.le_refl _)) fun w hw => ?_
  · rw [← hvalues, List.length_append]
    omega
  · exact Returns.pure ⟨rfl, hw⟩

end Encoder

end StudyNotes.Bzip2
