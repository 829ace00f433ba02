/-
# The reconstruction loop of `bspatch.c`

`executePatch` rebuilds the new file in the buffer `pnew` from the old file, in `pold`, and
three bzip2 streams.  Each round reads three lengths from the control stream, reads that
many bytes of the diff stream into `pnew`, adds bytes of `pold` to them, and reads more
bytes from the extra stream.  `long` has 32 bits on the configured ABI, so the sums that
the checks compare may wrap.

The bzip2 library enters as a parameter: its streams, and what one call of `BZ2_bzRead`
stores and reports.  A round records every byte it stores through `pnew` and every byte it
loads from `pold`, also where it ends in `err`.
-/

import Mathlib.Data.Int.Basic
import StudyNotes.Lib.Machine
import StudyNotes.Lib.Traced

namespace StudyNotes.Bspatch

abbrev Bytes := List UInt8

/-- The bytes reached from a pointer, by their distance from it. -/
abbrev Memory := ℤ → UInt8

/-- `offtin`: eight bytes, least significant first, with the sign in the top bit of the
last.  The magnitude has 63 bits and `long` keeps the lower 32 of them. -/
def offtin (buf : Bytes) : Int32 :=
  let digit (k : ℕ) : UInt8 := buf.getD k 0
  let y : Int32 := [6, 5, 4, 3, 2, 1, 0].foldl (fun y k => y * 256 + .ofNat (digit k).toNat)
    (.ofNat (digit 7 &&& 0x7F).toNat)
  if digit 7 &&& 0x80 ≠ 0 then -y else y

/-! ## The library -/

def bzOk : ℤ := 0

def bzStreamEnd : ℤ := 4

/-- What one call of `BZ2_bzRead` does: the bytes it stores from the given address on, the
count it returns, its error code, and the stream afterwards. -/
structure BzRead (σ : Type) where
  stored : Bytes
  lenread : Int32
  bzerror : ℤ
  rest : σ

/-- The check after each read, `lenread < len` or an error code other than the two good
ones, passes. -/
def BzRead.Good {σ : Type} (r : BzRead σ) (len : Int32) : Prop :=
  ¬ r.lenread < len ∧ (r.bzerror = bzOk ∨ r.bzerror = bzStreamEnd)

instance {σ : Type} (r : BzRead σ) (len : Int32) : Decidable (r.Good len) :=
  inferInstanceAs (Decidable (_ ∧ _))

/-- The reading half of libbzip2 over streams `σ`.  No call stores more than `len` bytes or
claims more than it stored, and a negative `len` is a parameter error. -/
structure Bzlib (σ : Type) where
  bzRead : σ → Int32 → BzRead σ
  stored_le : ∀ s len, (bzRead s len).stored.length ≤ len.toNatClampNeg
  lenread_le : ∀ s len, (bzRead s len).lenread.toInt ≤ (bzRead s len).stored.length
  bzerror_of_neg : ∀ s len, len < 0 →
    (bzRead s len).bzerror ≠ bzOk ∧ (bzRead s len).bzerror ≠ bzStreamEnd

/-! ## One round -/

/-- The buffers of the loop.  The header check has refused a negative `newsize`. -/
structure Buffers where
  pold : Memory
  oldsize : Int32
  newsize : Int32
  newsize_nonneg : 0 ≤ newsize.toInt

/-- The variables of the loop, and the three streams. -/
structure State (σ : Type) where
  oldpos : Int32
  newpos : Int32
  pnew : Memory
  control : σ
  diff : σ
  extra : σ

/-- A byte stored through `pnew`, or loaded from `pold`, at an index. -/
inductive Access where
  | store (index : ℤ)
  | load (index : ℤ)
deriving DecidableEq

/-- The index lies in the buffer. -/
def Access.InBounds (b : Buffers) : Access → Prop
  | .store i => 0 ≤ i ∧ i < b.newsize.toInt
  | .load i => 0 ≤ i ∧ i < b.oldsize.toInt

instance (b : Buffers) : DecidablePred (Access.InBounds b)
  | .store _ => inferInstanceAs (Decidable (_ ∧ _))
  | .load _ => inferInstanceAs (Decidable (_ ∧ _))

/-- Bytes stored from an index on. -/
def store (pnew : Memory) (index : ℤ) (stored : Bytes) : Memory := fun i =>
  if index ≤ i ∧ i < index + stored.length then stored.getD (i - index).toNat 0 else pnew i

/-- A control triple, and the stream after it. -/
structure Control (σ : Type) where
  x : Int32
  y : Int32
  z : Int32
  rest : σ

/-- `pnew` after a read into it, and the stream after it. -/
structure Filled (σ : Type) where
  pnew : Memory
  rest : σ

section

variable {σ : Type} (lib : Bzlib σ) (b : Buffers)

/-- One turn of the loop that reads the triple; `buf` is a local array of eight bytes. -/
def readLength (control : σ) : Option (Int32 × σ) :=
  let r := lib.bzRead control 8
  if r.Good 8 then some (offtin r.stored, r.rest) else none

def readControl (control : σ) : Option (Control σ) := do
  let (x, control) ← readLength lib control
  let (y, control) ← readLength lib control
  let (z, control) ← readLength lib control
  return ⟨x, y, z, control⟩

/-- The check of a length against what is left of the new file, and the read into `pnew`:
the same lines for the diff string and for the extra string. -/
def readInto (pnew : Memory) (newpos len : Int32) (stream : σ) : Traced Access (Filled σ) :=
  if newpos + len > b.newsize then
    .stop
  else
    let r := lib.bzRead stream len
    { events := (List.range r.stored.length).map fun (k : ℕ) => .store (newpos.toInt + k)
      result := if r.Good len then some ⟨store pnew newpos.toInt r.stored, r.rest⟩ else none }

/-- One byte of `pold` is added to the diff string, unless it lies outside the old file. -/
def addByte (oldpos newpos : Int32) (pnew : Memory) (k : ℕ) : Traced Access Memory :=
  let i := Int32.ofNat k
  if oldpos + i ≥ 0 ∧ oldpos + i < b.oldsize then
    let sum := pnew (newpos + i).toInt + b.pold (oldpos + i).toInt
    { events := [.load (oldpos + i).toInt, .store (newpos + i).toInt]
      result := some (store pnew (newpos + i).toInt [sum]) }
  else
    pure pnew

/-- The first `n` turns of the loop that adds `pold` to the diff string. -/
def addOld (oldpos newpos : Int32) (pnew : Memory) : ℕ → Traced Access Memory
  | 0 => pure pnew
  | n + 1 => do
      let pnew ← addOld oldpos newpos pnew n
      addByte b oldpos newpos pnew n

/-- What follows the control triple in the body of the loop. -/
def applyControl (s : State σ) (c : Control σ) : Traced Access (State σ) := do
  let d ← readInto lib b s.pnew s.newpos c.x s.diff
  let pnew ← addOld b s.oldpos s.newpos d.pnew c.x.toNatClampNeg
  let newpos := s.newpos + c.x
  let oldpos := s.oldpos + c.x
  let e ← readInto lib b pnew newpos c.y s.extra
  return ⟨oldpos + c.z, newpos + c.y, e.pnew, c.rest, d.rest, e.rest⟩

/-- The body of the loop. -/
def round (s : State σ) : Traced Access (State σ) :=
  match readControl lib s.control with
  | none => .stop
  | some c => applyControl lib b s c

/-- The state at the `n`-th loop head, where the run gets that far. -/
def head (s : State σ) : ℕ → Option (State σ)
  | 0 => some s
  | n + 1 => do
      let t ← head s n
      if t.newpos < b.newsize then (round lib b t).result else none

/-! ## Staying in the buffers -/

/-- At a loop head `newpos` lies in the new file, and every access of the round that
follows, if there is one, lies in its buffer. -/
def Within (s : State σ) : Prop :=
  (0 ≤ s.newpos.toInt ∧ s.newpos.toInt ≤ b.newsize.toInt) ∧
    (s.newpos < b.newsize → (round lib b s).All (Access.InBounds b))

/-- A read passes the check before it and the check after it. -/
def Accepts (newpos len : Int32) (stream : σ) : Prop :=
  newpos + len ≤ b.newsize ∧ (lib.bzRead stream len).Good len

/-- The sum `newpos + len` does not fit in a `long`, and the call stores more bytes than are
left of the new file. -/
def OverrunsAt (newpos len : Int32) (stream : σ) : Prop :=
  2 ^ 31 ≤ newpos.toInt + len.toInt ∧
    b.newsize.toInt - newpos.toInt < (lib.bzRead stream len).stored.length

/-- One of the two reads of the round overruns the new file. -/
def Overruns (s : State σ) : Prop :=
  ∃ c, readControl lib s.control = some c ∧
    (OverrunsAt lib b s.newpos c.x s.diff ∨
      Accepts lib b s.newpos c.x s.diff ∧ OverrunsAt lib b (s.newpos + c.x) c.y s.extra)

variable {lib b}

theorem readInto_result_eq_some_iff {pnew : Memory} {newpos len : Int32} {stream : σ}
    {f : Filled σ} :
    (readInto lib b pnew newpos len stream).result = some f ↔
      Accepts lib b newpos len stream ∧
        f = ⟨store pnew newpos.toInt (lib.bzRead stream len).stored,
          (lib.bzRead stream len).rest⟩ := by
  unfold readInto Accepts
  by_cases hlen : newpos + len > b.newsize
  · simp [hlen, Int32.not_le.mpr hlen, Traced.stop]
  · by_cases hgood : (lib.bzRead stream len).Good len
    · simp [hlen, hgood, Int32.not_lt.mp hlen, eq_comm]
    · simp [hlen, hgood]

/-- A read that passed its checks had a length that was not negative, and got all of it. -/
theorem BzRead.Good.length {stream : σ} {len : Int32} (h : (lib.bzRead stream len).Good len) :
    0 ≤ len.toInt ∧ ((lib.bzRead stream len).stored.length : ℤ) = len.toInt := by
  have hle := lib.lenread_le stream len
  have hstored := lib.stored_le stream len
  have hread : len.toInt ≤ (lib.bzRead stream len).lenread.toInt := by
    simpa [Int32.lt_iff_toInt_lt] using h.1
  have hnonneg : ¬ len < 0 := by
    intro hneg
    obtain ⟨hok, hend⟩ := lib.bzerror_of_neg stream len hneg
    exact h.2.elim hok hend
  rw [Int32.lt_iff_toInt_lt, Int32.toInt_zero] at hnonneg
  rw [Int32.toNatClampNeg] at hstored
  omega

/-- A read that is accepted and does not overrun moves `newpos` exactly, within the new
file: where the sum wraps, the bytes that fit are fewer than the length. -/
theorem Accepts.toInt_add {newpos len : Int32} {stream : σ}
    (h : Accepts lib b newpos len stream) (hnew : 0 ≤ newpos.toInt)
    (hrun : ¬ OverrunsAt lib b newpos len stream) :
    0 ≤ len.toInt ∧ (newpos + len).toInt = newpos.toInt + len.toInt ∧
      newpos.toInt + len.toInt ≤ b.newsize.toInt := by
  obtain ⟨hcheck, hgood⟩ := h
  obtain ⟨hlen, hall⟩ := hgood.length
  have hnewsize := b.newsize.toInt_lt
  rw [Int32.le_iff_toInt_le] at hcheck
  simp only [OverrunsAt, not_and] at hrun
  rcases Machine.toInt_add_cases newpos len with hsum | ⟨hbig, hsum⟩ | ⟨hsmall, hsum⟩
  · exact ⟨hlen, hsum, hsum ▸ hcheck⟩
  · have := hrun hbig
    omega
  · omega

/-- From inside the new file, a read stores outside it exactly when it overruns. -/
theorem readInto_all_inBounds_iff {pnew : Memory} {newpos len : Int32} {stream : σ}
    (hnew : 0 ≤ newpos.toInt ∧ newpos.toInt ≤ b.newsize.toInt) :
    (readInto lib b pnew newpos len stream).All (Access.InBounds b) ↔
      ¬ OverrunsAt lib b newpos len stream := by
  have hnewsize := b.newsize.toInt_lt
  have hstored := lib.stored_le stream len
  have hcases := Machine.toInt_add_cases newpos len
  have hlen := len.toInt_lt
  have hsum := (newpos + len).toInt_lt
  rw [Int32.toNatClampNeg] at hstored
  by_cases hcheck : newpos + len > b.newsize
  · simp only [readInto, hcheck, if_true, Traced.all_stop, true_iff, OverrunsAt, not_and]
    rw [gt_iff_lt, Int32.lt_iff_toInt_lt] at hcheck
    omega
  · simp only [readInto, hcheck, if_false, Traced.All, List.mem_map, List.mem_range,
      forall_exists_index, and_imp, forall_apply_eq_imp_iff₂, Access.InBounds, OverrunsAt, not_and]
    rw [gt_iff_lt, Int32.lt_iff_toInt_lt] at hcheck
    constructor
    · intro hall hbig
      by_contra hover
      have := hall (b.newsize.toInt - newpos.toInt).toNat (by omega)
      omega
    · intro hfit k hk
      omega

/-- The bytes that are added lie in both buffers where the diff string does. -/
theorem addOld_all_inBounds {oldpos newpos : Int32} {pnew : Memory} {n : ℕ}
    (hnew : 0 ≤ newpos.toInt) (hn : newpos.toInt + n ≤ b.newsize.toInt) :
    (addOld b oldpos newpos pnew n).All (Access.InBounds b) := by
  induction n with
  | zero => exact Traced.all_pure _
  | succ n ih =>
      rw [addOld, Traced.all_bind]
      refine ⟨ih (by omega), fun m _ => ?_⟩
      have hnewsize := b.newsize.toInt_lt
      have hindex : (newpos + Int32.ofNat n).toInt = newpos.toInt + n :=
        Machine.toInt_add_ofNat hnew (by omega)
      dsimp only [addByte]
      split
      next hold =>
        rw [ge_iff_le, Int32.le_iff_toInt_le, Int32.lt_iff_toInt_lt] at hold
        simp only [Traced.All, List.mem_cons, List.not_mem_nil, or_false, forall_eq_or_imp,
          forall_eq, Access.InBounds, hindex]
        exact ⟨hold, by omega, by omega⟩
      next => exact Traced.all_pure _

/-- The loop that adds has no way to end in `err`. -/
theorem addOld_returns (oldpos newpos : Int32) (pnew : Memory) (n : ℕ) :
    ∃ m, (addOld b oldpos newpos pnew n).result = some m := by
  induction n with
  | zero => exact ⟨pnew, rfl⟩
  | succ n ih =>
      obtain ⟨m, hm⟩ := ih
      simp only [addOld, Traced.result_bind, hm, Option.bind_some, addByte]
      split
      next => exact ⟨_, rfl⟩
      next => exact ⟨_, rfl⟩

/-- Where no read overruns, a round that returns has moved `newpos` within the new file, and
all it touched lies in the buffers. -/
theorem applyControl_of_not_overruns {s : State σ} {c : Control σ}
    (hnew : 0 ≤ s.newpos.toInt ∧ s.newpos.toInt ≤ b.newsize.toInt)
    (hdiff : ¬ OverrunsAt lib b s.newpos c.x s.diff)
    (hextra : Accepts lib b s.newpos c.x s.diff →
      ¬ OverrunsAt lib b (s.newpos + c.x) c.y s.extra) :
    (applyControl lib b s c).All (Access.InBounds b) ∧
      ∀ t, (applyControl lib b s c).result = some t →
        0 ≤ t.newpos.toInt ∧ t.newpos.toInt ≤ b.newsize.toInt := by
  have hmoved (hd : Accepts lib b s.newpos c.x s.diff) := hd.toInt_add hnew.1 hdiff
  constructor
  · rw [applyControl, Traced.all_bind]
    refine ⟨(readInto_all_inBounds_iff hnew).mpr hdiff, fun d hd => ?_⟩
    have haccepts := (readInto_result_eq_some_iff.mp hd).1
    obtain ⟨hx, hsum, hle⟩ := hmoved haccepts
    rw [Traced.all_bind]
    refine ⟨addOld_all_inBounds hnew.1 ?_, fun pnew _ => ?_⟩
    · rw [Int32.toNatClampNeg]
      omega
    · rw [Traced.all_bind]
      refine ⟨(readInto_all_inBounds_iff ?_).mpr (hextra haccepts), fun _ _ => Traced.all_pure _⟩
      omega
  · intro t ht
    obtain ⟨d, hd, ht⟩ := Traced.result_bind_eq_some_iff.mp ht
    obtain ⟨pnew, -, ht⟩ := Traced.result_bind_eq_some_iff.mp ht
    obtain ⟨e, he, ht⟩ := Traced.result_bind_eq_some_iff.mp ht
    have haccepts := (readInto_result_eq_some_iff.mp hd).1
    obtain ⟨hx, hsum, hle⟩ := hmoved haccepts
    obtain ⟨hy, hsum', hle'⟩ := (readInto_result_eq_some_iff.mp he).1.toInt_add (by omega)
      (hextra haccepts)
    cases ht
    simp only
    omega

theorem round_of_not_overruns {s : State σ}
    (hnew : 0 ≤ s.newpos.toInt ∧ s.newpos.toInt ≤ b.newsize.toInt) (hover : ¬ Overruns lib b s) :
    (round lib b s).All (Access.InBounds b) ∧
      ∀ t, (round lib b s).result = some t →
        0 ≤ t.newpos.toInt ∧ t.newpos.toInt ≤ b.newsize.toInt := by
  unfold round
  split
  next => exact ⟨Traced.all_stop, fun t ht => by cases ht⟩
  next c hc =>
    apply applyControl_of_not_overruns hnew
    · exact fun h => hover ⟨c, hc, .inl h⟩
    · exact fun ha h => hover ⟨c, hc, .inr ⟨ha, h⟩⟩

/-- From inside the new file a round leaves the buffers exactly when one of its reads
overruns. -/
theorem round_all_inBounds_iff {s : State σ}
    (hnew : 0 ≤ s.newpos.toInt ∧ s.newpos.toInt ≤ b.newsize.toInt) :
    (round lib b s).All (Access.InBounds b) ↔ ¬ Overruns lib b s := by
  constructor
  · rintro hall ⟨c, hc, hover⟩
    simp only [round, hc, applyControl, Traced.all_bind] at hall
    obtain ⟨hdiff, hrest⟩ := hall
    rw [readInto_all_inBounds_iff hnew] at hdiff
    rcases hover with hover | ⟨haccepts, hover⟩
    · exact hdiff hover
    · obtain ⟨hx, hsum, hle⟩ := haccepts.toInt_add hnew.1 hdiff
      obtain ⟨m, hm⟩ := addOld_returns (b := b) s.oldpos s.newpos
        (store s.pnew s.newpos.toInt (lib.bzRead s.diff c.x).stored) c.x.toNatClampNeg
      have hextra := ((hrest _ (readInto_result_eq_some_iff.mpr ⟨haccepts, rfl⟩)).2 m hm).1
      rw [readInto_all_inBounds_iff (by omega)] at hextra
      exact hextra hover
  · exact fun hover => (round_of_not_overruns hnew hover).1

theorem head_succ_eq_some_iff {s t : State σ} {n : ℕ} :
    head lib b s (n + 1) = some t ↔
      ∃ u, head lib b s n = some u ∧ u.newpos < b.newsize ∧ (round lib b u).result = some t := by
  simp only [head, Option.bind_eq_bind, Option.bind_eq_some_iff]
  refine exists_congr fun u => and_congr_right fun _ => ?_
  split
  next h => simp [h]
  next h => simp [h]

/-- The invariant of the loop: as long as no round before it overruns, a loop head has
`newpos` in the new file. -/
theorem head_newpos {s : State σ} (hs : s.newpos = 0)
    (hrun : ∀ n t, head lib b s n = some t → t.newpos < b.newsize → ¬ Overruns lib b t) :
    ∀ n t, head lib b s n = some t → 0 ≤ t.newpos.toInt ∧ t.newpos.toInt ≤ b.newsize.toInt := by
  intro n
  induction n with
  | zero =>
      rintro t ht
      cases ht
      simpa [hs] using b.newsize_nonneg
  | succ n ih =>
      intro t ht
      obtain ⟨u, hu, hlt, ht⟩ := head_succ_eq_some_iff.mp ht
      exact (round_of_not_overruns (ih u hu) (hrun n u hu hlt)).2 t ht

variable (lib b)

/-- The variables on entering the loop. -/
def start (pnew : Memory) (control diff extra : σ) : State σ := ⟨0, 0, pnew, control, diff, extra⟩

/-- The run stays in its buffers, at every loop head and in every round, exactly when no
round of it overruns. -/
theorem forall_head_within_iff (pnew : Memory) (control diff extra : σ) :
    (∀ n s, head lib b (start pnew control diff extra) n = some s → Within lib b s) ↔
      ∀ n s, head lib b (start pnew control diff extra) n = some s → s.newpos < b.newsize →
        ¬ Overruns lib b s := by
  constructor
  · intro h n s hs hlt
    obtain ⟨hnew, hall⟩ := h n s hs
    exact (round_all_inBounds_iff hnew).mp (hall hlt)
  · intro h n s hs
    have hnew := head_newpos rfl h n s hs
    exact ⟨hnew, fun hlt => (round_all_inBounds_iff hnew).mpr (h n s hs hlt)⟩

end

/-! ## A patch that leaves the buffer -/

/-- A read from a stream given by the bytes it decompresses to.  A stream is at its end after
the read that delivered its last byte, and refuses to be read on. -/
def readMemory (s : Option Bytes) (len : Int32) : BzRead (Option Bytes) :=
  if len < 0 then ⟨[], 0, -2, s⟩
  else if len = 0 then ⟨[], 0, bzOk, s⟩
  else match s with
    | none => ⟨[], 0, -1, none⟩
    | some bytes =>
        let stored := bytes.take len.toNatClampNeg
        if bytes.length ≤ len.toNatClampNeg then
          ⟨stored, .ofNat stored.length, bzStreamEnd, none⟩
        else
          ⟨stored, .ofNat stored.length, bzOk, some (bytes.drop len.toNatClampNeg)⟩

theorem readMemory_stored (s : Option Bytes) (len : Int32) :
    (readMemory s len).stored.length ≤ len.toNatClampNeg ∧
      (readMemory s len).lenread = .ofNat (readMemory s len).stored.length := by
  unfold readMemory
  split_ifs with hneg hzero
  · simp
  · simp
  · rcases s with _ | bytes
    · simp
    · dsimp only
      split_ifs
      · exact ⟨List.length_take_le _ _, rfl⟩
      · exact ⟨List.length_take_le _ _, rfl⟩

/-- The library over streams in memory. -/
def inMemory : Bzlib (Option Bytes) where
  bzRead := readMemory
  stored_le s len := (readMemory_stored s len).1
  lenread_le := by
    intro s len
    obtain ⟨hstored, hread⟩ := readMemory_stored s len
    have hlt := Nat.lt_of_le_of_lt hstored len.toNatClampNeg_lt
    exact Int.le_of_eq (by rw [hread, Int32.toInt_ofNat_of_lt hlt])
  bzerror_of_neg := by
    intro s len hlen
    simp [readMemory, hlen, bzOk, bzStreamEnd]

/-- The control triples `(1, 0, 0)` and `(2147483647, 0, 0)`. -/
def overlongControl : Bytes :=
  [1, 0, 0, 0, 0, 0, 0, 0] ++ List.replicate 16 0 ++
    [0xFF, 0xFF, 0xFF, 0x7F, 0, 0, 0, 0] ++ List.replicate 16 0

/-- In the second round `1 + 2147483647` wraps, the check passes, and the five bytes left of
the diff string are stored from index 1 on in a buffer for two. -/
theorem not_forall_head_within_overlong :
    ¬ ∀ n s, head inMemory ⟨fun _ => 0, 0, 2, by decide⟩
      (start (fun _ => 0) (some overlongControl) (some (List.replicate 6 7)) (some [])) n =
        some s → Within inMemory ⟨fun _ => 0, 0, 2, by decide⟩ s := by
  intro h
  have hsecond := (h 1 _ rfl).2 (by decide)
  exact absurd (hsecond (.store 5) (by decide)) (by decide)

end StudyNotes.Bspatch
