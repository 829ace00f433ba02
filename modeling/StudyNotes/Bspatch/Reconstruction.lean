/-
# Rebuilding the new file

The loop over 32-bit numbers and a buffer is compared with the reconstruction over integers
and lists.  A state of the loop represents a progress when `newpos` is the length of what
has been put out, `oldpos` is the position in the old file modulo `2 ^ 32`, the buffer
begins with the bytes put out, and the streams hold what is left of the blocks.  A round
keeps the relation as long as the lengths of its triple fit in a `long` and no position
wraps into the old file.
-/

import Mathlib.Data.List.GetD
import StudyNotes.Bspatch.ExecutePatch

namespace StudyNotes.Bspatch

/-! ## Where 32 bits are enough -/

/-- The number is one of `long`. -/
def Fits (n : ℤ) : Prop := -2 ^ 31 ≤ n ∧ n < 2 ^ 31

instance (n : ℤ) : Decidable (Fits n) := inferInstanceAs (Decidable (_ ∧ _))

theorem Fits.toInt_ofInt {n : ℤ} (h : Fits n) : (Int32.ofInt n).toInt = n :=
  Int32.toInt_ofInt_of_le h.1 h.2

/-- The position does not become another one, in the old file, by wrapping. -/
def KeepsPlace (old : Bytes) (p : ℤ) : Prop :=
  0 ≤ (Int32.ofInt p).toInt → (Int32.ofInt p).toInt < old.length → (Int32.ofInt p).toInt = p

/-- The diff block has the bytes that the triple adds to, and they fit into the new file. -/
def Triple.DiffValid (newsize : ℤ) (p : Progress) (t : Triple) : Prop :=
  0 ≤ t.x ∧ t.x ≤ p.diff.length ∧ p.out.length + t.x ≤ newsize

/-- Nothing about the triple is lost in 32 bits: its lengths fit; where the sum with `newpos`
does not, the block has no more bytes than there is room for; and the positions in the old
file keep their place. -/
structure Exact (old : Bytes) (newsize : ℤ) (p : Progress) (t : Triple) : Prop where
  x_fits : Fits t.x
  y_fits : Fits t.y
  diff_room : 2 ^ 31 ≤ p.out.length + t.x → p.diff.length ≤ newsize - p.out.length
  extra_room : t.DiffValid newsize p → 2 ^ 31 ≤ p.out.length + t.x + t.y →
    p.extra.length ≤ newsize - p.out.length - t.x
  keepsPlace : t.DiffValid newsize p → ∀ i : ℕ, i < t.x → KeepsPlace old (p.oldpos + i)

/-! ## Reading -/

theorem map_drop_range_succ {α β : Type} (f : List α → β) (l : List α) (k n : ℕ) :
    (List.range (n + 1)).map (fun i => f (l.drop (k * i))) =
      f l :: (List.range n).map fun i => f ((l.drop k).drop (k * i)) := by
  rw [List.range_succ_eq_map, List.map_cons, List.map_map]
  simp only [Nat.mul_zero, List.drop_zero, List.drop_drop, Function.comp_def, Nat.mul_succ,
    Nat.add_comm]

theorem triples_cons {control : Bytes} (h : 24 ≤ control.length) :
    triples control = triple control :: triples (control.drop 24) := by
  have hcount : control.length / 24 = (control.length - 24) / 24 + 1 := by omega
  rw [triples, triples, hcount, List.length_drop]
  exact map_drop_range_succ triple control 24 _

section

variable {σ : Type} {lib : Bzip2 σ}

/-- A read that passes its check has taken its bytes off the stream. -/
theorem Bzip2.stored_eq {s : σ} {len : Int32} (h : (lib.bzRead s len).Good len) :
    (lib.bzRead s len).stored = (lib.content s).take len.toNatClampNeg ∧
      len.toNatClampNeg ≤ (lib.content s).length := by
  obtain ⟨hlen, hall⟩ := h.length
  have hlength : (lib.bzRead s len).stored.length = len.toNatClampNeg := by
    rw [Int32.toNatClampNeg]
    omega
  have hstarts := lib.stored_prefix s len
  rw [← hlength]
  exact ⟨List.prefix_iff_eq_take.mp hstarts, hstarts.length_le⟩

theorem readLength_eq_some {control rest : σ} {n : Int32}
    (h : readLength lib.toBzlib control = some (n, rest)) :
    8 ≤ (lib.content control).length ∧ n = .ofInt (value (lib.content control)) ∧
      lib.content rest = (lib.content control).drop 8 := by
  unfold readLength at h
  dsimp only at h
  split at h
  next hgood =>
    obtain ⟨hstored, hlength⟩ := Bzip2.stored_eq hgood
    cases h
    refine ⟨hlength, ?_, lib.content_rest _ _ hgood⟩
    rw [hstored, offtin_eq, value_take _ (by decide)]
  next => cases h

/-- A control triple as the program has it. -/
structure Control.Reads (c : Control σ) (t : Triple) : Prop where
  x : c.x = .ofInt t.x
  y : c.y = .ofInt t.y
  z : c.z = .ofInt t.z

theorem readControl_eq_some {control : σ} {c : Control σ}
    (h : readControl lib.toBzlib control = some c) :
    ∃ t, triples (lib.content control) = t :: triples (lib.content c.rest) ∧ c.Reads t := by
  simp only [readControl, Option.bind_eq_bind, Option.bind_eq_some_iff, Prod.exists] at h
  obtain ⟨x, control₁, hx, y, control₂, hy, z, control₃, hz, h⟩ := h
  obtain ⟨hxlen, hx, hrest₁⟩ := readLength_eq_some hx
  obtain ⟨hylen, hy, hrest₂⟩ := readLength_eq_some hy
  obtain ⟨hzlen, hz, hrest₃⟩ := readLength_eq_some hz
  obtain rfl := Option.some.inj h
  rw [hrest₁] at hrest₂ hy hylen
  rw [hrest₂] at hrest₃ hz hzlen
  simp only [List.drop_drop, List.length_drop] at hrest₃ hz hzlen hylen
  refine ⟨triple (lib.content control), ?_, hx, hy, hz⟩
  rw [hrest₃]
  exact triples_cons (by omega)

end

/-! ## The buffer -/

theorem store_apply_of_lt {m : Memory} {index i : ℤ} {stored : Bytes} (h : i < index) :
    store m index stored i = m i := by
  rw [store, if_neg (by omega)]

theorem store_apply {m : Memory} {index i : ℤ} {stored : Bytes} {k : ℕ} (hi : i = index + k)
    (hk : k < stored.length) : store m index stored i = stored.getD k 0 := by
  have hsub : (i - index).toNat = k := by omega
  rw [store, if_pos (by omega), hsub]

/-- What a position in the old file adds. -/
def addend (b : Buffers) (q : Int32) : UInt8 :=
  if q ≥ 0 ∧ q < b.oldsize then b.pold q.toInt else 0

theorem addByte_result (b : Buffers) (oldpos newpos : Int32) (pnew : Memory) (k : ℕ) :
    ∃ m, (addByte b oldpos newpos pnew k).result = some m ∧
      ∀ i, m i = if i = (newpos + .ofNat k).toInt then pnew i + addend b (oldpos + .ofNat k)
        else pnew i := by
  simp only [addByte, addend]
  split
  next =>
    refine ⟨_, rfl, fun i => ?_⟩
    by_cases hi : i = (newpos + Int32.ofNat k).toInt
    · rw [if_pos hi, store_apply (k := 0) (by omega) (by simp), hi]
      rfl
    · have hout : ¬ ((newpos + Int32.ofNat k).toInt ≤ i ∧
          i < (newpos + Int32.ofNat k).toInt + 1) := by omega
      rw [if_neg hi, store]
      exact if_neg hout
  next =>
    refine ⟨pnew, rfl, fun i => ?_⟩
    simp

/-- The loop that adds changes the diff string and nothing before it. -/
theorem addOld_result {b : Buffers} {oldpos newpos : Int32} {pnew m : Memory} {n : ℕ}
    (hnew : 0 ≤ newpos.toInt) (hn : newpos.toInt + n ≤ b.newsize.toInt)
    (h : (addOld b oldpos newpos pnew n).result = some m) :
    (∀ i, i < newpos.toInt → m i = pnew i) ∧
      ∀ k : ℕ, m (newpos.toInt + k) =
        if k < n then pnew (newpos.toInt + k) + addend b (oldpos + .ofNat k)
        else pnew (newpos.toInt + k) := by
  induction n generalizing m with
  | zero =>
      cases h
      simp
  | succ n ih =>
      obtain ⟨m₀, hm₀, h⟩ := Traced.result_bind_eq_some_iff.mp h
      obtain ⟨hbefore, hstring⟩ := ih (by omega) hm₀
      obtain ⟨m', hm', hbyte⟩ := addByte_result b oldpos newpos m₀ n
      obtain rfl := Option.some.inj (hm'.symm.trans h)
      have hnewsize := b.newsize.toInt_lt
      have hindex : (newpos + Int32.ofNat n).toInt = newpos.toInt + n :=
        Machine.toInt_add_ofNat hnew (by omega)
      refine ⟨fun i hi => ?_, fun k => ?_⟩
      · rw [hbyte, if_neg (by omega), hbefore i hi]
      · rw [hbyte, hstring, hindex]
        by_cases hk : k = n
        · simp [hk]
        · have hne : ¬ newpos.toInt + (k : ℤ) = newpos.toInt + n := by omega
          have hlt : k < n + 1 ↔ k < n := by omega
          rw [if_neg hne]
          simp only [hlt]

/-- The buffers hold the whole old file. -/
structure HoldsOld (b : Buffers) (old : Bytes) : Prop where
  oldsize : b.oldsize.toInt = old.length
  pold : ∀ i : ℕ, i < old.length → b.pold i = old.getD i 0

/-- A position that keeps its place adds the byte of the old file there, if there is one. -/
theorem HoldsOld.addend_eq {b : Buffers} {old : Bytes} (h : HoldsOld b old) {p : ℤ} {k : ℕ}
    (hplace : KeepsPlace old (p + k)) :
    addend b (.ofInt p + .ofNat k) = oldByte old (p + k) := by
  have hq : Int32.ofInt p + Int32.ofNat k = .ofInt (p + k) := by
    rw [Int32.ofInt_add, Int32.ofInt_eq_ofNat]
  have hsize := b.oldsize.toInt_lt
  have hold := h.oldsize
  rw [addend, hq, oldByte]
  simp only [ge_iff_le, Int32.le_iff_toInt_le, Int32.lt_iff_toInt_lt, Int32.toInt_zero, h.oldsize]
  by_cases hin : 0 ≤ p + k ∧ p + k < old.length
  · have hexact : (Int32.ofInt (p + k)).toInt = p + k := Fits.toInt_ofInt ⟨by omega, by omega⟩
    have hindex : p + k = ((p + k).toNat : ℤ) := by omega
    rw [hexact, if_pos hin, if_pos hin.1, hindex, h.pold _ (by omega), Int.toNat_natCast]
  · have hout : ¬ (0 ≤ (Int32.ofInt (p + k)).toInt ∧ (Int32.ofInt (p + k)).toInt < old.length) := by
      rintro ⟨hnonneg, hlt⟩
      have := hplace hnonneg hlt
      omega
    rw [if_neg hout]
    split
    next hnonneg =>
      rw [List.getD_eq_default]
      omega
    next => rfl

/-- A state of the loop stands for the triples left and the progress made. -/
structure Represents {σ : Type} (lib : Bzip2 σ) (s : State σ) (ts : List Triple) (p : Progress) :
    Prop where
  newpos : s.newpos.toInt = p.out.length
  oldpos : s.oldpos = .ofInt p.oldpos
  pnew : ∀ k : ℕ, k < p.out.length → s.pnew k = p.out.getD k 0
  control : triples (lib.content s.control) = ts
  diff : lib.content s.diff = p.diff
  extra : lib.content s.extra = p.extra

theorem length_addBytes (old : Bytes) (oldpos : ℤ) (diff : Bytes) :
    (addBytes old oldpos diff).length = diff.length :=
  List.length_mapIdx

theorem addBytes_getD (old : Bytes) (oldpos : ℤ) {diff : Bytes} {k : ℕ} (hk : k < diff.length) :
    (addBytes old oldpos diff).getD k 0 = diff.getD k 0 + oldByte old (oldpos + k) := by
  simp [addBytes, List.getD_eq_getElem?_getD, hk]

/-- The buffer after a round: what was there, the sums, and the extra string. -/
theorem buffer_advance {b : Buffers} {old out diff extra : Bytes} {oldpos : ℤ} {newpos : Int32}
    {pnew m : Memory} (hb : HoldsOld b old) (hnewpos : newpos.toInt = out.length)
    (hpnew : ∀ k : ℕ, k < out.length → pnew k = out.getD k 0)
    (hroom : (out.length + diff.length : ℤ) ≤ b.newsize.toInt)
    (hplace : ∀ i : ℕ, i < diff.length → KeepsPlace old (oldpos + i))
    (hm : (addOld b (.ofInt oldpos) newpos (store pnew newpos.toInt diff) diff.length).result =
      some m) (k : ℕ) (hk : k < (out ++ addBytes old oldpos diff ++ extra).length) :
    store m (newpos.toInt + diff.length) extra k =
      (out ++ addBytes old oldpos diff ++ extra).getD k 0 := by
  obtain ⟨hbefore, hstring⟩ := addOld_result (by omega) (by omega) hm
  simp only [List.length_append, length_addBytes] at hk
  rcases Nat.lt_or_ge k (out.length + diff.length) with hlt | hge
  · rw [List.getD_append _ _ _ _ (by simpa [length_addBytes] using hlt),
      store_apply_of_lt (by omega)]
    rcases Nat.lt_or_ge k out.length with hout | hout
    · rw [List.getD_append _ _ _ _ hout, hbefore k (by omega), store_apply_of_lt (by omega),
        hpnew k hout]
    · obtain ⟨j, rfl⟩ := Nat.exists_eq_add_of_le hout
      have hj : j < diff.length := by omega
      have hindex : ((out.length + j : ℕ) : ℤ) = newpos.toInt + j := by omega
      rw [List.getD_append_right _ _ _ _ hout, Nat.add_sub_cancel_left,
        addBytes_getD old oldpos hj, hindex, hstring, if_pos hj, store_apply rfl hj,
        hb.addend_eq (hplace j hj)]
  · obtain ⟨j, rfl⟩ := Nat.exists_eq_add_of_le hge
    rw [List.getD_append_right _ _ _ _ (by simp [length_addBytes]),
      store_apply (k := j) (by omega) (by omega)]
    simp [length_addBytes]

theorem Triple.Valid.length_advance {old : Bytes} {newsize : ℤ} {p : Progress} {t : Triple}
    (h : t.Valid newsize p) :
    (p.advance old t).out.length ≤ newsize := by
  obtain ⟨hx, hy, hle⟩ := h
  simp only [Progress.advance, List.length_append, length_addBytes, List.length_take]
  omega

/-- The new file has the size the header gives. -/
theorem rebuild_length {old new : Bytes} {newsize : ℤ} {ts : List Triple} {p : Progress}
    (hle : p.out.length ≤ newsize) (h : rebuild old newsize ts p = some new) :
    new.length = newsize := by
  induction ts generalizing p with
  | nil =>
      rw [rebuild] at h
      split at h
      next hdone =>
        obtain rfl := Option.some.inj h
        omega
      next => cases h
  | cons t ts ih =>
      rw [rebuild] at h
      split at h
      next hdone =>
        obtain rfl := Option.some.inj h
        omega
      next =>
        split at h
        next hvalid => exact ih hvalid.length_advance h
        next => cases h

theorem reconstruction_length {decompressed : Bytes → Bytes} {old patch new : Bytes}
    (h : reconstruction decompressed old patch = some new) : new.length = sizeofNew patch := by
  rw [reconstruction] at h
  split at h
  next hwell => exact rebuild_length (by simpa [blocks] using hwell.2.2.2.2) h
  next => cases h

/-! ## One round, and the loop -/

section

variable {σ : Type} {lib : Bzip2 σ} {b : Buffers} {old : Bytes} {s s' : State σ}
  {ts : List Triple} {p : Progress}

/-- Where the sum with `newpos` wraps only if the block has no more bytes than there is room
for, the read does not overrun. -/
theorem not_overrunsAt_of_room {stream : σ} {newpos len : Int32}
    (h : 2 ^ 31 ≤ newpos.toInt + len.toInt →
      (lib.content stream).length ≤ b.newsize.toInt - newpos.toInt) :
    ¬ OverrunsAt lib.toBzlib b newpos len stream := by
  rintro ⟨hbig, hmore⟩
  have hlength := (lib.stored_prefix stream len).length_le
  have hroom := h hbig
  omega

/-- What an accepted read gives, in terms of the block. -/
theorem accepts_of_fits {stream : σ} {newpos len : Int32} {n : ℤ} (hlen : len.toInt = n)
    (h : Accepts lib.toBzlib b newpos len stream) (hnew : 0 ≤ newpos.toInt)
    (hrun : ¬ OverrunsAt lib.toBzlib b newpos len stream) :
    (0 ≤ n ∧ n ≤ (lib.content stream).length) ∧ newpos.toInt + n ≤ b.newsize.toInt ∧
      (newpos + len).toInt = newpos.toInt + n ∧
      (lib.bzRead stream len).stored = (lib.content stream).take n.toNat ∧
      lib.content (lib.bzRead stream len).rest = (lib.content stream).drop n.toNat := by
  obtain ⟨hnonneg, hsum, hle⟩ := h.toInt_add hnew hrun
  obtain ⟨hstored, hlength⟩ := Bzip2.stored_eq h.2
  have hrest := lib.content_rest _ _ h.2
  rw [Int32.toNatClampNeg, hlen] at hstored hlength hrest
  rw [hlen] at hsum hle hnonneg
  exact ⟨⟨hnonneg, by omega⟩, hle, hsum, hstored, hrest⟩

section

variable {c : Control σ} {t : Triple} (hs : Represents lib s (t :: ts) p) (hc : c.Reads t)
  (ht : Exact old b.newsize.toInt p t)

include hs hc ht

theorem Represents.not_overrunsAt_diff : ¬ OverrunsAt lib.toBzlib b s.newpos c.x s.diff := by
  have hnew := hs.newpos
  have hx : c.x.toInt = t.x := by rw [hc.x, ht.x_fits.toInt_ofInt]
  refine not_overrunsAt_of_room fun hbig => ?_
  rw [hs.diff, hnew]
  exact ht.diff_room (by omega)

/-- The diff string that the round has read is the one the triple asks for. -/
theorem Represents.accepts_diff (h : Accepts lib.toBzlib b s.newpos c.x s.diff) :
    t.DiffValid b.newsize.toInt p ∧ (s.newpos + c.x).toInt = p.out.length + t.x ∧
      (lib.bzRead s.diff c.x).stored = p.diff.take t.x.toNat ∧
      lib.content (lib.bzRead s.diff c.x).rest = p.diff.drop t.x.toNat := by
  have hnew := hs.newpos
  have hx : c.x.toInt = t.x := by rw [hc.x, ht.x_fits.toInt_ofInt]
  obtain ⟨hlen, hle, hsum, hstored, hrest⟩ :=
    accepts_of_fits hx h (by omega) (hs.not_overrunsAt_diff hc ht)
  rw [hs.diff] at hlen hstored hrest
  exact ⟨⟨hlen.1, hlen.2, by omega⟩, by omega, hstored, hrest⟩

theorem Represents.not_overrunsAt_extra (h : Accepts lib.toBzlib b s.newpos c.x s.diff) :
    ¬ OverrunsAt lib.toBzlib b (s.newpos + c.x) c.y s.extra := by
  have hy : c.y.toInt = t.y := by rw [hc.y, ht.y_fits.toInt_ofInt]
  obtain ⟨hvalid, hsum, -⟩ := hs.accepts_diff hc ht h
  refine not_overrunsAt_of_room fun hbig => ?_
  have hfit := ht.extra_room hvalid (by omega)
  rw [hs.extra]
  omega

/-- A round at a triple that is exact stays in the buffers. -/
theorem Represents.applyControl_inBounds (hroom : p.out.length ≤ b.newsize.toInt) :
    (applyControl lib.toBzlib b s c).All (Access.InBounds b) := by
  have hnew := hs.newpos
  exact (applyControl_of_not_overruns (by omega) (hs.not_overrunsAt_diff hc ht)
    (hs.not_overrunsAt_extra hc ht)).1

/-- Where a round at a triple that is exact returns, the triple was valid and the progress it
makes is represented. -/
theorem Represents.applyControl_advance (hb : HoldsOld b old)
    (hrest : triples (lib.content c.rest) = ts)
    (hs' : (applyControl lib.toBzlib b s c).result = some s') :
    t.Valid b.newsize.toInt p ∧ Represents lib s' ts (p.advance old t) := by
  obtain ⟨d, hd, hs'⟩ := Traced.result_bind_eq_some_iff.mp hs'
  obtain ⟨m, hm, hs'⟩ := Traced.result_bind_eq_some_iff.mp hs'
  obtain ⟨e, he, hs'⟩ := Traced.result_bind_eq_some_iff.mp hs'
  obtain rfl := Option.some.inj hs'
  obtain ⟨hdaccepts, rfl⟩ := readInto_result_eq_some_iff.mp hd
  obtain ⟨heaccepts, rfl⟩ := readInto_result_eq_some_iff.mp he
  have hx : c.x.toInt = t.x := by rw [hc.x, ht.x_fits.toInt_ofInt]
  have hy : c.y.toInt = t.y := by rw [hc.y, ht.y_fits.toInt_ofInt]
  obtain ⟨hvalid, hxsum, hxstored, hxrest⟩ := hs.accepts_diff hc ht hdaccepts
  obtain ⟨hxnonneg, hxle, hxroom⟩ := hvalid
  obtain ⟨hylen, hyle, hysum, hystored, hyrest⟩ := accepts_of_fits hy heaccepts (by omega)
    (hs.not_overrunsAt_extra hc ht hdaccepts)
  rw [hs.extra] at hylen hystored hyrest
  have hdlength : (p.diff.take t.x.toNat).length = t.x.toNat := by
    rw [List.length_take]
    omega
  have helength : (p.extra.take t.y.toNat).length = t.y.toNat := by
    rw [List.length_take]
    omega
  have hcount : c.x.toNatClampNeg = (p.diff.take t.x.toNat).length := by
    rw [Int32.toNatClampNeg, hx, hdlength]
  have hnew := hs.newpos
  refine ⟨⟨⟨hxnonneg, hxle⟩, hylen, by omega⟩, ?_, ?_, ?_, hrest, hxrest, hyrest⟩
  · simp only [Progress.advance, List.length_append, length_addBytes, hdlength, helength]
    omega
  · simp only [Progress.advance, hs.oldpos, hc.x, hc.z, Int32.ofInt_add]
  · intro k hk
    have hindex : (s.newpos + c.x).toInt = s.newpos.toInt + (p.diff.take t.x.toNat).length := by
      omega
    have hplace (i : ℕ) (hi : i < (p.diff.take t.x.toNat).length) :=
      ht.keepsPlace ⟨hxnonneg, hxle, hxroom⟩ i (by omega)
    dsimp only at hm
    rw [hxstored, hs.oldpos, hcount] at hm
    simp only [hystored, hindex]
    exact buffer_advance hb hnew hs.pnew (by omega) hplace hm k hk

end

theorem round_represents (hb : HoldsOld b old) (hs : Represents lib s ts p)
    (hlt : p.out.length < b.newsize.toInt)
    (hts : EveryTriple old b.newsize.toInt (Exact old b.newsize.toInt) ts p) :
    (round lib.toBzlib b s).All (Access.InBounds b) ∧
      ∀ s', (round lib.toBzlib b s).result = some s' →
        ∃ t ts', ts = t :: ts' ∧ t.Valid b.newsize.toInt p ∧
          Represents lib s' ts' (p.advance old t) := by
  unfold round
  cases hc : readControl lib.toBzlib s.control with
  | none => exact ⟨Traced.all_stop, fun s' hs' => by cases hs'⟩
  | some c =>
      obtain ⟨t, htriples, hreads⟩ := readControl_eq_some hc
      rw [hs.control] at htriples
      subst htriples
      have ht := (hts hlt).1
      exact ⟨hs.applyControl_inBounds hreads ht (Int.le_of_lt hlt), fun s' hs' =>
        ⟨t, _, rfl, hs.applyControl_advance hreads ht hb rfl hs'⟩⟩

/-- The bytes of a buffer that begins with them. -/
theorem contents_eq {m : Memory} {out : Bytes} {n : ℕ} (hn : out.length = n)
    (h : ∀ k : ℕ, k < out.length → m k = out.getD k 0) : contents m n = out := by
  refine List.ext_getElem (by simp [contents, hn]) fun k hk hk' => ?_
  simp only [contents, List.getElem_map, List.getElem_range]
  rw [h k hk', List.getD_eq_getElem _ _ hk']

/-- The loop over exact triples: it ends in `err`, or with the new file in the buffer. -/
theorem loop_represents (hb : HoldsOld b old) {fuel : ℕ} (hfuel : ts.length < fuel)
    (hs : Represents lib s ts p) (hle : p.out.length ≤ b.newsize.toInt)
    (hts : EveryTriple old b.newsize.toInt (Exact old b.newsize.toInt) ts p) :
    match loop lib b fuel s with
    | .ok m => rebuild old b.newsize.toInt ts p = some (contents m b.newsize.toNatClampNeg)
    | .error e => IsErr e := by
  induction fuel generalizing s ts p with
  | zero => omega
  | succ fuel ih =>
      have hnew := hs.newpos
      rw [loop]
      by_cases hlt : s.newpos < b.newsize
      · have hlt' : s.newpos.toInt < b.newsize.toInt := Int32.lt_iff_toInt_lt.mp hlt
        obtain ⟨hall, hresult⟩ := round_represents hb hs (by omega) hts
        rw [if_pos hlt, if_pos hall]
        cases hs' : (round lib.toBzlib b s).result with
        | none => exact isErr_corrupt
        | some s' =>
            obtain ⟨t, ts', rfl, hvalid, hrep⟩ := hresult s' hs'
            have hrebuild : rebuild old b.newsize.toInt (t :: ts') p =
                rebuild old b.newsize.toInt ts' (p.advance old t) := by
              rw [rebuild, if_neg (by omega), if_pos hvalid]
            rw [hrebuild]
            exact ih (by simpa using hfuel) hrep hvalid.length_advance
              ((hts (by omega)).2 hvalid)
      · rw [if_neg hlt]
        rw [Int32.lt_iff_toInt_lt] at hlt
        have hlength : p.out.length = b.newsize.toNatClampNeg := by
          rw [Int32.toNatClampNeg]
          omega
        have hdone : rebuild old b.newsize.toInt ts p = some p.out := by
          cases ts with
          | nil => rw [rebuild, if_pos (by omega)]
          | cons t ts => rw [rebuild, if_pos (by omega)]
        simp only [hdone, contents_eq hlength hs.pnew]

end

/-! ## The whole program -/

section Reached

variable {σ : Type} (lib : Bzip2 σ) (env : Env) (oldfile patchfile : String) (w : World)

/-- The run has opened the three blocks. -/
def OpensBlocks : Prop :=
  ∃ h, readHeader env patchfile w = .ok h w ∧
    (∃ s, openBlock lib env .control patchfile 32 w = .ok s w) ∧
    (∃ s, openBlock lib env .diff patchfile (32 + h.bzctrllen) w = .ok s w) ∧
    ∃ s, openBlock lib env .extra patchfile (32 + h.bzctrllen + h.bzdatalen) w = .ok s w

/-- Nothing is lost on the way, as far as the run gets: the values of a header that is read
are exact in 32 bits; the program has the whole old file once the blocks are open; so are
the values of the triples that are used with it; and the transfer of a new file that was
rebuilt is complete. -/
structure Faithful (old patch : Bytes) : Prop where
  x_fits : (∃ h, readHeader env patchfile w = .ok h w) → Fits (lengthX patch)
  y_fits : (∃ h, readHeader env patchfile w = .ok h w) → Fits (lengthY patch)
  newsize_fits : (∃ h, readHeader env patchfile w = .ok h w) → Fits (sizeofNew patch)
  oldComplete : OpensBlocks lib env patchfile w → OldComplete env old
  exact : OpensBlocks lib env patchfile w → (∃ o, readOld env oldfile w = .ok o w) →
    EveryTriple old (sizeofNew patch) (Exact old (sizeofNew patch))
      (controlBlock lib.decompressed patch) (blocks lib.decompressed patch)
  written : (∃ new, rebuildNew lib env oldfile patchfile w = .ok new w) →
    sizeofNew patch ≤ env.newCount

end Reached

section

variable {σ : Type} {lib : Bzip2 σ} {env : Env}

theorem runLoop_ends {b : Buffers} {old : Bytes} {s : State σ} {p : Progress} (w : World)
    (hb : HoldsOld b old) (hs : Represents lib s (triples (lib.content s.control)) p)
    (hle : p.out.length ≤ b.newsize.toInt)
    (hts : EveryTriple old b.newsize.toInt (Exact old b.newsize.toInt)
      (triples (lib.content s.control)) p) :
    Effect.Ends (runLoop lib b s) w
      (fun m t => t = w ∧ rebuild old b.newsize.toInt (triples (lib.content s.control)) p =
        some (contents m b.newsize.toNatClampNeg)) IsErr := by
  have hfuel : (triples (lib.content s.control)).length < (lib.content s.control).length + 1 := by
    rw [triples, List.length_map, List.length_range]
    omega
  have hloop := loop_represents hb hfuel hs hle hts
  unfold runLoop
  cases hresult : loop lib b ((lib.content s.control).length + 1) s with
  | ok m =>
      rw [hresult] at hloop
      exact .pure ⟨rfl, hloop⟩
  | error e =>
      rw [hresult] at hloop
      exact .throw hloop

/-- The offsets of the diff block and of the extra block are exact: where they wrap, they are
negative and `fseek` refuses them. -/
theorem HeaderOf.toInt_offsets {patch : Bytes} {h : Header} (hh : HeaderOf patch h)
    (hx : h.bzctrllen.toInt = lengthX patch) (hy : h.bzdatalen.toInt = lengthY patch)
    (hdiff : 0 ≤ (32 + h.bzctrllen).toInt)
    (hextra : 0 ≤ (32 + h.bzctrllen + h.bzdatalen).toInt) :
    (32 + h.bzctrllen).toInt = 32 + lengthX patch ∧
      (32 + h.bzctrllen + h.bzdatalen).toInt = 32 + lengthX patch + lengthY patch := by
  have hbegin : (32 : Int32).toInt = 32 := rfl
  have hdiff' : (32 + h.bzctrllen).toInt = 32 + lengthX patch := by
    rw [Machine.toInt_add_of_nonneg (by omega) hh.bzctrllen_nonneg hdiff, hbegin, hx]
  refine ⟨hdiff', ?_⟩
  rw [Machine.toInt_add_of_nonneg hdiff hh.bzdatalen_nonneg hextra, hdiff', hy]

/-- A patch whose header passes the checks, with exact values, is reconstructed from its
blocks. -/
theorem HeaderOf.reconstruction_eq {patch old : Bytes} {h : Header} (hh : HeaderOf patch h)
    (hx : h.bzctrllen.toInt = lengthX patch) (hy : h.bzdatalen.toInt = lengthY patch)
    (hn : h.newsize.toInt = sizeofNew patch) {decompressed : Bytes → Bytes} :
    reconstruction decompressed old patch = rebuild old (sizeofNew patch)
      (controlBlock decompressed patch) (blocks decompressed patch) := by
  have hxpos := hh.bzctrllen_nonneg
  have hypos := hh.bzdatalen_nonneg
  have hnpos := h.newsize_nonneg
  rw [hx] at hxpos
  rw [hy] at hypos
  rw [hn] at hnpos
  rw [reconstruction, if_pos ⟨hh.length, hh.magic, hxpos, hypos, hnpos⟩]

/-- Where nothing is lost, the part before `argv[2]` is opened ends in `err` or has the new
file in its buffer. -/
theorem rebuildNew_ends {oldfile patchfile : String} {w : World}
    (hfaithful : ∀ old patch, w.files oldfile = some old → w.files patchfile = some patch →
      Faithful lib env oldfile patchfile w old patch) :
    Effect.Ends (rebuildNew lib env oldfile patchfile) w
      (fun new t => t = w ∧ ∃ old patch, w.files oldfile = some old ∧
        w.files patchfile = some patch ∧ new.2.toInt = sizeofNew patch ∧
        reconstruction lib.decompressed old patch =
          some (contents new.1 new.2.toNatClampNeg)) IsErr := by
  refine .bind_ran (readHeader_ends env patchfile w) ?_
  rintro h _ hread ⟨rfl, patch, hpatch, hheader⟩
  refine .bind_ran (openBlock_ends lib env .control 32 hpatch) ?_
  rintro control _ hcontrolOpen ⟨rfl, -, hcontrol⟩
  refine .bind_ran (openBlock_ends lib env .diff (32 + h.bzctrllen) hpatch) ?_
  rintro diff _ hdiffOpen ⟨rfl, hdiffpos, hdiff⟩
  refine .bind_ran (openBlock_ends lib env .extra (32 + h.bzctrllen + h.bzdatalen) hpatch) ?_
  rintro extra _ hextraOpen ⟨rfl, hextrapos, hextra⟩
  have hopens : OpensBlocks lib env patchfile _ :=
    ⟨h, hread, ⟨control, hcontrolOpen⟩, ⟨diff, hdiffOpen⟩, ⟨extra, hextraOpen⟩⟩
  refine .bind_ran (readOld_ends env oldfile fun old hold =>
    (hfaithful old patch hold hpatch).oldComplete hopens) ?_
  rintro o _ holdRead ⟨rfl, old, hold, hsize, hbytes⟩
  refine .bind (check_ends _ _ _) ?_
  rintro _ _ ⟨rfl, -⟩
  have hlost := hfaithful old patch hold hpatch
  have hxfits := hlost.x_fits ⟨h, hread⟩
  have hyfits := hlost.y_fits ⟨h, hread⟩
  have hnfits := hlost.newsize_fits ⟨h, hread⟩
  have hexact := hlost.exact hopens ⟨o, holdRead⟩
  have hx : h.bzctrllen.toInt = lengthX patch := by rw [hheader.bzctrllen, hxfits.toInt_ofInt]
  have hy : h.bzdatalen.toInt = lengthY patch := by rw [hheader.bzdatalen, hyfits.toInt_ofInt]
  have hn : h.newsize.toInt = sizeofNew patch := by rw [hheader.newsize, hnfits.toInt_ofInt]
  obtain ⟨hdiffpos', hextrapos'⟩ := hheader.toInt_offsets hx hy hdiffpos hextrapos
  rw [hdiffpos'] at hdiff
  rw [hextrapos'] at hextra
  have hnewsize := h.newsize_nonneg
  have hstart : Represents lib (start env.pnew control diff extra)
      (triples (lib.content control)) (blocks lib.decompressed patch) := by
    refine ⟨rfl, rfl, fun k hk => ?_, rfl, hdiff, hextra⟩
    simp [blocks] at hk
  have htriples : triples (lib.content control) = controlBlock lib.decompressed patch := by
    rw [hcontrol]
    rfl
  have hbuffers : HoldsOld ⟨o.pold, o.oldsize, h.newsize, hnewsize⟩ old := ⟨hsize, hbytes⟩
  refine .bind (runLoop_ends _ hbuffers hstart (by simpa [blocks] using hnewsize) ?_) ?_
  · simpa only [start, htriples, hn] using hexact
  · rintro pnew _ ⟨rfl, hpnew⟩
    refine .bind (check_ends _ _ _) ?_
    rintro _ _ ⟨rfl, -⟩
    refine .pure ⟨rfl, old, patch, hold, hpatch, hn, ?_⟩
    rw [hheader.reconstruction_eq hx hy hn, ← hn, ← htriples]
    exact hpnew

variable (lib env)

/-- The size of the new buffer is the one of the header, modulo `2 ^ 32`. -/
theorem rebuildNew_newsize (oldfile patchfile : String) (w : World) :
    Effect.Ends (rebuildNew lib env oldfile patchfile) w
      (fun new _ => ∃ patch, w.files patchfile = some patch ∧
        new.2 = .ofInt (sizeofNew patch)) fun _ => True := by
  refine .bind (readHeader_ends env patchfile w).of_ok ?_
  rintro h _ ⟨-, patch, hpatch, hheader⟩
  refine .bind .trivial fun _ _ _ => .bind .trivial fun _ _ _ => .bind .trivial fun _ _ _ => ?_
  refine .bind .trivial fun _ _ _ => .bind .trivial fun _ _ _ => .bind .trivial fun _ _ _ => ?_
  exact .bind .trivial fun _ _ _ => .pure ⟨patch, hpatch, hheader.newsize⟩

/-- The run returns only with the reconstruction in the file named by `argv[2]`; otherwise it
ends in `err`. -/
def ReturnsReconstruction (argv : List String) (files : String → Option Bytes) : Prop :=
  Effect.Ends (executePatch lib env argv) ⟨files, false⟩
    (fun _ t => ∃ old patch new, files (argv.getD 1 "") = some old ∧
      files (argv.getD 3 "") = some patch ∧ reconstruction lib.decompressed old patch = some new ∧
      t.files (argv.getD 2 "") = some new) IsErr

/-- A run that ends in `err` before `argv[2]` is opened leaves that file as it was. -/
def ErrKeepsFile (argv : List String) (files : String → Option Bytes) : Prop :=
  ∀ exitcode text t, executePatch lib env argv ⟨files, false⟩ = .error (.err exitcode text) t →
    t.opened = false → t.files (argv.getD 2 "") = files (argv.getD 2 "")

theorem errKeepsFile (argv : List String) (files : String → Option Bytes) :
    ErrKeepsFile lib env argv files := by
  intro exitcode text t ht hopened
  suffices t = ⟨files, false⟩ by rw [this]
  unfold executePatch at ht
  split at ht
  next program oldfile newfile patchfile =>
    rcases Effect.bind_eq_error_iff.mp ht with ht | ⟨new, u, hu, ht⟩
    · exact (keeps_rebuildNew lib env oldfile patchfile).eq_of_error ht
    · obtain rfl := (keeps_rebuildNew lib env oldfile patchfile).eq_of_ok hu
      rcases Effect.bind_eq_error_iff.mp ht with ht | ⟨_, v, -, ht⟩
      · exact writeNew_of_not_opened env ht hopened
      · cases ht
  next =>
    cases ht
    rfl

/-- What a run that returns has written: as many bytes of its buffer as the transfer took, of
the size of the header modulo `2 ^ 32`. -/
theorem executePatch_written (argv : List String) (files : String → Option Bytes) :
    Effect.Ends (executePatch lib env argv) ⟨files, false⟩
      (fun _ t => ∃ patch pnew, files (argv.getD 3 "") = some patch ∧
        t.files (argv.getD 2 "") = some (contents pnew
          (min (Int32.ofInt (sizeofNew patch)).toNatClampNeg env.newCount))) fun _ => True := by
  unfold executePatch
  split
  next program oldfile newfile patchfile =>
    refine .bind (rebuildNew_newsize lib env oldfile patchfile _) ?_
    rintro new w ⟨patch, hpatch, hnewsize⟩
    refine .bind (writeNew_ends env newfile new.1 new.2 w).of_ok ?_
    intro _ t ht
    rw [hnewsize] at ht
    exact .pure ⟨patch, new.1, hpatch, ht⟩
  next => exact .throw True.intro

/-- A run that returns with the reconstruction in the new file has lost nothing of the size
of the new file and nothing of its transfer. -/
theorem newCount_of_returnsReconstruction {argv : List String} {files : String → Option Bytes}
    {n : ℕ} {t : World} (hrun : executePatch lib env argv ⟨files, false⟩ = .ok n t)
    (h : ReturnsReconstruction lib env argv files) :
    ∃ patch, files (argv.getD 3 "") = some patch ∧ Fits (sizeofNew patch) ∧
      sizeofNew patch ≤ env.newCount := by
  have hwritten := executePatch_written lib env argv files
  simp only [ReturnsReconstruction, Effect.Ends, hrun] at h hwritten
  obtain ⟨old, patch, new, -, hpatch, hnew, hfile⟩ := h
  obtain ⟨patch', pnew, hpatch', hfile'⟩ := hwritten
  obtain rfl := Option.some.inj (hpatch.symm.trans hpatch')
  obtain rfl := Option.some.inj (hfile.symm.trans hfile')
  have hlength := reconstruction_length hnew
  rw [contents, List.length_map, List.length_range] at hlength
  have hlt := (Int32.ofInt (sizeofNew patch)).toNatClampNeg_lt
  exact ⟨patch, hpatch, ⟨by omega, by omega⟩, by omega⟩

/-- A run that ends in `err` before `argv[2]` is opened leaves that file alone, whatever the
calls answer.  A run on which nothing is lost, as far as it gets, returns only with the
reconstruction in that file; and one that returns so has lost nothing of the new file's size and transfer. -/
theorem executePatch_correct (argv : List String) (files : String → Option Bytes) :
    ErrKeepsFile lib env argv files ∧
      ((∀ old patch, files (argv.getD 1 "") = some old → files (argv.getD 3 "") = some patch →
        Faithful lib env (argv.getD 1 "") (argv.getD 3 "") ⟨files, false⟩ old patch) →
          ReturnsReconstruction lib env argv files) ∧
      (∀ n t, executePatch lib env argv ⟨files, false⟩ = .ok n t →
        ReturnsReconstruction lib env argv files →
        ∃ patch, files (argv.getD 3 "") = some patch ∧ Fits (sizeofNew patch) ∧
          sizeofNew patch ≤ env.newCount) := by
  refine ⟨errKeepsFile lib env argv files, fun hfaithful => ?_,
    fun n t hrun h => newCount_of_returnsReconstruction lib env hrun h⟩
  unfold ReturnsReconstruction executePatch
  split
  next program oldfile newfile patchfile =>
    refine .bind_ran (rebuildNew_ends hfaithful) ?_
    rintro new _ hrebuilt ⟨rfl, old, patch, hold, hpatch, hsize, hnew⟩
    refine .bind (writeNew_ends env newfile new.1 new.2 _) ?_
    intro _ t ht
    have hwritten := (hfaithful old patch hold hpatch).written ⟨new, hrebuilt⟩
    have hcount : min new.2.toNatClampNeg env.newCount = new.2.toNatClampNeg := by
      rw [Int32.toNatClampNeg]
      omega
    rw [hcount] at ht
    exact .pure ⟨old, patch, _, hold, hpatch, hnew, ht⟩
  next => exact .throw ⟨_, _, rfl⟩

end

/-! ## A patch, and a transfer that stops -/

theorem readMemory_prefix (s : Option Bytes) (len : Int32) :
    (readMemory s len).stored <+: s.getD [] := by
  unfold readMemory
  split_ifs
  · simp
  · simp
  · rcases s with _ | bytes
    · simp
    · dsimp only
      split_ifs
      · exact List.take_prefix _ _
      · exact List.take_prefix _ _

theorem readMemory_rest (s : Option Bytes) (len : Int32) (h : (readMemory s len).Good len) :
    (readMemory s len).rest.getD [] = (s.getD []).drop len.toNatClampNeg := by
  unfold readMemory at h ⊢
  split_ifs at h ⊢ with hneg hzero
  · simp [BzRead.Good, bzOk, bzStreamEnd] at h
  · simp [hzero]
  · rcases s with _ | bytes
    · simp
    · dsimp only
      split_ifs with hend
      · simpa using (List.drop_eq_nil_of_le hend).symm
      · rfl

/-- The patch of the example: the triple `(2, 1, 0)`, the diff string `1, 1` and the extra
string `c`, each compressed by bzip2. -/
def exampleControl : Bytes :=
  [0x42, 0x5A, 0x68, 0x39, 0x31, 0x41, 0x59, 0x26, 0x53, 0x59, 0x86, 0xBB, 0x07, 0x9B, 0x00, 0x00,
    0x04, 0xC0, 0x00, 0x78, 0x08, 0x20, 0x00, 0x30, 0xCD, 0x00, 0xC6, 0x80, 0x09, 0xDC, 0x2E, 0x2E,
    0xE4, 0x8A, 0x70, 0xA1, 0x21, 0x0D, 0x76, 0x0F, 0x36]

def exampleDiff : Bytes :=
  [0x42, 0x5A, 0x68, 0x39, 0x31, 0x41, 0x59, 0x26, 0x53, 0x59, 0x29, 0x90, 0x47, 0xE9, 0x00, 0x00,
    0x00, 0xC0, 0x00, 0x20, 0x00, 0x20, 0x00, 0x21, 0x18, 0x46, 0xC2, 0xEE, 0x48, 0xA7, 0x0A, 0x12,
    0x05, 0x32, 0x08, 0xFD, 0x20]

def exampleExtra : Bytes :=
  [0x42, 0x5A, 0x68, 0x39, 0x31, 0x41, 0x59, 0x26, 0x53, 0x59, 0x10, 0x11, 0xA0, 0x05, 0x00, 0x00,
    0x00, 0x01, 0x00, 0x08, 0x00, 0x20, 0x00, 0x21, 0x18, 0x46, 0x82, 0xEE, 0x48, 0xA7, 0x0A, 0x12,
    0x02, 0x02, 0x34, 0x00, 0xA0]

def examplePatch : Bytes :=
  magic ++ [41, 0, 0, 0, 0, 0, 0, 0] ++ [37, 0, 0, 0, 0, 0, 0, 0] ++ [3, 0, 0, 0, 0, 0, 0, 0] ++
    exampleControl ++ exampleDiff ++ exampleExtra

/-- What the three streams decompress to. -/
def exampleStream (bytes : Bytes) : Option Bytes :=
  if exampleControl <+: bytes then
    some ([2, 0, 0, 0, 0, 0, 0, 0] ++ [1, 0, 0, 0, 0, 0, 0, 0] ++ List.replicate 8 0)
  else if exampleDiff <+: bytes then some [1, 1]
  else if exampleExtra <+: bytes then some [0x63]
  else none

/-- libbzip2 on the three streams. -/
def exampleLib : Bzip2 (Option Bytes) where
  toBzlib := inMemory
  decompressed bytes := (exampleStream bytes).getD []
  bzReadOpen := exampleStream
  content s := s.getD []
  content_bzReadOpen _ := rfl
  stored_prefix := readMemory_prefix
  content_rest := readMemory_rest

/-- No call fails, and the transfer of the new file stops after `count` bytes. -/
def exampleEnv (count : ℕ) : Env where
  fails _ := false
  bzerror _ := 0
  headerCount := 32
  oldCount := 2
  newCount := count
  flushed := 0
  pold _ := 0
  pnew _ := 0

/-- The old file `ab` and the patch. -/
def exampleFiles : String → Option Bytes
  | "old" => some [0x61, 0x62]
  | "patch" => some examplePatch
  | _ => none

def exampleArgv : List String := ["bspatch", "old", "new", "patch"]

theorem exampleControlBlock :
    controlBlock exampleLib.decompressed examplePatch = [⟨2, 1, 0⟩] := by decide +kernel

/-- On the example nothing is lost: the new file is `bcc`. -/
theorem executePatch_correct_example :
    (ErrKeepsFile exampleLib (exampleEnv 3) exampleArgv exampleFiles ∧
      ReturnsReconstruction exampleLib (exampleEnv 3) exampleArgv exampleFiles) ∧
      reconstruction exampleLib.decompressed [0x61, 0x62] examplePatch =
        some [0x62, 0x63, 0x63] := by
  obtain ⟨herr, hreturns, -⟩ :=
    executePatch_correct exampleLib (exampleEnv 3) exampleArgv exampleFiles
  refine ⟨⟨herr, hreturns ?_⟩, by decide +kernel⟩
  intro old patch hold hpatch
  obtain rfl : [0x61, 0x62] = old := Option.some.inj hold
  obtain rfl : examplePatch = patch := Option.some.inj hpatch
  have hsize : sizeofNew examplePatch = 3 := by decide +kernel
  refine ⟨fun _ => by decide +kernel, fun _ => by decide +kernel, fun _ => by decide +kernel,
    fun _ => by decide +kernel, fun _ _ => ?_, fun _ => by decide +kernel⟩
  rw [exampleControlBlock, hsize]
  intro _
  refine ⟨⟨by decide, by decide, fun h => ?_, fun _ h => ?_, fun _ i hi _ _ => ?_⟩,
    fun _ => trivial⟩
  · simp [blocks] at h
  · simp [blocks] at h
  · have hi : (i : ℤ) < 2 := hi
    have hzero : (blocks exampleLib.decompressed examplePatch).oldpos = 0 := rfl
    exact Fits.toInt_ofInt ⟨by omega, by omega⟩

/-- The transfer of the example stops after two bytes: the run returns, and the new file is
`bc`. -/
theorem not_executePatch_correct_shortWrite :
    ¬ (ErrKeepsFile exampleLib (exampleEnv 2) exampleArgv exampleFiles ∧
      ReturnsReconstruction exampleLib (exampleEnv 2) exampleArgv exampleFiles) := by
  rintro ⟨-, h⟩
  have hrun : (match executePatch exampleLib (exampleEnv 2) exampleArgv ⟨exampleFiles, false⟩ with
      | .ok _ t => t.files "new"
      | .error _ _ => none) = some [0x62, 0x63] := by decide +kernel
  have hnew : reconstruction exampleLib.decompressed [0x61, 0x62] examplePatch =
      some [0x62, 0x63, 0x63] := by decide +kernel
  unfold ReturnsReconstruction Effect.Ends at h
  cases hresult : executePatch exampleLib (exampleEnv 2) exampleArgv ⟨exampleFiles, false⟩ with
  | error e t => simp [hresult] at hrun
  | ok n t =>
      simp only [hresult] at h hrun
      obtain ⟨old, patch, new, hold, hpatch, hrec, hfile⟩ := h
      obtain rfl : [0x61, 0x62] = old := Option.some.inj hold
      obtain rfl : examplePatch = patch := Option.some.inj hpatch
      have hsame : some [0x62, 0x63] = some new := hrun.symm.trans hfile
      rw [hnew, ← hsame] at hrec
      simp at hrec

end StudyNotes.Bspatch
