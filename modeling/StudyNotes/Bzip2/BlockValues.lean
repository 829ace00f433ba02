/-
# Reading the values of a block

The part of `BZ2_decompress` under "Now the MTF values", as far as it works on values and
not on bits.  A run is added up while its digits are read and written when the value after
it is there; the counts of the bytes are kept along with them.
-/

import StudyNotes.Bzip2.MtfValues

namespace StudyNotes.Bzip2

open StudyNotes.Checked StudyNotes.MoveToFront StudyNotes.BijectiveBinary

/-- The fields of `DState` that the values change.  The bytes `ll` are those in `tt` or in
`ll16` as far as they are filled. -/
structure Values where
  mtf : MtfArray UInt8
  unzftab : List ℤ
  ll : List UInt8

/-- The values before the first one is read. -/
def Values.empty (mtf : MtfArray UInt8) : Values :=
  { mtf, unzftab := List.replicate 256 0, ll := [] }

/-- The three places of `GET_MTF_VAL`: before the loop, in a run with the sum `es` and the
weight `N` of the next digit, and after a symbol. -/
inductive Place where
  | first
  | inRun (es : ℤ) (weight : ℕ)
  | afterSymbol

/-- What is done with a value: another one is read, the block is at its end, or `BZ_DATA_ERROR`
is returned. -/
inductive Handled where
  | next (place : Place) (v : Values)
  | blockEnd (v : Values)
  | dataError

section Code

variable (seqToUnseq : List UInt8) (nblockMAX : ℕ)

/-- The loop that writes a run; without a block the caller returns `BZ_DATA_ERROR`. -/
def putRun (uc : UInt8) : ℕ → List UInt8 → Option (Option (List UInt8))
  | 0, ll => some (some ll)
  | es + 1, ll =>
      if ll.length ≥ nblockMAX then some none
      else do putRun uc es (← push nblockMAX ll uc)

/-- What follows the loop over the digits of a run. -/
def Values.endRun (v : Values) (es : ℤ) : Option (Option Values) := do
  let es := es + 1
  let uc ← seqToUnseq[(← v.mtf.mtfa[← v.mtf.mtfbase[0]?]?).toNat]?
  let unzftab ← write v.unzftab uc.toNat ((← v.unzftab[uc.toNat]?) + es)
  return (← putRun nblockMAX uc es.toNat v.ll).map fun ll => { v with unzftab, ll }

/-- A digit of a run. -/
def Values.addDigit (v : Values) (es : ℤ) (weight nextSym : ℕ) : Handled :=
  if weight ≥ 2 * 1024 * 1024 then .dataError
  else if nextSym = runA then .next (.inRun (es + weight) (weight * 2)) v
  else .next (.inRun (es + 2 * weight) (weight * 2)) v

/-- The body of the loop over the values. -/
def Values.start (v : Values) (nextSym : ℕ) : Option Handled := do
  let eob := seqToUnseq.length + 1
  if nextSym = eob then return .blockEnd v
  else if nextSym = runA ∨ nextSym = runB then return v.addDigit (-1) 1 nextSym
  else if v.ll.length ≥ nblockMAX then return .dataError
  else
    let (uc, mtf) ← v.mtf.take (nextSym - 1)
    let uc ← seqToUnseq[uc.toNat]?
    let unzftab ← write v.unzftab uc.toNat ((← v.unzftab[uc.toNat]?) + 1)
    return .next .afterSymbol { mtf, unzftab, ll := ← push nblockMAX v.ll uc }

/-- What is done with a value at one of the places. -/
def handle (place : Place) (v : Values) (nextSym : ℕ) : Option Handled :=
  match place with
  | .inRun es weight =>
      if nextSym = runA ∨ nextSym = runB then some (v.addDigit es weight nextSym)
      else do
        match ← v.endRun seqToUnseq nblockMAX es with
        | none => return .dataError
        | some v => v.start seqToUnseq nblockMAX nextSym
  | .first => v.start seqToUnseq nblockMAX nextSym
  | .afterSymbol => v.start seqToUnseq nblockMAX nextSym

/-- Some values, one after the other. -/
def handleAll (place : Place) (v : Values) : List ℕ → Option Handled
  | [] => some (.next place v)
  | nextSym :: rest => do
      match ← handle seqToUnseq nblockMAX place v nextSym with
      | .next place v => handleAll place v rest
      | .blockEnd v => return .blockEnd v
      | .dataError => return .dataError

end Code

/-! ## What the arrays hold -/

/-- The counts of the bytes so far. -/
def Counts (unzftab : List ℤ) (ll : List UInt8) : Prop :=
  unzftab.length = 256 ∧ ∀ c < 256, unzftab[c]? = some ((keys ll).count c : ℤ)

/-- The numbers from `n` on, which no byte of the block has. -/
def otherBytes (n : ℕ) : List UInt8 := (List.range' n (256 - n)).map UInt8.ofNat

/-- The list begins with the numbers of the bytes that occur, in the order `symbols`. -/
structure Values.Holds (seqToUnseq : List UInt8) (symbols : List UInt8) (v : Values) : Prop where
  mtf : v.mtf.Holds (symbols ++ otherBytes seqToUnseq.length)
  perm : symbols.Perm (firstBytes seqToUnseq.length)
  counts : Counts v.unzftab v.ll

section Spec

variable {seqToUnseq symbols ll : List UInt8} {unzftab : List ℤ} {nblockMAX n : ℕ} {v : Values}
  {b c : UInt8}

theorem Counts.returns_write (h : Counts unzftab ll) (c : UInt8) (n : ℕ) :
    Returns (do write unzftab c.toNat ((← unzftab[c.toNat]?) + n)) fun unzftab =>
      Counts unzftab (ll ++ List.replicate n c) := by
  have hlt : c.toNat < 256 := c.toNat_lt
  refine Returns.bind (Returns.of_eq (h.2 _ hlt) rfl) ?_
  rintro _ rfl
  refine Returns.of_eq (write_eq (by rw [h.1]; exact hlt) _) ⟨?_, fun d hd => ?_⟩
  · rw [List.length_set, h.1]
  · have hcount : (keys (ll ++ List.replicate n c)).count d =
        (keys ll).count d + if c.toNat == d then n else 0 := by
      rw [keys, List.map_append, List.map_replicate, List.count_append, List.count_replicate, keys]
    rw [hcount, List.getElem?_set]
    by_cases heq : c.toNat = d
    · rw [if_pos heq, if_pos (by rw [h.1]; exact hlt), if_pos (by rw [heq, beq_self_eq_true]), heq,
        Nat.cast_add]
    · rw [if_neg heq, if_neg (by rw [beq_iff_eq]; exact heq), Nat.add_zero, h.2 d hd]

theorem putRun_eq (uc : UInt8) (n : ℕ) (ll : List UInt8) :
    putRun nblockMAX uc n ll =
      some (if ll.length + n ≤ nblockMAX ∨ n = 0 then some (ll ++ List.replicate n uc)
        else none) := by
  induction n generalizing ll with
  | zero => rw [if_pos (Or.inr rfl), List.replicate_zero, List.append_nil, putRun]
  | succ n ih =>
      rw [putRun]
      by_cases hfull : ll.length ≥ nblockMAX
      · rw [if_pos hfull, if_neg (by omega)]
      · rw [if_neg hfull, push_eq (by omega)]
        show putRun nblockMAX uc n (ll ++ [uc]) = _
        rw [ih, List.append_assoc, List.length_append, List.length_singleton]
        by_cases hfits : ll.length + (n + 1) ≤ nblockMAX
        · rw [if_pos (by omega), if_pos (Or.inl hfits)]
          rfl
        · rw [if_neg (by omega), if_neg (by omega)]

/-- The numbers of bytes that occur have a byte. -/
theorem Values.Holds.exists_byte (h : v.Holds seqToUnseq symbols) (hsize : seqToUnseq.length ≤ 256)
    (hb : b ∈ symbols) : ∃ c, seqToUnseq[b.toNat]? = some c := by
  have hlt : b.toNat < seqToUnseq.length := (mem_firstBytes hsize).mp (h.perm.mem_iff.mp hb)
  exact ⟨_, List.getElem?_eq_getElem hlt⟩

theorem Values.Holds.length_symbols (h : v.Holds seqToUnseq symbols) :
    symbols.length = seqToUnseq.length := by
  rw [h.perm.length_eq, length_firstBytes]

theorem MtfArray.Holds.front {m : MtfArray UInt8} (h : m.Holds symbols) :
    ∃ base, m.mtfbase[0]? = some base ∧ m.mtfa[base]? = symbols[0]? := by
  obtain ⟨b, hb, -⟩ := h
  exact ⟨b 0, hb.base 0 (by decide), hb.content 0 (by decide) 0 (by decide)⟩

theorem firstBytes_append_otherBytes (hn : n ≤ 256) :
    firstBytes n ++ otherBytes n = (List.range 256).map UInt8.ofNat := by
  have happend : List.range' 0 n ++ List.range' (0 + n) (256 - n) = List.range' 0 (n + (256 - n)) :=
    List.range'_append_1
  rw [Nat.zero_add, Nat.add_sub_cancel' hn] at happend
  rw [firstBytes, otherBytes, ← List.map_append, List.range_eq_range', List.range_eq_range',
    happend]

theorem returns_holds_empty {m : MtfArray UInt8} (hmtfa : m.mtfa.length = 4096)
    (hmtfbase : m.mtfbase.length = 16) (hsize : seqToUnseq.length ≤ 256) :
    Returns m.init fun mtf =>
      (Values.empty mtf).Holds seqToUnseq (firstBytes seqToUnseq.length) := by
  refine (MtfArray.returns_init hmtfa hmtfbase).mono fun mtf hmtf => ?_
  rw [← firstBytes_append_otherBytes hsize] at hmtf
  refine ⟨hmtf, List.Perm.refl _, List.length_replicate, fun c hc => ?_⟩
  rw [Values.empty, List.getElem?_replicate, if_pos hc]
  rfl

/-- A run of `n` bytes. -/
theorem Values.Holds.returns_endRun (h : v.Holds seqToUnseq symbols) (hb : symbols[0]? = some b)
    (hc : seqToUnseq[b.toNat]? = some c) (n : ℕ) :
    Returns (v.endRun seqToUnseq nblockMAX ((n : ℤ) - 1)) fun r =>
      if v.ll.length + n ≤ nblockMAX ∨ n = 0 then
        ∃ v', r = some v' ∧ v'.Holds seqToUnseq symbols ∧ v'.ll = v.ll ++ List.replicate n c
      else r = none := by
  obtain ⟨base, hbase, hfront⟩ := h.mtf.front
  rw [List.getElem?_append_left (List.getElem?_eq_some_iff.mp hb).1, hb] at hfront
  obtain ⟨unzftab, hwrite, hcounts⟩ := h.counts.returns_write c n
  obtain ⟨old, hold, hwrite'⟩ := Option.bind_eq_some_iff.mp hwrite
  rw [Values.endRun, Int.sub_add_cancel]
  refine Returns.bind (Returns.of_eq hbase rfl) ?_
  rintro _ rfl
  refine Returns.bind (Returns.of_eq hfront rfl) ?_
  rintro _ rfl
  refine Returns.bind (Returns.of_eq hc rfl) ?_
  rintro _ rfl
  refine Returns.bind (Returns.of_eq hold rfl) ?_
  rintro _ rfl
  refine Returns.bind (Returns.of_eq hwrite' rfl) ?_
  rintro _ rfl
  refine Returns.bind (Returns.of_eq (putRun_eq c _ v.ll) rfl) ?_
  rintro _ rfl
  refine Returns.pure ?_
  rw [Int.toNat_natCast]
  split
  · exact ⟨_, rfl, ⟨h.mtf, h.perm, hcounts⟩, rfl⟩
  · rfl

/-- A value that is neither a digit nor the end. -/
theorem Values.Holds.returns_start (h : v.Holds seqToUnseq symbols)
    (hsize : seqToUnseq.length ≤ 256) (hfits : v.ll.length < nblockMAX)
    (hb : symbols[n + 1]? = some b) (hc : seqToUnseq[b.toNat]? = some c) :
    Returns (v.start seqToUnseq nblockMAX (n + 2)) fun r =>
      ∃ v', r = .next .afterSymbol v' ∧ v'.Holds seqToUnseq (toFront symbols (n + 1)) ∧
        v'.ll = v.ll ++ [c] := by
  have hlt := (List.getElem?_eq_some_iff.mp hb).1
  have hlen := h.length_symbols
  obtain ⟨unzftab, hwrite, hcounts⟩ := h.counts.returns_write c 1
  obtain ⟨old, hold, hwrite'⟩ := Option.bind_eq_some_iff.mp hwrite
  rw [Values.start]
  dsimp only
  rw [if_neg (by omega), if_neg (by unfold runA runB; omega), if_neg (Nat.not_le.mpr hfits)]
  refine Returns.bind (h.mtf.returns_take (show n + 1 < 256 by omega)) ?_
  rintro ⟨uc, mtf⟩ ⟨huc, hmtf⟩
  change (symbols ++ _)[n + 1]? = _ at huc
  rw [List.getElem?_append_left hlt, hb] at huc
  cases huc
  refine Returns.bind (Returns.of_eq hc rfl) ?_
  rintro _ rfl
  refine Returns.bind (Returns.of_eq hold rfl) ?_
  rintro _ rfl
  refine Returns.bind (Returns.of_eq hwrite' rfl) ?_
  rintro _ rfl
  refine Returns.bind (Returns.of_eq (push_eq hfits _) rfl) ?_
  rintro _ rfl
  change mtf.Holds (toFront (symbols ++ _) (n + 1)) at hmtf
  rw [toFront_append hlt] at hmtf
  exact Returns.pure ⟨_, rfl, ⟨hmtf, (toFront_perm hlt).trans h.perm, hcounts⟩, rfl⟩

end Spec

/-! ## Any values of the alphabet -/

/-- A run is never negative. -/
def Place.Valid : Place → Prop
  | .inRun es _ => -1 ≤ es
  | _ => True

/-- The block fits, and the list begins with the numbers of its bytes. -/
def Values.Valid (seqToUnseq : List UInt8) (nblockMAX : ℕ) (v : Values) : Prop :=
  v.ll.length ≤ nblockMAX ∧ ∃ symbols, v.Holds seqToUnseq symbols

/-- What is kept whatever is done with a value. -/
def Handled.Valid (seqToUnseq : List UInt8) (nblockMAX : ℕ) : Handled → Prop
  | .next place v => place.Valid ∧ v.Valid seqToUnseq nblockMAX
  | .blockEnd v => v.Valid seqToUnseq nblockMAX
  | .dataError => True

section Safety

variable {seqToUnseq : List UInt8} {nblockMAX nextSym : ℕ} {v : Values} {place : Place}

theorem Values.Valid.addDigit (h : v.Valid seqToUnseq nblockMAX) {es : ℤ} (hes : -1 ≤ es)
    (weight : ℕ) : (v.addDigit es weight nextSym).Valid seqToUnseq nblockMAX := by
  rw [Values.addDigit]
  split
  · trivial
  · split
    · exact ⟨by show -1 ≤ es + weight; omega, h⟩
    · exact ⟨by show -1 ≤ es + 2 * weight; omega, h⟩

theorem Values.Valid.returns_start (h : v.Valid seqToUnseq nblockMAX)
    (hsize : seqToUnseq.length ≤ 256) (hsym : nextSym < seqToUnseq.length + 2) :
    Returns (v.start seqToUnseq nblockMAX nextSym) (Handled.Valid seqToUnseq nblockMAX) := by
  obtain ⟨hfits, symbols, hholds⟩ := h
  have hlen := hholds.length_symbols
  by_cases heob : nextSym = seqToUnseq.length + 1
  · rw [Values.start]
    dsimp only
    rw [if_pos heob]
    exact Returns.pure ⟨hfits, symbols, hholds⟩
  by_cases hdigit : nextSym = runA ∨ nextSym = runB
  · rw [Values.start]
    dsimp only
    rw [if_neg heob, if_pos hdigit]
    exact Returns.pure (Values.Valid.addDigit ⟨hfits, symbols, hholds⟩ (Int.le_refl _) _)
  by_cases hfull : v.ll.length ≥ nblockMAX
  · rw [Values.start]
    dsimp only
    rw [if_neg heob, if_neg hdigit, if_pos hfull]
    exact Returns.pure trivial
  obtain ⟨n, rfl⟩ : ∃ n, nextSym = n + 2 := by
    unfold runA runB at hdigit
    exact ⟨nextSym - 2, by omega⟩
  have hget : symbols[n + 1]? = some symbols[n + 1] := List.getElem?_eq_getElem (by omega)
  obtain ⟨c, hc⟩ := hholds.exists_byte hsize (List.mem_of_getElem? hget)
  refine (hholds.returns_start hsize (Nat.not_le.mp hfull) hget hc).mono ?_
  rintro _ ⟨v', rfl, hholds', hll⟩
  refine ⟨trivial, ?_, _, hholds'⟩
  rw [hll, List.length_append, List.length_singleton]
  omega

/-- Whatever value of the alphabet comes, all accesses are inside. -/
theorem Values.Valid.returns_handle (h : v.Valid seqToUnseq nblockMAX) (hne : seqToUnseq ≠ [])
    (hsize : seqToUnseq.length ≤ 256) (hplace : place.Valid)
    (hsym : nextSym < seqToUnseq.length + 2) :
    Returns (handle seqToUnseq nblockMAX place v nextSym) (Handled.Valid seqToUnseq nblockMAX) := by
  cases place with
  | first => exact h.returns_start hsize hsym
  | afterSymbol => exact h.returns_start hsize hsym
  | inRun es weight =>
      rw [handle]
      by_cases hdigit : nextSym = runA ∨ nextSym = runB
      · rw [if_pos hdigit]
        exact Returns.of_eq rfl (h.addDigit hplace weight)
      rw [if_neg hdigit]
      obtain ⟨hfits, symbols, hholds⟩ := h
      have hpos := List.length_pos_iff.mpr hne
      have hlen := hholds.length_symbols
      have hfront : symbols[0]? = some symbols[0] := List.getElem?_eq_getElem (by omega)
      obtain ⟨c, hc⟩ := hholds.exists_byte hsize (List.mem_of_getElem? hfront)
      obtain ⟨n, hn⟩ : ∃ n : ℕ, es = (n : ℤ) - 1 := by
        have hes : -1 ≤ es := hplace
        exact ⟨(es + 1).toNat, by omega⟩
      rw [hn]
      refine Returns.bind (hholds.returns_endRun hfront hc n) fun r hr => ?_
      split at hr
      · rename_i hroom
        obtain ⟨v', rfl, hholds', hll⟩ := hr
        refine Values.Valid.returns_start ⟨?_, symbols, hholds'⟩ hsize hsym
        rw [hll, List.length_append, List.length_replicate]
        omega
      · rw [hr]
        exact Returns.pure trivial

end Safety

/-! ## The values of the encoder -/

/-- The byte of a number. -/
def byteOf (seqToUnseq : List UInt8) (b : UInt8) : UInt8 := seqToUnseq[b.toNat]?.getD 0

/-- A place where no run is being read. -/
def Place.Idle (place : Place) : Prop := place = .first ∨ place = .afterSymbol

section Encoded

variable {seqToUnseq symbols : List UInt8} {nblockMAX n nextSym : ℕ} {v : Values} {place : Place}
  {es : ℤ} {weight : ℕ}

/-- Only the last value ends a block. -/
theorem handle_ne_blockEnd {v' : Values} (hne : nextSym ≠ seqToUnseq.length + 1) :
    handle seqToUnseq nblockMAX place v nextSym ≠ some (.blockEnd v') := by
  have hdigit : ∀ (v : Values) (es : ℤ) (weight : ℕ),
      v.addDigit es weight nextSym ≠ .blockEnd v' := by
    intro v es weight
    rw [Values.addDigit]
    split
    · intro h
      cases h
    · split
      · intro h
        cases h
      · intro h
        cases h
  have hstart : ∀ v : Values, v.start seqToUnseq nblockMAX nextSym ≠ some (.blockEnd v') := by
    intro v
    rw [Values.start]
    dsimp only
    rw [if_neg hne]
    split
    · exact fun h => hdigit v _ _ (Option.some.inj h)
    · split
      · intro h
        cases h
      · intro h
        obtain ⟨_, -, h⟩ := Option.bind_eq_some_iff.mp h
        obtain ⟨_, -, h⟩ := Option.bind_eq_some_iff.mp h
        obtain ⟨_, -, h⟩ := Option.bind_eq_some_iff.mp h
        obtain ⟨_, -, h⟩ := Option.bind_eq_some_iff.mp h
        obtain ⟨_, -, h⟩ := Option.bind_eq_some_iff.mp h
        cases h
  cases place with
  | first => exact hstart v
  | afterSymbol => exact hstart v
  | inRun es weight =>
      rw [handle]
      split
      · exact fun h => hdigit v es weight (Option.some.inj h)
      · intro h
        obtain ⟨r, -, h⟩ := Option.bind_eq_some_iff.mp h
        cases r with
        | none => cases h
        | some v => exact hstart v h

theorem handle_idle (hidle : place.Idle) :
    handle seqToUnseq nblockMAX place v nextSym = v.start seqToUnseq nblockMAX nextSym := by
  rcases hidle with rfl | rfl
  · rfl
  · rfl

/-- A run begins as one that is empty. -/
theorem handle_idle_digit (hidle : place.Idle) (hne : seqToUnseq ≠ [])
    (hdigit : nextSym = runA ∨ nextSym = runB) :
    handle seqToUnseq nblockMAX place v nextSym =
      handle seqToUnseq nblockMAX (.inRun (-1) 1) v nextSym := by
  have hpos := List.length_pos_iff.mpr hne
  have heob : nextSym ≠ seqToUnseq.length + 1 := by
    unfold runA runB at hdigit
    omega
  rw [handle_idle hidle, Values.start]
  dsimp only
  rw [if_neg heob, if_pos hdigit, handle, if_pos hdigit]
  rfl

theorem handleAll_cons (rest : List ℕ) :
    handleAll seqToUnseq nblockMAX place v (nextSym :: rest) = do
      match ← handle seqToUnseq nblockMAX place v nextSym with
      | .next place v => handleAll seqToUnseq nblockMAX place v rest
      | .blockEnd v => return .blockEnd v
      | .dataError => return .dataError := rfl

theorem handle_digit {d : ℕ} (hd : d = 1 ∨ d = 2) (hsmall : ¬weight ≥ 2 * 1024 * 1024) :
    handle seqToUnseq nblockMAX (.inRun es weight) v (d - 1) =
      some (.next (.inRun (es + (d * weight : ℕ)) (weight * 2)) v) := by
  rcases hd with rfl | rfl
  · have hdigit : 1 - 1 = runA ∨ 1 - 1 = runB := Or.inl rfl
    have hfirst : 1 - 1 = runA := rfl
    rw [handle, if_pos hdigit, Values.addDigit, if_neg hsmall, if_pos hfirst, Nat.one_mul]
  · have hdigit : 2 - 1 = runA ∨ 2 - 1 = runB := Or.inr rfl
    have hsecond : 2 - 1 ≠ runA := by decide
    rw [handle, if_pos hdigit, Values.addDigit, if_neg hsmall, if_neg hsecond, Nat.cast_mul]
    rfl

/-- The digits are added up. -/
theorem handleAll_digits {ds : List ℕ} (hds : ∀ d ∈ ds, d = 1 ∨ d = 2)
    (hfits : weight * 2 ^ ds.length < 2 * (2 * 1024 * 1024)) (rest : List ℕ) :
    handleAll seqToUnseq nblockMAX (.inRun es weight) v (ds.map (· - 1) ++ rest) =
      handleAll seqToUnseq nblockMAX
        (.inRun (es + (value ds * weight : ℕ)) (weight * 2 ^ ds.length)) v rest := by
  induction ds generalizing es weight with
  | nil => simp [value]
  | cons d ds ih =>
      have hsplit : weight * 2 ^ (d :: ds).length = weight * 2 * 2 ^ ds.length := by
        rw [List.length_cons, Nat.pow_succ]
        ring
      have hsum : value (d :: ds) * weight = d * weight + value ds * (weight * 2) := by
        rw [value]
        ring
      have hsmall : ¬weight ≥ 2 * 1024 * 1024 := by
        have hle : weight * 2 * 1 ≤ weight * 2 * 2 ^ ds.length :=
          Nat.mul_le_mul_left _ (Nat.two_pow_pos _)
        omega
      rw [hsplit] at hfits ⊢
      rw [hsum, Nat.cast_add, ← Int.add_assoc, ← ih (fun d hd => hds d (List.mem_cons_of_mem _ hd))
        hfits, List.map_cons, List.cons_append, handleAll_cons]
      rw [handle_digit (hds d List.mem_cons_self) hsmall]
      rfl

theorem handleAll_runValues (hidle : place.Idle) (hne : seqToUnseq ≠ []) (hpos : 0 < n)
    (hsmall : n + 1 < 2 * (2 * 1024 * 1024)) (rest : List ℕ) :
    handleAll seqToUnseq nblockMAX place v (runValues n ++ rest) =
      handleAll seqToUnseq nblockMAX (.inRun ((n : ℤ) - 1) (2 ^ (digits n).length)) v rest := by
  have hstart : handleAll seqToUnseq nblockMAX place v (runValues n ++ rest) =
      handleAll seqToUnseq nblockMAX (.inRun (-1) 1) v (runValues n ++ rest) := by
    rw [runValues, digits_of_pos hpos, List.map_cons, List.cons_append, handleAll_cons,
      handleAll_cons, handle_idle_digit hidle hne]
    split
    · exact Or.inr rfl
    · exact Or.inl rfl
  have hlen := two_pow_length_le n
  rw [hstart, runValues, handleAll_digits (fun d hd => mem_digits hd) (by omega), value_digits,
    Nat.mul_one, Nat.one_mul, show (-1 : ℤ) + (n : ℕ) = (n : ℤ) - 1 by omega]

/-- A run, and the value after it. -/
theorem Values.Holds.exists_run (h : v.Holds seqToUnseq symbols) {b c : UInt8}
    (hb : symbols[0]? = some b) (hc : seqToUnseq[b.toNat]? = some c) (hidle : place.Idle)
    (hroom : v.ll.length + n ≤ nblockMAX) (hmax : nblockMAX ≤ 900000) (hsym : 2 ≤ nextSym) :
    ∃ v' : Values, v'.Holds seqToUnseq symbols ∧ v'.ll = v.ll ++ List.replicate n c ∧
      ∀ rest, handleAll seqToUnseq nblockMAX place v (runValues n ++ nextSym :: rest) =
        handleAll seqToUnseq nblockMAX .first v' (nextSym :: rest) := by
  rcases Nat.eq_zero_or_pos n with rfl | hpos
  · refine ⟨v, h, by rw [List.replicate_zero, List.append_nil], fun rest => ?_⟩
    rw [runValues, digits_zero, List.map_nil, List.nil_append, handleAll_cons, handle_idle hidle]
    rfl
  · have hne : seqToUnseq ≠ [] := by
      rintro rfl
      cases hc
    obtain ⟨r, hr, hholds⟩ : Returns (v.endRun seqToUnseq nblockMAX ((n : ℤ) - 1)) _ :=
      h.returns_endRun hb hc n
    rw [if_pos (Or.inl hroom)] at hholds
    obtain ⟨v', rfl, hv', hll⟩ := hholds
    refine ⟨v', hv', hll, fun rest => ?_⟩
    rw [handleAll_runValues hidle hne hpos (by omega), handleAll_cons, handleAll_cons, handle,
      if_neg (by unfold runA runB; omega), hr]
    rfl

/-- The bytes of a block are read from the values of their numbers. -/
theorem Values.Holds.returns_handleAll {text : List UInt8} {zPend : ℕ} {b : UInt8}
    (h : v.Holds seqToUnseq symbols) (hsize : seqToUnseq.length ≤ 256)
    (hmem : ∀ b ∈ text, b ∈ symbols) (hb : symbols[0]? = some b) (hidle : place.Idle)
    (hroom : v.ll.length + zPend + text.length ≤ nblockMAX) (hmax : nblockMAX ≤ 900000) :
    Returns (handleAll seqToUnseq nblockMAX place v
        (valuesOf zPend (places symbols text) ++ [seqToUnseq.length + 1])) fun r =>
      ∃ v' symbols', r = .blockEnd v' ∧ v'.Holds seqToUnseq symbols' ∧
        v'.ll = v.ll ++ List.replicate zPend (byteOf seqToUnseq b) ++
          text.map (byteOf seqToUnseq) := by
  have hbyte : ∀ {symbols : List UInt8} {v : Values} {b : UInt8}, v.Holds seqToUnseq symbols →
      b ∈ symbols → seqToUnseq[b.toNat]? = some (byteOf seqToUnseq b) := by
    intro symbols v b h hb
    obtain ⟨c, hc⟩ := h.exists_byte hsize hb
    rw [byteOf, hc]
    rfl
  have hb' := hbyte h (List.mem_of_getElem? hb)
  have hpos : 2 ≤ seqToUnseq.length + 1 := Nat.succ_le_succ (by
    have hlt := (List.getElem?_eq_some_iff.mp hb').1
    omega)
  induction text generalizing zPend symbols v place b with
  | nil =>
      obtain ⟨v', hv', hll, hrun⟩ := h.exists_run (n := zPend) hb hb' hidle hroom hmax hpos
      rw [places, valuesOf, hrun, handleAll_cons, handle, Values.start]
      dsimp only
      rw [if_pos rfl]
      refine Returns.pure ⟨v', symbols, rfl, hv', ?_⟩
      rw [hll, List.map_nil, List.append_nil]
  | cons c text ih =>
      rw [List.length_cons] at hroom
      have hc := hmem c List.mem_cons_self
      have hplace := getElem?_idxOf hc
      have hlt := List.idxOf_lt_length_of_mem hc
      rw [places]
      generalize symbols.idxOf c = place' at hplace hlt ⊢
      cases place' with
      | zero =>
          rw [hplace] at hb
          cases hb
          rw [toFront_zero hlt, valuesOf]
          refine (ih h (fun b hb => hmem b (List.mem_cons_of_mem _ hb)) hplace hidle (by omega)
            hb').mono ?_
          rintro _ ⟨v', symbols', rfl, hv', hll⟩
          refine ⟨v', symbols', rfl, hv', ?_⟩
          rw [hll, List.replicate_succ', List.map_cons]
          simp only [List.append_assoc, List.singleton_append]
      | succ n =>
          obtain ⟨v', hv', hll, hrun⟩ :=
            h.exists_run (n := zPend) hb hb' hidle (by omega) hmax (show 2 ≤ n + 2 by omega)
          have hroom' : v'.ll.length = v.ll.length + zPend := by
            rw [hll, List.length_append, List.length_replicate]
          have hc' := hbyte h hc
          obtain ⟨r, hr, v'', rfl, hv'', hll'⟩ :
              Returns (v'.start seqToUnseq nblockMAX (n + 2)) _ :=
            hv'.returns_start hsize (by omega) hplace hc'
          have hfront : (toFront symbols (n + 1))[0]? = some c := by
            rw [getElem?_toFront hlt, if_pos rfl, hplace]
          have hroom'' : v''.ll.length = v.ll.length + zPend + 1 := by
            rw [hll', List.length_append, hroom']
            rfl
          rw [valuesOf, List.append_assoc, List.cons_append, hrun, handleAll_cons, handle, hr]
          refine (ih hv'' (fun b hb => (toFront_perm hlt).mem_iff.mpr
            (hmem b (List.mem_cons_of_mem _ hb))) hfront (Or.inr rfl) (by omega)
            hc').mono ?_
          rintro _ ⟨v₃, symbols', rfl, hv₃, hll₃⟩
          refine ⟨v₃, symbols', rfl, hv₃, ?_⟩
          rw [hll₃, hll', hll, List.map_cons, List.replicate_zero, List.append_nil]
          simp only [List.append_assoc, List.singleton_append]

end Encoded

end StudyNotes.Bzip2
