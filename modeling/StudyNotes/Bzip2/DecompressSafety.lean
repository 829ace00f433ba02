/-
# What the decoder never does

Whatever the input is, the decoder reads and writes inside its arrays, with one exception: it
does not compare `nSelectors` with the size of `selectorMtf`.  Every state that it reaches
keeps the sizes of the arrays, the ranges of the selectors and the shape of the coding tables;
no other state has an access outside.
-/

import StudyNotes.Bzip2.Decompress

namespace StudyNotes.Bzip2

open StudyNotes.Checked StudyNotes.CanonicalCode StudyNotes.CountingOrder StudyNotes.MoveToFront

/-! ## What is kept -/

/-- The memory of a stream has the right size. -/
structure Stream.Valid (d : Stream) : Prop where
  le_nine : d.blockSize100k ≤ 9
  mtfa : d.mtf.mtfa.length = 4096
  mtfbase : d.mtf.mtfbase.length = 16
  ll4 : d.smallDecompress = true → 100000 * d.blockSize100k ≤ 2 * d.ll4.length

/-- Some bytes occur in the block. -/
def Alphabet (seqToUnseq : List UInt8) : Prop := seqToUnseq ≠ [] ∧ seqToUnseq.length ≤ 256

/-- A number of coding tables. -/
def Groups (nGroups : ℕ) : Prop := 2 ≤ nGroups ∧ nGroups ≤ 6

structure Coding.Valid (c : Coding) : Prop where
  alphabet : Alphabet c.seqToUnseq
  nGroups : Groups c.nGroups
  selector : ∀ t ∈ c.selector, t < c.nGroups

/-- A table is the one of some lengths. -/
structure Table.Of (t : Table) (length : List ℕ) : Prop where
  canonical : t.table.Canonical length t.minLen (maxLenOf length)
  minLen_le : ∀ n ∈ length, t.minLen ≤ n
  maxLen_mem : maxLenOf length ∈ length
  le_twenty : ∀ n ∈ length, n ≤ 20

def Table.Valid (alphaSize : ℕ) (t : Table) : Prop :=
  ∃ length : List ℕ, length.length = alphaSize ∧ t.Of length

/-- Tables, values and a group. -/
structure ValuesValid (h : BlockHead) (c : Coding) (tables : List Table) (place : Place)
    (v : Values) (g : Group) : Prop where
  head : h.toStream.Valid
  coding : c.Valid
  count : tables.length = c.nGroups
  tables : ∀ t ∈ tables, t.Valid (c.seqToUnseq.length + 2)
  place : place.Valid
  values : v.Valid c.seqToUnseq (100000 * h.blockSize100k)
  groupNo : -1 ≤ g.groupNo
  group : g.table.Valid (c.seqToUnseq.length + 2)

namespace Reading

/-- What is kept in every state. -/
def Valid : Reading → Prop
  | magic1 | magic2 | magic3 | magic4 | ccrc .. => True
  | blkhdr d _ | bcrc d _ _ | randbit d _ | origPtr d _ _ _ _ | endhdr d _ => d.Valid
  | mapping1 h inUse16 => h.toStream.Valid ∧ inUse16.length < 16
  | mapping2 h inUse16 inUse i j =>
      h.toStream.Valid ∧ inUse16.length = 16 ∧ inUse.length = 256 ∧ i < 16 ∧ j < 16
  | selector1 h seqToUnseq => h.toStream.Valid ∧ Alphabet seqToUnseq
  | selector2 h seqToUnseq nGroups => h.toStream.Valid ∧ Alphabet seqToUnseq ∧ Groups nGroups
  | selector3 h seqToUnseq nGroups nSelectors selectorMtf j =>
      h.toStream.Valid ∧ Alphabet seqToUnseq ∧ Groups nGroups ∧ j < nGroups ∧
        selectorMtf.length < nSelectors ∧ selectorMtf.length ≤ maxSelectors ∧
        ∀ v ∈ selectorMtf, v < nGroups
  | coding1 h c lens =>
      h.toStream.Valid ∧ c.Valid ∧ lens.length < c.nGroups ∧
        ∀ len ∈ lens, len.length = c.seqToUnseq.length + 2
  | coding2 h c lens len _ | coding3 h c lens len _ =>
      h.toStream.Valid ∧ c.Valid ∧ lens.length < c.nGroups ∧
        (∀ len ∈ lens, len.length = c.seqToUnseq.length + 2) ∧
        len.length < c.seqToUnseq.length + 2
  | mtfBits h c tables place v g => ValuesValid h c tables place v g
  | mtfBit h c tables place v g zn zvec =>
      ValuesValid h c tables place v g ∧ g.table.minLen ≤ zn ∧
        ∃ length : List ℕ, length.length = c.seqToUnseq.length + 2 ∧ g.table.Of length ∧
          first length zn ≤ 2 * zvec

/-- What is known where the code runs on to. -/
def Next.Valid : Next → Prop
  | .inl s => s.Valid
  | .inr (.output b s d) => d.Valid ∧ b.saveNblock ≤ 100000 * d.blockSize100k ∧ ∃ f, s.Begins b f
  | .inr (.streamEnd _) | .inr .dataErrorMagic | .inr .dataError => True
  | .inr .returnsTrue | .inr .outside => False

/-- The selectors are as many as there is space for, and there is another. -/
def Full : Reading → Prop
  | selector3 _ _ _ _ selectorMtf _ => selectorMtf.length = maxSelectors
  | _ => False

section Safety

variable {h : BlockHead} {d : Stream} {c : Coding} {seqToUnseq : List UInt8}

/-! ## The mapping table and the selectors -/

theorem returns_nextMapping (hh : h.toStream.Valid) {inUse16 inUse : List Bool}
    (h16 : inUse16.length = 16) (hsize : inUse.length = 256) (i : ℕ) :
    Returns (nextMapping h inUse16 inUse i) Next.Valid := by
  induction hleft : 16 - i generalizing i with
  | zero =>
      rw [nextMapping, if_neg (by omega)]
      refine Returns.bind (returns_makeMapsD hsize) ?_
      rintro _ rfl
      by_cases hzero : (occurring inUse 256).length = 0
      · rw [if_pos hzero]
        exact Returns.pure trivial
      · rw [if_neg hzero]
        exact Returns.pure ⟨hh, fun hnil => hzero (by rw [hnil]; rfl), length_occurring_le _ _⟩
  | succ left ih =>
      rw [nextMapping, if_pos (by omega)]
      refine Returns.bind (Returns.of_eq (List.getElem?_eq_getElem (by omega)) rfl) ?_
      rintro _ rfl
      split
      · exact Returns.pure ⟨hh, h16, hsize, by omega, by decide⟩
      · exact ih (i + 1) (by omega)

theorem returns_afterMapping1 (hh : h.toStream.Valid) {inUse16 : List Bool}
    (h16 : inUse16.length < 16) (uc : ℕ) : Returns (afterMapping1 h inUse16 uc) Next.Valid := by
  refine Returns.bind (Returns.of_eq (push_eq h16 _) rfl) ?_
  rintro _ rfl
  split
  · rename_i hmore
    exact Returns.pure ⟨hh, hmore⟩
  · rename_i hlast
    refine returns_nextMapping hh ?_ List.length_replicate 0
    rw [List.length_append, List.length_singleton] at hlast ⊢
    omega

theorem returns_afterMapping2 (hh : h.toStream.Valid) {inUse16 inUse : List Bool} {i j : ℕ}
    (h16 : inUse16.length = 16) (hsize : inUse.length = 256) (hi : i < 16) (hj : j < 16) (uc : ℕ) :
    Returns (afterMapping2 h inUse16 inUse i j uc) Next.Valid := by
  have hmark : Returns (mark inUse (i * 16 + j) uc) fun inUse => inUse.length = 256 := by
    rw [mark]
    split
    · exact Returns.of_eq (write_eq (by omega) _) (by rw [List.length_set, hsize])
    · exact Returns.of_eq rfl hsize
  refine Returns.bind hmark fun inUse hsize => ?_
  split
  · rename_i hmore
    exact Returns.pure ⟨hh, h16, hsize, hi, hmore⟩
  · exact returns_nextMapping hh h16 hsize (i + 1)

/-- Cells are moved up, and the one after them goes to the front. -/
theorem returns_rotate {pos : List ℕ} {v tmp : ℕ} (htmp : pos[v]? = some tmp) :
    Returns (do write (← shiftUp pos 0 v) 0 tmp) fun moved => moved = toFront pos v := by
  have hlt := (List.getElem?_eq_some_iff.mp htmp).1
  refine Returns.bind (returns_shiftUp (by omega)) ?_
  rintro moved ⟨hsize, hmoved⟩
  refine Returns.of_eq (write_eq (by omega) _) (eq_toFront hlt fun i => ?_)
  rw [List.getElem?_set]
  by_cases hi : 0 = i
  · rw [if_pos hi, if_pos (by omega), if_pos hi.symm, htmp]
  · rw [if_neg hi, if_neg (Ne.symm hi), hmoved i]
    by_cases hle : i ≤ v
    · rw [if_pos (by omega), if_pos hle]
    · rw [if_neg (by omega), if_neg hle]

/-- The selectors are taken from the list of the tables. -/
theorem returns_undoSelectors {nGroups : ℕ} {selectorMtf : List ℕ}
    (hlt : ∀ v ∈ selectorMtf, v < nGroups) :
    Returns (undoSelectors nGroups selectorMtf) fun selector =>
      takeAll (List.range nGroups) selectorMtf = some selector := by
  have hrun : ∀ (ns pos selector : List ℕ), pos.length = nGroups → (∀ v ∈ ns, v < nGroups) →
      Returns (ns.foldlM (fun r v => do
        let tmp ← r.1[v]?
        let pos ← write (← shiftUp r.1 0 v) 0 tmp
        return (pos, r.2 ++ [tmp])) (pos, selector)) fun r =>
          ∃ more, takeAll pos ns = some more ∧ r.2 = selector ++ more := by
    intro ns
    induction ns with
    | nil => exact fun pos selector _ _ => Returns.pure ⟨[], rfl, (List.append_nil _).symm⟩
    | cons v ns ih =>
        intro pos selector hsize hns
        have hv : v < pos.length := hsize ▸ hns v List.mem_cons_self
        have htmp : pos[v]? = some pos[v] := List.getElem?_eq_getElem hv
        obtain ⟨_, hmoved, rfl⟩ := returns_rotate htmp
        obtain ⟨shifted, hshift, hwrite⟩ := Option.bind_eq_some_iff.mp hmoved
        obtain ⟨⟨last, all⟩, hall, more, hmore, heq⟩ :=
          ih (toFront pos v) (selector ++ [pos[v]]) (by rw [length_toFront hv, hsize])
            fun u hu => hns u (List.mem_cons_of_mem _ hu)
        refine ⟨(last, all), ?_, pos[v] :: more, ?_, ?_⟩
        · rw [List.foldlM_cons]
          dsimp only
          rw [htmp]
          show ((shiftUp pos 0 v).bind fun shifted => (write shifted 0 pos[v]).bind _).bind _ = _
          rw [hshift]
          show ((write shifted 0 pos[v]).bind _).bind _ = _
          rw [hwrite]
          exact hall
        · rw [takeAll, htmp, Option.bind_eq_bind, Option.bind_some, hmore]
          rfl
        · rw [heq, List.append_assoc]
          rfl
  refine Returns.bind (hrun selectorMtf _ [] List.length_range hlt) ?_
  rintro ⟨_, all⟩ ⟨more, hmore, rfl⟩
  exact Returns.pure hmore

theorem returns_afterSelector3 (hh : h.toStream.Valid) (hseq : Alphabet seqToUnseq)
    {nGroups nSelectors j : ℕ} {selectorMtf : List ℕ} (hgroups : Groups nGroups) (hj : j < nGroups)
    (hmore : selectorMtf.length < nSelectors) (hsize : selectorMtf.length < maxSelectors)
    (hlt : ∀ v ∈ selectorMtf, v < nGroups) (uc : ℕ) :
    Returns (afterSelector3 h seqToUnseq nGroups nSelectors selectorMtf j uc) Next.Valid := by
  rw [afterSelector3]
  split
  · refine Returns.bind (Returns.of_eq (push_eq hsize _) rfl) ?_
    rintro _ rfl
    have hlt' : ∀ v ∈ selectorMtf ++ [j], v < nGroups := by
      intro v hv
      rcases List.mem_append.mp hv with hold | hnew
      · exact hlt v hold
      · rw [List.mem_singleton.mp hnew]
        exact hj
    split
    · rename_i hnext
      refine Returns.pure ⟨hh, hseq, hgroups, ?_, hnext, ?_, hlt'⟩
      · exact Nat.lt_of_lt_of_le (by decide) hgroups.1
      · rw [List.length_append]
        exact hsize
    · refine Returns.bind (returns_undoSelectors hlt') fun selector hselector => ?_
      refine Returns.pure ⟨hh, ⟨hseq, hgroups, fun t ht => ?_⟩, ?_, List.forall_mem_nil _⟩
      · exact List.mem_range.mp ((mem_of_takeAll hselector).2 t ht)
      · exact Nat.lt_of_lt_of_le (by decide) hgroups.1
  · split
    · exact Returns.pure trivial
    · rename_i hnext
      exact Returns.pure ⟨hh, hseq, hgroups, Nat.not_le.mp hnext, hmore, Nat.le_of_lt hsize, hlt⟩

/-! ## The coding tables -/

theorem returns_createTable {len : List CodeLength} (hne : len ≠ [])
    (hsize : len.length ≤ maxAlphaSize) :
    Returns (createTable len) fun t => t.Of (len.map Subtype.val) := by
  have hrange : ∀ n ∈ len.map Subtype.val, 1 ≤ n ∧ n ≤ 20 := by
    intro n hn
    obtain ⟨m, -, rfl⟩ := List.mem_map.mp hn
    exact m.property
  have hmem : maxLenOf (len.map Subtype.val) ∈ len.map Subtype.val :=
    maxLenOf_mem (fun n hn => (hrange n hn).1) fun hnil => hne (List.map_eq_nil_iff.mp hnil)
  have hle := (hrange _ hmem).2
  refine Returns.bind (returns_hbCreateDecodeTables (by rw [List.length_map]; exact hsize)
    (fun n hn => minLenOf_le hn) (fun n hn => le_maxLenOf hn) (minLenOf_le hmem) ?_)
    fun table htable => ?_
  · exact Nat.lt_of_le_of_lt (Nat.succ_le_succ hle) (by decide)
  · exact Returns.pure ⟨htable, fun n hn => minLenOf_le hn, hmem, fun n hn => (hrange n hn).2⟩

/-! ## The values -/

variable {tables : List Table} {place : Place} {v : Values} {g : Group}

theorem returns_newGroup (hh : h.toStream.Valid) (hc : c.Valid) (hcount : tables.length = c.nGroups)
    (htables : ∀ t ∈ tables, t.Valid (c.seqToUnseq.length + 2)) (hplace : place.Valid)
    (hv : v.Valid c.seqToUnseq (100000 * h.blockSize100k)) {groupNo : ℤ} (hgroup : -1 ≤ groupNo) :
    Returns (newGroup h c tables place v groupNo) Next.Valid := by
  rw [newGroup]
  split
  · exact Returns.pure trivial
  · rename_i hmore
    obtain ⟨k, hk⟩ : ∃ k : ℕ, groupNo + 1 = k := ⟨(groupNo + 1).toNat, by omega⟩
    rw [hk, index_natCast]
    have hlt : k < c.selector.length := by omega
    refine Returns.bind (Returns.of_eq rfl rfl) ?_
    rintro _ rfl
    refine Returns.bind (Returns.of_eq (List.getElem?_eq_getElem hlt) rfl) ?_
    rintro _ rfl
    have hsel := hc.selector _ (List.getElem_mem hlt)
    have hlt' : c.selector[k] < tables.length := hcount ▸ hsel
    refine Returns.bind (Returns.of_eq (List.getElem?_eq_getElem hlt') rfl) ?_
    rintro _ rfl
    exact Returns.pure ⟨hh, hc, hcount, htables, hplace, hv, by show -1 ≤ (k : ℤ); omega,
      htables _ (List.getElem_mem hlt')⟩

theorem returns_nextVal (hg : ValuesValid h c tables place v g) {place' : Place} {v' : Values}
    (hplace : place'.Valid) (hv : v'.Valid c.seqToUnseq (100000 * h.blockSize100k)) :
    Returns (nextVal h c tables place' v' g) Next.Valid := by
  rw [nextVal]
  split
  · exact returns_newGroup hg.head hg.coding hg.count hg.tables hplace hv hg.groupNo
  · exact Returns.of_eq rfl
      ⟨hg.head, hg.coding, hg.count, hg.tables, hplace, hv, hg.groupNo, hg.group⟩

theorem returns_endBlock (hh : h.toStream.Valid)
    (hv : v.Valid seqToUnseq (100000 * h.blockSize100k)) :
    Returns (endBlock h v) Next.Valid := by
  obtain ⟨hfits, symbols, hholds⟩ := hv
  by_cases horig : h.origPtr < v.ll.length
  · refine Returns.bind (returns_finishBlock hholds.counts horig hfits hh.le_nine fun hsmall =>
      Nat.le_trans hfits (hh.ll4 hsmall)) ?_
    rintro _ ⟨b, s, rfl, -, hnblock, hll4, hbegins⟩
    have hsizes := hholds.mtf.sizes
    refine Returns.pure ⟨⟨hh.le_nine, hsizes.1, hsizes.2, fun hsmall => ?_⟩, ?_, _, hbegins⟩
    · show _ ≤ 2 * (b.arrays.ll4 h.ll4).length
      rw [hll4]
      exact hh.ll4 hsmall
    · rw [hnblock]
      exact hfits
  · refine Returns.bind (Returns.of_eq (finishBlock_of_le (Nat.not_lt.mp horig)) rfl) ?_
    rintro _ rfl
    exact Returns.pure trivial

theorem returns_afterVal (hg : ValuesValid h c tables place v g) {nextSym : ℕ}
    (hsym : nextSym < c.seqToUnseq.length + 2) :
    Returns (afterVal h c tables place v g nextSym) Next.Valid := by
  refine Returns.bind (hg.values.returns_handle hg.coding.alphabet.1 hg.coding.alphabet.2 hg.place
    hsym) fun r hr => ?_
  cases r with
  | next place v => exact returns_nextVal hg hr.1 hr.2
  | blockEnd v => exact returns_endBlock hg.head hr
  | dataError => exact Returns.pure trivial

/-- The bits so far are no word that is shorter. -/
theorem returns_afterBits (hg : ValuesValid h c tables place v g) {length : List ℕ} {zn zvec : ℕ}
    (hlength : length.length = c.seqToUnseq.length + 2) (htable : g.table.Of length)
    (hzn : g.table.minLen ≤ zn) (hreached : first length zn ≤ zvec) :
    Returns (afterBits h c tables place v g zn zvec) Next.Valid := by
  refine Returns.bind (htable.canonical.returns_lookup hzn htable.maxLen_mem
    (fun n hn => le_maxLenOf hn) hreached) fun r hr => ?_
  cases r with
  | symbol nextSym => exact returns_afterVal hg (hlength ▸ hr)
  | more => exact Returns.pure ⟨hg, Nat.le_succ_of_le hzn, length, hlength, htable, hr.1⟩
  | dataError => exact Returns.pure trivial

theorem returns_endCoding (hh : h.toStream.Valid) (hc : c.Valid) {lens : List (List CodeLength)}
    (hcount : lens.length = c.nGroups)
    (hlens : ∀ len ∈ lens, len.length = c.seqToUnseq.length + 2) :
    Returns (endCoding h c lens) Next.Valid := by
  have halpha := hc.alphabet.2
  have hcreate : ∀ len ∈ lens, Returns (createTable len)
      fun t => t.Valid (c.seqToUnseq.length + 2) := by
    intro len hlen
    have hsize := hlens len hlen
    refine (returns_createTable (fun hnil => ?_) ?_).mono fun t ht => ?_
    · rw [hnil] at hsize
      cases hsize
    · rw [hsize]
      exact Nat.add_le_add_right halpha 2
    · exact ⟨len.map Subtype.val, by rw [List.length_map, hsize], ht⟩
  refine Returns.bind (Returns.mapM hcreate) fun tables htables => ?_
  refine Returns.bind (returns_holds_empty hh.mtfa hh.mtfbase halpha) fun mtf hmtf => ?_
  refine returns_newGroup hh hc (htables.length_eq ▸ hcount) (fun t ht => ?_)
    (show Place.first.Valid from trivial) ⟨Nat.zero_le _, _, hmtf⟩ (Int.le_refl _)
  obtain ⟨k, hk, rfl⟩ := List.mem_iff_getElem.mp ht
  exact htables.get (htables.length_eq.symm ▸ hk) hk

theorem checkCurr_valid (hh : h.toStream.Valid) (hc : c.Valid) {lens : List (List CodeLength)}
    (hcount : lens.length < c.nGroups)
    (hlens : ∀ len ∈ lens, len.length = c.seqToUnseq.length + 2) {len : List CodeLength}
    (hlen : len.length < c.seqToUnseq.length + 2) (curr : ℕ) :
    (checkCurr h c lens len curr).Valid := by
  rw [checkCurr]
  split
  · exact ⟨hh, hc, hcount, hlens, hlen⟩
  · trivial

theorem returns_afterCoding2 (hh : h.toStream.Valid) (hc : c.Valid) {lens : List (List CodeLength)}
    (hcount : lens.length < c.nGroups)
    (hlens : ∀ len ∈ lens, len.length = c.seqToUnseq.length + 2) {len : List CodeLength}
    (hlen : len.length < c.seqToUnseq.length + 2) (curr : CodeLength) (uc : ℕ) :
    Returns (afterCoding2 h c lens len curr uc) Next.Valid := by
  have halpha := hc.alphabet.2
  rw [afterCoding2]
  split
  · have hfits : len.length < maxAlphaSize :=
      Nat.lt_of_lt_of_le hlen (Nat.add_le_add_right halpha 2)
    refine Returns.bind (Returns.of_eq (push_eq hfits _) rfl) ?_
    rintro _ rfl
    split
    · rename_i hmore
      exact Returns.pure (checkCurr_valid hh hc hcount hlens hmore _)
    · rename_i hlast
      have hlens' : ∀ l ∈ lens ++ [len ++ [curr]], l.length = c.seqToUnseq.length + 2 := by
        intro l hl
        rcases List.mem_append.mp hl with hold | hnew
        · exact hlens l hold
        · rw [List.mem_singleton.mp hnew]
          rw [List.length_append, List.length_singleton] at hlast ⊢
          omega
      dsimp only
      split
      · rename_i hmore
        exact Returns.pure ⟨hh, hc, hmore, hlens'⟩
      · rename_i hdone
        refine returns_endCoding hh hc ?_ hlens'
        rw [List.length_append, List.length_singleton] at hdone ⊢
        omega
  · exact Returns.pure ⟨hh, hc, hcount, hlens, hlen⟩

/-! ## Every step -/

theorem startStream_valid (fresh : Fresh) (smallDecompress : Bool) (value : ℕ) :
    (startStream fresh smallDecompress value).Valid := by
  rw [startStream]
  split
  · trivial
  · refine ⟨?_, by simp, by simp, fun hsmall => ?_⟩
    · show value - 0x30 ≤ 9
      omega
    · dsimp only at hsmall ⊢
      rw [if_pos hsmall, List.length_map, List.length_range]
      omega

/-- From a state that is kept the code runs on inside its arrays, unless there are too many
selectors. -/
theorem Valid.returns_after {s : Reading} (hs : s.Valid) (hfull : ¬s.Full) (fresh : Fresh)
    (smallDecompress : Bool) (value : ℕ) :
    Returns (after fresh smallDecompress s value) Next.Valid := by
  cases s with
  | magic1 =>
      rw [after]
      split
      · exact Returns.of_eq rfl trivial
      · exact Returns.of_eq rfl trivial
  | magic2 =>
      rw [after]
      split
      · exact Returns.of_eq rfl trivial
      · exact Returns.of_eq rfl trivial
  | magic3 =>
      rw [after]
      split
      · exact Returns.of_eq rfl trivial
      · exact Returns.of_eq rfl trivial
  | magic4 => exact Returns.of_eq rfl (startStream_valid fresh smallDecompress value)
  | blkhdr d i =>
      refine Returns.of_eq rfl ?_
      rw [afterBlkhdr]
      split
      · exact hs
      · split
        · trivial
        · split
          · exact hs
          · exact hs
  | bcrc d i crc =>
      refine Returns.of_eq rfl ?_
      rw [afterBcrc]
      split
      · exact hs
      · exact hs
  | randbit d crc => exact Returns.of_eq rfl hs
  | origPtr d crc blockRandomised i ptr =>
      refine Returns.of_eq rfl ?_
      rw [afterOrigPtr]
      split
      · exact hs
      · split
        · trivial
        · exact ⟨hs, by simp⟩
  | mapping1 h inUse16 => exact returns_afterMapping1 hs.1 hs.2 value
  | mapping2 h inUse16 inUse i j =>
      obtain ⟨hh, h16, hsize, hi, hj⟩ := hs
      exact returns_afterMapping2 hh h16 hsize hi hj value
  | selector1 h seqToUnseq =>
      rw [after]
      split
      · exact Returns.of_eq rfl trivial
      · rename_i hrange
        exact Returns.of_eq rfl ⟨hs.1, hs.2, by omega, by omega⟩
  | selector2 h seqToUnseq nGroups =>
      obtain ⟨hh, hseq, hgroups⟩ := hs
      rw [after]
      split
      · exact Returns.of_eq rfl trivial
      · rename_i hrange
        refine Returns.of_eq rfl ⟨hh, hseq, hgroups, ?_, Nat.not_lt.mp hrange, Nat.zero_le _,
          List.forall_mem_nil _⟩
        exact Nat.lt_of_lt_of_le (by decide) hgroups.1
  | selector3 h seqToUnseq nGroups nSelectors selectorMtf j =>
      obtain ⟨hh, hseq, hgroups, hj, hmore, hsize, hlt⟩ := hs
      exact returns_afterSelector3 hh hseq hgroups hj hmore (Nat.lt_of_le_of_ne hsize hfull) hlt
        value
  | coding1 h c lens =>
      obtain ⟨hh, hc, hcount, hlens⟩ := hs
      refine Returns.of_eq rfl (checkCurr_valid hh hc hcount hlens ?_ value)
      exact Nat.succ_pos _
  | coding2 h c lens len curr =>
      obtain ⟨hh, hc, hcount, hlens, hlen⟩ := hs
      exact returns_afterCoding2 hh hc hcount hlens hlen curr value
  | coding3 h c lens len curr =>
      obtain ⟨hh, hc, hcount, hlens, hlen⟩ := hs
      refine Returns.of_eq rfl ?_
      rw [afterCoding3]
      split
      · exact checkCurr_valid hh hc hcount hlens hlen _
      · exact checkCurr_valid hh hc hcount hlens hlen _
  | mtfBits h c tables place v g =>
      have hg : ValuesValid h c tables place v g := hs
      obtain ⟨length, hlength, htable⟩ := hg.group
      refine returns_afterBits hg hlength htable (Nat.le_refl _) ?_
      rw [first_eq_zero htable.minLen_le]
      exact Nat.zero_le _
  | mtfBit h c tables place v g zn zvec =>
      obtain ⟨hg, hzn, length, hlength, htable, hreached⟩ := hs
      exact returns_afterBits hg hlength htable hzn (Nat.le_trans hreached (Nat.le_add_right _ _))
  | endhdr d i =>
      refine Returns.of_eq rfl ?_
      rw [afterEndhdr]
      split
      · trivial
      · split
        · exact hs
        · trivial
  | ccrc i crc =>
      refine Returns.of_eq rfl ?_
      rw [afterCcrc]
      split
      · trivial
      · trivial

end Safety

/-! ## Whole runs -/

section Runs

variable {fresh : Fresh} {smallDecompress : Bool} {s : Reading}

/-- With all its space taken the code writes beyond it when it is told to write a selector. -/
theorem Full.after_zero (hs : s.Full) : after fresh smallDecompress s 0 = none := by
  cases s
  case selector3 h seqToUnseq nGroups nSelectors selectorMtf j =>
    have hfull : ¬selectorMtf.length < maxSelectors := Nat.not_lt.mpr (Nat.le_of_eq (Eq.symm hs))
    show afterSelector3 h seqToUnseq nGroups nSelectors selectorMtf j 0 = none
    rw [afterSelector3, if_pos rfl, push, if_neg hfull]
    rfl
  all_goals exact hs.elim

theorem Full.step_zero (hs : s.Full) :
    (machine fresh smallDecompress).step s 0 = .inr .outside := by
  show (after fresh smallDecompress s 0).getD (.inr .outside) = _
  rw [hs.after_zero]
  rfl

theorem Full.returns_after (hs : s.Full) (hvalid : s.Valid) {value : ℕ} (hne : value ≠ 0) :
    Returns (after fresh smallDecompress s value) Next.Valid := by
  cases s
  case selector3 h seqToUnseq nGroups nSelectors selectorMtf j =>
    obtain ⟨hh, hseq, hgroups, hj, hmore, hsize, hlt⟩ := hvalid
    show Returns (afterSelector3 h seqToUnseq nGroups nSelectors selectorMtf j value) _
    rw [afterSelector3, if_neg hne]
    split
    · exact Returns.pure trivial
    · rename_i hnext
      exact Returns.pure ⟨hh, hseq, hgroups, Nat.not_le.mp hnext, hmore, hsize, hlt⟩
  all_goals exact hs.elim

theorem Full.width_eq (hs : s.Full) : s.width = 1 := by
  cases s
  case selector3 => rfl
  all_goals exact hs.elim

theorem Valid.width_le (hs : s.Valid) : s.width ≤ 24 := by
  cases s
  case mtfBits g =>
    have hg : ValuesValid _ _ _ _ _ g := hs
    obtain ⟨length, -, htable⟩ := hg.group
    exact Nat.le_trans (htable.minLen_le _ htable.maxLen_mem)
      (Nat.le_trans (htable.le_twenty _ htable.maxLen_mem) (by decide))
  all_goals exact Nat.le_of_ble_eq_true rfl

variable (fresh smallDecompress) in
/-- A step from a state that is kept ends outside only with too many selectors. -/
theorem Valid.step_cases (hs : s.Valid) (value : ℕ) :
    (s.Full ∧ value = 0 ∧ (machine fresh smallDecompress).step s value = .inr .outside) ∨
      Next.Valid ((machine fresh smallDecompress).step s value) := by
  have hreturns (h : Returns (after fresh smallDecompress s value) Next.Valid) :
      Next.Valid ((machine fresh smallDecompress).step s value) := by
    obtain ⟨next, heq, hnext⟩ := h
    show ((after fresh smallDecompress s value).getD (.inr .outside)).Valid
    rw [heq]
    exact hnext
  by_cases hfull : s.Full
  · by_cases hzero : value = 0
    · exact .inl ⟨hfull, hzero, hzero ▸ hfull.step_zero⟩
    · exact .inr (hreturns (hfull.returns_after hs hzero))
  · exact .inr (hreturns (hs.returns_after hfull fresh smallDecompress value))

theorem Valid.step (value : ℕ) {s' : Reading} (hs : s.Valid)
    (hstep : (machine fresh smallDecompress).step s value = .inl s') : s'.Valid := by
  rcases hs.step_cases fresh smallDecompress value with
    ⟨-, -, houtside⟩ | hnext
  · rw [hstep] at houtside
    cases houtside
  · rw [hstep] at hnext
    exact hnext

/-- A run ends outside, or with what is known of a result. -/
theorem Valid.result_cases {bits left : List Bool} {result : Decoded} (hs : s.Valid)
    (h : (machine fresh smallDecompress).run s bits = (.inr result, left)) :
    result = .outside ∨ Next.Valid (.inr result) := by
  obtain ⟨-, s', value, -, hs', -, -, hstep⟩ :=
    BitMachine.exists_last_step (fun _ value _ hs => hs.step value) hs h
  rcases hs'.step_cases fresh smallDecompress (Bits.ofBits value) with ⟨-, -, houtside⟩ | hnext
  · rw [hstep] at houtside
    cases houtside
    exact .inl rfl
  · rw [hstep] at hnext
    exact .inr hnext

end Runs

end Reading

end StudyNotes.Bzip2
