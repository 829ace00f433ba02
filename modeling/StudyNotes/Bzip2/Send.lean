/-
# Sending a block

The parts of `sendMTFValues` that write: the mapping table, the selectors, the code lengths as
differences, and the values in groups of fifty.  Each part is shown with the bits that it
writes.
-/

import StudyNotes.Bzip2.BitStream
import StudyNotes.Bzip2.Huffman
import StudyNotes.Bzip2.MoveToFront

namespace StudyNotes.Bzip2

open StudyNotes.Checked StudyNotes.MoveToFront StudyNotes.Bits StudyNotes.CanonicalCode

namespace Writer

/-- `bsW(s,1,1)` or `bsW(s,1,0)`. -/
def bit (w : Writer) (b : Bool) : Writer := if b then w.bsW 1 1 else w.bsW 1 0

/-- `bsPutUChar`. -/
def putUChar (w : Writer) (c : UInt8) : Writer := w.bsW 8 c.toUInt32

/-- `bsPutUInt32`. -/
def putUInt32 (w : Writer) (u : UInt32) : Writer :=
  let w := w.bsW 8 ((u >>> 24) &&& 0xff)
  let w := w.bsW 8 ((u >>> 16) &&& 0xff)
  let w := w.bsW 8 ((u >>> 8) &&& 0xff)
  w.bsW 8 (u &&& 0xff)

variable {w : Writer} {bits : List Bool}

theorem Holds.bit (h : w.Holds bits) (b : Bool) : (w.bit b).Holds (bits ++ [b]) := by
  cases b with
  | true => exact h.bsW Nat.one_pos (by decide) (by decide)
  | false => exact h.bsW Nat.one_pos (by decide) (by decide)

/-- Bits one by one. -/
theorem Holds.foldl_bit (h : w.Holds bits) (bs : List Bool) :
    (bs.foldl Writer.bit w).Holds (bits ++ bs) := by
  induction bs generalizing w bits with
  | nil =>
      rw [List.append_nil]
      exact h
  | cons b bs ih =>
      have hrest := ih (h.bit b)
      rw [List.append_assoc] at hrest
      exact hrest

/-- Parts one after the other. -/
theorem Holds.foldl {α : Type} {put : Writer → α → Writer} {bitsOf : α → List Bool} {as : List α}
    (hput : ∀ a ∈ as, ∀ {w : Writer} {bits : List Bool}, w.Holds bits →
      (put w a).Holds (bits ++ bitsOf a))
    (h : w.Holds bits) : (as.foldl put w).Holds (bits ++ as.flatMap bitsOf) := by
  induction as generalizing w bits with
  | nil =>
      rw [List.flatMap_nil, List.append_nil]
      exact h
  | cons a as ih =>
      have hrest := ih (fun a ha => hput a (List.mem_cons_of_mem _ ha))
        (hput a List.mem_cons_self h)
      rw [List.append_assoc] at hrest
      exact hrest

theorem Holds.putUChar (h : w.Holds bits) (c : UInt8) :
    (w.putUChar c).Holds (bits ++ toBits 8 c.toNat) := by
  have hput := h.bsW (n := 8) (v := c.toUInt32) (by decide) (by decide) (by
    rw [UInt8.toNat_toUInt32]
    exact c.toNat_lt)
  rw [UInt8.toNat_toUInt32] at hput
  exact hput

theorem Holds.putUInt32 (h : w.Holds bits) (u : UInt32) :
    (w.putUInt32 u).Holds (bits ++ toBits 32 u.toNat) := by
  have hand : ∀ x : UInt32, (x &&& 0xff).toNat = x.toNat % 2 ^ 8 := fun x => by
    rw [UInt32.toNat_and]
    exact Nat.and_two_pow_sub_one_eq_mod _ 8
  have hbyte : ∀ (x : UInt32) {w : Writer} {bits : List Bool}, w.Holds bits →
      (w.bsW 8 (x &&& 0xff)).Holds (bits ++ toBits 8 x.toNat) := by
    intro x w bits h
    have hput := h.bsW (n := 8) (v := x &&& 0xff) (by decide) (by decide) (by
      rw [hand]
      exact Nat.mod_lt _ (by decide))
    rw [hand, toBits_mod] at hput
    exact hput
  have hshift24 : (u >>> 24).toNat = u.toNat / 2 ^ 24 := toNat_shiftRight u (show 24 < 32 by decide)
  have hshift16 : (u >>> 16).toNat = u.toNat / 2 ^ 16 := toNat_shiftRight u (show 16 < 32 by decide)
  have hshift8 : (u >>> 8).toNat = u.toNat / 2 ^ 8 := toNat_shiftRight u (show 8 < 32 by decide)
  have hall := hbyte u (hbyte (u >>> 8) (hbyte (u >>> 16) (hbyte (u >>> 24) h)))
  rw [hshift24, hshift16, hshift8] at hall
  have hsplit : toBits (8 + (8 + (8 + 8))) u.toNat =
      toBits 8 (u.toNat / 2 ^ 24) ++ (toBits 8 (u.toNat / 2 ^ 16) ++
        (toBits 8 (u.toNat / 2 ^ 8) ++ toBits 8 u.toNat)) := by
    rw [toBits_add, toBits_add, toBits_add]
  simp only [List.append_assoc] at hall
  rw [← hsplit] at hall
  exact hall

end Writer

/-! ## The mapping table -/

/-- `inUse16[i]`. -/
def inUsePart (inUse : List Bool) (i : ℕ) : Bool :=
  (List.range 16).any fun j => inUse[i * 16 + j]?.getD false

def sendMapping (w : Writer) (inUse : List Bool) : Writer :=
  let w := (List.range 16).foldl (fun w i => w.bit (inUsePart inUse i)) w
  (List.range 16).foldl (fun w i =>
    if inUsePart inUse i then
      (List.range 16).foldl (fun w j => w.bit (inUse[i * 16 + j]?.getD false)) w
    else w) w

/-- The bits of a part of the table. -/
def partBits (inUse : List Bool) (i : ℕ) : List Bool :=
  (List.range 16).map fun j => inUse[i * 16 + j]?.getD false

def mappingBits (inUse : List Bool) : List Bool :=
  (List.range 16).map (inUsePart inUse) ++
    (List.range 16).flatMap fun i => if inUsePart inUse i then partBits inUse i else []

/-! ## The selectors -/

/-- The block under "Compute MTF values for the selectors". -/
def selectorsToMtf (nGroups : ℕ) (selector : List ℕ) : Option (List ℕ) := do
  let (_, selectorMtf) ← selector.foldlM (fun (pos, selectorMtf) ll => do
    let (pos, j) ← seek ll pos 0 (← pos[0]?)
    return (pos, selectorMtf ++ [j])) (List.range nGroups, [])
  return selectorMtf

def sendSelectors (w : Writer) (nGroups : ℕ) (selectorMtf : List ℕ) : Writer :=
  let w := w.bsW 3 (.ofNat nGroups)
  let w := w.bsW 15 (.ofNat selectorMtf.length)
  selectorMtf.foldl (fun w j => ((List.range j).foldl (fun w _ => w.bit true) w).bit false) w

def selectorBits (nGroups : ℕ) (selectorMtf : List ℕ) : List Bool :=
  toBits 3 nGroups ++ (toBits 15 selectorMtf.length ++
    selectorMtf.flatMap fun j => List.replicate j true ++ [false])

/-! ## The code lengths -/

/-- The loops that count `curr` up or down to a length. -/
def sendDifference (w : Writer) (curr n : ℕ) : Writer :=
  let w := (List.range (n - curr)).foldl (fun w _ => w.bsW 2 2) w
  (List.range (curr - n)).foldl (fun w _ => w.bsW 2 3) w

/-- The loop over the lengths of a table. -/
def sendLength (w : Writer) (length : List ℕ) : Writer :=
  let curr := length[0]?.getD 0
  let w := w.bsW 5 (.ofNat curr)
  (length.foldl (fun (w, curr) n => ((sendDifference w curr n).bit false, n)) (w, curr)).1

/-- The bits of the steps from `curr` to `n`. -/
def differenceBits (curr n : ℕ) : List Bool :=
  (List.replicate (n - curr) [true, false]).flatten ++
    (List.replicate (curr - n) [true, true]).flatten

/-- The bits of the lengths after `curr`. -/
def lengthsBits (curr : ℕ) : List ℕ → List Bool
  | [] => []
  | n :: length => differenceBits curr n ++ false :: lengthsBits n length

def tableBits (length : List ℕ) : List Bool :=
  toBits 5 (length[0]?.getD 0) ++ lengthsBits (length[0]?.getD 0) length

/-! ## The values -/

/-- The lengths and the codes of a coding table. -/
structure CodeTable where
  len : List ℕ
  code : List ℕ

/-- A turn of the loop under "Assign actual codes for the tables".  The codes before do not matter:
every symbol gets one. -/
def assignCodes (len : List ℕ) : Option CodeTable := do
  let minLen := minLenOf len
  let maxLen := maxLenOf len
  guard (¬maxLen > 17)
  guard (¬minLen < 1)
  let code ← hbAssignCodes (List.replicate len.length 0) len minLen maxLen len.length
  return { len, code }

/-- `bsW` with the code of a value. -/
def sendValue (t : CodeTable) (w : Writer) (v : ℕ) : Option Writer := do
  return w.bsW (← t.len[v]?) (.ofNat (← t.code[v]?))

/-- The loop over the groups of values.  The last group may be short. -/
def sendValues (nGroups : ℕ) (tables : List CodeTable) (selector : List ℕ) (w : Writer)
    (mtfv : List ℕ) (selCtr : ℕ) : Option (Writer × ℕ) :=
  if mtfv = [] then some (w, selCtr)
  else do
    let t ← selector[selCtr]?
    guard (t < nGroups)
    let table ← tables[t]?
    let w ← (mtfv.take 50).foldlM (sendValue table) w
    sendValues nGroups tables selector w (mtfv.drop 50) (selCtr + 1)
termination_by mtfv.length
decreasing_by
  rename_i hne
  have hpos := List.length_pos_iff.mpr hne
  rw [List.length_drop]
  omega

/-- `sendMTFValues` once the tables and the selectors are chosen; there is no result where an
assertion fails. -/
def sendCoded (w : Writer) (inUse : List Bool) (lens : List (List ℕ)) (selector mtfv : List ℕ) :
    Option Writer := do
  let nGroups := lens.length
  guard (nGroups < 8)
  guard (selector.length < 32768 ∧ selector.length ≤ 2 + 900000 / 50)
  let selectorMtf ← selectorsToMtf nGroups selector
  let tables ← lens.mapM assignCodes
  let w := sendMapping w inUse
  let w := sendSelectors w nGroups selectorMtf
  let w := lens.foldl sendLength w
  let (w, selCtr) ← sendValues nGroups tables selector w mtfv 0
  guard (selCtr = selector.length)
  return w

/-- The bits of a value. -/
def valueBits (t : CodeTable) (v : ℕ) : List Bool :=
  toBits (t.len[v]?.getD 0) (t.code[v]?.getD 0)

/-- The bits of some values, each with the table that is given for its place. -/
def valuesBits (tableAt : ℕ → CodeTable) (k : ℕ) : List ℕ → List Bool
  | [] => []
  | v :: mtfv => valueBits (tableAt (k / 50)) v ++ valuesBits tableAt (k + 1) mtfv

/-! ## What is written -/

section Sent

variable {w : Writer} {bits : List Bool}

theorem Writer.Holds.sendMapping (h : w.Holds bits) (inUse : List Bool) :
    (sendMapping w inUse).Holds (bits ++ mappingBits inUse) := by
  have hfirst := h.foldl_bit ((List.range 16).map (inUsePart inUse))
  rw [List.foldl_map] at hfirst
  rw [mappingBits, ← List.append_assoc]
  refine hfirst.foldl fun i _ w bits h => ?_
  split
  · have hpart := h.foldl_bit (partBits inUse i)
    rw [partBits, List.foldl_map] at hpart
    exact hpart
  · rw [List.append_nil]
    exact h

theorem Writer.Holds.number (h : w.Holds bits) {n v : ℕ} (hpos : 0 < n) (hn : n ≤ 24)
    (hv : v < 2 ^ n) : (w.bsW n (.ofNat v)).Holds (bits ++ toBits n v) := by
  have hval : (UInt32.ofNat v).toNat = v := by
    refine UInt32.toNat_ofNat_of_lt' (Nat.lt_of_lt_of_le hv ?_)
    show 2 ^ n ≤ 2 ^ 32
    exact Nat.pow_le_pow_right (show 0 < 2 by decide) (by omega)
  have hput := h.bsW hpos hn (v := .ofNat v) (by rw [hval]; exact hv)
  rw [hval] at hput
  exact hput

theorem Writer.Holds.sendSelectors (h : w.Holds bits) {nGroups : ℕ} {selectorMtf : List ℕ}
    (hgroups : nGroups < 8) (hcount : selectorMtf.length < 2 ^ 15) :
    (sendSelectors w nGroups selectorMtf).Holds (bits ++ selectorBits nGroups selectorMtf) := by
  have hsize := h.number (n := 3) (v := nGroups) (by decide) (by decide) hgroups
  have hfirst := hsize.number (n := 15) (v := selectorMtf.length) (by decide) (by decide) hcount
  rw [selectorBits, ← List.append_assoc, ← List.append_assoc]
  refine hfirst.foldl fun j _ w bits h => ?_
  have hones := (h.foldl_bit (List.replicate j true)).bit false
  have hloop : (List.replicate j true).foldl Writer.bit w =
      (List.range j).foldl (fun w _ => w.bit true) w := by
    rw [← List.length_range (n := j), ← List.map_const', List.foldl_map, List.length_range]
  rw [hloop, List.append_assoc] at hones
  exact hones

theorem Writer.Holds.repeated (h : w.Holds bits) {v : UInt32} (hv : v.toNat < 2 ^ 2) (k : ℕ) :
    ((List.range k).foldl (fun w _ => w.bsW 2 v) w).Holds
      (bits ++ (List.replicate k (toBits 2 v.toNat)).flatten) := by
  have hall : ((List.range k).foldl (fun w _ => w.bsW 2 v) w).Holds
      (bits ++ (List.range k).flatMap fun _ => toBits 2 v.toNat) :=
    h.foldl fun _ _ w bits h => h.bsW (by decide) (by decide) hv
  rw [List.flatMap_def, List.map_const', List.length_range] at hall
  exact hall

theorem Writer.Holds.sendDifference (h : w.Holds bits) (curr n : ℕ) :
    (sendDifference w curr n).Holds (bits ++ differenceBits curr n) := by
  have hup := h.repeated (v := 2) (by decide) (n - curr)
  have hdown := hup.repeated (v := 3) (by decide) (curr - n)
  rw [List.append_assoc] at hdown
  exact hdown

theorem Writer.Holds.sendLength (h : w.Holds bits) {length : List ℕ}
    (hfirst : length[0]?.getD 0 < 2 ^ 5) :
    (sendLength w length).Holds (bits ++ tableBits length) := by
  have hrun : ∀ (length : List ℕ) {w : Writer} {bits : List Bool} (curr : ℕ), w.Holds bits →
      (length.foldl (fun (w, curr) n => ((Bzip2.sendDifference w curr n).bit false, n))
        (w, curr)).1.Holds (bits ++ lengthsBits curr length) := by
    intro length
    induction length with
    | nil =>
        intro w bits curr h
        rw [lengthsBits, List.append_nil]
        exact h
    | cons n length ih =>
        intro w bits curr h
        have hrest := ih n ((h.sendDifference curr n).bit false)
        rw [List.append_assoc, List.append_assoc] at hrest
        exact hrest
  have hall := hrun length (length[0]?.getD 0)
    (h.number (n := 5) (by decide) (by decide) hfirst)
  rw [List.append_assoc] at hall
  exact hall

/-! ## The words of the values -/

/-- The codes are the words of lengths that the encoder uses. -/
structure CodeTable.Valid (alphaSize : ℕ) (t : CodeTable) : Prop where
  length_len : t.len.length = alphaSize
  range : ∀ n ∈ t.len, 1 ≤ n ∧ n ≤ 17
  kraft : CanonicalCode.kraft 17 t.len ≤ 2 ^ 17
  assigned : Assigned t.len (fun _ _ => True) t.code

theorem returns_assignCodes {len : List ℕ} (hne : len ≠ []) (hrange : ∀ n ∈ len, 1 ≤ n ∧ n ≤ 17)
    (hkraft : CanonicalCode.kraft 17 len ≤ 2 ^ 17) :
    Returns (assignCodes len) fun t => t.len = len ∧ t.Valid len.length := by
  have hmem := maxLenOf_mem (fun n hn => (hrange n hn).1) hne
  have hmax := (hrange _ hmem).2
  have hmin : 1 ≤ minLenOf len := le_minLenOf (fun n hn => (hrange n hn).1) (by decide)
  refine Returns.bind (Returns.guard (Nat.not_lt.mpr hmax)) fun _ _ => ?_
  refine Returns.bind (Returns.guard (Nat.not_lt.mpr hmin)) fun _ _ => ?_
  refine Returns.bind (returns_hbAssignCodes List.length_replicate (fun n hn => minLenOf_le hn)
    (fun n hn => le_maxLenOf hn) (minLenOf_le hmem)) fun code hcode => ?_
  exact Returns.pure ⟨rfl, rfl, hrange, hkraft, hcode⟩

variable {t : CodeTable} {alphaSize v : ℕ}

theorem CodeTable.Valid.exists_word (ht : t.Valid alphaSize) (hv : v < alphaSize) :
    ∃ n, t.len[v]? = some n ∧ t.code[v]? = some (word t.len n v) ∧ 1 ≤ n ∧ n ≤ 17 ∧
      word t.len n v < 2 ^ n := by
  obtain ⟨n, hsymbol⟩ : ∃ n, t.len[v]? = some n :=
    ⟨_, List.getElem?_eq_getElem (by rw [ht.length_len]; exact hv)⟩
  obtain ⟨hpos, hle⟩ := ht.range n (List.mem_of_getElem? hsymbol)
  have hfits := first_add_count_le ht.kraft hle
  have hearlier := CountingOrder.earlier_lt_count hsymbol
  refine ⟨n, hsymbol, ht.assigned v n hsymbol trivial, hpos, hle, ?_⟩
  rw [word]
  omega

theorem Writer.Holds.returns_sendValue (h : w.Holds bits) (ht : t.Valid alphaSize)
    (hv : v < alphaSize) :
    Returns (sendValue t w v) fun w => w.Holds (bits ++ valueBits t v) := by
  obtain ⟨n, hlen, hcode, hpos, hle, hlt⟩ := ht.exists_word hv
  rw [sendValue, valueBits, hlen, hcode]
  exact Returns.pure (h.number hpos (by omega) hlt)

/-- The values of a group, from one of them on. -/
theorem Writer.Holds.returns_foldlM {tableAt : ℕ → CodeTable} {values : List ℕ} {k : ℕ}
    (h : w.Holds bits) (ht : (tableAt (k / 50)).Valid alphaSize) (hv : ∀ v ∈ values, v < alphaSize)
    (hgroup : k % 50 + values.length ≤ 50) :
    Returns (values.foldlM (sendValue (tableAt (k / 50))) w) fun w =>
      w.Holds (bits ++ valuesBits tableAt k values) := by
  induction values generalizing w bits k with
  | nil =>
      rw [valuesBits, List.append_nil]
      exact Returns.pure h
  | cons v values ih =>
      rw [List.length_cons] at hgroup
      rw [List.foldlM_cons]
      refine Returns.bind (h.returns_sendValue ht (hv v List.mem_cons_self)) fun w hw => ?_
      by_cases hmore : values = []
      · subst hmore
        rw [valuesBits, valuesBits, List.append_nil]
        exact Returns.pure hw
      · have hpos := List.length_pos_iff.mpr hmore
        have hdiv : (k + 1) / 50 = k / 50 := by omega
        have hrest := ih (k := k + 1) hw (by rw [hdiv]; exact ht)
          (fun u hu => hv u (List.mem_cons_of_mem _ hu)) (by omega)
        rw [hdiv, List.append_assoc] at hrest
        exact hrest

theorem valuesBits_append (tableAt : ℕ → CodeTable) (k : ℕ) (first second : List ℕ) :
    valuesBits tableAt k (first ++ second) =
      valuesBits tableAt k first ++ valuesBits tableAt (k + first.length) second := by
  induction first generalizing k with
  | nil => rfl
  | cons v first ih =>
      rw [List.cons_append, valuesBits, valuesBits, ih, List.append_assoc, List.length_cons,
        Nat.add_assoc, Nat.add_comm 1 first.length]

/-- Every group of the values has a table. -/
def Selected (nGroups : ℕ) (tables : List CodeTable) (selector : List ℕ) (tableAt : ℕ → CodeTable)
    (count : ℕ) : Prop :=
  ∀ i, 50 * i < count → ∃ t, selector[i]? = some t ∧ t < nGroups ∧ tables[t]? = some (tableAt i)

theorem Writer.Holds.returns_sendValues {nGroups : ℕ} {tables : List CodeTable}
    {selector mtfv : List ℕ} {tableAt : ℕ → CodeTable} {selCtr count : ℕ} (h : w.Holds bits)
    (hselected : Selected nGroups tables selector tableAt count)
    (hvalid : ∀ t ∈ tables, t.Valid alphaSize) (hv : ∀ v ∈ mtfv, v < alphaSize)
    (hcount : 50 * selCtr + mtfv.length = count) :
    Returns (sendValues nGroups tables selector w mtfv selCtr) fun (w, groups) =>
      w.Holds (bits ++ valuesBits tableAt (50 * selCtr) mtfv) ∧
        groups = selCtr + (mtfv.length + 49) / 50 := by
  induction hlength : mtfv.length using Nat.strongRecOn generalizing w bits mtfv selCtr with
  | ind size ih =>
      by_cases hnil : mtfv = []
      · subst hnil
        rw [sendValues, if_pos rfl, valuesBits, List.append_nil]
        refine Returns.of_eq rfl ⟨h, ?_⟩
        rw [← hlength]
        rfl
      · have hpos := List.length_pos_iff.mpr hnil
        obtain ⟨t, hselector, hlt, htable⟩ := hselected selCtr (by omega)
        have hdiv : 50 * selCtr / 50 = selCtr := Nat.mul_div_cancel_left selCtr (by decide)
        have ht : (tableAt (50 * selCtr / 50)).Valid alphaSize := by
          rw [hdiv]
          exact hvalid _ (List.mem_of_getElem? htable)
        have htake : (mtfv.take 50).length = min 50 mtfv.length := List.length_take
        have hgroup := h.returns_foldlM (k := 50 * selCtr) ht
          (fun v hmem => hv v (List.mem_of_mem_take hmem)) (by rw [htake, Nat.mul_mod_right]; omega)
        rw [hdiv] at hgroup
        rw [sendValues, if_neg hnil]
        refine Returns.bind (Returns.of_eq hselector rfl) ?_
        rintro _ rfl
        refine Returns.bind (Returns.guard hlt) fun _ _ => ?_
        refine Returns.bind (Returns.of_eq htable rfl) ?_
        rintro _ rfl
        refine Returns.bind hgroup fun w hw => ?_
        by_cases hmore : mtfv.length ≤ 50
        · rw [List.drop_of_length_le hmore, sendValues, if_pos rfl]
          rw [List.take_of_length_le hmore] at hw
          refine Returns.of_eq rfl ⟨hw, ?_⟩
          omega
        · have hdrop : (mtfv.drop 50).length = size - 50 := by rw [List.length_drop, hlength]
          have hrest := @ih (size - 50) (by omega) _ _ (mtfv.drop 50) (selCtr + 1) hw
            (fun v hmem => hv v (List.mem_of_mem_drop hmem)) (by omega) hdrop
          refine hrest.mono ?_
          rintro ⟨w, groups⟩ ⟨hw, hgroups⟩
          have hsplit := valuesBits_append tableAt (50 * selCtr) (mtfv.take 50) (mtfv.drop 50)
          rw [List.take_append_drop, htake, Nat.min_eq_left (by omega)] at hsplit
          rw [List.append_assoc] at hw
          refine ⟨?_, ?_⟩
          · rw [hsplit]
            exact hw
          · rw [hgroups]
            omega

/-! ## A whole block -/

/-- The selectors are sent as their places in the list of the tables. -/
theorem returns_selectorsToMtf {nGroups : ℕ} {selector : List ℕ}
    (hselector : ∀ t ∈ selector, t < nGroups) :
    selectorsToMtf nGroups selector = some (places (List.range nGroups) selector) := by
  have hrun : ∀ (selector pos before : List ℕ), (∀ t ∈ selector, t ∈ pos) →
      ∃ last, selector.foldlM (fun (pos, selectorMtf) ll => do
        let (pos, j) ← seek ll pos 0 (← pos[0]?)
        return (pos, selectorMtf ++ [j])) (pos, before) =
          some (last, before ++ places pos selector) := by
    intro selector
    induction selector with
    | nil => exact fun pos before _ => ⟨pos, by rw [places, List.append_nil]; rfl⟩
    | cons t selector ih =>
        intro pos before hmem
        have ht := hmem t List.mem_cons_self
        have hlt := List.idxOf_lt_length_of_mem ht
        have hpos : pos[0]? = some pos[0] := List.getElem?_eq_getElem (by omega)
        have hseek := seek_eq (Eq.refl pos.length) (Nat.zero_le _) (getElem?_idxOf ht)
          (fun _ => getElem?_ne_of_lt_idxOf) hpos (fun k hk => by rw [if_neg (by omega)])
        obtain ⟨last, hlast⟩ := ih (toFront pos (pos.idxOf t)) (before ++ [pos.idxOf t])
          fun u hu => (toFront_perm hlt).mem_iff.mpr (hmem u (List.mem_cons_of_mem _ hu))
        refine ⟨last, ?_⟩
        rw [List.foldlM_cons]
        dsimp only
        rw [hpos]
        dsimp only [Option.bind_eq_bind, Option.bind_some]
        rw [hseek, places]
        rw [List.append_assoc] at hlast
        exact hlast
  obtain ⟨last, hlast⟩ := hrun selector (List.range nGroups) [] fun t ht =>
    List.mem_range.mpr (hselector t ht)
  rw [selectorsToMtf, hlast]
  rfl

/-- The tables and the selectors that were chosen for some values. -/
structure Chosen (alphaSize : ℕ) (lens : List (List ℕ)) (selector mtfv : List ℕ) : Prop where
  groups : 2 ≤ lens.length ∧ lens.length ≤ 6
  length_len : ∀ len ∈ lens, len.length = alphaSize
  range : ∀ len ∈ lens, ∀ n ∈ len, 1 ≤ n ∧ n ≤ 17
  kraft : ∀ len ∈ lens, CanonicalCode.kraft 17 len ≤ 2 ^ 17
  selector_lt : ∀ t ∈ selector, t < lens.length
  count : selector.length = (mtfv.length + 49) / 50

/-- The table with which the values of a group are written. -/
def tableOf (tables : List CodeTable) (selector : List ℕ) (i : ℕ) : CodeTable :=
  (do tables[← selector[i]?]?).getD ⟨[], []⟩

/-- The bits of a block after its header. -/
def codedBits (inUse : List Bool) (lens : List (List ℕ)) (selector mtfv : List ℕ)
    (tableAt : ℕ → CodeTable) : List Bool :=
  mappingBits inUse ++ (selectorBits lens.length (places (List.range lens.length) selector) ++
    (lens.flatMap tableBits ++ valuesBits tableAt 0 mtfv))

theorem Writer.Holds.returns_sendCoded {inUse : List Bool} {lens : List (List ℕ)}
    {selector mtfv : List ℕ} (h : w.Holds bits) (hchosen : Chosen alphaSize lens selector mtfv)
    (halpha : 0 < alphaSize) (hsize : mtfv.length ≤ 900050) (hv : ∀ v ∈ mtfv, v < alphaSize) :
    Returns (sendCoded w inUse lens selector mtfv) fun w => ∃ tableAt,
      w.Holds (bits ++ codedBits inUse lens selector mtfv tableAt) ∧
        ∀ (i t : ℕ) (len : List ℕ), selector[i]? = some t → lens[t]? = some len →
          (tableAt i).len = len ∧ (tableAt i).Valid alphaSize := by
  have hcount := hchosen.count
  have hfewer : lens.length < 8 := Nat.lt_of_le_of_lt hchosen.groups.2 (by decide)
  refine Returns.bind (Returns.guard hfewer) fun _ _ => ?_
  refine Returns.bind (Returns.guard (by omega)) fun _ _ => ?_
  refine Returns.bind (Returns.of_eq (returns_selectorsToMtf hchosen.selector_lt) rfl) ?_
  rintro _ rfl
  have hassign : ∀ len ∈ lens, Returns (assignCodes len) fun t =>
      t.len = len ∧ t.Valid alphaSize := by
    intro len hlen
    have hlength := hchosen.length_len len hlen
    have ht := returns_assignCodes (fun hnil => ?_) (hchosen.range len hlen)
      (hchosen.kraft len hlen)
    · rw [hlength] at ht
      exact ht
    · rw [hnil, List.length_nil] at hlength
      omega
  refine Returns.bind (Returns.mapM hassign) fun tables htables => ?_
  have htable : ∀ (i t : ℕ) (len : List ℕ), selector[i]? = some t → lens[t]? = some len →
      tables[t]? = some (tableOf tables selector i) ∧
        (tableOf tables selector i).len = len ∧ (tableOf tables selector i).Valid alphaSize := by
    intro i t len hi ht
    obtain ⟨hlt, rfl⟩ := List.getElem?_eq_some_iff.mp ht
    have hlt' : t < tables.length := by rw [← htables.length_eq]; exact hlt
    have hget : tables[t]? = some tables[t] := List.getElem?_eq_getElem hlt'
    rw [tableOf, hi, Option.bind_eq_bind, Option.bind_some, hget, Option.getD_some]
    exact ⟨rfl, htables.get hlt hlt'⟩
  have hselected : Selected lens.length tables selector (tableOf tables selector) mtfv.length := by
    intro i hi
    have hlt : i < selector.length := by omega
    have hmem := hchosen.selector_lt _ (List.getElem_mem hlt)
    have hget : selector[i]? = some selector[i] := List.getElem?_eq_getElem hlt
    exact ⟨_, hget, hmem, (htable i _ _ hget (List.getElem?_eq_getElem hmem)).1⟩
  have hvalid : ∀ t ∈ tables, t.Valid alphaSize := by
    intro t ht
    obtain ⟨k, hk, rfl⟩ := List.mem_iff_getElem.mp ht
    exact (htables.get (by rw [htables.length_eq]; exact hk) hk).2
  have hmapped := h.sendMapping inUse
  have hgroups : lens.length < 8 := Nat.lt_of_le_of_lt hchosen.groups.2 (by decide)
  have hplaces : (places (List.range lens.length) selector).length < 2 ^ 15 := by
    rw [length_places, hcount]
    omega
  have hselectors := hmapped.sendSelectors hgroups hplaces
  have hlengths : (lens.foldl Bzip2.sendLength _).Holds (_ ++ lens.flatMap tableBits) :=
    hselectors.foldl fun len hlen _ _ h => by
      refine h.sendLength ?_
      cases len with
      | nil => exact Nat.two_pow_pos 5
      | cons n len =>
          have hn := (hchosen.range _ hlen n List.mem_cons_self).2
          show n < 2 ^ 5
          omega
  refine Returns.bind (hlengths.returns_sendValues hselected hvalid hv
    (show 50 * 0 + mtfv.length = mtfv.length by rw [Nat.mul_zero, Nat.zero_add])) ?_
  rintro ⟨w, selCtr⟩ ⟨hw, hselCtr⟩
  refine Returns.bind (Returns.guard (by rw [hselCtr, hcount, Nat.zero_add])) fun _ _ => ?_
  refine Returns.pure ⟨tableOf tables selector, ?_, fun i t len hi ht => (htable i t len hi ht).2⟩
  simp only [List.append_assoc] at hw
  exact hw

end Sent

end StudyNotes.Bzip2
