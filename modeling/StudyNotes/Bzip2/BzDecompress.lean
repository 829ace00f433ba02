/-
# Calls of `BZ2_bzDecompress`

The loop around the decoder: a block that was read is written as far as there is space, its
checksum is compared, and the next header is read, until the input or the space is used up or
the stream ends.  However a caller divides the input and the space over its calls, the stream
comes to the same end, and it stays inside its arrays but for the one exception of the decoder.
-/

import StudyNotes.Bzip2.DecompressSafety

namespace StudyNotes.Bzip2

open StudyNotes.Bits (ofBytes)

/-! ## The loop -/

/-- `unRLE_obuf_to_output_SMALL` or `unRLE_obuf_to_output_FAST`. -/
def Block.unRLE (smallDecompress : Bool) (b : Block) (s : Output Fetch) : Option (Expanded Fetch) :=
  if smallDecompress then Output.expand b.get b.saveNblock s
  else if b.blockRandomised then Output.expand b.get b.saveNblock s
  else Output.expandFast b.get b.saveNblock .run s

/-- `calculatedCombinedCRC` after a block, and `combinedCRC`. -/
def combineCRC (combinedCRC blockCRC : UInt32) : UInt32 :=
  (combinedCRC <<< 1 ||| combinedCRC >>> 31) ^^^ blockCRC

/-- What a call returns after which there is no other: a result of the decoder, or one of the two
that it must not have, the `True` of `BZ_GET_FAST` and an access outside an array. -/
inductive Verdict where
  | streamEnd
  | dataErrorMagic
  | dataError
  | returnsTrue
  | outside
  deriving DecidableEq

/-- The `state` of a stream: a label of the decoder, `BZ_X_OUTPUT`, or the end of its calls. -/
inductive Standing where
  | reading (s : Reading)
  | output (b : Block) (o : Output Fetch) (d : Stream)
  | ended (v : Verdict)

namespace Standing

def isReading : Standing → Bool
  | reading _ => true
  | _ => false

def isOutput : Standing → Bool
  | output .. => true
  | _ => false

end Standing

/-- Where the decoder leads to.  The end of the stream comes with a checksum of all blocks. -/
def Decoded.standing (calculatedCombinedCRC : UInt32) : Decoded → Standing
  | .output b o d => .output b o d
  | .streamEnd storedCombinedCRC =>
      .ended (if calculatedCombinedCRC ≠ storedCombinedCRC then .dataError else .streamEnd)
  | .dataErrorMagic => .ended .dataErrorMagic
  | .dataError => .ended .dataError
  | .returnsTrue => .ended .returnsTrue
  | .outside => .ended .outside

/-- A stream without its input, and all the bytes that calls have written. -/
structure Unpacking where
  standing : Standing
  calculatedCombinedCRC : UInt32
  out : List UInt8

/-- The part of the loop under `BZ_X_OUTPUT`, with the space that is left. -/
def Unpacking.write (smallDecompress : Bool) (u : Unpacking) (b : Block) (o : Output Fetch)
    (d : Stream) (availOut : ℕ) : Unpacking × ℕ :=
  match b.unRLE smallDecompress { o with out := u.out, availOut } with
  | none => ({ u with standing := .ended .outside }, availOut)
  -- The fast version does not save `avail_out` here, which is not used after it.
  | some (.corrupt o) => ({ u with standing := .ended .dataError, out := o.out }, o.availOut)
  | some (.intact o) =>
      if o.nblockUsed = b.saveNblock + 1 ∧ o.stateOutLen = 0 then
        let calculatedBlockCRC := finaliseCRC o.calculatedBlockCRC
        if calculatedBlockCRC ≠ b.storedBlockCRC then
          ({ u with standing := .ended .dataError, out := o.out }, o.availOut)
        else
          ({ standing := .reading (.blkhdr1 d)
             calculatedCombinedCRC := combineCRC u.calculatedCombinedCRC calculatedBlockCRC
             out := o.out }, o.availOut)
      else ({ u with standing := .output b o d, out := o.out }, o.availOut)

/-- What is kept of a stream from block to block: the checksum so far and the bytes. -/
abbrev Kept := UInt32 × List UInt8

/-! ## A block is written -/

namespace Output

variable {f : ℕ → UInt8} {nblock : ℕ}

theorem runAt_le (used : ℕ) : (runAt f nblock used).1 ≤ 259 := by
  unfold runAt longAt
  split
  · exact Nat.le_of_ble_eq_true rfl
  · split
    · exact Nat.le_of_ble_eq_true rfl
    · split
      · exact Nat.le_of_ble_eq_true rfl
      · exact Nat.add_le_add_right (Nat.le_of_lt_succ (UInt8.toNat_lt _)) 4

theorem length_rest_le (used : ℕ) : (rest f nblock used).1.length ≤ 259 * (nblock + 1 - used) := by
  fun_induction rest f nblock used with
  | case1 used hle ih =>
      have hlt := lt_runAt f nblock used
      have hrun : (runAt f nblock used).1 ≤ 259 := runAt_le used
      rw [List.length_append, List.length_replicate]
      omega
  | case2 used hle => exact Nat.zero_le _

/-- Nothing is left to be written of a block that is not corrupt exactly when the loop over its
bytes has come to their end. -/
theorem done_iff {τ : Type} {o : Output τ} :
    o.nblockUsed = nblock + 1 ∧ o.stateOutLen = 0 ↔
      pending f nblock o = [] ∧ (rest f nblock o.nblockUsed).2 = false := by
  constructor
  · rintro ⟨hused, hlen⟩
    rw [pending_of_zero hlen, hused, rest_of_lt (Nat.lt_succ_self _)]
    exact ⟨rfl, decide_eq_false (Nat.lt_irrefl _)⟩
  · rintro ⟨hpending, hrest⟩
    obtain ⟨hlen, hnil⟩ := List.append_eq_nil_iff.mp hpending
    have hused : nblock < o.nblockUsed := by
      by_contra hle
      rw [rest_of_le (Nat.not_lt.mp hle), List.append_eq_nil_iff, List.replicate_eq_nil_iff] at hnil
      exact absurd hnil.1 (Nat.ne_of_gt (pos_runAt _))
    rw [rest_of_lt hused] at hrest
    have hnot := of_decide_eq_false hrest
    exact ⟨by omega, (List.replicate_eq_nil_iff _).mp hlen⟩

end Output

open Output

variable {b : Block} {o : Output Fetch} {d : Stream} {f : ℕ → UInt8}

theorem Block.unRLE_ends (smallDecompress : Bool) (h : o.At b.get f b.saveNblock) :
    ∃ r, b.unRLE smallDecompress o = some r ∧
      Ends b.get f b.saveNblock o
        (pending f b.saveNblock o, (rest f b.saveNblock o.nblockUsed).2) r := by
  rw [Block.unRLE]
  split
  · exact expand_ends h
  · split
    · exact expand_ends h
    · exact expandFast_ends h

namespace Unpacking

/-- After the whole text of a block, with the checksum of it. -/
def finish (u : Unpacking) (b : Block) (d : Stream) (text : List UInt8) (corrupt : Bool)
    (crc : UInt32) : Unpacking :=
  if corrupt = true ∨ finaliseCRC crc ≠ b.storedBlockCRC then
    { u with standing := .ended .dataError, out := u.out ++ text }
  else
    { standing := .reading (.blkhdr1 d)
      calculatedCombinedCRC := combineCRC u.calculatedCombinedCRC (finaliseCRC crc)
      out := u.out ++ text }

variable {u : Unpacking} {availOut : ℕ} {text : List UInt8} {corrupt : Bool}

/-- Either the whole text of a block is written, or as much of it as there is space for. -/
theorem write_cases (smallDecompress : Bool) (u : Unpacking) (d : Stream) (availOut : ℕ)
    (h : o.At b.get f b.saveNblock) (htext : pending f b.saveNblock o = text)
    (hcorrupt : (rest f b.saveNblock o.nblockUsed).2 = corrupt) :
    (text.length ≤ availOut ∧ u.write smallDecompress b o d availOut =
      (u.finish b d text corrupt (text.foldl updateCRC o.calculatedBlockCRC),
        availOut - text.length)) ∨
    (availOut ≤ text.length ∧ (text.length = availOut → corrupt = true) ∧
      ∃ o' : Output Fetch, o'.At b.get f b.saveNblock ∧
        u.write smallDecompress b o d availOut =
          ({ u with standing := .output b o' d, out := u.out ++ text.take availOut }, 0) ∧
        pending f b.saveNblock o' = text.drop availOut ∧
        (rest f b.saveNblock o'.nblockUsed).2 = corrupt ∧
        o'.calculatedBlockCRC = (text.take availOut).foldl updateCRC o.calculatedBlockCRC) := by
  have hat : At b.get f b.saveNblock { o with out := u.out, availOut } := ⟨h.k0, h.source⟩
  obtain ⟨r, hr, hends⟩ := b.unRLE_ends smallDecompress hat
  have hpending : pending f b.saveNblock { o with out := u.out, availOut } = text := htext
  rw [hpending] at hends
  change Ends _ _ _ _ (text, (rest f b.saveNblock o.nblockUsed).2) r at hends
  rw [hcorrupt] at hends
  rw [write, hr]
  cases hends with
  | @corrupt o' wrote is_corrupt =>
      have havail : availOut = o'.availOut + text.length := wrote.availOut
      refine .inl ⟨by omega, ?_⟩
      have hout : o'.out = u.out ++ text := wrote.out
      dsimp only at is_corrupt ⊢
      rw [finish, if_pos (Or.inl is_corrupt), hout,
        show o'.availOut = availOut - text.length by omega]
  | @intact o' at_ wrote pending_eq corrupt_eq stops =>
      dsimp only at wrote pending_eq corrupt_eq stops ⊢
      have hout : o'.out = u.out ++ text.take availOut := wrote.out
      have hcrc : o'.calculatedBlockCRC =
        (text.take availOut).foldl updateCRC o.calculatedBlockCRC := wrote.crc
      have havail : availOut = o'.availOut + (text.take availOut).length := wrote.availOut
      by_cases hdone : o'.nblockUsed = b.saveNblock + 1 ∧ o'.stateOutLen = 0
      · obtain ⟨hnil, hfalse⟩ := (done_iff (f := f)).mp hdone
        rw [pending_eq, List.drop_eq_nil_iff] at hnil
        rw [corrupt_eq] at hfalse
        rw [List.take_of_length_le hnil] at hout hcrc havail
        refine .inl ⟨hnil, ?_⟩
        rw [if_pos hdone, hcrc, hout, show o'.availOut = availOut - text.length by omega, finish]
        split
        · rename_i hne
          rw [if_pos (Or.inr hne)]
        · rename_i heq
          rw [if_neg]
          rintro (htrue | hne)
          · rw [hfalse] at htrue
            cases htrue
          · exact heq hne
      · have hnot : ¬(text.length ≤ availOut ∧ corrupt = false) := fun hboth =>
          hdone ((done_iff (f := f)).mpr
            ⟨pending_eq.trans (List.drop_eq_nil_iff.mpr hboth.1), corrupt_eq.trans hboth.2⟩)
        have hfull : o'.availOut = 0 := by
          rcases stops with hzero | hfalse
          · exact hzero
          · have hless : availOut < text.length := Nat.lt_of_not_le fun hle => hnot ⟨hle, hfalse⟩
            rw [List.length_take_of_le (Nat.le_of_lt hless)] at havail
            omega
        have hle : availOut ≤ text.length := by
          rw [havail, hfull, Nat.zero_add]
          exact List.length_take_le' _ _
        refine .inr ⟨hle, fun hlength => ?_, o', at_, ?_, pending_eq, corrupt_eq, hcrc⟩
        · exact Bool.eq_true_of_not_eq_false fun hfalse => hnot ⟨Nat.le_of_eq hlength, hfalse⟩
        · rw [if_neg hdone, hout, hfull]

/-! ## What a stream comes to -/

/-- Where the decoder goes on, or how the calls end. -/
def next (u : Unpacking) : (Kept × Reading) ⊕ (Kept × Verdict) :=
  match u.standing with
  | .reading label => .inl ((u.calculatedCombinedCRC, u.out), label)
  | .ended v => .inr ((u.calculatedCombinedCRC, u.out), v)
  -- It is asked for only where a block has been written.
  | .output .. => .inr ((u.calculatedCombinedCRC, u.out), .outside)

theorem standing_of_next {k : Kept} {v : Verdict} (h : u.next = .inr (k, v))
    (houtput : u.standing.isOutput = false) : u.standing = .ended v := by
  obtain ⟨standing, crc, out⟩ := u
  cases standing with
  | reading label => cases h
  | output b o d => cases houtput
  | ended v' =>
      cases h
      rfl

theorem eq_of_next_eq {u' : Unpacking} (h : u.next = u'.next)
    (houtput : u.standing.isOutput = false) (houtput' : u'.standing.isOutput = false) : u = u' := by
  obtain ⟨standing, crc, out⟩ := u
  obtain ⟨standing', crc', out'⟩ := u'
  cases standing with
  | reading label =>
      cases standing' with
      | reading label' =>
          cases h
          rfl
      | output b o d => cases houtput'
      | ended v => cases h
  | output b o d => cases houtput
  | ended v =>
      cases standing' with
      | reading label => cases h
      | output b o d => cases houtput'
      | ended v' =>
          cases h
          rfl

/-- More than the bytes that a block can still stand for. -/
def room (b : Block) (o : Output Fetch) : ℕ := o.stateOutLen + 259 * (b.saveNblock + 1) + 1

/-- Where the decoder goes on with enough space for the block that is being written. -/
def settled (smallDecompress : Bool) (u : Unpacking) : (Kept × Reading) ⊕ (Kept × Verdict) :=
  match u.standing with
  | .output b o d => (u.write smallDecompress b o d (room b o)).1.next
  | _ => u.next

theorem length_pending_lt (f : ℕ → UInt8) (b : Block) (o : Output Fetch) :
    (pending f b.saveNblock o).length < room b o := by
  have hrest : (rest f b.saveNblock o.nblockUsed).1.length ≤ _ := length_rest_le o.nblockUsed
  rw [pending, List.length_append, List.length_replicate, room]
  omega

theorem settled_output (smallDecompress : Bool) (u : Unpacking) (d : Stream)
    (h : o.At b.get f b.saveNblock) :
    settled smallDecompress { u with standing := .output b o d } =
      (u.finish b d (pending f b.saveNblock o) (rest f b.saveNblock o.nblockUsed).2
        ((pending f b.saveNblock o).foldl updateCRC o.calculatedBlockCRC)).next := by
  have hless := length_pending_lt f b o
  rcases write_cases smallDecompress { u with standing := .output b o d } d (room b o) h rfl rfl
    with ⟨-, hwrite⟩ | ⟨hle, -⟩
  · show (Unpacking.write smallDecompress _ b o d (room b o)).1.next = _
    rw [hwrite]
    rfl
  · exact absurd hless (Nat.not_lt.mpr hle)

/-- A block that is written in parts comes to the same end. -/
theorem settled_write (smallDecompress : Bool) (u : Unpacking) (d : Stream) (availOut : ℕ)
    (h : o.At b.get f b.saveNblock) :
    settled smallDecompress (u.write smallDecompress b o d availOut).1 =
      settled smallDecompress { u with standing := .output b o d } := by
  rw [settled_output smallDecompress u d h]
  rcases write_cases smallDecompress u d availOut h rfl rfl with
    ⟨-, hwrite⟩ | ⟨-, -, o', hat, hwrite, hpending, hcorrupt, hcrc⟩
  · rw [hwrite, finish]
    split
    · rfl
    · rfl
  · have hlast := settled_output smallDecompress
      { u with out := u.out ++ (pending f b.saveNblock o).take availOut } d hat
    rw [hpending, hcorrupt, hcrc, ← List.foldl_append, List.take_append_drop, finish] at hlast
    dsimp only at hlast
    rw [List.append_assoc, List.take_append_drop] at hlast
    rw [hwrite, finish]
    exact hlast

end Unpacking

/-- A stream between two calls or in one, with `avail_out`. -/
structure DState extends Unpacking where
  reader : Reader
  availOut : ℕ

namespace DState

/-- As `BZ2_bzDecompressInit` leaves it. -/
def init : DState := ⟨⟨.reading .magic1, 0, []⟩, .init, 0⟩

section Code

variable (fresh : Reading.Fresh) (smallDecompress : Bool)

/-- One part of a turn of the loop, which the loop goes on after or the call returns after. -/
def turn (s : DState) : DState ⊕ DState :=
  match s.standing with
  | .reading label =>
      match decode (Reading.machine fresh smallDecompress) label s.reader with
      | (.inl label, reader) => .inr { s with standing := .reading label, reader }
      | (.inr result, reader) =>
          let standing := result.standing s.calculatedCombinedCRC
          if standing.isOutput then .inl { s with standing, reader }
          else .inr { s with standing, reader }
  | .output b o d =>
      let written := s.toUnpacking.write smallDecompress b o d s.availOut
      if written.1.standing.isReading then
        .inl { s with toUnpacking := written.1, availOut := written.2 }
      else .inr { s with toUnpacking := written.1, availOut := written.2 }
  | .ended _ => .inr s

/-- The turns that are left at most. -/
def turns (s : DState) : ℕ :=
  2 * (s.reader.bsLive + 8 * s.reader.nextIn.length) + if s.standing.isOutput then 1 else 0

end Code

variable {fresh : Reading.Fresh} {smallDecompress : Bool} {s t : DState}

section Turn

variable {label label' : Reading} {result : Decoded} {crc : UInt32} {out : List UInt8}
  {r r' : Reader} {availOut : ℕ}

theorem turn_of_waits
    (h : decode (Reading.machine fresh smallDecompress) label r = (.inl label', r')) :
    turn fresh smallDecompress ⟨⟨.reading label, crc, out⟩, r, availOut⟩ =
      .inr ⟨⟨.reading label', crc, out⟩, r', availOut⟩ := by
  rw [turn]
  dsimp only
  rw [h]

theorem turn_of_result
    (h : decode (Reading.machine fresh smallDecompress) label r = (.inr result, r')) :
    turn fresh smallDecompress ⟨⟨.reading label, crc, out⟩, r, availOut⟩ =
      if (result.standing crc).isOutput then .inl ⟨⟨result.standing crc, crc, out⟩, r', availOut⟩
      else .inr ⟨⟨result.standing crc, crc, out⟩, r', availOut⟩ := by
  rw [turn]
  dsimp only
  rw [h]

theorem turn_of_output {written : Unpacking} {left : ℕ}
    (h : Unpacking.write smallDecompress ⟨.output b o d, crc, out⟩ b o d availOut =
      (written, left)) :
    turn fresh smallDecompress ⟨⟨.output b o d, crc, out⟩, r, availOut⟩ =
      if written.standing.isReading then .inl ⟨written, r, left⟩ else .inr ⟨written, r, left⟩ := by
  rw [turn]
  dsimp only
  rw [h]

end Turn

theorem turns_turn (h : turn fresh smallDecompress s = .inl t) : turns t < turns s := by
  obtain ⟨⟨standing, crc, out⟩, r, availOut⟩ := s
  cases standing with
  | reading label =>
      cases hdecode : decode (Reading.machine fresh smallDecompress) label r with | mk next r' =>
      obtain label' | result := next
      · rw [turn_of_waits hdecode] at h
        cases h
      · have hcount := count_decode hdecode
        rw [turn_of_result hdecode] at h
        split at h
        · rename_i houtput
          cases h
          rw [turns, turns, if_pos houtput]
          dsimp only
          omega
        · cases h
  | output b o d =>
      cases hwrite : Unpacking.write smallDecompress ⟨.output b o d, crc, out⟩ b o d availOut with
      | mk written left =>
      rw [turn_of_output hwrite] at h
      split at h
      · rename_i hreading
        obtain ⟨standing, crc', out'⟩ := written
        cases standing with
        | reading label =>
            cases h
            exact Nat.lt_succ_self _
        | output b o d => cases hreading
        | ended v => cases hreading
      · cases h
  | ended v => cases h

section Code

variable (fresh smallDecompress)

/-- `BZ2_bzDecompress`. -/
def bzDecompress (s : DState) : DState :=
  match _h : turn fresh smallDecompress s with
  | .inl s => bzDecompress s
  | .inr s => s
termination_by turns s
decreasing_by exact turns_turn _h

/-- A call with more bytes after those that are left, and with this space. -/
def feed (s : DState) (call : List UInt8 × ℕ) : DState :=
  bzDecompress fresh smallDecompress
    { s with reader := { s.reader with nextIn := s.reader.nextIn ++ call.1 }, availOut := call.2 }

/-- After some calls.  A caller stops where the end of the calls has come, and the bytes that it
would have given are left. -/
def afterCalls (calls : List (List UInt8 × ℕ)) : DState :=
  calls.foldl (feed fresh smallDecompress) init

end Code

theorem bzDecompress_of_inl (h : turn fresh smallDecompress s = .inl t) :
    bzDecompress fresh smallDecompress s = bzDecompress fresh smallDecompress t := by
  rw [bzDecompress]
  split
  · rename_i h'
    rw [h] at h'
    cases h'
    rfl
  · rename_i h'
    rw [h] at h'
    cases h'

theorem bzDecompress_of_inr (h : turn fresh smallDecompress s = .inr t) :
    bzDecompress fresh smallDecompress s = t := by
  rw [bzDecompress]
  split
  · rename_i h'
    rw [h] at h'
    cases h'
  · rename_i h'
    rw [h] at h'
    cases h'
    rfl

/-- A call goes by its first turn. -/
theorem bzDecompress_of_turn_eq
    (h : turn fresh smallDecompress s = turn fresh smallDecompress t) :
    bzDecompress fresh smallDecompress s = bzDecompress fresh smallDecompress t := by
  cases hturn : turn fresh smallDecompress t with
  | inl u => rw [bzDecompress_of_inl hturn, bzDecompress_of_inl (h.trans hturn)]
  | inr u => rw [bzDecompress_of_inr hturn, bzDecompress_of_inr (h.trans hturn)]

/-- The stream is at its end, and this text was written. -/
def StreamEnds (text : List UInt8) (s : DState) : Prop :=
  s.standing = .ended .streamEnd ∧ s.out = text

/-! ## One run over all bits -/

variable (fresh smallDecompress) in
/-- The decoder, started again after every block with the checksum and the bytes so far. -/
def machine : BitMachine (Kept × Reading) (Kept × Verdict) :=
  (Reading.machine fresh smallDecompress).restart fun k result =>
    Unpacking.settled smallDecompress ⟨result.standing k.1, k.1, k.2⟩

variable (fresh smallDecompress) in
/-- What is come to, with enough space, and the bits that are left. -/
def comesTo (s : DState) : ((Kept × Reading) ⊕ (Kept × Verdict)) × List Bool :=
  (machine fresh smallDecompress).resume
    (s.toUnpacking.settled smallDecompress, s.reader.bits) []

end DState

def Standing.Valid : Standing → Prop
  | reading label => label.Valid
  | output b o d => d.Valid ∧ ∃ f, o.At b.get f b.saveNblock
  | ended _ => True

theorem Decoded.standing_valid {result : Decoded}
    (h : result = .outside ∨ Reading.Next.Valid (.inr result)) (crc : UInt32) :
    (result.standing crc).Valid := by
  rcases h with rfl | h
  · exact trivial
  · cases result with
    | output b o d =>
        obtain ⟨hd, -, f, hbegins⟩ := h
        exact ⟨hd, f, hbegins.k0, hbegins.source⟩
    | streamEnd storedCombinedCRC => exact trivial
    | dataErrorMagic => exact trivial
    | dataError => exact trivial
    | returnsTrue => exact h.elim
    | outside => exact h.elim

namespace DState

structure Valid (s : DState) : Prop where
  live : s.reader.bsLive < 32
  standing : s.standing.Valid

/-- The call returns: there is too little input, or there is no space. -/
def Rests (s : DState) : Prop :=
  match s.standing with
  | .reading label => s.reader.bits.length < label.width
  | .output .. => s.availOut = 0
  | .ended _ => True

theorem availOut_of_rests {s : DState} (hrests : s.Rests) (houtput : s.standing.isOutput = true) :
    s.availOut = 0 := by
  obtain ⟨⟨standing, crc, out⟩, r, availOut⟩ := s
  cases standing with
  | reading label => cases houtput
  | output b o d => exact hrests
  | ended v => cases houtput

/-- What every part of a turn keeps. -/
structure Leads (fresh : Reading.Fresh) (smallDecompress : Bool) (s t : DState) : Prop where
  valid : t.Valid
  comesTo_eq : comesTo fresh smallDecompress t = comesTo fresh smallDecompress s
  space : t.out.length + t.availOut = s.out.length + s.availOut

theorem Leads.trans {u : DState} (h : Leads fresh smallDecompress s t)
    (h' : Leads fresh smallDecompress t u) : Leads fresh smallDecompress s u :=
  ⟨h'.valid, h'.comesTo_eq.trans h.comesTo_eq, h'.space.trans h.space⟩

section Turn

variable {label : Reading} {crc : UInt32} {out : List UInt8} {r : Reader} {availOut : ℕ}

/-- The decoder is called. -/
theorem turn_leads_of_reading
    (hs : Valid ⟨⟨.reading label, crc, out⟩, r, availOut⟩) :
    ∃ t, Leads fresh smallDecompress ⟨⟨.reading label, crc, out⟩, r, availOut⟩ t ∧
      (turn fresh smallDecompress ⟨⟨.reading label, crc, out⟩, r, availOut⟩ = .inl t ∨
        turn fresh smallDecompress ⟨⟨.reading label, crc, out⟩, r, availOut⟩ = .inr t ∧
          t.Rests) := by
  have hlabel : label.Valid := hs.standing
  have hreached : Reached (Reading.machine fresh smallDecompress) Reading.Valid label r.bits
      (decode (Reading.machine fresh smallDecompress) label r) :=
    reached_decode (fun _ hs => hs.width_le) (fun _ value _ hs => hs.step value) hlabel hs.live
  have hcomes : comesTo fresh smallDecompress ⟨⟨.reading label, crc, out⟩, r, availOut⟩ =
      (machine fresh smallDecompress).run ((crc, out), label) r.bits := by
    show (machine fresh smallDecompress).run ((crc, out), label) (r.bits ++ []) = _
    rw [List.append_nil]
  rw [machine, BitMachine.run_restart, hreached.run_eq] at hcomes
  obtain ⟨hlive, hrun, hempty⟩ := hreached
  cases hdecode : decode (Reading.machine fresh smallDecompress) label r with | mk next r' =>
  rw [hdecode] at hcomes hlive hrun hempty
  obtain label' | result := next
  · refine ⟨⟨⟨.reading label', crc, out⟩, r', availOut⟩,
      ⟨⟨hlive, (hempty label' rfl).2⟩, hcomes.symm, rfl⟩, .inr ⟨turn_of_waits hdecode, ?_⟩⟩
    exact BitMachine.length_lt_of_run hrun
  · have hresult := Decoded.standing_valid (hlabel.result_cases hrun) crc
    refine ⟨⟨⟨result.standing crc, crc, out⟩, r', availOut⟩,
      ⟨⟨hlive, hresult⟩, hcomes.symm, rfl⟩, ?_⟩
    rw [turn_of_result hdecode]
    split
    · exact .inl rfl
    · rename_i hnot
      refine .inr ⟨rfl, ?_⟩
      cases result with
      | output b o d => exact absurd rfl hnot
      | streamEnd storedCombinedCRC => exact trivial
      | dataErrorMagic => exact trivial
      | dataError => exact trivial
      | returnsTrue => exact trivial
      | outside => exact trivial

/-- A block is written. -/
theorem turn_leads_of_output (hs : Valid ⟨⟨.output b o d, crc, out⟩, r, availOut⟩) :
    ∃ t, Leads fresh smallDecompress ⟨⟨.output b o d, crc, out⟩, r, availOut⟩ t ∧
      (turn fresh smallDecompress ⟨⟨.output b o d, crc, out⟩, r, availOut⟩ = .inl t ∨
        turn fresh smallDecompress ⟨⟨.output b o d, crc, out⟩, r, availOut⟩ = .inr t ∧
          t.Rests) := by
  obtain ⟨hlive, hd, f, hat⟩ := hs
  have hsettled := Unpacking.settled_write smallDecompress ⟨.output b o d, crc, out⟩ d availOut hat
  cases hwrite : Unpacking.write smallDecompress ⟨.output b o d, crc, out⟩ b o d availOut with
  | mk written left =>
  rw [hwrite] at hsettled
  have hcomes : comesTo fresh smallDecompress ⟨written, r, left⟩ =
      comesTo fresh smallDecompress ⟨⟨.output b o d, crc, out⟩, r, availOut⟩ :=
    congrArg (fun next => (machine fresh smallDecompress).resume (next, r.bits) []) hsettled
  rcases Unpacking.write_cases smallDecompress ⟨.output b o d, crc, out⟩ d availOut hat rfl rfl with
    ⟨hle, hfinish⟩ | ⟨hle, -, o', hat', houtput, -⟩
  · rw [hwrite, Unpacking.finish] at hfinish
    split at hfinish
    · cases hfinish
      refine ⟨⟨⟨.ended .dataError, _, _⟩, r, _⟩, ⟨⟨hlive, trivial⟩, hcomes, ?_⟩,
        .inr ⟨turn_of_output hwrite, trivial⟩⟩
      dsimp only
      rw [List.length_append]
      omega
    · cases hfinish
      refine ⟨⟨⟨.reading (.blkhdr1 d), _, _⟩, r, _⟩, ⟨⟨hlive, hd⟩, hcomes, ?_⟩,
        .inl (turn_of_output hwrite)⟩
      dsimp only
      rw [List.length_append]
      omega
  · rw [hwrite] at houtput
    cases houtput
    refine ⟨⟨⟨.output b o' d, _, _⟩, r, _⟩, ⟨⟨hlive, hd, f, hat'⟩, hcomes, ?_⟩,
      .inr ⟨turn_of_output hwrite, rfl⟩⟩
    dsimp only
    rw [List.length_append, List.length_take_of_le hle]
    omega

end Turn

variable (fresh smallDecompress) in
theorem turn_leads (hs : s.Valid) :
    ∃ t, Leads fresh smallDecompress s t ∧
      (turn fresh smallDecompress s = .inl t ∨
        turn fresh smallDecompress s = .inr t ∧ t.Rests) := by
  obtain ⟨⟨standing, crc, out⟩, r, availOut⟩ := s
  cases standing with
  | reading label => exact turn_leads_of_reading hs
  | output b o d => exact turn_leads_of_output hs
  | ended v => exact ⟨_, ⟨hs, rfl, rfl⟩, .inr ⟨rfl, trivial⟩⟩

variable (fresh smallDecompress) in
/-- A call returns, and what the stream comes to is what it would have come to. -/
theorem bzDecompress_leads (hs : s.Valid) :
    Leads fresh smallDecompress s (bzDecompress fresh smallDecompress s) ∧
      (bzDecompress fresh smallDecompress s).Rests := by
  induction hturns : turns s using Nat.strongRecOn generalizing s with
  | ind n ih =>
      obtain ⟨t, hleads, hturn | ⟨hturn, hrests⟩⟩ :=
        turn_leads fresh smallDecompress hs
      · obtain ⟨hrest, hrests⟩ := ih _ (hturns ▸ turns_turn hturn) hleads.valid rfl
        rw [bzDecompress_of_inl hturn]
        exact ⟨hleads.trans hrest, hrests⟩
      · rw [bzDecompress_of_inr hturn]
        exact ⟨hleads, hrests⟩

section Calls

variable (fresh smallDecompress) in
/-- A call with more bytes comes to what these lead to. -/
theorem comesTo_feed (hs : s.Valid) (call : List UInt8 × ℕ) :
    (feed fresh smallDecompress s call).Valid ∧ (feed fresh smallDecompress s call).Rests ∧
      comesTo fresh smallDecompress (feed fresh smallDecompress s call) =
        (machine fresh smallDecompress).resume (comesTo fresh smallDecompress s)
          (ofBytes call.1) := by
  obtain ⟨hleads, hrests⟩ := bzDecompress_leads fresh smallDecompress
    (s := { s with reader := { s.reader with nextIn := s.reader.nextIn ++ call.1 },
                   availOut := call.2 }) ⟨hs.live, hs.standing⟩
  refine ⟨hleads.valid, hrests, hleads.comesTo_eq.trans ?_⟩
  have hbits : Reader.bits { s.reader with nextIn := s.reader.nextIn ++ call.1 } =
      s.reader.bits ++ ofBytes call.1 := by
    rw [Reader.bits, Reader.bits, Bits.ofBytes_append, List.append_assoc]
  show (machine fresh smallDecompress).resume (s.toUnpacking.settled smallDecompress,
    Reader.bits { s.reader with nextIn := s.reader.nextIn ++ call.1 }) [] = _
  rw [hbits, BitMachine.resume_left, comesTo, BitMachine.resume_append, List.nil_append]

variable (fresh smallDecompress) in
theorem length_out_feed (hs : s.Valid) (call : List UInt8 × ℕ) :
    (feed fresh smallDecompress s call).out.length +
      (feed fresh smallDecompress s call).availOut = s.out.length + call.2 :=
  (bzDecompress_leads fresh smallDecompress
    (s := { s with reader := { s.reader with nextIn := s.reader.nextIn ++ call.1 },
                   availOut := call.2 }) ⟨hs.live, hs.standing⟩).1.space

variable (fresh smallDecompress) in
theorem comesTo_calls (calls : List (List UInt8 × ℕ)) (hs : s.Valid) (hrests : s.Rests) :
    (calls.foldl (feed fresh smallDecompress) s).Valid ∧
      (calls.foldl (feed fresh smallDecompress) s).Rests ∧
      comesTo fresh smallDecompress (calls.foldl (feed fresh smallDecompress) s) =
        (machine fresh smallDecompress).resume (comesTo fresh smallDecompress s)
          (ofBytes (calls.flatMap Prod.fst)) := by
  induction calls generalizing s with
  | nil => exact ⟨hs, hrests, (BitMachine.resume_nil _ _).symm⟩
  | cons call calls ih =>
      obtain ⟨hvalid, hrests', hcomes⟩ :=
        comesTo_feed fresh smallDecompress hs call
      obtain ⟨hvalid', hrests'', hcomes'⟩ := ih hvalid hrests'
      refine ⟨hvalid', hrests'', hcomes'.trans ?_⟩
      rw [hcomes, BitMachine.resume_append, ← Bits.ofBytes_append, List.flatMap_cons]

/-- Where a stream begins. -/
def start : Kept × Reading := ((0, []), .magic1)

variable (fresh smallDecompress) in
/-- After any calls a stream comes to what one run over all bits comes to. -/
theorem comesTo_afterCalls (calls : List (List UInt8 × ℕ)) :
    (afterCalls fresh smallDecompress calls).Valid ∧
      (afterCalls fresh smallDecompress calls).Rests ∧
      comesTo fresh smallDecompress (afterCalls fresh smallDecompress calls) =
        (machine fresh smallDecompress).run start (ofBytes (calls.flatMap Prod.fst)) := by
  have hinit : comesTo fresh smallDecompress init = (.inl start, []) :=
    BitMachine.run_of_lt (show 0 < 8 by decide)
  have hcalls := comesTo_calls fresh smallDecompress (s := init) calls
    ⟨show 0 < 32 by decide, trivial⟩ (show 0 < 8 by decide)
  rw [hinit] at hcalls
  exact hcalls

/-- Where a call does not wait for space, the stream has come there itself. -/
theorem comesTo_eq (hrests : s.Rests) (houtput : s.standing.isOutput = false) :
    comesTo fresh smallDecompress s = (s.toUnpacking.next, s.reader.bits) := by
  obtain ⟨⟨standing, crc, out⟩, r, availOut⟩ := s
  cases standing with
  | reading label =>
      have hless : r.bits.length <
        (machine fresh smallDecompress).width ((crc, out), label) := hrests
      show (machine fresh smallDecompress).run ((crc, out), label) (r.bits ++ []) = _
      rw [List.append_nil, BitMachine.run_of_lt hless]
      rfl
  | output b o d => cases houtput
  | ended v =>
      show (Sum.inr ((crc, out), v), r.bits ++ []) = _
      rw [List.append_nil]
      rfl

end Calls

/-! ## What holds of every run -/

section Runs

variable {label : Reading} {k : Kept} {bits left : List Bool}

/-- A step ends with more bytes, in a state that is kept or with an end that the source has. -/
def Grows (k : Kept) : (Kept × Reading) ⊕ (Kept × Verdict) → Prop
  | .inl s => k.2 <+: s.1.2 ∧ s.2.Valid
  | .inr r => k.2 <+: r.1.2 ∧ r.2 ≠ .returnsTrue ∧ r.2 ≠ .outside

theorem finish_grows (u : Unpacking) (b : Block) (hd : d.Valid) (text : List UInt8) (corrupt : Bool)
    (crc : UInt32) :
    Grows (u.calculatedCombinedCRC, u.out) (u.finish b d text corrupt crc).next := by
  rw [Unpacking.finish]
  split
  · exact ⟨List.prefix_append _ _, Verdict.noConfusion, Verdict.noConfusion⟩
  · exact ⟨List.prefix_append _ _, hd⟩

theorem settled_grows {result : Decoded} (h : Reading.Next.Valid (.inr result)) (k : Kept) :
    Grows k (Unpacking.settled smallDecompress ⟨result.standing k.1, k.1, k.2⟩) := by
  cases result with
  | output b o d =>
      obtain ⟨hd, -, f, hbegins⟩ := h
      have hsettled := Unpacking.settled_output smallDecompress
        ⟨.output b o d, k.1, k.2⟩ d ⟨hbegins.k0, hbegins.source⟩
      show Grows k (Unpacking.settled smallDecompress ⟨.output b o d, k.1, k.2⟩)
      rw [hsettled]
      exact finish_grows _ b hd _ _ _
  | streamEnd storedCombinedCRC =>
      show Grows k (.inr (k, if k.1 ≠ storedCombinedCRC then .dataError else .streamEnd))
      split
      · exact ⟨List.prefix_refl _, Verdict.noConfusion, Verdict.noConfusion⟩
      · exact ⟨List.prefix_refl _, Verdict.noConfusion, Verdict.noConfusion⟩
  | dataErrorMagic => exact ⟨List.prefix_refl _, Verdict.noConfusion, Verdict.noConfusion⟩
  | dataError => exact ⟨List.prefix_refl _, Verdict.noConfusion, Verdict.noConfusion⟩
  | returnsTrue => exact h.elim
  | outside => exact h.elim

variable (fresh smallDecompress) in
theorem step_cases (hlabel : label.Valid) (k : Kept) (value : ℕ) :
    (label.Full ∧ value = 0 ∧
      (machine fresh smallDecompress).step (k, label) value = .inr (k, .outside)) ∨
    Grows k ((machine fresh smallDecompress).step (k, label) value) := by
  rw [machine, BitMachine.restart_step]
  rcases hlabel.step_cases fresh smallDecompress value with ⟨hfull, hzero, hstep⟩ | hnext
  · refine .inl ⟨hfull, hzero, ?_⟩
    rw [hstep]
    rfl
  · refine .inr ?_
    cases hstep : (Reading.machine fresh smallDecompress).step label value with
    | inl label' =>
        rw [hstep] at hnext
        exact ⟨List.prefix_refl _, hnext⟩
    | inr result =>
        rw [hstep] at hnext
        exact settled_grows hnext k

theorem step_valid {s s' : Kept × Reading} {value : ℕ} (hs : s.2.Valid)
    (hstep : (machine fresh smallDecompress).step s value = .inl s') :
    s.1.2 <+: s'.1.2 ∧ s'.2.Valid := by
  rcases step_cases fresh smallDecompress hs s.1 value with ⟨-, -, houtside⟩ | hgrows
  · cases hstep.symm.trans houtside
  · change Grows s.1 ((machine fresh smallDecompress).step s value) at hgrows
    rw [hstep] at hgrows
    exact hgrows

/-- The bytes that a run has come to. -/
def bytesOf : (Kept × Reading) ⊕ (Kept × Verdict) → List UInt8
  | .inl s => s.1.2
  | .inr r => r.1.2

theorem bytesOf_next (u : Unpacking) : bytesOf u.next = u.out := by
  obtain ⟨standing, crc, out⟩ := u
  cases standing with
  | reading label => rfl
  | output b o d => rfl
  | ended v => rfl

theorem prefix_of_reads {s : Kept × Reading} {next : (Kept × Reading) ⊕ (Kept × Verdict)}
    (hs : s.2.Valid) (h : (machine fresh smallDecompress).Reads s bits next) :
    s.1.2 <+: bytesOf next := by
  induction h with
  | refl s => exact List.prefix_refl _
  | step hlength hstep _ ih =>
      obtain ⟨hwritten, hvalid⟩ := step_valid hs hstep
      exact hwritten.trans (ih hvalid)
  | @last s bits result hlength hstep =>
      rcases step_cases fresh smallDecompress hs s.1 (Bits.ofBits bits) with
        ⟨-, -, houtside⟩ | hgrows
      · cases hstep.symm.trans houtside
        exact List.prefix_refl _
      · change Grows s.1 ((machine fresh smallDecompress).step s _) at hgrows
        rw [hstep] at hgrows
        exact hgrows.1

theorem prefix_of_run {s : Kept × Reading} (hs : s.2.Valid) (bits : List Bool) :
    s.1.2 <+: bytesOf ((machine fresh smallDecompress).run s bits).1 := by
  obtain ⟨used, -, hreads⟩ := (machine fresh smallDecompress).exists_reads s bits
  exact prefix_of_reads hs hreads

variable (fresh smallDecompress) in
/-- What was written is the first part of what is come to. -/
theorem prefix_comesTo {s : DState} (hs : s.Valid) :
    s.out <+: bytesOf (comesTo fresh smallDecompress s).1 := by
  obtain ⟨⟨standing, crc, out⟩, r, availOut⟩ := s
  have hresume : ∀ next, Grows (crc, out) next → out <+:
      bytesOf ((machine fresh smallDecompress).resume (next, r.bits) []).1 := by
    intro next hnext
    cases next with
    | inl s => exact hnext.1.trans (prefix_of_run hnext.2 _)
    | inr result => exact hnext.1
  cases standing with
  | reading label => exact hresume (.inl ((crc, out), label)) ⟨List.prefix_refl _, hs.standing⟩
  | output b o d =>
      obtain ⟨hd, f, hat⟩ := hs.standing
      refine hresume (Unpacking.settled smallDecompress ⟨.output b o d, crc, out⟩) ?_
      have hsettled := Unpacking.settled_output smallDecompress ⟨.output b o d, crc, out⟩ d hat
      rw [hsettled]
      exact finish_grows _ b hd _ _ _
  | ended v => exact List.prefix_refl _

/-- A result is that of a step from a label that is kept. -/
theorem exists_last_step {r : Kept × Verdict}
    (hrun : (machine fresh smallDecompress).run start bits = (.inr r, left)) :
    ∃ used s value, (machine fresh smallDecompress).Reads start used (.inl s) ∧ s.2.Valid ∧
      value.length = s.2.width ∧ bits = used ++ (value ++ left) ∧
      (machine fresh smallDecompress).step s (Bits.ofBits value) = .inr r :=
  BitMachine.exists_last_step (P := fun s => s.2.Valid)
    (fun _ _ _ hs hstep => (step_valid hs hstep).2) trivial hrun

end Runs

/-! ## All calls of a stream -/

variable (fresh smallDecompress)

/-- However a stream and the space for it are divided over the calls, the decoder never returns the
`True` of `BZ_GET_FAST`, and it leaves its arrays exactly when the blocks before are in order and
the input of one has led to all the space for its selectors and another selector follows. -/
theorem bzDecompress_stays_inside (calls : List (List UInt8 × ℕ)) :
    (afterCalls fresh smallDecompress calls).standing ≠ .ended .returnsTrue ∧
      ((afterCalls fresh smallDecompress calls).standing = .ended .outside ↔
        (afterCalls fresh smallDecompress calls).standing.isOutput = false ∧
          ∃ used left s, ofBytes (calls.flatMap Prod.fst) = used ++ false :: left ∧
            (machine fresh smallDecompress).Reads start used (.inl s) ∧ s.2.Full) := by
  obtain ⟨-, hrests, hcomes⟩ :=
    comesTo_afterCalls fresh smallDecompress calls
  generalize afterCalls fresh smallDecompress calls = s at hrests hcomes ⊢
  -- The verdict of a call is the one of the run over all bits.
  have hover : ∀ v, s.standing = .ended v → (machine fresh smallDecompress).run start
      (ofBytes (calls.flatMap Prod.fst)) =
        (.inr ((s.calculatedCombinedCRC, s.out), v), s.reader.bits) := by
    intro v hv
    have houtput : s.standing.isOutput = false := by
      rw [hv]
      rfl
    rw [← hcomes, comesTo_eq hrests houtput, Unpacking.next, hv]
  refine ⟨fun hv => ?_, fun hv => ⟨by rw [hv]; rfl, ?_⟩, ?_⟩
  · obtain ⟨-, t, value, -, ht, -, -, hstep⟩ := exists_last_step (hover _ hv)
    rcases step_cases fresh smallDecompress ht t.1 (Bits.ofBits value) with
      ⟨-, -, houtside⟩ | hgrows
    · cases (Prod.mk.inj (Sum.inr.inj (hstep.symm.trans houtside))).2
    · change Grows t.1 ((machine fresh smallDecompress).step t _) at hgrows
      rw [hstep] at hgrows
      exact hgrows.2.1 rfl
  · obtain ⟨used, t, value, hreads, ht, hlength, hbits, hstep⟩ := exists_last_step (hover _ hv)
    rcases step_cases fresh smallDecompress ht t.1 (Bits.ofBits value) with
      ⟨hfull, hzero, -⟩ | hgrows
    · have hvalue : value = [false] := by
        rw [hfull.width_eq] at hlength
        refine Bits.eq_of_ofBits_eq hlength ?_
        rw [hzero]
        rfl
      exact ⟨used, _, t, by rw [hbits, hvalue]; rfl, hreads, hfull⟩
    · change Grows t.1 ((machine fresh smallDecompress).step t _) at hgrows
      rw [hstep] at hgrows
      exact absurd rfl hgrows.2.2
  · rintro ⟨houtput, used, left, t, hbits, hreads, hfull⟩
    have hlast : (machine fresh smallDecompress).Reads t [false] (.inr (t.1, .outside)) := by
      refine .last hfull.width_eq.symm ?_
      show (machine fresh smallDecompress).step (t.1, t.2) 0 = _
      rw [machine, BitMachine.restart_step, hfull.step_zero]
      rfl
    have hall := (hreads.trans hlast).run_append_eq left
    rw [List.append_assoc] at hall
    rw [hbits, show used ++ false :: left = used ++ ([false] ++ left) from rfl, hall,
      comesTo_eq hrests houtput] at hcomes
    exact Unpacking.standing_of_next (congrArg Prod.fst hcomes) houtput

/-- A stream comes to the same end, with the same bytes, the same checksum and the same bits left,
however it and the space for it are divided over the calls; a call that waits for space has written
the first part of these bytes, as far as there was space. -/
theorem bzDecompress_ignores_division (input : List UInt8) :
    ∃ enough, ∀ availOut, enough ≤ availOut → ∀ calls : List (List UInt8 × ℕ),
      calls.flatMap Prod.fst = input →
        (afterCalls fresh smallDecompress calls).out <+:
            (afterCalls fresh smallDecompress [(input, availOut)]).out ∧
          ((afterCalls fresh smallDecompress calls).standing.isOutput = true →
            (afterCalls fresh smallDecompress calls).availOut = 0) ∧
          ((afterCalls fresh smallDecompress calls).standing.isOutput = false →
            (afterCalls fresh smallDecompress calls).toUnpacking =
                (afterCalls fresh smallDecompress [(input, availOut)]).toUnpacking ∧
              (afterCalls fresh smallDecompress calls).reader.bits =
                (afterCalls fresh smallDecompress [(input, availOut)]).reader.bits) := by
  refine ⟨(bytesOf ((machine fresh smallDecompress).run start (ofBytes input)).1).length + 1,
    fun availOut henough calls hcalls => ?_⟩
  obtain ⟨hvalid, hrests, hcomes⟩ :=
    comesTo_afterCalls fresh smallDecompress calls
  obtain ⟨hvalid', hrests', hcomes'⟩ :=
    comesTo_afterCalls fresh smallDecompress [(input, availOut)]
  have hspace := length_out_feed fresh smallDecompress
    (s := init) ⟨show 0 < 32 by decide, trivial⟩ (input, availOut)
  change (afterCalls fresh smallDecompress [(input, availOut)]).out.length +
    (afterCalls fresh smallDecompress [(input, availOut)]).availOut = 0 + availOut at hspace
  rw [hcalls] at hcomes
  rw [List.flatMap_cons, List.flatMap_nil, List.append_nil] at hcomes'
  dsimp only at hcomes'
  generalize afterCalls fresh smallDecompress calls = s at *
  generalize afterCalls fresh smallDecompress [(input, availOut)] = whole at *
  have hwritten := prefix_comesTo fresh smallDecompress hvalid
  have hwritten' := prefix_comesTo fresh smallDecompress hvalid'
  rw [hcomes] at hwritten
  rw [hcomes'] at hwritten'
  -- With enough space the whole of the bytes is written.
  have hwhole : whole.standing.isOutput = false := by
    refine Bool.eq_false_of_not_eq_true fun houtput => ?_
    have hfull := availOut_of_rests hrests' houtput
    have hle := hwritten'.length_le
    omega
  rw [comesTo_eq hrests' hwhole] at hcomes'
  refine ⟨?_, availOut_of_rests hrests, fun houtput => ?_⟩
  · rw [← hcomes', bytesOf_next] at hwritten
    exact hwritten
  · rw [comesTo_eq hrests houtput, ← hcomes'] at hcomes
    obtain ⟨hnext, hbits⟩ := Prod.mk.inj hcomes
    exact ⟨Unpacking.eq_of_next_eq hnext houtput hwhole, hbits⟩

end DState

end StudyNotes.Bzip2
