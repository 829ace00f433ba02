/-
# Expanding the runs of a block

`unRLE_obuf_to_output_SMALL` and `unRLE_obuf_to_output_FAST`.  Both write the text of a block
as far as there is space for it and come back in the next call.  The fast one keeps to the
case of single bytes: it jumps to the place where the last byte of a run is written and does
not count that one down.  They write the same bytes, whatever the block is.
-/

import StudyNotes.Bzip2.RunLength

namespace StudyNotes.Bzip2

/-- The fields of `DState` that the functions work on, with `avail_out` and the bytes that
were written at `next_out`. -/
structure Output (τ : Type) where
  stateOutCh : UInt8
  stateOutLen : ℕ
  nblockUsed : ℕ
  k0 : UInt8
  tPos : τ
  calculatedBlockCRC : UInt32
  out : List UInt8
  availOut : ℕ

/-- How a call or a part of it ends: it goes on or returns `False`, or it returns `True` for
corrupt data, where the fast version does not save its fields. -/
inductive Expanded (τ : Type) where
  | intact (s : Output τ)
  | corrupt (s : Output τ)

/-- The bytes that calls have written, and the checksum of them. -/
def Expanded.written {τ : Type} : Expanded τ → List UInt8 × UInt32
  | .intact s => (s.out, s.calculatedBlockCRC)
  | .corrupt s => (s.out, s.calculatedBlockCRC)

/-- How a new run of the fast version begins. -/
inductive Started (τ : Type) where
  | one (s : Output τ)
  | many (s : Output τ)
  | corrupt (s : Output τ)

/-- The places of the fast version that are jumped to: before the bytes of a run, at
`s_state_out_len_eq_one`, and where a new run can be started. -/
inductive FastLabel where
  | run
  | lenEqOne
  | newRun

namespace Output

variable {τ : Type}

/-- Writes `state_out_ch`. -/
def putByte (s : Output τ) : Output τ :=
  { s with
    calculatedBlockCRC := updateCRC s.calculatedBlockCRC s.stateOutCh
    out := s.out ++ [s.stateOutCh]
    availOut := s.availOut - 1 }

section Code

variable (get : τ → Option (Option (UInt8 × τ))) (saveNblock : ℕ)

/-- Fetches `k1`.  The run goes on when the byte is the same and there is one more. -/
def sameByte (s : Output τ) (more : Output τ → Option (Expanded τ)) : Option (Expanded τ) :=
  match get s.tPos with
  | none => none
  | some none => some (.corrupt s)
  | some (some (k1, tPos)) =>
      let s := { s with tPos, nblockUsed := s.nblockUsed + 1 }
      if s.nblockUsed = saveNblock + 1 then some (.intact s)
      else if k1 ≠ s.k0 then some (.intact { s with k0 := k1 })
      else more s

/-- Fetches the count after four bytes and the byte after it. -/
def countByte (s : Output τ) : Option (Expanded τ) :=
  match get s.tPos with
  | none => none
  | some none => some (.corrupt s)
  | some (some (k1, tPos)) =>
      let s := { s with tPos, nblockUsed := s.nblockUsed + 1, stateOutLen := k1.toNat + 4 }
      match get s.tPos with
      | none => none
      | some none => some (.corrupt s)
      | some (some (k0, tPos)) =>
          some (.intact { s with tPos, nblockUsed := s.nblockUsed + 1, k0 })

/-- What follows the first byte of a run when the second is the same. -/
def longRun (s : Output τ) : Option (Expanded τ) :=
  sameByte get saveNblock { s with stateOutLen := 2 } fun s =>
    sameByte get saveNblock { s with stateOutLen := 3 } fun s => countByte get s

/-- A new run in the plain version. -/
def startRun (s : Output τ) : Option (Expanded τ) :=
  sameByte get saveNblock { s with stateOutLen := 1, stateOutCh := s.k0 } fun s =>
    longRun get saveNblock s

theorem pos_of_sameByte {s s' : Output τ} {more : Output τ → Option (Expanded τ)}
    (hpos : 0 < s.stateOutLen)
    (hmore : ∀ t, t.availOut = s.availOut → more t = some (.intact s') →
      s'.availOut = s.availOut ∧ 0 < s'.stateOutLen)
    (h : sameByte get saveNblock s more = some (.intact s')) :
    s'.availOut = s.availOut ∧ 0 < s'.stateOutLen := by
  rw [sameByte] at h
  split at h
  · cases h
  · cases h
  · dsimp only at h
    split at h
    · cases h
      exact ⟨rfl, hpos⟩
    · split at h
      · cases h
        exact ⟨rfl, hpos⟩
      · exact hmore { s with tPos := _, nblockUsed := s.nblockUsed + 1 } rfl h

theorem pos_of_longRun {s s' : Output τ} (h : longRun get saveNblock s = some (.intact s')) :
    s'.availOut = s.availOut ∧ 0 < s'.stateOutLen := by
  refine pos_of_sameByte get saveNblock (s := { s with stateOutLen := 2 }) (Nat.succ_pos 1)
    (fun t ht hmore => ?_) h
  refine (pos_of_sameByte get saveNblock (s := { t with stateOutLen := 3 }) (Nat.succ_pos 2)
    (fun u hu hcount => ?_) hmore).imp_left (·.trans ht)
  rw [countByte] at hcount
  split at hcount
  · cases hcount
  · cases hcount
  · dsimp only at hcount
    split at hcount
    · cases hcount
    · cases hcount
    · cases hcount
      exact ⟨hu, Nat.succ_pos _⟩

theorem pos_of_startRun {s s' : Output τ} (h : startRun get saveNblock s = some (.intact s')) :
    s'.availOut = s.availOut ∧ 0 < s'.stateOutLen := by
  refine pos_of_sameByte get saveNblock (s := { s with stateOutLen := 1, stateOutCh := s.k0 })
    Nat.one_pos (fun t ht hmore => ?_) h
  exact (pos_of_longRun get saveNblock hmore).imp_left (·.trans ht)

/-- The loop of `unRLE_obuf_to_output_SMALL`, which is also the one of
`unRLE_obuf_to_output_FAST` for a randomised block, over the `saveNblock` bytes of a block. -/
def expand (s : Output τ) : Option (Expanded τ) :=
  if s.availOut = 0 then some (.intact s)
  else if 0 < s.stateOutLen then expand { s.putByte with stateOutLen := s.stateOutLen - 1 }
  else if s.nblockUsed = saveNblock + 1 then some (.intact s)
  else if s.nblockUsed > saveNblock + 1 then some (.corrupt s)
  else
    match _h : startRun get saveNblock s with
    | none => none
    | some (.corrupt s') => some (.corrupt s')
    | some (.intact s') => expand s'
termination_by (s.availOut, if 0 < s.stateOutLen then 0 else 1)
decreasing_by
  · refine Prod.Lex.left _ _ ?_
    show s.availOut - 1 < s.availOut
    omega
  · obtain ⟨hsame, hpos⟩ := pos_of_startRun get saveNblock _h
    rw [hsame]
    refine Prod.Lex.right _ ?_
    rw [if_pos hpos, if_neg (by assumption)]
    exact Nat.one_pos

/-- A new run in the fast version, which does not set the length of a single byte. -/
def startFast (s : Output τ) : Option (Started τ) :=
  let s := { s with stateOutCh := s.k0 }
  match get s.tPos with
  | none => none
  | some none => some (.corrupt s)
  | some (some (k1, tPos)) =>
      let s := { s with tPos, nblockUsed := s.nblockUsed + 1 }
      if k1 ≠ s.k0 then some (.one { s with k0 := k1 })
      else if s.nblockUsed = saveNblock + 1 then some (.one s)
      else
        match longRun get saveNblock s with
        | none => none
        | some (.corrupt s) => some (.corrupt s)
        | some (.intact s) => some (.many s)

theorem availOut_of_one {s s' : Output τ} (h : startFast get saveNblock s = some (.one s')) :
    s'.availOut = s.availOut := by
  rw [startFast] at h
  dsimp only at h
  split at h
  · cases h
  · cases h
  · split at h
    · cases h
      rfl
    · split at h
      · cases h
        rfl
      · split at h
        · cases h
        · cases h
        · cases h

theorem pos_of_many {s s' : Output τ} (h : startFast get saveNblock s = some (.many s')) :
    s'.availOut = s.availOut ∧ 0 < s'.stateOutLen := by
  rw [startFast] at h
  dsimp only at h
  split at h
  · cases h
  · cases h
  · split at h
    · cases h
    · split at h
      · cases h
      · split at h
        · cases h
        · cases h
        · cases h
          rename_i hlong
          have hpos := pos_of_longRun get saveNblock hlong
          exact hpos

/-- The loop of `unRLE_obuf_to_output_FAST` for a block that is not randomised. -/
def expandFast (label : FastLabel) (s : Output τ) : Option (Expanded τ) :=
  match label with
  | .run =>
      if 0 < s.stateOutLen then
        if s.availOut = 0 then some (.intact s)
        else if s.stateOutLen = 1 then expandFast .lenEqOne s
        else expandFast .run { s.putByte with stateOutLen := s.stateOutLen - 1 }
      else expandFast .newRun s
  | .lenEqOne =>
      if s.availOut = 0 then some (.intact { s with stateOutLen := 1 })
      else expandFast .newRun s.putByte
  | .newRun =>
      if s.nblockUsed > saveNblock + 1 then some (.corrupt s)
      else if s.nblockUsed = saveNblock + 1 then some (.intact { s with stateOutLen := 0 })
      else
        match _h : startFast get saveNblock s with
        | none => none
        | some (.corrupt s') => some (.corrupt s')
        | some (.one s') => expandFast .lenEqOne s'
        | some (.many s') => expandFast .run s'
termination_by (s.availOut, match label with
  | .lenEqOne => 0
  | .run => if 0 < s.stateOutLen then 1 else 3
  | .newRun => 2)
decreasing_by
  · refine Prod.Lex.right _ ?_
    rw [if_pos (by assumption)]
    exact Nat.one_pos
  · refine Prod.Lex.left _ _ ?_
    show s.availOut - 1 < s.availOut
    omega
  · refine Prod.Lex.right _ ?_
    rw [if_neg (by assumption)]
    decide
  · refine Prod.Lex.left _ _ ?_
    show s.availOut - 1 < s.availOut
    omega
  · rw [availOut_of_one get saveNblock _h]
    exact Prod.Lex.right _ (Nat.succ_pos 1)
  · obtain ⟨hsame, hpos⟩ := pos_of_many get saveNblock _h
    rw [hsame]
    refine Prod.Lex.right _ ?_
    rw [if_pos hpos]
    decide

end Code

/-! ## What the bytes of a block stand for -/

section Meaning

variable (f : ℕ → UInt8) (nblock : ℕ)

/-- The length of a run of `c` that has two bytes when `used` bytes are fetched, and the bytes
that are fetched after it. -/
def longAt (c : UInt8) (used : ℕ) : ℕ × ℕ :=
  if used = nblock ∨ f used ≠ c then (2, used + 1)
  else if used + 1 = nblock ∨ f (used + 1) ≠ c then (3, used + 2)
  else ((f (used + 2)).toNat + 4, used + 4)

/-- The length of the run that begins when `used` bytes are fetched, and the bytes that are
fetched after it. -/
def runAt (used : ℕ) : ℕ × ℕ :=
  if used = nblock ∨ f used ≠ f (used - 1) then (1, used + 1)
  else longAt f nblock (f (used - 1)) (used + 1)

theorem lt_runAt (used : ℕ) : used < (runAt f nblock used).2 := by
  unfold runAt longAt
  split
  · exact Nat.lt_succ_self used
  · split
    · exact Nat.lt_add_of_pos_right (Nat.succ_pos 1)
    · split
      · exact Nat.lt_add_of_pos_right (Nat.succ_pos 2)
      · exact Nat.lt_add_of_pos_right (Nat.succ_pos 4)

/-- The text that is still to come, and whether the block is found to be corrupt after it. -/
def rest (used : ℕ) : List UInt8 × Bool :=
  if used ≤ nblock then
    (List.replicate (runAt f nblock used).1 (f (used - 1)) ++ (rest (runAt f nblock used).2).1,
      (rest (runAt f nblock used).2).2)
  else ([], decide (nblock + 1 < used))
termination_by nblock + 1 - used
decreasing_by
  all_goals
    have hlt := lt_runAt f nblock used
    omega

end Meaning

/-- The first byte that a source gives. -/
theorem first_of_produces {get : τ → Option (Option (UInt8 × τ))} {f : ℕ → UInt8} {tPos : τ}
    (h : Produces get tPos f) :
    ∃ tPos', get tPos = some (some (f 0, tPos')) ∧ Produces get tPos' fun m => f (1 + m) := by
  obtain ⟨x, rfl, hx⟩ := h
  refine ⟨x 1, hx 0, fun m => x (m + 1), rfl, fun m => ?_⟩
  dsimp only
  rw [hx (m + 1), Nat.add_comm 1 m]

section Spec

variable {get : τ → Option (Option (UInt8 × τ))} {f : ℕ → UInt8} {nblock : ℕ} {s t : Output τ}

/-- The bytes up to `nblock_used` were fetched, and the last of them is `k0`. -/
structure At (get : τ → Option (Option (UInt8 × τ))) (f : ℕ → UInt8) (nblock : ℕ)
    (s : Output τ) : Prop where
  k0 : s.nblockUsed ≤ nblock → s.k0 = f (s.nblockUsed - 1)
  source : Produces get s.tPos fun m => f (s.nblockUsed + m)

/-- What is left of the run, and the text after it. -/
def pending (f : ℕ → UInt8) (nblock : ℕ) (s : Output τ) : List UInt8 :=
  List.replicate s.stateOutLen s.stateOutCh ++ (rest f nblock s.nblockUsed).1

theorem fetch {tPos : τ} {used : ℕ} (h : Produces get tPos fun m => f (used + m)) :
    ∃ tPos', get tPos = some (some (f used, tPos')) ∧
      Produces get tPos' fun m => f (used + 1 + m) := by
  obtain ⟨tPos', hget, hrest⟩ := first_of_produces h
  refine ⟨tPos', hget, ?_⟩
  simpa only [Nat.add_assoc] using hrest

/-- One byte of a run. -/
theorem sameByte_eq (h : s.At get f nblock) (more : Output τ → Option (Expanded τ)) :
    ∃ t : Output τ, t.At get f nblock ∧
      t = { s with tPos := t.tPos, nblockUsed := s.nblockUsed + 1, k0 := t.k0 } ∧
      (f s.nblockUsed = s.k0 → t.k0 = s.k0) ∧
      sameByte get nblock s more =
        if s.nblockUsed = nblock ∨ f s.nblockUsed ≠ s.k0 then some (.intact t) else more t := by
  obtain ⟨tPos, hget, hsource⟩ := fetch h.source
  rw [sameByte, hget]
  dsimp only
  by_cases hsame : f s.nblockUsed = s.k0
  · refine ⟨{ s with tPos, nblockUsed := s.nblockUsed + 1 }, ⟨fun _ => hsame.symm, hsource⟩, rfl,
      fun _ => rfl, ?_⟩
    by_cases hend : s.nblockUsed = nblock
    · rw [if_pos (by omega), if_pos (Or.inl hend)]
    · rw [if_neg (by omega), if_neg (not_not.mpr hsame), if_neg]
      rintro (hend' | hne)
      · exact hend hend'
      · exact hne hsame
  · by_cases hend : s.nblockUsed = nblock
    · refine ⟨{ s with tPos, nblockUsed := s.nblockUsed + 1 }, ⟨?_, hsource⟩, rfl,
        fun hsame' => absurd hsame' hsame, ?_⟩
      · intro hle
        exact absurd hle (Nat.not_le.mpr (hend ▸ Nat.lt_succ_self _))
      · rw [if_pos (by omega), if_pos (Or.inl hend)]
    · refine ⟨{ s with tPos, nblockUsed := s.nblockUsed + 1, k0 := f s.nblockUsed },
        ⟨fun _ => rfl, hsource⟩, rfl, fun hsame' => absurd hsame' hsame, ?_⟩
      rw [if_neg (by omega), if_pos hsame, if_pos (Or.inr hsame)]

theorem countByte_eq (h : s.At get f nblock) :
    ∃ t : Output τ, t.At get f nblock ∧
      t = { s with tPos := t.tPos, nblockUsed := s.nblockUsed + 2, k0 := t.k0,
                   stateOutLen := (f s.nblockUsed).toNat + 4 } ∧
      countByte get s = some (.intact t) := by
  obtain ⟨tPos, hget, hsource⟩ := fetch h.source
  obtain ⟨tPos', hget', hsource'⟩ := fetch hsource
  rw [countByte, hget]
  dsimp only
  rw [hget']
  exact ⟨_, ⟨fun _ => rfl, hsource'⟩, rfl, rfl⟩

/-- The rest of a run of more than one byte. -/
theorem longRun_eq (h : s.At get f nblock) :
    ∃ t : Output τ, t.At get f nblock ∧
      t = { s with tPos := t.tPos, k0 := t.k0,
                   stateOutLen := (longAt f nblock s.k0 s.nblockUsed).1
                   nblockUsed := (longAt f nblock s.k0 s.nblockUsed).2 } ∧
      longRun get nblock s = some (.intact t) := by
  rw [longRun, longAt]
  obtain ⟨t, ht, hfields, hk0, heq⟩ := sameByte_eq (s := { s with stateOutLen := 2 })
    ⟨h.k0, h.source⟩ fun s =>
      sameByte get nblock { s with stateOutLen := 3 } fun s => countByte get s
  rw [heq]
  dsimp only at hfields hk0 ⊢
  split
  · exact ⟨t, ht, hfields, rfl⟩
  rename_i hmore
  obtain ⟨-, hsame⟩ := not_or.mp hmore
  rw [not_not] at hsame
  rw [hk0 hsame] at hfields
  have hused : t.nblockUsed = s.nblockUsed + 1 := by rw [hfields]
  obtain ⟨u, hu, hfields', hk0', heq'⟩ := sameByte_eq (s := { t with stateOutLen := 3 })
    ⟨ht.k0, ht.source⟩ fun s => countByte get s
  rw [heq']
  dsimp only at hfields' hk0' ⊢
  rw [hused, hk0 hsame]
  split
  · refine ⟨u, hu, ?_, rfl⟩
    rw [hfields', hfields]
  rename_i hmore'
  obtain ⟨v, hv, hfields'', heq''⟩ := countByte_eq hu
  refine ⟨v, hv, ?_, heq''⟩
  have hused' : u.nblockUsed = s.nblockUsed + 2 := by rw [hfields', hfields]
  rw [hfields'', hused', hfields', hfields]

/-- A new run in the plain version. -/
theorem startRun_eq (h : s.At get f nblock) (hle : s.nblockUsed ≤ nblock) :
    ∃ tPos k0, At get f nblock { s with tPos, k0, nblockUsed := (runAt f nblock s.nblockUsed).2 } ∧
      startRun get nblock s = some (.intact { s with
        tPos, k0, nblockUsed := (runAt f nblock s.nblockUsed).2
        stateOutLen := (runAt f nblock s.nblockUsed).1
        stateOutCh := f (s.nblockUsed - 1) }) := by
  obtain ⟨t, ht, hfields, hk0, heq⟩ := sameByte_eq
    (s := { s with stateOutLen := 1, stateOutCh := s.k0 }) ⟨h.k0, h.source⟩ fun s =>
      longRun get nblock s
  rw [startRun, heq, runAt, ← h.k0 hle]
  dsimp only at hfields hk0 ⊢
  split
  · rw [hfields] at ht
    refine ⟨t.tPos, t.k0, ⟨ht.k0, ht.source⟩, ?_⟩
    exact congrArg (fun t => some (Expanded.intact t)) hfields
  rename_i hmore
  obtain ⟨-, hsame⟩ := not_or.mp hmore
  rw [not_not] at hsame
  rw [hk0 hsame] at hfields
  obtain ⟨u, hu, hfields', heq'⟩ := longRun_eq ht
  have hused : t.nblockUsed = s.nblockUsed + 1 := by rw [hfields]
  rw [hused, hk0 hsame, hfields] at hfields'
  rw [hfields'] at hu
  refine ⟨u.tPos, u.k0, ⟨hu.k0, hu.source⟩, ?_⟩
  rw [heq']
  exact congrArg (fun t => some (Expanded.intact t)) hfields'

/-- A new run in the fast version. -/
theorem startFast_eq (h : s.At get f nblock) (hle : s.nblockUsed ≤ nblock) :
    ∃ tPos k0, At get f nblock { s with tPos, k0, nblockUsed := (runAt f nblock s.nblockUsed).2 } ∧
      ((runAt f nblock s.nblockUsed).1 = 1 ∧
        startFast get nblock s = some (.one { s with
          tPos, k0, nblockUsed := (runAt f nblock s.nblockUsed).2
          stateOutCh := f (s.nblockUsed - 1) }) ∨
      startFast get nblock s = some (.many { s with
        tPos, k0, nblockUsed := (runAt f nblock s.nblockUsed).2
        stateOutLen := (runAt f nblock s.nblockUsed).1
        stateOutCh := f (s.nblockUsed - 1) })) := by
  obtain ⟨tPos, hget, hsource⟩ := fetch h.source
  rw [startFast]
  dsimp only
  rw [hget, runAt, ← h.k0 hle]
  dsimp only
  by_cases hsame : f s.nblockUsed = s.k0
  · by_cases hend : s.nblockUsed = nblock
    · rw [if_pos (Or.inl hend), if_neg (not_not.mpr hsame), if_pos (by omega)]
      exact ⟨tPos, s.k0, ⟨fun _ => hsame.symm, hsource⟩, .inl ⟨rfl, rfl⟩⟩
    · rw [if_neg (not_or.mpr ⟨hend, not_not.mpr hsame⟩), if_neg (not_not.mpr hsame),
        if_neg (by omega)]
      obtain ⟨u, hu, hfields, heq⟩ := longRun_eq
        (s := { s with stateOutCh := s.k0, tPos, nblockUsed := s.nblockUsed + 1 })
        ⟨fun _ => hsame.symm, hsource⟩
      rw [heq]
      dsimp only at hfields ⊢
      rw [hfields] at hu
      refine ⟨u.tPos, u.k0, ⟨hu.k0, hu.source⟩, .inr ?_⟩
      exact congrArg (fun t => some (Started.many t)) hfields
  · rw [if_pos (Or.inr hsame), if_pos hsame]
    exact ⟨tPos, f s.nblockUsed, ⟨fun _ => rfl, hsource⟩, .inl ⟨rfl, rfl⟩⟩

theorem pos_runAt (used : ℕ) : 0 < (runAt f nblock used).1 := by
  unfold runAt longAt
  split
  · exact Nat.one_pos
  · split
    · exact Nat.succ_pos 1
    · split
      · exact Nat.succ_pos 2
      · exact Nat.succ_pos _

/-- What was written between two states. -/
structure Wrote (s s' : Output τ) (bytes : List UInt8) : Prop where
  out : s'.out = s.out ++ bytes
  crc : s'.calculatedBlockCRC = bytes.foldl updateCRC s.calculatedBlockCRC
  availOut : s.availOut = s'.availOut + bytes.length

theorem Wrote.nil (s : Output τ) : Wrote s s [] :=
  ⟨(List.append_nil _).symm, rfl, rfl⟩

theorem Wrote.putByte {s s' : Output τ} {bytes : List UInt8} (havail : s.availOut ≠ 0)
    (h : Wrote s.putByte s' bytes) : Wrote s s' (s.stateOutCh :: bytes) := by
  refine ⟨?_, h.crc, ?_⟩
  · rw [h.out]
    exact List.append_assoc _ _ _
  · have heq := h.availOut
    change s.availOut - 1 = _ at heq
    rw [List.length_cons]
    omega

/-- The end of a call when `text` was still to come: either as much of it as there was space
for was written, or the whole of it and the block is corrupt. -/
inductive Ends (get : τ → Option (Option (UInt8 × τ))) (f : ℕ → UInt8) (nblock : ℕ)
    (s : Output τ) (text : List UInt8 × Bool) : Expanded τ → Prop where
  | intact {s' : Output τ} (at_ : s'.At get f nblock)
      (wrote : Wrote s s' (text.1.take s.availOut))
      (pending_eq : pending f nblock s' = text.1.drop s.availOut)
      (corrupt_eq : (rest f nblock s'.nblockUsed).2 = text.2)
      (stops : s'.availOut = 0 ∨ text.2 = false) : Ends get f nblock s text (.intact s')
  | corrupt {s' : Output τ} (wrote : Wrote s s' text.1) (is_corrupt : text.2 = true) :
      Ends get f nblock s text (.corrupt s')

theorem Ends.of_fields {r : Expanded τ} {text : List UInt8 × Bool}
    (h : Ends get f nblock t text r) (hout : t.out = s.out)
    (hcrc : t.calculatedBlockCRC = s.calculatedBlockCRC) (havail : t.availOut = s.availOut) :
    Ends get f nblock s text r := by
  have hwrote : ∀ {s' bytes}, Wrote t s' bytes → Wrote s s' bytes := fun h =>
    ⟨hout ▸ h.out, hcrc ▸ h.crc, havail ▸ h.availOut⟩
  cases h with
  | intact at_ wrote pending_eq corrupt_eq stops =>
      rw [havail] at wrote pending_eq
      exact .intact at_ (hwrote wrote) pending_eq corrupt_eq stops
  | corrupt wrote is_corrupt => exact .corrupt (hwrote wrote) is_corrupt

theorem Ends.putByte {r : Expanded τ} {text : List UInt8} {bad : Bool}
    (h : Ends get f nblock s.putByte (text, bad) r) (havail : s.availOut ≠ 0) :
    Ends get f nblock s (s.stateOutCh :: text, bad) r := by
  obtain ⟨left, hleft⟩ := Nat.exists_eq_succ_of_ne_zero havail
  have hrest : s.putByte.availOut = left := by
    change s.availOut - 1 = left
    rw [hleft, Nat.succ_sub_one]
  cases h with
  | intact at_ wrote pending_eq corrupt_eq stops =>
      rw [hrest] at wrote pending_eq
      refine .intact at_ ?_ ?_ corrupt_eq stops
      · rw [hleft, List.take_succ_cons]
        exact wrote.putByte havail
      · rw [hleft, List.drop_succ_cons]
        exact pending_eq
  | corrupt wrote is_corrupt => exact .corrupt (wrote.putByte havail) is_corrupt

/-- There is no more space. -/
theorem Ends.full {text : List UInt8 × Bool} (h : s.At get f nblock) (havail : s.availOut = 0)
    (hpending : pending f nblock s = text.1) (hcorrupt : (rest f nblock s.nblockUsed).2 = text.2) :
    Ends get f nblock s text (.intact s) := by
  refine .intact h ?_ ?_ hcorrupt (.inl havail)
  · rw [havail, List.take_zero]
    exact Wrote.nil s
  · rw [havail, List.drop_zero]
    exact hpending

theorem rest_of_le {used : ℕ} (hle : used ≤ nblock) :
    rest f nblock used =
      (List.replicate (runAt f nblock used).1 (f (used - 1)) ++
        (rest f nblock (runAt f nblock used).2).1, (rest f nblock (runAt f nblock used).2).2) := by
  rw [rest, if_pos hle]

theorem rest_of_lt {used : ℕ} (hlt : nblock < used) :
    rest f nblock used = ([], decide (nblock + 1 < used)) := by
  rw [rest, if_neg (Nat.not_le.mpr hlt)]

/-- All was written. -/
theorem Ends.all (h : s.At get f nblock) (hlen : s.stateOutLen = 0)
    (hused : s.nblockUsed = nblock + 1) :
    Ends get f nblock s (rest f nblock s.nblockUsed) (.intact s) := by
  have hrest : rest f nblock s.nblockUsed = ([], false) := by
    rw [rest_of_lt (Nat.lt_of_lt_of_eq (Nat.lt_succ_self nblock) hused.symm), hused,
      decide_eq_false (Nat.lt_irrefl _)]
  rw [hrest]
  refine .intact h ?_ ?_ (congrArg Prod.snd hrest) (.inr rfl)
  · rw [List.take_nil]
    exact Wrote.nil s
  · rw [List.drop_nil, pending, hlen, hrest]
    rfl

/-- All was written, and the last run reached over the end of the block. -/
theorem Ends.over (hused : nblock + 1 < s.nblockUsed) :
    Ends get f nblock s (rest f nblock s.nblockUsed) (.corrupt s) := by
  rw [rest_of_lt (Nat.lt_of_succ_lt hused), decide_eq_true hused]
  exact .corrupt (Wrote.nil s) rfl

theorem pending_of_pos (hlen : 0 < s.stateOutLen) :
    pending f nblock s =
      s.stateOutCh :: pending f nblock { s.putByte with stateOutLen := s.stateOutLen - 1 } := by
  obtain ⟨left, hleft⟩ := Nat.exists_eq_succ_of_ne_zero (Nat.ne_of_gt hlen)
  unfold pending
  rw [hleft]
  rfl

theorem pending_of_zero (hlen : s.stateOutLen = 0) :
    pending f nblock s = (rest f nblock s.nblockUsed).1 := by
  rw [pending, hlen]
  rfl

/-- The plain version, for every block. -/
theorem expand_ends (h : s.At get f nblock) :
    ∃ r, expand get nblock s = some r ∧
      Ends get f nblock s (pending f nblock s, (rest f nblock s.nblockUsed).2) r := by
  fun_induction expand get nblock s with
  | case1 s havail => exact ⟨_, rfl, .full h havail rfl rfl⟩
  | case2 s havail hlen ih =>
      obtain ⟨r, hr, hends⟩ := ih ⟨h.k0, h.source⟩
      refine ⟨r, hr, ?_⟩
      rw [pending_of_pos hlen]
      exact Ends.putByte (hends.of_fields rfl rfl rfl) havail
  | case3 s havail hlen hused =>
      have hzero := Nat.eq_zero_of_not_pos hlen
      rw [pending_of_zero hzero]
      exact ⟨_, rfl, .all h hzero hused⟩
  | case4 s havail hlen hused hover =>
      rw [pending_of_zero (Nat.eq_zero_of_not_pos hlen)]
      exact ⟨_, rfl, .over hover⟩
  | case5 s havail hlen hused hover hstart =>
      obtain ⟨_, _, _, heq⟩ := startRun_eq h (by omega)
      rw [hstart] at heq
      cases heq
  | case6 s havail hlen hused hover s' hstart =>
      obtain ⟨_, _, _, heq⟩ := startRun_eq h (by omega)
      rw [hstart] at heq
      cases heq
  | case7 s havail hlen hused hover s' hstart ih =>
      obtain ⟨tPos, k0, hat, heq⟩ := startRun_eq h (by omega)
      rw [hstart] at heq
      cases heq
      obtain ⟨r, hr, hends⟩ := ih ⟨hat.k0, hat.source⟩
      refine ⟨r, hr, ?_⟩
      rw [pending_of_zero (Nat.eq_zero_of_not_pos hlen), rest_of_le (by omega)]
      exact hends.of_fields rfl rfl rfl

/-- The text that is still to come at a place of the fast version. -/
def pendingAt (f : ℕ → UInt8) (nblock : ℕ) (label : FastLabel) (s : Output τ) : List UInt8 :=
  match label with
  | .run => pending f nblock s
  | .lenEqOne => s.stateOutCh :: (rest f nblock s.nblockUsed).1
  | .newRun => (rest f nblock s.nblockUsed).1

/-- The fast version, for every block. -/
theorem expandFast_ends {label : FastLabel} (h : s.At get f nblock) :
    ∃ r, expandFast get nblock label s = some r ∧
      Ends get f nblock s (pendingAt f nblock label s, (rest f nblock s.nblockUsed).2) r := by
  fun_induction expandFast get nblock label s with
  | case1 s hlen havail => exact ⟨_, rfl, .full h havail rfl rfl⟩
  | case2 s hlen havail hone ih =>
      obtain ⟨r, hr, hends⟩ := ih h
      refine ⟨r, hr, ?_⟩
      rw [pendingAt, pending, hone]
      exact hends
  | case3 s hlen havail hone ih =>
      obtain ⟨r, hr, hends⟩ := ih ⟨h.k0, h.source⟩
      refine ⟨r, hr, ?_⟩
      rw [pendingAt, pending_of_pos hlen]
      exact Ends.putByte (hends.of_fields rfl rfl rfl) havail
  | case4 s hlen ih =>
      obtain ⟨r, hr, hends⟩ := ih h
      refine ⟨r, hr, ?_⟩
      rw [pendingAt, pending_of_zero (Nat.eq_zero_of_not_pos hlen)]
      exact hends
  | case5 s havail =>
      have hfull : Ends get f nblock { s with stateOutLen := 1 }
          (s.stateOutCh :: (rest f nblock s.nblockUsed).1, (rest f nblock s.nblockUsed).2)
          (.intact { s with stateOutLen := 1 }) :=
        .full ⟨h.k0, h.source⟩ havail rfl rfl
      exact ⟨_, rfl, hfull.of_fields rfl rfl rfl⟩
  | case6 s havail ih =>
      obtain ⟨r, hr, hends⟩ := ih ⟨h.k0, h.source⟩
      exact ⟨r, hr, hends.putByte havail⟩
  | case7 s hover => exact ⟨_, rfl, .over hover⟩
  | case8 s hover hused =>
      exact ⟨_, rfl, (Ends.all (s := { s with stateOutLen := 0 }) ⟨h.k0, h.source⟩ rfl
        hused).of_fields rfl rfl rfl⟩
  | case9 s hover hused hstart =>
      obtain ⟨_, _, _, ⟨-, heq⟩ | heq⟩ := startFast_eq h (by omega)
      all_goals
        rw [hstart] at heq
        cases heq
  | case10 s hover hused s' hstart =>
      obtain ⟨_, _, _, ⟨-, heq⟩ | heq⟩ := startFast_eq h (by omega)
      all_goals
        rw [hstart] at heq
        cases heq
  | case11 s hover hused s' hstart ih =>
      obtain ⟨tPos, k0, hat, ⟨hone, heq⟩ | heq⟩ := startFast_eq h (by omega)
      · rw [hstart] at heq
        cases heq
        obtain ⟨r, hr, hends⟩ := ih ⟨hat.k0, hat.source⟩
        refine ⟨r, hr, ?_⟩
        rw [pendingAt, rest_of_le (by omega), hone]
        exact hends.of_fields rfl rfl rfl
      · rw [hstart] at heq
        cases heq
  | case12 s hover hused s' hstart ih =>
      obtain ⟨tPos, k0, hat, ⟨hone, heq⟩ | heq⟩ := startFast_eq h (by omega)
      · rw [hstart] at heq
        cases heq
      · rw [hstart] at heq
        cases heq
        obtain ⟨r, hr, hends⟩ := ih ⟨hat.k0, hat.source⟩
        refine ⟨r, hr, ?_⟩
        rw [pendingAt, rest_of_le (by omega)]
        exact hends.of_fields rfl rfl rfl

/-! ## Calls with one buffer after the other -/

/-- Calls with space for so many bytes each, until one returns `True`. -/
def calls (unRLE : Output τ → Option (Expanded τ)) : List ℕ → Output τ → Option (Expanded τ)
  | [], s => some (.intact s)
  | availOut :: sizes, s =>
      match unRLE { s with availOut } with
      | none => none
      | some (.corrupt s) => some (.corrupt s)
      | some (.intact s) => calls unRLE sizes s

/-- After some calls: the first bytes of `text` were written, as many as there was space for,
and what is left is still to come. -/
inductive Delivers (get : τ → Option (Option (UInt8 × τ))) (f : ℕ → UInt8) (nblock : ℕ)
    (s : Output τ) (text : List UInt8 × Bool) (space : ℕ) : Expanded τ → Prop where
  | intact {s' : Output τ} (at_ : s'.At get f nblock)
      (out : s'.out = s.out ++ text.1.take space)
      (crc : s'.calculatedBlockCRC = (text.1.take space).foldl updateCRC s.calculatedBlockCRC)
      (pending_eq : pending f nblock s' = text.1.drop space)
      (corrupt_eq : (rest f nblock s'.nblockUsed).2 = text.2) :
      Delivers get f nblock s text space (.intact s')
  | corrupt {s' : Output τ} (out : s'.out = s.out ++ text.1)
      (crc : s'.calculatedBlockCRC = text.1.foldl updateCRC s.calculatedBlockCRC)
      (is_corrupt : text.2 = true) (enough : text.1.length ≤ space) :
      Delivers get f nblock s text space (.corrupt s')

theorem calls_delivers {unRLE : Output τ → Option (Expanded τ)}
    (hcall : ∀ s : Output τ, s.At get f nblock → ∃ r, unRLE s = some r ∧
      Ends get f nblock s (pending f nblock s, (rest f nblock s.nblockUsed).2) r)
    (sizes : List ℕ) (h : s.At get f nblock) :
    ∃ r, calls unRLE sizes s = some r ∧
      Delivers get f nblock s (pending f nblock s, (rest f nblock s.nblockUsed).2) sizes.sum r := by
  induction sizes generalizing s with
  | nil =>
      refine ⟨_, rfl, .intact h ?_ rfl rfl rfl⟩
      exact (List.append_nil _).symm
  | cons availOut sizes ih =>
      obtain ⟨r, hr, hends⟩ := hcall { s with availOut } ⟨h.k0, h.source⟩
      rw [calls, hr, List.sum_cons]
      cases hends with
      | intact at_ wrote pending_eq corrupt_eq stops =>
          rename_i t
          obtain ⟨r', hr', hdelivers⟩ := ih at_
          refine ⟨r', hr', ?_⟩
          change pending f nblock t = (pending f nblock s).drop availOut at pending_eq
          change (rest f nblock t.nblockUsed).2 = (rest f nblock s.nblockUsed).2 at corrupt_eq
          have hout : t.out = s.out ++ (pending f nblock s).take availOut := wrote.out
          have hcrc : t.calculatedBlockCRC =
            ((pending f nblock s).take availOut).foldl updateCRC s.calculatedBlockCRC := wrote.crc
          rw [pending_eq, corrupt_eq] at hdelivers
          cases hdelivers with
          | intact at_ out crc pending_eq' corrupt_eq' =>
              dsimp only at out crc pending_eq' corrupt_eq'
              refine .intact at_ ?_ ?_ ?_ corrupt_eq'
              · rw [out, hout, List.append_assoc, ← List.take_add]
              · rw [crc, hcrc, ← List.foldl_append, ← List.take_add]
              · rw [pending_eq', List.drop_drop]
          | corrupt out crc is_corrupt enough =>
              dsimp only at out crc is_corrupt enough
              refine .corrupt ?_ ?_ is_corrupt ?_
              · rw [out, hout, List.append_assoc, List.take_append_drop]
              · rw [crc, hcrc, ← List.foldl_append, List.take_append_drop]
              · rw [List.length_drop] at enough
                dsimp only
                omega
      | corrupt wrote is_corrupt =>
          refine ⟨_, rfl, .corrupt wrote.out wrote.crc is_corrupt ?_⟩
          calc (pending f nblock s).length
              ≤ _ + (pending f nblock s).length := Nat.le_add_left _ _
            _ = availOut := wrote.availOut.symm
            _ ≤ availOut + sizes.sum := Nat.le_add_right _ _

theorem Delivers.written_eq {r : Expanded τ} {text : List UInt8 × Bool} {space : ℕ}
    (h : Delivers get f nblock s text space r) :
    r.written = (s.out ++ text.1.take space,
      (text.1.take space).foldl updateCRC s.calculatedBlockCRC) := by
  cases h with
  | intact at_ out crc pending_eq corrupt_eq => exact Prod.ext out crc
  | corrupt out crc is_corrupt enough =>
      rw [List.take_of_length_le enough]
      exact Prod.ext out crc

/-- Whatever a block is, corrupt or not, both versions write the same bytes into the buffers that
they get. -/
theorem expandFast_writes_alike (h : s.At get f nblock) (sizes : List ℕ) :
    ∃ r r', calls (expand get nblock) sizes s = some r ∧
      calls (expandFast get nblock .run) sizes s = some r' ∧ r.written = r'.written := by
  obtain ⟨r, hr, hplain⟩ := calls_delivers (fun _ hs => expand_ends hs) sizes h
  obtain ⟨r', hr', hfast⟩ : ∃ r, calls (expandFast get nblock .run) sizes s = some r ∧ _ :=
    calls_delivers (fun _ hs => expandFast_ends hs) sizes h
  exact ⟨r, r', hr, hr', hplain.written_eq.trans hfast.written_eq.symm⟩

theorem expandFast_writes_alike_zeros :
    ∃ r r', calls (expand (fun n : ℕ => some (some (0, n + 1))) 9) [2, 3]
        ⟨0, 0, 1, 0, 0, initialiseCRC, [], 0⟩ = some r ∧
      calls (expandFast (fun n : ℕ => some (some (0, n + 1))) 9 .run) [2, 3]
        ⟨0, 0, 1, 0, 0, initialiseCRC, [], 0⟩ = some r' ∧ r.written = r'.written :=
  expandFast_writes_alike (f := fun _ => 0) ⟨fun _ => rfl, fun n => n, rfl, fun _ => rfl⟩ [2, 3]

/-! ## The runs of the encoder -/

section Runs

variable {block pre bytes tail : List UInt8} {b c : UInt8} {runs : List RunOf} {k n : ℕ}

theorem byte_eq (hf : ∀ i b, block[i]? = some b → f i = b) (hblock : block = pre ++ bytes)
    (hbyte : bytes[k]? = some b) : pre.length + k ≠ block.length ∧ f (pre.length + k) = b := by
  have hget : block[pre.length + k]? = some b := by
    rw [hblock, List.getElem?_append_right (Nat.le_add_right _ _), Nat.add_sub_cancel_left]
    exact hbyte
  obtain ⟨hlt, -⟩ := List.getElem?_eq_some_iff.mp hget
  exact ⟨Nat.ne_of_lt hlt, hf _ _ hget⟩

/-- After a run of less than four bytes there is another byte or the end of the block. -/
theorem stops_of_proper (hproper : Proper ((c, n) :: runs)) (hn : n < 4) :
    codeOf runs = [] ∨ ∃ d tail, codeOf runs = d :: tail ∧ d ≠ c := by
  cases runs with
  | nil => exact .inl rfl
  | cons next runs =>
      obtain ⟨d, m⟩ := next
      have hpos : 0 < m := (hproper.1 (d, m) (List.mem_cons_of_mem _ List.mem_cons_self)).1
      have hfollows : Follows (c, n) (d, m) := (List.isChain_cons_cons.mp hproper.2).1
      have hne : d ≠ c := fun heq => by
        rcases hfollows with hne | hlong
        · exact hne heq.symm
        · exact absurd hn (Nat.not_lt.mpr hlong)
      obtain ⟨k, rfl⟩ := Nat.exists_eq_succ_of_ne_zero (Nat.ne_of_gt hpos)
      refine .inr ?_
      rw [codeOf, List.flatMap_cons, RunOf.code]
      dsimp only
      split
      · exact ⟨d, _, rfl, hne⟩
      · exact ⟨d, _, rfl, hne⟩

theorem end_or_ne (hf : ∀ i b, block[i]? = some b → f i = b)
    (hblock : block = pre ++ (bytes ++ tail)) (hlen : bytes.length = k)
    (hstops : tail = [] ∨ ∃ d tail', tail = d :: tail' ∧ d ≠ c) :
    pre.length + k = block.length ∨ f (pre.length + k) ≠ c := by
  rcases hstops with rfl | ⟨d, tail', rfl, hne⟩
  · exact .inl (by rw [hblock, List.append_nil, List.length_append, hlen])
  · refine .inr ?_
    have hbyte : (bytes ++ d :: tail')[k]? = some d := by
      rw [← hlen, List.getElem?_append_right (Nat.le_refl _), Nat.sub_self]
      rfl
    rw [(byte_eq hf hblock hbyte).2]
    exact hne

/-- A run is found again at its place. -/
theorem runAt_eq (hf : ∀ i b, block[i]? = some b → f i = b)
    (hblock : block = pre ++ (RunOf.code (c, n) ++ codeOf runs))
    (hproper : Proper ((c, n) :: runs)) :
    pre.length ≠ block.length ∧ f pre.length = c ∧
      runAt f block.length (pre.length + 1) =
        (n, (pre ++ RunOf.code (c, n)).length + 1) := by
  obtain ⟨hpos, hlen⟩ := hproper.1 (c, n) List.mem_cons_self
  dsimp only at hpos hlen
  have hbyte := fun k b => byte_eq (k := k) (b := b) hf hblock
  have hends := fun k hk hn => end_or_ne (k := k) hf hblock hk (stops_of_proper hproper hn)
  rw [List.length_append]
  match n with
  | 0 => exact absurd hpos (Nat.lt_irrefl 0)
  | 1 =>
      obtain ⟨hin, hfirst⟩ : pre.length ≠ block.length ∧ f pre.length = c := hbyte 0 c rfl
      have hend := hends 1 rfl (by decide)
      refine ⟨hin, hfirst, ?_⟩
      rw [runAt, Nat.add_sub_cancel, hfirst, if_pos hend]
      rfl
  | 2 =>
      obtain ⟨hin, hfirst⟩ : pre.length ≠ block.length ∧ f pre.length = c := hbyte 0 c rfl
      obtain ⟨hin', hsecond⟩ := hbyte 1 c rfl
      have hend := hends 2 rfl (by decide)
      refine ⟨hin, hfirst, ?_⟩
      rw [runAt, Nat.add_sub_cancel, hfirst, if_neg (not_or.mpr ⟨hin', not_not.mpr hsecond⟩),
        longAt, if_pos hend]
      rfl
  | 3 =>
      obtain ⟨hin, hfirst⟩ : pre.length ≠ block.length ∧ f pre.length = c := hbyte 0 c rfl
      obtain ⟨hin', hsecond⟩ := hbyte 1 c rfl
      obtain ⟨hin'', hthird⟩ := hbyte 2 c rfl
      have hend := hends 3 rfl (by decide)
      refine ⟨hin, hfirst, ?_⟩
      rw [runAt, Nat.add_sub_cancel, hfirst, if_neg (not_or.mpr ⟨hin', not_not.mpr hsecond⟩),
        longAt, if_neg (not_or.mpr ⟨hin'', not_not.mpr hthird⟩), if_pos hend]
      rfl
  | m + 4 =>
      obtain ⟨hin, hfirst⟩ : pre.length ≠ block.length ∧ f pre.length = c := hbyte 0 c rfl
      obtain ⟨hin', hsecond⟩ := hbyte 1 c rfl
      obtain ⟨hin'', hthird⟩ := hbyte 2 c rfl
      obtain ⟨hin3, hfourth⟩ := hbyte 3 c rfl
      obtain ⟨-, hcount⟩ := hbyte 4 (.ofNat m) rfl
      have hm : (UInt8.ofNat m).toNat = m := by
        rw [UInt8.toNat_ofNat', Nat.mod_eq_of_lt (by omega)]
      refine ⟨hin, hfirst, ?_⟩
      rw [runAt, Nat.add_sub_cancel, hfirst, if_neg (not_or.mpr ⟨hin', not_not.mpr hsecond⟩),
        longAt, if_neg (not_or.mpr ⟨hin'', not_not.mpr hthird⟩),
        if_neg (not_or.mpr ⟨hin3, not_not.mpr hfourth⟩)]
      change ((f (pre.length + 4)).toNat + 4, _) = _
      rw [hcount, hm]
      rfl

/-- The text of a block that the encoder made. -/
theorem rest_eq (hf : ∀ i b, block[i]? = some b → f i = b) (hblock : block = pre ++ codeOf runs)
    (hproper : Proper runs) : rest f block.length (pre.length + 1) = (textOf runs, false) := by
  induction runs generalizing pre with
  | nil =>
      have hlen : block.length = pre.length := by
        rw [hblock, codeOf, List.flatMap_nil, List.append_nil]
      rw [hlen, rest_of_lt (Nat.lt_succ_self _), decide_eq_false (Nat.lt_irrefl _)]
      rfl
  | cons run runs ih =>
      obtain ⟨c, n⟩ := run
      rw [codeOf, List.flatMap_cons, ← codeOf] at hblock
      obtain ⟨hin, hfirst, hrun⟩ := runAt_eq hf hblock hproper
      have hle : pre.length ≤ block.length := by
        rw [hblock, List.length_append]
        exact Nat.le_add_right _ _
      rw [← List.append_assoc] at hblock
      have hrest := ih hblock
        ⟨fun run hrun => hproper.1 run (List.mem_cons_of_mem _ hrun), hproper.2.tail⟩
      have hlt : pre.length + 1 ≤ block.length := Nat.lt_of_le_of_ne hle hin
      rw [rest_of_le hlt, Nat.add_sub_cancel, hfirst, hrun, hrest]
      have htext : textOf ((c, n) :: runs) = RunOf.bytes (c, n) ++ textOf runs := List.flatMap_cons
      rw [htext]
      rfl

end Runs

end Spec

section Text

/-- The text of which a block is collected is written again by either version, as far as there is
space for it in the buffers, and with the same checksum. -/
theorem text_written_again (memory : Collector) {nblockMAX size : ℕ} (hroom : nblockMAX + 9 ≤ size)
    (input : List UInt8) :
    ∃ s left s' text,
      memory.initRL.prepareNewBlock.copyInputUntilStop nblockMAX size input = some (s, left) ∧
      s.flushRL size = some s' ∧ input = text ++ left ∧
      (left ≠ [] → nblockMAX ≤ s.block.length) ∧ finaliseCRC s'.blockCRC = checksum text ∧
      ∀ {get : τ → Option (Option (UInt8 × τ))} {f : ℕ → UInt8} {o : Output τ},
        o.At get f s'.block.length → o.stateOutLen = 0 → o.nblockUsed = 1 →
        (∀ (m : ℕ) (c : UInt8), s'.block[m]? = some c → f m = c) →
        ∀ unRLE, unRLE = expand get s'.block.length ∨ unRLE = expandFast get s'.block.length .run →
        ∀ sizes : List ℕ, ∃ r, calls unRLE sizes o = some r ∧
          r.written = (o.out ++ text.take sizes.sum,
            (text.take sizes.sum).foldl updateCRC o.calculatedBlockCRC) := by
  have hstart := Collector.holds_init memory
  obtain ⟨⟨s, left⟩, hcopy, runs, taken, hs, hinput, htext, hlength, -, hstop⟩ :=
    hstart.returns_copyInputUntilStop (show nblockMAX + 4 ≤ size by omega)
      (show 0 ≤ nblockMAX + 4 from Nat.zero_le _) input
  obtain ⟨s', hflush, hstored, -⟩ := hs.returns_flushRL (show s.block.length + 5 ≤ size by omega)
  have htaken : textOf (runs ++ s.pending) = taken := htext
  refine ⟨s, left, s', taken, hcopy, hflush, hinput, hstop, ?_, ?_⟩
  · rw [hstored.crc, htaken]
    rfl
  · intro get f o hat hlen hused hf unRLE hunRLE sizes
    have hpre : s'.block = [] ++ codeOf (runs ++ s.pending) := hstored.block
    have hrest : rest f s'.block.length o.nblockUsed = (taken, false) := by
      rw [hused, ← htaken]
      exact rest_eq hf hpre hs.proper
    have hcall : ∀ o : Output τ, o.At get f s'.block.length → ∃ r, unRLE o = some r ∧
        Ends get f s'.block.length o
          (pending f s'.block.length o, (rest f s'.block.length o.nblockUsed).2) r := by
      intro o ho
      rcases hunRLE with rfl | rfl
      · exact expand_ends ho
      · exact expandFast_ends ho
    obtain ⟨r, hr, hdelivers⟩ := calls_delivers hcall sizes hat
    refine ⟨r, hr, ?_⟩
    rw [hdelivers.written_eq, pending_of_zero hlen, hrest]

theorem text_written_again_letters :
    ∃ s left s' text, Collector.copyInputUntilStop 4 13
        (Collector.initRL ⟨0, 0, [], [], 0⟩).prepareNewBlock [0x61, 0x61] = some (s, left) ∧
      s.flushRL 13 = some s' ∧ [0x61, 0x61] = text ++ left ∧ (left ≠ [] → 4 ≤ s.block.length) ∧
      finaliseCRC s'.blockCRC = checksum text ∧
      ∀ {get : ℕ → Option (Option (UInt8 × ℕ))} {f : ℕ → UInt8} {o : Output ℕ},
        o.At get f s'.block.length → o.stateOutLen = 0 → o.nblockUsed = 1 →
        (∀ (m : ℕ) (c : UInt8), s'.block[m]? = some c → f m = c) →
        ∀ unRLE, unRLE = expand get s'.block.length ∨ unRLE = expandFast get s'.block.length .run →
        ∀ sizes : List ℕ, ∃ r, calls unRLE sizes o = some r ∧
          r.written = (o.out ++ text.take sizes.sum,
            (text.take sizes.sum).foldl updateCRC o.calculatedBlockCRC) :=
  text_written_again ⟨0, 0, [], [], 0⟩ (by decide) [0x61, 0x61]

end Text

end Output

end StudyNotes.Bzip2
