/-
# The first run-length code of bzip2

Before a block is sorted, runs of equal bytes are shortened: four bytes are followed by a
count of up to 251 more.  The encoder collects a run in `state_in_ch` and `state_in_len`;
the decoder expands the runs as far as there is space for them and goes on in the next call.
-/

import StudyNotes.Bzip2.BlockInverse
import StudyNotes.Bzip2.Crc

namespace StudyNotes.Bzip2

open StudyNotes.Checked

/-! ## Runs -/

/-- A byte and how often it stands there. -/
abbrev RunOf := UInt8 × ℕ

def RunOf.bytes (run : RunOf) : List UInt8 := List.replicate run.2 run.1

/-- The bytes in the block for a run. -/
def RunOf.code (run : RunOf) : List UInt8 :=
  if run.2 < 4 then List.replicate run.2 run.1 else List.replicate 4 run.1 ++ [.ofNat (run.2 - 4)]

/-- The text and the block of some runs. -/
def textOf (runs : List RunOf) : List UInt8 := runs.flatMap RunOf.bytes

def codeOf (runs : List RunOf) : List UInt8 := runs.flatMap RunOf.code

/-- One run can follow another. -/
def Follows (run next : RunOf) : Prop := run.1 ≠ next.1 ∨ 4 ≤ run.2

/-- Runs as the encoder makes them. -/
def Proper (runs : List RunOf) : Prop :=
  (∀ run ∈ runs, 0 < run.2 ∧ run.2 ≤ 255) ∧ runs.IsChain Follows

section Proper

variable {runs : List RunOf} {run next : RunOf}

theorem Proper.concat (h : Proper (runs ++ [run])) (hpos : 0 < next.2) (hlen : next.2 ≤ 255)
    (hnext : Follows run next) : Proper (runs ++ [run] ++ [next]) := by
  refine ⟨?_, List.isChain_append.mpr ⟨h.2, List.isChain_singleton _, ?_⟩⟩
  · intro r hr
    rcases List.mem_append.mp hr with hold | hlast
    · exact h.1 r hold
    · rw [List.mem_singleton.mp hlast]
      exact ⟨hpos, hlen⟩
  · intro x hx y hy
    rw [List.getLast?_concat, Option.mem_some_iff] at hx
    rw [List.head?_cons, Option.mem_some_iff] at hy
    rw [← hx, ← hy]
    exact hnext

/-- The last run gets longer. -/
theorem Proper.grow {ch : UInt8} {len : ℕ} (h : Proper (runs ++ [(ch, len)])) (hlen : len < 255) :
    Proper (runs ++ [(ch, len + 1)]) := by
  obtain ⟨hchain, -, hlast⟩ := List.isChain_append.mp h.2
  refine ⟨?_, List.isChain_append.mpr ⟨hchain, List.isChain_singleton _, ?_⟩⟩
  · intro r hr
    rcases List.mem_append.mp hr with hold | hnew
    · exact h.1 r (List.mem_append_left _ hold)
    · rw [List.mem_singleton.mp hnew]
      exact ⟨Nat.succ_pos len, hlen⟩
  · intro x hx y hy
    rw [List.head?_cons, Option.mem_some_iff] at hy
    rw [← hy]
    exact hlast x hx (ch, len) rfl

theorem proper_singleton (hpos : 0 < run.2) (hlen : run.2 ≤ 255) : Proper [run] := by
  refine ⟨?_, List.isChain_singleton _⟩
  intro r hr
  rw [List.mem_singleton.mp hr]
  exact ⟨hpos, hlen⟩

end Proper

/-! ## The encoder -/

/-- The fields of `EState` that collect a block: of `block` the part up to `nblock`. -/
structure Collector where
  stateInCh : ℕ
  stateInLen : ℕ
  block : List UInt8
  inUse : List Bool
  blockCRC : UInt32

namespace Collector

/-- `init_RL`. -/
def initRL (s : Collector) : Collector := { s with stateInCh := 256, stateInLen := 0 }

/-- What `prepare_new_block` does to these fields. -/
def prepareNewBlock (s : Collector) : Collector :=
  { s with block := [], inUse := List.replicate 256 false, blockCRC := initialiseCRC }

/-- `s->block[s->nblock] = ch; s->nblock++` for so many bytes. -/
def putBytes (size : ℕ) (block : List UInt8) (bytes : List UInt8) : Option (List UInt8) :=
  bytes.foldlM (push size) block

/-- `add_pair_to_block`, into a block with `size` places. -/
def addPairToBlock (size : ℕ) (s : Collector) : Option Collector := do
  let ch := UInt8.ofNat s.stateInCh
  let blockCRC := (List.replicate s.stateInLen ch).foldl updateCRC s.blockCRC
  let inUse ← write s.inUse s.stateInCh true
  match s.stateInLen with
  | 1 => return { s with blockCRC, inUse, block := ← putBytes size s.block [ch] }
  | 2 => return { s with blockCRC, inUse, block := ← putBytes size s.block [ch, ch] }
  | 3 => return { s with blockCRC, inUse, block := ← putBytes size s.block [ch, ch, ch] }
  | len =>
      let more ← index ((len : ℤ) - 4)
      let inUse ← write inUse more true
      return { s with blockCRC, inUse,
                      block := ← putBytes size s.block [ch, ch, ch, ch, .ofNat more] }

/-- `flush_RL`. -/
def flushRL (size : ℕ) (s : Collector) : Option Collector := do
  let s ← if s.stateInCh < 256 then s.addPairToBlock size else pure s
  return s.initRL

/-- `ADD_CHAR_TO_BLOCK`. -/
def addCharToBlock (size : ℕ) (s : Collector) (zchh0 : UInt8) : Option Collector := do
  let zchh := zchh0.toNat
  if zchh ≠ s.stateInCh ∧ s.stateInLen = 1 then
    let ch := UInt8.ofNat s.stateInCh
    let blockCRC := updateCRC s.blockCRC ch
    let inUse ← write s.inUse s.stateInCh true
    return { s with blockCRC, inUse, block := ← push size s.block ch, stateInCh := zchh }
  else if zchh ≠ s.stateInCh ∨ s.stateInLen = 255 then
    let s ← if s.stateInCh < 256 then s.addPairToBlock size else pure s
    return { s with stateInCh := zchh, stateInLen := 1 }
  else return { s with stateInLen := s.stateInLen + 1 }

/-- `copy_input_until_stop` where all of the input is expected, with what is left of it. -/
def copyInputUntilStop (nblockMAX size : ℕ) (s : Collector) (nextIn : List UInt8) :
    Option (Collector × List UInt8) :=
  if s.block.length ≥ nblockMAX then some (s, nextIn)
  else
    match nextIn with
    | [] => some (s, [])
    | c :: nextIn => do copyInputUntilStop nblockMAX size (← s.addCharToBlock size c) nextIn

/-- The run that is being collected. -/
def pending (s : Collector) : List RunOf :=
  if s.stateInCh < 256 then [(.ofNat s.stateInCh, s.stateInLen)] else []

/-- The bytes that occur are marked. -/
def Marks (inUse : List Bool) (block : List UInt8) : Prop :=
  inUse.length = 256 ∧ ∀ c : UInt8, inUse[c.toNat]? = some (decide (c ∈ block))

/-- The runs are in the block. -/
structure Stored (s : Collector) (runs : List RunOf) : Prop where
  block : s.block = codeOf runs
  crc : s.blockCRC = (textOf runs).foldl updateCRC initialiseCRC
  inUse : Marks s.inUse s.block

/-- The runs are in the block, and one more is being collected. -/
structure Holds (s : Collector) (runs : List RunOf) : Prop extends Stored s runs where
  proper : Proper (runs ++ s.pending)
  idle : 256 ≤ s.stateInCh → s.stateInLen = 0 ∧ runs = []

section Spec

variable {size nblockMAX : ℕ} {s : Collector} {runs : List RunOf}

theorem putBytes_eq {block bytes : List UInt8} (h : block.length + bytes.length ≤ size) :
    putBytes size block bytes = some (block ++ bytes) := by
  induction bytes generalizing block with
  | nil => rw [List.append_nil]; rfl
  | cons byte bytes ih =>
      rw [List.length_cons] at h
      rw [putBytes, List.foldlM_cons, push_eq (by omega)]
      show putBytes size (block ++ [byte]) bytes = _
      rw [ih (by rw [List.length_append, List.length_singleton]; omega), List.append_assoc]
      rfl

theorem Marks.set {inUse : List Bool} {block : List UInt8} (h : Marks inUse block) (ch : UInt8)
    (bytes : List UInt8) (hmem : ∀ c, c ∈ bytes ↔ c = ch) :
    Marks (inUse.set ch.toNat true) (block ++ bytes) := by
  refine ⟨by rw [List.length_set, h.1], fun c => ?_⟩
  have hlt : ch.toNat < 256 := ch.toNat_lt
  rw [List.getElem?_set]
  by_cases heq : ch = c
  · rw [if_pos (congrArg _ heq), if_pos (by rw [h.1]; exact hlt)]
    have hin : c ∈ block ++ bytes := List.mem_append_right _ ((hmem c).mpr heq.symm)
    rw [decide_eq_true hin]
  · rw [if_neg (fun hval => heq (UInt8.toNat_inj.mp hval)), h.2 c]
    have hiff : c ∈ block ++ bytes ↔ c ∈ block := by
      rw [List.mem_append, hmem]
      exact or_iff_left (Ne.symm heq)
    rw [decide_eq_decide.mpr hiff]

/-- A run gets into the block. -/
theorem Stored.returns_addPairToBlock (h : s.Stored runs) {ch : UInt8}
    (hch : s.stateInCh = ch.toNat) (hpos : 0 < s.stateInLen) (hlen : s.stateInLen ≤ 255)
    (hsize : s.block.length + 5 ≤ size) :
    Returns (s.addPairToBlock size) fun s' => s'.Stored (runs ++ [(ch, s.stateInLen)]) := by
  obtain ⟨stateInCh, len, block, inUse, blockCRC⟩ := s
  obtain ⟨hblock, hcrc, hmarks⟩ := h
  dsimp only at hch hpos hlen hsize hblock hcrc hmarks
  subst hch
  have hlt : ch.toNat < 256 := ch.toNat_lt
  have hcrc' : (List.replicate len ch).foldl updateCRC blockCRC =
      (textOf (runs ++ [(ch, len)])).foldl updateCRC initialiseCRC := by
    rw [textOf, List.flatMap_append, List.flatMap_singleton, List.foldl_append, ← textOf, ← hcrc]
    rfl
  have hcode : codeOf (runs ++ [(ch, len)]) = block ++ RunOf.code (ch, len) := by
    rw [codeOf, List.flatMap_append, List.flatMap_singleton, ← codeOf, hblock]
  have hshort (k : ℕ) (hk : 0 < k) := hmarks.set ch (List.replicate k ch)
    (fun c => by rw [List.mem_replicate]; exact and_iff_right (Nat.ne_of_gt hk))
  rw [addPairToBlock]
  dsimp only
  rw [UInt8.ofNat_toNat]
  refine Returns.bind (Returns.of_eq (write_eq (by rw [hmarks.1]; exact hlt) _) rfl) ?_
  rintro _ rfl
  match len with
  | 0 => exact absurd hpos (Nat.lt_irrefl 0)
  | 1 =>
      have hfits : block.length + 1 ≤ size := by omega
      refine Returns.bind (Returns.of_eq (putBytes_eq hfits) rfl) ?_
      rintro _ rfl
      exact Returns.pure ⟨hcode.symm, hcrc', hshort 1 (by decide)⟩
  | 2 =>
      have hfits : block.length + 2 ≤ size := by omega
      refine Returns.bind (Returns.of_eq (putBytes_eq hfits) rfl) ?_
      rintro _ rfl
      exact Returns.pure ⟨hcode.symm, hcrc', hshort 2 (by decide)⟩
  | 3 =>
      have hfits : block.length + 3 ≤ size := by omega
      refine Returns.bind (Returns.of_eq (putBytes_eq hfits) rfl) ?_
      rintro _ rfl
      exact Returns.pure ⟨hcode.symm, hcrc', hshort 3 (by decide)⟩
  | k + 4 =>
      have hmore : ((k + 4 : ℕ) : ℤ) - 4 = (k : ℕ) := by omega
      have hk : (UInt8.ofNat k).toNat = k := by
        rw [UInt8.toNat_ofNat', Nat.mod_eq_of_lt (by omega)]
      show Returns (do
        let more ← index (((k + 4 : ℕ) : ℤ) - 4)
        let inUse ← write (inUse.set ch.toNat true) more true
        return (⟨ch.toNat, k + 4, ← putBytes size block [ch, ch, ch, ch, .ofNat more], inUse, _⟩ :
          Collector)) _
      rw [hmore, index_natCast]
      have hinside : k < (inUse.set ch.toNat true).length := by
        rw [List.length_set, hmarks.1]
        omega
      refine Returns.bind (Returns.of_eq rfl rfl) ?_
      rintro _ rfl
      refine Returns.bind (Returns.of_eq (write_eq hinside true) rfl) ?_
      rintro _ rfl
      refine Returns.bind (Returns.of_eq (putBytes_eq hsize) rfl) ?_
      rintro _ rfl
      refine Returns.pure ⟨?_, hcrc', ?_⟩
      · exact hcode.symm
      · have hboth := (hshort 4 (by decide)).set (.ofNat k) [.ofNat k]
          (fun c => List.mem_singleton)
        rw [hk, List.append_assoc] at hboth
        exact hboth

/-- An empty collector. -/
theorem holds_init (s : Collector) : s.initRL.prepareNewBlock.Holds [] := by
  refine ⟨⟨rfl, rfl, List.length_replicate, ?_⟩, ⟨?_, ?_⟩, fun _ => ⟨rfl, rfl⟩⟩
  · intro c
    have hlt : c.toNat < 256 := c.toNat_lt
    rw [prepareNewBlock, List.getElem?_replicate, if_pos hlt]
    rfl
  · intro run hrun
    exact absurd hrun List.not_mem_nil
  · exact List.isChain_nil

theorem putBytes_singleton (size : ℕ) (block : List UInt8) (ch : UInt8) :
    putBytes size block [ch] = push size block ch := by
  rw [putBytes, List.foldlM_cons]
  exact bind_pure _

/-- The fast track of the common case does what the general case does. -/
theorem addCharToBlock_eq (hidle : 256 ≤ s.stateInCh → s.stateInLen = 0) (c : UInt8) :
    s.addCharToBlock size c =
      if c.toNat ≠ s.stateInCh ∨ s.stateInLen = 255 then do
        let s ← if s.stateInCh < 256 then s.addPairToBlock size else pure s
        return { s with stateInCh := c.toNat, stateInLen := 1 }
      else return { s with stateInLen := s.stateInLen + 1 } := by
  obtain ⟨stateInCh, len, block, inUse, blockCRC⟩ := s
  dsimp only at hidle ⊢
  rw [addCharToBlock]
  dsimp only
  by_cases hfast : c.toNat ≠ stateInCh ∧ len = 1
  · obtain ⟨hne, rfl⟩ := hfast
    have hch : stateInCh < 256 := by
      by_contra hnot
      exact absurd (hidle (Nat.not_lt.mp hnot)) (by decide)
    rw [if_pos ⟨hne, rfl⟩, if_pos (Or.inl hne), if_pos hch, addPairToBlock]
    dsimp only
    rw [putBytes_singleton]
    simp only [bind_assoc, pure_bind]
    rfl
  · rw [if_neg hfast]

theorem pending_of_lt {ch : UInt8} (hch : s.stateInCh = ch.toNat) :
    s.pending = [(ch, s.stateInLen)] := by
  have hlt : ch.toNat < 256 := ch.toNat_lt
  rw [pending, if_pos (by rw [hch]; exact hlt), hch, UInt8.ofNat_toNat]

/-- Another byte of the text. -/
theorem Holds.returns_addCharToBlock (h : s.Holds runs) (hsize : s.block.length + 5 ≤ size)
    (c : UInt8) :
    Returns (s.addCharToBlock size c) fun s' => ∃ runs', s'.Holds runs' ∧
      textOf (runs' ++ s'.pending) = textOf (runs ++ s.pending) ++ [c] ∧
      ∃ more, runs' = runs ++ more ∧ more.length ≤ 1 := by
  have hc : c.toNat < 256 := c.toNat_lt
  rw [addCharToBlock_eq fun hidle => (h.idle hidle).1]
  by_cases hch : s.stateInCh < 256
  · obtain ⟨ch, hchar⟩ : ∃ ch : UInt8, s.stateInCh = ch.toNat :=
      ⟨.ofNat s.stateInCh, by rw [UInt8.toNat_ofNat', Nat.mod_eq_of_lt hch]⟩
    have hpending := pending_of_lt hchar
    have hproper := h.proper
    rw [hpending] at hproper ⊢
    obtain ⟨hpos, hlen⟩ := hproper.1 (ch, s.stateInLen) (List.mem_append_right _ List.mem_cons_self)
    dsimp only at hpos hlen
    by_cases hnew : c.toNat ≠ s.stateInCh ∨ s.stateInLen = 255
    · rw [if_pos hnew, if_pos hch]
      refine Returns.bind (h.toStored.returns_addPairToBlock hchar hpos hlen hsize) ?_
      intro s' hs'
      have hpending' := pending_of_lt (s := { s' with stateInCh := c.toNat, stateInLen := 1 }) rfl
      refine Returns.pure ⟨runs ++ [(ch, s.stateInLen)], ⟨⟨hs'.block, hs'.crc, hs'.inUse⟩, ?_, ?_⟩,
        ?_, _, rfl, Nat.le_refl 1⟩
      · rw [hpending']
        refine hproper.concat Nat.one_pos (show 1 ≤ 255 by decide) ?_
        rcases hnew with hne | hfull
        · refine Or.inl fun heq => hne ?_
          rw [hchar]
          exact congrArg UInt8.toNat heq.symm
        · refine Or.inr ?_
          show 4 ≤ s.stateInLen
          omega
      · intro hidle
        exact absurd hc (Nat.not_lt.mpr hidle)
      · rw [hpending', textOf, List.flatMap_append, List.flatMap_singleton]
        rfl
    · rw [if_neg hnew]
      have hsame : c = ch := by
        refine UInt8.toNat_inj.mp ?_
        rw [← hchar]
        by_contra hne
        exact hnew (Or.inl hne)
      have hpending' := pending_of_lt (s := { s with stateInLen := s.stateInLen + 1 }) hchar
      refine Returns.pure ⟨runs, ⟨⟨h.block, h.crc, h.inUse⟩, ?_, ?_⟩, ?_, [],
        (List.append_nil _).symm, Nat.zero_le 1⟩
      · rw [hpending']
        refine hproper.grow (Nat.lt_of_le_of_ne hlen fun hfull => hnew (Or.inr hfull))
      · intro hidle
        exact absurd hch (Nat.not_lt.mpr hidle)
      · rw [hpending', textOf, textOf, List.flatMap_append, List.flatMap_append,
          List.flatMap_singleton, List.flatMap_singleton, RunOf.bytes, RunOf.bytes, hsame,
          List.append_assoc]
        exact congrArg _ List.replicate_succ'
  · obtain ⟨hlen, rfl⟩ := h.idle (Nat.not_lt.mp hch)
    have hpending : s.pending = [] := if_neg hch
    have hpending' := pending_of_lt (s := { s with stateInCh := c.toNat, stateInLen := 1 }) rfl
    rw [if_pos (Or.inl (by omega)), if_neg hch]
    refine Returns.pure ⟨[], ⟨⟨h.block, h.crc, h.inUse⟩, ?_, ?_⟩, ?_, [], rfl, Nat.zero_le 1⟩
    · rw [hpending']
      exact proper_singleton Nat.one_pos (show 1 ≤ 255 by decide)
    · intro hidle
      exact absurd hc (Nat.not_lt.mpr hidle)
    · rw [hpending', hpending]
      rfl

theorem length_code_le (run : RunOf) : run.code.length ≤ 5 := by
  rw [RunOf.code]
  split
  · rw [List.length_replicate]
    omega
  · rw [List.length_append, List.length_replicate, List.length_singleton]

theorem length_pending_le (s : Collector) : s.pending.length ≤ 1 := by
  rw [pending]
  split
  · exact Nat.le_refl 1
  · exact Nat.zero_le 1

theorem length_codeOf_append_le (runs : List RunOf) {more : List RunOf} (hmore : more.length ≤ 1) :
    (codeOf (runs ++ more)).length ≤ (codeOf runs).length + 5 := by
  rw [codeOf, List.flatMap_append, List.length_append, ← codeOf]
  refine Nat.add_le_add_left ?_ _
  cases more with
  | nil => exact Nat.zero_le 5
  | cons run more =>
      obtain rfl : more = [] :=
        List.length_eq_zero_iff.mp (Nat.le_zero.mp (Nat.le_of_succ_le_succ hmore))
      rw [List.flatMap_singleton]
      exact length_code_le run

/-- Bytes are taken until the block is full or there are no more. -/
theorem Holds.returns_copyInputUntilStop (h : s.Holds runs) (hsize : nblockMAX + 4 ≤ size)
    (hlength : s.block.length ≤ nblockMAX + 4) (nextIn : List UInt8) :
    Returns (s.copyInputUntilStop nblockMAX size nextIn) fun (s', left) =>
      ∃ runs' taken, s'.Holds runs' ∧ nextIn = taken ++ left ∧
        textOf (runs' ++ s'.pending) = textOf (runs ++ s.pending) ++ taken ∧
        s'.block.length ≤ nblockMAX + 4 ∧ (taken = [] → s' = s) ∧
        (left ≠ [] → nblockMAX ≤ s'.block.length) := by
  induction nextIn generalizing s runs with
  | nil =>
      rw [copyInputUntilStop]
      refine Returns.of_eq (ite_self _) ?_
      exact ⟨runs, [], h, rfl, (List.append_nil _).symm, hlength, fun _ => rfl,
        fun hne => absurd rfl hne⟩
  | cons c nextIn ih =>
      rw [copyInputUntilStop]
      by_cases hfull : s.block.length ≥ nblockMAX
      · rw [if_pos hfull]
        exact Returns.of_eq rfl ⟨runs, [], h, rfl, (List.append_nil _).symm, hlength, fun _ => rfl,
          fun _ => hfull⟩
      · rw [if_neg hfull]
        refine Returns.bind (h.returns_addCharToBlock (by omega) c) ?_
        rintro s' ⟨_, hs', htext, more, rfl, hmore⟩
        have hgrown := length_codeOf_append_le runs hmore
        rw [← hs'.block, ← h.block] at hgrown
        refine (ih hs' (by omega)).mono ?_
        rintro ⟨s'', left⟩ ⟨runs'', taken, hs'', rfl, htext', hlength', -, hstop⟩
        refine ⟨runs'', c :: taken, hs'', rfl, ?_, hlength',
          fun hnil => absurd hnil (List.cons_ne_nil _ _), hstop⟩
        rw [htext', htext, List.append_assoc, List.singleton_append]

/-- The end of the input: the run that is being collected gets into the block. -/
theorem Holds.returns_flushRL (h : s.Holds runs) (hsize : s.block.length + 5 ≤ size) :
    Returns (s.flushRL size) fun s' => s'.Stored (runs ++ s.pending) ∧ s'.pending = [] := by
  have hinit : ∀ s' : Collector, s'.initRL.pending = [] := fun s' => if_neg (by
    show ¬256 < 256
    decide)
  by_cases hch : s.stateInCh < 256
  · obtain ⟨ch, hchar⟩ : ∃ ch : UInt8, s.stateInCh = ch.toNat :=
      ⟨.ofNat s.stateInCh, by rw [UInt8.toNat_ofNat', Nat.mod_eq_of_lt hch]⟩
    have hpending := pending_of_lt hchar
    have hproper := h.proper
    rw [hpending] at hproper ⊢
    obtain ⟨hpos, hlen⟩ := hproper.1 (ch, s.stateInLen) (List.mem_append_right _ List.mem_cons_self)
    rw [flushRL, if_pos hch]
    refine Returns.bind (h.toStored.returns_addPairToBlock hchar hpos hlen hsize) ?_
    intro s' hs'
    exact Returns.pure ⟨⟨hs'.block, hs'.crc, hs'.inUse⟩, hinit s'⟩
  · have hpending : s.pending = [] := if_neg hch
    rw [flushRL, if_neg hch, hpending, List.append_nil]
    exact Returns.pure ⟨⟨h.block, h.crc, h.inUse⟩, hinit s⟩

end Spec

end Collector

end StudyNotes.Bzip2
