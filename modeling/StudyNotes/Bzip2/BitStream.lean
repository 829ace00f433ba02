/-
# The bit stream of bzip2

`bsW` collects bits at the upper end of a 32-bit buffer and hands them on as bytes,
`GET_BITS` shifts bytes into the lower end of one and takes bits out again.  The decoder
may find its input used up in the middle of a number: it then returns, and the next call
comes back to the same place.  So what it reads does not depend on how the bytes are
divided over the calls.
-/

import StudyNotes.Lib.BitMachine

namespace StudyNotes.Bzip2

open StudyNotes.Bits

/-! ## Writing -/

/-- The fields `zbits` (as far as `numZ`), `bsBuff` and `bsLive` of `EState`. -/
structure Writer where
  zbits : List UInt8
  bsBuff : UInt32
  bsLive : ℕ

namespace Writer

/-- `BZ2_bsInitWrite`. -/
def initWrite (w : Writer) : Writer := { w with bsBuff := 0, bsLive := 0 }

/-- The body of the loops that hand on a byte. -/
def putByte (w : Writer) : Writer where
  zbits := w.zbits ++ [(w.bsBuff >>> 24).toUInt8]
  bsBuff := w.bsBuff <<< 8
  bsLive := w.bsLive - 8

/-- `bsNEEDW`. -/
def needW (w : Writer) : Writer := if 8 ≤ w.bsLive then needW w.putByte else w
termination_by w.bsLive
decreasing_by
  show w.bsLive - 8 < w.bsLive
  omega

def bsW (w : Writer) (n : ℕ) (v : UInt32) : Writer :=
  let w := w.needW
  { w with
    bsBuff := w.bsBuff ||| v <<< .ofNat (32 - w.bsLive - n)
    bsLive := w.bsLive + n }

/-- `bsFinishWrite`, and the bytes of the stream.  The count of live bits goes below 0 in
the source, which ends the loop. -/
def finishWrite (w : Writer) : List UInt8 := if 0 < w.bsLive then finishWrite w.putByte else w.zbits
termination_by w.bsLive
decreasing_by
  show w.bsLive - 8 < w.bsLive
  omega

/-- The bits that were written: those handed on, and those that fill the upper end of the
buffer, with zeros below them. -/
def Holds (w : Writer) (bits : List Bool) : Prop :=
  w.bsLive ≤ 32 ∧ ∃ x < 2 ^ w.bsLive, w.bsBuff.toNat = x * 2 ^ (32 - w.bsLive) ∧
    bits = ofBytes w.zbits ++ toBits w.bsLive x

variable {w : Writer} {bits : List Bool}

theorem holds_initWrite (w : Writer) : w.initWrite.Holds (ofBytes w.zbits) :=
  ⟨Nat.zero_le 32, 0, Nat.one_pos, (Nat.zero_mul _).symm, (List.append_nil _).symm⟩

theorem Holds.putByte (h : w.Holds bits) (hlive : 8 ≤ w.bsLive) : w.putByte.Holds bits := by
  obtain ⟨hle, x, hx, hbuff, rfl⟩ := h
  obtain ⟨live, hlive'⟩ := Nat.exists_eq_add_of_le hlive
  obtain ⟨gap, hgap⟩ : ∃ gap, 24 = live + gap := ⟨24 - live, by omega⟩
  rw [hlive', show 32 - (8 + live) = gap by omega] at hbuff
  rw [hlive', Nat.pow_add] at hx
  have hbyte : (w.bsBuff >>> 24).toNat = x / 2 ^ live := by
    have hshift := toNat_shiftRight w.bsBuff (show 24 < 32 by decide)
    rw [hbuff, hgap, Nat.pow_add, Nat.mul_div_mul_right _ _ (Nat.two_pow_pos gap), ← hgap] at hshift
    exact hshift
  have hrest : (w.bsBuff <<< 8).toNat = x % 2 ^ live * 2 ^ (32 - live) := by
    have hshift := toNat_shiftLeft w.bsBuff (show 8 < 32 by decide)
    have hgap' : 32 - live = gap + 8 := by omega
    rw [hbuff, show (32 : ℕ) = live + (gap + 8) by omega, Nat.mul_assoc, ← Nat.pow_add,
      Nat.pow_add 2 live, Nat.mul_mod_mul_right, ← hgap'] at hshift
    exact hshift
  have hlive'' : w.bsLive - 8 = live := by omega
  refine ⟨?_, x % 2 ^ live, ?_, ?_, ?_⟩
  · show w.bsLive - 8 ≤ 32
    omega
  · show x % 2 ^ live < 2 ^ (w.bsLive - 8)
    rw [hlive'']
    exact Nat.mod_lt _ (Nat.two_pow_pos live)
  · show (w.bsBuff <<< 8).toNat = x % 2 ^ live * 2 ^ (32 - (w.bsLive - 8))
    rw [hlive'', hrest]
  · show _ = ofBytes (w.zbits ++ [(w.bsBuff >>> 24).toUInt8]) ++ toBits (w.bsLive - 8) _
    have hput : ofBytes [(w.bsBuff >>> 24).toUInt8] = toBits 8 (x / 2 ^ live) := by
      rw [ofBytes, List.flatMap_singleton, UInt32.toNat_toUInt8, hbyte, toBits_mod]
    rw [hlive'', hlive', toBits_add, ofBytes_append, List.append_assoc, toBits_mod, hput]

theorem Holds.needW (h : w.Holds bits) : w.needW.Holds bits ∧ w.needW.bsLive < 8 := by
  induction hlive : w.bsLive using Nat.strongRecOn generalizing w with
  | ind live ih =>
      rw [Writer.needW]
      by_cases hmore : 8 ≤ w.bsLive
      · rw [if_pos hmore]
        refine ih _ ?_ (h.putByte hmore) rfl
        show w.bsLive - 8 < live
        omega
      · rw [if_neg hmore]
        exact ⟨h, Nat.not_le.mp hmore⟩

/-- A number goes below the bits that are there. -/
theorem Holds.bsW (h : w.Holds bits) {n : ℕ} {v : UInt32} (hpos : 0 < n) (hn : n ≤ 24)
    (hv : v.toNat < 2 ^ n) : (w.bsW n v).Holds (bits ++ toBits n v.toNat) := by
  obtain ⟨⟨hle, x, hx, hbuff, hbits⟩, hlive⟩ := h.needW
  obtain ⟨gap, hgap⟩ : ∃ gap, 32 = w.needW.bsLive + n + gap :=
    ⟨32 - w.needW.bsLive - n, by omega⟩
  have hshift : (v <<< UInt32.ofNat (32 - w.needW.bsLive - n)).toNat = v.toNat * 2 ^ gap := by
    have hfits : v.toNat * 2 ^ gap < 2 ^ 32 := by
      calc v.toNat * 2 ^ gap
        _ < 2 ^ n * 2 ^ gap := Nat.mul_lt_mul_of_pos_right hv (Nat.two_pow_pos gap)
        _ = 2 ^ (n + gap) := (Nat.pow_add 2 n gap).symm
        _ ≤ 2 ^ 32 := Nat.pow_le_pow_right (by decide) (by omega)
    rw [show 32 - w.needW.bsLive - n = gap by omega, toNat_shiftLeft v (by omega),
      Nat.mod_eq_of_lt hfits]
  have hword : (w.bsW n v).bsBuff.toNat = (x * 2 ^ n + v.toNat) * 2 ^ gap := by
    show (w.needW.bsBuff ||| v <<< UInt32.ofNat (32 - w.needW.bsLive - n)).toNat = _
    rw [UInt32.toNat_or, hshift, hbuff, show 32 - w.needW.bsLive = n + gap by omega,
      Nat.pow_add, ← Nat.mul_assoc, ← Nat.shiftLeft_eq, ← Nat.shiftLeft_eq v.toNat,
      ← Nat.shiftLeft_or_distrib, mul_or_eq_add hv, Nat.shiftLeft_eq]
  refine ⟨?_, x * 2 ^ n + v.toNat, ?_, ?_, ?_⟩
  · show w.needW.bsLive + n ≤ 32
    omega
  · show x * 2 ^ n + v.toNat < 2 ^ (w.needW.bsLive + n)
    calc x * 2 ^ n + v.toNat < x * 2 ^ n + 2 ^ n := Nat.add_lt_add_left hv _
      _ = (x + 1) * 2 ^ n := (Nat.succ_mul x (2 ^ n)).symm
      _ ≤ 2 ^ w.needW.bsLive * 2 ^ n := Nat.mul_le_mul_right _ hx
      _ = 2 ^ (w.needW.bsLive + n) := (Nat.pow_add 2 _ n).symm
  · rw [hword]
    show _ = _ * 2 ^ (32 - (w.needW.bsLive + n))
    rw [show 32 - (w.needW.bsLive + n) = gap by omega]
  · show _ = ofBytes w.needW.zbits ++ toBits (w.needW.bsLive + n) _
    rw [hbits, toBits_mul_add hv, List.append_assoc]

/-- The last byte is filled up with zeros. -/
theorem Holds.finishWrite (h : w.Holds bits) :
    ∃ padding < 8, ofBytes w.finishWrite = bits ++ List.replicate padding false := by
  induction hlive : w.bsLive using Nat.strongRecOn generalizing w with
  | ind live ih =>
      rw [Writer.finishWrite]
      by_cases hmore : 0 < w.bsLive
      · rw [if_pos hmore]
        by_cases hfull : 8 ≤ w.bsLive
        · refine ih _ ?_ (h.putByte hfull) rfl
          show w.bsLive - 8 < live
          omega
        · -- The byte that is not full is the last one.
          obtain ⟨-, x, -, hbuff, rfl⟩ := h
          have hlast : w.putByte.finishWrite = w.zbits ++ [(w.bsBuff >>> 24).toUInt8] := by
            rw [Writer.finishWrite, if_neg]
            · rfl
            · show ¬0 < w.bsLive - 8
              omega
          have hbyte : (w.bsBuff >>> 24).toNat = x * 2 ^ (8 - w.bsLive) := by
            have hshift := toNat_shiftRight w.bsBuff (show 24 < 32 by decide)
            rw [hbuff, show 32 - w.bsLive = 8 - w.bsLive + 24 by omega, Nat.pow_add,
              ← Nat.mul_assoc, Nat.mul_div_cancel _ (Nat.two_pow_pos 24)] at hshift
            exact hshift
          have hput : ofBytes [(w.bsBuff >>> 24).toUInt8] =
              toBits w.bsLive x ++ List.replicate (8 - w.bsLive) false := by
            have hsum : toBits (w.bsLive + (8 - w.bsLive)) (x * 2 ^ (8 - w.bsLive) + 0) =
                toBits w.bsLive x ++ toBits (8 - w.bsLive) 0 :=
              toBits_mul_add (Nat.two_pow_pos (8 - w.bsLive))
            rw [ofBytes, List.flatMap_singleton, UInt32.toNat_toUInt8, hbyte, toBits_mod]
            rw [show w.bsLive + (8 - w.bsLive) = 8 by omega, Nat.add_zero, toBits_zero] at hsum
            exact hsum
          refine ⟨8 - w.bsLive, by omega, ?_⟩
          rw [hlast, ofBytes_append, hput, List.append_assoc]
      · rw [if_neg hmore]
        obtain ⟨-, x, -, -, rfl⟩ := h
        refine ⟨0, by decide, ?_⟩
        rw [Nat.eq_zero_of_not_pos hmore]
        simp [toBits]

end Writer

/-! ## Reading -/

/-- The fields `bsBuff` and `bsLive` of `DState`, and the `avail_in` bytes at `next_in`. -/
structure Reader where
  bsBuff : UInt32
  bsLive : ℕ
  nextIn : List UInt8

namespace Reader

/-- As `BZ2_bzDecompressInit` leaves it. -/
def init : Reader := ⟨0, 0, []⟩

/-- The upper `n` of the live bits. -/
def value (n : ℕ) (bsBuff : UInt32) (bsLive : ℕ) : UInt32 :=
  (bsBuff >>> .ofNat (bsLive - n)) &&& ((1 : UInt32) <<< .ofNat n - 1)

/-- `GET_BITS`.  There is no value where the input is used up before it is complete. -/
def getBits (n : ℕ) (bsBuff : UInt32) (bsLive : ℕ) (nextIn : List UInt8) :
    Option UInt32 × Reader :=
  if n ≤ bsLive then (some (value n bsBuff bsLive), ⟨bsBuff, bsLive - n, nextIn⟩)
  else
    match nextIn with
    | [] => (none, ⟨bsBuff, bsLive, []⟩)
    | byte :: nextIn => getBits n (bsBuff <<< 8 ||| byte.toUInt32) (bsLive + 8) nextIn

/-- The bits that were not taken yet. -/
def bits (r : Reader) : List Bool := toBits r.bsLive r.bsBuff.toNat ++ ofBytes r.nextIn

section GetBits

variable {n bsLive : ℕ} {bsBuff : UInt32} {nextIn : List UInt8}

theorem length_bits (bsBuff : UInt32) (bsLive : ℕ) (nextIn : List UInt8) :
    (bits ⟨bsBuff, bsLive, nextIn⟩).length = bsLive + 8 * nextIn.length := by
  rw [bits, List.length_append, length_toBits, length_ofBytes]

theorem toNat_value (hn : n < 32) (hlive : bsLive < 32) :
    (value n bsBuff bsLive).toNat = bsBuff.toNat / 2 ^ (bsLive - n) % 2 ^ n := by
  have hmask : ((1 : UInt32) <<< .ofNat n - 1).toNat = 2 ^ n - 1 := by
    have hpow : 2 ^ n < 2 ^ 32 := Nat.pow_lt_pow_right (by decide) hn
    have hone : ((1 : UInt32) <<< .ofNat n).toNat = 2 ^ n := by
      rw [toNat_shiftLeft 1 hn, UInt32.toNat_one, Nat.one_mul, Nat.mod_eq_of_lt hpow]
    rw [UInt32.toNat_sub_of_le, hone, UInt32.toNat_one]
    rw [UInt32.le_iff_toNat_le, hone]
    exact Nat.one_le_two_pow
  rw [value, UInt32.toNat_and, hmask, toNat_shiftRight bsBuff (by omega),
    Nat.and_two_pow_sub_one_eq_mod]

/-- A byte goes below the bits that are there. -/
theorem bits_shiftIn (hlive : bsLive + 8 ≤ 32) (byte : UInt8) :
    bits ⟨bsBuff <<< 8 ||| byte.toUInt32, bsLive + 8, nextIn⟩ =
      bits ⟨bsBuff, bsLive, byte :: nextIn⟩ := by
  have hbyte : byte.toNat < 2 ^ 8 := byte.toNat_lt
  have hword : (bsBuff <<< 8 ||| byte.toUInt32).toNat =
      (bsBuff.toNat * 2 ^ 8 + byte.toNat) % 2 ^ 32 := by
    have hshift : (bsBuff <<< 8).toNat = bsBuff.toNat % 2 ^ 24 * 2 ^ 8 := by
      have hshift := toNat_shiftLeft bsBuff (show 8 < 32 by decide)
      rw [show (32 : ℕ) = 24 + 8 by decide, Nat.pow_add, Nat.mul_mod_mul_right] at hshift
      exact hshift
    rw [UInt32.toNat_or, hshift, UInt8.toNat_toUInt32, mul_or_eq_add hbyte]
    omega
  have hbytes : ofBytes (byte :: nextIn) = toBits 8 byte.toNat ++ ofBytes nextIn := rfl
  rw [bits, bits, hword, toBits_mod_of_le hlive, toBits_mul_add hbyte, hbytes, List.append_assoc]

/-- The upper bits of those that are live. -/
theorem bits_eq_value_append (hn : n < 32) (hlive : bsLive < 32) (henough : n ≤ bsLive) :
    bits ⟨bsBuff, bsLive, nextIn⟩ =
      toBits n (value n bsBuff bsLive).toNat ++ bits ⟨bsBuff, bsLive - n, nextIn⟩ := by
  have hsplit : toBits bsLive bsBuff.toNat =
      toBits n (bsBuff.toNat / 2 ^ (bsLive - n)) ++ toBits (bsLive - n) bsBuff.toNat := by
    rw [← toBits_add, Nat.add_sub_cancel' henough]
  rw [bits, bits, toNat_value hn hlive, toBits_mod, hsplit, List.append_assoc]

theorem getBits_of_le (hn : n ≤ 24) (hlive : bsLive < 32)
    (henough : n ≤ (bits ⟨bsBuff, bsLive, nextIn⟩).length) :
    ∃ v r, getBits n bsBuff bsLive nextIn = (some v, r) ∧ r.bsLive < 32 ∧ v.toNat < 2 ^ n ∧
      bits ⟨bsBuff, bsLive, nextIn⟩ = toBits n v.toNat ++ r.bits := by
  induction nextIn generalizing bsBuff bsLive with
  | nil =>
      have henough' : n ≤ bsLive := by
        rw [length_bits] at henough
        exact henough
      refine ⟨_, _, by rw [getBits, if_pos henough'], Nat.lt_of_le_of_lt (Nat.sub_le _ _) hlive,
        ?_, bits_eq_value_append (by omega) hlive henough'⟩
      rw [toNat_value (by omega) hlive]
      exact Nat.mod_lt _ (Nat.two_pow_pos n)
  | cons byte nextIn ih =>
      by_cases henough' : n ≤ bsLive
      · refine ⟨_, _, by rw [getBits, if_pos henough'], Nat.lt_of_le_of_lt (Nat.sub_le _ _) hlive,
          ?_, bits_eq_value_append (by omega) hlive henough'⟩
        rw [toNat_value (by omega) hlive]
        exact Nat.mod_lt _ (Nat.two_pow_pos n)
      · have hshift : bits ⟨bsBuff <<< 8 ||| byte.toUInt32, bsLive + 8, nextIn⟩ =
            bits ⟨bsBuff, bsLive, byte :: nextIn⟩ := bits_shiftIn (by omega) byte
        rw [← hshift] at henough ⊢
        rw [getBits, if_neg henough']
        exact ih (by omega) henough

theorem getBits_of_lt (hn : n ≤ 24) (hlive : bsLive < 32)
    (hshort : (bits ⟨bsBuff, bsLive, nextIn⟩).length < n) :
    ∃ r, getBits n bsBuff bsLive nextIn = (none, r) ∧ r.bsLive < 32 ∧ r.nextIn = [] ∧
      bits ⟨bsBuff, bsLive, nextIn⟩ = r.bits := by
  have hshort' : ¬n ≤ bsLive := by
    rw [length_bits] at hshort
    omega
  induction nextIn generalizing bsBuff bsLive with
  | nil => exact ⟨_, by rw [getBits, if_neg hshort'], hlive, rfl, rfl⟩
  | cons byte nextIn ih =>
      have hshift : bits ⟨bsBuff <<< 8 ||| byte.toUInt32, bsLive + 8, nextIn⟩ =
          bits ⟨bsBuff, bsLive, byte :: nextIn⟩ := bits_shiftIn (by omega) byte
      rw [← hshift] at hshort ⊢
      have hlength := length_bits (bsBuff <<< 8 ||| byte.toUInt32) (bsLive + 8) nextIn
      rw [getBits, if_neg hshort']
      exact ih (by omega) hshort (by omega)

theorem count_getBits {v : UInt32} {r : Reader} (h : getBits n bsBuff bsLive nextIn = (some v, r)) :
    r.bsLive + 8 * r.nextIn.length + n = bsLive + 8 * nextIn.length := by
  induction nextIn generalizing bsBuff bsLive with
  | nil =>
      rw [getBits] at h
      split at h
      · cases h
        rename_i henough
        show bsLive - n + 8 * 0 + n = bsLive + 8 * 0
        omega
      · cases h
  | cons byte nextIn ih =>
      rw [getBits] at h
      split at h
      · cases h
        rename_i henough
        show bsLive - n + 8 * (byte :: nextIn).length + n = _
        omega
      · have hcount := ih h
        rw [List.length_cons]
        omega

end GetBits

end Reader

/-! ## A decoder that returns when its input is used up

The body of `BZ2_decompress` is a `switch` over the labels of its `GET_BITS`: a call starts
at the label where the call before it returned. -/

section Decode

variable {σ ω : Type} (machine : BitMachine σ ω)

/-- One call, from a state to the one it returns in or to its result. -/
def decode (s : σ) (r : Reader) : (σ ⊕ ω) × Reader :=
  match _h : Reader.getBits (machine.width s) r.bsBuff r.bsLive r.nextIn with
  | (none, r') => (.inl s, r')
  | (some value, r') =>
      match machine.step s value.toNat with
      | .inl s' => decode s' r'
      | .inr result => (.inr result, r')
termination_by r.bsLive + 8 * r.nextIn.length
decreasing_by
  have hcount := Reader.count_getBits _h
  have hpos := machine.width_pos s
  omega

variable {machine} {Valid : σ → Prop}

theorem decode_of_none {s : σ} {r r' : Reader}
    (h : Reader.getBits (machine.width s) r.bsBuff r.bsLive r.nextIn = (none, r')) :
    decode machine s r = (.inl s, r') := by
  rw [decode]
  split
  · rename_i h'
    rw [h] at h'
    cases h'
    rfl
  · rename_i h'
    rw [h] at h'
    cases h'

theorem decode_of_some {s : σ} {r r' : Reader} {value : UInt32}
    (h : Reader.getBits (machine.width s) r.bsBuff r.bsLive r.nextIn = (some value, r')) :
    decode machine s r =
      match machine.step s value.toNat with
      | .inl s' => decode machine s' r'
      | .inr result => (.inr result, r') := by
  rw [decode]
  split
  · rename_i h'
    rw [h] at h'
    cases h'
  · rename_i h'
    rw [h] at h'
    cases h'
    rfl

/-- A call has come as far as the machine comes with the bits there are. -/
structure Reached (machine : BitMachine σ ω) (Valid : σ → Prop) (s : σ) (bits : List Bool)
    (call : (σ ⊕ ω) × Reader) : Prop where
  live : call.2.bsLive < 32
  run_eq : machine.run s bits = (call.1, call.2.bits)
  empty : ∀ s', call.1 = .inl s' → call.2.nextIn = [] ∧ Valid s'

variable (hwidth : ∀ s, Valid s → machine.width s ≤ 24)
  (hvalid : ∀ s value s', Valid s → machine.step s value = .inl s' → Valid s')

include hwidth hvalid

theorem reached_decode {s : σ} (hs : Valid s) {r : Reader} (hlive : r.bsLive < 32) :
    Reached machine Valid s r.bits (decode machine s r) := by
  induction hcount : r.bsLive + 8 * r.nextIn.length using Nat.strongRecOn generalizing s r with
  | ind count ih =>
      obtain hlt | hle := Nat.lt_or_ge r.bits.length (machine.width s)
      · obtain ⟨r', hread, hlive', hempty, hbits⟩ := Reader.getBits_of_lt (hwidth s hs) hlive hlt
        rw [decode_of_none hread]
        refine ⟨hlive', ?_, ?_⟩
        · rw [BitMachine.run_of_lt hlt]
          exact congrArg _ hbits
        · rintro s' ⟨⟩
          exact ⟨hempty, hs⟩
      · obtain ⟨v, r', hread, hlive', hv, hbits⟩ := Reader.getBits_of_le (hwidth s hs) hlive hle
        have hbits' : r.bits = toBits (machine.width s) v.toNat ++ r'.bits := hbits
        have htake : r.bits.take (machine.width s) = toBits (machine.width s) v.toNat := by
          rw [hbits', List.take_append_of_le_length (by rw [length_toBits]),
            List.take_of_length_le (by rw [length_toBits])]
        have hdrop : r.bits.drop (machine.width s) = r'.bits := by
          rw [hbits', List.drop_append_of_le_length (by rw [length_toBits]),
            List.drop_of_length_le (by rw [length_toBits]), List.nil_append]
        have hrun := BitMachine.run_of_le hle
        rw [htake, hdrop, ofBits_toBits hv] at hrun
        rw [decode_of_some hread]
        cases hstep : machine.step s v.toNat with
        | inl s' =>
            rw [hstep] at hrun
            have hless := Reader.count_getBits hread
            have hpos := machine.width_pos s
            obtain ⟨hlive'', hrun', hempty⟩ :=
              ih _ (by omega) (hvalid s _ s' hs hstep) hlive' rfl
            exact ⟨hlive'', hrun.trans hrun', hempty⟩
        | inr result =>
            rw [hstep] at hrun
            exact ⟨hlive', hrun, fun _ h => absurd h Sum.inr_ne_inl⟩

omit hwidth hvalid in
/-- A call that ends with a result has used up some of its input. -/
theorem count_decode {s : σ} {r r' : Reader} {result : ω}
    (h : decode machine s r = (.inr result, r')) :
    r'.bsLive + 8 * r'.nextIn.length < r.bsLive + 8 * r.nextIn.length := by
  fun_induction decode machine s r with
  | case1 s r r' hread => cases h
  | case2 s r value r'' hread s' hstep ih =>
      have hcount := Reader.count_getBits hread
      have hless := ih h
      omega
  | case3 s r value r'' hread result' hstep =>
      cases h
      have hcount := Reader.count_getBits hread
      have hpos := machine.width_pos s
      omega

end Decode

end StudyNotes.Bzip2
