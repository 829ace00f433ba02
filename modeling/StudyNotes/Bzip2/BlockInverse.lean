/-
# From the sorted block back to the text

What `BZ2_decompress` does after the last symbol of a block.  It has the last column of the
sorted rotations and counts its bytes; the counts give the place of every byte in the first
column.  The fast version keeps with each row the row of the next rotation in the upper
bits of `tt`.  The small one computes the rows of the rotations before in `ll16` and `ll4`,
turns the pointers around and finds the bytes by a search in the counts.
-/

import Mathlib.Data.Nat.Bitwise
import Mathlib.Dynamics.PeriodicPts.Lemmas
import StudyNotes.Lib.Bits
import StudyNotes.Lib.BurrowsWheeler
import StudyNotes.Lib.Checked
import StudyNotes.Lib.CountingOrder

namespace StudyNotes.Bzip2

open StudyNotes.Checked StudyNotes.CountingOrder StudyNotes.BurrowsWheeler

/-! ## Counts -/

/-- The loops that make `cftab`. -/
def makeCftab (unzftab : List ℤ) : Option (List ℤ) := do
  let cftab ← loop 1 257 (fun i cftab => do write cftab i (← unzftab[i - 1]?))
    (List.replicate 257 0)
  sumUp 257 cftab

/-- The bytes as keys. -/
def keys (ll : List UInt8) : List ℕ := ll.map UInt8.toNat

theorem length_keys (ll : List UInt8) : (keys ll).length = ll.length := List.length_map _

theorem keys_lt (ll : List UInt8) : ∀ key ∈ keys ll, key < 256 := by
  intro key hkey
  obtain ⟨c, -, rfl⟩ := List.mem_map.mp hkey
  exact c.toNat_lt

/-- `cftab` says how many bytes are smaller. -/
def Cftab (ll : List UInt8) (cftab : List ℤ) : Prop :=
  cftab.length = 257 ∧ ∀ c < 257, cftab[c]? = some (below (keys ll) c : ℤ)

theorem returns_makeCftab {ll : List UInt8} {unzftab : List ℤ}
    (hcount : ∀ c < 256, unzftab[c]? = some ((keys ll).count c : ℤ)) :
    Returns (makeCftab unzftab) (Cftab ll) := by
  refine Returns.bind (Returns.loop (fun i cftab => cftab.length = 257 ∧
    cftab[0]? = some (0 : ℤ) ∧
    ∀ k, k + 1 < i → cftab[k + 1]? = some ((keys ll).count k : ℤ)) (by decide) ?_ ?_) ?_
  · refine ⟨List.length_replicate, rfl, ?_⟩
    intro k hk
    omega
  · rintro i cftab hi hlast ⟨hsize, hzero, hdone⟩
    obtain ⟨k, rfl⟩ := Nat.exists_eq_add_of_le' hi
    refine Returns.bind (Returns.of_eq (hcount k (by omega)) rfl) ?_
    rintro _ rfl
    refine Returns.of_eq (write_eq (by omega) _) ⟨?_, ?_, ?_⟩
    · rw [List.length_set, hsize]
    · rw [List.getElem?_set_ne (by omega), hzero]
    · intro j hj
      rw [List.getElem?_set]
      by_cases heq : k + 1 = j + 1
      · rw [if_pos heq, if_pos (by omega), show k = j by omega]
      · rw [if_neg heq, hdone j (by omega)]
  · rintro cftab ⟨hsize, hzero, hdone⟩
    refine returns_sumUp (fun k => (below (keys ll) k : ℤ)) (by decide) hsize ?_ ?_
    · rw [hzero, below_eq_zero fun n _ => Nat.zero_le n]
      rfl
    · intro k hk
      rw [hdone k hk, below_succ, Nat.cast_add, add_sub_cancel_left]

/-! ## The fast version -/

/-- The loop under "compute the T^(-1) vector" of the fast version. -/
def fillTt (nblock : ℕ) (tt : List UInt32) (cftab : List ℤ) : Option (List UInt32 × List ℤ) :=
  loop 0 nblock (fun i (tt, cftab) => do
    let uc := ((← tt[i]?) &&& 0xff).toNat
    let k ← index (← cftab[uc]?)
    let tt ← write tt k ((← tt[k]?) ||| UInt32.ofNat i <<< 8)
    return (tt, ← write cftab uc ((← cftab[uc]?) + 1))) (tt, cftab)

/-- A byte with a row above it. -/
def pack (c : UInt8) (i : ℕ) : UInt32 := c.toUInt32 ||| UInt32.ofNat i <<< 8

theorem toNat_pack (c : UInt8) {i : ℕ} (hi : i < 2 ^ 24) :
    (pack c i).toNat = i * 2 ^ 8 + c.toNat := by
  have hshift : (UInt32.ofNat i <<< 8).toNat = i * 2 ^ 8 := by
    have h := Bits.toNat_shiftLeft (UInt32.ofNat i) (show 8 < 32 by decide)
    rw [UInt32.toNat_ofNat_of_lt' (Nat.lt_trans hi (by decide)), Nat.mod_eq_of_lt (by omega)] at h
    exact h
  rw [pack, UInt32.toNat_or, hshift, UInt8.toNat_toUInt32, Nat.or_comm,
    Bits.mul_or_eq_add c.toNat_lt]

theorem pack_zero (c : UInt8) : pack c 0 = c.toUInt32 := by
  refine UInt32.toNat_inj.mp ?_
  rw [toNat_pack c (by decide), Nat.zero_mul, Nat.zero_add, UInt8.toNat_toUInt32]

theorem pack_and (c : UInt8) {i : ℕ} (hi : i < 2 ^ 24) : pack c i &&& 0xff = c.toUInt32 := by
  refine UInt32.toNat_inj.mp ?_
  have hc := c.toNat_lt
  rw [UInt32.toNat_and, toNat_pack c hi, UInt8.toNat_toUInt32]
  show (i * 2 ^ 8 + c.toNat) &&& (2 ^ 8 - 1) = _
  rw [Nat.and_two_pow_sub_one_eq_mod]
  omega

theorem pack_shiftRight (c : UInt8) {i : ℕ} (hi : i < 2 ^ 24) :
    pack c i >>> 8 = UInt32.ofNat i := by
  refine UInt32.toNat_inj.mp ?_
  have hc := c.toNat_lt
  have h := Bits.toNat_shiftRight (pack c i) (show 8 < 32 by decide)
  rw [toNat_pack c hi] at h
  rw [UInt32.toNat_ofNat_of_lt' (Nat.lt_trans hi (by decide))]
  refine h.trans ?_
  omega

/-- The row of the next rotation: the place of the byte that the row begins with. -/
def nextRow (ll : List UInt8) (k : ℕ) : ℕ := (ordered (keys ll) 256)[k]?.getD 0

section NextRow

variable {ll : List UInt8} {k : ℕ}

theorem length_ordered_keys (ll : List UInt8) : (ordered (keys ll) 256).length = ll.length := by
  rw [length_ordered, below_eq_length (keys_lt ll), length_keys]

theorem ordered_eq_nextRow (hk : k < ll.length) :
    (ordered (keys ll) 256)[k]? = some (nextRow ll k) := by
  rw [nextRow, List.getElem?_eq_getElem (by rw [length_ordered_keys]; exact hk)]
  rfl

theorem nextRow_lt (hk : k < ll.length) : nextRow ll k < ll.length := by
  have hmem := lt_of_mem_ordered (List.mem_of_getElem? (ordered_eq_nextRow hk))
  rw [length_keys] at hmem
  exact hmem

theorem keys_getElem? {i : ℕ} {c : UInt8} (hc : ll[i]? = some c) :
    (keys ll)[i]? = some c.toNat := by
  rw [keys, List.getElem?_map, hc, Option.map_some]

/-- The row before the rotation of a row. -/
def prevRow (ll : List UInt8) (i : ℕ) : ℕ :=
  match ll[i]? with
  | some c => below (keys ll) c.toNat + earlier (keys ll) c.toNat i
  | none => 0

theorem prevRow_eq {i : ℕ} {c : UInt8} (hc : ll[i]? = some c) :
    prevRow ll i = below (keys ll) c.toNat + earlier (keys ll) c.toNat i := by
  rw [prevRow, hc]

theorem prevRow_lt {i : ℕ} (hi : i < ll.length) : prevRow ll i < ll.length := by
  have hget : ll[i]? = some ll[i] := List.getElem?_eq_getElem hi
  have hplace := ordered_getElem? (keys_getElem? hget) ll[i].toNat_lt
  have hlt := (List.getElem?_eq_some_iff.mp hplace).1
  rw [length_ordered, below_eq_length (keys_lt ll), length_keys] at hlt
  rw [prevRow_eq hget]
  exact hlt

theorem nextRow_prevRow {i : ℕ} (hi : i < ll.length) : nextRow ll (prevRow ll i) = i := by
  have hget : ll[i]? = some ll[i] := List.getElem?_eq_getElem hi
  have hplace := ordered_getElem? (keys_getElem? hget) ll[i].toNat_lt
  rw [nextRow, prevRow_eq hget, show (256 : ℕ) = UInt8.size from rfl, hplace]
  rfl

theorem nextRow_injective {j : ℕ} (hk : k < ll.length) (hj : j < ll.length)
    (h : nextRow ll k = nextRow ll j) : k = j := by
  have hnodup : (ordered (keys ll) 256).Nodup :=
    (ordered_perm (keys_lt ll)).nodup_iff.mpr List.nodup_range
  have hsame : (ordered (keys ll) 256)[k]? = (ordered (keys ll) 256)[j]? := by
    rw [ordered_eq_nextRow hk, ordered_eq_nextRow hj, h]
  exact (List.getElem?_inj (by rw [length_ordered_keys]; exact hk) hnodup).mp hsame

theorem prevRow_nextRow (hk : k < ll.length) : prevRow ll (nextRow ll k) = k :=
  nextRow_injective (prevRow_lt (nextRow_lt hk)) hk (nextRow_prevRow (nextRow_lt hk))

end NextRow

/-- `cftab` after the first `i` rows: each of them took the next place of its byte. -/
def Counted (ll : List UInt8) (i : ℕ) (cftab : List ℤ) : Prop :=
  cftab.length = 257 ∧
    ∀ c < 256, cftab[c]? = some ((below (keys ll) c + earlier (keys ll) c i : ℕ) : ℤ)

theorem Cftab.counted {ll : List UInt8} {cftab : List ℤ} (h : Cftab ll cftab) :
    Counted ll 0 cftab := by
  refine ⟨h.1, fun c hc => ?_⟩
  rw [h.2 c (by omega)]
  rfl

section Counted

variable {ll : List UInt8} {cftab : List ℤ} {i : ℕ} {c : UInt8}

theorem Counted.get (h : Counted ll i cftab) (hc : ll[i]? = some c) :
    cftab[c.toNat]? = some (prevRow ll i : ℤ) := by
  rw [h.2 _ c.toNat_lt, prevRow_eq hc]

theorem Counted.returns_write (h : Counted ll i cftab) (hc : ll[i]? = some c) :
    Returns (write cftab c.toNat ((prevRow ll i : ℤ) + 1)) (Counted ll (i + 1)) := by
  have hlt : c.toNat < 256 := c.toNat_lt
  refine Returns.of_eq (write_eq (by rw [h.1]; omega) _) ⟨?_, ?_⟩
  · rw [List.length_set, h.1]
  · intro b hb
    have hstep : earlier (keys ll) b (i + 1) =
        earlier (keys ll) b i + if c.toNat = b then 1 else 0 := earlier_succ (keys_getElem? hc)
    rw [List.getElem?_set, hstep]
    by_cases heq : c.toNat = b
    · rw [if_pos heq, if_pos (by rw [h.1]; omega), if_pos heq, prevRow_eq hc, heq, ← Nat.add_assoc,
        Nat.cast_succ]
    · rw [if_neg heq, if_neg heq, h.2 b hb, Nat.add_zero]

end Counted

/-- Every row gets the row of the next rotation. -/
theorem returns_fillTt {ll : List UInt8} {cftab : List ℤ} (hcftab : Cftab ll cftab)
    (hsize : ll.length ≤ 2 ^ 24) :
    Returns (fillTt ll.length (ll.map UInt8.toUInt32) cftab) fun (tt, _) =>
      tt.length = ll.length ∧ ∀ k c, ll[k]? = some c → tt[k]? = some (pack c (nextRow ll k)) := by
  refine (Returns.loop (fun i (s : List UInt32 × List ℤ) => s.1.length = ll.length ∧
    Counted ll i s.2 ∧ ∀ k c, ll[k]? = some c →
      s.1[k]? = some (pack c (if nextRow ll k < i then nextRow ll k else 0))) (Nat.zero_le _)
    ?_ ?_).mono ?_
  · refine ⟨List.length_map _, hcftab.counted, ?_⟩
    intro k c hc
    rw [List.getElem?_map, hc, Option.map_some, if_neg (Nat.not_lt_zero _), pack_zero]
  · rintro i ⟨tt, cftab⟩ - hi ⟨hlength, hcounted, htt⟩
    dsimp only at hlength hcounted htt
    have hget : ll[i]? = some ll[i] := List.getElem?_eq_getElem hi
    have hrow : prevRow ll i < ll.length := prevRow_lt hi
    have hnext : nextRow ll (prevRow ll i) = i := nextRow_prevRow hi
    have hpack : (if nextRow ll i < i then nextRow ll i else 0) < 2 ^ 24 := by
      have hlt := nextRow_lt hi
      split <;> omega
    refine Returns.bind (Returns.of_eq (htt i _ hget) rfl) ?_
    rintro _ rfl
    rw [pack_and _ hpack, UInt8.toNat_toUInt32]
    refine Returns.bind (Returns.of_eq (hcounted.get hget) rfl) ?_
    rintro _ rfl
    refine Returns.bind (Returns.of_eq (index_natCast _) rfl) ?_
    rintro _ rfl
    refine Returns.bind (Returns.of_eq (htt _ _ (List.getElem?_eq_getElem hrow)) rfl) ?_
    rintro _ rfl
    rw [hnext, if_neg (Nat.lt_irrefl i), pack_zero]
    refine Returns.bind (Returns.of_eq (write_eq (by omega) _) rfl) ?_
    rintro _ rfl
    refine Returns.bind (Returns.of_eq (hcounted.get hget) rfl) ?_
    rintro _ rfl
    refine Returns.bind (hcounted.returns_write hget) fun cftab hcounted => ?_
    refine Returns.pure ⟨by rw [List.length_set, hlength], hcounted, ?_⟩
    intro k c hc
    show (tt.set _ _)[k]? = _
    rw [List.getElem?_set]
    by_cases heq : prevRow ll i = k
    · subst heq
      rw [List.getElem?_eq_getElem hrow] at hc
      cases hc
      rw [if_pos rfl, if_pos (by omega), hnext, if_pos (Nat.lt_succ_self i)]
      rfl
    · have hk : k < ll.length := (List.getElem?_eq_some_iff.mp hc).1
      have hne : nextRow ll k ≠ i := by
        intro hki
        exact heq (nextRow_injective hrow hk (hnext.trans hki.symm))
      rw [if_neg heq, htt k c hc]
      congr 2
      by_cases hlt : nextRow ll k < i
      · rw [if_pos hlt, if_pos (by omega)]
      · rw [if_neg hlt, if_neg (by omega)]
  · rintro ⟨tt, cftab⟩ ⟨hlength, -, htt⟩
    refine ⟨hlength, ?_⟩
    intro k c hc
    have hk := nextRow_lt (List.getElem?_eq_some_iff.mp hc).1
    have hdone := htt k c hc
    rw [if_pos hk] at hdone
    exact hdone

/-! ## The arrays of the small version -/

/-- The arrays `ll16` and `ll4`: numbers of 20 bits, the upper four of them two to a byte. -/
structure SmallArrays where
  ll16 : List UInt16
  ll4 : List UInt8

namespace SmallArrays

/-- `GET_LL4`. -/
def getLL4 (ll4 : List UInt8) (i : ℕ) : Option UInt32 := do
  return ((← ll4[i >>> 1]?).toUInt32 >>> .ofNat ((i <<< 2) &&& 4)) &&& 0xf

/-- `SET_LL4`. -/
def setLL4 (ll4 : List UInt8) (i : ℕ) (n : UInt32) : Option (List UInt8) := do
  let byte ← ll4[i >>> 1]?
  if i &&& 1 = 0 then write ll4 (i >>> 1) ((byte &&& 0xf0) ||| n.toUInt8)
  else write ll4 (i >>> 1) ((byte &&& (0x0f : UInt8)) ||| (n <<< (4 : UInt32)).toUInt8)

/-- `GET_LL`. -/
def getLL (a : SmallArrays) (i : ℕ) : Option UInt32 := do
  return (← a.ll16[i]?).toUInt32 ||| (← getLL4 a.ll4 i) <<< 16

/-- `SET_LL`. -/
def setLL (a : SmallArrays) (i : ℕ) (n : UInt32) : Option SmallArrays := do
  let ll16 ← write a.ll16 i (n &&& 0xffff).toUInt16
  return { ll16, ll4 := ← setLL4 a.ll4 i (n >>> 16) }

/-- The four bits that belong to a place. -/
def nibble (byte : UInt8) (i : ℕ) : ℕ := byte.toNat / 2 ^ (4 * (i % 2)) % 16

theorem getLL4_eq {ll4 : List UInt8} {i : ℕ} {byte : UInt8} (h : ll4[i / 2]? = some byte) :
    ∃ v, getLL4 ll4 i = some v ∧ v.toNat = nibble byte i := by
  have hplace : i >>> 1 = i / 2 := Nat.shiftRight_eq_div_pow i 1
  have hshift : (i <<< 2) &&& 4 = 4 * (i % 2) := by
    have hbit := Nat.two_pow_and (i <<< 2) 2
    rw [Nat.testBit_shiftLeft, Nat.sub_self, Nat.testBit_zero, Nat.and_comm] at hbit
    rcases Nat.mod_two_eq_zero_or_one i with hi | hi
    · rw [hi] at hbit ⊢
      exact hbit
    · rw [hi] at hbit ⊢
      exact hbit
  refine ⟨_, by rw [getLL4, hplace, h]; rfl, ?_⟩
  rw [UInt32.toNat_and, hshift, Bits.toNat_shiftRight _ (by omega), UInt8.toNat_toUInt32, nibble]
  exact Nat.and_two_pow_sub_one_eq_mod _ 4

theorem and_f0 (byte : UInt8) : (byte &&& 0xf0).toNat = byte.toNat / 16 * 2 ^ 4 := by
  have hall : ∀ x : Fin 256, x.val &&& 0xf0 = x.val / 16 * 2 ^ 4 := by decide +kernel
  rw [UInt8.toNat_and]
  exact hall ⟨byte.toNat, byte.toNat_lt⟩

theorem and_0f (byte : UInt8) : (byte &&& 0x0f).toNat = byte.toNat % 16 := by
  rw [UInt8.toNat_and]
  exact Nat.and_two_pow_sub_one_eq_mod _ 4

/-- The four bits are replaced, and the other four of the byte stay. -/
theorem returns_setLL4 {ll4 : List UInt8} {i : ℕ} {n : UInt32} (hi : i / 2 < ll4.length)
    (hn : n.toNat < 16) :
    Returns (setLL4 ll4 i n) fun ll4' => ll4'.length = ll4.length ∧
      ∀ j byte, ll4[j / 2]? = some byte → ∃ byte', ll4'[j / 2]? = some byte' ∧
        nibble byte' j = if i = j then n.toNat else nibble byte j := by
  have hplace : i >>> 1 = i / 2 := Nat.shiftRight_eq_div_pow i 1
  obtain ⟨old, hold⟩ : ∃ old, ll4[i / 2]? = some old := ⟨_, List.getElem?_eq_getElem hi⟩
  have hbyte := old.toNat_lt
  -- Whatever byte is written, only the two places of that byte are concerned.
  have hwrite : ∀ new : UInt8, nibble new i = n.toNat →
      (∀ j, j / 2 = i / 2 → i ≠ j → nibble new j = nibble old j) →
      Returns (write ll4 (i / 2) new) fun ll4' => ll4'.length = ll4.length ∧
        ∀ j byte, ll4[j / 2]? = some byte → ∃ byte', ll4'[j / 2]? = some byte' ∧
          nibble byte' j = if i = j then n.toNat else nibble byte j := by
    intro new hnew hother
    refine Returns.of_eq (write_eq hi _) ⟨List.length_set, ?_⟩
    intro j byte hj
    rw [List.getElem?_set]
    by_cases hsame : i / 2 = j / 2
    · refine ⟨new, by rw [if_pos hsame, if_pos hi], ?_⟩
      rw [← hsame, hold] at hj
      cases hj
      by_cases heq : i = j
      · rw [if_pos heq, ← heq, hnew]
      · rw [if_neg heq, hother j hsame.symm heq]
    · refine ⟨byte, by rw [if_neg hsame, hj], ?_⟩
      rw [if_neg]
      rintro rfl
      exact hsame rfl
  rw [setLL4, hplace, hold, Nat.and_one_is_mod]
  show Returns (if i % 2 = 0 then _ else _) _
  split
  · rename_i heven
    have hvalue : ((old &&& 0xf0) ||| n.toUInt8).toNat = old.toNat / 16 * 2 ^ 4 + n.toNat := by
      rw [UInt8.toNat_or, and_f0, UInt32.toNat_toUInt8, Nat.mod_eq_of_lt (by omega),
        Bits.mul_or_eq_add hn]
    refine hwrite _ ?_ ?_
    · rw [nibble, hvalue, heven]
      omega
    · intro j hj hne
      rw [nibble, nibble, hvalue, show j % 2 = 1 by omega]
      omega
  · rename_i hodd
    have hvalue : ((old &&& (0x0f : UInt8)) ||| (n <<< (4 : UInt32)).toUInt8).toNat =
        n.toNat * 2 ^ 4 + old.toNat % 16 := by
      have hshift := Bits.toNat_shiftLeft n (show 4 < 32 by decide)
      rw [Nat.mod_eq_of_lt (by omega)] at hshift
      have hshift' : (n <<< 4).toNat = n.toNat * 2 ^ 4 := hshift
      rw [UInt8.toNat_or, and_0f, UInt32.toNat_toUInt8, hshift',
        Nat.mod_eq_of_lt (show n.toNat * 2 ^ 4 < 2 ^ 8 by omega), Nat.or_comm,
        Bits.mul_or_eq_add (show old.toNat % 16 < 2 ^ 4 by omega)]
    refine hwrite _ ?_ ?_
    · rw [nibble, hvalue, show i % 2 = 1 by omega]
      omega
    · intro j hj hne
      rw [nibble, nibble, hvalue, show j % 2 = 0 by omega]
      omega

theorem getLL_eq {a : SmallArrays} {i : ℕ} {x : UInt16} {byte : UInt8}
    (hx : a.ll16[i]? = some x) (hbyte : a.ll4[i / 2]? = some byte) :
    ∃ v, a.getLL i = some v ∧ v.toNat = nibble byte i * 2 ^ 16 + x.toNat := by
  obtain ⟨u, hu, huval⟩ := getLL4_eq hbyte
  have hnibble : nibble byte i < 16 := Nat.mod_lt _ (by decide)
  refine ⟨_, by rw [getLL, hx, hu]; rfl, ?_⟩
  have hshift := Bits.toNat_shiftLeft u (show 16 < 32 by decide)
  rw [huval, Nat.mod_eq_of_lt (by omega)] at hshift
  have hshift' : (u <<< 16).toNat = nibble byte i * 2 ^ 16 := hshift
  rw [UInt32.toNat_or, UInt16.toNat_toUInt32, hshift', Nat.or_comm,
    Bits.mul_or_eq_add x.toNat_lt]

/-- The arrays hold the numbers `f`. -/
def Holds (a : SmallArrays) (size : ℕ) (f : ℕ → ℕ) : Prop :=
  size ≤ a.ll16.length ∧ size ≤ 2 * a.ll4.length ∧
    ∀ i < size, ∃ v, a.getLL i = some v ∧ v.toNat = f i

theorem Holds.returns_setLL {a : SmallArrays} {size i : ℕ} {f : ℕ → ℕ} (h : a.Holds size f)
    (hi : i < size) {n : UInt32} (hn : n.toNat < 2 ^ 20) :
    Returns (a.setLL i n) fun a' =>
      a'.Holds size (Function.update f i n.toNat) ∧
        (∀ j, i ≠ j → a'.ll16[j]? = a.ll16[j]?) := by
  obtain ⟨h16, h4, hget⟩ := h
  have hlow : (n &&& 0xffff).toUInt16.toNat = n.toNat % 2 ^ 16 := by
    have hand : (n &&& 0xffff).toNat = n.toNat % 2 ^ 16 := by
      rw [UInt32.toNat_and]
      exact Nat.and_two_pow_sub_one_eq_mod _ 16
    rw [UInt32.toNat_toUInt16, hand, Nat.mod_mod]
  have hhigh : (n >>> 16).toNat = n.toNat / 2 ^ 16 :=
    Bits.toNat_shiftRight n (show 16 < 32 by decide)
  refine Returns.bind (Returns.of_eq (write_eq (by omega) _) rfl) ?_
  rintro _ rfl
  refine Returns.bind (returns_setLL4 (by omega) (by rw [hhigh]; omega)) ?_
  rintro ll4 ⟨hsize, hnibbles⟩
  refine Returns.pure ⟨⟨?_, ?_, ?_⟩, ?_⟩
  · rw [List.length_set]
    exact h16
  · rw [hsize]
    exact h4
  · intro j hj
    have hbyte : a.ll4[j / 2]? = some (a.ll4.get ⟨j / 2, by omega⟩) :=
      List.getElem?_eq_getElem (by omega)
    obtain ⟨byte, hnew, hvalue⟩ := hnibbles j _ hbyte
    have hx : a.ll16[j]? = some (a.ll16.get ⟨j, by omega⟩) := List.getElem?_eq_getElem (by omega)
    by_cases heq : i = j
    · subst heq
      rw [if_pos rfl] at hvalue
      have hset : (a.ll16.set i (n &&& 0xffff).toUInt16)[i]? = some (n &&& 0xffff).toUInt16 :=
        List.getElem?_set_self (by omega)
      obtain ⟨v, hv, hvval⟩ := getLL_eq (a := ⟨_, ll4⟩) hset hnew
      refine ⟨v, hv, ?_⟩
      rw [hvval, hvalue, hhigh, hlow, Function.update_self]
      omega
    · rw [if_neg heq] at hvalue
      have hset : (a.ll16.set i (n &&& 0xffff).toUInt16)[j]? = some (a.ll16.get ⟨j, by omega⟩) := by
        rw [List.getElem?_set_ne heq, hx]
      obtain ⟨v, hv, hvval⟩ := getLL_eq (a := ⟨_, ll4⟩) hset hnew
      obtain ⟨w, hw, hwval⟩ := getLL_eq hx hbyte
      obtain ⟨w', hw', hwval'⟩ := hget j hj
      rw [hw] at hw'
      cases hw'
      refine ⟨v, hv, ?_⟩
      rw [hvval, hvalue, ← hwval, hwval', Function.update_of_ne (Ne.symm heq)]
  · intro j hj
    exact List.getElem?_set_ne hj

end SmallArrays

/-! ## The small version -/

/-- The loop under "compute the T vector". -/
def fillLL (nblock : ℕ) (a : SmallArrays) (cftabCopy : List ℤ) : Option (SmallArrays × List ℤ) :=
  loop 0 nblock (fun i (a, cftabCopy) => do
    let uc := (← a.ll16[i]?).toUInt8.toNat
    let a ← a.setLL i (.ofNat (← cftabCopy[uc]?).toNat)
    return (a, ← write cftabCopy uc ((← cftabCopy[uc]?) + 1))) (a, cftabCopy)

/-- The loop under "Compute T^(-1) by pointer reversal on T", for so many turns. -/
def reversePointers (origPtr : ℕ) : ℕ → ℕ → ℕ → SmallArrays → Option SmallArrays
  | 0, _, _, _ => none
  | turns + 1, i, j, a => do
      let tmp ← a.getLL j
      let a ← a.setLL j (.ofNat i)
      if j = origPtr then return a else reversePointers origPtr turns j tmp.toNat a

/-- All that the small version does to its arrays. -/
def invertSmall (nblock origPtr : ℕ) (a : SmallArrays) (cftab : List ℤ) : Option SmallArrays := do
  let (a, _) ← fillLL nblock a cftab
  reversePointers origPtr nblock origPtr (← a.getLL origPtr).toNat a

/-- `BZ2_indexIntoF`, from the bounds that it has reached. -/
def indexIntoF (indx : ℤ) (cftab : List ℤ) (nb na : ℕ) : Option ℕ :=
  if nb + 1 < na then do
    let mid := (nb + na) >>> 1
    if indx ≥ (← cftab[mid]?) then indexIntoF indx cftab mid na else indexIntoF indx cftab nb mid
  else some nb
termination_by na - nb
decreasing_by
  · rw [Nat.shiftRight_eq_div_pow]
    omega
  · rw [Nat.shiftRight_eq_div_pow]
    omega

section Small

variable {ll : List UInt8} {cftab : List ℤ}

theorem SmallArrays.exists_holds {a : SmallArrays} {size : ℕ} (h16 : size ≤ a.ll16.length)
    (h4 : size ≤ 2 * a.ll4.length) : ∃ f, a.Holds size f := by
  refine ⟨fun i => ((a.getLL i).map UInt32.toNat).getD 0, h16, h4, fun i hi => ?_⟩
  obtain ⟨v, hv, -⟩ := getLL_eq (a := a) (i := i) (List.getElem?_eq_getElem (by omega))
    (List.getElem?_eq_getElem (by omega))
  refine ⟨v, hv, ?_⟩
  show _ = ((a.getLL i).map UInt32.toNat).getD 0
  rw [hv]
  rfl

/-- Every row gets the row that its last byte goes to. -/
theorem returns_fillLL {a : SmallArrays} (hcftab : Cftab ll cftab) (hsize : ll.length ≤ 2 ^ 20)
    (h16 : ll.length ≤ a.ll16.length) (h4 : ll.length ≤ 2 * a.ll4.length)
    (hll : ∀ (j : ℕ) (c : UInt8), ll[j]? = some c → a.ll16[j]? = some c.toUInt16) :
    Returns (fillLL ll.length a cftab) fun (a, _) => a.Holds ll.length (prevRow ll) := by
  obtain ⟨f, hf⟩ := SmallArrays.exists_holds h16 h4
  refine (Returns.loop (fun i (s : SmallArrays × List ℤ) => Counted ll i s.2 ∧
    (∀ (j : ℕ) (c : UInt8), i ≤ j → ll[j]? = some c → s.1.ll16[j]? = some c.toUInt16) ∧
    ∃ f, s.1.Holds ll.length f ∧ ∀ j < i, f j = prevRow ll j) (Nat.zero_le _) ?_ ?_).mono ?_
  · refine ⟨hcftab.counted, fun j c _ => hll j c, f, hf, ?_⟩
    intro j hj
    exact absurd hj (Nat.not_lt_zero j)
  · rintro i ⟨a, cftab⟩ - hi ⟨hcounted, htodo, f, hf, hdone⟩
    dsimp only at hcounted htodo hf
    have hget : ll[i]? = some ll[i] := List.getElem?_eq_getElem hi
    have hrow := prevRow_lt hi
    have hbyte : ll[i].toUInt16.toUInt8.toNat = ll[i].toNat := by
      rw [UInt16.toNat_toUInt8, UInt8.toNat_toUInt16, Nat.mod_eq_of_lt ll[i].toNat_lt]
    have hvalue : (UInt32.ofNat (prevRow ll i)).toNat = prevRow ll i :=
      UInt32.toNat_ofNat_of_lt' (by
        show _ < 2 ^ 32
        omega)
    refine Returns.bind (Returns.of_eq (htodo i _ (Nat.le_refl i) hget) rfl) ?_
    rintro _ rfl
    rw [hbyte]
    refine Returns.bind (Returns.of_eq (hcounted.get hget) rfl) ?_
    rintro _ rfl
    rw [Int.toNat_natCast]
    refine Returns.bind (hf.returns_setLL hi (by rw [hvalue]; omega)) ?_
    rintro a' ⟨ha', hsame⟩
    refine Returns.bind (Returns.of_eq (hcounted.get hget) rfl) ?_
    rintro _ rfl
    refine Returns.bind (hcounted.returns_write hget) fun cftab hcounted => ?_
    refine Returns.pure ⟨hcounted, ?_, _, ha', ?_⟩
    · intro j c hj hc
      show a'.ll16[j]? = _
      rw [hsame j (by omega), htodo j c (by omega) hc]
    · intro j hj
      rw [hvalue]
      by_cases heq : j = i
      · rw [heq, Function.update_self]
      · rw [Function.update_of_ne heq, hdone j (by omega)]
  · rintro ⟨a, cftab⟩ ⟨-, -, f, hf, hdone⟩
    refine ⟨hf.1, hf.2.1, ?_⟩
    intro i hi
    rw [← hdone i hi]
    exact hf.2.2 i hi

/-- The row goes back to where it comes from. -/
theorem iterate_lt {origPtr : ℕ} (horig : origPtr < ll.length) (m : ℕ) :
    (prevRow ll)^[m] origPtr < ll.length := by
  induction m with
  | zero => exact horig
  | succ m ih =>
      rw [Function.iterate_succ_apply']
      exact prevRow_lt ih

/-- A row comes back after at most as many steps as there are rows, and not to any other
row before. -/
theorem exists_period {origPtr : ℕ} (horig : origPtr < ll.length) :
    ∃ p, 0 < p ∧ p ≤ ll.length ∧ (prevRow ll)^[p] origPtr = origPtr ∧
      ∀ t u, t < p → u < p → (prevRow ll)^[t] origPtr = (prevRow ll)^[u] origPtr → t = u := by
  have hstep : ∀ k : Fin ll.length, prevRow ll k < ll.length := fun k => prevRow_lt k.isLt
  obtain ⟨f, hf⟩ : ∃ f : Fin ll.length → Fin ll.length, ∀ k, (f k).val = prevRow ll k :=
    ⟨fun k => ⟨prevRow ll k, hstep k⟩, fun _ => rfl⟩
  have hinjective : Function.Injective f := by
    intro k j hkj
    have hval : prevRow ll k = prevRow ll j := by rw [← hf, ← hf, hkj]
    have hback := congrArg (nextRow ll) hval
    rw [nextRow_prevRow k.isLt, nextRow_prevRow j.isLt] at hback
    exact Fin.ext hback
  have hiterate : ∀ m, (f^[m] ⟨origPtr, horig⟩).val = (prevRow ll)^[m] origPtr := by
    intro m
    induction m with
    | zero => rfl
    | succ m ih => rw [Function.iterate_succ_apply', Function.iterate_succ_apply', hf, ih]
  have hmem := hinjective.mem_periodicPts ⟨origPtr, horig⟩
  refine ⟨Function.minimalPeriod f ⟨origPtr, horig⟩,
    Function.minimalPeriod_pos_of_mem_periodicPts hmem, ?_, ?_, ?_⟩
  · have hcard := Function.minimalPeriod_le_card (f := f) (x := ⟨origPtr, horig⟩)
    rw [Fintype.card_fin] at hcard
    exact hcard
  · rw [← hiterate, Function.iterate_minimalPeriod]
  · intro t u ht hu htu
    refine Function.iterate_injOn_Iio_minimalPeriod (f := f) (x := ⟨origPtr, horig⟩) ht hu ?_
    refine Fin.ext ?_
    show (f^[t] _).val = (f^[u] _).val
    rw [hiterate, hiterate, htu]

section Reverse

variable {origPtr p : ℕ} {f : ℕ → ℕ} {a : SmallArrays}

/-- The pointers of the rows after `origPtr` are turned around, as far as `m`. -/
def Reversed (ll : List UInt8) (origPtr m : ℕ) (f : ℕ → ℕ) : Prop :=
  ∀ t, 0 < t → t ≤ m → f ((prevRow ll)^[t] origPtr) = (prevRow ll)^[t - 1] origPtr

theorem returns_reversePointers (horig : origPtr < ll.length) (hsize : ll.length ≤ 2 ^ 20)
    (hperiod : (prevRow ll)^[p] origPtr = origPtr)
    (hfirst : ∀ t u, t < p → u < p →
      (prevRow ll)^[t] origPtr = (prevRow ll)^[u] origPtr → t = u)
    {m turns : ℕ} (hm : m < p) (hturns : p ≤ m + turns) (hf : a.Holds ll.length f)
    (hreversed : Reversed ll origPtr m f)
    (hkept : ∀ y < ll.length, (∀ t, 0 < t → t ≤ m → (prevRow ll)^[t] origPtr ≠ y) →
      f y = prevRow ll y) :
    Returns (reversePointers origPtr turns ((prevRow ll)^[m] origPtr)
        ((prevRow ll)^[m + 1] origPtr) a)
      fun a => ∃ f, a.Holds ll.length f ∧ Reversed ll origPtr p f := by
  induction turns generalizing m a f with
  | zero => omega
  | succ turns ih =>
      have hlt := iterate_lt horig m
      have hlt' := iterate_lt horig (m + 1)
      have hnew : ∀ t, 0 < t → t ≤ m → (prevRow ll)^[t] origPtr ≠ (prevRow ll)^[m + 1] origPtr := by
        intro t ht htm heq
        rcases Nat.lt_or_eq_of_le (Nat.succ_le_of_lt hm) with hless | hlast
        · have htu := hfirst t (m + 1) (by omega) hless heq
          omega
        · rw [← hlast] at hperiod hfirst
          have htu := hfirst t 0 (by omega) (by omega) (heq.trans hperiod)
          omega
      have hvalue : (UInt32.ofNat ((prevRow ll)^[m] origPtr)).toNat = (prevRow ll)^[m] origPtr :=
        UInt32.toNat_ofNat_of_lt' (by
          show _ < 2 ^ 32
          omega)
      obtain ⟨v, hv, hvval⟩ := hf.2.2 _ hlt'
      rw [hkept _ hlt' hnew] at hvval
      refine Returns.bind (Returns.of_eq hv rfl) ?_
      rintro _ rfl
      refine Returns.bind (hf.returns_setLL hlt' (by rw [hvalue]; omega)) ?_
      rintro a' ⟨ha', -⟩
      rw [hvalue] at ha'
      have hreversed' : Reversed ll origPtr (m + 1)
          (Function.update f ((prevRow ll)^[m + 1] origPtr) ((prevRow ll)^[m] origPtr)) := by
        intro t ht htm
        rcases Nat.lt_or_eq_of_le htm with hless | rfl
        · rw [Function.update_of_ne (hnew t ht (by omega)), hreversed t ht (by omega)]
        · rw [Function.update_self, Nat.add_sub_cancel]
      by_cases hback : (prevRow ll)^[m + 1] origPtr = origPtr
      · have hlast : m + 1 = p := by
          by_contra hne
          have htu := hfirst (m + 1) 0 (by omega) (by omega) hback
          omega
        rw [if_pos hback]
        exact Returns.pure ⟨_, ha', hlast ▸ hreversed'⟩
      · have hless : m + 1 < p := by
          refine Nat.lt_of_le_of_ne hm fun hlast => hback ?_
          rw [← hlast] at hperiod
          exact hperiod
        have hnext : (prevRow ll)^[m + 1 + 1] origPtr = prevRow ll ((prevRow ll)^[m + 1] origPtr) :=
          Function.iterate_succ_apply' _ _ _
        rw [if_neg hback, hvval, ← hnext]
        refine ih hless (by omega) ha' hreversed' ?_
        intro y hy hother
        rw [Function.update_of_ne (Ne.symm (hother (m + 1) (by omega) (Nat.le_refl _))),
          hkept y hy fun t ht htm => hother t ht (by omega)]

/-- From row to row the arrays lead through the rotations, as long as one likes. -/
theorem returns_invertSmall {cftab : List ℤ} (hcftab : Cftab ll cftab)
    (hsize : ll.length ≤ 2 ^ 20) (horig : origPtr < ll.length)
    (h16 : ll.length ≤ a.ll16.length) (h4 : ll.length ≤ 2 * a.ll4.length)
    (hll : ∀ (j : ℕ) (c : UInt8), ll[j]? = some c → a.ll16[j]? = some c.toUInt16) :
    Returns (invertSmall ll.length origPtr a cftab) fun a => ∀ m, ∃ v,
      a.getLL ((nextRow ll)^[m] origPtr) = some v ∧ v.toNat = (nextRow ll)^[m + 1] origPtr := by
  obtain ⟨p, hpos, hle, hperiod, hfirst⟩ := exists_period horig
  refine Returns.bind (returns_fillLL hcftab hsize h16 h4 hll) ?_
  rintro ⟨a, cftab'⟩ hholds
  dsimp only at hholds
  obtain ⟨v, hv, hvval⟩ := hholds.2.2 origPtr horig
  refine Returns.bind (Returns.of_eq hv rfl) ?_
  rintro _ rfl
  rw [hvval]
  refine (returns_reversePointers (m := 0) horig hsize hperiod hfirst hpos (by omega) hholds
    (fun t ht ht' => absurd ht' (by omega)) (fun y _ _ => rfl)).mono ?_
  rintro a ⟨f, hf, hreversed⟩ m
  -- The rows that the walk visits are those whose pointers were turned around.
  have hvisited : ∃ t, 0 < t ∧ t ≤ p ∧ (prevRow ll)^[t] origPtr = (nextRow ll)^[m] origPtr := by
    induction m with
    | zero => exact ⟨p, hpos, Nat.le_refl p, hperiod⟩
    | succ m ih =>
        obtain ⟨t, ht, htp, heq⟩ := ih
        rw [Function.iterate_succ_apply', ← heq]
        obtain ⟨t, rfl⟩ := Nat.exists_eq_add_of_le' ht
        rw [Function.iterate_succ_apply', nextRow_prevRow (iterate_lt horig t)]
        rcases Nat.eq_zero_or_pos t with rfl | htpos
        · exact ⟨p, hpos, Nat.le_refl p, hperiod⟩
        · exact ⟨t, htpos, by omega, rfl⟩
  obtain ⟨t, ht, htp, heq⟩ := hvisited
  obtain ⟨w, hw, hwval⟩ := hf.2.2 _ (iterate_lt horig t)
  rw [heq] at hw hwval
  refine ⟨w, hw, ?_⟩
  rw [hwval, ← heq, hreversed t ht htp, Function.iterate_succ_apply', ← heq]
  obtain ⟨t, rfl⟩ := Nat.exists_eq_add_of_le' ht
  rw [Nat.add_sub_cancel, Function.iterate_succ_apply', nextRow_prevRow (iterate_lt horig t)]

end Reverse

/-- The search stays between the bounds that it starts with. -/
theorem returns_indexIntoF {f : ℕ → ℤ} (hcftab : ∀ c ≤ 256, cftab[c]? = some (f c)) {k : ℤ}
    {nb na : ℕ} (hlt : nb < na) (hna : na ≤ 256) (hlow : f nb ≤ k) (hhigh : k < f na) :
    Returns (indexIntoF k cftab nb na) fun c => c < 256 ∧ f c ≤ k ∧ k < f (c + 1) := by
  induction hwidth : na - nb using Nat.strongRecOn generalizing nb na with
  | ind width ih =>
      rw [indexIntoF]
      by_cases hmore : nb + 1 < na
      · have hmid : (nb + na) >>> 1 = (nb + na) / 2 := Nat.shiftRight_eq_div_pow _ 1
        rw [if_pos hmore, hmid]
        refine Returns.bind (Returns.of_eq (hcftab ((nb + na) / 2) (by omega)) rfl) ?_
        rintro _ rfl
        by_cases hle : k ≥ f ((nb + na) / 2)
        · rw [if_pos hle]
          exact ih _ (by omega) (by omega) hna hle hhigh rfl
        · rw [if_neg hle]
          exact ih _ (by omega) (by omega) (by omega) hlow (not_le.mp hle) rfl
      · rw [if_neg hmore]
        obtain rfl : na = nb + 1 := by omega
        exact Returns.pure ⟨by omega, hlow, hhigh⟩

end Small

/-! ### The size of `ll4` -/

namespace SmallArrays

theorem length_of_setLL {a a' : SmallArrays} {i : ℕ} {n : UInt32} (h : a.setLL i n = some a') :
    a'.ll4.length = a.ll4.length := by
  obtain ⟨ll16, -, h⟩ := Option.bind_eq_some_iff.mp h
  obtain ⟨ll4, hll4, h⟩ := Option.bind_eq_some_iff.mp h
  cases h
  obtain ⟨byte, -, hwrite⟩ := Option.bind_eq_some_iff.mp hll4
  split at hwrite
  · exact length_of_write hwrite
  · exact length_of_write hwrite

end SmallArrays

theorem length_of_reversePointers {origPtr turns i j : ℕ} {a a' : SmallArrays}
    (h : reversePointers origPtr turns i j a = some a') : a'.ll4.length = a.ll4.length := by
  induction turns generalizing i j a with
  | zero => cases h
  | succ turns ih =>
      obtain ⟨tmp, -, h⟩ := Option.bind_eq_some_iff.mp h
      obtain ⟨t, ht, h⟩ := Option.bind_eq_some_iff.mp h
      have hlen := SmallArrays.length_of_setLL ht
      split at h
      · cases h
        exact hlen
      · rw [ih h, hlen]

theorem length_of_invertSmall {nblock origPtr : ℕ} {a a' : SmallArrays} {cftab : List ℤ}
    (h : invertSmall nblock origPtr a cftab = some a') : a'.ll4.length = a.ll4.length := by
  obtain ⟨⟨t, _⟩, ht, h⟩ := Option.bind_eq_some_iff.mp h
  obtain ⟨row, -, h⟩ := Option.bind_eq_some_iff.mp h
  have hfill : t.ll4.length = a.ll4.length := by
    refine loop_keeps (P := fun s : SmallArrays × List ℤ => s.1.ll4.length = a.ll4.length) ?_ ht rfl
    rintro i ⟨u, _⟩ u' hturn hu
    obtain ⟨uc, -, hturn⟩ := Option.bind_eq_some_iff.mp hturn
    obtain ⟨k, -, hturn⟩ := Option.bind_eq_some_iff.mp hturn
    obtain ⟨w, hw, hturn⟩ := Option.bind_eq_some_iff.mp hturn
    obtain ⟨n, -, hturn⟩ := Option.bind_eq_some_iff.mp hturn
    obtain ⟨counts, -, hturn⟩ := Option.bind_eq_some_iff.mp hturn
    cases hturn
    exact (SmallArrays.length_of_setLL hw).trans hu
  rw [length_of_reversePointers h, hfill]

/-! ## The bytes of the block -/

/-- A state from which a source gives the bytes of `f` one after the other. -/
def Produces {τ : Type} (get : τ → Option (Option (UInt8 × τ))) (s : τ) (f : ℕ → UInt8) : Prop :=
  ∃ x : ℕ → τ, x 0 = s ∧ ∀ m, get (x m) = some (some (f m, x (m + 1)))

/-- `BZ_GET_FAST`.  Without a byte the caller returns `True`. -/
def getFast (blockSize100k : ℕ) (tt : List UInt32) (tPos : UInt32) :
    Option (Option (UInt8 × UInt32)) := do
  if tPos.toNat ≥ 100000 * blockSize100k then return none
  let tPos ← tt[tPos.toNat]?
  return some ((tPos &&& 0xff).toUInt8, tPos >>> 8)

/-- `BZ_GET_SMALL`. -/
def getSmall (blockSize100k : ℕ) (a : SmallArrays) (cftab : List ℤ) (tPos : UInt32) :
    Option (Option (UInt8 × UInt32)) := do
  if tPos.toNat ≥ 100000 * blockSize100k then return none
  return some (.ofNat (← indexIntoF tPos.toNat cftab 0 256), ← a.getLL tPos.toNat)

/-- The bytes that the rows after `origPtr` begin with. -/
def rowByte (ll : List UInt8) (origPtr m : ℕ) : UInt8 := ll[(nextRow ll)^[m + 1] origPtr]?.getD 0

section Produces

variable {ll : List UInt8} {origPtr blockSize100k : ℕ}

theorem iterate_nextRow_lt (horig : origPtr < ll.length) (m : ℕ) :
    (nextRow ll)^[m] origPtr < ll.length := by
  induction m with
  | zero => exact horig
  | succ m ih =>
      rw [Function.iterate_succ_apply']
      exact nextRow_lt ih

theorem getElem?_eq_rowByte (horig : origPtr < ll.length) (m : ℕ) :
    ll[(nextRow ll)^[m + 1] origPtr]? = some (rowByte ll origPtr m) := by
  rw [rowByte, List.getElem?_eq_getElem (iterate_nextRow_lt horig (m + 1))]
  rfl

theorem toNat_ofNat_row (hsize : ll.length ≤ 2 ^ 24) (horig : origPtr < ll.length) (m : ℕ) :
    (UInt32.ofNat ((nextRow ll)^[m] origPtr)).toNat = (nextRow ll)^[m] origPtr := by
  have hlt := iterate_nextRow_lt horig m
  refine UInt32.toNat_ofNat_of_lt' ?_
  show _ < 2 ^ 32
  omega

/-- The fast version gives the bytes of the rows. -/
theorem produces_getFast {tt : List UInt32} (hsize : ll.length ≤ 2 ^ 24)
    (hblock : ll.length ≤ 100000 * blockSize100k) (horig : origPtr < ll.length)
    (htt : ∀ k c, ll[k]? = some c → tt[k]? = some (pack c (nextRow ll k))) :
    Produces (getFast blockSize100k tt) (.ofNat (nextRow ll origPtr)) (rowByte ll origPtr) := by
  refine ⟨fun m => .ofNat ((nextRow ll)^[m + 1] origPtr), rfl, fun m => ?_⟩
  have hlt := iterate_nextRow_lt horig (m + 1)
  have hnext := nextRow_lt hlt
  have hentry := htt _ _ (getElem?_eq_rowByte horig m)
  have hbyte : (pack (rowByte ll origPtr m) (nextRow ll ((nextRow ll)^[m + 1] origPtr)) &&&
      0xff).toUInt8 = rowByte ll origPtr m := by
    rw [pack_and _ (by omega)]
    exact UInt8.toUInt8_toUInt32 _
  have hstep : (nextRow ll)^[m + 1 + 1] origPtr = nextRow ll ((nextRow ll)^[m + 1] origPtr) :=
    Function.iterate_succ_apply' _ _ _
  rw [getFast, toNat_ofNat_row hsize horig, if_neg (by omega), hentry]
  show some (some (_, _)) = some (some (_, UInt32.ofNat ((nextRow ll)^[m + 1 + 1] origPtr)))
  rw [hbyte, pack_shiftRight _ (by omega), hstep]

/-- The byte that a row begins with is found between the counts. -/
theorem eq_of_below {k c : ℕ} (hk : k < ll.length) {b : UInt8} (hb : ll[nextRow ll k]? = some b)
    (hlow : below (keys ll) c ≤ k) (hhigh : k < below (keys ll) (c + 1)) : c = b.toNat := by
  have hplace := prevRow_nextRow hk
  have hcount := earlier_lt_count (keys_getElem? hb)
  rw [prevRow_eq hb] at hplace
  have hsucc : below (keys ll) (b.toNat + 1) = below (keys ll) b.toNat + (keys ll).count b.toNat :=
    below_succ
  rcases Nat.lt_trichotomy c b.toNat with hlt | heq | hgt
  · have hmono : below (keys ll) (c + 1) ≤ below (keys ll) b.toNat := below_mono hlt
    omega
  · exact heq
  · have hmono : below (keys ll) (b.toNat + 1) ≤ below (keys ll) c := below_mono hgt
    omega

/-- The small version gives the same bytes. -/
theorem produces_getSmall {a : SmallArrays} {cftab : List ℤ} (hcftab : Cftab ll cftab)
    (hsize : ll.length ≤ 2 ^ 20) (hblock : ll.length ≤ 100000 * blockSize100k)
    (horig : origPtr < ll.length)
    (ha : ∀ m, ∃ v, a.getLL ((nextRow ll)^[m] origPtr) = some v ∧
      v.toNat = (nextRow ll)^[m + 1] origPtr) :
    Produces (getSmall blockSize100k a cftab) (.ofNat origPtr) (rowByte ll origPtr) := by
  refine ⟨fun m => .ofNat ((nextRow ll)^[m] origPtr), rfl, fun m => ?_⟩
  have hlt := iterate_nextRow_lt horig m
  obtain ⟨v, hv, hvval⟩ := ha m
  have hrow : (UInt32.ofNat ((nextRow ll)^[m] origPtr)).toNat = (nextRow ll)^[m] origPtr :=
    toNat_ofNat_row (by omega) horig m
  have hbyte := getElem?_eq_rowByte horig m
  rw [Function.iterate_succ_apply'] at hbyte
  obtain ⟨c, hc, hlt', hlow, hhigh⟩ := returns_indexIntoF (f := fun c => (below (keys ll) c : ℤ))
    (k := ((nextRow ll)^[m] origPtr : ℕ)) (fun c hc => hcftab.2 c (by omega))
    (show 0 < 256 by decide)
    (Nat.le_refl 256) (by
      rw [below_eq_zero fun n _ => Nat.zero_le n]
      exact Int.natCast_nonneg _) (by
      rw [below_eq_length (keys_lt ll), length_keys]
      exact Int.ofNat_lt.mpr hlt)
  have hfound := eq_of_below hlt hbyte (Int.ofNat_le.mp hlow) (Int.ofNat_lt.mp hhigh)
  have hnext : v = UInt32.ofNat ((nextRow ll)^[m + 1] origPtr) := by
    refine UInt32.toNat_inj.mp ?_
    rw [hvval, toNat_ofNat_row (by omega) horig]
  rw [getSmall, hrow, if_neg (by omega), hc, hv, hfound, hnext]
  show some (some (UInt8.ofNat (rowByte ll origPtr m).toNat, _)) = _
  rw [UInt8.ofNat_toNat]

/-- Of the last column of sorted rotations the rows give the text. -/
theorem rowByte_eq {text : List UInt8} {rows : List (List ℕ)} (hrows : Sorted (keys text) rows)
    (hcolumn : LastColumn rows (keys ll)) (hstart : rows[origPtr]? = some (keys text)) {m : ℕ}
    (hm : m < text.length) : text[m]? = some (rowByte ll origPtr m) := by
  have hlength : rows.length = ll.length := by
    have hmap := congrArg List.length hcolumn
    rw [List.length_map, List.length_map, length_keys] at hmap
    exact hmap
  have horig : origPtr < ll.length := hlength ▸ (List.getElem?_eq_some_iff.mp hstart).1
  have horder : (ordered (keys ll) 256).Perm (List.range rows.length) := by
    rw [hlength, ← length_keys ll]
    exact ordered_perm (keys_lt ll)
  have hread := (hrows.column_iterate hcolumn horder (ordered_pairwise (keys ll) 256)
    (fun k hk => ordered_eq_nextRow (hlength ▸ hk)) hstart m).2
  rw [keys_getElem? (getElem?_eq_rowByte horig m),
    List.head?_rotate (by rw [length_keys]; exact hm), keys, List.getElem?_map] at hread
  obtain ⟨c, hc, hcval⟩ := Option.map_eq_some_iff.mp hread.symm
  rw [hc, UInt8.toNat_inj.mp hcval]

end Produces

end StudyNotes.Bzip2
