/-
# The BSDIFF40 format

What a patch means, over unbounded integers and lists of bytes: the header and control
values are 64-bit sign-magnitude numbers, and the new file is put together triple by
triple from the old file, the diff block and the extra block.  How a block is compressed is
a parameter.  Nothing here follows the arithmetic of the program; `offtin` is compared with
the number it reads at the end.
-/

import StudyNotes.Bspatch.Loop

namespace StudyNotes.Bspatch

/-! ## Numbers -/

/-- The first eight bytes as an unsigned number, least significant byte first. -/
def word (buf : Bytes) : ℕ :=
  [0, 1, 2, 3, 4, 5, 6, 7].foldr (fun k n => (buf.getD k 0).toNat + 256 * n) 0

/-- The number the first eight bytes stand for: the top bit is its sign. -/
@[irreducible]
def value (buf : Bytes) : ℤ :=
  if word buf < 2 ^ 63 then word buf else -(word buf - 2 ^ 63 : ℤ)

/-! ## The new file -/

/-- A triple of the control block: add `x` bytes of the old file to `x` bytes of the diff
block, copy `y` bytes of the extra block, seek forwards in the old file by `z` bytes. -/
structure Triple where
  x : ℤ
  y : ℤ
  z : ℤ
deriving DecidableEq

def triple (control : Bytes) : Triple :=
  ⟨value control, value (control.drop 8), value (control.drop 16)⟩

/-- The triples of a control block; an incomplete one at its end does not count. -/
def triples (control : Bytes) : List Triple :=
  (List.range (control.length / 24)).map fun n => triple (control.drop (24 * n))

/-- How far the new file has come: what is left of the diff block and of the extra block,
the bytes put out, and the position in the old file. -/
structure Progress where
  diff : Bytes
  extra : Bytes
  out : Bytes
  oldpos : ℤ

/-- A byte of the old file; outside of it there is nothing to add. -/
def oldByte (old : Bytes) (p : ℤ) : UInt8 := if 0 ≤ p then old.getD p.toNat 0 else 0

/-- Bytes of the diff block with bytes of the old file added to them. -/
def addBytes (old : Bytes) (oldpos : ℤ) (diff : Bytes) : Bytes :=
  diff.mapIdx fun i d => d + oldByte old (oldpos + i)

/-- The blocks have the bytes the triple asks for, and they fit into the new file. -/
def Triple.Valid (newsize : ℤ) (p : Progress) (t : Triple) : Prop :=
  (0 ≤ t.x ∧ t.x ≤ p.diff.length) ∧ (0 ≤ t.y ∧ t.y ≤ p.extra.length) ∧
    p.out.length + t.x + t.y ≤ newsize

instance (newsize : ℤ) (p : Progress) (t : Triple) : Decidable (t.Valid newsize p) :=
  inferInstanceAs (Decidable (_ ∧ _))

/-- The progress after one more triple. -/
def Progress.advance (old : Bytes) (p : Progress) (t : Triple) : Progress where
  diff := p.diff.drop t.x.toNat
  extra := p.extra.drop t.y.toNat
  out := p.out ++ addBytes old p.oldpos (p.diff.take t.x.toNat) ++ p.extra.take t.y.toNat
  oldpos := p.oldpos + t.x + t.z

/-- The new file, once it is complete. -/
def rebuild (old : Bytes) (newsize : ℤ) : List Triple → Progress → Option Bytes
  | [], p => if newsize ≤ p.out.length then some p.out else none
  | t :: ts, p =>
      if newsize ≤ p.out.length then some p.out
      else if t.Valid newsize p then rebuild old newsize ts (p.advance old t)
      else none

/-- A property of every triple that is used, together with the progress before it. -/
def EveryTriple (old : Bytes) (newsize : ℤ) (P : Progress → Triple → Prop) :
    List Triple → Progress → Prop
  | [], _ => True
  | t :: ts, p => p.out.length < newsize →
      P p t ∧ (t.Valid newsize p → EveryTriple old newsize P ts (p.advance old t))

/-! ## The patch file -/

/-- The text `BSDIFF40`. -/
def magic : Bytes := [0x42, 0x53, 0x44, 0x49, 0x46, 0x46, 0x34, 0x30]

/-- The length of the compressed control block. -/
def lengthX (patch : Bytes) : ℤ := value (patch.drop 8)

/-- The length of the compressed diff block. -/
def lengthY (patch : Bytes) : ℤ := value (patch.drop 16)

/-- The size of the new file. -/
def sizeofNew (patch : Bytes) : ℤ := value (patch.drop 24)

section

variable (decompressed : Bytes → Bytes)

/-- The triples of a patch.  A compressed block delimits itself, so it is given by the bytes
from its beginning on. -/
def controlBlock (patch : Bytes) : List Triple := triples (decompressed (patch.drop 32))

/-- The blocks of a patch before anything is put out. -/
def blocks (patch : Bytes) : Progress where
  diff := decompressed (patch.drop (32 + lengthX patch).toNat)
  extra := decompressed (patch.drop (32 + lengthX patch + lengthY patch).toNat)
  out := []
  oldpos := 0

/-- The new file that a patch describes for an old one. -/
def reconstruction (old patch : Bytes) : Option Bytes :=
  if 32 ≤ patch.length ∧ patch.take 8 = magic ∧ 0 ≤ lengthX patch ∧ 0 ≤ lengthY patch ∧
      0 ≤ sizeofNew patch then
    rebuild old (sizeofNew patch) (controlBlock decompressed patch) (blocks decompressed patch)
  else none

end

/-! ## What `offtin` reads -/

/-- The number depends on eight bytes only. -/
theorem value_take (buf : Bytes) {n : ℕ} (hn : 8 ≤ n) : value (buf.take n) = value buf := by
  have hbyte (k : ℕ) (hk : k < 8) : (buf.take n).getD k 0 = buf.getD k 0 := by
    simp [List.getD_eq_getElem?_getD, List.getElem?_take_of_lt (Nat.lt_of_lt_of_le hk hn)]
  have hword : word (buf.take n) = word buf := by
    simp only [word, List.foldr_cons, List.foldr_nil]
    simp only [hbyte, Nat.reduceLT]
  simp only [value, hword]

theorem and_0x7F (b : UInt8) : (b &&& 0x7F).toNat = b.toNat % 128 := by
  rw [UInt8.toNat_and]
  exact Nat.and_two_pow_sub_one_eq_mod b.toNat 7

theorem and_0x80_eq_zero_iff (b : UInt8) : b &&& 0x80 = 0 ↔ b.toNat < 128 := by
  have hbytes : ∀ n : Fin 256, n.val &&& 128 = 0 ↔ n.val < 128 := by decide +kernel
  rw [← UInt8.toNat_inj, UInt8.toNat_and]
  exact hbytes ⟨b.toNat, b.toNat_lt⟩

/-- `offtin` reads the number modulo `2 ^ 32`. -/
theorem offtin_eq (buf : Bytes) : offtin buf = Int32.ofInt (value buf) := by
  have hbyte (k : ℕ) : (buf.getD k 0).toNat < 256 := (buf.getD k 0).toNat_lt
  have h0 := hbyte 0
  have h1 := hbyte 1
  have h2 := hbyte 2
  have h3 := hbyte 3
  have h4 := hbyte 4
  have h5 := hbyte 5
  have h6 := hbyte 6
  have h7 := hbyte 7
  -- the magnitude, in the order in which `offtin` puts it together
  let y : ℕ := [6, 5, 4, 3, 2, 1, 0].foldl (fun y k => y * 256 + (buf.getD k 0).toNat)
    ((buf.getD 7 0).toNat % 128)
  have hy : offtin buf = if (buf.getD 7 0).toNat < 128 then .ofNat y else -.ofNat y := by
    simp only [offtin, and_0x7F, ne_eq, and_0x80_eq_zero_iff, ite_not, y, List.foldl_cons,
      List.foldl_nil, Int32.ofNat_add, Int32.ofNat_mul]
    rfl
  have hword : word buf = y + (buf.getD 7 0).toNat / 128 * 2 ^ 63 ∧ y < 2 ^ 63 := by
    simp only [y, word, List.foldl_cons, List.foldl_nil, List.foldr_cons, List.foldr_nil]
    omega
  rw [hy, value]
  by_cases hsign : (buf.getD 7 0).toNat < 128
  · have hy' : word buf = y := by omega
    rw [if_pos hsign, if_pos (by omega), hy', Int32.ofInt_eq_ofNat]
  · have hy' : word buf = y + 2 ^ 63 := by omega
    have hneg : -((word buf : ℤ) - 2 ^ 63) = -(y : ℤ) := by omega
    rw [if_neg hsign, if_neg (by omega), hneg, Int32.neg_ofNat]

end StudyNotes.Bspatch
