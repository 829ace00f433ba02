/-
# The move-to-front lists of bzip2

The encoder looks for a symbol and moves the ones before it while it looks.  The decoder
keeps its list of 256 symbols in sixteen blocks of sixteen, each of them somewhere in
`mtfa` with room before it: a symbol from a later block costs one move for each block and
not one for each symbol.  When the first block has reached the beginning of `mtfa`, all
blocks move to its end again.  Both do to the list what a plain move to the front does.
-/

import StudyNotes.Lib.Checked
import StudyNotes.Lib.MoveToFront

namespace StudyNotes.Bzip2

open StudyNotes.Checked StudyNotes.MoveToFront

variable {α : Type}

/-! ## The lists of the encoder -/

/-- The loops of `generateMTFValues` and `sendMTFValues` that look for a symbol: `tmp` is the
one found at `j`, and those before it are already one place further on. -/
def seek [DecidableEq α] (symbol : α) (yy : List α) (j : ℕ) (tmp : α) : Option (List α × ℕ) :=
  if symbol = tmp then (write yy 0 tmp).map fun yy => (yy, j)
  else if h : j + 1 < yy.length then
    seek symbol (yy.set (j + 1) tmp) (j + 1) yy[j + 1]
  else none
termination_by yy.length - j
decreasing_by
  rw [List.length_set]
  omega

theorem seek_eq [DecidableEq α] {symbols yy : List α} {symbol tmp : α} {j n : ℕ}
    (hsize : yy.length = symbols.length) (hj : j ≤ n) (hn : symbols[n]? = some symbol)
    (hfirst : ∀ k < n, symbols[k]? ≠ some symbol) (htmp : symbols[j]? = some tmp)
    (hyy : ∀ k, 0 < k → yy[k]? = if k ≤ j then symbols[k - 1]? else symbols[k]?) :
    seek symbol yy j tmp = some (toFront symbols n, n) := by
  obtain ⟨hlt, -⟩ := List.getElem?_eq_some_iff.mp hn
  induction hleft : n - j generalizing yy j tmp with
  | zero =>
      obtain rfl : j = n := by omega
      have heq : symbol = tmp := by
        rw [hn] at htmp
        exact Option.some.inj htmp
      rw [seek, if_pos heq, write_eq (by omega), Option.map_some]
      refine congrArg some (congrArg (·, j) (eq_toFront hlt fun i => ?_))
      rw [List.getElem?_set]
      by_cases hi : 0 = i
      · rw [if_pos hi, if_pos (by omega), if_pos hi.symm, htmp]
      · rw [if_neg hi, if_neg (Ne.symm hi), hyy i (by omega)]
  | succ left ih =>
      have hne : symbol ≠ tmp := by
        rintro rfl
        exact hfirst j (by omega) htmp
      have hbound : j + 1 < yy.length := by omega
      have hnext : symbols[j + 1]? = some yy[j + 1] := by
        rw [← List.getElem?_eq_getElem hbound, hyy (j + 1) (by omega), if_neg (by omega)]
      rw [seek, if_neg hne, dif_pos hbound]
      refine ih (by rw [List.length_set, hsize]) (by omega) hnext ?_ (by omega)
      intro k hk
      rw [List.getElem?_set]
      by_cases heq : j + 1 = k
      · rw [if_pos heq, if_pos hbound, if_pos (by omega), ← heq, Nat.add_sub_cancel, htmp]
      · rw [if_neg heq, hyy k hk]
        by_cases hle : k ≤ j
        · rw [if_pos hle, if_pos (by omega)]
        · rw [if_neg hle, if_neg (by omega)]

/-! ## The list of the decoder -/

/-- `MTFA_SIZE`. -/
def mtfaSize : ℕ := 4096

/-- `MTFL_SIZE`. -/
def mtflSize : ℕ := 16

/-- The arrays `mtfa` and `mtfbase` of `DState`. -/
structure MtfArray (α : Type) where
  mtfa : List α
  mtfbase : List ℕ

/-- One less; there is no place before the first. -/
def dec : ℕ → Option ℕ
  | 0 => none
  | n + 1 => some n

/-- Moves the `k` cells from `lo` on one place further, the last of them first. -/
def shiftUp (cells : List α) (lo : ℕ) : ℕ → Option (List α)
  | 0 => some cells
  | k + 1 => do
      let cells ← write cells (lo + k + 1) (← cells[lo + k]?)
      shiftUp cells lo k

/-- The loops of the case without general expense, four cells in a turn. -/
def shiftUp4 (cells : List α) (pp nn : ℕ) : Option (List α) :=
  if nn > 3 then do
    let z := pp + nn
    let cells ← write cells z (← cells[z - 1]?)
    let cells ← write cells (z - 1) (← cells[z - 2]?)
    let cells ← write cells (z - 2) (← cells[z - 3]?)
    let cells ← write cells (z - 3) (← cells[z - 4]?)
    shiftUp4 cells pp (nn - 4)
  else shiftUp cells pp nn
termination_by nn

namespace MtfArray

/-- The loop over the blocks before the one a symbol was taken from: each of them moves
down by one place and hands its last symbol to the next. -/
def carry (m : MtfArray α) : ℕ → Option (MtfArray α)
  | 0 => some m
  | lno + 1 => do
      let base ← dec (← m.mtfbase[lno + 1]?)
      let mtfbase ← write m.mtfbase (lno + 1) base
      let mtfa ← write m.mtfa base (← m.mtfa[(← mtfbase[lno]?) + mtflSize - 1]?)
      carry ⟨mtfa, mtfbase⟩ lno

/-- The loops that put all blocks at the end of `mtfa`, with the given symbols. -/
def spread (value : MtfArray α → ℕ → ℕ → Option α) (m : MtfArray α) : Option (MtfArray α) := do
  let (m, _) ← loop 0 (256 / mtflSize) (fun t (m, kk) => do
    let ii := 256 / mtflSize - 1 - t
    let (m, kk) ← loop 0 mtflSize (fun u (m, kk) => do
      let jj := mtflSize - 1 - u
      let mtfa ← write m.mtfa kk (← value m ii jj)
      return ({ m with mtfa }, kk - 1)) (m, kk)
    return ({ m with mtfbase := ← write m.mtfbase ii (kk + 1) }, kk)) (m, mtfaSize - 1)
  return m

/-- The loops under "MTF init". -/
def init (m : MtfArray UInt8) : Option (MtfArray UInt8) :=
  spread (fun _ ii jj => some (.ofNat (ii * mtflSize + jj))) m

def rebuild (m : MtfArray α) : Option (MtfArray α) :=
  spread (fun m ii jj => do m.mtfa[(← m.mtfbase[ii]?) + jj]?) m

/-- The block under "uc = MTF ( nextSym-1 )". -/
def take (m : MtfArray α) (nn : ℕ) : Option (α × MtfArray α) := do
  if nn < mtflSize then
    let pp ← m.mtfbase[0]?
    let uc ← m.mtfa[pp + nn]?
    let mtfa ← shiftUp4 m.mtfa pp nn
    return (uc, { m with mtfa := ← write mtfa pp uc })
  else
    let lno := nn / mtflSize
    let off := nn % mtflSize
    let base ← m.mtfbase[lno]?
    let uc ← m.mtfa[base + off]?
    let mtfa ← shiftUp m.mtfa base off
    let mtfbase ← write m.mtfbase lno (base + 1)
    let m ← carry ⟨mtfa, mtfbase⟩ lno
    let base ← dec (← m.mtfbase[0]?)
    let mtfbase ← write m.mtfbase 0 base
    let mtfa ← write m.mtfa base uc
    if base = 0 then return (uc, ← rebuild ⟨mtfa, mtfbase⟩)
    else return (uc, ⟨mtfa, mtfbase⟩)

end MtfArray

/-! ### Moving cells -/

theorem returns_shiftUp {cells : List α} {lo k : ℕ} (h : lo + k < cells.length) :
    Returns (shiftUp cells lo k) fun moved => moved.length = cells.length ∧
      ∀ p, moved[p]? = if lo < p ∧ p ≤ lo + k then cells[p - 1]? else cells[p]? := by
  induction k generalizing cells with
  | zero =>
      refine Returns.pure ⟨rfl, fun p => ?_⟩
      rw [if_neg (by omega)]
  | succ k ih =>
      refine Returns.bind (Returns.of_eq (List.getElem?_eq_getElem (by omega)) rfl) ?_
      rintro _ rfl
      refine Returns.bind (Returns.of_eq (write_eq h _) rfl) ?_
      rintro _ rfl
      refine (ih (by rw [List.length_set]; omega)).mono ?_
      rintro moved ⟨hsize, hmoved⟩
      refine ⟨by rw [hsize, List.length_set], fun p => ?_⟩
      rw [hmoved p, List.getElem?_set, List.getElem?_set]
      by_cases htop : p = lo + k + 1
      · rw [if_neg (by omega), if_pos (by omega), if_pos h, if_pos (by omega), htop,
          Nat.add_sub_cancel, List.getElem?_eq_getElem]
      · by_cases hinside : lo < p ∧ p ≤ lo + k
        · rw [if_pos hinside, if_neg (by omega), if_pos (by omega)]
        · rw [if_neg hinside, if_neg (by omega), if_neg (by omega)]

theorem shiftUp4_eq (cells : List α) (pp nn : ℕ) : shiftUp4 cells pp nn = shiftUp cells pp nn := by
  fun_induction shiftUp4 cells pp nn with
  | case1 cells nn hmore z ih =>
      obtain ⟨k, rfl⟩ := Nat.exists_eq_add_of_le' hmore
      have hrest : ∀ cells : List α, shiftUp4 cells pp (k + 4 - 4) = shiftUp cells pp k := ih
      simp only [shiftUp]
      show (do
        let cells ← write cells (pp + k + 4) (← cells[pp + k + 3]?)
        let cells ← write cells (pp + k + 3) (← cells[pp + k + 2]?)
        let cells ← write cells (pp + k + 2) (← cells[pp + k + 1]?)
        let cells ← write cells (pp + k + 1) (← cells[pp + k]?)
        shiftUp4 cells pp (k + 4 - 4)) = _
      simp only [hrest]
      rfl
  | case2 => rfl

namespace MtfArray

/-- Every block from the first one on gets the last symbol of the block before it. -/
theorem returns_carry {m : MtfArray α} {c : ℕ → ℕ} {lno : ℕ}
    (hbases : lno < m.mtfbase.length) (hbase : ∀ l ≤ lno, m.mtfbase[l]? = some (c l))
    (hapart : ∀ l l', l < l' → l' ≤ lno → c l + 16 ≤ c l')
    (hinside : c lno ≤ m.mtfa.length) :
    Returns (carry m lno) fun m' => m'.mtfa.length = m.mtfa.length ∧
      m'.mtfbase.length = m.mtfbase.length ∧ m'.mtfbase[0]? = some (c 0) ∧
      (∀ l, 0 < l → l ≤ lno → m'.mtfbase[l]? = some (c l - 1)) ∧
      (∀ l, lno < l → m'.mtfbase[l]? = m.mtfbase[l]?) ∧
      (∀ l, 0 < l → l ≤ lno → m'.mtfa[c l - 1]? = m.mtfa[c (l - 1) + 15]?) ∧
      ∀ p, (∀ l, 0 < l → l ≤ lno → p ≠ c l - 1) → m'.mtfa[p]? = m.mtfa[p]? := by
  induction lno generalizing m with
  | zero =>
      refine Returns.pure ⟨rfl, rfl, hbase 0 (Nat.le_refl 0), ?_, fun _ _ => rfl, ?_, fun _ _ => rfl⟩
      · intro l hl hl'
        omega
      · intro l hl hl'
        omega
  | succ lno ih =>
      have hlast := hapart lno (lno + 1) (Nat.lt_succ_self lno) (Nat.le_refl _)
      have hlower : ∀ l ≤ lno, c l ≤ c lno := by
        intro l hl
        rcases Nat.lt_or_eq_of_le hl with hlt | rfl
        · exact Nat.le_trans (Nat.le_add_right _ 16) (hapart l lno hlt (Nat.le_succ lno))
        · exact Nat.le_refl _
      have hbefore : dec (c (lno + 1)) = some (c (lno + 1) - 1) := by
        obtain ⟨k, hk⟩ := Nat.exists_eq_add_of_le' (show 1 ≤ c (lno + 1) by omega)
        rw [hk]
        rfl
      refine Returns.bind (Returns.of_eq (hbase (lno + 1) (Nat.le_refl _)) rfl) ?_
      rintro _ rfl
      refine Returns.bind (Returns.of_eq hbefore rfl) ?_
      rintro _ rfl
      refine Returns.bind (Returns.of_eq (write_eq hbases _) rfl) ?_
      rintro _ rfl
      refine Returns.bind (Returns.of_eq (a := c lno) ?_ rfl) ?_
      · rw [List.getElem?_set_ne (by omega), hbase lno (Nat.le_succ lno)]
      rintro _ rfl
      refine Returns.bind (Returns.of_eq
        (List.getElem?_eq_getElem (show c lno + mtflSize - 1 < m.mtfa.length from ?_)) rfl) ?_
      · show c lno + 16 - 1 < m.mtfa.length
        omega
      rintro _ rfl
      refine Returns.bind (Returns.of_eq (write_eq (by omega) _) rfl) ?_
      rintro _ rfl
      refine (ih (m := ⟨_, _⟩) ?_ ?_ ?_ ?_).mono ?_
      · show lno < (m.mtfbase.set _ _).length
        rw [List.length_set]
        omega
      · intro l hl
        show (m.mtfbase.set _ _)[l]? = _
        rw [List.getElem?_set_ne (by omega), hbase l (by omega)]
      · intro l l' hl hl'
        exact hapart l l' hl (by omega)
      · show c lno ≤ (m.mtfa.set _ _).length
        rw [List.length_set]
        omega
      rintro m' ⟨hsize, hbases', hfirst, hmoved, hkept, htaken, hrest⟩
      dsimp only at hsize hbases' hkept htaken hrest
      rw [List.length_set] at hsize hbases'
      refine ⟨hsize, hbases', hfirst, ?_, ?_, ?_, ?_⟩
      · intro l hl hl'
        rcases Nat.lt_or_eq_of_le hl' with hlt | rfl
        · exact hmoved l hl (by omega)
        · rw [hkept _ (Nat.lt_succ_self lno), List.getElem?_set_self hbases]
      · intro l hl
        rw [hkept l (by omega), List.getElem?_set_ne (by omega)]
      · intro l hl hl'
        rcases Nat.lt_or_eq_of_le hl' with hlt | rfl
        · have hle := hlower l (by omega)
          have hnext := hapart (l - 1) l (by omega) hl'
          rw [htaken l hl (by omega), List.getElem?_set_ne (by omega)]
        · rw [hrest, List.getElem?_set_self (by omega), ← List.getElem?_eq_getElem]
          · rfl
          · intro k hk hk'
            have hle := hlower k hk'
            omega
      · intro p hp
        rw [hrest p fun l hl hl' => hp l hl (by omega), List.getElem?_set_ne]
        exact Ne.symm (hp (lno + 1) (by omega) (Nat.le_refl _))

/-- The last `n` of the symbols stand at the end of `mtfa`, and nothing else has changed. -/
structure Filled (m₀ : MtfArray α) (symbols : List α) (n : ℕ) (s : MtfArray α × ℕ) : Prop where
  size : s.1.mtfa.length = 4096
  next : s.2 + n = 4095
  low : ∀ p < 4096 - n, s.1.mtfa[p]? = m₀.mtfa[p]?
  high : ∀ i, 256 - n ≤ i → i < 256 → s.1.mtfa[3840 + i]? = symbols[i]?

theorem Filled.returns_write {m₀ m : MtfArray α} {symbols : List α} {n kk : ℕ} {a : α}
    (h : Filled m₀ symbols n (m, kk)) (hn : n < 256) (ha : symbols[255 - n]? = some a) :
    Returns (write m.mtfa kk a) fun mtfa =>
      Filled m₀ symbols (n + 1) ({ m with mtfa }, kk - 1) := by
  obtain ⟨hsize, hkk, hlow, hhigh⟩ := h
  dsimp only at hsize hkk hlow hhigh
  refine Returns.of_eq (write_eq (by omega) _) ⟨?_, ?_, ?_, ?_⟩
  · rw [List.length_set, hsize]
  · show kk - 1 + (n + 1) = 4095
    omega
  · intro p hp
    rw [List.getElem?_set_ne (by omega), hlow p (by omega)]
  · intro i hi hi'
    rw [List.getElem?_set]
    by_cases heq : kk = 3840 + i
    · rw [if_pos heq, if_pos (by omega), ← ha]
      congr 1
      omega
    · rw [if_neg heq, hhigh i (by omega) hi']

/-- The blocks at the end of `mtfa`. -/
theorem returns_spread {value : MtfArray α → ℕ → ℕ → Option α} {m₀ : MtfArray α}
    {symbols : List α} (hsize : m₀.mtfa.length = 4096) (hbases : m₀.mtfbase.length = 16)
    (hvalue : ∀ (m : MtfArray α) (ii jj : ℕ), ii < 16 → jj < 16 →
      (∀ p ≤ 3840 + (16 * ii + jj), m.mtfa[p]? = m₀.mtfa[p]?) → m.mtfbase[ii]? = m₀.mtfbase[ii]? →
      ∃ a, value m ii jj = some a ∧ symbols[16 * ii + jj]? = some a) :
    Returns (spread value m₀) fun m => m.mtfa.length = 4096 ∧ m.mtfbase.length = 16 ∧
      (∀ l < 16, m.mtfbase[l]? = some (3840 + 16 * l)) ∧
      ∀ i < 256, m.mtfa[3840 + i]? = symbols[i]? := by
  unfold spread mtflSize mtfaSize
  refine Returns.bind (Returns.loop (fun t (s : MtfArray α × ℕ) =>
    Filled m₀ symbols (16 * t) s ∧ s.1.mtfbase.length = 16 ∧
    (∀ l < 16 - t, s.1.mtfbase[l]? = m₀.mtfbase[l]?) ∧
    ∀ l, 16 - t ≤ l → l < 16 → s.1.mtfbase[l]? = some (3840 + 16 * l))
    (show 0 ≤ 16 by decide) ?_ ?_) ?_
  · refine ⟨⟨hsize, rfl, fun _ _ => rfl, ?_⟩, hbases, fun _ _ => rfl, ?_⟩
    · intro i hi hi'
      omega
    · intro l hl hl'
      omega
  · rintro t ⟨m, kk⟩ - ht ⟨hfilled, hbases, htodo, hdone⟩
    have ht' : t < 16 := ht
    dsimp only at hbases htodo hdone
    refine Returns.bind (Returns.loop (fun u (s : MtfArray α × ℕ) =>
      Filled m₀ symbols (16 * t + u) s ∧ s.1.mtfbase = m.mtfbase)
      (show 0 ≤ 16 by decide) ⟨hfilled, rfl⟩ ?_) ?_
    · rintro u ⟨m', kk⟩ - hu ⟨hfilled, hsame⟩
      have hu' : u < 16 := hu
      dsimp only at hsame
      obtain ⟨a, ha, hsymbol⟩ := hvalue m' (15 - t) (15 - u) (by omega) (by omega)
        (fun p hp => hfilled.low p (by omega)) (by rw [hsame, htodo (15 - t) (by omega)])
      rw [show 16 * (15 - t) + (15 - u) = 255 - (16 * t + u) by omega] at hsymbol
      refine Returns.bind (Returns.of_eq ha rfl) ?_
      rintro _ rfl
      refine Returns.bind (hfilled.returns_write (by omega) hsymbol) fun mtfa hfilled' => ?_
      exact Returns.pure ⟨hfilled', hsame⟩
    · rintro ⟨m', kk⟩ ⟨hfilled, hsame⟩
      have hkk := hfilled.next
      dsimp only at hkk hsame
      refine Returns.bind (Returns.of_eq (write_eq (show 15 - t < m'.mtfbase.length by
        rw [hsame]; omega) _) rfl) ?_
      rintro _ rfl
      refine Returns.pure
        ⟨⟨hfilled.size, hfilled.next, hfilled.low, hfilled.high⟩, ?_, ?_, ?_⟩
      · show (m'.mtfbase.set _ _).length = _
        rw [List.length_set, hsame, hbases]
      · intro l hl
        show (m'.mtfbase.set _ _)[l]? = _
        rw [List.getElem?_set_ne (by omega), hsame, htodo l (by omega)]
      · intro l hl hl'
        show (m'.mtfbase.set (15 - t) _)[l]? = _
        rw [List.getElem?_set]
        by_cases heq : 15 - t = l
        · rw [if_pos heq, if_pos (by rw [hsame]; omega)]
          congr 1
          omega
        · rw [if_neg heq, hsame, hdone l (by omega) hl']
  · rintro ⟨m, kk⟩ ⟨hfilled, hbases, -, hdone⟩
    exact Returns.pure ⟨hfilled.size, hbases, fun l hl => hdone l (by omega) hl,
      fun i hi => hfilled.high i (by omega) hi⟩

/-! ### The list in its blocks -/

/-- The blocks start at `b`, do not overlap and hold the symbols; there is room before the
first of them. -/
structure HoldsAt (m : MtfArray α) (b : ℕ → ℕ) (symbols : List α) : Prop where
  size : m.mtfa.length = 4096
  bases : m.mtfbase.length = 16
  base : ∀ l < 16, m.mtfbase[l]? = some (b l)
  apart : ∀ l l', l < l' → l' < 16 → b l + 16 ≤ b l'
  inside : ∀ l < 16, b l + 16 ≤ 4096
  content : ∀ l < 16, ∀ j < 16, m.mtfa[b l + j]? = symbols[16 * l + j]?
  count : symbols.length = 256

/-- The array stands for the list. -/
def Holds (m : MtfArray α) (symbols : List α) : Prop := ∃ b, m.HoldsAt b symbols ∧ 0 < b 0

variable {m : MtfArray α} {b : ℕ → ℕ} {symbols : List α} {nn : ℕ}

theorem Holds.sizes (h : m.Holds symbols) : m.mtfa.length = 4096 ∧ m.mtfbase.length = 16 := by
  obtain ⟨b, hb, -⟩ := h
  exact ⟨hb.size, hb.bases⟩

theorem returns_holds (hcount : symbols.length = 256) {x : Option (MtfArray α)}
    (hx : Returns x fun m => m.mtfa.length = 4096 ∧ m.mtfbase.length = 16 ∧
      (∀ l < 16, m.mtfbase[l]? = some (3840 + 16 * l)) ∧
      ∀ i < 256, m.mtfa[3840 + i]? = symbols[i]?) :
    Returns x fun m => m.Holds symbols := by
  refine hx.mono ?_
  rintro m ⟨hsize, hbases, hbase, hcontent⟩
  refine ⟨fun l => 3840 + 16 * l, ⟨hsize, hbases, hbase, ?_, ?_, ?_, hcount⟩, by decide⟩
  · intro l l' hl hl'
    omega
  · intro l hl
    omega
  · intro l hl j hj
    rw [Nat.add_assoc, hcontent _ (by omega)]

theorem HoldsAt.returns_rebuild (h : m.HoldsAt b symbols) :
    Returns m.rebuild fun m => m.Holds symbols := by
  have hlow : ∀ l < 16, b l ≤ 3840 + 16 * l := by
    intro l hl
    induction hleft : 15 - l generalizing l with
    | zero =>
        have hinside := h.inside l hl
        omega
    | succ left ih =>
        have hnext := ih (l + 1) (by omega) (by omega)
        have hapart := h.apart l (l + 1) (Nat.lt_succ_self l) (by omega)
        omega
  refine returns_holds h.count (returns_spread h.size h.bases ?_)
  intro m' ii jj hii hjj hmtfa hmtfbase
  have hle := hlow ii hii
  have hget : (16 * ii + jj) < symbols.length := by
    rw [h.count]
    omega
  refine ⟨symbols[16 * ii + jj], ?_, List.getElem?_eq_getElem hget⟩
  rw [hmtfbase, h.base ii hii]
  show m'.mtfa[b ii + jj]? = _
  rw [hmtfa _ (by omega), h.content ii hii jj hjj, List.getElem?_eq_getElem hget]

/-- The list begins as all bytes in order. -/
theorem returns_init {m : MtfArray UInt8} (hsize : m.mtfa.length = 4096)
    (hbases : m.mtfbase.length = 16) :
    Returns m.init fun m => m.Holds ((List.range 256).map .ofNat) := by
  refine returns_holds (by rw [List.length_map, List.length_range])
    (returns_spread hsize hbases ?_)
  intro m' ii jj hii hjj _ _
  refine ⟨_, rfl, ?_⟩
  rw [List.getElem?_map, List.getElem?_range (by omega), show mtflSize = 16 from rfl, Nat.mul_comm]
  rfl

theorem HoldsAt.returns_take_near (h : m.HoldsAt b symbols) (hpos : 0 < b 0) (hnn : nn < 16) :
    Returns (m.take nn) fun (uc, m') =>
      symbols[nn]? = some uc ∧ m'.Holds (toFront symbols nn) := by
  have hlt : nn < symbols.length := by
    rw [h.count]
    omega
  have hinside := h.inside 0 (by decide)
  rw [take, if_pos (show nn < mtflSize from hnn)]
  refine Returns.bind (Returns.of_eq (h.base 0 (by decide)) rfl) ?_
  rintro _ rfl
  refine Returns.bind (Returns.of_eq (a := symbols[nn]) ?_ rfl) ?_
  · have hcontent := h.content 0 (by decide) nn hnn
    rw [hcontent, Nat.mul_zero, Nat.zero_add, List.getElem?_eq_getElem hlt]
  rintro _ rfl
  rw [shiftUp4_eq]
  refine Returns.bind (returns_shiftUp (by rw [h.size]; omega)) ?_
  rintro mtfa ⟨hsize, hmoved⟩
  rw [h.size] at hsize
  refine Returns.bind (Returns.of_eq (write_eq (by omega) _) rfl) ?_
  rintro _ rfl
  refine Returns.pure ⟨List.getElem?_eq_getElem hlt, b, ⟨?_, h.bases, h.base, h.apart, h.inside,
    ?_, ?_⟩, hpos⟩
  · rw [List.length_set, hsize]
  · intro l hl j hj
    show (mtfa.set _ _)[b l + j]? = _
    rw [getElem?_toFront hlt, List.getElem?_set]
    cases l with
    | zero =>
        have hcontent := h.content 0 hl
        rw [Nat.mul_zero, Nat.zero_add]
        by_cases hzero : j = 0
        · rw [if_pos (by omega), if_pos (by omega), if_pos hzero, List.getElem?_eq_getElem hlt]
        · rw [if_neg (by omega), if_neg hzero, hmoved]
          by_cases hle : j ≤ nn
          · have hbefore := hcontent (j - 1) (by omega)
            rw [Nat.mul_zero, Nat.zero_add] at hbefore
            rw [if_pos (by omega), if_pos hle, ← hbefore, Nat.add_sub_assoc (by omega)]
          · have hsame := hcontent j hj
            rw [Nat.mul_zero, Nat.zero_add] at hsame
            rw [if_neg (by omega), if_neg hle, hsame]
    | succ l =>
        have hapart := h.apart 0 (l + 1) (Nat.succ_pos l) hl
        rw [if_neg (by omega), hmoved, if_neg (by omega), if_neg (by omega), if_neg (by omega),
          h.content (l + 1) hl j hj]
  · rw [length_toFront hlt, h.count]

/-- The bases as the loop over the blocks finds them: the block of the symbol was raised. -/
def raised (b : ℕ → ℕ) (lno l : ℕ) : ℕ := if l = lno then b l + 1 else b l

/-- The bases after a symbol of a later block was taken. -/
def lowered (b : ℕ → ℕ) (lno l : ℕ) : ℕ := if l < lno then b l - 1 else b l

/-- The cells when the symbol at `off` in the block `lno` has been taken out and the blocks
before it have handed on their last symbols. -/
structure Carried (b : ℕ → ℕ) (lno off : ℕ) (cells moved carried : List α) : Prop where
  shift : ∀ p, moved[p]? =
    if b lno < p ∧ p ≤ b lno + off then cells[p - 1]? else cells[p]?
  taken : ∀ l, 0 < l → l ≤ lno → carried[raised b lno l - 1]? = moved[raised b lno (l - 1) + 15]?
  rest : ∀ p, (∀ l, 0 < l → l ≤ lno → p ≠ raised b lno l - 1) → carried[p]? = moved[p]?

section Carried

variable {lno off l j : ℕ} {moved carried : List α}

theorem raised_of_ne (h : l ≠ lno) : raised b lno l = b l := if_neg h

theorem raised_self : raised b lno lno = b lno + 1 := if_pos rfl

theorem HoldsAt.base_pos (h : m.HoldsAt b symbols) (hpos : 0 < b 0) (hl : l < 16) : 0 < b l := by
  rcases Nat.eq_zero_or_pos l with rfl | hlpos
  · exact hpos
  · exact Nat.lt_of_lt_of_le hpos (Nat.le_trans (Nat.le_add_right _ 16) (h.apart 0 l hlpos hl))

theorem HoldsAt.lowered_apart (h : m.HoldsAt b symbols) (hpos : 0 < b 0) {l' : ℕ} (hl : l < l')
    (hl' : l' < 16) : lowered b lno l + 16 ≤ lowered b lno l' := by
  have hapart := h.apart l l' hl hl'
  have hbelow := h.base_pos hpos (Nat.lt_trans hl hl')
  rw [lowered, lowered]
  split <;> split <;> omega

theorem HoldsAt.lowered_inside (h : m.HoldsAt b symbols) (hl : l < 16) :
    lowered b lno l + 16 ≤ 4096 := by
  have hinside := h.inside l hl
  rw [lowered]
  split <;> omega

/-- The symbol in front of a block is the last one of the block before it. -/
theorem HoldsAt.carried_front (h : m.HoldsAt b symbols)
    (hc : Carried b lno off m.mtfa moved carried) (hlno : lno < 16) (hpos : 0 < l)
    (hle : l ≤ lno) : carried[raised b lno l - 1]? = symbols[16 * l - 1]? := by
  have hapart := h.apart (l - 1) lno (by omega) hlno
  rw [hc.taken l hpos hle, raised_of_ne (by omega), hc.shift, if_neg (by omega),
    h.content (l - 1) (by omega) 15 (by decide)]
  congr 1
  omega

/-- What is outside the block of the symbol and not the last of its block stays. -/
theorem HoldsAt.carried_outside (h : m.HoldsAt b symbols)
    (hc : Carried b lno off m.mtfa moved carried) (hpos : 0 < b 0) (hlno : lno < 16)
    (hoff : off < 16) (hl : l < 16) (hne : l ≠ lno) (hj : j < 16) (hlast : l < lno → j < 15) :
    carried[b l + j]? = symbols[16 * l + j]? := by
  have hroom := h.base_pos hpos hl
  rw [hc.rest, hc.shift, if_neg, h.content l hl j hj]
  · rintro ⟨hmore, hless⟩
    rcases Nat.lt_or_gt_of_ne hne with hlt | hgt
    · have hapart := h.apart l lno hlt hlno
      omega
    · have hapart := h.apart lno l hgt hl
      omega
  · intro k hk hk'
    rw [raised]
    rcases Nat.lt_trichotomy l k with hlk | rfl | hlk
    · have hapart := h.apart l k hlk (by omega)
      have hj' := hlast (by omega)
      split <;> omega
    · rw [if_neg hne]
      omega
    · have hapart := h.apart k l hlk hl
      split <;> omega

/-- Inside the block of the symbol the gap that it leaves is closed. -/
theorem HoldsAt.carried_inside (h : m.HoldsAt b symbols)
    (hc : Carried b lno off m.mtfa moved carried) (hlno : lno < 16) (hj : j < 16) (hjpos : 0 < j) :
    carried[b lno + j]? =
      if j ≤ off then symbols[16 * lno + j - 1]? else symbols[16 * lno + j]? := by
  have huntouched : carried[b lno + j]? = moved[b lno + j]? := by
    refine hc.rest _ fun k hk hk' => ?_
    rcases Nat.lt_or_eq_of_le hk' with hkl | rfl
    · have hapart := h.apart k lno hkl hlno
      rw [raised_of_ne (by omega)]
      omega
    · rw [raised_self]
      omega
  rw [huntouched, hc.shift]
  by_cases hle : j ≤ off
  · rw [if_pos (by omega), if_pos hle, Nat.add_sub_assoc hjpos, h.content _ hlno (j - 1) (by omega),
      Nat.add_sub_assoc hjpos]
  · rw [if_neg (by omega), if_neg hle, h.content _ hlno j hj]

/-- With the symbol in front the blocks hold the list with the symbol moved to the front. -/
theorem HoldsAt.carried_content (h : m.HoldsAt b symbols)
    (hc : Carried b (nn / 16) (nn % 16) m.mtfa moved carried) (hpos : 0 < b 0) (hnn : 16 ≤ nn)
    (hlt : nn < symbols.length) (hsize : carried.length = 4096) (hl : l < 16) (hj : j < 16) :
    (carried.set (b 0 - 1) symbols[nn])[lowered b (nn / 16) l + j]? =
      (toFront symbols nn)[16 * l + j]? := by
  have hcount := h.count
  have hlno : nn / 16 < 16 := by omega
  have hinside := h.inside 0 (by decide)
  have hroom := h.base_pos hpos hl
  have hfirst : 0 < l → b 0 + 16 ≤ b l := fun hlpos => h.apart 0 l hlpos hl
  have hleast : b 0 ≤ b l := by
    rcases Nat.eq_zero_or_pos l with rfl | hlpos
    · exact Nat.le_refl _
    · exact Nat.le_of_add_right_le (hfirst hlpos)
  rw [getElem?_toFront hlt, lowered]
  rcases Nat.lt_trichotomy l (nn / 16) with hbefore | rfl | hafter
  · -- A block before the symbol's begins one place lower.
    rw [if_pos hbefore]
    rcases Nat.eq_zero_or_pos j with rfl | hjpos
    · rcases Nat.eq_zero_or_pos l with rfl | hlpos
      · rw [Nat.add_zero, List.getElem?_set_self (by omega), if_pos rfl,
          List.getElem?_eq_getElem hlt]
      · have hfront := h.carried_front hc hlno hlpos (by omega)
        rw [raised_of_ne (by omega)] at hfront
        rw [Nat.add_zero, List.getElem?_set_ne (by omega), hfront, if_neg (by omega),
          if_pos (by omega), Nat.add_zero]
    · rw [List.getElem?_set_ne (by omega), show b l - 1 + j = b l + (j - 1) by omega,
        h.carried_outside hc hpos hlno (by omega) hl (by omega) (by omega) (by omega),
        if_neg (by omega), if_pos (by omega), Nat.add_sub_assoc hjpos]
  · rw [if_neg (Nat.lt_irrefl _), List.getElem?_set_ne (by omega),
      if_neg (show ¬16 * (nn / 16) + j = 0 by omega)]
    rcases Nat.eq_zero_or_pos j with rfl | hjpos
    · have hfront := h.carried_front hc hlno (by omega) (Nat.le_refl _)
      rw [raised_self, Nat.add_sub_cancel] at hfront
      rw [Nat.add_zero, hfront, if_pos (by omega), Nat.add_zero]
    · rw [h.carried_inside hc hlno hj hjpos]
      by_cases hle : j ≤ nn % 16
      · rw [if_pos hle, if_pos (by omega)]
      · rw [if_neg hle, if_neg (by omega)]
  · rw [if_neg (by omega), List.getElem?_set_ne (by omega),
      h.carried_outside hc hpos hlno (by omega) hl (by omega) hj (by omega), if_neg (by omega),
      if_neg (by omega)]

end Carried

theorem HoldsAt.returns_take_far (h : m.HoldsAt b symbols) (hpos : 0 < b 0) (hnn : 16 ≤ nn)
    (hlt : nn < 256) :
    Returns (m.take nn) fun (uc, m') =>
      symbols[nn]? = some uc ∧ m'.Holds (toFront symbols nn) := by
  have hlt' : nn < symbols.length := by
    rw [h.count]
    exact hlt
  have hlno : nn / 16 < 16 := by omega
  have hinside := h.inside (nn / 16) hlno
  have hinside0 := h.inside 0 (by decide)
  rw [take, if_neg (show ¬nn < mtflSize from Nat.not_lt.mpr hnn)]
  unfold mtflSize
  refine Returns.bind (Returns.of_eq (h.base (nn / 16) hlno) rfl) ?_
  rintro _ rfl
  refine Returns.bind (Returns.of_eq (a := symbols[nn]) ?_ rfl) ?_
  · rw [h.content _ hlno _ (by omega), Nat.div_add_mod, List.getElem?_eq_getElem hlt']
  rintro _ rfl
  refine Returns.bind (returns_shiftUp (by rw [h.size]; omega)) ?_
  rintro mtfa ⟨hsize, hmoved⟩
  rw [h.size] at hsize
  refine Returns.bind (Returns.of_eq (write_eq (by rw [h.bases]; omega) _) rfl) ?_
  rintro _ rfl
  refine Returns.bind (returns_carry (c := raised b (nn / 16)) ?_ ?_ ?_ ?_) ?_
  · show nn / 16 < (m.mtfbase.set _ _).length
    rw [List.length_set, h.bases]
    exact hlno
  · intro l hl
    show (m.mtfbase.set _ _)[l]? = _
    rw [List.getElem?_set, raised]
    by_cases heq : nn / 16 = l
    · rw [if_pos heq, if_pos (by rw [h.bases]; omega), if_pos heq.symm, heq]
    · rw [if_neg heq, if_neg (Ne.symm heq), h.base l (by omega)]
  · intro l l' hl hl'
    have hapart := h.apart l l' hl (by omega)
    rw [raised_of_ne (by omega), raised]
    split <;> omega
  · rw [raised_self, hsize]
    omega
  rintro m' ⟨hsize', hbases, hfirst, hlowered, hkept, htaken, hrest⟩
  dsimp only at hsize' hbases hkept
  rw [List.length_set, h.bases] at hbases
  rw [raised_of_ne (by omega)] at hfirst
  have hfinal : HoldsAt ⟨m'.mtfa.set (b 0 - 1) symbols[nn], m'.mtfbase.set 0 (b 0 - 1)⟩
      (lowered b (nn / 16)) (toFront symbols nn) := by
    refine ⟨by rw [List.length_set, hsize', hsize], by rw [List.length_set, hbases], ?_,
      fun l l' hl hl' => h.lowered_apart hpos hl hl', fun l hl => h.lowered_inside hl,
      fun l hl j hj => h.carried_content ⟨hmoved, htaken, hrest⟩ hpos hnn hlt' (by omega) hl hj,
      by rw [length_toFront hlt', h.count]⟩
    intro l hl
    show (m'.mtfbase.set _ _)[l]? = _
    rw [List.getElem?_set, lowered]
    rcases Nat.eq_zero_or_pos l with rfl | hlpos
    · rw [if_pos rfl, if_pos (by omega), if_pos (by omega)]
    · rw [if_neg (by omega)]
      rcases Nat.lt_trichotomy l (nn / 16) with hlt | rfl | hgt
      · rw [if_pos hlt, hlowered l hlpos (by omega), raised_of_ne (by omega)]
      · rw [if_neg (Nat.lt_irrefl _), hlowered _ hlpos (Nat.le_refl _), raised_self,
          Nat.add_sub_cancel]
      · rw [if_neg (by omega), hkept l hgt, List.getElem?_set_ne (by omega), h.base l hl]
  have hbefore : dec (b 0) = some (b 0 - 1) := by
    obtain ⟨k, hk⟩ := Nat.exists_eq_add_of_le' hpos
    rw [hk]
    rfl
  refine Returns.bind (Returns.of_eq hfirst rfl) ?_
  rintro _ rfl
  refine Returns.bind (Returns.of_eq hbefore rfl) ?_
  rintro _ rfl
  refine Returns.bind (Returns.of_eq (write_eq (by omega) _) rfl) ?_
  rintro _ rfl
  refine Returns.bind (Returns.of_eq (write_eq (by omega) _) rfl) ?_
  rintro _ rfl
  by_cases hzero : b 0 - 1 = 0
  · rw [if_pos hzero]
    refine Returns.bind hfinal.returns_rebuild fun m'' hm'' => ?_
    exact Returns.pure ⟨List.getElem?_eq_getElem hlt', hm''⟩
  · rw [if_neg hzero]
    refine Returns.pure ⟨List.getElem?_eq_getElem hlt', _, hfinal, ?_⟩
    rw [lowered, if_pos (by omega)]
    omega

/-- Taking a symbol is a move to the front. -/
theorem Holds.returns_take (h : m.Holds symbols) (hlt : nn < 256) :
    Returns (m.take nn) fun (uc, m') =>
      symbols[nn]? = some uc ∧ m'.Holds (toFront symbols nn) := by
  obtain ⟨b, hb, hpos⟩ := h
  rcases Nat.lt_or_ge nn 16 with hnear | hfar
  · exact hb.returns_take_near hpos hnear
  · exact hb.returns_take_far hpos hfar hlt

end MtfArray

end StudyNotes.Bzip2
