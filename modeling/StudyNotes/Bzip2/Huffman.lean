/-
# Huffman codes of bzip2

`BZ2_hbAssignCodes` gives the encoder the words of a table of code lengths, and
`BZ2_hbCreateDecodeTables` makes of the same lengths the arrays `limit`, `base` and `perm`
of the decoder.  Both walk over the lengths from the shortest to the longest and count, so
that both end up with the canonical code of the lengths.
-/

import StudyNotes.Lib.CanonicalCode
import StudyNotes.Lib.Checked

namespace StudyNotes.Bzip2

open StudyNotes.Checked StudyNotes.CountingOrder StudyNotes.CanonicalCode

/-- `BZ_MAX_ALPHA_SIZE`. -/
def maxAlphaSize : ℕ := 258

/-- `BZ_MAX_CODE_LEN`. -/
def maxCodeLen : ℕ := 23

/-- `BZ_MAX_SELECTORS`. -/
def maxSelectors : ℕ := 2 + 900000 / 50

/-! ## The shortest and the longest length -/

/-- The loop that finds `minLen`. -/
def minLenOf (length : List ℕ) : ℕ :=
  length.foldl (fun minLen n => if n < minLen then n else minLen) 32

/-- The loop that finds `maxLen`. -/
def maxLenOf (length : List ℕ) : ℕ :=
  length.foldl (fun maxLen n => if n > maxLen then n else maxLen) 0

section Bounds

variable {length : List ℕ} {n bound : ℕ}

/-- A loop that picks one of two numbers in every turn ends with one of all. -/
theorem foldl_mem {pick : ℕ → ℕ → ℕ} (hpick : ∀ m n, pick m n = m ∨ pick m n = n) (start : ℕ) :
    length.foldl pick start ∈ start :: length := by
  induction length generalizing start with
  | nil => exact List.mem_cons_self
  | cons m length ih =>
      have hmem := ih (pick start m)
      rw [List.foldl_cons]
      rcases hpick start m with heq | heq
      · rw [heq] at hmem ⊢
        rcases List.mem_cons.mp hmem with hfirst | hmem
        · rw [hfirst]
          exact List.mem_cons_self
        · exact List.mem_cons_of_mem _ (List.mem_cons_of_mem _ hmem)
      · rw [heq] at hmem ⊢
        exact List.mem_cons_of_mem _ hmem

/-- What is picked is on the right side of all numbers. -/
theorem foldl_rel {pick : ℕ → ℕ → ℕ} {r : ℕ → ℕ → Prop} (hrefl : ∀ m, r m m)
    (htrans : ∀ {l m n}, r l m → r m n → r l n)
    (hpick : ∀ m n, r (pick m n) m ∧ r (pick m n) n) (start : ℕ) :
    r (length.foldl pick start) start ∧ ∀ n ∈ length, r (length.foldl pick start) n := by
  induction length generalizing start with
  | nil => exact ⟨hrefl _, List.forall_mem_nil _⟩
  | cons m length ih =>
      obtain ⟨hstart, hall⟩ := ih (pick start m)
      refine ⟨htrans hstart (hpick start m).1, fun n hn => ?_⟩
      rcases List.mem_cons.mp hn with rfl | hn
      · exact htrans hstart (hpick start n).2
      · exact hall n hn

theorem minLenOf_le (hn : n ∈ length) : minLenOf length ≤ n := by
  refine (foldl_rel (r := (· ≤ ·)) Nat.le_refl Nat.le_trans (fun m n => ?_) 32).2 n hn
  split <;> omega

theorem le_maxLenOf (hn : n ∈ length) : n ≤ maxLenOf length := by
  refine (foldl_rel (r := fun m n => n ≤ m) Nat.le_refl (fun h h' => Nat.le_trans h' h)
    (fun m n => ?_) 0).2 n hn
  split <;> omega

theorem le_minLenOf (hle : ∀ n ∈ length, bound ≤ n) (hbound : bound ≤ 32) :
    bound ≤ minLenOf length := by
  have hmem : minLenOf length ∈ 32 :: length := foldl_mem (fun m n => by split <;> simp) 32
  rcases List.mem_cons.mp hmem with heq | hmem
  · exact heq ▸ hbound
  · exact hle _ hmem

theorem maxLenOf_mem (hpos : ∀ n ∈ length, 0 < n) (hne : length ≠ []) :
    maxLenOf length ∈ length := by
  have hmem : maxLenOf length ∈ 0 :: length := foldl_mem (fun m n => by split <;> simp) 0
  rcases List.mem_cons.mp hmem with heq | hmem
  · obtain ⟨n, hn⟩ := List.exists_mem_of_ne_nil length hne
    have hle := le_maxLenOf hn
    have hpos' := hpos n hn
    omega
  · exact hmem

end Bounds

/-! ## The words of the encoder -/

/-- `BZ2_hbAssignCodes`. -/
def hbAssignCodes (code length : List ℕ) (minLen maxLen alphaSize : ℕ) : Option (List ℕ) := do
  let (code, _) ← loop minLen (maxLen + 1) (fun n (code, vec) => do
    let (code, vec) ← loop 0 alphaSize (fun i (code, vec) => do
      if (← length[i]?) = n then return (← write code i vec, vec + 1)
      else return (code, vec)) (code, vec)
    return (code, 2 * vec)) (code, 0)
  return code

/-- The words of some symbols are there. -/
def Assigned (length : List ℕ) (done : ℕ → ℕ → Prop) (code : List ℕ) : Prop :=
  ∀ j n, length[j]? = some n → done n j → code[j]? = some (word length n j)

section AssignCodes

variable {length code : List ℕ} {minLen maxLen : ℕ}

theorem assignCodes_turn {n i : ℕ} (hi : i < length.length) (hsize : code.length = length.length)
    (hdone : Assigned length (fun m j => m < n ∨ m = n ∧ j < i) code) :
    Returns (do
        if (← length[i]?) = n then
          return (← write code i (first length n + earlier length n i),
            first length n + earlier length n i + 1)
        else return (code, first length n + earlier length n i))
      fun (s : List ℕ × ℕ) => s.1.length = length.length ∧
        s.2 = first length n + earlier length n (i + 1) ∧
        Assigned length (fun m j => m < n ∨ m = n ∧ j < i + 1) s.1 := by
  have hget : length[i]? = some length[i] := List.getElem?_eq_getElem hi
  have hnext : earlier length n (i + 1) =
      earlier length n i + if length[i] = n then 1 else 0 := earlier_succ hget
  refine Returns.bind (Returns.of_eq hget rfl) ?_
  rintro _ rfl
  by_cases heq : length[i] = n
  · rw [if_pos heq] at hnext ⊢
    refine Returns.bind (Returns.of_eq (write_eq (by omega) _) rfl) ?_
    rintro _ rfl
    refine Returns.pure ⟨?_, ?_, ?_⟩
    · rw [List.length_set, hsize]
    · rw [hnext, Nat.add_assoc]
    · intro j m hj hjm
      rw [List.getElem?_set]
      by_cases hji : i = j
      · subst hji
        rw [hget, heq] at hj
        cases hj
        rw [if_pos rfl, if_pos (by omega), word]
      · rw [if_neg hji]
        exact hdone j m hj (by omega)
  · rw [if_neg heq] at hnext ⊢
    refine Returns.pure ⟨hsize, ?_, ?_⟩
    · rw [hnext, Nat.add_zero]
    · intro j m hj hjm
      refine hdone j m hj ?_
      by_cases hji : j = i
      · subst hji
        rw [hget] at hj
        cases hj
        omega
      · omega

/-- Every symbol gets the word of the canonical code. -/
theorem returns_hbAssignCodes (hsize : code.length = length.length)
    (hmin : ∀ n ∈ length, minLen ≤ n) (hmax : ∀ n ∈ length, n ≤ maxLen) (hle : minLen ≤ maxLen) :
    Returns (hbAssignCodes code length minLen maxLen length.length)
      (Assigned length fun _ _ => True) := by
  refine Returns.bind (Returns.loop (fun n s => s.1.length = length.length ∧ s.2 = first length n ∧
    Assigned length (fun m _ => m < n) s.1) (by omega) ?_ ?_) ?_
  · refine ⟨hsize, (first_eq_zero hmin).symm, ?_⟩
    intro j n hj hlt
    exact absurd (hmin n (List.mem_of_getElem? hj)) (by omega)
  · rintro n ⟨code, vec⟩ - - ⟨hsize, hvec, hdone⟩
    refine Returns.bind (Returns.loop (fun i s => s.1.length = length.length ∧
      s.2 = first length n + earlier length n i ∧
      Assigned length (fun m j => m < n ∨ m = n ∧ j < i) s.1) (Nat.zero_le _) ?_ ?_) ?_
    · refine ⟨hsize, hvec, ?_⟩
      intro j m hj hjm
      exact hdone j m hj (by omega)
    · rintro i ⟨code, vec⟩ - hi ⟨hsize, hvec, hdone⟩
      subst hvec
      exact assignCodes_turn hi hsize hdone
    · rintro ⟨code, vec⟩ ⟨hsize, hvec, hdone⟩
      refine Returns.pure ⟨hsize, ?_, ?_⟩
      · show 2 * vec = _
        have hvec' : vec = first length n + earlier length n length.length := hvec
        rw [hvec', first_succ, earlier, List.take_length]
      · intro j m hj hlt
        have hjlt : j < length.length := (List.getElem?_eq_some_iff.mp hj).1
        exact hdone j m hj (by omega)
  · rintro ⟨code, vec⟩ ⟨-, -, hdone⟩
    refine Returns.pure ?_
    intro j n hj _
    exact hdone j n hj (Nat.lt_succ_of_le (hmax n (List.mem_of_getElem? hj)))

end AssignCodes

/-! ## The tables of the decoder -/

/-- The arrays `limit`, `base` and `perm` of one coding table; of `perm` the part that is
filled. -/
structure DecodeTable where
  limit : List ℤ
  base : List ℤ
  perm : List ℕ

/-- The first loop of `BZ2_hbCreateDecodeTables`. -/
def fillPerm (length : List ℕ) (minLen maxLen alphaSize : ℕ) : Option (List ℕ) :=
  loop minLen (maxLen + 1) (fun i perm => loop 0 alphaSize (fun j perm => do
    if (← length[j]?) = i then push maxAlphaSize perm j else return perm) perm) []

/-- The loops that count the lengths and sum the counts up. -/
def fillBase (length : List ℕ) (alphaSize : ℕ) : Option (List ℤ) := do
  let base ← loop 0 alphaSize (fun i base => do
    let k := (← length[i]?) + 1
    write base k ((← base[k]?) + 1)) (List.replicate maxCodeLen 0)
  sumUp maxCodeLen base

def fillLimit (base : List ℤ) (minLen maxLen : ℕ) : Option (List ℤ) := do
  let (limit, _) ← loop minLen (maxLen + 1) (fun i (limit, vec) => do
    let vec := vec + ((← base[i + 1]?) - (← base[i]?))
    return (← write limit i (vec - 1), 2 * vec)) (List.replicate maxCodeLen 0, 0)
  return limit

/-- `BZ2_hbCreateDecodeTables`. -/
def hbCreateDecodeTables (length : List ℕ) (minLen maxLen alphaSize : ℕ) :
    Option DecodeTable := do
  let perm ← fillPerm length minLen maxLen alphaSize
  let base ← fillBase length alphaSize
  let limit ← fillLimit base minLen maxLen
  let base ← loop (minLen + 1) (maxLen + 1) (fun i base => do
    write base i (2 * ((← limit[i - 1]?) + 1) - (← base[i]?))) base
  return { limit, base, perm }

section CreateDecodeTables

variable {length : List ℕ} {minLen maxLen : ℕ}

/-- The symbols ordered by their lengths. -/
theorem returns_fillPerm (halpha : length.length ≤ maxAlphaSize)
    (hmin : ∀ n ∈ length, minLen ≤ n) (hle : minLen ≤ maxLen) :
    Returns (fillPerm length minLen maxLen length.length)
      fun perm => perm = ordered length (maxLen + 1) := by
  refine Returns.loop (fun n perm => perm = ordered length n) (by omega) ?_ ?_
  · have hlength : (ordered length minLen).length = 0 := by
      rw [length_ordered, below_eq_zero hmin]
    exact (List.length_eq_zero_iff.mp hlength).symm
  · rintro n perm - - rfl
    refine (Returns.loop (fun i perm => perm = ordered length n ++
      (List.range i).filter fun j => length[j]? = some n) (Nat.zero_le _) ?_ ?_).mono ?_
    · rw [List.range_zero, List.filter_nil, List.append_nil]
    · rintro i perm - hi rfl
      have hget : length[i]? = some length[i] := List.getElem?_eq_getElem hi
      refine Returns.bind (Returns.of_eq hget rfl) ?_
      rintro _ rfl
      by_cases heq : length[i] = n
      · rw [if_pos heq]
        have hfits : (ordered length n ++
            (List.range i).filter fun j => length[j]? = some n).length < maxAlphaSize := by
          have hcount := earlier_lt_count hget
          have hbelow : below length (n + 1) ≤ length.length := below_le_length
          rw [heq] at hcount
          rw [below_succ] at hbelow
          rw [List.length_append, length_ordered, length_filter_range n (by omega)]
          omega
        refine Returns.of_eq (push_eq hfits i) ?_
        rw [List.append_assoc, List.range_succ, List.filter_append, List.filter_singleton, hget,
          heq]
        simp
      · rw [if_neg heq]
        refine Returns.pure ?_
        rw [List.range_succ, List.filter_append, List.filter_singleton, hget]
        simp [heq]
    · rintro perm rfl
      rw [ordered_succ, bucket]

/-- `base` counts the shorter words. -/
theorem returns_fillBase (hmax : ∀ n ∈ length, n + 1 < maxCodeLen) :
    Returns (fillBase length length.length) fun base => base.length = maxCodeLen ∧
      ∀ k < maxCodeLen, base[k]? = some (below length k : ℤ) := by
  refine Returns.bind (Returns.loop (fun i base => base.length = maxCodeLen ∧
    base[0]? = some (0 : ℤ) ∧
    ∀ k, k + 1 < maxCodeLen → base[k + 1]? = some (earlier length k i : ℤ)) (Nat.zero_le _) ?_ ?_) ?_
  · refine ⟨List.length_replicate, rfl, ?_⟩
    intro k hk
    rw [List.getElem?_replicate, if_pos hk]
    rfl
  · rintro i base - hi ⟨hsize, hzero, hcount⟩
    have hget : length[i]? = some length[i] := List.getElem?_eq_getElem hi
    have hfits : length[i] + 1 < maxCodeLen := hmax _ (List.getElem_mem hi)
    refine Returns.bind (Returns.of_eq hget rfl) ?_
    rintro _ rfl
    refine Returns.bind (Returns.of_eq (hcount _ hfits) rfl) ?_
    rintro _ rfl
    refine Returns.of_eq (write_eq (by omega) _) ⟨?_, ?_, ?_⟩
    · rw [List.length_set, hsize]
    · rw [List.getElem?_set_ne (by omega), hzero]
    · intro k hk
      have hnext : earlier length k (i + 1) =
          earlier length k i + if length[i] = k then 1 else 0 := earlier_succ hget
      rw [List.getElem?_set, hnext]
      by_cases heq : length[i] = k
      · subst heq
        rw [if_pos rfl, if_pos (by omega), if_pos rfl, Nat.cast_succ]
      · rw [if_neg (by omega), if_neg heq, hcount k hk, Nat.add_zero]
  · rintro base ⟨hsize, hzero, hcount⟩
    refine returns_sumUp (fun k => (below length k : ℤ)) (by decide) hsize ?_ ?_
    · rw [hzero, below_eq_zero fun n _ => Nat.zero_le n]
      rfl
    · intro k hk
      rw [hcount k hk, earlier, List.take_length, below_succ, Nat.cast_add, add_sub_cancel_left]

theorem returns_fillLimit {base : List ℤ}
    (hbase : ∀ k < maxCodeLen, base[k]? = some (below length k : ℤ))
    (hmin : ∀ n ∈ length, minLen ≤ n) (hle : minLen ≤ maxLen) (hmax : maxLen + 1 < maxCodeLen) :
    Returns (fillLimit base minLen maxLen) fun limit => limit.length = maxCodeLen ∧
      (∀ k, minLen ≤ k → k ≤ maxLen →
        limit[k]? = some ((first length k + length.count k : ℤ) - 1)) ∧
      ∀ k, maxLen < k → k < maxCodeLen → limit[k]? = some (0 : ℤ) := by
  refine Returns.bind (Returns.loop (fun i (s : List ℤ × ℤ) => s.1.length = maxCodeLen ∧
    s.2 = (first length i : ℤ) ∧
    (∀ k, minLen ≤ k → k < i → s.1[k]? = some ((first length k + length.count k : ℤ) - 1)) ∧
    ∀ k, maxLen < k → k < maxCodeLen → s.1[k]? = some (0 : ℤ)) (by omega) ?_ ?_) ?_
  · refine ⟨List.length_replicate, ?_, ?_, ?_⟩
    · rw [first_eq_zero hmin]
      rfl
    · intro k hk hk'
      exact absurd hk' (by omega)
    · intro k _ hk
      exact List.getElem?_replicate_of_lt hk
  · rintro i ⟨limit, vec⟩ hi hlast ⟨hsize, hvec, hdone, hrest⟩
    have hvec' : vec = (first length i : ℤ) := hvec
    subst hvec'
    refine Returns.bind (Returns.of_eq (hbase (i + 1) (by omega)) rfl) ?_
    rintro _ rfl
    refine Returns.bind (Returns.of_eq (hbase i (by omega)) rfl) ?_
    rintro _ rfl
    have hcount : (below length (i + 1) : ℤ) - below length i = length.count i := by
      rw [below_succ, Nat.cast_add]
      omega
    rw [hcount]
    have hsize' : limit.length = maxCodeLen := hsize
    refine Returns.bind (Returns.of_eq (write_eq (by omega) _) rfl) ?_
    rintro _ rfl
    refine Returns.pure ⟨?_, ?_, ?_, ?_⟩
    · rw [List.length_set, hsize']
    · rw [first_succ]
      push_cast
      rfl
    · intro k hk hk'
      rw [List.getElem?_set]
      by_cases heq : i = k
      · rw [if_pos heq, if_pos (by omega), heq]
      · rw [if_neg heq]
        exact hdone k hk (by omega)
    · intro k hk hk'
      rw [List.getElem?_set_ne (by omega)]
      exact hrest k hk hk'
  · rintro ⟨limit, vec⟩ ⟨hsize, -, hdone, hrest⟩
    exact Returns.pure ⟨hsize, fun k hk hk' => hdone k hk (by omega), hrest⟩

/-- The tables are those of the canonical code. -/
structure DecodeTable.Canonical (table : DecodeTable) (length : List ℕ) (minLen maxLen : ℕ) :
    Prop where
  perm : table.perm = ordered length (maxLen + 1)
  limit : ∀ k, minLen ≤ k → k ≤ maxLen →
    table.limit[k]? = some ((first length k + length.count k : ℤ) - 1)
  limit_zero : ∀ k, maxLen < k → k < maxCodeLen → table.limit[k]? = some (0 : ℤ)
  base : ∀ k, minLen ≤ k → k ≤ maxLen →
    table.base[k]? = some ((first length k : ℤ) - below length k)

theorem returns_hbCreateDecodeTables (halpha : length.length ≤ maxAlphaSize)
    (hmin : ∀ n ∈ length, minLen ≤ n) (hmax : ∀ n ∈ length, n ≤ maxLen) (hle : minLen ≤ maxLen)
    (hfits : maxLen + 1 < maxCodeLen) :
    Returns (hbCreateDecodeTables length minLen maxLen length.length)
      fun table => table.Canonical length minLen maxLen := by
  refine Returns.bind (returns_fillPerm halpha hmin hle) ?_
  rintro perm rfl
  refine Returns.bind (returns_fillBase fun n hn => by have := hmax n hn; omega) ?_
  rintro base ⟨hbase, hbelow⟩
  refine Returns.bind (returns_fillLimit hbelow hmin hle hfits) ?_
  rintro limit ⟨-, hlimit, hzero⟩
  refine Returns.bind (Returns.loop (fun i base => base.length = maxCodeLen ∧
    (∀ k, minLen ≤ k → k < i → base[k]? = some ((first length k : ℤ) - below length k)) ∧
    ∀ k, i ≤ k → k < maxCodeLen → base[k]? = some (below length k : ℤ)) (by omega) ?_ ?_) ?_
  · refine ⟨hbase, ?_, fun k _ hk => hbelow k hk⟩
    intro k hk hk'
    rw [show k = minLen by omega, hbelow minLen (by omega), first_eq_zero hmin,
      below_eq_zero hmin]
    rfl
  · rintro i base hi hlast ⟨hsize, hdone, htodo⟩
    obtain ⟨k, rfl⟩ := Nat.exists_eq_add_of_le' (Nat.one_le_of_lt hi)
    refine Returns.bind (Returns.of_eq (hlimit k (by omega) (by omega)) rfl) ?_
    rintro _ rfl
    refine Returns.bind (Returns.of_eq (htodo (k + 1) (Nat.le_refl _) (by omega)) rfl) ?_
    rintro _ rfl
    refine Returns.of_eq (write_eq (by omega) _) ⟨?_, ?_, ?_⟩
    · rw [List.length_set, hsize]
    · intro j hj hj'
      rw [List.getElem?_set]
      by_cases heq : k + 1 = j
      · rw [if_pos heq, if_pos (by omega), ← heq, first_succ]
        push_cast
        ring_nf
      · rw [if_neg heq, hdone j hj (by omega)]
    · intro j hj hj'
      rw [List.getElem?_set_ne (by omega), htodo j (by omega) hj']
  · rintro base ⟨-, hdone, -⟩
    exact Returns.pure ⟨rfl, hlimit, hzero, fun k hk hk' => hdone k hk (by omega)⟩

end CreateDecodeTables

/-! ## Looking up a word -/

/-- What the loop of `GET_MTF_VAL` finds out about the bits it has. -/
inductive Lookup where
  | symbol (value : ℕ)
  | more
  | dataError
  deriving DecidableEq, Repr

/-- The body of the loop of `GET_MTF_VAL` for `zn` bits `zvec`, and what follows the loop. -/
def DecodeTable.lookup (table : DecodeTable) (zn zvec : ℕ) : Option Lookup := do
  if zn > 20 then return .dataError
  if zvec ≤ (← table.limit[zn]?) then
    let k := zvec - (← table.base[zn]?)
    if k < 0 ∨ k ≥ maxAlphaSize then return .dataError
    return .symbol (← table.perm[k.toNat]?)
  else return .more

namespace DecodeTable.Canonical

variable {table : DecodeTable} {length : List ℕ} {minLen maxLen zn zvec n symbol : ℕ}

/-- A word is found once all its bits are there. -/
theorem lookup_word (h : table.Canonical length minLen maxLen) (hmin : minLen ≤ n)
    (hmax : n ≤ maxLen) (hlong : maxLen ≤ 20) (halpha : length.length ≤ maxAlphaSize)
    (hsymbol : length[symbol]? = some n) :
    table.lookup n (word length n symbol) = some (.symbol symbol) := by
  have hcount := earlier_lt_count hsymbol
  have hbelow : below length (n + 1) ≤ length.length := below_le_length
  have hindex : (word length n symbol : ℤ) - ((first length n : ℤ) - below length n) =
      (below length n + earlier length n symbol : ℕ) := by
    rw [word]
    push_cast
    ring
  have hfound : table.perm[below length n + earlier length n symbol]? = some symbol := by
    rw [h.perm]
    exact ordered_getElem? hsymbol (Nat.lt_succ_of_le hmax)
  rw [below_succ] at hbelow
  have hle : (word length n symbol : ℤ) ≤ (first length n + length.count n : ℤ) - 1 := by
    rw [word]
    omega
  rw [lookup, if_neg (by omega), h.limit n hmin hmax, h.base n hmin hmax]
  simp only [Option.pure_def, Option.bind_eq_bind, Option.bind_some]
  rw [if_pos hle, hindex, if_neg (by omega), Int.toNat_natCast, hfound]
  rfl

variable (symbol) in
/-- The beginning of a word is not taken for a shorter one. -/
theorem lookup_prefix (h : table.Canonical length minLen maxLen) (hzn : minLen ≤ zn)
    (hlt : zn < n) (hmax : n ≤ maxLen) (hlong : maxLen ≤ 20) :
    table.lookup zn (word length n symbol / 2 ^ (n - zn)) = some .more := by
  have hle : first length zn + length.count zn ≤ word length n symbol / 2 ^ (n - zn) :=
    le_word_div hlt
  rw [lookup, if_neg (by omega), h.limit zn hzn (by omega)]
  simp only [Option.pure_def, Option.bind_eq_bind, Option.bind_some]
  rw [if_neg (by omega)]

/-- Whatever the bits are, the lookup stays inside its arrays and finds a symbol of the
alphabet; where it asks for a bit, the bits it has are beyond the words of their length. -/
theorem returns_lookup (h : table.Canonical length minLen maxLen) (hzn : minLen ≤ zn)
    (hmem : maxLen ∈ length) (hmax : ∀ n ∈ length, n ≤ maxLen)
    (hreached : first length zn ≤ zvec) :
    Returns (table.lookup zn zvec) fun
      | .symbol value => value < length.length
      | .more => first length (zn + 1) ≤ 2 * zvec ∧ zn ≤ 20
      | .dataError => True := by
  by_cases hover : zn > 20
  · rw [lookup, if_pos hover]
    exact Returns.pure trivial
  · rw [lookup, if_neg hover]
    by_cases hinside : zn ≤ maxLen
    · refine Returns.bind (Returns.of_eq (h.limit zn hzn hinside) rfl) ?_
      rintro _ rfl
      by_cases hword : (zvec : ℤ) ≤ (first length zn + length.count zn : ℤ) - 1
      · rw [if_pos hword]
        refine Returns.bind (Returns.of_eq (h.base zn hzn hinside) rfl) ?_
        rintro _ rfl
        have hsize : table.perm.length = length.length := by
          rw [h.perm, length_ordered, below_eq_length fun n hn => Nat.lt_succ_of_le (hmax n hn)]
        have hbelow : below length (zn + 1) ≤ length.length := below_le_length
        have hk : ((zvec : ℤ) - ((first length zn : ℤ) - below length zn)).toNat <
            table.perm.length := by
          rw [below_succ] at hbelow
          omega
        show Returns (if _ then _ else _) _
        split
        · exact Returns.pure trivial
        · refine Returns.bind (Returns.of_eq (List.getElem?_eq_getElem hk) rfl) ?_
          rintro _ rfl
          refine Returns.pure (lt_of_mem_ordered (n := maxLen + 1) ?_)
          rw [← h.perm]
          exact List.getElem_mem hk
      · rw [if_neg hword]
        refine Returns.pure ⟨?_, by omega⟩
        rw [first_succ]
        omega
    · -- No word is that long: the bits are beyond the longest words, and `limit` is 0.
      have hfits : zn < maxCodeLen := Nat.lt_of_le_of_lt (Nat.not_lt.mp hover) (by decide)
      have hpast : 1 * 1 ≤ zvec := by
        refine Nat.le_trans (Nat.mul_le_mul ?_ (Nat.two_pow_pos (zn - maxLen)))
          (Nat.le_trans (mul_pow_le_first (Nat.not_le.mp hinside)) hreached)
        exact Nat.le_trans (List.count_pos_iff.mpr hmem) (Nat.le_add_left _ _)
      have hnone : length.count zn = 0 := by
        rw [List.count_eq_zero]
        intro hzn'
        exact hinside (hmax zn hzn')
      refine Returns.bind (Returns.of_eq (h.limit_zero zn (Nat.not_le.mp hinside) hfits) rfl) ?_
      rintro _ rfl
      rw [if_neg (by omega)]
      refine Returns.pure ⟨?_, by omega⟩
      rw [first_succ, hnone]
      omega

end DecodeTable.Canonical

end StudyNotes.Bzip2
