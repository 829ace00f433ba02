/-
# Choosing the coding tables

The first half of `sendMTFValues`.  The values are divided into groups of fifty, and every group
is coded with one of up to six tables.  Four times the cheapest table is found for each group and
the tables are made anew from the values that they got.  With six tables the costs are summed up
two at a time in words of 32 bits.
-/

import StudyNotes.Bzip2.CodeLengths
import StudyNotes.Bzip2.Send

namespace StudyNotes.Bzip2

open StudyNotes.Checked

/-- "Decide how many coding tables to use". -/
def nGroupsOf (nMTF : ℕ) : ℕ :=
  if nMTF < 200 then 2
  else if nMTF < 600 then 3
  else if nMTF < 1200 then 4
  else if nMTF < 2400 then 5
  else 6

/-! ## The first tables -/

/-- The inner loop under "Generate an initial set of coding tables". -/
def growGroup (mtfFreq : List ℕ) (alphaSize : ℕ) (tFreq ge aFreq : ℤ) : Option (ℤ × ℤ) :=
  if aFreq < tFreq ∧ ge < alphaSize - 1 then do
    let ge := ge + 1
    growGroup mtfFreq alphaSize tFreq ge (aFreq + (← mtfFreq[← index ge]?))
  else some (ge, aFreq)
termination_by (alphaSize - ge).toNat
decreasing_by omega

/-- Every second of the middle groups gives its last symbol away. -/
def shrinkGroup (mtfFreq : List ℕ) (nGroups nPart : ℕ) (gs ge aFreq : ℤ) : Option (ℤ × ℤ) :=
  if ge > gs ∧ nPart ≠ nGroups ∧ nPart ≠ 1 ∧ (nGroups - nPart) % 2 = 1 then do
    return (ge - 1, aFreq - (← mtfFreq[← index ge]?))
  else some (ge, aFreq)

/-- The loop over the parts, with `nPart` of them left. -/
def initialTables (mtfFreq : List ℕ) (alphaSize nGroups : ℕ) :
    ℕ → ℤ → ℤ → List (List ℕ) → Option (List (List ℕ))
  | 0, _, _, lens => some lens
  | nPart + 1, gs, remF, lens => do
      let tFreq := remF.tdiv (nPart + 1)
      let (ge, aFreq) ← growGroup mtfFreq alphaSize tFreq (gs - 1) 0
      let (ge, aFreq) ← shrinkGroup mtfFreq nGroups (nPart + 1) gs ge aFreq
      let len := (List.range alphaSize).map fun (v : ℕ) =>
        if gs ≤ (v : ℤ) ∧ (v : ℤ) ≤ ge then 0 else 15
      initialTables mtfFreq alphaSize nGroups nPart (ge + 1) (remF - aFreq) (← write lens nPart len)

/-! ## Better tables -/

/-- The slow version of the costs of a group with each of the tables. -/
def slowCosts (lens : List (List ℕ)) (group : List ℕ) : Option (List UInt16) :=
  group.foldlM (fun cost icv =>
    (lens.zip cost).mapM fun (len, c) => do return c + UInt16.ofNat (← len[icv]?))
    (List.replicate lens.length 0)

/-- An entry of `len_pack` for two of the tables. -/
def pack2 (lens : List (List ℕ)) (t v : ℕ) : Option UInt32 := do
  return UInt32.ofNat (← (← lens[t + 1]?)[v]?) <<< 16 ||| UInt32.ofNat (← (← lens[t]?)[v]?)

/-- `len_pack`, as the sums of one pair of tables read it. -/
def lenPack (lens : List (List ℕ)) (alphaSize t : ℕ) : Option (List UInt32) :=
  (List.range alphaSize).mapM (pack2 lens t)

/-- The costs of two tables. -/
def fastSum (pack : List UInt32) (group : List ℕ) : Option (List UInt16) := do
  let cost ← group.foldlM (fun cost icv => do return cost + (← pack[icv]?)) (0 : UInt32)
  return [(cost &&& 0xffff).toUInt16, (cost >>> 16).toUInt16]

/-- The fast track of the common case. -/
def fastCosts (lens : List (List ℕ)) (alphaSize : ℕ) (group : List ℕ) : Option (List UInt16) := do
  let cost01 ← fastSum (← lenPack lens alphaSize 0) group
  let cost23 ← fastSum (← lenPack lens alphaSize 2) group
  let cost45 ← fastSum (← lenPack lens alphaSize 4) group
  return cost01 ++ cost23 ++ cost45

def groupCosts (lens : List (List ℕ)) (alphaSize : ℕ) (group : List ℕ) : Option (List UInt16) :=
  if lens.length = 6 ∧ group.length = 50 then fastCosts lens alphaSize group
  else slowCosts lens group

/-- A turn of the loop that finds `bc` and `bt`; `bt` is -1 before the first. -/
def cheaper : ℕ × Option ℕ → UInt16 × ℕ → ℕ × Option ℕ
  | (bc, bt), (cost, t) => if cost.toNat < bc then (cost.toNat, some t) else (bc, bt)

def bestTable (cost : List UInt16) : Option ℕ := (cost.zipIdx.foldl cheaper (999999999, none)).2

/-- `s->rfreq[bt][v]++` for the values of a group. -/
def countGroup (freq : List ℕ) (group : List ℕ) : Option (List ℕ) :=
  group.foldlM (fun freq v => do write freq v ((← freq[v]?) + 1)) freq

/-- The loop over the groups of values. -/
def selectTables (lens : List (List ℕ)) (alphaSize : ℕ) (mtfv : List ℕ) (selector : List ℕ)
    (rfreq : List (List ℕ)) : Option (List ℕ × List (List ℕ)) :=
  if mtfv = [] then some (selector, rfreq)
  else do
    let group := mtfv.take 50
    let bt ← bestTable (← groupCosts lens alphaSize group)
    let selector ← push maxSelectors selector bt
    let rfreq ← write rfreq bt (← countGroup (← rfreq[bt]?) group)
    selectTables lens alphaSize (mtfv.drop 50) selector rfreq
termination_by mtfv.length
decreasing_by
  rename_i hne
  have hpos := List.length_pos_iff.mpr hne
  rw [List.length_drop]
  omega

/-- A turn of the loop that improves the tables. -/
def improveTables (alphaSize : ℕ) (mtfv : List ℕ) (lens : List (List ℕ)) :
    Option (List (List ℕ) × List ℕ) := do
  let (selector, rfreq) ← selectTables lens alphaSize mtfv []
    (List.replicate lens.length (List.replicate alphaSize 0))
  return (← rfreq.mapM fun freq => hbMakeCodeLengths freq alphaSize 17, selector)

/-- `sendMTFValues` as far as the tables are chosen. -/
def chooseTables (mtfFreq : List ℕ) (alphaSize : ℕ) (mtfv : List ℕ) :
    Option (List (List ℕ) × List ℕ) := do
  guard (mtfv.length > 0)
  let nGroups := nGroupsOf mtfv.length
  let lens ← initialTables mtfFreq alphaSize nGroups nGroups 0 mtfv.length
    (List.replicate nGroups (List.replicate alphaSize 15))
  loop 0 4 (fun _ (lens, _) => improveTables alphaSize mtfv lens) (lens, [])

/-! ## What the first tables look like -/

/-- Tables with an entry for every symbol, of which none is larger than the longest length. -/
structure Rows (nGroups alphaSize : ℕ) (lens : List (List ℕ)) : Prop where
  length_eq : lens.length = nGroups
  length_len : ∀ len ∈ lens, len.length = alphaSize
  le : ∀ len ∈ lens, ∀ n ∈ len, n ≤ 17

section Initial

variable {mtfFreq : List ℕ} {alphaSize nGroups : ℕ}

theorem returns_growGroup (hfreq : alphaSize ≤ mtfFreq.length) {tFreq ge aFreq : ℤ} (hge : -1 ≤ ge)
    (hlt : ge < alphaSize) :
    Returns (growGroup mtfFreq alphaSize tFreq ge aFreq) fun (ge', _) =>
      ge ≤ ge' ∧ ge' < alphaSize := by
  induction hleft : (alphaSize - ge).toNat generalizing ge aFreq with
  | zero => omega
  | succ left ih =>
      rw [growGroup]
      by_cases hmore : aFreq < tFreq ∧ ge < alphaSize - 1
      · rw [if_pos hmore]
        obtain ⟨k, hk⟩ : ∃ k : ℕ, ge + 1 = k := ⟨(ge + 1).toNat, by omega⟩
        dsimp only
        rw [hk, index_natCast]
        refine Returns.bind (Returns.of_eq rfl rfl) ?_
        rintro _ rfl
        refine Returns.bind (Returns.of_eq (List.getElem?_eq_getElem (by omega)) rfl) ?_
        rintro _ rfl
        refine (ih (show -1 ≤ (k : ℤ) by omega) (by omega) (by omega)).mono ?_
        rintro ⟨ge', _⟩ ⟨hle, hlt'⟩
        exact ⟨by omega, hlt'⟩
      · rw [if_neg hmore]
        exact Returns.of_eq rfl ⟨le_refl _, hlt⟩

theorem returns_shrinkGroup (hfreq : alphaSize ≤ mtfFreq.length) {gs ge aFreq : ℤ} {nPart : ℕ}
    (hgs : 0 ≤ gs) (hge : gs - 1 ≤ ge) (hlt : ge < alphaSize) :
    Returns (shrinkGroup mtfFreq nGroups nPart gs ge aFreq) fun (ge', _) =>
      gs - 1 ≤ ge' ∧ ge' < alphaSize := by
  rw [shrinkGroup]
  split
  · rename_i hmiddle
    obtain ⟨k, rfl⟩ : ∃ k : ℕ, ge = k := ⟨ge.toNat, by omega⟩
    rw [index_natCast]
    refine Returns.bind (Returns.of_eq rfl rfl) ?_
    rintro _ rfl
    refine Returns.bind (Returns.of_eq (List.getElem?_eq_getElem (by omega)) rfl) ?_
    rintro _ rfl
    exact Returns.pure ⟨by omega, by omega⟩
  · exact Returns.of_eq rfl ⟨hge, hlt⟩

theorem returns_initialTables (hfreq : alphaSize ≤ mtfFreq.length) {nPart : ℕ} {gs remF : ℤ}
    {lens : List (List ℕ)} (hlens : Rows nGroups alphaSize lens) (hpart : nPart ≤ nGroups)
    (hgs : 0 ≤ gs) (hle : gs ≤ alphaSize) :
    Returns (initialTables mtfFreq alphaSize nGroups nPart gs remF lens)
      (Rows nGroups alphaSize) := by
  induction nPart generalizing gs remF lens with
  | zero => exact Returns.of_eq rfl hlens
  | succ nPart ih =>
      refine Returns.bind (returns_growGroup hfreq (by omega) (by omega)) ?_
      rintro ⟨ge, aFreq⟩ ⟨hge, hlt⟩
      refine Returns.bind (returns_shrinkGroup hfreq hgs hge hlt) ?_
      rintro ⟨ge', aFreq'⟩ ⟨hge', hlt'⟩
      refine Returns.bind (Returns.of_eq (write_eq (by rw [hlens.length_eq]; omega) _) rfl) ?_
      rintro _ rfl
      refine ih ⟨?_, fun len hlen => ?_, fun len hlen => ?_⟩ (by omega) (by omega) (by omega)
      · rw [List.length_set, hlens.length_eq]
      · rcases List.mem_or_eq_of_mem_set hlen with hold | rfl
        · exact hlens.length_len len hold
        · rw [List.length_map, List.length_range]
      · rcases List.mem_or_eq_of_mem_set hlen with hold | rfl
        · exact hlens.le len hold
        · intro n hn
          obtain ⟨v, -, rfl⟩ := List.mem_map.mp hn
          split
          · exact Nat.zero_le _
          · exact (by decide : 15 ≤ 17)

end Initial

/-! ## The costs of a group -/

/-- The bits that a table needs for some values. -/
def costOf (len : List ℕ) (group : List ℕ) : ℕ := (group.map fun v => len[v]?.getD 0).sum

section Costs

variable {lens : List (List ℕ)} {alphaSize nGroups t : ℕ} {group : List ℕ}

theorem costOf_cons (len : List ℕ) (v : ℕ) (group : List ℕ) :
    costOf len (v :: group) = len[v]?.getD 0 + costOf len group := List.sum_cons

theorem costOf_le {len : List ℕ} (hle : ∀ n ∈ len, n ≤ 17) (group : List ℕ) :
    costOf len group ≤ 17 * group.length := by
  induction group with
  | nil => exact Nat.le_refl _
  | cons v group ih =>
      have hv : len[v]?.getD 0 ≤ 17 := by
        cases hget : len[v]? with
        | none => exact Nat.zero_le _
        | some n => exact hle n (List.mem_of_getElem? hget)
      rw [costOf_cons, List.length_cons]
      omega

theorem slowCosts_eq (hlens : ∀ len ∈ lens, len.length = alphaSize)
    (hgroup : ∀ v ∈ group, v < alphaSize) :
    slowCosts lens group = some (lens.map fun len => UInt16.ofNat (costOf len group)) := by
  have hturn : ∀ (v : ℕ) (f : List ℕ → UInt16) (lens : List (List ℕ)), v < alphaSize →
      (∀ len ∈ lens, len.length = alphaSize) →
      ((lens.zip (lens.map f)).mapM fun (len, c) => do return c + UInt16.ofNat (← len[v]?)) =
        some (lens.map fun len => f len + UInt16.ofNat (len[v]?.getD 0)) := by
    intro v f lens hv
    induction lens with
    | nil => exact fun _ => rfl
    | cons len lens ih =>
        intro hlens
        obtain ⟨n, hget⟩ : ∃ n, len[v]? = some n :=
          ⟨_, List.getElem?_eq_getElem (by rw [hlens len List.mem_cons_self]; exact hv)⟩
        rw [List.map_cons, List.zip_cons_cons, List.mapM_cons,
          ih fun l hl => hlens l (List.mem_cons_of_mem _ hl), List.map_cons]
        dsimp only
        rw [hget]
        rfl
  have hrun : ∀ (group : List ℕ) (f : List ℕ → ℕ), (∀ v ∈ group, v < alphaSize) →
      group.foldlM (fun cost icv =>
        (lens.zip cost).mapM fun (len, c) => do return c + UInt16.ofNat (← len[icv]?))
        (lens.map fun len => UInt16.ofNat (f len)) =
          some (lens.map fun len => UInt16.ofNat (f len + costOf len group)) := by
    intro group
    induction group with
    | nil => exact fun _ _ => rfl
    | cons v group ih =>
        intro f hgroup
        have hnext := ih (fun len => f len + len[v]?.getD 0)
          fun u hu => hgroup u (List.mem_cons_of_mem _ hu)
        rw [List.foldlM_cons, hturn v _ lens (hgroup v List.mem_cons_self) hlens]
        simp only [UInt16.ofNat_add, costOf_cons, Nat.add_assoc] at hnext ⊢
        exact hnext
  have hstart : List.replicate lens.length (0 : UInt16) = lens.map fun _ => UInt16.ofNat 0 :=
    (List.map_const' ..).symm
  have hall := hrun group (fun _ => 0) hgroup
  simp only [Nat.zero_add] at hall
  rw [slowCosts, hstart, hall]

theorem pack2_eq {low high : List ℕ} (hlow : lens[t]? = some low) (hhigh : lens[t + 1]? = some high)
    (hle : ∀ n ∈ low, n ≤ 17) (hle' : ∀ n ∈ high, n ≤ 17) {v : ℕ} (hv : v < low.length)
    (hv' : v < high.length) :
    pack2 lens t v = some (UInt32.ofNat (high[v] * 2 ^ 16 + low[v])) := by
  have hl := hle _ (List.getElem_mem hv)
  have hh := hle' _ (List.getElem_mem hv')
  rw [pack2, hhigh, hlow]
  dsimp only [Option.bind_eq_bind, Option.bind_some]
  rw [List.getElem?_eq_getElem hv, List.getElem?_eq_getElem hv']
  generalize low[v] = l at hl
  generalize high[v] = h at hh
  refine congrArg some (UInt32.toNat_inj.mp ?_)
  have hshift := Bits.toNat_shiftLeft (UInt32.ofNat h) (show 16 < 32 by decide)
  have hh' : (UInt32.ofNat h).toNat = h := UInt32.toNat_ofNat_of_lt' (by show h < 2 ^ 32; omega)
  have hl' : (UInt32.ofNat l).toNat = l := UInt32.toNat_ofNat_of_lt' (by show l < 2 ^ 32; omega)
  have hall : (UInt32.ofNat (h * 2 ^ 16 + l)).toNat = h * 2 ^ 16 + l :=
    UInt32.toNat_ofNat_of_lt' (by show _ < 2 ^ 32; omega)
  rw [hh', Nat.mod_eq_of_lt (by omega)] at hshift
  rw [UInt32.toNat_or, hl', hall]
  refine (congrArg (· ||| l) hshift).trans ?_
  exact Bits.mul_or_eq_add (by omega) h

/-- The sums of two tables do not meet in one word. -/
theorem fastSum_eq {low high : List ℕ} {words : List UInt32}
    (hpack : words = (List.range alphaSize).map fun v =>
      UInt32.ofNat (high[v]?.getD 0 * 2 ^ 16 + low[v]?.getD 0))
    (hle : ∀ n ∈ low, n ≤ 17) (hle' : ∀ n ∈ high, n ≤ 17) (hsize : group.length ≤ 50)
    (hgroup : ∀ v ∈ group, v < alphaSize) :
    fastSum words group =
      some [UInt16.ofNat (costOf low group), UInt16.ofNat (costOf high group)] := by
  have hrun : ∀ (group : List ℕ) (h l : ℕ), (∀ v ∈ group, v < alphaSize) →
      group.foldlM (fun cost icv => do return cost + (← words[icv]?))
        (UInt32.ofNat (h * 2 ^ 16 + l)) =
          some (UInt32.ofNat ((h + costOf high group) * 2 ^ 16 + (l + costOf low group))) := by
    intro group
    induction group with
    | nil => exact fun _ _ _ => rfl
    | cons v group ih =>
        intro h l hgroup
        have hget : words[v]? =
            some (UInt32.ofNat (high[v]?.getD 0 * 2 ^ 16 + low[v]?.getD 0)) := by
          rw [hpack, List.getElem?_map, List.getElem?_range (hgroup v List.mem_cons_self),
            Option.map_some]
        have hnext := ih (h + high[v]?.getD 0) (l + low[v]?.getD 0)
          fun u hu => hgroup u (List.mem_cons_of_mem _ hu)
        rw [List.foldlM_cons, hget]
        have hsum : UInt32.ofNat (h * 2 ^ 16 + l) +
            UInt32.ofNat (high[v]?.getD 0 * 2 ^ 16 + low[v]?.getD 0) =
              UInt32.ofNat ((h + high[v]?.getD 0) * 2 ^ 16 + (l + low[v]?.getD 0)) := by
          have harg : h * 2 ^ 16 + l + (high[v]?.getD 0 * 2 ^ 16 + low[v]?.getD 0) =
              (h + high[v]?.getD 0) * 2 ^ 16 + (l + low[v]?.getD 0) := by omega
          rw [← UInt32.ofNat_add, harg]
        simp only [Option.bind_eq_bind, Option.bind_some, Option.pure_def] at hnext ⊢
        rw [hsum, hnext, costOf_cons, costOf_cons, Nat.add_assoc, Nat.add_assoc]
  have hlow := costOf_le hle group
  have hhigh := costOf_le hle' group
  have hall := hrun group 0 0 hgroup
  rw [Nat.zero_add, Nat.zero_add] at hall
  generalize costOf low group = l at hlow hall ⊢
  generalize costOf high group = h at hhigh hall ⊢
  have hword : (UInt32.ofNat (h * 2 ^ 16 + l)).toNat = h * 2 ^ 16 + l :=
    UInt32.toNat_ofNat_of_lt' (by show _ < 2 ^ 32; omega)
  have hfirst : (UInt32.ofNat (h * 2 ^ 16 + l) &&& 0xffff).toUInt16 = UInt16.ofNat l := by
    refine UInt16.toNat_inj.mp ?_
    have hmask : (UInt32.ofNat (h * 2 ^ 16 + l) &&& 0xffff).toNat = (h * 2 ^ 16 + l) % 2 ^ 16 := by
      rw [UInt32.toNat_and, hword]
      exact Nat.and_two_pow_sub_one_eq_mod _ 16
    rw [UInt32.toNat_toUInt16, hmask, UInt16.toNat_ofNat']
    omega
  have hsecond : (UInt32.ofNat (h * 2 ^ 16 + l) >>> 16).toUInt16 = UInt16.ofNat h := by
    refine UInt16.toNat_inj.mp ?_
    have hshift := Bits.toNat_shiftRight (UInt32.ofNat (h * 2 ^ 16 + l)) (show 16 < 32 by decide)
    rw [hword] at hshift
    rw [UInt32.toNat_toUInt16, UInt16.toNat_ofNat']
    refine (congrArg (· % 2 ^ 16) hshift).trans ?_
    omega
  have hstart : (0 : UInt32) = UInt32.ofNat (0 * 2 ^ 16 + 0) := rfl
  rw [fastSum, hstart, hall]
  show some [_, _] = _
  rw [hfirst, hsecond]

theorem lenPack_eq {low high : List ℕ} (hlow : lens[t]? = some low)
    (hhigh : lens[t + 1]? = some high) (hle : ∀ n ∈ low, n ≤ 17) (hle' : ∀ n ∈ high, n ≤ 17)
    (hlength : low.length = alphaSize) (hlength' : high.length = alphaSize) :
    lenPack lens alphaSize t = some ((List.range alphaSize).map fun v =>
      UInt32.ofNat (high[v]?.getD 0 * 2 ^ 16 + low[v]?.getD 0)) := by
  refine mapM_eq fun v hv => ?_
  have hlt := List.mem_range.mp hv
  have hl : v < low.length := by rw [hlength]; exact hlt
  have hh : v < high.length := by rw [hlength']; exact hlt
  rw [List.getElem?_eq_getElem hl, List.getElem?_eq_getElem hh]
  exact pack2_eq hlow hhigh hle hle' hl hh

theorem fastCosts_eq (hrows : Rows 6 alphaSize lens) (hsize : group.length ≤ 50)
    (hgroup : ∀ v ∈ group, v < alphaSize) :
    fastCosts lens alphaSize group = some (lens.map fun len => UInt16.ofNat (costOf len group)) := by
  match lens, hrows with
  | [len0, len1, len2, len3, len4, len5], hrows =>
      have hlength := hrows.length_len
      have hle := hrows.le
      simp only [List.forall_mem_cons] at hlength hle
      obtain ⟨h0, h1, h2, h3, h4, h5, -⟩ := hlength
      obtain ⟨hle0, hle1, hle2, hle3, hle4, hle5, -⟩ := hle
      rw [fastCosts, lenPack_eq rfl rfl hle0 hle1 h0 h1, lenPack_eq rfl rfl hle2 hle3 h2 h3,
        lenPack_eq rfl rfl hle4 hle5 h4 h5]
      simp only [Option.bind_eq_bind, Option.bind_some]
      rw [fastSum_eq rfl hle0 hle1 hsize hgroup, fastSum_eq rfl hle2 hle3 hsize hgroup,
        fastSum_eq rfl hle4 hle5 hsize hgroup]
      rfl

/-- Both ways lead to the same costs. -/
theorem groupCosts_eq (hrows : Rows nGroups alphaSize lens) (hgroup : ∀ v ∈ group, v < alphaSize) :
    groupCosts lens alphaSize group = some (lens.map fun len => UInt16.ofNat (costOf len group)) := by
  rw [groupCosts]
  split
  · rename_i hfast
    have hsix : nGroups = 6 := hrows.length_eq.symm.trans hfast.1
    subst hsix
    exact fastCosts_eq hrows (Nat.le_of_eq hfast.2) hgroup
  · exact slowCosts_eq hrows.length_len hgroup

/-- What the loop has found so far stays, or something cheaper comes after it. -/
theorem foldl_cheaper (cost : List UInt16) (k bc bt : ℕ) :
    ∃ bc' bt', (cost.zipIdx k).foldl cheaper (bc, some bt) = (bc', some bt') ∧ bc' ≤ bc ∧
      (∀ c ∈ cost, bc' ≤ c.toNat) ∧ (bc' = bc ∧ bt' = bt ∨
        ∃ i c, bt' = k + i ∧ cost[i]? = some c ∧ c.toNat = bc') := by
  induction cost generalizing k bc bt with
  | nil => exact ⟨bc, bt, rfl, Nat.le_refl _, List.forall_mem_nil _, .inl ⟨rfl, rfl⟩⟩
  | cons c cost ih =>
      rw [List.zipIdx_cons, List.foldl_cons, cheaper]
      split
      · rename_i hlt
        obtain ⟨bc', bt', heq, hle, hall, hsome⟩ := ih (k + 1) c.toNat k
        refine ⟨bc', bt', heq, by omega, List.forall_mem_cons.mpr ⟨hle, hall⟩, .inr ?_⟩
        rcases hsome with ⟨rfl, rfl⟩ | ⟨i, d, rfl, hi, hd⟩
        · exact ⟨0, c, rfl, rfl, rfl⟩
        · exact ⟨i + 1, d, by omega, hi, hd⟩
      · rename_i hge
        obtain ⟨bc', bt', heq, hle, hall, hsome⟩ := ih (k + 1) bc bt
        refine ⟨bc', bt', heq, hle, List.forall_mem_cons.mpr ⟨by omega, hall⟩, ?_⟩
        rcases hsome with hsame | ⟨i, d, rfl, hi, hd⟩
        · exact .inl hsame
        · exact .inr ⟨i + 1, d, by omega, hi, hd⟩

theorem returns_bestTable {cost : List UInt16} (hne : cost ≠ []) :
    Returns (bestTable cost) fun t => ∃ c, cost[t]? = some c ∧ ∀ c' ∈ cost, c.toNat ≤ c'.toNat := by
  cases cost with
  | nil => exact absurd rfl hne
  | cons c cost =>
      obtain ⟨bc, bt, heq, hle, hall, hsome⟩ := foldl_cheaper cost 1 c.toNat 0
      have hlt : c.toNat < 999999999 := Nat.lt_trans c.toNat_lt (by decide)
      have hbest : bestTable (c :: cost) = some bt := by
        rw [bestTable, List.zipIdx_cons, List.foldl_cons, cheaper, if_pos hlt, heq]
      rcases hsome with ⟨rfl, rfl⟩ | ⟨i, d, rfl, hi, rfl⟩
      · exact Returns.of_eq hbest ⟨c, rfl, List.forall_mem_cons.mpr ⟨Nat.le_refl _, hall⟩⟩
      · refine Returns.of_eq hbest ⟨d, ?_, List.forall_mem_cons.mpr ⟨hle, hall⟩⟩
        rw [Nat.add_comm, List.getElem?_cons_succ, hi]

/-- The table that is found for a group needs the fewest bits for it. -/
theorem exists_bestTable (hrows : Rows nGroups alphaSize lens) (hgroups : 0 < nGroups)
    (hsize : group.length ≤ 50) (hgroup : ∀ v ∈ group, v < alphaSize) :
    ∃ cost t len, groupCosts lens alphaSize group = some cost ∧ bestTable cost = some t ∧
      lens[t]? = some len ∧ ∀ len' ∈ lens, costOf len group ≤ costOf len' group := by
  have hcosts := groupCosts_eq hrows hgroup
  have hcost : ∀ len ∈ lens, (UInt16.ofNat (costOf len group)).toNat = costOf len group := by
    intro len hlen
    have hle := costOf_le (hrows.le len hlen) group
    rw [UInt16.toNat_ofNat', Nat.mod_eq_of_lt (by omega)]
  have hne : lens.map (fun len => UInt16.ofNat (costOf len group)) ≠ [] := by
    rw [ne_eq, List.map_eq_nil_iff, ← List.length_eq_zero_iff, hrows.length_eq]
    omega
  obtain ⟨t, ht, c, hc, hmin⟩ := returns_bestTable hne
  rw [List.getElem?_map, Option.map_eq_some_iff] at hc
  obtain ⟨len, hlen, rfl⟩ := hc
  refine ⟨_, t, len, hcosts, ht, hlen, fun len' hlen' => ?_⟩
  have hle := hmin _ (List.mem_map_of_mem hlen')
  rw [hcost len (List.mem_of_getElem? hlen), hcost len' hlen'] at hle
  exact hle

/-- Every selector stands for a table that needs the fewest bits for its group. -/
def Cheapest (lens : List (List ℕ)) (mtfv selector : List ℕ) : Prop :=
  ∀ i t, selector[i]? = some t → ∃ len, lens[t]? = some len ∧
    ∀ len' ∈ lens, costOf len ((mtfv.drop (50 * i)).take 50) ≤
      costOf len' ((mtfv.drop (50 * i)).take 50)

theorem Cheapest.cons {len mtfv selector : List ℕ} (ht : lens[t]? = some len)
    (hfirst : ∀ len' ∈ lens, costOf len (mtfv.take 50) ≤ costOf len' (mtfv.take 50))
    (hrest : Cheapest lens (mtfv.drop 50) selector) : Cheapest lens mtfv (t :: selector) := by
  intro i t' ht'
  cases i with
  | zero =>
      rw [List.getElem?_cons_zero, Option.some.injEq] at ht'
      subst ht'
      exact ⟨len, ht, hfirst⟩
  | succ i =>
      rw [List.getElem?_cons_succ] at ht'
      have hgroup := hrest i t' ht'
      rw [List.drop_drop, Nat.add_comm, ← Nat.mul_succ] at hgroup
      exact hgroup

end Costs

/-! ## A turn of the loop -/

/-- The numbers of values that the tables got, of so many values. -/
structure Frequencies (nGroups alphaSize total : ℕ) (rfreq : List (List ℕ)) : Prop where
  length_eq : rfreq.length = nGroups
  length_freq : ∀ freq ∈ rfreq, freq.length = alphaSize
  sum_le : ∀ freq ∈ rfreq, freq.sum ≤ total

section Improve

variable {lens rfreq : List (List ℕ)} {alphaSize nGroups total : ℕ} {group selector mtfv : List ℕ}

theorem sum_set_succ {cells : List ℕ} {i n : ℕ} (hi : cells[i]? = some n) :
    (cells.set i (n + 1)).sum = cells.sum + 1 := by
  induction cells generalizing i with
  | nil => cases hi
  | cons cell cells ih =>
      cases i with
      | zero =>
          cases hi
          rw [List.set_cons_zero, List.sum_cons, List.sum_cons, Nat.add_right_comm]
      | succ i => rw [List.set_cons_succ, List.sum_cons, List.sum_cons, ih hi, Nat.add_assoc]

theorem returns_countGroup {freq : List ℕ} (hfreq : freq.length = alphaSize)
    (hgroup : ∀ v ∈ group, v < alphaSize) :
    Returns (countGroup freq group) fun freq' => freq'.length = alphaSize ∧
      freq'.sum = freq.sum + group.length := by
  induction group generalizing freq with
  | nil => exact Returns.of_eq rfl ⟨hfreq, rfl⟩
  | cons v group ih =>
      have hlt : v < freq.length := by rw [hfreq]; exact hgroup v List.mem_cons_self
      have hget : freq[v]? = some freq[v] := List.getElem?_eq_getElem hlt
      rw [countGroup, List.foldlM_cons]
      refine Returns.bind (Returns.bind (Returns.of_eq hget rfl) fun n hn => ?_)
        (P := fun freq' => freq' = freq.set v (freq[v] + 1)) fun freq' hfreq' => ?_
      · rw [hn]
        exact Returns.of_eq (write_eq hlt _) rfl
      · rw [hfreq']
        refine (ih (by rw [List.length_set, hfreq]) fun u hu =>
          hgroup u (List.mem_cons_of_mem _ hu)).mono ?_
        rintro freq'' ⟨hlength, hsum⟩
        refine ⟨hlength, ?_⟩
        rw [hsum, sum_set_succ hget, List.length_cons]
        omega

theorem Frequencies.set (h : Frequencies nGroups alphaSize total rfreq) {t : ℕ}
    {freq freq' : List ℕ} (ht : rfreq[t]? = some freq) (hlength : freq'.length = alphaSize) {n : ℕ}
    (hsum : freq'.sum = freq.sum + n) :
    Frequencies nGroups alphaSize (total + n) (rfreq.set t freq') := by
  refine ⟨by rw [List.length_set, h.length_eq], fun f hf => ?_, fun f hf => ?_⟩
  · rcases List.mem_or_eq_of_mem_set hf with hold | rfl
    · exact h.length_freq f hold
    · exact hlength
  · rcases List.mem_or_eq_of_mem_set hf with hold | rfl
    · exact Nat.le_add_right_of_le (h.sum_le f hold)
    · rw [hsum]
      exact Nat.add_le_add_right (h.sum_le _ (List.mem_of_getElem? ht)) n

theorem returns_selectTables (hrows : Rows nGroups alphaSize lens) (hgroups : 0 < nGroups)
    (hcounts : Frequencies nGroups alphaSize total rfreq) (hselector : ∀ t ∈ selector, t < nGroups)
    (hmtfv : ∀ v ∈ mtfv, v < alphaSize)
    (hcount : selector.length + (mtfv.length + 49) / 50 ≤ maxSelectors) :
    Returns (selectTables lens alphaSize mtfv selector rfreq) fun (selector', rfreq') =>
      (∃ chosen, selector' = selector ++ chosen ∧ chosen.length = (mtfv.length + 49) / 50 ∧
        Cheapest lens mtfv chosen) ∧
        (∀ t ∈ selector', t < nGroups) ∧
        Frequencies nGroups alphaSize (total + mtfv.length) rfreq' := by
  induction hsize : mtfv.length using Nat.strongRecOn
    generalizing mtfv selector rfreq total with
  | ind size ih =>
      by_cases hnil : mtfv = []
      · subst hnil
        subst hsize
        rw [selectTables, if_pos rfl]
        refine Returns.of_eq rfl ⟨⟨[], (List.append_nil _).symm, rfl, ?_⟩, hselector, hcounts⟩
        intro i t ht
        cases ht
      · have hpos := List.length_pos_iff.mpr hnil
        have htake : (mtfv.take 50).length = min 50 mtfv.length := List.length_take
        have hgroup : ∀ v ∈ mtfv.take 50, v < alphaSize := fun v hv =>
          hmtfv v (List.mem_of_mem_take hv)
        obtain ⟨cost, bt, len, hcost, hbest, hlen, hcheapest⟩ :=
          exists_bestTable hrows hgroups (by omega) hgroup
        have hbt : bt < nGroups := by
          have hlt := (List.getElem?_eq_some_iff.mp hlen).1
          rw [hrows.length_eq] at hlt
          exact hlt
        rw [selectTables, if_neg hnil]
        dsimp only
        refine Returns.bind (Returns.of_eq hcost rfl) ?_
        rintro _ rfl
        refine Returns.bind (Returns.of_eq hbest rfl) ?_
        rintro _ rfl
        refine Returns.bind (Returns.of_eq (push_eq (by omega) bt) rfl) ?_
        rintro _ rfl
        have hbound : bt < rfreq.length := by rw [hcounts.length_eq]; exact hbt
        obtain ⟨freq, hrow⟩ : ∃ freq, rfreq[bt]? = some freq :=
          ⟨_, List.getElem?_eq_getElem hbound⟩
        refine Returns.bind (Returns.of_eq hrow rfl) ?_
        rintro _ rfl
        have hfreq := hcounts.length_freq freq (List.mem_of_getElem? hrow)
        refine Returns.bind (returns_countGroup hfreq hgroup) ?_
        rintro freq' ⟨hlength, hsum⟩
        refine Returns.bind (Returns.of_eq (write_eq hbound freq') rfl) ?_
        rintro _ rfl
        have hdrop : (mtfv.drop 50).length = mtfv.length - 50 := List.length_drop
        have hnew : ∀ t ∈ selector ++ [bt], t < nGroups := by
          intro t ht
          rcases List.mem_append.mp ht with hold | hlast
          · exact hselector t hold
          · rw [List.mem_singleton.mp hlast]
            exact hbt
        have hconcat : (selector ++ [bt]).length = selector.length + 1 := List.length_append
        refine (ih (mtfv.length - 50) (by omega) (hcounts.set hrow hlength hsum) hnew
          (fun v hv => hmtfv v (List.mem_of_mem_drop hv)) (by omega) hdrop).mono ?_
        rintro ⟨selector', rfreq'⟩ ⟨⟨chosen, hselected, hcount', hbestRest⟩, hlt, hcounts'⟩
        dsimp only at hselected ⊢
        refine ⟨⟨bt :: chosen, ?_, ?_, Cheapest.cons hlen hcheapest hbestRest⟩, hlt, ?_⟩
        · rw [hselected, List.append_assoc, List.singleton_append]
        · rw [List.length_cons]
          omega
        rw [htake, Nat.add_assoc, show min 50 mtfv.length + (mtfv.length - 50) = size by omega]
          at hcounts'
        exact hcounts'

theorem returns_improveTables (hrows : Rows nGroups alphaSize lens)
    (hgroups : 2 ≤ nGroups ∧ nGroups ≤ 6) (htwo : 2 ≤ alphaSize) (halpha : alphaSize ≤ maxAlphaSize)
    (hmtfv : ∀ v ∈ mtfv, v < alphaSize) (hsize : mtfv.length ≤ 900050) :
    Returns (improveTables alphaSize mtfv lens) fun (lens', selector) =>
      Rows nGroups alphaSize lens' ∧ Chosen alphaSize lens' selector mtfv ∧
        Cheapest lens mtfv selector := by
  have hcounts : Frequencies nGroups alphaSize 0
      (List.replicate lens.length (List.replicate alphaSize 0)) := by
    refine ⟨by rw [List.length_replicate, hrows.length_eq], fun f hf => ?_, fun f hf => ?_⟩
    · rw [List.eq_of_mem_replicate hf, List.length_replicate]
    · rw [List.eq_of_mem_replicate hf, List.sum_replicate]
      exact Nat.le_refl _
  have hcount : ([] : List ℕ).length + (mtfv.length + 49) / 50 ≤ maxSelectors := by
    rw [List.length_nil, maxSelectors]
    omega
  refine Returns.bind (returns_selectTables hrows (by omega) hcounts
    (List.forall_mem_nil _) hmtfv hcount) ?_
  rintro ⟨selector, rfreq⟩ ⟨⟨chosen, hselected, hlength, hcheapest⟩, hselector, hfreq⟩
  rw [List.nil_append] at hselected
  subst hselected
  have hmake : ∀ freq ∈ rfreq, Returns (hbMakeCodeLengths freq alphaSize 17)
      (CompleteCode alphaSize 17) := by
    intro freq hmem
    have hsum := hfreq.sum_le freq hmem
    rw [maxAlphaSize] at halpha
    exact returns_hbMakeCodeLengths htwo halpha (by decide) (hfreq.length_freq freq hmem)
      (by omega)
  refine Returns.bind (Returns.mapM hmake) fun lens' hlens' => ?_
  have hsame : lens'.length = nGroups := hlens'.length_eq.symm.trans hfreq.length_eq
  have hcode : ∀ len ∈ lens', CompleteCode alphaSize 17 len := by
    intro len hmem
    obtain ⟨k, hk, rfl⟩ := List.mem_iff_getElem.mp hmem
    exact hlens'.get (by rw [hlens'.length_eq]; exact hk) hk
  refine Returns.pure ⟨⟨hsame, fun len hmem => (hcode len hmem).length_eq, fun len hmem n hn =>
    ((hcode len hmem).range n hn).2⟩, ?_, hcheapest⟩
  refine ⟨by rw [hsame]; exact hgroups, fun len hmem => (hcode len hmem).length_eq,
    fun len hmem => (hcode len hmem).range, fun len hmem => Nat.le_of_eq (hcode len hmem).kraft,
    fun t ht => ?_, ?_⟩
  · rw [hsame]
    exact hselector t ht
  · exact hlength

theorem nGroupsOf_range (nMTF : ℕ) : 2 ≤ nGroupsOf nMTF ∧ nGroupsOf nMTF ≤ 6 := by
  unfold nGroupsOf
  split
  · decide
  split
  · decide
  split
  · decide
  split <;> decide

/-- The tables with which a turn of the loop begins. -/
def tablesBefore (mtfFreq : List ℕ) (alphaSize : ℕ) (mtfv : List ℕ) (turn : ℕ) :
    Option (List (List ℕ)) := do
  let nGroups := nGroupsOf mtfv.length
  let lens ← initialTables mtfFreq alphaSize nGroups nGroups 0 mtfv.length
    (List.replicate nGroups (List.replicate alphaSize 15))
  return (← loop 0 turn (fun _ s => improveTables alphaSize mtfv s.1) (lens, [])).1

theorem chooseTables_eq (mtfFreq : List ℕ) (alphaSize : ℕ) (hne : mtfv ≠ []) :
    chooseTables mtfFreq alphaSize mtfv =
      tablesBefore mtfFreq alphaSize mtfv 3 >>= improveTables alphaSize mtfv := by
  rw [chooseTables, guard, if_pos (List.length_pos_iff.mpr hne), tablesBefore]
  simp only [Option.bind_eq_bind, Option.pure_def, Option.bind_some, Option.bind_assoc]
  refine congrArg _ (funext fun lens => ?_)
  exact (loop_succ (Nat.zero_le 3) _ _).trans rfl

theorem returns_tablesBefore {mtfFreq : List ℕ} (hfreq : alphaSize ≤ mtfFreq.length)
    (htwo : 2 ≤ alphaSize) (halpha : alphaSize ≤ maxAlphaSize)
    (hmtfv : ∀ v ∈ mtfv, v < alphaSize) (hsize : mtfv.length ≤ 900050) (turn : ℕ) :
    Returns (tablesBefore mtfFreq alphaSize mtfv turn)
      (Rows (nGroupsOf mtfv.length) alphaSize) := by
  have hstart : Rows (nGroupsOf mtfv.length) alphaSize
      (List.replicate (nGroupsOf mtfv.length) (List.replicate alphaSize 15)) := by
    refine ⟨List.length_replicate, fun len hlen => ?_, fun len hlen n hn => ?_⟩
    · rw [List.eq_of_mem_replicate hlen, List.length_replicate]
    · rw [List.eq_of_mem_replicate hlen] at hn
      rw [List.eq_of_mem_replicate hn]
      exact (by decide : 15 ≤ 17)
  refine Returns.bind (returns_initialTables hfreq hstart (Nat.le_refl _) (Int.le_refl _)
    (Int.natCast_nonneg _)) fun lens hlens => ?_
  refine Returns.bind (Returns.loop (fun _ (s : List (List ℕ) × List ℕ) =>
    Rows (nGroupsOf mtfv.length) alphaSize s.1) (Nat.zero_le turn) hlens ?_) fun s hs =>
      Returns.pure hs
  intro i s _ _ hrows
  exact (returns_improveTables hrows (nGroupsOf_range mtfv.length) htwo halpha hmtfv hsize).mono
    fun _ h => h.1

/-- The tables and selectors that the encoder comes to are those of a code. -/
theorem returns_chooseTables {mtfFreq : List ℕ} (hfreq : alphaSize ≤ mtfFreq.length)
    (htwo : 2 ≤ alphaSize) (halpha : alphaSize ≤ maxAlphaSize) (hne : mtfv ≠ [])
    (hmtfv : ∀ v ∈ mtfv, v < alphaSize) (hsize : mtfv.length ≤ 900050) :
    Returns (chooseTables mtfFreq alphaSize mtfv) fun (lens, selector) =>
      Chosen alphaSize lens selector mtfv := by
  rw [chooseTables_eq _ _ hne]
  refine (returns_tablesBefore hfreq htwo halpha hmtfv hsize 3).bind fun before hbefore => ?_
  refine (returns_improveTables hbefore (nGroupsOf_range mtfv.length) htwo halpha hmtfv
    hsize).mono ?_
  rintro ⟨lens, selector⟩ ⟨-, hchosen, -⟩
  exact hchosen

/-- The table that is selected for a group is one that codes it in the fewest bits, of the tables
with which the last turn begins.  That turn then makes them anew. -/
theorem chooseTables_cheapest {mtfFreq : List ℕ} (hfreq : alphaSize ≤ mtfFreq.length)
    (htwo : 2 ≤ alphaSize) (halpha : alphaSize ≤ maxAlphaSize) (hne : mtfv ≠ [])
    (hmtfv : ∀ v ∈ mtfv, v < alphaSize) (hsize : mtfv.length ≤ 900050) :
    ∃ before lens selector, tablesBefore mtfFreq alphaSize mtfv 3 = some before ∧
      improveTables alphaSize mtfv before = some (lens, selector) ∧
      chooseTables mtfFreq alphaSize mtfv = some (lens, selector) ∧
      selector.length = (mtfv.length + 49) / 50 ∧ Cheapest before mtfv selector := by
  obtain ⟨before, hbefore, hrows⟩ := returns_tablesBefore hfreq htwo halpha hmtfv hsize 3
  obtain ⟨⟨lens, selector⟩, himprove, -, hchosen, hcheapest⟩ := returns_improveTables hrows
    (nGroupsOf_range mtfv.length) htwo halpha hmtfv hsize
  refine ⟨before, lens, selector, hbefore, himprove, ?_, hchosen.count, hcheapest⟩
  rw [chooseTables_eq _ _ hne, hbefore]
  exact himprove

/-- Two symbols, of which the second comes in the second group only. -/
theorem chooseTables_cheapest_two :
    ∃ before lens selector,
      tablesBefore [50, 20] 2 (List.replicate 50 0 ++ List.replicate 20 1) 3 = some before ∧
      improveTables 2 (List.replicate 50 0 ++ List.replicate 20 1) before =
        some (lens, selector) ∧
      chooseTables [50, 20] 2 (List.replicate 50 0 ++ List.replicate 20 1) =
        some (lens, selector) ∧
      selector.length = ((List.replicate 50 0 ++ List.replicate 20 1).length + 49) / 50 ∧
      Cheapest before (List.replicate 50 0 ++ List.replicate 20 1) selector :=
  chooseTables_cheapest (by decide) (by decide) (by decide) (by decide) (by decide) (by decide)

end Improve

/-! ## The costs that are compared -/

section Groups

variable {lens : List (List ℕ)} {alphaSize nGroups : ℕ} {group : List ℕ}

/-- The sums of two costs at a time are those of one at a time: no half of a word runs over into
the other. -/
theorem fastCosts_eq_slowCosts (hrows : Rows 6 alphaSize lens) (hsize : group.length ≤ 50)
    (hgroup : ∀ v ∈ group, v < alphaSize) :
    fastCosts lens alphaSize group = slowCosts lens group := by
  rw [fastCosts_eq hrows hsize hgroup, slowCosts_eq hrows.length_len hgroup]

theorem fastCosts_eq_slowCosts_fifty :
    fastCosts (List.replicate 6 [17, 1]) 2 (List.replicate 50 0) =
      slowCosts (List.replicate 6 [17, 1]) (List.replicate 50 0) :=
  fastCosts_eq_slowCosts ⟨rfl, by decide, by decide⟩ (by decide) (by decide)

end Groups

end StudyNotes.Bzip2
