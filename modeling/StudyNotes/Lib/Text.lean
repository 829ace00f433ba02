/-
# Text as a list of characters

Searching and cutting as `java.lang.String` does it, over lists of characters.
A search that finds nothing returns `none` where the library method returns -1,
and a cut outside the text returns `none` where the method throws.  The only
characters ever looked for are separators, so nothing depends on whether the
units are code points or UTF-16 code units.
-/

import Mathlib.Data.List.Infix

namespace StudyNotes.Text

/-- A text. -/
abbrev Str := List Char

/-- `s.startsWith(pre)`. -/
def startsWith (s pre : Str) : Bool := pre.isPrefixOf s

/-- `s.endsWith(suf)`. -/
def endsWith (s suf : Str) : Bool := suf.isSuffixOf s

/-- `s.contains(part)`. -/
def contains (s part : Str) : Bool := decide (part <:+: s)

/-- `s.indexOf(c, start)`. -/
def indexOf (s : Str) (c : Char) (start : ℕ) : Option ℕ :=
  ((s.drop start).idxOf? c).map (· + start)

/-- `s.indexOf(part)`. -/
def indexOfText : Str → Str → Option ℕ
  | [], part => if part = [] then some 0 else none
  | c :: s, part =>
    if part.isPrefixOf (c :: s) then some 0 else (indexOfText s part).map (· + 1)

/-- `s.lastIndexOf(c)`. -/
def lastIndexOf (s : Str) (c : Char) : Option ℕ :=
  (s.reverse.idxOf? c).map (s.length - 1 - ·)

/-- `s.substring(beginIndex, endIndex)`. -/
def substring (s : Str) (beginIndex endIndex : ℕ) : Option Str :=
  if beginIndex ≤ endIndex ∧ endIndex ≤ s.length then
    some ((s.drop beginIndex).take (endIndex - beginIndex))
  else none

/-! ## The leading segment of a separated text -/

/-- `s` is a separator, a segment `g` free of separators, another separator, and
anything after it. -/
def LeadingSegment (c : Char) (s g : Str) : Prop :=
  ∃ rest, s = c :: (g ++ c :: rest) ∧ c ∉ g

theorem idxOf?_append_cons {c : Char} {g : Str} (hg : c ∉ g) (rest : Str) :
    (g ++ c :: rest).idxOf? c = some g.length := by
  induction g with
  | nil => simp [List.idxOf?_cons]
  | cons d g ih =>
      simp only [List.mem_cons, not_or] at hg
      simp [List.idxOf?_cons, Ne.symm hg.1, ih hg.2]

/-- Cutting between the first two separators returns the leading segment. -/
theorem LeadingSegment.cut {c : Char} {s g : Str} (h : LeadingSegment c s g) :
    (indexOf s c 1).bind (substring s 1) = some g := by
  obtain ⟨rest, rfl, hg⟩ := h
  simp [indexOf, substring, idxOf?_append_cons hg]

theorem LeadingSegment.unique {c : Char} {s g g' : Str} (h : LeadingSegment c s g)
    (h' : LeadingSegment c s g') : g = g' :=
  Option.some.inj (h.cut.symm.trans h'.cut)

theorem lastIndexOf_cons_eq_zero_iff {c : Char} {s : Str} :
    lastIndexOf (c :: s) c = some 0 ↔ c ∉ s := by
  constructor
  · intro h hmem
    obtain ⟨as, bs, hrev, has⟩ := List.eq_append_cons_of_mem (List.mem_reverse.mpr hmem)
    have hlen : s.length = as.length + (bs.length + 1) := by
      simpa using congrArg List.length hrev
    rw [lastIndexOf, List.reverse_cons, hrev, List.append_assoc, List.cons_append,
      idxOf?_append_cons has] at h
    simp at h
    omega
  · intro hs
    rw [lastIndexOf, List.reverse_cons, idxOf?_append_cons (by simpa using hs)]
    simp

/-- The guard of both path checkers: the text starts with the separator and its
last separator is not that first one. -/
theorem exists_leadingSegment_iff {c : Char} {s : Str} :
    (∃ g, LeadingSegment c s g) ↔
      startsWith s [c] = true ∧ lastIndexOf s c ≠ some 0 := by
  constructor
  · rintro ⟨g, rest, rfl, -⟩
    simp [startsWith, lastIndexOf_cons_eq_zero_iff]
  · rintro ⟨hstart, hlast⟩
    obtain ⟨t, rfl⟩ : ∃ t, s = c :: t := by
      rw [startsWith, List.isPrefixOf_iff_prefix] at hstart
      obtain ⟨t, rfl⟩ := hstart
      exact ⟨t, rfl⟩
    rw [Ne, lastIndexOf_cons_eq_zero_iff, not_not] at hlast
    obtain ⟨g, rest, rfl, hg⟩ := List.eq_append_cons_of_mem hlast
    exact ⟨g, rest, rfl, hg⟩

/-! ## Searching around a separator -/

theorem eq_nil_of_prefix_cons {part s : Str} {c : Char} (h : part <+: c :: s) (hc : c ∉ part) :
    part = [] := by
  cases part with
  | nil => rfl
  | cons d part =>
      obtain ⟨rest, hrest⟩ := h
      obtain ⟨rfl, -⟩ := List.cons.inj hrest
      exact absurd List.mem_cons_self hc

/-- A text without the separator occurs on one side of it. -/
theorem infix_append_cons_iff {part s t : Str} {c : Char} (hc : c ∉ part) :
    part <:+: s ++ c :: t ↔ part <:+: s ∨ part <:+: t := by
  rw [List.infix_append_iff, List.infix_cons_iff]
  constructor
  · rintro (h | (h | h) | ⟨l₁, l₂, rfl, hl₁, hl₂⟩)
    · exact Or.inl h
    · rw [eq_nil_of_prefix_cons h hc]
      exact Or.inl List.nil_infix
    · exact Or.inr h
    · have hnil : l₂ = [] :=
        eq_nil_of_prefix_cons hl₂ fun hmem => hc (List.mem_append_right _ hmem)
      rw [hnil, List.append_nil]
      exact Or.inl hl₁.isInfix
  · rintro (h | h)
    · exact Or.inl h
    · exact Or.inr (Or.inl (Or.inr h))

theorem contains_append_cons {part : Str} {c : Char} (hc : c ∉ part) (s t : Str) :
    contains (s ++ c :: t) part = (contains s part || contains t part) := by
  rw [contains, contains, contains, ← Bool.decide_or]
  exact decide_eq_decide.mpr (infix_append_cons_iff hc)

/-- Texts that differ early differ. -/
theorem append_ne_append {s s' : Str} (n : ℕ) (hs : n ≤ s.length) (hs' : n ≤ s'.length)
    (h : s.take n ≠ s'.take n) (t t' : Str) : s ++ t ≠ s' ++ t' := by
  intro heq
  have htake := congrArg (List.take n) heq
  rw [List.take_append_of_le_length hs, List.take_append_of_le_length hs'] at htake
  exact h htake

end StudyNotes.Text
