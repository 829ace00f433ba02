/-
# JSON texts

The grammar of JSON over the code units of a string, and a scanner that tells which units
of a text stand inside its string literals.  A derivation leaves the scanner outside of
all literals, so a text can be cut between the parts of its derivation.  White space
around values, members and separators may grow; what is left of a text without it is
computed by the scanner alone.
-/

import StudyNotes.Lib.CodeUnits

namespace StudyNotes.JsonText

open StudyNotes.CodeUnits

/-! ## The grammar -/

def IsWhite (c : UInt16) : Prop := c ∈ [unit ' ', unit '\t', unit '\n', unit '\r']

instance : DecidablePred IsWhite := fun c => inferInstanceAs (Decidable (c ∈ _))

/-- White space, which may be empty. -/
def White (w : Units) : Prop := ∀ c ∈ w, IsWhite c

instance : DecidablePred White := fun w => List.decidableBAll IsWhite w

theorem White.append {v w : Units} (hv : White v) (hw : White w) : White (v ++ w) := by
  intro c hc
  rcases List.mem_append.mp hc with hv' | hw'
  · exact hv c hv'
  · exact hw c hw'

/-- The units that may stand after a backslash, `u` apart. -/
def escapes : Units := ['"', '\\', '/', 'b', 'f', 'n', 'r', 't'].map unit

/-- What may stand between the quotation marks of a literal. -/
inductive Chars : Units → Prop
  | nil : Chars []
  | plain {c : UInt16} {s : Units} (hcontrol : 0x20 ≤ c) (hquote : c ≠ unit '"')
      (hbackslash : c ≠ unit '\\') (hs : Chars s) : Chars (c :: s)
  | escape {c : UInt16} {s : Units} (hc : c ∈ escapes) (hs : Chars s) :
      Chars (unit '\\' :: c :: s)
  | digits {a b c d : UInt16} {s : Units} (ha : IsHex a) (hb : IsHex b) (hc : IsHex c)
      (hd : IsHex d) (hs : Chars s) : Chars (unit '\\' :: unit 'u' :: a :: b :: c :: d :: s)

/-- A string literal. -/
inductive Literal : Units → Prop
  | mk {s : Units} (hs : Chars s) : Literal (unit '"' :: (s ++ [unit '"']))

/-- Decimal digits. -/
def Digits (s : Units) : Prop := ∀ c ∈ s, c ∈ "0123456789".toList.map unit

instance : DecidablePred Digits := fun s => List.decidableBAll _ s

/-- The part of a number before the point: without leading zeros. -/
inductive IntPart : Units → Prop
  | zero : IntPart [unit '0']
  | digits {c : UInt16} {s : Units} (hs : Digits (c :: s)) (hzero : c ≠ unit '0') :
      IntPart (c :: s)

inductive FracPart : Units → Prop
  | none : FracPart []
  | digits {s : Units} (hs : Digits s) (hne : s ≠ []) : FracPart (unit '.' :: s)

inductive ExpPart : Units → Prop
  | none : ExpPart []
  | digits {e : UInt16} {sign s : Units} (he : e ∈ [unit 'e', unit 'E'])
      (hsign : sign ∈ [[], [unit '+'], [unit '-']]) (hs : Digits s) (hne : s ≠ []) :
      ExpPart (e :: (sign ++ s))

/-- The values without parts that are not strings. -/
inductive Atom : Units → Prop
  | word {s : Units} (hs : s ∈ ["true", "false", "null"].map fun w => w.toList.map unit) : Atom s
  | number {minus int frac exp : Units} (hminus : minus ∈ [[], [unit '-']]) (hint : IntPart int)
      (hfrac : FracPart frac) (hexp : ExpPart exp) : Atom (minus ++ int ++ frac ++ exp)

/-- The parts of a text. -/
inductive Part
  | value
  | element
  | elements
  | member
  | members
deriving DecidableEq, Repr

inductive Derives : Part → Units → Prop
  | atom {s : Units} (hs : Atom s) : Derives .value s
  | literal {s : Units} (hs : Literal s) : Derives .value s
  | emptyArray {w : Units} (hw : White w) : Derives .value (unit '[' :: (w ++ [unit ']']))
  | array {s : Units} (hs : Derives .elements s) : Derives .value (unit '[' :: (s ++ [unit ']']))
  | emptyObject {w : Units} (hw : White w) :
      Derives .value (unit '\x7b' :: (w ++ [unit '\x7d']))
  | object {s : Units} (hs : Derives .members s) :
      Derives .value (unit '\x7b' :: (s ++ [unit '\x7d']))
  | element {v s w : Units} (hv : White v) (hs : Derives .value s) (hw : White w) :
      Derives .element (v ++ s ++ w)
  | oneElement {s : Units} (hs : Derives .element s) : Derives .elements s
  | moreElements {s t : Units} (hs : Derives .element s) (ht : Derives .elements t) :
      Derives .elements (s ++ unit ',' :: t)
  | member {v k w s : Units} (hv : White v) (hk : Literal k) (hw : White w)
      (hs : Derives .element s) : Derives .member (v ++ k ++ w ++ unit ':' :: s)
  | oneMember {s : Units} (hs : Derives .member s) : Derives .members s
  | moreMembers {s t : Units} (hs : Derives .member s) (ht : Derives .members t) :
      Derives .members (s ++ unit ',' :: t)

/-- A JSON text: a value with white space around it. -/
def Valid (text : Units) : Prop := Derives .element text

/-! ## White space may grow -/

theorem Derives.white_append {p : Part} {s w : Units} (h : Derives p s) (hp : p ≠ .value)
    (hw : White w) : Derives p (w ++ s) := by
  induction h with
  | atom | literal | emptyArray | array | emptyObject | object => exact absurd rfl hp
  | element hv hs hw' =>
      rw [← List.append_assoc, ← List.append_assoc]
      exact .element (hw.append hv) hs hw'
  | oneElement hs ih => exact .oneElement (ih nofun)
  | moreElements hs ht ih =>
      rw [← List.append_assoc]
      exact .moreElements (ih nofun) ht
  | member hv hk hw' hs =>
      rw [← List.append_assoc, ← List.append_assoc, ← List.append_assoc]
      exact .member (hw.append hv) hk hw' hs
  | oneMember hs ih => exact .oneMember (ih nofun)
  | moreMembers hs ht ih =>
      rw [← List.append_assoc]
      exact .moreMembers (ih nofun) ht

theorem Derives.append_white {p : Part} {s w : Units} (h : Derives p s) (hp : p ≠ .value)
    (hw : White w) : Derives p (s ++ w) := by
  induction h with
  | atom | literal | emptyArray | array | emptyObject | object => exact absurd rfl hp
  | element hv hs hw' =>
      rw [List.append_assoc]
      exact .element hv hs (hw'.append hw)
  | oneElement hs ih => exact .oneElement (ih nofun)
  | moreElements hs ht _ ih =>
      rw [List.append_assoc]
      exact .moreElements hs (ih nofun)
  | member hv hk hw' hs ih =>
      rw [List.append_assoc]
      exact .member hv hk hw' (ih nofun)
  | oneMember hs ih => exact .oneMember (ih nofun)
  | moreMembers hs ht _ ih =>
      rw [List.append_assoc]
      exact .moreMembers hs (ih nofun)

/-! ## The scanner -/

/-- Where a unit stands: outside of all literals, inside one, or right after a backslash
inside one. -/
inductive Mode
  | outside
  | inside
  | escaped
deriving DecidableEq, Repr

def Mode.next : Mode → UInt16 → Mode
  | .outside, c => if c = unit '"' then .inside else .outside
  | .inside, c =>
    if c = unit '"' then .outside
    else if c = unit '\\' then .escaped
    else .inside
  | .escaped, _ => .inside

/-- The mode behind a text. -/
def modeAfter (m : Mode) (text : Units) : Mode := text.foldl Mode.next m

@[simp]
theorem modeAfter_nil (m : Mode) : modeAfter m [] = m := rfl

@[simp]
theorem modeAfter_cons (m : Mode) (c : UInt16) (s : Units) :
    modeAfter m (c :: s) = modeAfter (m.next c) s := rfl

@[simp]
theorem modeAfter_append (m : Mode) (s t : Units) :
    modeAfter m (s ++ t) = modeAfter (modeAfter m s) t := List.foldl_append

/-- A text without the white space outside of its literals. -/
def strip : Mode → Units → Units
  | _, [] => []
  | m, c :: s => if m = .outside ∧ IsWhite c then strip m s else c :: strip (m.next c) s

theorem IsWhite.next {c : UInt16} (h : IsWhite c) :
    Mode.next .outside c = .outside ∧ Mode.next .inside c = .inside := by
  have hall : ∀ c ∈ [unit ' ', unit '\t', unit '\n', unit '\r'],
      Mode.next .outside c = .outside ∧ Mode.next .inside c = .inside :=
    forall_mem_of_all (by decide)
  exact hall c h

theorem strip_cons_of_ne {m : Mode} {c : UInt16} (h : ¬ (m = .outside ∧ IsWhite c)) (s : Units) :
    strip m (c :: s) = c :: strip (m.next c) s := by
  rw [strip, if_neg h]

theorem strip_append (m : Mode) (s t : Units) :
    strip m (s ++ t) = strip m s ++ strip (modeAfter m s) t := by
  induction s generalizing m with
  | nil => rfl
  | cons c s ih =>
      by_cases hwhite : m = .outside ∧ IsWhite c
      · obtain ⟨rfl, hc⟩ := hwhite
        rw [List.cons_append, strip, if_pos ⟨rfl, hc⟩, strip, if_pos ⟨rfl, hc⟩, ih,
          modeAfter_cons, hc.next.1]
      · rw [List.cons_append, strip_cons_of_ne hwhite, strip_cons_of_ne hwhite, ih,
          modeAfter_cons, List.cons_append]

theorem White.strip_outside {w : Units} (h : White w) : strip .outside w = [] := by
  induction w with
  | nil => rfl
  | cons c w ih =>
      rw [strip, if_pos ⟨rfl, h c List.mem_cons_self⟩]
      exact ih fun d hd => h d (List.mem_cons_of_mem c hd)

/-- Inside a literal white space is part of it. -/
theorem White.strip_inside {w : Units} (h : White w) :
    strip .inside w = w ∧ modeAfter .inside w = .inside := by
  induction w with
  | nil => exact ⟨rfl, rfl⟩
  | cons c w ih =>
      obtain ⟨hstrip, hmode⟩ := ih fun d hd => h d (List.mem_cons_of_mem c hd)
      have hnext := (h c List.mem_cons_self).next.2
      rw [strip_cons_of_ne (by simp), modeAfter_cons, hnext]
      exact ⟨by rw [hstrip], hmode⟩

/-! ## Derivations and the scanner -/

/-- The units of numbers and words. -/
def atomUnits : Units := "0123456789+-.eEtrufalsn".toList.map unit

theorem Digits.subset {s : Units} (h : Digits s) : s ⊆ atomUnits := by
  intro c hc
  have hdigit : "0123456789".toList.map unit ⊆ atomUnits := by decide
  exact hdigit (h c hc)

theorem Atom.subset {s : Units} (h : Atom s) : s ⊆ atomUnits := by
  cases h with
  | word hs =>
      have hword : ∀ s ∈ ["true", "false", "null"].map fun w => w.toList.map unit,
          s ⊆ atomUnits := by decide
      exact hword s hs
  | @number minus int frac exp hminus hint hfrac hexp =>
      have hminus' : minus ⊆ atomUnits := by
        have hall : ∀ l ∈ [[], [unit '-']], l ⊆ atomUnits := by decide
        exact hall minus hminus
      have hint' : int ⊆ atomUnits := by
        cases hint with
        | zero => decide
        | digits hs _ => exact hs.subset
      have hfrac' : frac ⊆ atomUnits := by
        cases hfrac with
        | none => exact List.nil_subset _
        | digits hs _ => exact List.cons_subset.mpr ⟨by decide, hs.subset⟩
      have hexp' : exp ⊆ atomUnits := by
        cases hexp with
        | none => exact List.nil_subset _
        | @digits e sign s he hsign hs _ =>
            have hletter : [unit 'e', unit 'E'] ⊆ atomUnits := by decide
            have hall : ∀ l ∈ [[], [unit '+'], [unit '-']], l ⊆ atomUnits := by decide
            refine List.cons_subset.mpr ⟨hletter he, List.append_subset.mpr ⟨?_, hs.subset⟩⟩
            exact hall sign hsign
      exact List.append_subset.mpr
        ⟨List.append_subset.mpr ⟨List.append_subset.mpr ⟨hminus', hint'⟩, hfrac'⟩, hexp'⟩

/-- Without quotation marks the scanner stays outside. -/
theorem modeAfter_outside {s : Units} (h : ∀ c ∈ s, c ≠ unit '"') :
    modeAfter .outside s = .outside := by
  induction s with
  | nil => rfl
  | cons c s ih =>
      rw [List.forall_mem_cons] at h
      rw [modeAfter_cons, Mode.next, if_neg h.1]
      exact ih h.2

theorem White.modeAfter {w : Units} (h : White w) : modeAfter .outside w = .outside := by
  have hquote : ¬ IsWhite (unit '"') := by decide
  apply modeAfter_outside
  rintro c hc rfl
  exact hquote (h _ hc)

theorem Atom.modeAfter {s : Units} (h : Atom s) : modeAfter .outside s = .outside := by
  have hquote : unit '"' ∉ atomUnits := by decide
  apply modeAfter_outside
  rintro c hc rfl
  exact hquote (h.subset hc)

theorem next_inside_of_isHex {c : UInt16} (h : IsHex c) : Mode.next .inside c = .inside := by
  have hquote : c ≠ unit '"' := by
    rintro rfl
    revert h
    decide
  have hbackslash : c ≠ unit '\\' := by
    rintro rfl
    revert h
    decide
  rw [Mode.next, if_neg hquote, if_neg hbackslash]

theorem Chars.modeAfter {s : Units} (h : Chars s) : modeAfter .inside s = .inside := by
  induction h with
  | nil => rfl
  | plain _ hquote hbackslash _ ih =>
      rw [modeAfter_cons, Mode.next, if_neg hquote, if_neg hbackslash]
      exact ih
  | escape _ _ ih => exact ih
  | digits ha hb hc hd _ ih =>
      rw [modeAfter_cons, modeAfter_cons, modeAfter_cons, modeAfter_cons, modeAfter_cons,
        modeAfter_cons]
      show JsonText.modeAfter ((((Mode.inside.next _).next _).next _).next _) _ = _
      rw [next_inside_of_isHex ha, next_inside_of_isHex hb, next_inside_of_isHex hc,
        next_inside_of_isHex hd]
      exact ih

theorem Literal.modeAfter {s : Units} (h : Literal s) : modeAfter .outside s = .outside := by
  obtain ⟨hs⟩ := h
  rw [modeAfter_cons, modeAfter_append]
  show JsonText.modeAfter (JsonText.modeAfter .inside _) _ = _
  rw [hs.modeAfter]
  rfl

/-- The units that structure a text. -/
def structural : Units := ['[', ']', '\x7b', '\x7d', ',', ':'].map unit

/-- A structural unit neither opens nor closes a literal. -/
theorem next_of_structural {c : UInt16} (h : c ∈ structural) :
    Mode.next .outside c = .outside ∧ Mode.next .inside c = .inside ∧
      Mode.next .escaped c = .inside := by
  have hall : ∀ c ∈ structural, Mode.next .outside c = .outside ∧
      Mode.next .inside c = .inside ∧ Mode.next .escaped c = .inside :=
    forall_mem_of_all (by decide)
  exact hall c h

theorem modeAfter_bracketed {s : Units} {l r : UInt16} (hl : l ∈ structural)
    (hr : r ∈ structural) (hs : modeAfter .outside s = .outside) :
    modeAfter .outside (l :: (s ++ [r])) = .outside := by
  rw [modeAfter_cons, (next_of_structural hl).1, modeAfter_append, hs, modeAfter_cons,
    (next_of_structural hr).1, modeAfter_nil]

/-- A part of a text leaves the scanner outside. -/
theorem Derives.modeAfter {p : Part} {s : Units} (h : Derives p s) :
    modeAfter .outside s = .outside := by
  have hcomma : unit ',' ∈ structural := by decide
  have hcolon : unit ':' ∈ structural := by decide
  induction h with
  | atom hs => exact hs.modeAfter
  | literal hs => exact hs.modeAfter
  | emptyArray hw => exact modeAfter_bracketed (by decide) (by decide) hw.modeAfter
  | array _ ih => exact modeAfter_bracketed (by decide) (by decide) ih
  | emptyObject hw => exact modeAfter_bracketed (by decide) (by decide) hw.modeAfter
  | object _ ih => exact modeAfter_bracketed (by decide) (by decide) ih
  | element hv _ hw ih =>
      rw [modeAfter_append, modeAfter_append, hv.modeAfter, ih, hw.modeAfter]
  | oneElement _ ih | oneMember _ ih => exact ih
  | moreElements _ _ ih ih' | moreMembers _ _ ih ih' =>
      rw [modeAfter_append, ih, modeAfter_cons, (next_of_structural hcomma).1, ih']
  | member hv hk hw _ ih =>
      rw [modeAfter_append, modeAfter_append, modeAfter_append, hv.modeAfter, hk.modeAfter,
        hw.modeAfter, modeAfter_cons, (next_of_structural hcolon).1, ih]

end StudyNotes.JsonText
