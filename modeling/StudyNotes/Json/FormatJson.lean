/-
# Formatting JSON (`JsonUtil.formatJson`)

The formatter looks at one unit after the other and breaks the line after opening
brackets and commas and before closing brackets.  It does not know about string literals.
A bracket inside a literal breaks the line there, and so does a comma unless a backslash
stands before it.  On every other JSON text the formatter only adds white space between
its parts.
-/

import Mathlib.Data.Int.Basic
import StudyNotes.Lib.JsonText

namespace StudyNotes.Json

open StudyNotes.CodeUnits StudyNotes.JsonText

/-- The variables of `formatJson`. -/
structure Formatter where
  sb : Units := []
  last : UInt16 := 0
  current : UInt16 := 0
  indent : ℤ := 0

/-- `addIndentBlank(sb, indent)`. -/
def addIndentBlank (sb : Units) (indent : ℤ) : Units :=
  sb ++ List.replicate indent.toNat (unit '\t')

/-- One turn of the loop. -/
def Formatter.step (f : Formatter) (c : UInt16) : Formatter :=
  let f := { f with last := f.current, current := c }
  if c = unit '\x7b' ∨ c = unit '[' then
    let f := { f with sb := f.sb ++ [c] ++ [unit '\n'], indent := f.indent + 1 }
    { f with sb := addIndentBlank f.sb f.indent }
  else if c = unit '\x7d' ∨ c = unit ']' then
    let f := { f with sb := f.sb ++ [unit '\n'], indent := f.indent - 1 }
    { f with sb := addIndentBlank f.sb f.indent ++ [c] }
  else if c = unit ',' then
    let f := { f with sb := f.sb ++ [c] }
    if f.last ≠ unit '\\' then { f with sb := addIndentBlank (f.sb ++ [unit '\n']) f.indent }
    else f
  else { f with sb := f.sb ++ [c] }

/-- `formatJson(jsonStr)`. -/
def formatJson (jsonStr : Option Units) : Units :=
  match jsonStr with
  | none => []
  | some text => if text = [] then [] else (text.foldl Formatter.step {}).sb

/-! ## What a turn appends -/

/-- A new line, indented. -/
def margin (indent : ℤ) : Units := unit '\n' :: List.replicate indent.toNat (unit '\t')

/-- The line is broken at this unit. -/
def Breaks (last c : UInt16) : Prop :=
  c ∈ [unit '\x7b', unit '[', unit '\x7d', unit ']'] ∨ c = unit ',' ∧ last ≠ unit '\\'

instance (last c : UInt16) : Decidable (Breaks last c) :=
  inferInstanceAs (Decidable (_ ∨ _))

def emitted (last : UInt16) (indent : ℤ) (c : UInt16) : Units :=
  if c = unit '\x7b' ∨ c = unit '[' then c :: margin (indent + 1)
  else if c = unit '\x7d' ∨ c = unit ']' then margin (indent - 1) ++ [c]
  else if c = unit ',' ∧ last ≠ unit '\\' then c :: margin indent
  else [c]

def indentAfter (indent : ℤ) (c : UInt16) : ℤ :=
  if c = unit '\x7b' ∨ c = unit '[' then indent + 1
  else if c = unit '\x7d' ∨ c = unit ']' then indent - 1
  else indent

/-- What the loop appends for a text, with the unit before it and the indentation there. -/
def emit : UInt16 → ℤ → Units → Units
  | _, _, [] => []
  | last, indent, c :: s => emitted last indent c ++ emit c (indentAfter indent c) s

theorem Formatter.step_eq (f : Formatter) (c : UInt16) :
    f.step c =
      { sb := f.sb ++ emitted f.current f.indent c
        last := f.current
        current := c
        indent := indentAfter f.indent c } := by
  simp only [Formatter.step, emitted, indentAfter, margin, addIndentBlank]
  by_cases hopening : c = unit '\x7b' ∨ c = unit '['
  · simp [hopening]
  · by_cases hclosing : c = unit '\x7d' ∨ c = unit ']'
    · simp [hopening, hclosing]
    · simp only [hopening, hclosing, if_false]
      by_cases hcomma : c = unit ','
      · by_cases hlast : f.current = unit '\\'
        · simp [hcomma, hlast]
        · simp [hcomma, hlast]
      · simp [hcomma]

theorem sb_foldl_step (f : Formatter) (text : Units) :
    (text.foldl Formatter.step f).sb = f.sb ++ emit f.current f.indent text := by
  induction text generalizing f with
  | nil => rw [List.foldl_nil, emit, List.append_nil]
  | cons c text ih => rw [List.foldl_cons, ih, Formatter.step_eq, emit, List.append_assoc]

theorem formatJson_some (text : Units) : formatJson (some text) = emit 0 0 text := by
  rw [formatJson]
  split_ifs with hempty
  · rw [hempty, emit]
  · rw [sb_foldl_step, List.nil_append]

/-- A unit is copied, or it breaks the line. -/
theorem emitted_cases (last : UInt16) (indent : ℤ) (c : UInt16) :
    ¬ Breaks last c ∧ emitted last indent c = [c] ∨
      Breaks last c ∧ c ∈ structural ∧ ∃ indent',
        emitted last indent c = c :: margin indent' ∨
          emitted last indent c = margin indent' ++ [c] := by
  rw [emitted]
  split_ifs with hopening hclosing hcomma
  · refine Or.inr ⟨Or.inl ?_, ?_, _, Or.inl rfl⟩
    · rcases hopening with rfl | rfl <;> decide
    · rcases hopening with rfl | rfl <;> decide
  · refine Or.inr ⟨Or.inl ?_, ?_, _, Or.inr rfl⟩
    · rcases hclosing with rfl | rfl <;> decide
    · rcases hclosing with rfl | rfl <;> decide
  · refine Or.inr ⟨Or.inr hcomma, ?_, _, Or.inl rfl⟩
    rw [hcomma.1]
    decide
  · refine Or.inl ⟨?_, rfl⟩
    rintro (hbracket | hbreak)
    · simp only [List.mem_cons, List.not_mem_nil, or_false] at hbracket
      tauto
    · exact hcomma hbreak

/-! ## White space removed -/

/-- No line is broken inside a literal. -/
def Unbroken : Mode → UInt16 → Units → Prop
  | _, _, [] => True
  | m, last, c :: s => (m ≠ .outside → ¬ Breaks last c) ∧ Unbroken (m.next c) c s

instance decidableUnbroken : ∀ (m : Mode) (last : UInt16) (s : Units),
    Decidable (Unbroken m last s)
  | _, _, [] => .isTrue trivial
  | m, last, c :: s =>
    have := decidableUnbroken (m.next c) c s
    inferInstanceAs (Decidable ((m ≠ .outside → ¬ Breaks last c) ∧ Unbroken (m.next c) c s))

theorem white_margin (indent : ℤ) : White (margin indent) := by
  intro c hc
  rcases List.mem_cons.mp hc with rfl | htab
  · decide
  · rw [List.eq_of_mem_replicate htab]
    decide

/-- A line break is skipped outside of literals and kept inside. -/
theorem strip_margin (m : Mode) (indent : ℤ) :
    (m = .outside ∧ strip m (margin indent) = [] ∧ modeAfter m (margin indent) = .outside) ∨
      (m ≠ .outside ∧ strip m (margin indent) = margin indent ∧
        modeAfter m (margin indent) = .inside) := by
  have hwhite := white_margin indent
  cases m with
  | outside => exact Or.inl ⟨rfl, hwhite.strip_outside, hwhite.modeAfter⟩
  | inside => exact Or.inr ⟨nofun, hwhite.strip_inside.1, hwhite.strip_inside.2⟩
  | escaped =>
      -- the new line takes the place of the unit after the backslash
      have htabs : White (List.replicate indent.toNat (unit '\t')) := fun c hc =>
        hwhite c (List.mem_cons_of_mem _ hc)
      refine Or.inr ⟨nofun, ?_, htabs.strip_inside.2⟩
      rw [margin, strip_cons_of_ne (by simp)]
      exact congrArg _ htabs.strip_inside.1

/-- Behind what a unit is turned into, the scanner is in the same mode as behind the unit. -/
theorem modeAfter_emitted (m : Mode) (last : UInt16) (indent : ℤ) (c : UInt16) :
    modeAfter m (emitted last indent c) = m.next c := by
  rcases emitted_cases last indent c with
    ⟨-, hsame⟩ | ⟨-, hstructural, indent', hafter | hbefore⟩
  · rw [hsame]
    rfl
  · obtain ⟨houtside, hinside, hescaped⟩ := next_of_structural hstructural
    rw [hafter, modeAfter_cons]
    cases m with
    | outside => rw [houtside]; exact (white_margin _).modeAfter
    | inside => rw [hinside]; exact (white_margin _).strip_inside.2
    | escaped => rw [hescaped]; exact (white_margin _).strip_inside.2
  · obtain ⟨houtside, hinside, hescaped⟩ := next_of_structural hstructural
    rw [hbefore, modeAfter_append]
    cases m with
    | outside =>
        rw [(white_margin _).modeAfter]
        rfl
    | inside =>
        rw [(white_margin _).strip_inside.2]
        rfl
    | escaped =>
        rcases strip_margin .escaped indent' with ⟨habs, -⟩ | ⟨-, -, hmode⟩
        · cases habs
        · rw [hmode, modeAfter_cons, hinside, hescaped]
          rfl

theorem length_margin_pos (indent : ℤ) : 0 < (margin indent).length := Nat.succ_pos _

/-- What a unit is turned into keeps the unit, and is longer where a line is broken inside
a literal. -/
theorem strip_emitted (m : Mode) (last : UInt16) (indent : ℤ) (c : UInt16) :
    ((m ≠ .outside → ¬ Breaks last c) ∧ strip m (emitted last indent c) = strip m [c]) ∨
      (¬ (m ≠ .outside → ¬ Breaks last c) ∧
        (strip m [c]).length < (strip m (emitted last indent c)).length) := by
  rcases emitted_cases last indent c with ⟨hcopied, hsame⟩ | ⟨hbreaks, hstructural, indent', hform⟩
  · rw [hsame]
    exact Or.inl ⟨fun _ => hcopied, rfl⟩
  · obtain ⟨houtside, hinside, hescaped⟩ := next_of_structural hstructural
    by_cases hm : m = .outside
    · subst hm
      refine Or.inl ⟨fun h => absurd rfl h, ?_⟩
      rcases hform with hafter | hbefore
      · rw [hafter, ← List.singleton_append, strip_append, modeAfter_cons, houtside, modeAfter_nil,
          (white_margin _).strip_outside, List.append_nil]
      · rw [hbefore, strip_append, (white_margin _).modeAfter, (white_margin _).strip_outside,
          List.nil_append]
    · have hkept : ∀ s, strip m (c :: s) = c :: strip .inside s := by
        intro s
        rw [strip_cons_of_ne fun h => hm h.1]
        cases m with
        | outside => exact absurd rfl hm
        | inside => rw [hinside]
        | escaped => rw [hescaped]
      have hpos := length_margin_pos indent'
      refine Or.inr ⟨fun h => h hm hbreaks, ?_⟩
      rcases hform with hafter | hbefore
      · rw [hafter, hkept, hkept, (white_margin _).strip_inside.1, strip, List.length_cons,
          List.length_cons]
        exact Nat.succ_lt_succ hpos
      · rcases strip_margin m indent' with ⟨hout, -⟩ | ⟨-, hstrip, hmode⟩
        · exact absurd hout hm
        · rw [hbefore, strip_append, hstrip, hmode, hkept, strip, strip_cons_of_ne (by simp),
            hinside, strip, List.length_append]
          exact Nat.lt_add_of_pos_left hpos

/-- The text without white space is kept or grows. -/
theorem length_strip_le (m : Mode) (last : UInt16) (indent : ℤ) (s : Units) :
    (strip m s).length ≤ (strip m (emit last indent s)).length := by
  induction s generalizing m last indent with
  | nil => exact Nat.le_refl _
  | cons c s ih =>
      rw [emit, strip_append, modeAfter_emitted, ← List.singleton_append, strip_append,
        List.length_append, List.length_append]
      apply Nat.add_le_add _ (ih _ _ _)
      rcases strip_emitted m last indent c with ⟨-, hsame⟩ | ⟨-, hlonger⟩
      · rw [hsame]
      · exact Nat.le_of_lt hlonger

/-- White space apart, the text is kept exactly when no line is broken inside a literal. -/
theorem strip_emit_iff (m : Mode) (last : UInt16) (indent : ℤ) (s : Units) :
    strip m (emit last indent s) = strip m s ↔ Unbroken m last s := by
  induction s generalizing m last indent with
  | nil => exact ⟨fun _ => trivial, fun _ => rfl⟩
  | cons c s ih =>
      rw [Unbroken, emit, strip_append, modeAfter_emitted, ← List.singleton_append, strip_append]
      show strip m _ ++ _ = strip m [c] ++ strip (m.next c) s ↔ _
      rcases strip_emitted m last indent c with ⟨hcopied, hsame⟩ | ⟨hbroken, hlonger⟩
      · rw [hsame, List.append_cancel_left_eq, ih, and_iff_right hcopied]
      · refine ⟨fun hkept => ?_, fun h => absurd h.1 hbroken⟩
        have hlength := congrArg List.length hkept
        rw [List.length_append, List.length_append] at hlength
        have hrest := length_strip_le (m.next c) c (indentAfter indent c) s
        omega

/-! ## The output is a JSON text -/

/-- The unit before the rest of a text, and the indentation there. -/
def lastAfter (last : UInt16) (s : Units) : UInt16 := s.foldl (fun _ c => c) last

def indentBehind (indent : ℤ) (s : Units) : ℤ := s.foldl indentAfter indent

theorem emit_append (last : UInt16) (indent : ℤ) (s t : Units) :
    emit last indent (s ++ t) =
      emit last indent s ++ emit (lastAfter last s) (indentBehind indent s) t := by
  induction s generalizing last indent with
  | nil => rfl
  | cons c s ih =>
      rw [List.cons_append, emit, ih, emit, List.append_assoc]
      rfl

theorem unbroken_append {m : Mode} {last : UInt16} {s t : Units} :
    Unbroken m last (s ++ t) ↔
      Unbroken m last s ∧ Unbroken (modeAfter m s) (lastAfter last s) t := by
  induction s generalizing m last with
  | nil => exact (and_iff_right trivial).symm
  | cons c s ih =>
      rw [List.cons_append, Unbroken, ih, Unbroken, and_assoc]
      rfl

theorem emit_cons_of_not_breaks {last c : UInt16} (h : ¬ Breaks last c) (indent : ℤ) (s : Units) :
    emit last indent (c :: s) = c :: emit c (indentAfter indent c) s := by
  rcases emitted_cases last indent c with ⟨-, hsame⟩ | ⟨hbreaks, -⟩
  · rw [emit, hsame, List.singleton_append]
  · exact absurd hbreaks h

/-- Only brackets and commas break a line. -/
theorem not_breaks_of_notMem {c : UInt16}
    (h : c ∉ [unit '\x7b', unit '[', unit '\x7d', unit ']', unit ',']) (last : UInt16) :
    ¬ Breaks last c := by
  simp only [List.mem_cons, List.not_mem_nil, or_false, not_or] at h
  rintro (hbracket | hcomma)
  · simp only [List.mem_cons, List.not_mem_nil, or_false] at hbracket
    tauto
  · exact h.2.2.2.2 hcomma.1

/-- Units that do not structure a text are copied. -/
theorem emit_of_plain {s : Units} (h : ∀ c ∈ s, c ∉ structural) (last : UInt16) (indent : ℤ) :
    emit last indent s = s := by
  induction s generalizing last indent with
  | nil => rfl
  | cons c s ih =>
      rw [List.forall_mem_cons] at h
      rcases emitted_cases last indent c with ⟨hcopied, -⟩ | ⟨-, hstructural, -⟩
      · rw [emit_cons_of_not_breaks hcopied, ih h.2]
      · exact absurd hstructural h.1

theorem White.emit {w : Units} (h : White w) (last : UInt16) (indent : ℤ) :
    emit last indent w = w := by
  have hall : ∀ c ∈ structural, ¬ IsWhite c := forall_mem_of_all (by decide)
  exact emit_of_plain (fun c hc hstructural => hall c hstructural (h c hc)) last indent

theorem Atom.emit {s : Units} (h : Atom s) (last : UInt16) (indent : ℤ) :
    emit last indent s = s := by
  have hall : ∀ c ∈ structural, c ∉ atomUnits := forall_mem_of_all (by decide)
  exact emit_of_plain (fun c hc hstructural => hall c hstructural (h.subset hc)) last indent

/-- Digits inside a literal are copied, and what follows is inside it too. -/
theorem emit_hex_cons {c last : UInt16} {s : Units} (hc : IsHex c)
    (h : Unbroken .inside last (c :: s)) (indent : ℤ) :
    emit last indent (c :: s) = c :: emit c (indentAfter indent c) s ∧ Unbroken .inside c s := by
  obtain ⟨hcopied, hrest⟩ := h
  rw [next_inside_of_isHex hc] at hrest
  exact ⟨emit_cons_of_not_breaks (hcopied nofun) indent s, hrest⟩

theorem Chars.emit {s : Units} (h : Chars s) {last : UInt16} (hunbroken : Unbroken .inside last s)
    (indent : ℤ) : emit last indent s = s := by
  have hinside : Mode.inside ≠ .outside := by decide
  have hescaped : Mode.escaped ≠ .outside := by decide
  induction h generalizing last indent with
  | nil => rfl
  | @plain c s _ hquote hbackslash _ ih =>
      obtain ⟨hcopied, hrest⟩ := hunbroken
      rw [Mode.next, if_neg hquote, if_neg hbackslash] at hrest
      rw [emit_cons_of_not_breaks (hcopied hinside), ih hrest]
  | escape hc _ ih =>
      obtain ⟨hcopied, hcopied', hrest⟩ := hunbroken
      rw [emit_cons_of_not_breaks (hcopied hinside), emit_cons_of_not_breaks (hcopied' hescaped),
        ih hrest]
  | digits ha hb hc hd _ ih =>
      obtain ⟨hcopied, hcopied', hrest⟩ := hunbroken
      rw [emit_cons_of_not_breaks (hcopied hinside), emit_cons_of_not_breaks (hcopied' hescaped)]
      obtain ⟨ha', hrest⟩ := emit_hex_cons ha hrest _
      obtain ⟨hb', hrest⟩ := emit_hex_cons hb hrest _
      obtain ⟨hc', hrest⟩ := emit_hex_cons hc hrest _
      obtain ⟨hd', hrest⟩ := emit_hex_cons hd hrest _
      rw [ha', hb', hc', hd', ih hrest]

theorem Literal.emit {s : Units} (h : Literal s) {last : UInt16}
    (hunbroken : Unbroken .outside last s) (indent : ℤ) : emit last indent s = s := by
  obtain ⟨hs⟩ := h
  obtain ⟨-, hrest⟩ := hunbroken
  obtain ⟨hbody, hquote⟩ := unbroken_append.mp hrest
  have hcopied := not_breaks_of_notMem (c := unit '"') (by decide)
  rw [emit_cons_of_not_breaks (hcopied last), emit_append, Chars.emit hs hbody,
    emit_cons_of_not_breaks (hcopied _), Json.emit]

/-- A bracketed part gets new lines at both of its ends. -/
theorem emit_bracketed {l r : UInt16} (hl : l = unit '\x7b' ∨ l = unit '[')
    (hr : r = unit '\x7d' ∨ r = unit ']') (last : UInt16) (indent : ℤ) (s : Units) :
    ∃ indent' indent'', emit last indent (l :: (s ++ [r])) =
      l :: ((margin indent' ++ emit l indent' s ++ margin indent'') ++ [r]) := by
  have hclosing : ¬ (r = unit '\x7b' ∨ r = unit '[') := by
    rcases hr with rfl | rfl <;> decide
  have hopened : emitted last indent l = l :: margin (indent + 1) := if_pos hl
  have hclosed : ∀ last indent, emitted last indent r = margin (indent - 1) ++ [r] := by
    intro last indent
    rw [emitted, if_neg hclosing, if_pos hr]
  refine ⟨indent + 1, indentBehind (indent + 1) s - 1, ?_⟩
  rw [emit, hopened, indentAfter, if_pos hl, emit_append, emit, hclosed, emit]
  simp only [List.cons_append, List.append_assoc, List.append_nil]

/-- After a comma there may be a new line. -/
theorem emit_comma (last : UInt16) (indent : ℤ) (s : Units) :
    ∃ w, White w ∧ emit last indent (unit ',' :: s) = unit ',' :: (w ++ emit (unit ',') indent s) := by
  have hindent : indentAfter indent (unit ',') = indent := rfl
  have hemitted : emitted last indent (unit ',') =
      if last ≠ unit '\\' then unit ',' :: margin indent else [unit ','] := by
    simp only [emitted, true_and]
    rfl
  rw [emit, hindent, hemitted]
  split_ifs with hlast
  · exact ⟨margin indent, white_margin indent, rfl⟩
  · exact ⟨[], by simp [White], rfl⟩

/-- The brackets and the part between them. -/
theorem Unbroken.of_bracketed {last l r : UInt16} {s : Units} (hl : l ∈ structural)
    (h : Unbroken .outside last (l :: (s ++ [r]))) : Unbroken .outside l s := by
  have hrest := h.2
  rw [(next_of_structural hl).1] at hrest
  exact (unbroken_append.mp hrest).1

theorem Unbroken.of_separated {last c : UInt16} {s t : Units} (hc : c ∈ structural)
    (hs : modeAfter .outside s = .outside) (h : Unbroken .outside last (s ++ c :: t)) :
    Unbroken .outside last s ∧ Unbroken .outside c t := by
  obtain ⟨hfirst, -, hsecond⟩ := unbroken_append.mp h
  rw [hs, (next_of_structural hc).1] at hsecond
  exact ⟨hfirst, hsecond⟩

/-- Where no literal is broken, every part of a text is turned into such a part. -/
theorem Derives.emit {p : Part} {s : Units} (h : Derives p s) {last : UInt16}
    (hunbroken : Unbroken .outside last s) (indent : ℤ) : Derives p (emit last indent s) := by
  induction h generalizing last indent with
  | atom hs =>
      rw [Atom.emit hs]
      exact .atom hs
  | literal hs =>
      rw [Literal.emit hs hunbroken]
      exact .literal hs
  | emptyArray hw =>
      obtain ⟨indent', indent'', hemit⟩ :=
        emit_bracketed (Or.inr rfl) (Or.inr rfl) last indent _
      rw [hemit, White.emit hw]
      exact .emptyArray (((white_margin _).append hw).append (white_margin _))
  | array _ ih =>
      obtain ⟨indent', indent'', hemit⟩ :=
        emit_bracketed (Or.inr rfl) (Or.inr rfl) last indent _
      have hpart := ih (hunbroken.of_bracketed (by decide)) indent'
      rw [hemit]
      exact .array ((hpart.white_append nofun (white_margin _)).append_white nofun (white_margin _))
  | emptyObject hw =>
      obtain ⟨indent', indent'', hemit⟩ :=
        emit_bracketed (Or.inl rfl) (Or.inl rfl) last indent _
      rw [hemit, White.emit hw]
      exact .emptyObject (((white_margin _).append hw).append (white_margin _))
  | object _ ih =>
      obtain ⟨indent', indent'', hemit⟩ :=
        emit_bracketed (Or.inl rfl) (Or.inl rfl) last indent _
      have hpart := ih (hunbroken.of_bracketed (by decide)) indent'
      rw [hemit]
      have hmembers := hpart.white_append nofun (white_margin indent')
      exact .object (hmembers.append_white nofun (white_margin _))
  | element hv _ hw ih =>
      obtain ⟨hvs, -⟩ := unbroken_append.mp hunbroken
      obtain ⟨-, hs⟩ := unbroken_append.mp hvs
      rw [hv.modeAfter] at hs
      rw [emit_append, emit_append, White.emit hv, White.emit hw]
      exact .element hv (ih hs _) hw
  | oneElement _ ih => exact .oneElement (ih hunbroken indent)
  | moreElements hs _ ih ih' =>
      obtain ⟨hfirst, hsecond⟩ := hunbroken.of_separated (by decide) hs.modeAfter
      obtain ⟨w, hw, hcomma⟩ := emit_comma (lastAfter last _) (indentBehind indent _) _
      rw [emit_append, hcomma]
      exact .moreElements (ih hfirst indent) ((ih' hsecond _).white_append nofun hw)
  | @member v k w s hv hk hw hs ih =>
      have hmode : modeAfter .outside (v ++ k ++ w) = .outside := by
        rw [modeAfter_append, modeAfter_append, hv.modeAfter, hk.modeAfter, hw.modeAfter]
      obtain ⟨hfirst, hsecond⟩ := hunbroken.of_separated (by decide) hmode
      obtain ⟨hvk, -⟩ := unbroken_append.mp hfirst
      obtain ⟨-, hkey⟩ := unbroken_append.mp hvk
      rw [hv.modeAfter] at hkey
      have hcolon := not_breaks_of_notMem (c := unit ':') (by decide)
      rw [emit_append, emit_append, emit_append, White.emit hv, Literal.emit hk hkey, White.emit hw,
        emit_cons_of_not_breaks (hcolon _)]
      exact .member hv hk hw (ih hsecond _)
  | oneMember _ ih => exact .oneMember (ih hunbroken indent)
  | moreMembers hs _ ih ih' =>
      obtain ⟨hfirst, hsecond⟩ := hunbroken.of_separated (by decide) hs.modeAfter
      obtain ⟨w, hw, hcomma⟩ := emit_comma (lastAfter last _) (indentBehind indent _) _
      rw [emit_append, hcomma]
      exact .moreMembers (ih hfirst indent) ((ih' hsecond _).white_append nofun hw)

/-! ## The law -/

/-- The output is a JSON text again, and the same one white space apart. -/
structure Preserves (text : Units) : Prop where
  valid : Valid (formatJson (some text))
  strip_eq : strip .outside (formatJson (some text)) = strip .outside text

/-- A JSON text is preserved exactly when none of its literals holds a bracket, or a comma
without a backslash before it. -/
theorem preserves_iff {text : Units} (h : Valid text) :
    Preserves text ↔ Unbroken .outside 0 text := by
  constructor
  · intro hpreserves
    have hstrip := hpreserves.strip_eq
    rw [formatJson_some] at hstrip
    exact (strip_emit_iff .outside 0 0 text).mp hstrip
  · intro hunbroken
    constructor
    · rw [formatJson_some]
      exact Derives.emit h hunbroken 0
    · rw [formatJson_some]
      exact (strip_emit_iff .outside 0 0 text).mpr hunbroken

/-- `[1,"a b"]`. -/
theorem preserves_pair : Preserves ("[1,\"a b\"]".toList.map unit) := by
  have hnumber : Atom ([] ++ [unit '1'] ++ [] ++ []) :=
    .number (by decide) (.digits (by decide) (by decide)) .none .none
  have hone : Derives .element ([] ++ [unit '1'] ++ []) :=
    .element (by decide) (.atom hnumber) (by decide)
  have hchars : Chars ("a b".toList.map unit) :=
    .plain (by decide) (by decide) (by decide)
      (.plain (by decide) (by decide) (by decide)
        (.plain (by decide) (by decide) (by decide) .nil))
  have htwo : Derives .element ([] ++ (unit '"' :: ("a b".toList.map unit ++ [unit '"'])) ++ []) :=
    .element (by decide) (.literal (.mk hchars)) (by decide)
  have hvalid : Valid ([] ++ (unit '[' :: ((([] ++ [unit '1'] ++ []) ++ unit ',' ::
      ([] ++ (unit '"' :: ("a b".toList.map unit ++ [unit '"'])) ++ [])) ++ [unit ']'])) ++ []) :=
    .element (by decide) (.array (.moreElements hone (.oneElement htwo))) (by decide)
  exact (preserves_iff hvalid).mpr (by decide)

/-- `"a,b"`. -/
theorem not_preserves_comma : ¬ ∀ text : Units, Valid text → Preserves text := by
  intro hlaw
  have hchars : Chars ("a,b".toList.map unit) :=
    .plain (by decide) (by decide) (by decide)
      (.plain (by decide) (by decide) (by decide)
        (.plain (by decide) (by decide) (by decide) .nil))
  have hvalid : Valid ([] ++ (unit '"' :: ("a,b".toList.map unit ++ [unit '"'])) ++ []) :=
    .element (by decide) (.literal (.mk hchars)) (by decide)
  exact absurd (hlaw _ hvalid).strip_eq (by decide)

end StudyNotes.Json
