/-
# What parameter injection delivers

A field whose key is present with the field's type should receive the stored
value, and every other field should keep its own.  The accessors for `int` and
`boolean` pass the old value as default and do so.  `getStringExtra` has no
default and writes null; the Parcelable statement, besides, reads under the
field's name whatever the annotation says; and the test for the word Parcelable
also sees it in the name of a field of another type.
-/

import Mathlib.Data.List.Nodup
import StudyNotes.Lib.Fallible
import StudyNotes.Parameter.Factory

namespace StudyNotes.Parameter

open StudyNotes.Text StudyNotes.Fallible StudyNotes.Router

/-! ## What should be delivered -/

/-- The stored value is one of the field's type.  Null is one of every class. -/
def Field.admits (app : Application) (f : Field) (v : Extra) : Bool :=
  match f.type, v with
  | .int, .int _ => true
  | .boolean, .boolean _ => true
  | .declared type _, .string _ => type = STRING
  | .declared type _, .parcelable o => type ≠ STRING && app.instanceOf o.className type
  | .declared _ _, .null => true
  | _, _ => false

/-- The value a field should have afterwards: what is stored under its key with its
type, and else what it had. -/
def wanted (app : Application) (extras : Bundle) (before : Str → Extra) (f : Field) : Extra :=
  match extras f.annotationValue with
  | some v => if f.admits app v then v else before f.name
  | none => before f.name

/-- The generated method returns, every annotated field then has the value it should
have, and no other field has changed. -/
def Delivers (app : Application) (extras : Bundle) (annotated : List Field)
    (before : Str → Extra) : Prop :=
  ∃ after, getParameter app extras annotated before = some (.ok after) ∧
    (∀ f ∈ annotated, after f.name = wanted app extras before f) ∧
    ∀ name, name ∉ annotated.map Field.name → after name = before name

/-! ## The assignments of a method do not interfere -/

section Execute

variable {app : Application} {extras : Bundle}

theorem evaluate_congr {fields fields' : Str → Extra} (a : Assignment)
    (h : fields a.field = fields' a.field) :
    evaluate app extras fields a = evaluate app extras fields' a := by
  cases a with
  | getIntExtra field key =>
      rw [evaluate, evaluate]
      cases extras key with
      | none => exact congrArg Except.ok h
      | some v => cases v <;> first | rfl | exact congrArg Except.ok h
  | getBooleanExtra field key =>
      rw [evaluate, evaluate]
      cases extras key with
      | none => exact congrArg Except.ok h
      | some v => cases v <;> first | rfl | exact congrArg Except.ok h
  | getStringExtra field key => rfl
  | getParcelableExtra field cast key => rfl
  | navigation field cast path => rfl

theorem execute_eq_ok_iff {fields fields' : Str → Extra} {a : Assignment} :
    execute app extras fields a = .ok fields' ↔
      ∃ v, evaluate app extras fields a = .ok v ∧ fields' = Function.update fields a.field v := by
  rw [execute, bind_eq_ok_iff]
  simp only [Except.ok.injEq, eq_comm]

/-- Assignments to distinct fields each see the fields as they were. -/
theorem foldlM_execute_eq_ok_iff {assignments : List Assignment} {before after : Str → Extra}
    (hnodup : (assignments.map Assignment.field).Nodup) :
    assignments.foldlM (execute app extras) before = .ok after ↔
      (∀ a ∈ assignments, evaluate app extras before a = .ok (after a.field)) ∧
        ∀ name, name ∉ assignments.map Assignment.field → after name = before name := by
  induction assignments generalizing before with
  | nil =>
      simp only [List.foldlM_nil, List.not_mem_nil, List.map_nil, not_false_iff, true_implies,
        false_implies, implies_true, true_and]
      constructor
      · intro h name
        rw [Except.ok.inj h]
      · intro h
        exact congrArg Except.ok (funext fun name => (h name).symm)
  | cons a assignments ih =>
      rw [List.map_cons, List.nodup_cons] at hnodup
      have hother : ∀ v, ∀ b ∈ assignments,
          evaluate app extras (Function.update before a.field v) b =
            evaluate app extras before b := by
        intro v b hb
        apply evaluate_congr
        apply Function.update_of_ne
        intro heq
        exact hnodup.1 (heq ▸ List.mem_map_of_mem hb)
      rw [foldlM_cons_eq_ok_iff, List.forall_mem_cons]
      constructor
      · rintro ⟨fields, hstep, hloop⟩
        obtain ⟨v, hv, rfl⟩ := execute_eq_ok_iff.mp hstep
        obtain ⟨hassigned, hrest⟩ := (ih hnodup.2).mp hloop
        have hfirst : after a.field = v := by
          rw [hrest _ hnodup.1, Function.update_self]
        refine ⟨⟨by rw [hv, hfirst], fun b hb => ?_⟩, fun name hname => ?_⟩
        · rw [← hother v b hb, hassigned b hb]
        · rw [List.map_cons, List.mem_cons, not_or] at hname
          rw [hrest name hname.2, Function.update_of_ne hname.1]
      · rintro ⟨⟨hfirst, hassigned⟩, hrest⟩
        refine ⟨_, execute_eq_ok_iff.mpr ⟨_, hfirst, rfl⟩, (ih hnodup.2).mpr ⟨?_, ?_⟩⟩
        · intro b hb
          rw [hother _ b hb, hassigned b hb]
        · intro name hname
          by_cases heq : name = a.field
          · rw [heq, Function.update_self]
          · rw [Function.update_of_ne heq]
            apply hrest
            rw [List.map_cons, List.mem_cons, not_or]
            exact ⟨heq, hname⟩

end Execute

/-! ## What the statement of a field compiles to -/

section Compile

theorem parse_assignment {name : Str} (hname : IsIdentifier name) (rest : Str) (args : List Arg) :
    parse ⟨"t.".toList ++ name ++ ' ' :: rest, args⟩ =
      if '$' ∈ name then none else parseRest name (' ' :: rest) args := by
  have hblank : ∀ c ∈ name, decide (c ≠ ' ') = true := by
    intro c hc
    have hnot := hname.2 c hc
    exact decide_eq_true fun heq => hnot (by simp [heq])
  have htake : (name ++ ' ' :: rest).takeWhile (· ≠ ' ') = name := by
    rw [List.takeWhile_append_of_pos hblank]
    simp
  have hdrop : (name ++ ' ' :: rest).dropWhile (· ≠ ' ') = ' ' :: rest := by
    rw [List.dropWhile_append_of_pos hblank]
    simp
  show (let word := (name ++ ' ' :: rest).takeWhile (· ≠ ' ')
    if '$' ∈ word then none
    else parseRest word ((name ++ ' ' :: rest).dropWhile (· ≠ ' ')) args) = _
  rw [htake, hdrop]

/-- The text of a statement that reads the Intent, before its arguments. -/
def methodContent (name tail : Str) : Str :=
  "t.".toList ++ name ++ (" = t.getIntent().".toList ++ tail)

theorem parse_methodContent {name : Str} (hname : IsIdentifier name) (tail : Str)
    (args : List Arg) :
    parse ⟨methodContent name tail, args⟩ =
      if '$' ∈ name then none else parseRest name (" = t.getIntent().".toList ++ tail) args :=
  parse_assignment hname ("= t.getIntent().".toList ++ tail) args

/-- An assignment that is cast and assigned again is not Java. -/
theorem parse_assigned_twice {name : Str} (hname : IsIdentifier name) (tail type key : Str) :
    parse ⟨"t.".toList ++ name ++ " = ($T)".toList ++ methodContent name tail,
      [.type type, .text key]⟩ = none := by
  have hrest : parseRest name (" = ($T)".toList ++ methodContent name tail)
      [.type type, .text key] = none := by
    apply if_neg
    intro heq
    -- the cast Java accepts has two blanks
    have hcount := congrArg (List.count ' ') heq
    rw [methodContent, List.count_append, List.count_append, List.count_append,
      show List.count ' ' " = ($T)".toList = 2 by decide,
      show List.count ' ' (" = t.getIntent().".toList ++ tail) =
        2 + List.count ' ' tail from List.count_append,
      show List.count ' ' " = ($T)t.getIntent().getParcelableExtra($S)".toList = 2 by decide]
      at hcount
    omega
  have hparse := parse_assignment hname ("= ($T)".toList ++ methodContent name tail)
    [.type type, .text key]
  rw [List.append_assoc]
  refine hparse.trans ?_
  split
  · rfl
  · exact hrest

/-- The field can be assigned, and its name holds no placeholder and no mention of
`Parcelable`. -/
def Field.Plain (f : Field) : Prop :=
  f.assignable = true ∧ '$' ∉ f.name ∧ contains f.name "Parcelable".toList = false

variable {f : Field}

/-- The statement of a field that is not cast. -/
theorem compile_of_methodContent (tail : Str) (a : Assignment)
    (hbuild : buildStatement f = addStatement f (methodContent f.name tail))
    (hcontains : contains (methodContent f.name tail) "Parcelable".toList =
      contains f.name "Parcelable".toList)
    (hends : endsWith (methodContent f.name tail) ")".toList = true)
    (hparse : parseRest f.name (" = t.getIntent().".toList ++ tail) [.text f.annotationValue] =
      some a) (b : Assignment) :
    compile f = some b ↔ f.Plain ∧ a.hasType f.type = true ∧ a = b := by
  rw [compile, hbuild, addStatement, hcontains, hends, Field.Plain]
  cases contains f.name "Parcelable".toList with
  | true =>
      rw [if_pos rfl]
      dsimp only
      rw [parse_assigned_twice f.isIdentifier]
      simp
  | false =>
      rw [if_neg Bool.false_ne_true, if_pos rfl]
      dsimp only
      rw [parse_methodContent f.isIdentifier]
      by_cases hdollar : '$' ∈ f.name
      · rw [if_pos hdollar]
        simp [hdollar]
      · rw [if_neg hdollar, hparse]
        simp [hdollar, Option.filter_some, and_assoc]

theorem append_methodContent (name tail : Str) :
    "t.".toList ++ name ++ " = t.getIntent().".toList ++ tail = methodContent name tail :=
  List.append_assoc _ _ _

theorem endsWith_methodContent (name tail : Str) :
    endsWith (methodContent name (tail ++ ")".toList)) ")".toList = true := by
  rw [endsWith, List.isSuffixOf_iff_suffix, methodContent, ← List.append_assoc,
    ← List.append_assoc]
  exact List.suffix_append _ _

/-- Around the name there is no other mention of `Parcelable`. -/
theorem contains_methodContent (name tail : Str)
    (htail : contains ("= t.getIntent().".toList ++ tail) "Parcelable".toList =
      contains name "Parcelable".toList ∨
        contains ("= t.getIntent().".toList ++ tail) "Parcelable".toList = false) :
    contains (methodContent name tail) "Parcelable".toList =
      contains name "Parcelable".toList := by
  have hsplit : methodContent name tail =
      "t".toList ++ '.' :: (name ++ ' ' :: ("= t.getIntent().".toList ++ tail)) := rfl
  have hfirst : contains "t".toList "Parcelable".toList = false := by decide
  rw [hsplit, contains_append_cons (by decide), contains_append_cons (by decide), hfirst,
    Bool.false_or]
  rcases htail with htail | htail
  · rw [htail, Bool.or_self]
  · rw [htail, Bool.or_false]

/-- The accessor's default mentions the name once more. -/
theorem contains_default (name accessor : Str)
    (haccessor : contains ("= t.getIntent().".toList ++ (accessor ++ "t".toList))
      "Parcelable".toList = false) :
    contains ("= t.getIntent().".toList ++ (accessor ++ ("t.".toList ++ name) ++ ")".toList))
      "Parcelable".toList = contains name "Parcelable".toList := by
  have hsplit : "= t.getIntent().".toList ++ (accessor ++ ("t.".toList ++ name) ++ ")".toList) =
      ("= t.getIntent().".toList ++ (accessor ++ "t".toList)) ++ '.' :: (name ++ ')' :: []) := by
    simp only [List.append_assoc]
    rfl
  have hlast : contains [] "Parcelable".toList = false := by decide
  rw [hsplit, contains_append_cons (by decide), contains_append_cons (by decide), haccessor, hlast,
    Bool.false_or, Bool.or_false]

/-- An accessor with the field as its default, as one text. -/
theorem append_default (name : Str) {accessor text : Str}
    (h : " = t.getIntent().".toList ++ accessor ++ "t.".toList = text) :
    " = t.getIntent().".toList ++ (accessor ++ ("t.".toList ++ name) ++ ")".toList) =
      text ++ (name ++ ")".toList) := by
  rw [← h]
  simp only [List.append_assoc]

theorem compile_int (hf : f.type = .int) (b : Assignment) :
    compile f = some b ↔ f.Plain ∧ .getIntExtra f.name f.annotationValue = b := by
  have hbuild : buildStatement f = addStatement f (methodContent f.name
      ("getIntExtra($S, ".toList ++ ("t.".toList ++ f.name) ++ ")".toList)) := by
    rw [buildStatement, hf, ← append_methodContent]
  have hparse : parseRest f.name (" = t.getIntent().".toList ++
      ("getIntExtra($S, ".toList ++ ("t.".toList ++ f.name) ++ ")".toList))
      [.text f.annotationValue] = some (.getIntExtra f.name f.annotationValue) := by
    have haccessor : " = t.getIntent().".toList ++ "getIntExtra($S, ".toList ++ "t.".toList =
        " = t.getIntent().getIntExtra($S, t.".toList := by decide
    rw [append_default f.name haccessor, parseRest, List.append_assoc, if_pos rfl]
  rw [compile_of_methodContent _ _ hbuild
    (contains_methodContent _ _ (Or.inl (contains_default _ _ (by decide))))
    (endsWith_methodContent _ _) hparse,
    and_iff_right (show Assignment.hasType _ f.type = true by rw [hf]; rfl)]

theorem compile_boolean (hf : f.type = .boolean) (b : Assignment) :
    compile f = some b ↔ f.Plain ∧ .getBooleanExtra f.name f.annotationValue = b := by
  have hbuild : buildStatement f = addStatement f (methodContent f.name
      ("getBooleanExtra($S, ".toList ++ ("t.".toList ++ f.name) ++ ")".toList)) := by
    rw [buildStatement, hf, ← append_methodContent]
  have hparse : parseRest f.name (" = t.getIntent().".toList ++
      ("getBooleanExtra($S, ".toList ++ ("t.".toList ++ f.name) ++ ")".toList))
      [.text f.annotationValue] = some (.getBooleanExtra f.name f.annotationValue) := by
    have haccessor : " = t.getIntent().".toList ++ "getBooleanExtra($S, ".toList ++ "t.".toList =
        " = t.getIntent().getBooleanExtra($S, t.".toList := by decide
    rw [append_default f.name haccessor, parseRest, List.append_assoc, List.append_assoc,
      if_neg (append_ne_append 21 (by decide) (by decide) (by decide) _ _), if_pos rfl]
  rw [compile_of_methodContent _ _ hbuild
    (contains_methodContent _ _ (Or.inl (contains_default _ _ (by decide))))
    (endsWith_methodContent _ _) hparse,
    and_iff_right (show Assignment.hasType _ f.type = true by rw [hf]; rfl)]

theorem compile_string {type : Str} {isCall : Bool} (hf : f.type = .declared type isCall)
    (htype : equalsIgnoreCase type STRING = true) (b : Assignment) :
    compile f = some b ↔
      f.Plain ∧ type = STRING ∧ .getStringExtra f.name f.annotationValue = b := by
  have htail : "getStringExtra($S)".toList = "getStringExtra($S".toList ++ ")".toList := by decide
  have hbuild : buildStatement f =
      addStatement f (methodContent f.name ("getStringExtra($S".toList ++ ")".toList)) := by
    rw [buildStatement, hf]
    dsimp only
    rw [if_pos htype, append_methodContent, htail]
  have hparse : parseRest f.name (" = t.getIntent().".toList ++
      ("getStringExtra($S".toList ++ ")".toList)) [.text f.annotationValue] =
      some (.getStringExtra f.name f.annotationValue) := by
    have hrest : " = t.getIntent().".toList ++ ("getStringExtra($S".toList ++ ")".toList) =
        " = t.getIntent().getStringExtra($S)".toList := by decide
    have hother : ∀ {text rest : Str}, 21 ≤ text.length →
        " = t.getIntent().getStringExtra($S)".toList.take 21 ≠ text.take 21 →
          " = t.getIntent().getStringExtra($S)".toList ≠ text ++ rest := by
      intro text rest hlength hne
      have hne' := append_ne_append 21 (by decide) hlength hne [] rest
      rwa [List.append_nil] at hne'
    rw [hrest, parseRest, List.append_assoc, List.append_assoc,
      if_neg (hother (by decide) (by decide)), if_neg (hother (by decide) (by decide)), if_pos rfl]
  rw [compile_of_methodContent _ _ hbuild (contains_methodContent _ _ (Or.inr (by decide)))
    (endsWith_methodContent _ _) hparse, hf]
  show f.Plain ∧ decide (type = STRING) = true ∧ _ ↔ _
  rw [decide_eq_true_iff]

/-- The statement of a field that is cast. -/
theorem compile_of_cast {rest : Str} {args : List Arg} {a : Assignment}
    (hbuild : buildStatement f = .ok ⟨"t.".toList ++ f.name ++ ' ' :: rest, args⟩)
    (hparse : parseRest f.name (' ' :: rest) args = some a) (htyped : a.hasType f.type = true)
    (b : Assignment) :
    compile f = some b ↔ (f.assignable = true ∧ '$' ∉ f.name) ∧ a = b := by
  rw [compile, hbuild]
  dsimp only
  rw [parse_assignment f.isIdentifier]
  by_cases hdollar : '$' ∈ f.name
  · rw [if_pos hdollar]
    simp [hdollar]
  · rw [if_neg hdollar, hparse]
    simp only [Option.filter_some, htyped, Bool.and_true, Option.ite_none_right_eq_some,
      Option.some.injEq, hdollar, not_false_iff, and_true]

theorem compile_parcelable {type : Str} (hf : f.type = .declared type false)
    (htype : equalsIgnoreCase type STRING = false) (b : Assignment) :
    compile f = some b ↔
      (f.assignable = true ∧ '$' ∉ f.name) ∧ .getParcelableExtra f.name type f.name = b := by
  have htext : " = ($T)".toList ++ "t.getIntent().getParcelableExtra($S)".toList =
      ' ' :: "= ($T)t.getIntent().getParcelableExtra($S)".toList := by decide
  have hbuild : buildStatement f = .ok ⟨"t.".toList ++ f.name ++
      ' ' :: "= ($T)t.getIntent().getParcelableExtra($S)".toList, [.type type, .text f.name]⟩ := by
    have hcontains : contains "t.getIntent().getParcelableExtra($S)".toList
        "Parcelable".toList = true := by decide
    have htypeName : f.type.typeName = type := by
      rw [hf]
      rfl
    rw [buildStatement, hf]
    dsimp only
    rw [htype, if_neg Bool.false_ne_true, if_neg Bool.false_ne_true, addStatement, hcontains,
      if_pos rfl, List.append_assoc, htext, htypeName]
  have hparse : parseRest f.name (' ' :: "= ($T)t.getIntent().getParcelableExtra($S)".toList)
      [.type type, .text f.name] = some (.getParcelableExtra f.name type f.name) := by
    rw [parseRest]
    exact if_pos (by decide)
  refine compile_of_cast hbuild hparse ?_ b
  rw [hf]
  exact decide_eq_true rfl

theorem compile_call {type : Str} (hf : f.type = .declared type true)
    (htype : equalsIgnoreCase type STRING = false) (b : Assignment) :
    compile f = some b ↔
      (f.assignable = true ∧ '$' ∉ f.name) ∧ .navigation f.name type f.annotationValue = b := by
  have htext : " = ($T)$T.getInstance().build($S).navigation(t)".toList =
      ' ' :: "= ($T)$T.getInstance().build($S).navigation(t)".toList := by decide
  have hbuild : buildStatement f = .ok ⟨"t.".toList ++ f.name ++
      ' ' :: "= ($T)$T.getInstance().build($S).navigation(t)".toList,
      [.type type, .type ROUTER_MANAGER, .text f.annotationValue]⟩ := by
    rw [buildStatement, hf]
    dsimp only
    rw [htype, if_neg Bool.false_ne_true, if_pos rfl, htext]
  have hparse : parseRest f.name
      (' ' :: "= ($T)$T.getInstance().build($S).navigation(t)".toList)
      [.type type, .type ROUTER_MANAGER, .text f.annotationValue] =
      some (.navigation f.name type f.annotationValue) := by
    rw [parseRest]
    exact if_pos htext.symm
  refine compile_of_cast hbuild hparse ?_ b
  rw [hf]
  exact decide_eq_true rfl

/-- A field's statement assigns that field. -/
theorem field_of_compile {a : Assignment} (h : compile f = some a) : a.field = f.name := by
  cases hf : f.type with
  | int =>
      obtain ⟨-, rfl⟩ := (compile_int hf a).mp h
      rfl
  | boolean =>
      obtain ⟨-, rfl⟩ := (compile_boolean hf a).mp h
      rfl
  | declared type isCall =>
      cases htype : equalsIgnoreCase type STRING with
      | true =>
          obtain ⟨-, -, rfl⟩ := (compile_string hf htype a).mp h
          rfl
      | false =>
          cases isCall with
          | true =>
              obtain ⟨-, rfl⟩ := (compile_call hf htype a).mp h
              rfl
          | false =>
              obtain ⟨-, rfl⟩ := (compile_parcelable hf htype a).mp h
              rfl

end Compile

/-! ## When a field receives what it should -/

section Delivery

variable (app : Application) (extras : Bundle) (before : Str → Extra)

/-- The object stored under a key, null where there is none. -/
def storedObject (key : Str) : Option Obj :=
  match extras key with
  | some (.parcelable o) => some o
  | _ => none

/-- Nothing of the field's type is stored under its key. -/
def Field.Absent (f : Field) : Prop :=
  ∀ v, extras f.annotationValue = some v → f.admits app v = false

/-- The reference `o`, got for a field of class `type`, is of that class, and is stored
under the field's key too; or nothing of the class is stored there, and the field holds
`o` already. -/
def Due (f : Field) (type : Str) : Option Obj → Prop
  | some o =>
    app.instanceOf o.className type = true ∧
      (extras f.annotationValue = some (.parcelable o) ∨
        f.Absent app extras ∧ before f.name = .parcelable o)
  | none =>
    extras f.annotationValue = some .null ∨ f.Absent app extras ∧ before f.name = .null

/-- The exact condition on a field and the extras.  A String needs its extra, or was
null before; a Parcelable needs the same reference under its own name and under its
key; a Call that is also Parcelable needs the router to return that of its key. -/
def Injectable (f : Field) : Prop :=
  match f.type with
  | .int => f.Plain
  | .boolean => f.Plain
  | .declared type isCall =>
    if equalsIgnoreCase type STRING then
      f.Plain ∧ type = STRING ∧
        ((∃ v, extras f.annotationValue = some v ∧ f.admits app v = true) ∨
          before f.name = .null)
    else if isCall then
      (f.assignable = true ∧ '$' ∉ f.name) ∧
        ∃ o, app.route f.name f.annotationValue = .ok o ∧ Due app extras before f type o
    else
      (f.assignable = true ∧ '$' ∉ f.name) ∧
        Due app extras before f type (storedObject extras f.name)

variable {app extras before} {f : Field}

theorem evaluate_int (hf : f.type = .int) :
    evaluate app extras before (.getIntExtra f.name f.annotationValue) =
      .ok (wanted app extras before f) := by
  rw [evaluate, wanted]
  cases extras f.annotationValue with
  | none => rfl
  | some v => cases v <;> simp [Field.admits, hf]

theorem evaluate_boolean (hf : f.type = .boolean) :
    evaluate app extras before (.getBooleanExtra f.name f.annotationValue) =
      .ok (wanted app extras before f) := by
  rw [evaluate, wanted]
  cases extras f.annotationValue with
  | none => rfl
  | some v => cases v <;> simp [Field.admits, hf]

/-- `getStringExtra` writes null where nothing of its type is stored. -/
theorem evaluate_string {isCall : Bool} (hf : f.type = .declared STRING isCall) :
    evaluate app extras before (.getStringExtra f.name f.annotationValue) =
        .ok (wanted app extras before f) ↔
      (∃ v, extras f.annotationValue = some v ∧ f.admits app v = true) ∨
        before f.name = .null := by
  have hnull : Extra.null = before f.name ↔ before f.name = .null := eq_comm
  rw [evaluate, wanted]
  cases extras f.annotationValue with
  | none => simp [hnull]
  | some v => cases v <;> simp [Field.admits, hf, hnull]

theorem evaluate_parcelable (type : Str) :
    evaluate app extras before (.getParcelableExtra f.name type f.name) =
      app.cast type (storedObject extras f.name) := by
  rw [evaluate, storedObject]
  cases extras f.name with
  | none => rfl
  | some v => cases v <;> rfl

theorem evaluate_call {type : Str} {w : Extra} :
    evaluate app extras before (.navigation f.name type f.annotationValue) = .ok w ↔
      ∃ o, app.route f.name f.annotationValue = .ok o ∧ app.cast type o = .ok w := by
  rw [evaluate]
  exact bind_eq_ok_iff

/-- A value of the field's type is wanted when it is stored under the key, or was there
before and nothing of the type is stored. -/
theorem wanted_eq_iff {w : Extra} (hw : f.admits app w = true) :
    wanted app extras before f = w ↔
      extras f.annotationValue = some w ∨ f.Absent app extras ∧ before f.name = w := by
  rw [wanted, Field.Absent]
  cases hstored : extras f.annotationValue with
  | none => simp
  | some v =>
      cases hadmits : f.admits app v with
      | true => simp [hadmits]
      | false =>
          have hne : v ≠ w := by
            rintro rfl
            rw [hadmits] at hw
            cases hw
          simp [hadmits, hne]

/-- The cast of a reference is what the field should get. -/
theorem cast_eq_wanted_iff {type : Str} {isCall : Bool} (hf : f.type = .declared type isCall)
    (htype : equalsIgnoreCase type STRING = false) {o : Option Obj} :
    app.cast type o = .ok (wanted app extras before f) ↔ Due app extras before f type o := by
  have hclass : type ≠ STRING := by
    rintro rfl
    rw [equalsIgnoreCase, decide_eq_true rfl] at htype
    cases htype
  cases o with
  | none =>
      have hnull : f.admits app .null = true := by simp [Field.admits, hf]
      rw [Application.cast, Except.ok.injEq, eq_comm, wanted_eq_iff hnull]
      rfl
  | some o =>
      rw [Application.cast, Due]
      cases hinstance : app.instanceOf o.className type with
      | false => simp
      | true =>
          have hadmits : f.admits app (.parcelable o) = true := by
            simp [Field.admits, hf, hclass, hinstance]
          rw [if_pos rfl, Except.ok.injEq, eq_comm, wanted_eq_iff hadmits, and_iff_right rfl]

/-- The statement of a field compiles and computes what the field should get. -/
theorem injectable_iff :
    Injectable app extras before f ↔
      ∃ a, compile f = some a ∧
        evaluate app extras before a = .ok (wanted app extras before f) := by
  rw [Injectable]
  cases hf : f.type with
  | int => simp only [compile_int hf, and_assoc, exists_and_left, exists_eq_left', evaluate_int hf,
      and_true]
  | boolean => simp only [compile_boolean hf, and_assoc, exists_and_left, exists_eq_left',
      evaluate_boolean hf, and_true]
  | declared type isCall =>
      dsimp only
      cases htype : equalsIgnoreCase type STRING with
      | true =>
          simp only [compile_string hf htype, and_assoc, exists_and_left, exists_eq_left', if_true]
          apply and_congr_right'
          apply and_congr_right
          intro hstring
          subst hstring
          exact (evaluate_string hf).symm
      | false =>
          cases isCall with
          | true =>
              simp only [compile_call hf htype, and_assoc, exists_and_left, exists_eq_left',
                evaluate_call, cast_eq_wanted_iff hf htype, Bool.false_eq_true, if_true, if_false]
          | false =>
              simp only [compile_parcelable hf htype, and_assoc, exists_and_left, exists_eq_left',
                evaluate_parcelable, cast_eq_wanted_iff hf htype, Bool.false_eq_true, if_false]

end Delivery

theorem map_field_filterMap {annotated : List Field}
    (h : ∀ f ∈ annotated, ∃ a, compile f = some a) :
    (annotated.filterMap compile).map Assignment.field = annotated.map Field.name := by
  induction annotated with
  | nil => rfl
  | cons f annotated ih =>
      obtain ⟨a, ha⟩ := h f List.mem_cons_self
      rw [List.filterMap_cons_some ha, List.map_cons, List.map_cons, field_of_compile ha,
        ih fun g hg => h g (List.mem_cons_of_mem _ hg)]

theorem find?_name_of_mem {annotated : List Field} (hnames : (annotated.map Field.name).Nodup)
    {f : Field} (hf : f ∈ annotated) : annotated.find? (·.name = f.name) = some f := by
  cases hfind : annotated.find? (·.name = f.name) with
  | none => exact absurd (decide_eq_true rfl) (List.find?_eq_none.mp hfind f hf)
  | some g =>
      have hfound := List.find?_some hfind
      have hname : g.name = f.name := of_decide_eq_true hfound
      rw [List.inj_on_of_nodup_map hnames (List.mem_of_find?_eq_some hfind) hf hname]

section Method

variable {app : Application} {extras : Bundle} {annotated : List Field} {before : Str → Extra}

theorem getParameter_of_compiles (h : ∀ f ∈ annotated, ∃ a, compile f = some a) :
    getParameter app extras annotated before =
      some (runStatements app extras annotated before) := by
  apply if_pos
  rw [List.all_eq_true]
  exact fun f hf => Option.isSome_iff_exists.mpr (h f hf)

/-- A class with a statement that is not Java has no generated method. -/
theorem getParameter_of_not_compiles (h : ¬ ∀ f ∈ annotated, ∃ a, compile f = some a) :
    getParameter app extras annotated before = none := by
  apply if_neg
  intro hall
  rw [List.all_eq_true] at hall
  exact h fun f hf => Option.isSome_iff_exists.mp (hall f hf)

variable (app extras annotated before) in
/-- The fields after a delivery: the wanted value where annotated. -/
def delivered (name : Str) : Extra :=
  match annotated.find? (·.name = name) with
  | some f => wanted app extras before f
  | none => before name

theorem delivered_of_mem (hnames : (annotated.map Field.name).Nodup) {f : Field}
    (hf : f ∈ annotated) :
    delivered app extras annotated before f.name = wanted app extras before f := by
  rw [delivered, find?_name_of_mem hnames hf]

theorem delivered_of_notMem {name : Str} (hname : name ∉ annotated.map Field.name) :
    delivered app extras annotated before name = before name := by
  have hnone : annotated.find? (·.name = name) = none := by
    rw [List.find?_eq_none]
    intro f hf heq
    exact hname (List.mem_map.mpr ⟨f, hf, of_decide_eq_true heq⟩)
  rw [delivered, hnone]

end Method

/-- The generated method delivers exactly when every annotated field is injectable. -/
theorem delivers_iff (app : Application) (extras : Bundle) (annotated : List Field)
    (hnames : (annotated.map Field.name).Nodup) (before : Str → Extra) :
    Delivers app extras annotated before ↔
      ∀ f ∈ annotated, Injectable app extras before f := by
  simp only [injectable_iff]
  have hmem : ∀ a, a ∈ annotated.filterMap compile ↔ ∃ f ∈ annotated, compile f = some a :=
    fun a => List.mem_filterMap
  by_cases hcompiles : ∀ f ∈ annotated, ∃ a, compile f = some a
  · have hfields : (annotated.filterMap compile).map Assignment.field =
        annotated.map Field.name := map_field_filterMap hcompiles
    rw [Delivers]
    simp only [getParameter_of_compiles hcompiles, Option.some.injEq, runStatements,
      foldlM_execute_eq_ok_iff (hfields ▸ hnames), hfields]
    constructor
    · rintro ⟨after, ⟨hassigned, -⟩, hwanted, -⟩ f hf
      obtain ⟨a, ha⟩ := hcompiles f hf
      refine ⟨a, ha, ?_⟩
      rw [hassigned a ((hmem a).mpr ⟨f, hf, ha⟩), field_of_compile ha, hwanted f hf]
    · intro h
      have hother := fun name => @delivered_of_notMem app extras annotated before name
      refine ⟨delivered app extras annotated before, ⟨fun a ha => ?_, hother⟩,
        fun f => delivered_of_mem hnames, hother⟩
      obtain ⟨f, hf, hcompile⟩ := (hmem a).mp ha
      obtain ⟨a', ha', hvalue⟩ := h f hf
      obtain rfl : a' = a := Option.some.inj (ha'.symm.trans hcompile)
      rw [hvalue, field_of_compile hcompile, delivered_of_mem hnames hf]
  · constructor
    · rintro ⟨after, hsome, -⟩
      rw [getParameter_of_not_compiles hcompiles] at hsome
      cases hsome
    · intro h
      exact absurd (fun f hf => (h f hf).imp fun _ ha => ha.1) hcompiles

/-- An application without routes, in which no class extends another. -/
def plainApplication : Application where
  instanceOf := fun c c' => c = c'
  route := fun _ _ => .ok none

/-- `@Parameter(name = "years") int age`. -/
def ageField : Field where
  name := "age".toList
  isIdentifier := ⟨by decide, by simp⟩
  type := .int
  annotation := "years".toList

/-- `@Parameter String nick`. -/
def nickField : Field where
  name := "nick".toList
  isIdentifier := ⟨by decide, by simp⟩
  type := .declared STRING false

/-- `@Parameter UserInfo info`, of a Parcelable class. -/
def infoField : Field where
  name := "info".toList
  isIdentifier := ⟨by decide, by simp⟩
  type := .declared "UserInfo".toList false

/-- An object of that class. -/
def userInfo : Obj := ⟨"UserInfo".toList, 1⟩

/-- The fields were given, the first under its annotation, the others under their names. -/
theorem delivers_three :
    Delivers plainApplication
      (putAll .empty [.withInt "years".toList 3, .withString "nick".toList (some "Bo".toList),
        .withParcelable "info".toList (some userInfo)])
      [ageField, nickField, infoField] fun _ => .string "unset".toList := by
  apply (delivers_iff _ _ _ (by decide) _).mpr
  intro f hf
  rw [List.mem_cons, List.mem_cons, List.mem_singleton] at hf
  rcases hf with rfl | rfl | rfl
  · exact ⟨rfl, by decide, by decide⟩
  · exact ⟨⟨rfl, by decide, by decide⟩, rfl, Or.inl ⟨.string "Bo".toList, rfl, by decide⟩⟩
  · exact ⟨⟨rfl, by decide⟩, by decide, Or.inl rfl⟩

/-- A String field whose extra is absent loses the value it had. -/
theorem not_delivers_absent_string :
    ¬ ∀ (app : Application) (extras : Bundle) (annotated : List Field) (before : Str → Extra),
        (annotated.map Field.name).Nodup → Delivers app extras annotated before := by
  intro hlaw
  obtain ⟨after, hrun, hwanted, -⟩ := hlaw plainApplication .empty [nickField]
    (fun _ => .string "unset".toList) (by decide)
  have hnull : getParameter plainApplication .empty [nickField] (fun _ => .string "unset".toList) =
      some (.ok (Function.update (fun _ => .string "unset".toList) nickField.name .null)) := rfl
  obtain rfl := Except.ok.inj (Option.some.inj (hnull.symm.trans hrun))
  have hkept := hwanted nickField List.mem_cons_self
  rw [Function.update_self] at hkept
  cases hkept

end StudyNotes.Parameter
