/-
# Generated parameter code (`ParameterFactory`)

For every annotated field `buildStatement` glues the text of one assignment and
hands it, with its arguments, to JavaPoet.  The text decides everything: which
accessor reads the Intent, which of two strings is the key, and whether the
result is Java at all.  `compile` reads a text back as the assignment it denotes,
and `evaluate` runs that assignment against the extras of the Intent.
-/

import StudyNotes.Router.Intent
import StudyNotes.Router.RouterBean

namespace StudyNotes.Parameter

open StudyNotes.Text StudyNotes.Router

/-! ## Annotated fields -/

/-- A Java name has no blank and no punctuation in it.  A dollar sign is allowed. -/
def IsIdentifier (name : Str) : Prop :=
  name ≠ [] ∧ ∀ c ∈ name, c ∉ [' ', '.', ',', '(', ')', '=']

/-- The declared type of a field: a primitive one, or a class by its full name,
with what the processor asks about it. -/
inductive FieldType
  | int
  | boolean
  | declared (name : Str) (isCall : Bool)
  deriving DecidableEq

/-- The name JavaPoet prints for a type. -/
def FieldType.typeName : FieldType → Str
  | .int => "int".toList
  | .boolean => "boolean".toList
  | .declared name _ => name

/-- A field annotated with `@Parameter(name)`.  It is assignable from the generated
class when it is neither private nor final. -/
structure Field where
  name : Str
  isIdentifier : IsIdentifier name
  type : FieldType
  annotation : Str := []
  assignable : Bool := true

/-- The annotation's value, or the field's name where it is empty. -/
def Field.annotationValue (f : Field) : Str :=
  if f.annotation.isEmpty then f.name else f.annotation

/-! ## Building the statements -/

/-- `ProcessorConfig.STRING`. -/
def STRING : Str := "java.lang.String".toList

/-- The class of `RouterManager`. -/
def ROUTER_MANAGER : Str := "com.jessi.arouter_api_java.RouterManager".toList

/-- `s.equalsIgnoreCase(t)` on ASCII texts. -/
def equalsIgnoreCase (s t : Str) : Bool := s.map Char.toLower = t.map Char.toLower

/-- An argument of `addStatement`: a type for `$T`, a text for `$S`. -/
inductive Arg
  | type (name : Str)
  | text (value : Str)
  deriving DecidableEq

/-- A call of `method.addStatement`. -/
structure Statement where
  format : Str
  args : List Arg

/-- The last part of `buildStatement`: a text that mentions `Parcelable` is cast and
reads the field's name, one that ends in a bracket reads the annotation's value. -/
def addStatement (f : Field) (methodContent : Str) : Except String Statement :=
  if contains methodContent "Parcelable".toList then
    .ok ⟨"t.".toList ++ f.name ++ " = ($T)".toList ++ methodContent,
      [.type f.type.typeName, .text f.name]⟩
  else if endsWith methodContent ")".toList then .ok ⟨methodContent, [.text f.annotationValue]⟩
  else .error "目前暂支持String、int、boolean传参"

/-- `ParameterFactory.buildStatement`. -/
def buildStatement (f : Field) : Except String Statement :=
  let finalValue := "t.".toList ++ f.name
  let methodContent := finalValue ++ " = t.getIntent().".toList
  match f.type with
  | .int => addStatement f (methodContent ++ ("getIntExtra($S, ".toList ++ finalValue ++ ")".toList))
  | .boolean =>
    addStatement f (methodContent ++ ("getBooleanExtra($S, ".toList ++ finalValue ++ ")".toList))
  | .declared type isCall =>
    if equalsIgnoreCase type STRING then
      addStatement f (methodContent ++ "getStringExtra($S)".toList)
    else if isCall then
      .ok ⟨finalValue ++ " = ($T)$T.getInstance().build($S).navigation(t)".toList,
        [.type type, .type ROUTER_MANAGER, .text f.annotationValue]⟩
    else addStatement f "t.getIntent().getParcelableExtra($S)".toList

/-! ## What a statement means -/

/-- An assignment to a field of `t`. -/
inductive Assignment
  | getIntExtra (field key : Str)
  | getBooleanExtra (field key : Str)
  | getStringExtra (field key : Str)
  | getParcelableExtra (field cast key : Str)
  | navigation (field cast path : Str)
  deriving DecidableEq

/-- The field an assignment writes. -/
def Assignment.field : Assignment → Str
  | .getIntExtra field _ => field
  | .getBooleanExtra field _ => field
  | .getStringExtra field _ => field
  | .getParcelableExtra field _ _ => field
  | .navigation field _ _ => field

/-- The right-hand side of an assignment to `t.name`, as Java reads it.  A text of
any other form is not Java. -/
def parseRest (name rest : Str) : List Arg → Option Assignment
  | [.text key] =>
    if rest = " = t.getIntent().getIntExtra($S, t.".toList ++ name ++ ")".toList then
      some (.getIntExtra name key)
    else if rest = " = t.getIntent().getBooleanExtra($S, t.".toList ++ name ++ ")".toList then
      some (.getBooleanExtra name key)
    else if rest = " = t.getIntent().getStringExtra($S)".toList then
      some (.getStringExtra name key)
    else none
  | [.type cast, .text key] =>
    if rest = " = ($T)t.getIntent().getParcelableExtra($S)".toList then
      some (.getParcelableExtra name cast key)
    else none
  | [.type cast, .type _, .text path] =>
    if rest = " = ($T)$T.getInstance().build($S).navigation(t)".toList then
      some (.navigation name cast path)
    else none
  | _ => none

/-- The assignment a statement denotes.  JavaPoet takes a dollar sign in the name
for a placeholder, so the statement is refused or names another variable. -/
def parse (s : Statement) : Option Assignment :=
  match s.format with
  | 't' :: '.' :: text =>
    let name := text.takeWhile (· ≠ ' ')
    if '$' ∈ name then none else parseRest name (text.dropWhile (· ≠ ' ')) s.args
  | _ => none

/-- The type of the right-hand side is that of the field. -/
def Assignment.hasType : Assignment → FieldType → Bool
  | .getIntExtra _ _, type => type = .int
  | .getBooleanExtra _ _, type => type = .boolean
  | .getStringExtra _ _, type => type.typeName = STRING
  | .getParcelableExtra _ cast _, type => type.typeName = cast
  | .navigation _ cast _, type => type.typeName = cast

/-- The statement generated for a field, if the compiler accepts it. -/
def compile (f : Field) : Option Assignment :=
  match buildStatement f with
  | .error _ => none
  | .ok statement => (parse statement).filter fun a => f.assignable && a.hasType f.type

/-- The class hierarchy, and what `RouterManager.getInstance().build(path)
.navigation(t)` returns or throws when it is run for a field. -/
structure Application where
  instanceOf : Str → Str → Bool
  route : Str → Str → Except JavaException (Option Obj)

/-- A checked cast of a reference. -/
def Application.cast (app : Application) (type : Str) : Option Obj → Except JavaException Extra
  | none => .ok .null
  | some o => if app.instanceOf o.className type then .ok (.parcelable o) else .error .classCast

/-- The value of a right-hand side: the accessors of `Intent` return their default,
or null, where nothing of their type is stored. -/
def evaluate (app : Application) (extras : Bundle) (fields : Str → Extra) :
    Assignment → Except JavaException Extra
  | .getIntExtra field key =>
    match extras key with
    | some (.int v) => .ok (.int v)
    | _ => .ok (fields field)
  | .getBooleanExtra field key =>
    match extras key with
    | some (.boolean v) => .ok (.boolean v)
    | _ => .ok (fields field)
  | .getStringExtra _ key =>
    match extras key with
    | some (.string v) => .ok (.string v)
    | _ => .ok .null
  | .getParcelableExtra _ cast key =>
    match extras key with
    | some (.parcelable o) => app.cast cast (some o)
    | _ => .ok .null
  | .navigation field cast path => do app.cast cast (← app.route field path)

/-- Running one assignment. -/
def execute (app : Application) (extras : Bundle) (fields : Str → Extra) (a : Assignment) :
    Except JavaException (Str → Extra) := do
  .ok (Function.update fields a.field (← evaluate app extras fields a))

/-- The body of a generated method. -/
def runStatements (app : Application) (extras : Bundle) (annotated : List Field)
    (fields : Str → Extra) : Except JavaException (Str → Extra) :=
  (annotated.filterMap compile).foldlM (execute app extras) fields

/-- The generated `getParameter` of a class, `none` where the compiler refuses it. -/
def getParameter (app : Application) (extras : Bundle) (annotated : List Field)
    (fields : Str → Extra) : Option (Except JavaException (Str → Extra)) :=
  if annotated.all fun f => (compile f).isSome then
    some (runStatements app extras annotated fields)
  else none

end StudyNotes.Parameter
