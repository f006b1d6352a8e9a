import ViewBridge.Literal.Spelling
import ViewBridge.Model.Module
import ViewBridge.Text.Blank
import ViewBridge.Types.Mapping

namespace ViewBridge.Model

open Classes (ClassDef Field)

/-- A copied line without up to `margin` blanks at its start and without the blanks at its end. -/
def dedentLine (margin : Nat) (line : List Char) : List Char :=
  let leading := (line.takeWhile Text.isBlank).length
  Text.trimEnd (line.drop (min leading margin))

/-- The lines of a stretch of source, as if it stood at the start of its first line. -/
def sourceLines (source : String) (extent : Span) : List String :=
  match Text.lines (extent.text source).toList with
  | [] => []
  | first :: others =>
    String.ofList (Text.trimEnd first) ::
      others.map fun line => String.ofList (dedentLine (extent.column - 1) line)

mutual

/-- Whether a value is made of literals alone. -/
def isPlain : Literal → Bool
  | .string _ | .integer _ | .float _ | .bool _ => true
  | .list items | .tuple items => allPlain items
  | .name _ | .call _ _ | .expression _ => false

def allPlain : List Literal → Bool
  | [] => true
  | v :: vs => isPlain v && allPlain vs

end

def isNone : Option Literal → Bool
  | some (.name text) => text == "None"
  | _ => false

/-- The type of the property that a field becomes; other fields are copied as they are. -/
def propertyType? (f : Field) : Option Descriptor :=
  match f.hint, f.default with
  | some hint, _ => some (TypeTable.builtin.map hint)
  | none, some value =>
    if isPlain value then some (TypeTable.builtin.infer value)
    else if isNone (some value) then some .unknown
    else none
  | none, none => none

def isOptional : Descriptor → Bool
  | .optional _ => true
  | _ => false

/-- The text of a value in a generated class. -/
def literalText : Literal → String
  | .string text => Literal.quote text
  | .integer i => toString i.toInt
  | .float f => Literal.floatText f
  | .bool true => "True"
  | .bool false => "False"
  | .name text => text
  | .list items => "[" ++ ", ".intercalate (texts items) ++ "]"
  | .tuple items =>
    "(" ++ ", ".intercalate (texts items) ++ if items.length = 1 then ",)" else ")"
  | .call callee args => callee ++ "(" ++ ", ".intercalate (texts args) ++ ")"
  | .expression text => text
where
  texts : List Literal → List String
    | [] => []
    | v :: vs => literalText v :: texts vs

mutual

/-- A value has one text, inside other values of a document and in a generated class. -/
theorem literalText_eq_spelled (v : Literal) : literalText v = v.spelled := by
  match v with
  | .string _ | .integer _ | .float _ | .bool true | .bool false | .name _ | .expression _ => rfl
  | .list items | .call _ items =>
    rw [literalText, Literal.spelled, texts_eq_map items, Literal.spelled.joined_eq]
  | .tuple [] => rfl
  | .tuple [item] =>
    simp [literalText, literalText.texts, Literal.spelled, literalText_eq_spelled item]
  | .tuple (first :: second :: items) =>
    rw [literalText, Literal.spelled, texts_eq_map (first :: second :: items),
      Literal.spelled.joined_eq]
    · simp
    · simp

theorem texts_eq_map (vs : List Literal) : literalText.texts vs = vs.map (·.spelled) := by
  match vs with
  | [] => rfl
  | v :: vs => rw [literalText.texts, List.map_cons, literalText_eq_spelled v, texts_eq_map vs]

end

def fieldMember (source : String) (f : Field) : Member :=
  match propertyType? f with
  | none => .source (sourceLines source f.extent)
  | some type =>
    let kind := PropertyKind.ofType type
    .property f.name kind ((f.default.map literalText).getD (kind.defaultText type))
      (isNone f.default || isOptional type)

def dataName (c : ClassDef) : String := c.name ++ "Data"

/-- The class that holds the fields as observable properties, and the methods of the source. -/
def dataClass (source : String) (c : ClassDef) : ModelClass :=
  { name := dataName c
    base := "EventDispatcher"
    members := c.fields.map (fieldMember source) ++
      (c.methods.filter fun m => !m.isAccessor).map fun m => .source (sourceLines source m.extent) }

/-- The widget that carries the data. -/
def widgetClass (c : ClassDef) : ModelClass :=
  { name := c.name
    base := (c.bases.find? (· != "object")).getD "Widget"
    members := [.hint "data" (dataName c),
      .method ("def __init__(self, data: " ++ dataName c ++ ", **kwargs):")
        ["super().__init__(**kwargs)", "self.data = data"]] }

/-- The generated module: for each class the one that holds its data and the widget. -/
def ofModule (source : String) (m : Classes.Module) : Module :=
  { classes := m.classes.flatMap fun c => [dataClass source c, widgetClass c] }

end ViewBridge.Model
