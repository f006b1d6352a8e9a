import ViewBridge.Text.Outline
import ViewBridge.Types.Descriptor

namespace ViewBridge.Model

open Text (Outline)

/-- The classes of observable properties, in the order of their names. -/
inductive PropertyKind where
  | boolean
  | dict
  | list
  | numeric
  | object
  | string
  deriving DecidableEq

namespace PropertyKind

def all : List PropertyKind := [.boolean, .dict, .list, .numeric, .object, .string]

def className : PropertyKind → String
  | .boolean => "BooleanProperty"
  | .dict => "DictProperty"
  | .list => "ListProperty"
  | .numeric => "NumericProperty"
  | .object => "ObjectProperty"
  | .string => "StringProperty"

/-- The class for values of a type; an optional one is as the type inside it. -/
def ofType : Descriptor → PropertyKind
  | .scalar name =>
    if name = "String" ∨ name = "Substring" then .string
    else if name = "Bool" then .boolean
    else if name = "Int" ∨ name = "Double" ∨ name = "Float" ∨ name = "CGFloat" then .numeric
    else .object
  | .list _ | .set _ => .list
  | .dict _ _ => .dict
  | .optional inner => ofType inner
  | .tuple _ | .generic _ _ | .unknown => .object

/-- The text of the first value where the source gives none. -/
def defaultText (kind : PropertyKind) (type : Descriptor) : String :=
  match type, kind with
  | .optional _, _ => "None"
  | _, .string => "''"
  | .scalar "Int", .numeric => "0"
  | _, .numeric => "0.0"
  | _, .boolean => "False"
  | _, .list => "[]"
  | _, .dict => "\x7b\x7d"
  | _, .object => "None"

end PropertyKind

/-- A member of a generated class. -/
inductive Member where
  | property (name : String) (kind : PropertyKind) (default : String) (allowNone : Bool)
  | hint (name type : String)
  | method (signature : String) (body : List String)
  /-- Lines copied from the source, without the indentation they had there. -/
  | source (lines : List String)

structure ModelClass where
  name : String
  base : String
  members : List Member

structure Module where
  classes : List ModelClass

/-- Whether a text occurs in another one. -/
def occursIn (part : List Char) : List Char → Bool
  | [] => part.isEmpty
  | c :: cs => part.isPrefixOf (c :: cs) || occursIn part cs

namespace Member

/-- Whether a member makes a property of a kind, by itself or in copied source. -/
def uses (kind : PropertyKind) : Member → Bool
  | .property _ k _ _ => k == kind
  | .source lines => lines.any fun line => occursIn (kind.className ++ "(").toList line.toList
  | .hint _ _ | .method _ _ => false

/-- The lines of a member, one level inside its class. An object property takes no value at all
times, so it need not say so. -/
def outline : Member → Outline
  | .property name kind default allowNone =>
    let extra := if allowNone && kind != .object then ", allownone=True" else ""
    [.line 1 (name ++ " = " ++ kind.className ++ "(" ++ default ++ extra ++ ")")]
  | .hint name type => [.line 1 (name ++ ": " ++ type)]
  | .method signature body => .line 1 signature :: body.map (.line 2)
  | .source lines => lines.map fun line => if line.isEmpty then .empty else .line 1 line

end Member

def ModelClass.outline (c : ModelClass) : Outline :=
  .empty :: .empty :: .line 0 ("class " ++ c.name ++ "(" ++ c.base ++ "):") ::
    if c.members.isEmpty then [.line 1 "pass"] else c.members.flatMap (.empty :: ·.outline)

namespace Module

def usesBase (m : Module) (base : String) : Bool := m.classes.any (·.base == base)

/-- The classes of properties that a module makes. -/
def propertyKinds (m : Module) : List PropertyKind :=
  PropertyKind.all.filter fun kind => m.classes.any (·.members.any (·.uses kind))

def importLines (m : Module) : List String :=
  (if m.usesBase "EventDispatcher" then ["from kivy.event import EventDispatcher"] else []) ++
    (if m.propertyKinds.isEmpty then []
      else ["from kivy.properties import " ++
        ", ".intercalate (m.propertyKinds.map (·.className))]) ++
    if m.usesBase "Widget" then ["from kivy.uix.widget import Widget"] else []

def outline (m : Module) : Outline :=
  if m.classes.isEmpty then [] else m.importLines.map (.line 0) ++ m.classes.flatMap (·.outline)

/-- The text of a module, `width` spaces to a level. -/
def render (m : Module) (width : Nat) : String := m.outline.render width

end Module

end ViewBridge.Model
