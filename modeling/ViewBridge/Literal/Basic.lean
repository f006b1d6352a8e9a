import ViewBridge.Text.Lines
import ViewBridge.Text.Word

namespace ViewBridge

/-- A value written in a source text: a property value of the markup or a default of a field. -/
inductive Literal where
  | string (text : String)
  | integer (i : Int64)
  | float (f : Float)
  | bool (b : Bool)
  /-- A bare name, with its dots. -/
  | name (text : String)
  | list (items : List Literal)
  | tuple (items : List Literal)
  | call (callee : String) (args : List Literal)
  /-- Any other expression, as text. -/
  | expression (text : String)
  deriving Inhabited

inductive LiteralKind where
  | string
  | integer
  | float
  | bool
  | name
  | list
  | tuple
  | call
  | expression
  deriving DecidableEq

namespace Literal

/-- The value of a bare name; the two truth values are not names. -/
def ofName (text : String) : Literal :=
  if text = "True" then .bool true else if text = "False" then .bool false else .name text

def kind : Literal → LiteralKind
  | .string _ => .string
  | .integer _ => .integer
  | .float _ => .float
  | .bool _ => .bool
  | .name _ => .name
  | .list _ => .list
  | .tuple _ => .tuple
  | .call _ _ => .call
  | .expression _ => .expression

def text? : Literal → Option String
  | .string text | .name text => some text
  | _ => none

def number? : Literal → Option Float
  | .integer i => some i.toFloat
  | .float f => some f
  | _ => none

def isNumber : Literal → Bool
  | .integer _ | .float _ => true
  | _ => false

def items? : Literal → Option (List Literal)
  | .list items | .tuple items => some items
  | _ => none

/-- Whether a name reaches into the running program. -/
def isDynamicName (cs : List Char) : Bool :=
  ["self.".toList, "root.".toList, "app.".toList].any (·.isPrefixOf cs)

def isNameOrDot (c : Char) : Bool := Text.isNamePart c || c == '.'

/-- Whether a value refers to the state of the running program. -/
def isDynamic : Literal → Bool
  | .name text => isDynamicName text.toList
  | .list items | .tuple items => anyDynamic items
  | .call callee args => isDynamicName callee.toList || anyDynamic args
  | .expression text => (Text.runs isNameOrDot text.toList).any isDynamicName
  | .string _ | .integer _ | .float _ | .bool _ => false
where
  anyDynamic : List Literal → Bool
    | [] => false
    | item :: items => item.isDynamic || anyDynamic items

/-- The kind of an item in a sequence, where both sorts of number count as one. -/
def sequenceKind (value : Literal) : LiteralKind :=
  match value.kind with
  | .integer => .float
  | kind => kind

def isHomogeneous : List Literal → Bool
  | [] => true
  | first :: items => items.all (·.sequenceKind == first.sequenceKind)

/-- Equality of values as the program sees it: numbers are compared as numbers, so a number that is
undefined differs from itself. -/
def same : Literal → Literal → Bool
  | .string a, .string b => a == b
  | .integer a, .integer b => a == b
  | .float a, .float b => a == b
  | .bool a, .bool b => a == b
  | .name a, .name b => a == b
  | .list a, .list b => allSame a b
  | .tuple a, .tuple b => allSame a b
  | .call f a, .call g b => f == g && allSame a b
  | .expression a, .expression b => a == b
  | _, _ => false
where
  allSame : List Literal → List Literal → Bool
    | [], [] => true
    | a :: as, b :: bs => a.same b && allSame as bs
    | _, _ => false

end Literal

end ViewBridge
