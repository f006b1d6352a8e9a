import ViewBridge.Classes.TypeHint
import ViewBridge.Literal.Basic
import ViewBridge.Source.Span

namespace ViewBridge.Classes

/-- The part of a dotted name behind its last dot. -/
def lastSegment (name : String) : String :=
  String.ofList ((Text.runs (· ≠ '.') name.toList).getLast?.getD [])

/-- A decorator, without its arguments. -/
structure Decorator where
  name : String
  hasArgs : Bool
  span : Span
  deriving DecidableEq

structure Field where
  name : String
  hint : Option TypeHint
  default : Option Literal
  span : Span
  /-- The whole declaration, from the name to its last token. -/
  extent : Span

structure Param where
  name : String
  hint : Option TypeHint
  span : Span

structure Method where
  name : String
  /-- The parameters without the receiver. -/
  params : List Param
  returns : Option TypeHint
  decorators : List Decorator
  isStatic : Bool
  isConstructor : Bool
  span : Span
  /-- The whole definition, from its first decorator to the last token of its body. -/
  extent : Span

structure ClassDef where
  name : String
  bases : List String
  decorators : List Decorator
  fields : List Field
  methods : List Method
  span : Span

/-- The classes that a text declares. -/
structure Module where
  classes : List ClassDef

namespace Decorator

def lastSegment (d : Decorator) : String := Classes.lastSegment d.name

/-- Whether the decorator makes a method the setter of a property. -/
def isSetter (d : Decorator) : Bool := d.name.toList.contains '.' && d.lastSegment == "setter"

end Decorator

namespace Method

def hasDecorator (m : Method) (name : String) : Bool := m.decorators.any (·.name == name)

def isProperty (m : Method) : Bool := m.hasDecorator "property"

def isSetter (m : Method) : Bool := m.decorators.any (·.isSetter)

def isClassMethod (m : Method) : Bool := m.hasDecorator "classmethod"

/-- Whether the method reads or writes a property. -/
def isAccessor (m : Method) : Bool := m.isProperty || m.isSetter

end Method

namespace ClassDef

def constructor? (c : ClassDef) : Option Method := c.methods.find? (·.isConstructor)

def field? (c : ClassDef) (name : String) : Option Field := c.fields.find? (·.name == name)

end ClassDef

def Module.nodeCount (m : Module) : Nat :=
  (m.classes.map fun c => 1 + c.fields.length + c.methods.length).foldr (· + ·) 0

end ViewBridge.Classes
