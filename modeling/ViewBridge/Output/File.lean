import ViewBridge.Output.View
import ViewBridge.Types.Descriptor

namespace ViewBridge.Output

/-- The marks above a declaration that make it visible to the other language. -/
inductive Attribute where
  | pyContainer
  | dynamicMemberLookup
  | pyCall
  | pyClass
  | pyProperty
  | pyInit
  | pyMethod
  deriving DecidableEq

def Attribute.code : Attribute → String
  | .pyContainer => "@PyContainer"
  | .dynamicMemberLookup => "@dynamicMemberLookup"
  | .pyCall => "@PyCall"
  | .pyClass => "@PyClass"
  | .pyProperty => "@PyProperty"
  | .pyInit => "@PyInit"
  | .pyMethod => "@PyMethod"

inductive Access where
  | isPublic
  | isStatic
  deriving DecidableEq

def Access.code : Access → String
  | .isPublic => "public"
  | .isStatic => "static"

structure Param where
  name : String
  type : Descriptor

/-- A member of a declared class. -/
inductive Member where
  | property (attributes : List Attribute) (access : List Access) (name : String)
      (type : Descriptor)
  | initializer (attributes : List Attribute) (access : List Access) (params : List Param)
  | method (attributes : List Attribute) (access : List Access) (name : String)
      (params : List Param) (returns : Option Descriptor) (hasBody : Bool)

structure ClassDecl where
  attributes : List Attribute
  access : List Access
  name : String
  members : List Member

/-- What stands at the top of a generated file. -/
inductive Item where
  | classDecl (decl : ClassDecl)
  | viewStruct (decl : ViewStruct)
  | view (view : View)
  | comment (text : String)

structure File where
  imports : List String
  items : List Item

/-- The words that the generated language keeps for itself. -/
def keywords : List String := [
  "Any", "Self", "as", "associatedtype", "await", "break", "case", "catch", "class", "continue",
  "default", "defer", "deinit", "do", "else", "enum", "extension", "fallthrough", "false",
  "fileprivate", "for", "func", "guard", "if", "import", "in", "init", "inout", "internal", "is",
  "let", "nil", "open", "operator", "precedencegroup", "private", "protocol", "public", "repeat",
  "rethrows", "return", "self", "static", "struct", "subscript", "super", "switch", "throw",
  "throws", "true", "try", "typealias", "var", "where", "while"]

/-- A declared name, between backticks where it is a keyword. -/
def escapeName (name : String) : String :=
  if keywords.contains name then "`" ++ name ++ "`" else name

def accessText (access : List Access) : String := String.join (access.map (·.code ++ " "))

def paramsText (params : List Param) : String :=
  ", ".intercalate (params.map fun p => escapeName p.name ++ ": " ++ p.type.spelled)

def resultText (returns : Option Descriptor) : String := (returns.map (" -> " ++ ·.spelled)).getD ""

def Item.viewCount? : Item → Option Nat
  | .view v => some v.count
  | .viewStruct decl => some decl.body.count
  | .classDecl _ | .comment _ => none

end ViewBridge.Output
