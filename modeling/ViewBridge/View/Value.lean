import ViewBridge.Decimal.Read
import ViewBridge.Literal.Basic
import ViewBridge.Output.Expr
import ViewBridge.View.Interpolation

namespace ViewBridge.View

open Output

def memberNames : List String :=
  ["center", "left", "right", "top", "bottom", "middle", "vertical", "horizontal"]

def colorNames : List String :=
  ["red", "blue", "green", "yellow", "orange", "purple", "pink", "white", "black", "gray", "clear"]

def unitMarks : List String := ["dp", "sp", "px", "pt"]

/-- The expression of a bare name: a member, the missing value, a path, or else its text. -/
def ofName (name : String) : Expr :=
  if memberNames.contains name then .member name
  else if name = "None" then .raw "nil"
  else if name.toList.contains '.' then .raw name
  else .text name

mutual

def ofLiteral : Literal → Expr
  | .string text => .text text
  | .integer i => .int i
  | .float f => .float f
  | .bool b => .bool b
  | .name text => ofName text
  | .list items => .array (ofLiterals items)
  | .tuple items => .tuple (ofLiterals items)
  | .call callee [inner] =>
    if callee = "dp" ∨ callee = "sp" then ofLiteral inner
    else .call callee (some [positional (ofLiteral inner)])
  | .call callee args => .call callee (some (ofArguments args))
  | .expression text => .raw ((interpolation? text).getD text)

def ofLiterals : List Literal → List Expr
  | [] => []
  | v :: vs => ofLiteral v :: ofLiterals vs

def ofArguments : List Literal → List (Argument Expr)
  | [] => []
  | v :: vs => positional (ofLiteral v) :: ofArguments vs

end

def beforeMark? (cs mark : List Char) : Option (List Char) :=
  if mark.isSuffixOf cs then some (cs.take (cs.length - mark.length)) else none

/-- The number in a dimension such as `10dp`. -/
def dimension? (text : String) : Option Expr := do
  let number ← unitMarks.findSome? fun mark => beforeMark? text.toList mark.toList
  match Decimal.readInt64? number with
  | some i => return .int i
  | none => return .float (← Decimal.readFloat? number)

/-- The expression of a value where a number is wanted: a dimension is one. -/
def ofDimension : Literal → Expr
  | .string text => (dimension? text).getD (.text text)
  | value => ofLiteral value

/-- The lower case of a character where that is an ASCII letter; the sign of the kelvin is the only
character outside ASCII that has one. -/
def lowerLetter (c : Char) : Char := if c = '\u212a' then 'k' else Decimal.lowerAscii c

/-- The colour that a name stands for, in either case of letters and either spelling of grey. -/
def colorName (text : String) : String :=
  let name := String.ofList (text.toList.map lowerLetter)
  let name := if name = "grey" then "gray" else name
  if colorNames.contains name then name else "primary"

/-- The expression of a colour: its components, the last of which may be missing, or its name. -/
def ofColor (value : Literal) : Expr :=
  match value.items? with
  | some (red :: green :: blue :: rest) =>
    .call "Color" (some [labeled "red" (ofDimension red), labeled "green" (ofDimension green),
      labeled "blue" (ofDimension blue),
      labeled "opacity" ((rest.head?.map ofDimension).getD (.int 1))])
  | _ => .member (colorName (value.text?.getD ""))

end ViewBridge.View
