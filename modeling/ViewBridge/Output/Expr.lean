import ViewBridge.Decimal.Layout

namespace ViewBridge.Output

/-- An argument of a call, which may have a label. -/
structure Argument (ε : Type) where
  label : Option String
  value : ε

/-- An expression of the generated code. -/
inductive Expr where
  | text (content : String)
  | int (i : Int64)
  | float (f : Float)
  | bool (b : Bool)
  /-- A member of the type that the place asks for. -/
  | member (name : String)
  /-- Code that is copied as it is. -/
  | raw (code : String)
  | array (items : List Expr)
  | tuple (items : List Expr)
  /-- A call; without an argument list it has no parentheses. -/
  | call (callee : String) (args : Option (List (Argument Expr)))
  deriving Inhabited

/-- A call of a constructor or of a modifier. -/
structure Call where
  callee : String
  args : Option (List (Argument Expr))

namespace Call

def withArgs (callee : String) (args : List (Argument Expr)) : Call := ⟨callee, some args⟩

def bare (callee : String) : Call := ⟨callee, none⟩

end Call

def labeled (label : String) (value : Expr) : Argument Expr := ⟨some label, value⟩

def positional (value : Expr) : Argument Expr := ⟨none, value⟩

def escapeChar (c : Char) : List Char :=
  if c = '"' then ['\\', '"'] else if c = '\\' then ['\\', '\\'] else if c = '\n' then ['\\', 'n']
  else if c = '\t' then ['\\', 't'] else if c = '\r' then ['\\', 'r'] else [c]

/-- A text in double quotes. -/
def quote (text : String) : String :=
  "\"" ++ String.ofList (text.toList.flatMap escapeChar) ++ "\""

def labelText : Option String → String
  | some label => label ++ ": "
  | none => ""

def Expr.code : Expr → String
  | .text content => quote content
  | .int i => toString i.toInt
  | .float f => Decimal.pointed.write f
  | .bool true => "true"
  | .bool false => "false"
  | .member name => "." ++ name
  | .raw code => code
  | .array items => "[" ++ joined items ++ "]"
  | .tuple items => "(" ++ joined items ++ ")"
  | .call callee none => callee
  | .call callee (some args) => callee ++ "(" ++ arguments args ++ ")"
where
  joined : List Expr → String
    | [] => ""
    | [item] => item.code
    | item :: items => item.code ++ ", " ++ joined items
  arguments : List (Argument Expr) → String
    | [] => ""
    | [⟨label, value⟩] => labelText label ++ value.code
    | ⟨label, value⟩ :: args => labelText label ++ value.code ++ ", " ++ arguments args

def Call.code (c : Call) : String := (Expr.call c.callee c.args).code

end ViewBridge.Output
