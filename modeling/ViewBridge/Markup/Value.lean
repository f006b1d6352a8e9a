import ViewBridge.Markup.Expression

namespace ViewBridge.Markup

instance : Vocabulary Word where
  comma := .comma
  lead
    | .string text => .literal (.string text)
    | .integer i => .literal (.integer i)
    | .float f => .literal (.float f)
    | .formatString text => .literal (.expression text)
    | .identifier text => .name text
    | _ => .other
  wholeName _ name ts := .ok (name, ts)
  missing := .propertyValue

/-- The tokens of one item of a property value: up to a comma outside brackets or the line's end. -/
def itemTokens (depth : Nat) : List Token → List Token
  | [] => []
  | t :: ts =>
    match t.kind with
    | .newline | .eof => []
    | .word .comma => if depth = 0 then [] else t :: itemTokens depth ts
    | kind => t :: itemTokens (depthAfter depth kind) ts

def atItemEnd : List Token → Bool
  | [] | ⟨.newline, _⟩ :: _ | ⟨.word .comma, _⟩ :: _ => true
  | _ => false

/-- Reads one item of a property value: a plain value that fills it, else the text of an expression.
Tokens that are neither are refused for what is wrong with them as a plain value. -/
def item (fin : Span) (ts : List Token) : Except Fault (Literal × List Token) :=
  let slice := itemTokens 0 ts
  let orExpression (fault : Fault) : Except Fault (Literal × List Token) :=
    if slice.any (isExpressionToken ·.kind) then
      .ok (.expression (expressionText {} slice), ts.drop slice.length)
    else .error fault
  match atom fin ts with
  | .ok (value, rest) =>
    if atItemEnd rest then .ok (value, rest)
    else orExpression (unexpected fin .commaOrEndOfLine rest)
  | .error fault => orExpression fault

/-- Reads a property value: one item, or a tuple of items between commas. -/
def propertyValue (fin : Span) (ts : List Token) : Except Fault (Literal × List Token) :=
  bareTuple (item fin) fin ts

end ViewBridge.Markup
