import ViewBridge.Literal.Spelling
import ViewBridge.Markup.Token

namespace ViewBridge.Markup

/-- Whether a token occurs in expressions only, never in a plain value. -/
def isExpressionToken : Kind → Bool
  | .word (.operator _) | .word (.formatString _) | .opening .curly
  | .word .openAngle | .word .closeAngle => true
  | .word (.identifier text) => expressionKeywords.contains text || text.toList.head? == some '.'
  | _ => false

def tokenText : Kind → String
  | .word (.identifier text) | .word (.formatString text) | .word (.operator text) => text
  | .word (.integer i) => toString i.toInt
  | .word (.float f) => Literal.floatText f
  | .word (.string text) => Literal.quote text
  | .word .colon => ":"
  | .word .comma => ","
  | .word .openAngle => "<"
  | .word .closeAngle => ">"
  | .opening bracket => bracket.openChar.toString
  | .closing bracket => bracket.closeChar.toString
  | .indent | .dedent | .newline | .eof => ""

def isOperator (texts : List String) : Kind → Bool
  | .word (.operator text) => texts.contains text
  | _ => false

/-- The brackets that are open after a token. -/
def depthAfter (depth : Nat) : Kind → Nat
  | .opening _ => depth + 1
  | .closing _ => depth - 1
  | _ => depth

/-- What the spacing of a token depends on: the token before it, whether that one is a unary
operator, and the number of open brackets. -/
structure Spacing where
  previous : Option Kind := none
  afterUnary : Bool := false
  depth : Nat := 0

def Spacing.after (s : Spacing) (kind : Kind) : Spacing :=
  { previous := some kind
    afterUnary := isOperator ["-", "+", "~"] kind && !s.previous.any endsValue
    depth := depthAfter s.depth kind }

/-- Whether an equals sign names an argument, which takes no space. -/
def Spacing.isKeywordArgument (s : Spacing) (kind : Kind) : Bool :=
  0 < s.depth && isOperator ["="] kind

/-- Whether no space stands between a token and the one before it. -/
def Spacing.isTight (s : Spacing) (before kind : Kind) : Bool :=
  (match before with
    | .opening _ => true
    | _ => false) ||
  (match kind with
    | .closing _ | .word .comma | .word .colon => true
    | .opening .round | .opening .square => endsValue before
    | .word (.identifier text) => text.toList.head? == some '.'
    | .word (.operator text) => text == ";"
    | _ => false) ||
  s.afterUnary || s.isKeywordArgument kind || s.isKeywordArgument before

/-- The canonical text of the tokens of an expression: binary operators between spaces, unary ones
and brackets without, and a space behind a comma. -/
def expressionText (s : Spacing) : List Token → String
  | [] => ""
  | t :: ts =>
    let space := match s.previous with
      | none => ""
      | some before => if s.isTight before t.kind then "" else " "
    space ++ tokenText t.kind ++ expressionText (s.after t.kind) ts

end ViewBridge.Markup
