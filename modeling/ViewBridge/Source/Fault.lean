import ViewBridge.Source.Span

namespace ViewBridge

/-- Why a text cannot be cut into tokens. -/
inductive LexFault where
  | inconsistentIndentation (width expected : Nat)
  | unterminatedString
  | invalidCharacter (c : Char)
  | unmatched (bracket : Char)
  | unclosed (bracket : Char)
  | afterNumber (c : Char) (number : String)
  | invalidNumber (text : String)
  | integerOutOfRange (text : String)
  | invalidRadixNumber (digits : String)
  | afterContinuation
  deriving DecidableEq

def LexFault.reason : LexFault → String
  | .inconsistentIndentation width expected =>
    "inconsistent indentation: width " ++ toString width ++
      " matches no enclosing block (expected " ++ toString expected ++ ")"
  | .unterminatedString => "unterminated string"
  | .invalidCharacter c => "invalid character '" ++ c.toString ++ "'"
  | .unmatched bracket => "unmatched '" ++ bracket.toString ++ "'"
  | .unclosed bracket => "unclosed '" ++ bracket.toString ++ "'"
  | .afterNumber c number =>
    "unexpected character '" ++ c.toString ++ "' after number '" ++ number ++ "'"
  | .invalidNumber text => "invalid number '" ++ text ++ "'"
  | .integerOutOfRange text => "integer '" ++ text ++ "' out of range"
  | .invalidRadixNumber digits => "invalid number literal '" ++ digits ++ "'"
  | .afterContinuation => "unexpected character after line continuation"

/-- What the grammar asks for at the place of a parse fault. -/
inductive Expected where
  | widgetHeader
  | singleRoot
  | headerOrRule
  | ruleName
  | baseClass
  | closeAngle
  | colonAfterRule
  | endOfLine
  | canvasInstruction
  | propertyOrChild
  | colonAfterProperty
  | propertyValue
  | value
  | commaOrEndOfLine
  | commaOrCloseParen
  | commaOrClosingBracket
  | nameAfterDot
  | decoratorName
  | classOrFunction
  | className
  | colonAfterClass
  | memberDeclaration
  | colonOrEquals
  | methodName
  | openParenAfterMethod
  | parameterName
  | colonAfterSignature
  | typeExpression
  | closeParen
  | commaOrCloseBracket
  deriving DecidableEq

def Expected.describe : Expected → String
  | .widgetHeader => "widget header"
  | .singleRoot => "a single root widget"
  | .headerOrRule => "widget header or rule"
  | .ruleName => "rule name"
  | .baseClass => "base class"
  | .closeAngle => "'>'"
  | .colonAfterRule => "':' after rule header"
  | .endOfLine => "end of line"
  | .canvasInstruction => "canvas instruction"
  | .propertyOrChild => "property or child widget"
  | .colonAfterProperty => "':' after property name"
  | .propertyValue => "property value"
  | .value => "value"
  | .commaOrEndOfLine => "',' or end of line"
  | .commaOrCloseParen => "',' or ')'"
  | .commaOrClosingBracket => "',' or closing bracket"
  | .nameAfterDot => "name after '.'"
  | .decoratorName => "decorator name"
  | .classOrFunction => "class or function definition"
  | .className => "class name"
  | .colonAfterClass => "':' after class header"
  | .memberDeclaration => "field, method or decorator"
  | .colonOrEquals => "':' or '=' after field name"
  | .methodName => "method name"
  | .openParenAfterMethod => "'(' after method name"
  | .parameterName => "parameter name"
  | .colonAfterSignature => "':' after method signature"
  | .typeExpression => "type"
  | .closeParen => "')'"
  | .commaOrCloseBracket => "',' or ']'"

/-- What stands at the place of a parse fault. -/
inductive Found where
  | token (description : String)
  | property (name : String)
  | secondRoot (name : String)
  | endOfLine
  deriving DecidableEq

def Found.describe : Found → String
  | .token description => description
  | .property name => "property '" ++ name ++ "'"
  | .secondRoot name => "second root widget '" ++ name ++ "'"
  | .endOfLine => "end of line"

/-- Why a source text is refused, and where. -/
inductive Fault where
  | lex (fault : LexFault) (span : Span)
  | parse (expected : Expected) (found : Found) (span : Span)
  deriving DecidableEq

namespace Fault

def span : Fault → Span
  | .lex _ span => span
  | .parse _ _ span => span

def message : Fault → String
  | .lex fault _ => "lex error: " ++ fault.reason
  | .parse expected found _ =>
    "parse error: expected " ++ expected.describe ++ ", found " ++ found.describe

end Fault

end ViewBridge
