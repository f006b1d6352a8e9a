import ViewBridge.Decimal.Layout
import ViewBridge.Decimal.Read
import ViewBridge.Literal.Quoted
import ViewBridge.Source.Scan
import ViewBridge.Source.Value

namespace ViewBridge.Markup

/-- The words of the markup language. -/
inductive Word where
  /-- A bare name, which may contain dots. -/
  | identifier (text : String)
  | integer (i : Int64)
  | float (f : Float)
  | string (text : String)
  /-- A format string as written, with its letters and quotes. -/
  | formatString (text : String)
  | colon
  | comma
  | openAngle
  | closeAngle
  | operator (text : String)
  deriving BEq

abbrev Token := ViewBridge.Token Word

abbrev Kind := TokenKind Word

/-- The words of expressions that are no operands. -/
def expressionKeywords : List String :=
  ["and", "or", "not", "if", "else", "in", "is", "lambda", "for"]

namespace Word

/-- Whether a word can be the end of an operand. -/
def endsValue : Word → Bool
  | .identifier text => !expressionKeywords.contains text
  | .integer _ | .float _ | .string _ | .formatString _ => true
  | .colon | .comma | .openAngle | .closeAngle | .operator _ => false

def describe : Word → String
  | .identifier text => "identifier '" ++ text ++ "'"
  | .integer i => "number " ++ toString i.toInt
  | .float f => "number " ++ Decimal.plain.write f
  | .string text => "string '" ++ text ++ "'"
  | .formatString text => "string " ++ text
  | .colon => "':'"
  | .comma => "','"
  | .openAngle => "'<'"
  | .closeAngle => "'>'"
  | .operator text => "'" ++ text ++ "'"

end Word

/-- Whether a token can be the end of an operand, so that a minus after it is binary. -/
def endsValue : Kind → Bool
  | .word w => w.endsValue
  | .closing _ => true
  | _ => false

instance : Describable Word := ⟨Word.describe⟩

def describe (kind : Kind) : String := kind.describe Word.describe

/-- Characters that may continue a name of the markup. -/
def isIdentifierPart (c : Char) : Bool := Text.isNamePart c || c == '.'

/-- The letters that may stand before a quote, in lower case. -/
def stringPrefixes : List String := ["f", "r", "u", "b", "rf", "fr", "rb", "br"]

def operatorChars : List Char := "+-*/%=!&|^~;@".toList

def pairedOperators : List String :=
  ["**", "//", "==", "!=", "<=", ">=", "<<", ">>", "+=", "-=", "*=", "/=", "->"]

/-- A plain or raw string whose quote stands `before` characters after the start of its word. -/
def readString (escape : Char → List Char) (quote : Char) (before : Nat) (rest : List Char) :
    Except Misread (Lexeme Word) :=
  match Literal.quotedText? escape quote rest with
  | some q => .ok (.word (.string (String.ofList q.text)) (before + q.length))
  | none => .error ⟨.unterminatedString, 0, 0⟩

/-- An escape inside a format string is kept, but may not join two lines. -/
def formatStringLength? (quote : Char) : List Char → Option Nat
  | [] => none
  | [c] => if c = quote then some 1 else none
  | c :: e :: rest =>
    if c = '\n' then none
    else if c = '\\' then
      if e = '\n' then none else (formatStringLength? quote rest).map (· + 2)
    else if c = quote then some 1
    else (formatStringLength? quote (e :: rest)).map (· + 1)

/-- A name, or a string if letters that mark one stand directly before a quote. -/
def readIdentifier (c : Char) (cs : List Char) : Except Misread (Lexeme Word) :=
  let more := cs.takeWhile isIdentifierPart
  let text := c :: more
  let name : Except Misread (Lexeme Word) :=
    .ok (.word (.identifier (String.ofList text)) more.length)
  match cs.dropWhile isIdentifierPart with
  | [] => name
  | quote :: rest =>
    let marks := text.map Decimal.lowerAscii
    if (quote = '\'' ∨ quote = '"') ∧ stringPrefixes.contains (String.ofList marks) then
      if marks.contains 'f' then
        match formatStringLength? quote rest with
        | some n =>
          .ok (.word (.formatString (String.ofList (text ++ quote :: rest.take n)))
            (more.length + 1 + n))
        | none => .error ⟨.unterminatedString, 0, 0⟩
      else
        readString (if marks.contains 'r' then Literal.keepEscape else Literal.unescape) quote
          (more.length + 1) rest
    else name

/-- The digits of a number, with one point if a digit follows it; the flag tells of the point. -/
def numberText (cs : List Char) : List Char × Bool :=
  let whole := cs.takeWhile Text.isDigit
  match cs.dropWhile Text.isDigit with
  | '.' :: rest =>
    let fraction := rest.takeWhile Text.isDigit
    if fraction.isEmpty then (whole, false) else (whole ++ '.' :: fraction, true)
  | _ => (whole, false)

/-- A number that starts with a digit, a point or a minus. -/
def readNumber (c : Char) (cs : List Char) : Except Misread (Lexeme Word) :=
  let (sign, digits) := if c = '-' then (['-'], cs) else ([], c :: cs)
  let (number, isFloat) := numberText digits
  let text := sign ++ number
  match (digits.drop number.length).head? with
  | some next =>
    if Text.isNameStart next then
      .error ⟨.afterNumber next (String.ofList text), text.length, 1⟩
    else value text isFloat
  | none => value text isFloat
where
  value (text : List Char) (isFloat : Bool) : Except Misread (Lexeme Word) :=
    if isFloat then
      match Decimal.readFloat? text with
      | some f => .ok (.word (.float f) (text.length - 1))
      | none => .error ⟨.invalidNumber (String.ofList text), 0, 0⟩
    else
      match Decimal.readInt64? text with
      | some i => .ok (.word (.integer i) (text.length - 1))
      | none => .error ⟨.integerOutOfRange (String.ofList text), 0, 0⟩

/-- The longest operator that starts here. -/
def readOperator (c : Char) (cs : List Char) : Lexeme Word :=
  match cs with
  | next :: _ =>
    let pair := String.ofList [c, next]
    if pairedOperators.contains pair then .word (.operator pair) 1
    else .word (.operator c.toString) 0
  | [] => .word (.operator c.toString) 0

/-- The words of the markup, after the token before them. -/
def readWord : Lexicon Word := fun previous c cs =>
  let afterValue := previous.any endsValue
  let next := cs.head?
  if c = '\'' ∨ c = '"' then readString Literal.unescape c 0 cs
  else if (c = '-' ∧ next.any Text.isDigit ∧ !afterValue) ∨ (c = '.' ∧ next.any Text.isDigit) ∨
      Text.isDigit c then readNumber c cs
  else if Text.isNameStart c ∨ (c = '.' ∧ afterValue ∧ next.any Text.isNameStart) then
    readIdentifier c cs
  else if c = ':' then .ok (.word .colon 0)
  else if c = ',' then .ok (.word .comma 0)
  else if (c = '<' ∨ c = '>') ∧ next.any (['=', '<', '>'].contains ·) then .ok (readOperator c cs)
  else if c = '<' then .ok (.word .openAngle 0)
  else if c = '>' then .ok (.word .closeAngle 0)
  else if operatorChars.contains c then .ok (readOperator c cs)
  else .error ⟨.invalidCharacter c, 0, 1⟩

/-- The tokens of a markup text. -/
def tokens (source : String) : Except Fault (List Token) := tokensOf readWord source

end ViewBridge.Markup
