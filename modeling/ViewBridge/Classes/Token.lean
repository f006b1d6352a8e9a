import ViewBridge.Decimal.Layout
import ViewBridge.Decimal.Read
import ViewBridge.Literal.Quoted
import ViewBridge.Source.Scan
import ViewBridge.Source.Value

namespace ViewBridge.Classes

/-- The words of class declarations. -/
inductive Word where
  | classKeyword
  | defKeyword
  | passKeyword
  | identifier (text : String)
  | integer (i : Int64)
  | float (f : Float)
  | string (text : String)
  | colon
  | comma
  | dot
  | ellipsis
  | arrow
  | at
  | pipe
  | equals
  | star
  | doubleStar
  /-- Any other run of operator characters. -/
  | operator (text : String)
  deriving BEq

abbrev Token := ViewBridge.Token Word

abbrev Kind := TokenKind Word

namespace Word

def describe : Word → String
  | .classKeyword => "'class'"
  | .defKeyword => "'def'"
  | .passKeyword => "'pass'"
  | .identifier text => "identifier '" ++ text ++ "'"
  | .integer i => "number " ++ toString i.toInt
  | .float f => "number " ++ Decimal.plain.write f
  | .string _ => "string literal"
  | .colon => "':'"
  | .comma => "','"
  | .dot => "'.'"
  | .ellipsis => "'...'"
  | .arrow => "'->'"
  | .at => "'@'"
  | .pipe => "'|'"
  | .equals => "'='"
  | .star => "'*'"
  | .doubleStar => "'**'"
  | .operator text => "'" ++ text ++ "'"

end Word

instance : Describable Word := ⟨Word.describe⟩

def describe (kind : Kind) : String := kind.describe Word.describe

/-- Whether a token is the end of an operand, so that a minus after it is binary. -/
def endsOperand : Kind → Bool
  | .word (.identifier _) | .word (.integer _) | .word (.float _) | .word (.string _) => true
  | .closing _ => true
  | _ => false

/-- The letters that may stand before a quote, in lower case. -/
def stringPrefixes : List String := ["r", "b", "f", "u", "rb", "br", "fr", "rf"]

def operatorChars : List Char := "+-*/%<>=!&^~".toList

/-- An escape inside a string; a line end behind a backslash is dropped. -/
def unescape (c : Char) : List Char := if c = '\n' then [] else Literal.unescape c

/-- A string whose opening quote stands `before` characters after the start of its word. -/
def readString (raw : Bool) (quote : Char) (before : Nat) (rest : List Char) :
    Except Misread (Lexeme Word) :=
  let escape := if raw then Literal.keepEscape else unescape
  let finish (opening : Nat) (q : Option Literal.QuotedText) : Except Misread (Lexeme Word) :=
    match q with
    | some q => .ok (.word (.string (String.ofList q.text)) (before + opening + q.length))
    | none => .error ⟨.unterminatedString, before, 0⟩
  if rest.take 2 = [quote, quote] then finish 2 (Literal.longText? escape quote (rest.drop 2))
  else finish 0 (Literal.quotedText? escape quote rest)

def keyword? (text : String) : Option Word :=
  if text = "class" then some .classKeyword else if text = "def" then some .defKeyword
  else if text = "pass" then some .passKeyword else none

/-- A name or keyword, or a string if letters that mark one stand directly before a quote. -/
def readIdentifier (c : Char) (cs : List Char) : Except Misread (Lexeme Word) :=
  let more := cs.takeWhile Text.isNamePart
  let text := String.ofList (c :: more)
  let name : Except Misread (Lexeme Word) :=
    .ok (.word ((keyword? text).getD (.identifier text)) more.length)
  match cs.dropWhile Text.isNamePart with
  | [] => name
  | quote :: rest =>
    let marks := (c :: more).map Decimal.lowerAscii
    if (quote = '\'' ∨ quote = '"') ∧ stringPrefixes.contains (String.ofList marks) then
      readString (marks.contains 'r') quote (more.length + 1) rest
    else name

/-- The characters of a number without its underscores, how many were read, and whether a point or
an exponent was among them. -/
structure Numeral where
  text : List Char
  length : Nat
  isFloat : Bool
  deriving DecidableEq

/-- The numeral with characters read before it. -/
def Numeral.push (n : Numeral) (text : List Char) (length : Nat) : Numeral :=
  ⟨text ++ n.text, length + n.length, n.isFloat⟩

/-- The longest run that looks like a number: digits, underscores, the first point, and exponent
marks with their sign. -/
def numeral (isFloat : Bool) : List Char → Numeral
  | [] => ⟨[], 0, isFloat⟩
  | c :: rest =>
    if Text.isDigit c then (numeral isFloat rest).push [c] 1
    else if c = '_' then (numeral isFloat rest).push [] 1
    else if c = '.' ∧ !isFloat then (numeral true rest).push [c] 1
    else if c = 'e' ∨ c = 'E' then
      match rest with
      | sign :: after =>
        if sign = '+' ∨ sign = '-' then (numeral true after).push [c, sign] 2
        else (numeral true (sign :: after)).push [c] 1
      | [] => ⟨[c], 1, true⟩
    else ⟨[], 0, isFloat⟩

def radix? (c : Char) : Option Nat :=
  if c = 'x' ∨ c = 'X' then some 16 else if c = 'o' ∨ c = 'O' then some 8
  else if c = 'b' ∨ c = 'B' then some 2 else none

def isRadixPart (c : Char) : Bool :=
  Text.isDigit c || ('a' ≤ c && c ≤ 'z') || ('A' ≤ c && c ≤ 'Z') || c == '_'

/-- The digits behind the mark of another base. `before` counts the characters up to them. -/
def readRadixNumber (negative : Bool) (radix before : Nat) (rest : List Char) :
    Except Misread (Lexeme Word) :=
  let taken := rest.takeWhile isRadixPart
  let digits := taken.filter (· ≠ '_')
  match (Decimal.natOfDigits? radix digits).bind (Decimal.int64OfInt? ·) with
  | some i => .ok (.word (.integer (if negative then -i else i)) (before + taken.length - 1))
  | none => .error ⟨.invalidRadixNumber (String.ofList digits), 0, 0⟩

/-- A number that starts with a digit, a point or a minus. -/
def readNumber (c : Char) (cs : List Char) : Except Misread (Lexeme Word) :=
  let (sign, digits) := if c = '-' then (['-'], cs) else ([], c :: cs)
  let radix := if digits.head? = some '0' then digits[1]?.bind radix? else none
  match radix with
  | some radix => readRadixNumber (c = '-') radix (sign.length + 2) (digits.drop 2)
  | none =>
    let n := (numeral false digits).push sign sign.length
    let text := String.ofList n.text
    match (digits.drop (n.length - sign.length)).head?.filter Text.isAlphabetic with
    | some next => .error ⟨.afterNumber next text, n.length, 1⟩
    | none =>
      if n.isFloat then
        match Decimal.readFloat? n.text with
        | some f => .ok (.word (.float f) (n.length - 1))
        | none => .error ⟨.invalidNumber text, 0, 0⟩
      else
        match Decimal.readInt64? n.text with
        | some i => .ok (.word (.integer i) (n.length - 1))
        | none => .error ⟨.integerOutOfRange text, 0, 0⟩

/-- The operator characters that follow an operator character; an arrow starts a word of its own. -/
def operatorRun : List Char → List Char
  | [] => []
  | c :: rest =>
    if operatorChars.contains c ∧ ¬(c = '-' ∧ rest.head? = some '>') then c :: operatorRun rest
    else []

def operatorWord (text : String) : Word :=
  if text = "=" then .equals else if text = "*" then .star else if text = "**" then .doubleStar
  else .operator text

/-- A backslash that joins a line to the next one. -/
def readContinuation (cs : List Char) : Except Misread (Lexeme Word) :=
  match cs with
  | '\n' :: _ => .ok (.gap 1)
  | '\r' :: '\n' :: _ => .ok (.gap 2)
  | _ => .error ⟨.afterContinuation, 0, 1⟩

/-- The words of class declarations, after the token before them. -/
def readWord : Lexicon Word := fun previous c cs =>
  let next := cs.head?
  if c = '\\' then readContinuation cs
  else if c = '\'' ∨ c = '"' then readString false c 0 cs
  else if Text.isDigit c ∨ (c = '.' ∧ next.any Text.isDigit) ∨
      (c = '-' ∧ next.any Text.isDigit ∧ !previous.any endsOperand) then readNumber c cs
  else if Text.isNameStart c then readIdentifier c cs
  else if c = '.' then
    if cs.take 2 = ['.', '.'] then .ok (.word .ellipsis 2) else .ok (.word .dot 0)
  else if c = ',' then .ok (.word .comma 0)
  else if c = '@' then .ok (.word .at 0)
  else if c = ';' then .ok (.word (.operator ";") 0)
  else if c = ':' then
    if next = some '=' then .ok (.word (.operator ":=") 1) else .ok (.word .colon 0)
  else if c = '|' then
    if next = some '=' then .ok (.word (.operator "|=") 1) else .ok (.word .pipe 0)
  else if c = '-' ∧ next = some '>' then .ok (.word .arrow 1)
  else if operatorChars.contains c then
    let more := operatorRun cs
    .ok (.word (operatorWord (String.ofList (c :: more))) more.length)
  else .error ⟨.invalidCharacter c, 0, 1⟩

/-- The tokens of a text of class declarations. -/
def tokens (source : String) : Except Fault (List Token) := tokensOf readWord source

end ViewBridge.Classes
