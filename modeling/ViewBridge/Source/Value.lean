import ViewBridge.Literal.Basic
import ViewBridge.Source.Fault
import ViewBridge.Source.Token

namespace ViewBridge

/-- Words that faults have names for. -/
class Describable (ω : Type) where
  describe : ω → String

/-- What a word is to a reader of plain values. -/
inductive Lead where
  | literal (value : Literal)
  | name (text : String)
  | other

/-- What a reader of plain values has to know of the words of a language. -/
class Vocabulary (ω : Type) [BEq ω] extends Describable ω where
  comma : ω
  lead : ω → Lead
  /-- Reads a name to its end, given the word that it starts with. -/
  wholeName : Span → String → List (Token ω) → Except Fault (String × List (Token ω))
  /-- What is expected where a line ends in place of a value. -/
  missing : Expected

section Lines

variable {ω : Type}

/-- The fault at the head of the remaining tokens; `fin` is the place where they end. -/
def unexpected [Describable ω] (fin : Span) (expected : Expected) : List (Token ω) → Fault
  | [] => .parse expected (.token (TokenKind.eof.describe (Describable.describe (ω := ω)))) fin
  | t :: _ => .parse expected (.token (t.kind.describe Describable.describe)) t.span

def atLineEnd : List (Token ω) → Bool
  | [] | ⟨.newline, _⟩ :: _ => true
  | _ => false

/-- Passes the end of a line; the end of the text is one too. -/
def endOfLine [Describable ω] (fin : Span) : List (Token ω) → Except Fault (List (Token ω))
  | [] => .ok []
  | ⟨.newline, _⟩ :: ts => .ok ts
  | ts => .error (unexpected fin .endOfLine ts)

end Lines

section Values

variable {ω : Type} [BEq ω] [Vocabulary ω]

def afterComma? : List (Token ω) → Option (List (Token ω))
  | ⟨.word w, _⟩ :: ts => if w == Vocabulary.comma then some ts else none
  | _ => none

mutual

/-- Reads a plain value: a literal, a name, a call, or a bracketed sequence of plain values. -/
def atom (fin : Span) (ts : List (Token ω)) : Except Fault (Literal × List (Token ω)) :=
  match ts with
  | ⟨.word w, s⟩ :: tail =>
    match Vocabulary.lead w with
    | .literal value => .ok (value, tail)
    | .name first => do
      let (name, rest) ← Vocabulary.wholeName fin first tail
      match rest with
      | ⟨.opening .round, _⟩ :: rest =>
        if rest.length < tail.length then
          let (args, rest) ← sequence fin .round rest
          return (.call name args, rest)
        else throw (unexpected fin .value rest)
      | _ => return (.ofName name, rest)
    | .other => .error (unexpected fin .value (⟨.word w, s⟩ :: tail))
  | ⟨.opening .square, _⟩ :: rest => do
    let (items, rest) ← sequence fin .square rest
    return (.list items, rest)
  | ⟨.opening .round, _⟩ :: ⟨.closing .round, _⟩ :: rest => .ok (.tuple [], rest)
  | ⟨.opening .round, _⟩ :: rest => do
    let (first, rest') ← atom fin rest
    match afterComma? rest' with
    | some rest' =>
      if rest'.length < rest.length then
        let (items, rest') ← sequence fin .round rest'
        return (.tuple (first :: items), rest')
      else throw (unexpected fin .commaOrCloseParen rest')
    | none =>
      match rest' with
      | ⟨.closing .round, _⟩ :: rest' => return (first, rest')
      | _ => throw (unexpected fin .commaOrCloseParen rest')
  | ts => .error (unexpected fin (if atLineEnd ts then Vocabulary.missing ω else .value) ts)
termination_by 2 * ts.length

/-- Reads plain values between commas up to their closing bracket; a comma may stand last. -/
def sequence (fin : Span) (bracket : Bracket) (ts : List (Token ω)) :
    Except Fault (List Literal × List (Token ω)) :=
  match ts with
  | ⟨.closing b, s⟩ :: rest =>
    if b = bracket then .ok ([], rest) else .error (unexpected fin .value (⟨.closing b, s⟩ :: rest))
  | ts => do
    let (first, rest) ← atom fin ts
    match afterComma? rest with
    | some rest =>
      if rest.length < ts.length then
        let (items, rest) ← sequence fin bracket rest
        return (first :: items, rest)
      else throw (unexpected fin .commaOrClosingBracket rest)
    | none =>
      match rest with
      | ⟨.closing b, s⟩ :: rest =>
        if b = bracket then return ([first], rest)
        else throw (unexpected fin .commaOrClosingBracket (⟨.closing b, s⟩ :: rest))
      | _ => throw (unexpected fin .commaOrClosingBracket rest)
termination_by 2 * ts.length + 1

end

variable (item : List (Token ω) → Except Fault (Literal × List (Token ω))) (fin : Span)

/-- Reads the further items of a tuple without brackets; a comma may stand last. -/
def moreItems (ts : List (Token ω)) : Except Fault (List Literal × List (Token ω)) :=
  match ts with
  | ⟨.word w, s⟩ :: rest =>
    if w == Vocabulary.comma then
      if atLineEnd rest then .ok ([], rest)
      else do
        let (first, rest') ← item rest
        if rest'.length ≤ rest.length then
          let (items, rest') ← moreItems rest'
          return (first :: items, rest')
        else throw (unexpected fin .value rest')
    else .ok ([], ⟨.word w, s⟩ :: rest)
  | ts => .ok ([], ts)
termination_by ts.length

/-- Reads an item, or a tuple of items without brackets. -/
def bareTuple (ts : List (Token ω)) : Except Fault (Literal × List (Token ω)) := do
  let (first, rest) ← item ts
  match afterComma? rest with
  | some _ =>
    let (items, rest) ← moreItems item fin rest
    return (.tuple (first :: items), rest)
  | none => return (first, rest)

end Values

end ViewBridge
