import ViewBridge.Classes.TypeHint
import ViewBridge.Classes.Value
import ViewBridge.Text.Blank

namespace ViewBridge.Classes

section

variable (quoted : String → TypeHint) (fin : Span)

mutual

/-- Reads a type: one member, or a union of members between bars. What a quoted text stands for is
given by `quoted`. -/
def typeExpression (ts : List Token) : Except Fault (TypeHint × List Token) := do
  let (first, rest) ← typeMember ts
  match rest with
  | ⟨.word .pipe, _⟩ :: _ =>
    if rest.length < ts.length then
      let (members, rest) ← moreMembers rest
      return (.union (first :: members), rest)
    else throw (unexpected fin .typeExpression rest)
  | _ => return (first, rest)
termination_by 3 * ts.length + 1

/-- Reads the members of a union behind a bar each. -/
def moreMembers (ts : List Token) : Except Fault (List TypeHint × List Token) :=
  match ts with
  | ⟨.word .pipe, _⟩ :: rest => do
    let (first, rest') ← typeMember rest
    if rest'.length ≤ rest.length then
      let (members, rest') ← moreMembers rest'
      return (first :: members, rest')
    else throw (unexpected fin .typeExpression rest')
  | ts => .ok ([], ts)
termination_by 3 * ts.length

def typeMember (ts : List Token) : Except Fault (TypeHint × List Token) :=
  match ts with
  | ⟨.word (.identifier first), _⟩ :: tail =>
    if first = "None" then .ok (.none, tail)
    else do
      let (more, rest) ← dottedTail fin tail
      match rest with
      | ⟨.opening .square, _⟩ :: rest =>
        if rest.length < tail.length then
          let (args, rest) ← typeList rest
          return (.subscript (first ++ more) args, rest)
        else throw (unexpected fin .typeExpression rest)
      | _ => return (.name (first ++ more), rest)
  | ⟨.opening .square, _⟩ :: rest => do
    let (items, rest) ← typeList rest
    return (.listOf items, rest)
  | ⟨.opening .round, _⟩ :: rest => do
    let (inner, rest) ← typeExpression rest
    match rest with
    | ⟨.closing .round, _⟩ :: rest => return (inner, rest)
    | _ => throw (unexpected fin .closeParen rest)
  | ⟨.word .ellipsis, _⟩ :: rest => .ok (.ellipsis, rest)
  | ⟨.word (.string text), _⟩ :: rest => .ok (quoted text, rest)
  | ts => .error (unexpected fin .typeExpression ts)
termination_by 3 * ts.length

/-- Reads types between commas up to the closing square bracket; a comma may stand last. -/
def typeList (ts : List Token) : Except Fault (List TypeHint × List Token) :=
  match ts with
  | ⟨.closing .square, _⟩ :: rest => .ok ([], rest)
  | ts => do
    let (first, rest) ← typeExpression ts
    match rest with
    | ⟨.word .comma, _⟩ :: rest =>
      if rest.length < ts.length then
        let (items, rest) ← typeList rest
        return (first :: items, rest)
      else throw (unexpected fin .commaOrCloseBracket rest)
    | ⟨.closing .square, _⟩ :: rest => return ([first], rest)
    | _ => throw (unexpected fin .commaOrCloseBracket rest)
termination_by 3 * ts.length + 2

end

end

/-- The type that a text spells, if it spells one and nothing else. -/
def wholeType? (quoted : String → TypeHint) (text : String) : Option TypeHint :=
  match tokens text with
  | .error _ => none
  | .ok ts =>
    let (ts, fin) := untilEnd .origin ts
    match typeExpression quoted fin ts with
    | .ok (type, rest) =>
      match endOfLine fin rest with
      | .ok [] => some type
      | _ => none
    | .error _ => none

/-- What a quoted text stands for: the type that it spells, with quotes inside quotes up to a depth,
or else the text itself. -/
def quotedType : Nat → String → TypeHint
  | 0, text => .forward (Text.trim text)
  | depth + 1, text =>
    let text := Text.trim text
    (wholeType? (quotedType depth) text).getD (.forward text)

/-- The length of a quoted text bounds the depth of quotes inside it. -/
def quotedHint (text : String) : TypeHint := quotedType text.length text

def hint (fin : Span) (ts : List Token) : Except Fault (TypeHint × List Token) :=
  typeExpression quotedHint fin ts

/-- The type at the start of a list of tokens, whatever follows it. -/
def TypeHint.ofTokens (ts : List Token) : Except Fault TypeHint :=
  let (ts, fin) := untilEnd .origin ts
  (hint fin ts).map (·.1)

end ViewBridge.Classes
