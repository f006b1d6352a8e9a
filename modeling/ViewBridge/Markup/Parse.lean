import ViewBridge.Markup.Tree
import ViewBridge.Markup.Value
import ViewBridge.Text.Lowercase

namespace ViewBridge.Markup

/-- What an indented block holds, each sort in order. -/
structure Body where
  properties : List Property := []
  children : List Widget := []
  canvas : List (Canvas Widget) := []

/-- A header line: a name and a colon, with nothing after them on the line. Gives the place of the
line's end and what follows it. -/
def header? (fin : Span) : List Token → Option (Span × List Token)
  | [⟨.word (.identifier _), _⟩, ⟨.word .colon, _⟩] => some (fin, [])
  | ⟨.word (.identifier _), _⟩ :: ⟨.word .colon, _⟩ :: ⟨.newline, stop⟩ :: rest => some (stop, rest)
  | _ => none

theorem length_le_of_header? {fin stop : Span} {t : Token} {ts rest : List Token}
    (h : header? fin (t :: ts) = some (stop, rest)) : rest.length ≤ ts.length := by
  unfold header? at h
  split at h
  next => cases h; exact Nat.zero_le _
  next eq =>
    cases h
    cases eq
    exact Nat.le_add_right _ 2
  next => cases h

def startsLowercase (name : String) : Bool := name.toList.head?.any Text.isLowercase

def isOperatorToken (text : String) : List Token → Bool
  | ⟨.word (.operator op), _⟩ :: _ => op == text
  | _ => false

def propertyLine (fin : Span) (name : String) (span : Span) (ts : List Token) :
    Except Fault (Property × List Token) :=
  match ts with
  | ⟨.word .colon, _⟩ :: rest => do
    let (value, rest) ← propertyValue fin rest
    let rest ← endOfLine fin rest
    return ({ name, value, span }, rest)
  | ts => .error (unexpected fin .colonAfterProperty ts)

/-- A block of drawing instructions has no properties. -/
def canvasOf (name : String) (span : Span) (body : Body) : Except Fault (Canvas Widget) :=
  match body.properties with
  | p :: _ => .error (.parse .canvasInstruction (.property p.name) p.span)
  | [] => .ok { name, instructions := body.children, span }

def widgetOf (name : String) (span : Span) (body : Body) : Widget :=
  { name, properties := body.properties, children := body.children, canvas := body.canvas, span }

mutual

/-- Reads the indented block behind a header, if there is one. -/
def body (fin : Span) (ts : List Token) : Except Fault (Body × List Token) :=
  match ts with
  | ⟨.indent, _⟩ :: rest => blockLines fin rest
  | ts => .ok ({}, ts)
termination_by ts.length
decreasing_by all_goals simp only [List.length_cons]; omega

/-- Reads the lines of a block up to its end. A header of small letters that opens no drawing block
is a property without a value. -/
def blockLines (fin : Span) (ts : List Token) : Except Fault (Body × List Token) :=
  match ts with
  | [] => .ok ({}, [])
  | ⟨.dedent, _⟩ :: rest => .ok ({}, rest)
  | ⟨.newline, _⟩ :: rest => blockLines fin rest
  | ⟨.word (.identifier name), span⟩ :: rest =>
    match h : header? fin (⟨.word (.identifier name), span⟩ :: rest) with
    | some (stop, afterHeader) =>
      have := length_le_of_header? h
      if isCanvasName name then do
        let (inner, rest') ← body fin afterHeader
        let canvas ← canvasOf name span inner
        if rest'.length ≤ rest.length then
          let (lines, rest') ← blockLines fin rest'
          return ({ lines with canvas := canvas :: lines.canvas }, rest')
        else throw (unexpected fin .propertyOrChild rest')
      else if startsLowercase name then .error (.parse .propertyValue .endOfLine stop)
      else do
        let (inner, rest') ← body fin afterHeader
        if rest'.length ≤ rest.length then
          let (lines, rest') ← blockLines fin rest'
          return ({ lines with children := widgetOf name span inner :: lines.children }, rest')
        else throw (unexpected fin .propertyOrChild rest')
    | none => do
      let (property, rest') ← propertyLine fin name span rest
      if rest'.length ≤ rest.length then
        let (lines, rest') ← blockLines fin rest'
        return ({ lines with properties := property :: lines.properties }, rest')
      else throw (unexpected fin .propertyOrChild rest')
  | ts => .error (unexpected fin .propertyOrChild ts)
termination_by ts.length
decreasing_by all_goals simp only [List.length_cons]; omega

end

def identifier (fin : Span) (expected : Expected) : List Token → Except Fault (String × List Token)
  | ⟨.word (.identifier name), _⟩ :: rest => .ok (name, rest)
  | ts => .error (unexpected fin expected ts)

/-- Reads the bases behind a plus sign each. -/
def moreBases (fin : Span) : List Token → Except Fault (List String × List Token)
  | ⟨.word (.operator op), span⟩ :: ts =>
    if op = "+" then
      match ts with
      | ⟨.word (.identifier base), _⟩ :: rest => do
        let (bases, rest) ← moreBases fin rest
        return (base :: bases, rest)
      | ts => .error (unexpected fin .baseClass ts)
    else .ok ([], ⟨.word (.operator op), span⟩ :: ts)
  | ts => .ok ([], ts)

/-- Reads a class name, with its bases behind an at sign. -/
def selector (fin : Span) (ts : List Token) : Except Fault (Selector × List Token) := do
  let (name, rest) ← identifier fin .ruleName ts
  if isOperatorToken "@" rest then
    let (base, rest) ← identifier fin .baseClass (rest.drop 1)
    let (bases, rest) ← moreBases fin rest
    return ({ name, bases := base :: bases }, rest)
  else return ({ name, bases := [] }, rest)

def selectors (fin : Span) (ts : List Token) : Except Fault (List Selector × List Token) := do
  let (first, rest) ← selector fin ts
  match rest with
  | ⟨.word .comma, _⟩ :: rest =>
    if rest.length < ts.length then
      let (others, rest) ← selectors fin rest
      return (first :: others, rest)
    else throw (unexpected fin .ruleName rest)
  | _ => return ([first], rest)
termination_by ts.length

/-- Reads a rule behind its opening angle. -/
def rule (fin : Span) (span : Span) (ts : List Token) : Except Fault (Rule × List Token) := do
  let (names, rest) ← selectors fin ts
  match rest with
  | ⟨.word .closeAngle, _⟩ :: rest =>
    match rest with
    | ⟨.word .colon, _⟩ :: rest =>
      let rest ← endOfLine fin rest
      let (inner, rest) ← body fin rest
      return ({ selectors := names, properties := inner.properties, children := inner.children,
                canvas := inner.canvas, span }, rest)
    | _ => throw (unexpected fin .colonAfterRule rest)
  | _ => throw (unexpected fin .closeAngle rest)

/-- Reads the rules and the root of a module, of which a root may have been read already. -/
def moduleFrom (fin : Span) (root : Option Widget) (ts : List Token) : Except Fault Module :=
  match ts with
  | [] => .ok { rules := [], root }
  | ⟨.newline, _⟩ :: rest => moduleFrom fin root rest
  | ⟨.word .openAngle, span⟩ :: rest => do
    let (first, rest') ← rule fin span rest
    if rest'.length ≤ rest.length then
      let others ← moduleFrom fin root rest'
      return { others with rules := first :: others.rules }
    else throw (unexpected fin .headerOrRule rest')
  | ⟨.word (.identifier name), span⟩ :: rest =>
    match header? fin (⟨.word (.identifier name), span⟩ :: rest), root with
    | none, _ => .error (.parse .widgetHeader (.property name) span)
    | some _, some _ => .error (.parse .singleRoot (.secondRoot name) span)
    | some (_, afterHeader), none => do
      let (inner, rest') ← body fin afterHeader
      if rest'.length ≤ rest.length then
        moduleFrom fin (some (widgetOf name span inner)) rest'
      else throw (unexpected fin .headerOrRule rest')
  | ts => .error (unexpected fin .headerOrRule ts)
termination_by ts.length

def Module.ofTokens (ts : List Token) : Except Fault Module :=
  let (ts, fin) := untilEnd .origin ts
  moduleFrom fin none ts

/-- The module that a markup text spells. -/
def parse (source : String) : Except Fault Module := do Module.ofTokens (← tokens source)

end ViewBridge.Markup
