import ViewBridge.Classes.Skip

namespace ViewBridge.Classes

/-- Reads the dots of a name and the names behind them. -/
def dottedTail (fin : Span) : List Token → Except Fault (String × List Token)
  | ⟨.word .dot, _⟩ :: ⟨.word (.identifier name), _⟩ :: ts => do
    let (more, rest) ← dottedTail fin ts
    return ("." ++ name ++ more, rest)
  | ⟨.word .dot, _⟩ :: ts => .error (unexpected fin .nameAfterDot ts)
  | ts => .ok ("", ts)

/-- Reads a name with its dots. -/
def dottedName (fin : Span) (expected : Expected) : List Token → Except Fault (String × List Token)
  | ⟨.word (.identifier name), _⟩ :: ts => do
    let (more, rest) ← dottedTail fin ts
    return (name ++ more, rest)
  | ts => .error (unexpected fin expected ts)

instance : Vocabulary Word where
  comma := .comma
  lead
    | .string text => .literal (.string text)
    | .integer i => .literal (.integer i)
    | .float f => .literal (.float f)
    | .identifier text => .name text
    | _ => .other
  wholeName fin first ts := do
    let (more, rest) ← dottedTail fin ts
    return (first ++ more, rest)
  missing := .value

/-- Reads a plain value or a tuple without brackets. -/
def plainValue (fin : Span) (ts : List Token) : Except Fault (Literal × List Token) :=
  bareTuple (atom fin) fin ts

/-- The default behind an equals sign, if it is a plain value that fills the line, and what remains
at the end of the line. -/
def defaultValue (fin : Span) (ts : List Token) : Option Literal × List Token :=
  match plainValue fin ts with
  | .ok (value, rest) => if atLineEnd rest then (some value, rest) else (none, lineEnd ts)
  | .error _ => (none, lineEnd ts)

end ViewBridge.Classes
