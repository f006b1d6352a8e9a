import ViewBridge.Classes.Tree
import ViewBridge.Classes.TypeParse

namespace ViewBridge.Classes

/-- Where the text consumed between two points of a token list ends. -/
def consumedStop (ts rest : List Token) : Nat :=
  (((ts.take (ts.length - rest.length)).filter (·.kind.isText)).getLast?.map (·.span.stop)).getD 0

/-- The span from the start of another one to the end of the consumed text. -/
def extentFrom (start : Span) (ts rest : List Token) : Span :=
  { start with stop := max (consumedStop ts rest) start.stop }

/-- Reads a type behind a token, if that token is there. -/
def typeBehind (fin : Span) (mark : Word → Bool) (ts : List Token) :
    Except Fault (Option TypeHint × List Token) :=
  match ts with
  | ⟨.word w, span⟩ :: rest =>
    if mark w then (hint fin rest).map fun (type, rest) => (some type, rest)
    else .ok (none, ⟨.word w, span⟩ :: rest)
  | ts => .ok (none, ts)

def isColon : Word → Bool
  | .colon => true
  | _ => false

def isArrow : Word → Bool
  | .arrow => true
  | _ => false

/-- Reads a decorator line behind its at sign. -/
def decorator (fin : Span) (span : Span) (ts : List Token) :
    Except Fault (Decorator × List Token) := do
  let (name, rest) ← dottedName fin .decoratorName ts
  match rest with
  | ⟨.opening .round, _⟩ :: rest =>
    let rest ← endOfLine fin (behindGroup 0 rest)
    return ({ name, hasArgs := true, span }, rest)
  | _ =>
    let rest ← endOfLine fin rest
    return ({ name, hasArgs := false, span }, rest)

/-- Reads the end of an entry of a bracketed list: behind a comma the list goes on. -/
def entryEnd (fin : Span) (ts : List Token) : Except Fault (Bool × List Token) :=
  match ts with
  | ⟨.word .comma, _⟩ :: rest => .ok (true, rest)
  | ⟨.closing .round, _⟩ :: rest => .ok (false, rest)
  | ts => .error (unexpected fin .commaOrCloseParen ts)

/-- Reads a base class; an argument with a keyword is none. -/
def baseClass (fin : Span) (ts : List Token) : Except Fault (Option String × List Token) :=
  match ts with
  | ⟨.word (.identifier _), _⟩ :: ⟨.word .equals, _⟩ :: _ => .ok (none, skipArgument 0 ts)
  | ts => do
    let (name, rest) ← dottedName fin .baseClass ts
    match rest with
    | ⟨.opening .square, _⟩ :: rest => return (some name, behindGroup 0 rest)
    | _ => return (some name, rest)

def baseClasses (fin : Span) (ts : List Token) : Except Fault (List String × List Token) :=
  match ts with
  | ⟨.closing .round, _⟩ :: rest => .ok ([], rest)
  | ts => do
    let (first, rest) ← baseClass fin ts
    let (goesOn, rest) ← entryEnd fin rest
    if goesOn then
      if rest.length < ts.length then
        let (others, rest) ← baseClasses fin rest
        return (first.toList ++ others, rest)
      else throw (unexpected fin .baseClass rest)
    else return (first.toList, rest)
termination_by ts.length

/-- Reads one entry of a parameter list; only a plain parameter is kept. -/
def paramEntry (fin : Span) (ts : List Token) : Except Fault (Option Param × List Token) :=
  match ts with
  | ⟨.word .star, _⟩ :: rest | ⟨.word .doubleStar, _⟩ :: rest =>
    match rest with
    | ⟨.word (.identifier _), _⟩ :: rest => do
      let (_, rest) ← typeBehind fin isColon rest
      return (none, rest)
    | rest => .ok (none, rest)
  | ⟨.word (.operator op), span⟩ :: rest =>
    if op = "/" then .ok (none, rest)
    else .error (unexpected fin .parameterName (⟨.word (.operator op), span⟩ :: rest))
  | ⟨.word (.identifier name), span⟩ :: rest => do
    let (hint, rest) ← typeBehind fin isColon rest
    let param : Param := { name, hint, span }
    match rest with
    | ⟨.word .equals, _⟩ :: rest => return (some param, skipArgument 0 rest)
    | _ => return (some param, rest)
  | ts => .error (unexpected fin .parameterName ts)

/-- Reads the parameters up to the closing bracket. -/
def params (fin : Span) (ts : List Token) : Except Fault (List Param × List Token) :=
  match ts with
  | ⟨.closing .round, _⟩ :: rest => .ok ([], rest)
  | ts => do
    let (first, rest) ← paramEntry fin ts
    let (goesOn, rest) ← entryEnd fin rest
    if goesOn then
      if rest.length < ts.length then
        let (others, rest) ← params fin rest
        return (first.toList ++ others, rest)
      else throw (unexpected fin .parameterName rest)
    else return (first.toList, rest)
termination_by ts.length

/-- Reads a method behind its keyword `def`. Its extent starts at the first decorator, else at
`start`; the receiver is dropped unless the method is static. -/
def method (fin : Span) (decorators : List Decorator) (start : Span) (ts : List Token) :
    Except Fault (Method × List Token) :=
  match ts with
  | ⟨.word (.identifier name), span⟩ :: ⟨.opening .round, _⟩ :: rest => do
    let (allParams, rest) ← params fin rest
    let (returns, rest) ← typeBehind fin isArrow rest
    match rest with
    | ⟨.word .colon, _⟩ :: rest =>
      let rest := if atLineEnd rest then skipStatement rest else skipLine rest
      let isStatic := decorators.any (·.name == "staticmethod")
      let first := (decorators.head?.map (·.span)).getD start
      return ({ name, params := if isStatic then allParams else allParams.drop 1, returns,
                decorators, isStatic, isConstructor := name == "__init__", span,
                extent := extentFrom first ts rest }, rest)
    | _ => throw (unexpected fin .colonAfterSignature rest)
  | ⟨.word (.identifier _), _⟩ :: rest => .error (unexpected fin .openParenAfterMethod rest)
  | ts => .error (unexpected fin .methodName ts)

/-- Whether a name belongs to the language itself. -/
def isReservedName (name : String) : Bool :=
  name.toList.take 2 == ['_', '_'] && name.toList.reverse.take 2 == ['_', '_']

def field (fin : Span) (name : String) (span : Span) (ts : List Token) :
    Except Fault (Option Field × List Token) := do
  let (hint, rest) ← typeBehind fin isColon (ts.drop 1)
  let (default, rest) := match rest with
    | ⟨.word .equals, _⟩ :: rest => defaultValue fin rest
    | _ => (none, rest)
  if hint.isNone && default.isNone && !atLineEnd rest then
    throw (unexpected fin .colonOrEquals rest)
  let extent := extentFrom span ts rest
  let rest ← endOfLine fin rest
  if isReservedName name then return (none, rest)
  return (some { name, hint, default, span, extent }, rest)

structure Members where
  fields : List Field := []
  methods : List Method := []

def Members.append (m n : Members) : Members := ⟨m.fields ++ n.fields, m.methods ++ n.methods⟩

/-- What a line of a class body gives: members, and the decorators that wait for a method. -/
structure MemberLine where
  members : Members := {}
  pending : List Decorator := []

def member (fin : Span) (pending : List Decorator) (ts : List Token) :
    Except Fault (MemberLine × List Token) :=
  match ts with
  | ⟨.word .at, span⟩ :: rest => do
    let (d, rest) ← decorator fin span rest
    return ({ pending := pending ++ [d] }, rest)
  | ⟨.word .defKeyword, span⟩ :: rest => do
    let (m, rest) ← method fin pending span rest
    return ({ members := { methods := [m] } }, rest)
  | ⟨.word .classKeyword, _⟩ :: rest => .ok ({}, skipStatement rest)
  | ⟨.word .passKeyword, _⟩ :: rest | ⟨.word .ellipsis, _⟩ :: rest
  | ⟨.word (.string _), _⟩ :: rest => do
    let rest ← endOfLine fin rest
    return ({ pending }, rest)
  | ⟨.word (.identifier name), span⟩ :: rest =>
    match rest with
    | ⟨.word .defKeyword, defSpan⟩ :: rest' =>
      if name = "async" then do
        let (m, rest) ← method fin pending span rest'
        return ({ members := { methods := [m] } }, rest)
      else .error (unexpected fin .colonOrEquals (⟨.word .defKeyword, defSpan⟩ :: rest'))
    | _ => do
      let (f, rest) ← field fin name span ts
      return ({ members := { fields := f.toList } }, rest)
  | ts => .error (unexpected fin .memberDeclaration ts)

/-- Reads the lines of a class body up to its end. -/
def classBody (fin : Span) (pending : List Decorator) (ts : List Token) :
    Except Fault (Members × List Token) :=
  match ts with
  | [] => .ok ({}, [])
  | ⟨.dedent, _⟩ :: rest => .ok ({}, rest)
  | ⟨.newline, _⟩ :: rest => classBody fin pending rest
  | ts => do
    let (line, rest) ← member fin pending ts
    if rest.length < ts.length then
      let (members, rest) ← classBody fin line.pending rest
      return (line.members.append members, rest)
    else throw (unexpected fin .memberDeclaration rest)
termination_by ts.length

/-- Reads what follows the colon of a class header: a member on the same line or a block. -/
def classMembers (fin : Span) (ts : List Token) : Except Fault (Members × List Token) :=
  match ts with
  | [] => .ok ({}, [])
  | ⟨.newline, _⟩ :: ⟨.indent, _⟩ :: rest => classBody fin [] rest
  | ⟨.newline, _⟩ :: rest => .ok ({}, rest)
  | ts => (member fin [] ts).map fun (line, rest) => (line.members, rest)

/-- Reads a class behind its keyword. -/
def classDef (fin : Span) (decorators : List Decorator) (span : Span) (ts : List Token) :
    Except Fault (ClassDef × List Token) :=
  match ts with
  | ⟨.word (.identifier name), _⟩ :: rest => do
    let (bases, rest) ← match rest with
      | ⟨.opening .round, _⟩ :: rest => baseClasses fin rest
      | rest => pure ([], rest)
    match rest with
    | ⟨.word .colon, _⟩ :: rest =>
      let (members, rest) ← classMembers fin rest
      return ({ name, bases, decorators, fields := members.fields, methods := members.methods,
                span }, rest)
    | _ => throw (unexpected fin .colonAfterClass rest)
  | ts => .error (unexpected fin .className ts)

def isFunction : List Token → Bool
  | ⟨.word .defKeyword, _⟩ :: _ => true
  | ⟨.word (.identifier name), _⟩ :: ⟨.word .defKeyword, _⟩ :: _ => name == "async"
  | _ => false

theorem length_skipBlock_le (ts : List Token) : (skipBlock ts).length ≤ ts.length := by
  unfold skipBlock
  split
  · exact Nat.le_succ_of_le (behindClosing_suffix _ _ 0 _).length_le
  · exact Nat.le_refl _

theorem length_skipStatement_le (t : Token) (ts : List Token) :
    (skipStatement (t :: ts)).length ≤ ts.length := by
  have block := length_skipBlock_le (skipLine (t :: ts))
  have line : (skipLine (t :: ts)).length ≤ ts.length := by
    rw [skipLine, List.length_tail]
    exact Nat.sub_le_of_le_add (lineEnd_suffix (t :: ts)).length_le
  exact Nat.le_trans block line

/-- Reads the classes of a text; decorators wait for the class or function behind them, and all
statements but classes are passed over with their blocks. -/
def classesFrom (fin : Span) (pending : List Decorator) (ts : List Token) :
    Except Fault (List ClassDef) :=
  match ts with
  | [] => .ok []
  | ⟨.newline, _⟩ :: rest => classesFrom fin pending rest
  | ⟨.word .at, span⟩ :: rest => do
    let (d, rest') ← decorator fin span rest
    if rest'.length ≤ rest.length then classesFrom fin (pending ++ [d]) rest'
    else throw (unexpected fin .classOrFunction rest')
  | ⟨.word .classKeyword, span⟩ :: rest => do
    let (c, rest') ← classDef fin pending span rest
    if rest'.length ≤ rest.length then
      let classes ← classesFrom fin [] rest'
      return c :: classes
    else throw (unexpected fin .classOrFunction rest')
  | t :: rest =>
    have := length_skipStatement_le t rest
    if isFunction (t :: rest) || pending.isEmpty then classesFrom fin [] (skipStatement (t :: rest))
    else .error (unexpected fin .classOrFunction (t :: rest))
termination_by ts.length

def Module.ofTokens (ts : List Token) : Except Fault Module := do
  let (ts, fin) := untilEnd .origin ts
  return { classes := ← classesFrom fin [] ts }

/-- The classes that a text declares. -/
def parse (source : String) : Except Fault Module := do Module.ofTokens (← tokens source)

end ViewBridge.Classes
