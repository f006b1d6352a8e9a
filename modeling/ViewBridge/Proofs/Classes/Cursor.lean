import ViewBridge.Proofs.Classes.Faults
import ViewBridge.Proofs.Source.CursorValues

namespace ViewBridge.Classes

open ViewBridge.Cursor

/-- The words that comparing tells from all others. -/
def Word.isMark : Word → Bool
  | .comma | .colon | .dot | .equals | .arrow | .pipe | .defKeyword => true
  | _ => false

theorem mark_of_isMark {w : Word} (hw : w.isMark = true) : Mark (.word w) := by
  refine mark_word fun v => ?_
  cases w with
  | comma | colon | dot | equals | arrow | pipe | defKeyword =>
    cases v <;> first | exact ⟨fun _ => rfl, fun _ => rfl⟩ | exact ⟨nofun, nofun⟩
  | _ => cases hw

instance : Mark (.word Word.comma) := mark_of_isMark rfl

instance : Mark (.word Word.colon) := mark_of_isMark rfl

instance : Mark (.word Word.dot) := mark_of_isMark rfl

instance : Mark (.word Word.equals) := mark_of_isMark rfl

instance : Mark (.word Word.arrow) := mark_of_isMark rfl

instance : Mark (.word Word.pipe) := mark_of_isMark rfl

instance : Mark (.word Word.defKeyword) := mark_of_isMark rfl

/-- A position in a list of tokens. -/
abbrev Cursor := Nat

namespace Cursor

section Lines

variable (all : List Token)

def lineEnd (p : Cursor) : Run Nat := do
  if ← atLineBreak all p then return p
  else
    let (_, (p : Cursor)) ← advance all p
    p |>.lineEnd
partial_fixpoint

def skipLine (p : Nat) : Run Nat := do
  let p ← lineEnd all p
  let (_, p) ← accept all p .newline
  return p

/-- Passes the rest of a block inside which so many blocks are open, itself counted. -/
def skipBlockLines (depth : Nat) (p : Cursor) : Run Nat := do
  if depth = 0 then return p
  else
    let (t, (p : Cursor)) ← advance all p
    match t.kind with
    | .indent => p |>.skipBlockLines (depth + 1)
    | .dedent =>
      let depth ← lower depth
      p |>.skipBlockLines depth
    | .eof => return p
    | _ => p |>.skipBlockLines depth
partial_fixpoint

def skipBlock (p : Nat) : Run Nat := do
  let (indented, p) ← accept all p .indent
  if indented then skipBlockLines all 1 p else return p

def skipStatement (p : Nat) : Run Nat := do
  let p ← skipLine all p
  skipBlock all p

/-- The brackets open behind a token of an argument, or nothing where the argument ends before it. -/
def argumentDepth (depth : Nat) : Kind → Run (Option Nat)
  | .opening _ => pure (some (depth + 1))
  | .closing _ =>
    if depth = 0 then pure none
    else do
      let depth ← lower depth
      return some depth
  | .word .comma => if depth = 0 then pure none else pure (some depth)
  | .newline | .eof => pure none
  | _ => pure (some depth)

def skipArgument (depth : Nat) (p : Cursor) : Run Nat := do
  let t ← tokenAt all p
  match ← argumentDepth depth t.kind with
  | none => return p
  | some depth =>
    let (_, (p : Cursor)) ← advance all p
    p |>.skipArgument depth
partial_fixpoint

/-- Passes the rest of a group, from its opening bracket on if none is open yet. -/
def skipGroup (depth : Nat) (p : Cursor) : Run Nat := do
  let (t, (p : Cursor)) ← advance all p
  match t.kind with
  | .opening _ => p |>.skipGroup (depth + 1)
  | .closing _ => if depth - 1 = 0 then return p else p |>.skipGroup (depth - 1)
  | .eof => return p
  | _ => p |>.skipGroup depth
partial_fixpoint

/-- The span from the start of another one to the end of the last text before a position. -/
def extentFrom (start : Span) (p : Nat) : Run Span := do
  let before ← slice all 0 p
  let stop := ((before.filter (·.kind.isText)).getLast?.map (·.span.stop)).getD start.stop
  return { start with stop := max stop start.stop }

end Lines

section Values

variable (all : List Token)

def identifier (expected : Expected) (p : Nat) : Run ((String × Span) × Nat) := do
  match ← tokenAt all p with
  | ⟨.word (.identifier name), span⟩ =>
    let (_, p) ← advance all p
    return ((name, span), p)
  | _ => refuse all p expected

def dottedTail (p : Cursor) : Run (String × Nat) := do
  let (goesOn, p) ← accept all p (.word .dot)
  if goesOn then
    let ((name, _), (p : Cursor)) ← identifier all .nameAfterDot p
    let (more, p) ← p |>.dottedTail
    return ("." ++ name ++ more, p)
  else return ("", p)
partial_fixpoint

def dottedName (expected : Expected) (p : Nat) : Run (String × Nat) := do
  let ((name, _), p) ← identifier all expected p
  let (more, p) ← dottedTail all p
  return (name ++ more, p)

instance : Positioned Word where
  wholeName all first p := do
    let (more, p) ← dottedTail all p
    return (first ++ more, p)

def plainValue (p : Nat) : Run (Literal × Nat) := Cursor.bareTuple all (Cursor.atom all) p

/-- Passes the line from a position on, whatever was tried there. -/
def noDefault (p : Nat) : Run (Option Literal × Nat) := do
  let p ← lineEnd all p
  return (none, p)

def defaultValue (p : Nat) : Run (Option Literal × Nat) := do
  match ← (plainValue all p).attempt with
  | .ok (value, q) => if ← atLineBreak all q then return (some value, q) else noDefault all p
  | .error _ => noDefault all p

end Values

section Types

/-- A text in quotes, which may spell a type. -/
abbrev Quote := String

mutual

def typeExpression (all : List Token) (p : Cursor) : Run (TypeHint × Nat) := do
  let (first, (p : Cursor)) ← p |>.typeMember all
  match (← tokenAt all p).kind with
  | .word .pipe =>
    let (members, p) ← p |>.moreMembers all
    return (.union (first :: members), p)
  | _ => return (first, p)
partial_fixpoint

def moreMembers (all : List Token) (p : Cursor) : Run (List TypeHint × Nat) := do
  let (goesOn, (p : Cursor)) ← accept all p (.word .pipe)
  if goesOn then
    let (first, (p : Cursor)) ← p |>.typeMember all
    let (members, p) ← p |>.moreMembers all
    return (first :: members, p)
  else return ([], p)
partial_fixpoint

def typeMember (all : List Token) (p : Cursor) : Run (TypeHint × Nat) := do
  match (← tokenAt all p).kind with
  | .word (.identifier name) =>
    if name = "None" then
      let (_, p) ← advance all p
      return (.none, p)
    else
      let (name, p) ← dottedName all .typeExpression p
      let (subscripted, (p : Cursor)) ← accept all p (.opening .square)
      if subscripted then
        let (args, p) ← p |>.typeList all
        return (.subscript name args, p)
      else return (.name name, p)
  | .opening .square =>
    let (_, (p : Cursor)) ← advance all p
    let (items, p) ← p |>.typeList all
    return (.listOf items, p)
  | .opening .round =>
    let (_, (p : Cursor)) ← advance all p
    let (inner, p) ← p |>.typeExpression all
    let (_, p) ← consume all p (.closing .round) .closeParen
    return (inner, p)
  | .word .ellipsis =>
    let (_, p) ← advance all p
    return (.ellipsis, p)
  | .word (.string (text : Quote)) =>
    let (_, p) ← advance all p
    let type ← text |>.type
    return (type, p)
  | _ => refuse all p .typeExpression
partial_fixpoint

def typeList (all : List Token) (p : Cursor) : Run (List TypeHint × Nat) := do
  let (closed, (p : Cursor)) ← accept all p (.closing .square)
  if closed then return ([], p)
  else
    let (first, p) ← p |>.typeExpression all
    let (goesOn, (p : Cursor)) ← accept all p (.word .comma)
    if goesOn then
      let (items, p) ← p |>.typeList all
      return (first :: items, p)
    else
      let (_, p) ← consume all p (.closing .square) .commaOrCloseBracket
      return ([first], p)
partial_fixpoint

/-- Reads tokens that spell a type from a position on, and nothing else. -/
def wholeType (all : List Token) (p : Cursor) : Run TypeHint := do
  let (type, p) ← p |>.typeExpression all
  let p ← passLineBreak all p
  match (← tokenAt all p).kind with
  | .eof => return type
  | _ => refuse all p .endOfLine
partial_fixpoint

/-- What a quoted text stands for. Its tokens are read like those around it, and whatever is wrong
with them makes it stand for itself. -/
def Quote.type (text : Quote) : Run TypeHint :=
  match tokens (Text.trim text) with
  | .error _ => pure (.forward (Text.trim text))
  | .ok ts =>
    (do
      match ← ((0 : Cursor) |>.wholeType (closed .origin ts)).run with
      | .ok type => return .ok type
      | .error (.fault _) => return .ok (.forward (Text.trim text))
      | .error halt => return .error halt : Option (Except Halt TypeHint))
partial_fixpoint

end

def parseType (ts : List Token) : Run TypeHint := do
  let (type, _) ← typeExpression (closed .origin ts) 0
  return type

end Types

section Members

variable (all : List Token)

def typeBehind (kind : Kind) (p : Nat) : Run (Option TypeHint × Nat) := do
  let (marked, p) ← accept all p kind
  if marked then
    let (type, p) ← typeExpression all p
    return (some type, p)
  else return (none, p)

/-- Reads a decorator line, the at sign of which the caller has seen. -/
def decorator (p : Nat) : Run (Decorator × Nat) := do
  let (t, p) ← advance all p
  let (name, p) ← dottedName all .decoratorName p
  match (← tokenAt all p).kind with
  | .opening .round =>
    let p ← skipGroup all 0 p
    let p ← passLineBreak all p
    return ({ name, hasArgs := true, span := t.span }, p)
  | _ =>
    let p ← passLineBreak all p
    return ({ name, hasArgs := false, span := t.span }, p)

def entryEnd (p : Nat) : Run (Bool × Nat) := do
  let (goesOn, p) ← accept all p (.word .comma)
  if goesOn then return (true, p)
  else
    let (_, p) ← consume all p (.closing .round) .commaOrCloseParen
    return (false, p)

def plainBase (p : Nat) : Run (Option String × Nat) := do
  let (name, p) ← dottedName all .baseClass p
  match (← tokenAt all p).kind with
  | .opening .square =>
    let p ← skipGroup all 0 p
    return (some name, p)
  | _ => return (some name, p)

def baseClass (p : Nat) : Run (Option String × Nat) := do
  match ← kindAhead all p 0 with
  | .word (.identifier _) =>
    match ← kindAhead all p 1 with
    | .word .equals =>
      let p ← skipArgument all 0 p
      return (none, p)
    | _ => plainBase all p
  | _ => plainBase all p

/-- Reads the entries of a list in round brackets, up to its closing bracket. -/
def entries {α : Type} (entry : Nat → Run (Option α × Nat)) (p : Cursor) : Run (List α × Nat) := do
  let (closed, p) ← accept all p (.closing .round)
  if closed then return ([], p)
  else
    let (first, p) ← entry p
    let (goesOn, (p : Cursor)) ← entryEnd all p
    if goesOn then
      let (others, p) ← p |>.entries entry
      return (first.toList ++ others, p)
    else return (first.toList, p)
partial_fixpoint

def starParam (p : Nat) : Run (Option Param × Nat) := do
  let (_, p) ← advance all p
  match (← tokenAt all p).kind with
  | .word (.identifier _) =>
    let (_, p) ← advance all p
    let (_, p) ← typeBehind all (.word .colon) p
    return (none, p)
  | _ => return (none, p)

def plainParam (p : Nat) : Run (Option Param × Nat) := do
  let ((name, span), p) ← identifier all .parameterName p
  let (hint, p) ← typeBehind all (.word .colon) p
  let (defaulted, p) ← accept all p (.word .equals)
  if defaulted then
    let p ← skipArgument all 0 p
    return (some { name, hint, span }, p)
  else return (some { name, hint, span }, p)

def paramEntry (p : Nat) : Run (Option Param × Nat) := do
  match (← tokenAt all p).kind with
  | .word .star | .word .doubleStar => starParam all p
  | .word (.operator op) =>
    if op = "/" then
      let (_, p) ← advance all p
      return (none, p)
    else plainParam all p
  | _ => plainParam all p

def methodBody (p : Nat) : Run Nat := do
  if ← atLineBreak all p then
    let p ← passLineBreak all p
    skipBlock all p
  else skipLine all p

def withoutFirst : List Param → Run (List Param)
  | [] => throw .outOfRange
  | _ :: params => pure params

/-- The parameters that a caller sees: all of a static method, or all but the receiver. -/
def keptParams (isStatic : Bool) (params : List Param) : Run (List Param) :=
  if !isStatic && !params.isEmpty then withoutFirst params else pure params

/-- Reads a method, the keyword of which the caller has seen. -/
def method (decorators : List Decorator) (async : Option Span) (p : Nat) : Run (Method × Nat) := do
  let (t, p) ← advance all p
  let start := ((decorators.head?.map (·.span)).or async).getD t.span
  let ((name, span), p) ← identifier all .methodName p
  let (_, p) ← consume all p (.opening .round) .openParenAfterMethod
  let (params, p) ← entries all (paramEntry all) p
  let (returns, p) ← typeBehind all (.word .arrow) p
  let (_, p) ← consume all p (.word .colon) .colonAfterSignature
  let p ← methodBody all p
  let extent ← extentFrom all start p
  let isStatic := decorators.any (·.name == "staticmethod")
  let params ← keptParams isStatic params
  return ({ name, params, returns, decorators, isStatic, isConstructor := name == "__init__", span,
            extent }, p)

def fieldDefault (p : Nat) : Run (Option Literal × Nat) := do
  let (assigned, p) ← accept all p (.word .equals)
  if assigned then defaultValue all p else return (none, p)

def field (p : Nat) : Run (Option Field × Nat) := do
  let ((name, span), p) ← identifier all .memberDeclaration p
  let (hint, p) ← typeBehind all (.word .colon) p
  let (default, p) ← fieldDefault all p
  let ended ← atLineBreak all p
  if hint.isNone && default.isNone && !ended then refuse all p .colonOrEquals
  else
    let extent ← extentFrom all span p
    let p ← passLineBreak all p
    if isReservedName name then return (none, p)
    else return (some { name, hint, default, span, extent }, p)

def methodLine (pending : List Decorator) (async : Option Span) (p : Nat) :
    Run (MemberLine × Nat) := do
  let (m, p) ← method all pending async p
  return ({ members := { methods := [m] } }, p)

def fieldLine (p : Nat) : Run (MemberLine × Nat) := do
  let (f, p) ← field all p
  return ({ members := { fields := f.toList } }, p)

def member (pending : List Decorator) (p : Nat) : Run (MemberLine × Nat) := do
  match (← tokenAt all p).kind with
  | .word .at =>
    let (d, p) ← decorator all p
    return ({ pending := pending ++ [d] }, p)
  | .word .defKeyword => methodLine all pending none p
  | .word .classKeyword =>
    let p ← skipStatement all p
    return ({}, p)
  | .word .passKeyword | .word .ellipsis | .word (.string _) =>
    let (_, p) ← advance all p
    let p ← passLineBreak all p
    return ({ pending }, p)
  | .word (.identifier name) =>
    if name = "async" then
      match ← kindAhead all p 1 with
      | .word .defKeyword =>
        let (t, p) ← advance all p
        methodLine all pending (some t.span) p
      | _ => fieldLine all p
    else fieldLine all p
  | _ => refuse all p .memberDeclaration

def classBody (pending : List Decorator) (p : Cursor) : Run (Members × Nat) := do
  match (← tokenAt all p).kind with
  | .dedent =>
    let (_, p) ← advance all p
    return ({}, p)
  | .eof => return ({}, p)
  | .newline =>
    let (_, (p : Cursor)) ← advance all p
    p |>.classBody pending
  | _ =>
    let (line, (p : Cursor)) ← member all pending p
    let (members, p) ← p |>.classBody line.pending
    return (line.members.append members, p)
partial_fixpoint

def classMembers (p : Nat) : Run (Members × Nat) := do
  if ← atLineBreak all p then
    let p ← passLineBreak all p
    let (indented, p) ← accept all p .indent
    if indented then classBody all [] p else return ({}, p)
  else
    let (line, p) ← member all [] p
    return (line.members, p)

def classBases (p : Nat) : Run (List String × Nat) := do
  let (listed, p) ← accept all p (.opening .round)
  if listed then entries all (baseClass all) p else return ([], p)

/-- Reads a class, the keyword of which the caller has seen. -/
def classDef (decorators : List Decorator) (p : Nat) : Run (ClassDef × Nat) := do
  let (t, p) ← advance all p
  let ((name, _), p) ← identifier all .className p
  let (bases, p) ← classBases all p
  let (_, p) ← consume all p (.word .colon) .colonAfterClass
  let (members, p) ← classMembers all p
  return ({ name, bases, decorators, fields := members.fields, methods := members.methods,
            span := t.span }, p)

def isFunction (p : Nat) : Run Bool := do
  match (← tokenAt all p).kind with
  | .word .defKeyword => return true
  | .word (.identifier name) =>
    if name = "async" then
      match ← kindAhead all p 1 with
      | .word .defKeyword => return true
      | _ => return false
    else return false
  | _ => return false

def classesFrom (pending : List Decorator) (p : Cursor) : Run (List ClassDef) := do
  match (← tokenAt all p).kind with
  | .eof => return []
  | .newline =>
    let (_, (p : Cursor)) ← advance all p
    p |>.classesFrom pending
  | .word .at =>
    let (d, (p : Cursor)) ← decorator all p
    p |>.classesFrom (pending ++ [d])
  | .word .classKeyword =>
    let (c, (p : Cursor)) ← classDef all pending p
    let classes ← p |>.classesFrom []
    return c :: classes
  | _ =>
    let function ← isFunction all p
    if function || pending.isEmpty then
      let p : Cursor ← skipStatement all p
      p |>.classesFrom []
    else refuse all p .classOrFunction
partial_fixpoint

end Members

/-- The classes that a list of tokens spells, read with a position in them. -/
def parse (ts : List Token) : Run Module := do
  let classes ← classesFrom (closed .origin ts) [] 0
  return { classes }

end Cursor

end ViewBridge.Classes
