import ViewBridge.Source.Span

namespace ViewBridge

/-- The three pairs of brackets inside which line ends do not count. -/
inductive Bracket where
  | round
  | square
  | curly
  deriving DecidableEq

namespace Bracket

def openChar : Bracket → Char
  | round => '('
  | square => '['
  | curly => '\x7b'

def closeChar : Bracket → Char
  | round => ')'
  | square => ']'
  | curly => '\x7d'

def ofOpenChar? (c : Char) : Option Bracket :=
  if c = '(' then some round else if c = '[' then some square
  else if c = '\x7b' then some curly else none

def ofCloseChar? (c : Char) : Option Bracket :=
  if c = ')' then some round else if c = ']' then some square
  else if c = '\x7d' then some curly else none

theorem ofOpenChar?_eq_some_iff {c : Char} {b : Bracket} :
    ofOpenChar? c = some b ↔ c = b.openChar := by
  constructor
  · unfold ofOpenChar?
    split <;> (try split) <;> (try split) <;> intro h <;> cases h <;> assumption
  · rintro rfl
    cases b <;> rfl

theorem ofCloseChar?_eq_some_iff {c : Char} {b : Bracket} :
    ofCloseChar? c = some b ↔ c = b.closeChar := by
  constructor
  · unfold ofCloseChar?
    split <;> (try split) <;> (try split) <;> intro h <;> cases h <;> assumption
  · rintro rfl
    cases b <;> rfl

end Bracket

/-- The kinds of token of a language in which indentation makes blocks; `ω` holds its words. -/
inductive TokenKind (ω : Type) where
  | indent
  | dedent
  | newline
  | eof
  | opening (bracket : Bracket)
  | closing (bracket : Bracket)
  | word (w : ω)
  deriving BEq

/-- The name of a token in fault messages, given how the words are named. -/
def TokenKind.describe {ω : Type} (describeWord : ω → String) : TokenKind ω → String
  | .indent => "indent"
  | .dedent => "dedent"
  | .newline => "end of line"
  | .eof => "end of input"
  | .opening bracket => "'" ++ bracket.openChar.toString ++ "'"
  | .closing bracket => "'" ++ bracket.closeChar.toString ++ "'"
  | .word w => describeWord w

/-- Whether a token stands for text of a line, rather than for the layout of lines. -/
def TokenKind.isText {ω : Type} : TokenKind ω → Bool
  | .indent | .dedent | .newline | .eof => false
  | _ => true

namespace TokenKind

variable {ω : Type}

def isIndent : TokenKind ω → Bool
  | .indent => true
  | _ => false

def isDedent : TokenKind ω → Bool
  | .dedent => true
  | _ => false

def isOpening : TokenKind ω → Bool
  | .opening _ => true
  | _ => false

def isClosing : TokenKind ω → Bool
  | .closing _ => true
  | _ => false

end TokenKind

structure Token (ω : Type) where
  kind : TokenKind ω
  span : Span
  deriving BEq

/-- A token list up to its end, with the place where it ends: that of the end token, or of the
last token where there is none. -/
def untilEnd {ω : Type} (place : Span) : List (Token ω) → List (Token ω) × Span
  | [] => ([], place)
  | t :: ts =>
    match t.kind with
    | .eof => ([], t.span)
    | _ =>
      let rest := untilEnd t.span ts
      (t :: rest.1, rest.2)

/-- What remains behind the token that closes something inside which `depth` more are open. -/
def behindClosing {ω : Type} (opens closes : TokenKind ω → Bool) (depth : Nat) :
    List (Token ω) → List (Token ω)
  | [] => []
  | t :: ts =>
    if opens t.kind then behindClosing opens closes (depth + 1) ts
    else if closes t.kind then
      match depth with
      | 0 => ts
      | depth + 1 => behindClosing opens closes depth ts
    else behindClosing opens closes depth ts

/-- What remains behind the bracket that closes a group inside which `depth` groups are open. -/
def behindGroup {ω : Type} (depth : Nat) (ts : List (Token ω)) : List (Token ω) :=
  behindClosing TokenKind.isOpening TokenKind.isClosing depth ts

/-- What remains behind the end of a block inside which `depth` blocks are open. -/
def behindBlock {ω : Type} (depth : Nat) (ts : List (Token ω)) : List (Token ω) :=
  behindClosing TokenKind.isIndent TokenKind.isDedent depth ts

theorem behindClosing_suffix {ω : Type} (opens closes : TokenKind ω → Bool) (depth : Nat)
    (ts : List (Token ω)) : behindClosing opens closes depth ts <:+ ts := by
  fun_induction behindClosing opens closes depth ts with
  | case1 => exact List.suffix_refl _
  | case3 => exact List.suffix_cons _ _
  | case2 _ _ _ _ ih | case4 _ _ _ _ _ ih | case5 _ _ _ _ _ ih =>
    exact ih.trans (List.suffix_cons _ _)

end ViewBridge
