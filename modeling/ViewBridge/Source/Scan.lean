import ViewBridge.Source.Fault
import ViewBridge.Source.Indentation
import ViewBridge.Source.Token

namespace ViewBridge

/-- What is read at a place inside a line: text that makes no token, or a word. The count is of the
characters after the first one. -/
inductive Lexeme (ω : Type) where
  | gap (more : Nat)
  | word (w : ω) (more : Nat)

/-- A fault that many characters after the place where reading began, over `width` characters. -/
structure Misread where
  fault : LexFault
  skipped : Nat
  width : Nat

/-- How one language reads a word: from the token before it, its first character and what
follows. -/
abbrev Lexicon (ω : Type) := Option (TokenKind ω) → Char → List Char → Except Misread (Lexeme ω)

/-- What is known at a place of a text that is being cut into tokens. -/
structure Scanner (ω : Type) where
  place : Position := Position.start
  blocks : Indentation := {}
  /-- The open brackets with their places, innermost first. -/
  opened : List (Bracket × Span) := []
  /-- The token before this place. -/
  previous : Option (TokenKind ω) := none

namespace Scanner

variable {ω : Type}

/-- The scanner after text that makes no token. -/
def pass (s : Scanner ω) (text : List Char) : Scanner ω := { s with place := s.place.after text }

/-- The token that a stretch of text from here makes. -/
def token (s : Scanner ω) (kind : TokenKind ω) (text : List Char) : Token ω :=
  ⟨kind, .ofPosition s.place text.length⟩

/-- The scanner after text that makes a token. -/
def emit (s : Scanner ω) (kind : TokenKind ω) (text : List Char) : Scanner ω :=
  { s.pass text with previous := some kind }

def layoutKinds : IndentChange → List (TokenKind ω)
  | .same => []
  | .indent => [.indent]
  | .dedent closed => List.replicate closed .dedent

/-- The tokens at the end of a text: a line end if the last line lacks one, and the ends of all
open blocks. -/
def closingKinds (s : Scanner ω) : List (TokenKind ω) :=
  (match s.previous with
    | none | some .newline => []
    | some _ => [.newline]) ++ List.replicate s.blocks.closeAll.1 .dedent ++ [.eof]

def finish (s : Scanner ω) : Except Fault (List (Token ω)) :=
  match s.opened with
  | (bracket, span) :: _ => .error (.lex (.unclosed bracket.openChar) span)
  | [] => .ok (s.closingKinds.map (s.token · []))

/-- The text of a comment up to the end of its line. -/
def comment (cs : List Char) : List Char := cs.takeWhile (· ≠ '\n')

def afterComment (cs : List Char) : List Char := cs.dropWhile (· ≠ '\n')

theorem length_afterComment_le (cs : List Char) : (afterComment cs).length ≤ cs.length :=
  (List.dropWhile_sublist _).length_le

theorem length_lt_of_dropWhile_eq_cons {p : Char → Bool} {cs rest : List Char} {c : Char}
    (h : cs.dropWhile p = c :: rest) : rest.length < cs.length := by
  have : (cs.dropWhile p).length ≤ cs.length := (List.dropWhile_sublist p).length_le
  rw [h] at this
  exact this

mutual

/-- The tokens from the start of a line on. Lines that hold nothing but blanks or a comment make
no token; any other line opens or closes blocks by its indentation. -/
def lineTokens (read : Lexicon ω) (s : Scanner ω) (cs : List Char) :
    Except Fault (List (Token ω)) :=
  let blanks := leadingBlanks cs
  let s := s.pass blanks
  match h : cs.dropWhile isIndent with
  | [] => s.finish
  | c :: rest =>
    have := length_lt_of_dropWhile_eq_cons h
    if c = '\n' ∨ c = '\r' then lineTokens read (s.pass [c]) rest
    else if c = '#' then
      have := length_afterComment_le rest
      lineTokens read (s.pass (c :: comment rest)) (afterComment rest)
    else
      match s.blocks.update (indentWidth blanks) with
      | .error left =>
        .error (.lex (.inconsistentIndentation (indentWidth blanks) left.top)
          (.ofPosition s.place 0))
      | .ok (change, blocks) =>
        let kinds := layoutKinds change
        let next := { s with blocks, previous := kinds.getLast?.or s.previous }
        (restTokens read next (c :: rest)).map (kinds.map (s.token · []) ++ ·)
termination_by 2 * cs.length + 1
decreasing_by all_goals simp -failIfUnchanged only [List.length_cons]; omega

/-- The tokens from a place inside a line on. -/
def restTokens (read : Lexicon ω) (s : Scanner ω) (cs : List Char) :
    Except Fault (List (Token ω)) :=
  match cs with
  | [] => s.finish
  | c :: rest =>
    if c = ' ' ∨ c = '\t' ∨ c = '\r' then restTokens read (s.pass [c]) rest
    else if c = '\n' then
      if s.opened.isEmpty then
        (lineTokens read (s.emit .newline [c]) rest).map (s.token .newline [c] :: ·)
      else restTokens read (s.pass [c]) rest
    else if c = '#' then
      have := length_afterComment_le rest
      restTokens read (s.pass (c :: comment rest)) (afterComment rest)
    else
      match Bracket.ofOpenChar? c, Bracket.ofCloseChar? c with
      | some b, _ =>
        let next := s.emit (.opening b) [c]
        (restTokens read { next with opened := (b, .ofPosition s.place 1) :: s.opened } rest).map
          (s.token (.opening b) [c] :: ·)
      | none, some b =>
        match s.opened with
        | [] => .error (.lex (.unmatched c) (.ofPosition s.place 1))
        | (innermost, _) :: opened =>
          if innermost = b then
            (restTokens read { s.emit (.closing b) [c] with opened } rest).map
              (s.token (.closing b) [c] :: ·)
          else .error (.lex (.unmatched c) (.ofPosition s.place 1))
      | none, none =>
        match read s.previous c rest with
        | .error misread =>
          let place := s.place.after ((c :: rest).take misread.skipped)
          .error (.lex misread.fault (.ofPosition place misread.width))
        | .ok (.gap more) =>
          restTokens read (s.pass (c :: rest.take more)) (rest.drop more)
        | .ok (.word w more) =>
          let text := c :: rest.take more
          (restTokens read (s.emit (.word w) text) (rest.drop more)).map
            (s.token (.word w) text :: ·)
termination_by 2 * cs.length
decreasing_by all_goals simp only [List.length_cons, List.length_drop]; omega

end

end Scanner

/-- The tokens of a text, in the language whose words `read` knows. -/
def tokensOf {ω : Type} (read : Lexicon ω) (source : String) : Except Fault (List (Token ω)) :=
  Scanner.lineTokens read {} source.toList

end ViewBridge
