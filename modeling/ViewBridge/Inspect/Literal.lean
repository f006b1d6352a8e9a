import ViewBridge.Inspect.Node
import ViewBridge.Literal.Basic
import ViewBridge.Source.Token

namespace ViewBridge

open Inspect

def Span.inspect (s : Span) : Node :=
  .record "Span" [("start", .nat s.start), ("end", .nat s.stop), ("line", .nat s.line),
    ("column", .nat s.column)]

def Literal.inspect : Literal → Node
  | .string text => .variant "String" [.text text]
  | .integer i => .variant "Integer" [.int i]
  | .float f => .variant "Float" [.float f]
  | .bool b => .variant "Bool" [.bool b]
  | .name text => .variant "Identifier" [.text text]
  | .list items => .variant "List" [.list (inspectAll items)]
  | .tuple items => .variant "Tuple" [.list (inspectAll items)]
  | .call callee args =>
    .record "Call" [("callee", .text callee), ("args", .list (inspectAll args))]
  | .expression text => .variant "Expression" [.text text]
where
  inspectAll : List Literal → List Node
    | [] => []
    | item :: items => item.inspect :: inspectAll items

/-- The names of brackets, behind a letter for their side. -/
def Bracket.inspect (side : String) : Bracket → Node
  | .round => .atom (side ++ "Paren")
  | .square => .atom (side ++ "Bracket")
  | .curly => .atom (side ++ "Brace")

def TokenKind.inspect {ω : Type} (word : ω → Node) : TokenKind ω → Node
  | .indent => .atom "Indent"
  | .dedent => .atom "Dedent"
  | .newline => .atom "Newline"
  | .eof => .atom "Eof"
  | .opening b => b.inspect "L"
  | .closing b => b.inspect "R"
  | .word w => word w

def Token.inspectLine {ω : Type} (word : ω → Node) (t : Token ω) : String :=
  toString t.span.line ++ ":" ++ toString t.span.column ++ "\t" ++
    (t.kind.inspect word).inline ++ "\n"

def inspectTokens {ω : Type} (word : ω → Node) (ts : List (Token ω)) : String :=
  String.join (ts.map (·.inspectLine word))

end ViewBridge
