namespace ViewBridge.Text

/-- A line of an indented text: an empty one, or one with its depth and what stands on it. -/
inductive OutlineLine where
  | empty
  | line (depth : Nat) (content : String)
  deriving DecidableEq

/-- An indented text before the width of a level is chosen. -/
abbrev Outline := List OutlineLine

namespace OutlineLine

/-- The line some levels deeper; an empty line has no depth. -/
def deeper (levels : Nat) : OutlineLine → OutlineLine
  | .empty => .empty
  | .line depth content => .line (depth + levels) content

def render (width : Nat) : OutlineLine → String
  | .empty => "\n"
  | .line depth content => String.ofList (List.replicate (depth * width) ' ') ++ content ++ "\n"

end OutlineLine

namespace Outline

def deeper (levels : Nat) (outline : Outline) : Outline := outline.map (·.deeper levels)

/-- The text of an outline, `width` spaces to a level. -/
def render (width : Nat) (outline : Outline) : String :=
  String.join (outline.map (·.render width))

/-- Outlines one after the other with an empty line between them. -/
def separated : List Outline → Outline
  | [] => []
  | [outline] => outline
  | outline :: others => outline ++ .empty :: separated others

end Outline

end ViewBridge.Text
