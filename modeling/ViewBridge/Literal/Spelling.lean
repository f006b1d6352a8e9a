import ViewBridge.Decimal.Layout
import ViewBridge.Literal.Basic

namespace ViewBridge.Literal

def escapeChar (c : Char) : List Char :=
  if c = '\'' then ['\\', '\''] else if c = '\\' then ['\\', '\\'] else if c = '\n' then ['\\', 'n']
  else if c = '\t' then ['\\', 't'] else if c = '\r' then ['\\', 'r'] else [c]

/-- A text in single quotes. -/
def quote (text : String) : String :=
  "'" ++ String.ofList (text.toList.flatMap escapeChar) ++ "'"

/-- A number with a point, unless it is not finite. -/
def floatText (f : Float) : String := Decimal.pointed.write f

/-- The text of a value inside other values. -/
def spelled : Literal → String
  | .string text => quote text
  | .integer i => toString i.toInt
  | .float f => floatText f
  | .bool true => "True"
  | .bool false => "False"
  | .name text => text
  | .list items => "[" ++ joined items ++ "]"
  | .tuple [item] => "(" ++ item.spelled ++ ",)"
  | .tuple items => "(" ++ joined items ++ ")"
  | .call callee args => callee ++ "(" ++ joined args ++ ")"
  | .expression text => text
where
  joined : List Literal → String
    | [] => ""
    | [item] => item.spelled
    | item :: items => item.spelled ++ ", " ++ joined items

theorem spelled.joined_eq (items : List Literal) :
    joined items = ", ".intercalate (items.map (·.spelled)) := by
  match items with
  | [] => rfl
  | [item] => simp [joined]
  | first :: second :: items =>
    rw [joined, joined_eq (second :: items)]
    · exact (String.intercalate_cons_cons ..).symm
    · simp

/-- The text of a property value, where a tuple needs no brackets. -/
def propertyText : Literal → String
  | .tuple [item] => item.spelled ++ ","
  | .tuple (item :: items) => spelled.joined (item :: items)
  | value => value.spelled

end ViewBridge.Literal
