import ViewBridge.Decimal.Layout
import ViewBridge.Text.Outline
import ViewBridge.Text.Printable

namespace ViewBridge.Inspect

/-- A value laid open for reading by people. -/
inductive Node where
  /-- A word or a number. -/
  | atom (text : String)
  /-- A name with the values it holds in parentheses. -/
  | variant (name : String) (values : List Node)
  /-- A name with named values in braces. -/
  | record (name : String) (fields : List (String × Node))
  | list (items : List Node)
  deriving Inhabited

/-- The escape of a character inside quotes. What has no visible form of its own is written by its
code. -/
def escapeChar (c : Char) : List Char :=
  if c = '"' then ['\\', '"'] else if c = '\\' then ['\\', '\\'] else if c = '\n' then ['\\', 'n']
  else if c = '\t' then ['\\', 't'] else if c = '\r' then ['\\', 'r']
  else if c = '\x00' then ['\\', '0']
  else if Text.isExtending c || !Text.isPrintable c then
    ['\\', 'u', '\x7b'] ++ Nat.toDigits 16 c.toNat ++ ['\x7d']
  else [c]

namespace Node

def text (s : String) : Node :=
  .atom ("\"" ++ String.ofList (s.toList.flatMap escapeChar) ++ "\"")

def nat (n : Nat) : Node := .atom (toString n)

def int (i : Int64) : Node := .atom (toString i.toInt)

def float (f : Float) : Node := .atom (Decimal.general.write f)

def bool (b : Bool) : Node := .atom (if b then "true" else "false")

def option : Option Node → Node
  | some value => .variant "Some" [value]
  | none => .atom "None"

def inline : Node → String
  | .atom text => text
  | .variant name values => name ++ "(" ++ inlineAll values ++ ")"
  | .record name fields => name ++ " \x7b " ++ inlineFields fields ++ " \x7d"
  | .list items => "[" ++ inlineAll items ++ "]"
where
  inlineAll : List Node → String
    | [] => ""
    | [item] => item.inline
    | item :: items => item.inline ++ ", " ++ inlineAll items
  inlineFields : List (String × Node) → String
    | [] => ""
    | [(name, value)] => name ++ ": " ++ value.inline
    | (name, value) :: fields => name ++ ": " ++ value.inline ++ ", " ++ inlineFields fields

open Text (Outline)

/-- A value with one part to a line, between what stands before it and behind it. -/
def outline (depth : Nat) (before after : String) : Node → Outline
  | .atom text => [.line depth (before ++ text ++ after)]
  | .variant name values =>
    .line depth (before ++ name ++ "(") :: outlineAll (depth + 1) values ++
      [.line depth (")" ++ after)]
  | .record name fields =>
    .line depth (before ++ name ++ " \x7b") :: outlineFields (depth + 1) fields ++
      [.line depth ("\x7d" ++ after)]
  | .list [] => [.line depth (before ++ "[]" ++ after)]
  | .list (item :: items) =>
    .line depth (before ++ "[") :: item.outline (depth + 1) "" "," ++
      outlineAll (depth + 1) items ++ [.line depth ("]" ++ after)]
where
  outlineAll (depth : Nat) : List Node → Outline
    | [] => []
    | item :: items => item.outline depth "" "," ++ outlineAll depth items
  outlineFields (depth : Nat) : List (String × Node) → Outline
    | [] => []
    | (name, value) :: fields =>
      value.outline depth (name ++ ": ") "," ++ outlineFields depth fields

/-- A value over as many lines as it has parts, four spaces to a level. -/
def pretty (n : Node) : String := (n.outline 0 "" "").render 4

end Node

end ViewBridge.Inspect
