import ViewBridge.Json.Value

namespace ViewBridge.Json

def hexDigit (n : Nat) : Char := if n < 10 then Char.ofNat (48 + n) else Char.ofNat (87 + n)

/-- The escape of a character in a string: the short forms, and four digits for other controls. -/
def escapeChar (c : Char) : List Char :=
  if c = '"' then ['\\', '"'] else if c = '\\' then ['\\', '\\']
  else if c = '\x08' then ['\\', 'b'] else if c = '\x0c' then ['\\', 'f']
  else if c = '\n' then ['\\', 'n'] else if c = '\r' then ['\\', 'r']
  else if c = '\t' then ['\\', 't']
  else if c.toNat < 32 then ['\\', 'u', '0', '0', hexDigit (c.toNat / 16), hexDigit (c.toNat % 16)]
  else [c]

def quote (s : String) : String := "\"" ++ String.ofList (s.toList.flatMap escapeChar) ++ "\""

/-- The marks of a layout: behind a colon, and around the entries of a list at a depth. -/
structure Layout where
  afterColon : String
  lineBreak : Nat → String

/-- Everything on one line without spaces. -/
def compactLayout : Layout := { afterColon := "", lineBreak := fun _ => "" }

/-- One entry to a line, two spaces to a level. -/
def prettyLayout : Layout :=
  { afterColon := " "
    lineBreak := fun depth => "\n" ++ String.ofList (List.replicate (2 * depth) ' ') }

/-- Entries between brackets, with commas between them. -/
def enclosed (layout : Layout) (depth : Nat) (opening closing : String) (entries : List String) :
    String :=
  if entries.isEmpty then opening ++ closing
  else opening ++ layout.lineBreak (depth + 1) ++
    ("," ++ layout.lineBreak (depth + 1)).intercalate entries ++ layout.lineBreak depth ++ closing

mutual

/-- The text of a document in a layout. -/
def write (layout : Layout) (depth : Nat) : Json → String
  | .null => "null"
  | .bool true => "true"
  | .bool false => "false"
  | .natural n => toString n
  | .number => "0"
  | .string s => quote (s.getD "")
  | .array items => enclosed layout depth "[" "]" (writeItems layout (depth + 1) items)
  | .object members => enclosed layout depth "\x7b" "\x7d" (writeMembers layout (depth + 1) members)

def writeItems (layout : Layout) (depth : Nat) : List Json → List String
  | [] => []
  | item :: items => write layout depth item :: writeItems layout depth items

def writeMembers (layout : Layout) (depth : Nat) : List (Option String × Json) → List String
  | [] => []
  | (key, value) :: members =>
    (quote (key.getD "") ++ ":" ++ layout.afterColon ++ write layout depth value) ::
      writeMembers layout depth members

end

def compact (j : Json) : String := j.write compactLayout 0

def pretty (j : Json) : String := j.write prettyLayout 0

end ViewBridge.Json
