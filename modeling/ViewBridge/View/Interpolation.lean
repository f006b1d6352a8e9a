import ViewBridge.Text.Blank
import ViewBridge.Text.Lines

namespace ViewBridge.View

/-- Whether a quote stands in a text outside an escape. -/
def closesEarly (quote : Char) : List Char → Bool
  | [] => false
  | ['\\'] => false
  | '\\' :: _ :: rest => closesEarly quote rest
  | c :: rest => c == quote || closesEarly quote rest

/-- The expression of a replacement field, without its conversion and format. -/
def fieldExpression (field : List Char) : List Char :=
  Text.trimEnd (Text.trimStart (field.takeWhile fun c => c ≠ ':' && c ≠ '!'))

/-- The text between the quotes of a format string, with its fields written for the generated
language. A field that is open holds what was read of it, backwards. -/
def interpolate (field : Option (List Char)) : List Char → List Char
  | [] =>
    match field with
    | some read => '\\' :: '(' :: fieldExpression read.reverse ++ [')']
    | none => []
  | c :: rest =>
    match field with
    | some read =>
      if c = '\x7d' then '\\' :: '(' :: fieldExpression read.reverse ++ ')' :: interpolate none rest
      else interpolate (some (c :: read)) rest
    | none =>
      match rest with
      | next :: after =>
        if c = '\x7b' ∧ next = '\x7b' then '\x7b' :: interpolate none after
        else if c = '\x7d' ∧ next = '\x7d' then '\x7d' :: interpolate none after
        else if c = '\x7b' then interpolate (some []) (next :: after)
        else if c = '"' then '\\' :: '"' :: interpolate none (next :: after)
        else if c = '\\' then '\\' :: next :: interpolate none after
        else c :: interpolate none (next :: after)
      | [] =>
        if c = '\x7b' then interpolate (some []) []
        else if c = '"' then ['\\', '"']
        else [c]

/-- The text between the first quote and the same quote at the end. -/
def betweenQuotes? : List Char → Option (Char × List Char)
  | [] => none
  | quote :: rest =>
    if (quote = '\'' ∨ quote = '"') ∧ rest.getLast? = some quote then some (quote, rest.dropLast)
    else none

/-- A format string that stands alone as an interpolated string. -/
def interpolation? (text : String) : Option String :=
  match text.toList with
  | [] => none
  | mark :: body =>
    if mark = 'f' ∨ mark = 'F' then
      match betweenQuotes? body with
      | some (quote, inner) =>
        if closesEarly quote inner then none
        else some ("\"" ++ String.ofList (interpolate none inner) ++ "\"")
      | none => none
    else none

end ViewBridge.View
