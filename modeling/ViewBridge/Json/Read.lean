import ViewBridge.Decimal.Read
import ViewBridge.Json.Value

namespace ViewBridge.Json

open Text (isDigit)

def isSpace (c : Char) : Bool := c == ' ' || c == '\n' || c == '\t' || c == '\r'

def skipSpace (cs : List Char) : List Char := cs.dropWhile isSpace

theorem length_skipSpace_le (cs : List Char) : (skipSpace cs).length ≤ cs.length :=
  (List.dropWhile_sublist _).length_le

/-- The number that four hexadecimal digits write. -/
def hexValue? (digits : List Char) : Option Nat := Decimal.natOfDigits? 16 digits

def shortEscape? (c : Char) : Option Char :=
  if c = '"' ∨ c = '\\' ∨ c = '/' then some c else if c = 'b' then some '\x08'
  else if c = 'f' then some '\x0c' else if c = 'n' then some '\n' else if c = 'r' then some '\r'
  else if c = 't' then some '\t' else none

/-- A unit of a string: a character, or half of a surrogate pair. -/
inductive StringUnit where
  | char (c : Char)
  | high (code : Nat)
  | low (code : Nat)

def unitOfCode (code : Nat) : StringUnit :=
  if 0xd800 ≤ code ∧ code < 0xdc00 then .high code
  else if 0xdc00 ≤ code ∧ code < 0xe000 then .low code
  else .char (Char.ofNat code)

/-- Reads the units of a string up to its closing quote. Controls may not stand in a string. -/
def stringUnits : List Char → Option (List StringUnit × List Char)
  | [] => none
  | '"' :: rest => some ([], rest)
  | '\\' :: 'u' :: a :: b :: c :: d :: rest => do
    let code ← hexValue? [a, b, c, d]
    let (units, rest) ← stringUnits rest
    return (unitOfCode code :: units, rest)
  | '\\' :: c :: rest => do
    let escaped ← shortEscape? c
    let (units, rest) ← stringUnits rest
    return (.char escaped :: units, rest)
  | c :: rest =>
    if c = '\\' ∨ c.toNat < 32 then none
    else do
      let (units, rest) ← stringUnits rest
      return (.char c :: units, rest)

/-- The characters of a string, if each half of a pair has its other half. -/
def charsOfUnits? : List StringUnit → Option (List Char)
  | [] => some []
  | .char c :: units => (charsOfUnits? units).map (c :: ·)
  | .high h :: .low l :: units =>
    (charsOfUnits? units).map (Char.ofNat (0x10000 + (h - 0xd800) * 0x400 + (l - 0xdc00)) :: ·)
  | _ => none

def readString? (cs : List Char) : Option (Option String × List Char) := do
  let (units, rest) ← stringUnits cs
  return ((charsOfUnits? units).map String.ofList, rest)

def readFraction? : List Char → Option (Bool × List Char)
  | '.' :: rest =>
    if (rest.takeWhile isDigit).isEmpty then none else some (true, rest.dropWhile isDigit)
  | cs => some (false, cs)

def readExponent? : List Char → Option (Bool × List Char)
  | c :: rest =>
    if c = 'e' ∨ c = 'E' then
      let digits := match rest with
        | '+' :: rest | '-' :: rest => rest
        | rest => rest
      if (digits.takeWhile isDigit).isEmpty then none else some (true, digits.dropWhile isDigit)
    else some (false, c :: rest)
  | [] => some (false, [])

/-- Reads a number without its sign. No zero stands before other digits. -/
def readMagnitude? (negative : Bool) (cs : List Char) : Option (Json × List Char) := do
  let digits := cs.takeWhile isDigit
  if digits.head? = some '0' ∧ digits.length ≠ 1 then none
  else
    let n ← Decimal.natOfDigits? 10 digits
    let (hasFraction, rest) ← readFraction? (cs.dropWhile isDigit)
    let (hasExponent, rest) ← readExponent? rest
    return (if negative || hasFraction || hasExponent then .number else .natural n, rest)

def readNumber? : List Char → Option (Json × List Char)
  | '-' :: rest => readMagnitude? true rest
  | cs => readMagnitude? false cs

def readWord? (word : String) (value : Json) (cs : List Char) : Option (Json × List Char) :=
  if word.toList.isPrefixOf cs then some (value, cs.drop word.length) else none

mutual

def readValue? (cs : List Char) : Option (Json × List Char) :=
  match h : skipSpace cs with
  | [] => none
  | c :: rest =>
    have : rest.length < cs.length := by
      have := length_skipSpace_le cs
      rw [h] at this
      exact this
    if c = '"' then (readString? rest).map fun (text, rest) => (.string text, rest)
    else if c = '[' then
      match skipSpace rest with
      | ']' :: rest => some (.array [], rest)
      | _ => (readItems? rest).map fun (items, rest) => (.array items, rest)
    else if c = '\x7b' then
      match skipSpace rest with
      | '\x7d' :: rest => some (.object [], rest)
      | _ => (readMembers? rest).map fun (members, rest) => (.object members, rest)
    else if c = 'n' then readWord? "null" .null (c :: rest)
    else if c = 't' then readWord? "true" (.bool true) (c :: rest)
    else if c = 'f' then readWord? "false" (.bool false) (c :: rest)
    else readNumber? (c :: rest)
termination_by 2 * cs.length

/-- Reads the values of an array up to its closing bracket. -/
def readItems? (cs : List Char) : Option (List Json × List Char) := do
  let (first, rest) ← readValue? cs
  match skipSpace rest with
  | ']' :: rest => return ([first], rest)
  | ',' :: rest =>
    if rest.length < cs.length then
      let (items, rest) ← readItems? rest
      return (first :: items, rest)
    else none
  | _ => none
termination_by 2 * cs.length + 1

/-- Reads the members of an object up to its closing brace. -/
def readMembers? (cs : List Char) : Option (List (Option String × Json) × List Char) := do
  match skipSpace cs with
  | '"' :: rest =>
    let (key, rest) ← readString? rest
    match skipSpace rest with
    | ':' :: rest =>
      if rest.length < cs.length then
        let (value, rest) ← readValue? rest
        match skipSpace rest with
        | '\x7d' :: rest => return ([(key, value)], rest)
        | ',' :: rest =>
          if rest.length < cs.length then
            let (members, rest) ← readMembers? rest
            return ((key, value) :: members, rest)
          else none
        | _ => none
      else none
    | _ => none
  | _ => none
termination_by 2 * cs.length + 1

end

/-- The document that a text writes, with nothing but space around it. -/
def read? (text : String) : Option Json := do
  let (value, rest) ← readValue? text.toList
  if (skipSpace rest).isEmpty then some value else none

end ViewBridge.Json
