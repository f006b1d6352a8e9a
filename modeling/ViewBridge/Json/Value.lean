namespace ViewBridge

/-- A JSON document. Of numbers only the natural ones have a value here. A string whose escapes
hold half of a surrogate pair has no text. -/
inductive Json where
  | null
  | bool (b : Bool)
  | natural (n : Nat)
  | number
  | string (text : Option String)
  | array (items : List Json)
  | object (members : List (Option String × Json))
  deriving Inhabited

namespace Json

def text (s : String) : Json := .string (some s)

/-- An object with the given fields in order. -/
def record (fields : List (String × Json)) : Json :=
  .object (fields.map fun field => (some field.1, field.2))

end Json

end ViewBridge
