namespace ViewBridge.Classes

inductive TypeHint where
  /-- A name, with its dots. -/
  | name (text : String)
  | subscript (base : String) (args : List TypeHint)
  /-- Types in square brackets alone. -/
  | listOf (items : List TypeHint)
  | union (members : List TypeHint)
  | none
  /-- A quoted text that spells no type. -/
  | forward (text : String)
  | ellipsis
  deriving Inhabited

end ViewBridge.Classes
