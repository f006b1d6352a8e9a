import ViewBridge.Text.Dictionary

namespace ViewBridge

/-- How classes are declared: as containers of a foreign object, or as wrappers with members. -/
inductive ClassStyle where
  | container
  | wrapper
  deriving DecidableEq

/-- The choices of the user. -/
structure Config where
  /-- Spaces to a level of the generated text. -/
  indentWidth : Nat := 4
  /-- Whether comments tell of what is not carried over. -/
  includeComments : Bool := true
  /-- Whether a root widget that is no layout becomes a declared view. -/
  generateStructs : Bool := true
  generateStateProperties : Bool := true
  classStyle : ClassStyle := .container
  /-- Names of views by classes of widgets. -/
  widgets : Text.Dictionary String := .empty
  /-- Names of target types by names of source types. -/
  types : Text.Dictionary String := .empty
  deriving DecidableEq

instance : Inhabited Config := ⟨{}⟩

end ViewBridge
