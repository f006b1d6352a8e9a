import ViewBridge.Text.Dictionary

namespace ViewBridge

/-- The target names of scalar types by their source names. -/
structure TypeTable where
  names : Text.Dictionary String

namespace TypeTable

def builtin : TypeTable := ⟨.ofList [
  ("str", "String"), ("int", "Int"), ("float", "Double"), ("bool", "Bool"), ("bytes", "Data"),
  ("bytearray", "Data"), ("datetime", "Date"), ("url", "URL"), ("None", "Void"),
  ("object", "PyPointer"), ("Substring", "Substring")]⟩

/-- The built-in table with other names put over its own. -/
def withOverrides (overrides : Text.Dictionary String) : TypeTable :=
  ⟨builtin.names.override overrides⟩

def lookup? (t : TypeTable) (name : String) : Option String := t.names.get? name

/-- The target name of a type; a name that the table does not know stands for itself. -/
def resolve (t : TypeTable) (name : String) : String := (t.lookup? name).getD name

end TypeTable

end ViewBridge
