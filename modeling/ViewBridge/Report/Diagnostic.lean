import ViewBridge.Source.Fault

namespace ViewBridge

inductive Severity where
  | error
  | warning
  | info
  deriving DecidableEq

def Severity.describe : Severity → String
  | .error => "error"
  | .warning => "warning"
  | .info => "info"

structure Location where
  line : Nat
  column : Nat
  deriving DecidableEq

def Location.ofSpan (s : Span) : Location := ⟨s.line, s.column⟩

/-- Something to tell about a source text. -/
structure Diagnostic where
  code : String
  severity : Severity
  message : String
  location : Option Location
  deriving DecidableEq

namespace Diagnostic

def ofFault (f : Fault) : Diagnostic :=
  { code := match f with
      | .lex .. => "E0001"
      | .parse .. => "E0002"
    severity := .error
    message := f.message
    location := some (.ofSpan f.span) }

def warning (code message : String) (span : Span) : Diagnostic :=
  { code, severity := .warning, message, location := some (.ofSpan span) }

/-- A field is declared with one type and constructed with another. -/
def typeConflict (field declared constructed : String) (span : Span) : Diagnostic :=
  warning "W0001" ("field '" ++ field ++ "' is annotated as " ++ declared ++
    " but __init__ takes " ++ constructed ++ "; keeping " ++ declared) span

/-- A class of widgets has no view. -/
def unknownWidget (name : String) (span : Span) : Diagnostic :=
  warning "W0002" ("unknown widget '" ++ name ++ "'") span

def isError (d : Diagnostic) : Bool := d.severity == .error

/-- The diagnostic as a comment of the language that `marker` starts a comment in. -/
def commentLine (marker : String) (d : Diagnostic) : String :=
  marker ++ " " ++ d.severity.describe ++ ": " ++ d.message ++
    match d.location with
    | some l => " (line " ++ toString l.line ++ ", column " ++ toString l.column ++ ")"
    | none => ""

end Diagnostic

end ViewBridge
