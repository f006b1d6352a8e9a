import ViewBridge.Json.Write
import ViewBridge.Report.Diagnostic

namespace ViewBridge

/-- The sizes of a run: tokens read, nodes of the tree, lines written. -/
structure Stats where
  tokens : Nat := 0
  nodes : Nat := 0
  lines : Nat := 0
  deriving DecidableEq

/-- What a run is told about in full. -/
structure Report where
  frontend : String
  output : String
  diagnostics : List Diagnostic
  stats : Stats

def Severity.documentName : Severity → String
  | .error => "Error"
  | .warning => "Warning"
  | .info => "Info"

def Location.toJson (l : Location) : Json :=
  .record [("line", .natural l.line), ("column", .natural l.column)]

def Diagnostic.toJson (d : Diagnostic) : Json := .record [
  ("code", .text d.code),
  ("severity", .text d.severity.documentName),
  ("message", .text d.message),
  ("location", (d.location.map (·.toJson)).getD .null)]

def Stats.toJson (s : Stats) : Json := .record [
  ("tokens", .natural s.tokens), ("nodes", .natural s.nodes), ("lines", .natural s.lines)]

namespace Report

/-- A run is successful if it tells of no error. -/
def success (r : Report) : Bool := !r.diagnostics.any (·.isError)

def toJson (r : Report) : Json := .record [
  ("success", .bool r.success),
  ("frontend", .text r.frontend),
  ("output", .text r.output),
  ("diagnostics", .array (r.diagnostics.map (·.toJson))),
  ("stats", r.stats.toJson)]

def pretty (r : Report) : String := r.toJson.pretty

def compact (r : Report) : String := r.toJson.compact

end Report

end ViewBridge
