import ViewBridge.Classes.Parse
import ViewBridge.Markup.Format
import ViewBridge.Markup.Parse
import ViewBridge.Model.Build
import ViewBridge.Output.Printer
import ViewBridge.Report.Summary
import ViewBridge.View.Build
import ViewBridge.Wrapper.Build

namespace ViewBridge

/-- What a source text is turned into: markup into views, or classes into declarations of a style
or into observable models. -/
inductive Target where
  | views
  | declarations (style : ClassStyle)
  | models
  deriving DecidableEq

namespace Target

/-- The name of the language that is read. -/
def frontend : Target → String
  | .views => "kv"
  | .declarations _ | .models => "py"

/-- The name of the generator. -/
def backend : Target → String
  | .views => "swiftui"
  | .declarations .container => "pycontainer"
  | .declarations .wrapper => "pyclass"
  | .models => "kivy"

/-- What starts a comment in the generated language. -/
def commentMarker : Target → String
  | .views | .declarations _ => "//"
  | .models => "#"

end Target

/-- Generated code and what is to be told about it. -/
structure Generated where
  code : String
  diagnostics : List Diagnostic
  stats : Stats

namespace Generated

def hasErrors (g : Generated) : Bool := g.diagnostics.any (·.isError)

def report (g : Generated) (target : Target) : Report :=
  { frontend := target.frontend, output := g.code, diagnostics := g.diagnostics, stats := g.stats }

/-- The result of a run on a number of tokens and nodes; its lines are counted in the code. -/
def ofCode (code : String) (diagnostics : List Diagnostic) (tokens nodes : Nat) : Generated :=
  { code, diagnostics, stats := { tokens, nodes, lines := (Text.lines code.toList).length } }

/-- A fault becomes a comment on a line of its own. -/
def ofFault (marker : String) (f : Fault) : Generated :=
  let diagnostic := Diagnostic.ofFault f
  { code := diagnostic.commentLine marker ++ "\n", diagnostics := [diagnostic]
    stats := { lines := 1 } }

end Generated

namespace Config

/-- Generates the code of a target, or tells why the source cannot be read. -/
def generate? (config : Config) (source : String) : Target → Except Fault Generated
  | .views => do
    let tokens ← Markup.tokens source
    let module ← Markup.Module.ofTokens tokens
    let table := WidgetTable.withOverrides config.widgets
    let walked := (View.translate config table module).run []
    return .ofCode (walked.1.print config.indentWidth) walked.2 tokens.length module.widgetCount
  | .declarations style => do
    let tokens ← Classes.tokens source
    let module ← Classes.Module.ofTokens tokens
    let table := TypeTable.withOverrides config.types
    return .ofCode ((Wrapper.file style table module).print config.indentWidth)
      (Wrapper.diagnostics table module) tokens.length module.nodeCount
  | .models => do
    let tokens ← Classes.tokens source
    let module ← Classes.Module.ofTokens tokens
    return .ofCode ((Model.ofModule source module).render config.indentWidth) []
      tokens.length module.nodeCount

/-- Generates the code of a target. A source that cannot be read gives a comment that says why. -/
def generate (config : Config) (target : Target) (source : String) : Generated :=
  match config.generate? source target with
  | .ok generated => generated
  | .error fault => .ofFault target.commentMarker fault

def format (config : Config) (source : String) : Except Fault String := do
  return (← Markup.parse source).format config.indentWidth

end Config

end ViewBridge
