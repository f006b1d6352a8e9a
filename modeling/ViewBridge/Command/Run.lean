import ViewBridge.Command.Files
import ViewBridge.Command.Options
import ViewBridge.Generate
import ViewBridge.Inspect.Classes
import ViewBridge.Inspect.Markup

namespace ViewBridge.Command

/-- How a command ends. -/
structure Outcome where
  exit : Nat
  stdout : String := ""
  stderr : String := ""
  deriving DecidableEq

/-- What makes a command fail. -/
inductive Failure where
  | config (path : String) (fault : FileFault)
  | invalidConfig (path : String)
  | input (fault : FileFault)
  | source (path : String) (fault : FileFault)
  | format (path : String) (fault : Fault)
  | unreadable (fault : Fault)
  | output (path : String) (fault : FileFault)

def Failure.message : Failure → String
  | .config path fault => "cannot read config " ++ path ++ ": " ++ fault.message
  | .invalidConfig path => "invalid config " ++ path
  | .input fault => "cannot read stdin: " ++ fault.message
  | .source path fault => "cannot read " ++ path ++ ": " ++ fault.message
  | .format path fault => "cannot format " ++ path ++ ": " ++ fault.message
  | .unreadable fault => fault.message
  | .output path fault => "cannot write " ++ path ++ ": " ++ fault.message

def programVersion : String := "pyswiftgen 0.1.0\n"

def about : String :=
  programVersion ++ "KV → SwiftUI, Python → PySwiftKit, Python → Kivy models\n" ++
    "License: Apache-2.0\n"

def usage : String :=
  "Usage: pyswiftgen [OPTIONS] <" ++ "|".intercalate (Verb.all.map (·.name)) ++ "> [INPUT]\n"

def Halt.outcome : Halt → Outcome
  | .misuse => { exit := 2, stderr := usage }
  | .help => { exit := 0, stdout := usage }
  | .version => { exit := 0, stdout := programVersion }

/-- The text that a command makes of a source, and whether the source had errors. -/
def produce (i : Invocation) (c : Config) (source : String) : Except Failure (String × Bool) :=
  match i.verb with
  | .kv => .ok (generated .views)
  | .py => .ok (generated (.declarations c.classStyle))
  | .kivy => .ok (generated .models)
  | .fmt => ((c.format source).map (·, false)).mapError (.format i.source)
  | .tokens => (tokenText.map (·, false)).mapError .unreadable
  | .ast => (treeText.map (·, false)).mapError .unreadable
  | .version => .ok (about, false)
where
  generated (target : Target) : String × Bool :=
    let g := c.generate target source
    (if i.given.has .json then (g.report target).pretty ++ "\n" else g.code, g.hasErrors)
  tokenText : Except Fault String :=
    match i.language with
    | .markup => (Markup.tokens source).map (inspectTokens Markup.Word.inspect)
    | .classes => (Classes.tokens source).map (inspectTokens Classes.Word.inspect)
  treeText : Except Fault String :=
    match i.language with
    | .markup => (Markup.parse source).map (·.inspect.pretty)
    | .classes => (Classes.parse source).map (·.inspect.pretty)

variable {m : Type → Type} [Monad m] (files : Files m)

def orFail {ε α : Type} (failure : ε → Failure) (action : m (Except ε α)) : ExceptT Failure m α :=
  ExceptT.mk do return (← action).mapError failure

/-- The configuration of a command, from its file if it names one. -/
def readConfig (i : Invocation) : ExceptT Failure m Config := do
  match i.configPath? with
  | none => return i.adjust {}
  | some path =>
    match Config.read? (← orFail (.config path) (files.read path)) with
    | some config => return i.adjust config
    | none => throw (.invalidConfig path)

def readSource (i : Invocation) : ExceptT Failure m String :=
  if i.verb = .version then return ""
  else if i.source = "-" then orFail .input files.input
  else orFail (.source i.source) (files.read i.source)

/-- Runs a command that has been read. A version is always printed; other texts go to the output
file if there is one. -/
def Invocation.run (i : Invocation) : ExceptT Failure m Outcome := do
  let config ← readConfig files i
  let source ← readSource files i
  let (text, failed) ← orFail id (pure (produce i config source))
  let exit := if i.given.has .strict && failed then 2 else 0
  match i.outputPath? with
  | some path =>
    if i.verb = .version then return { exit, stdout := text }
    orFail (.output path) (files.write path text)
    return { exit }
  | none => return { exit, stdout := text }

/-- Runs a command line. -/
def run (args : List String) : m Outcome :=
  match Invocation.ofArgs args with
  | .error halt => return halt.outcome
  | .ok invocation => do
    match ← (invocation.run files).run with
    | .ok outcome => return outcome
    | .error failure => return { exit := 1, stderr := "error: " ++ failure.message ++ "\n" }

end ViewBridge.Command
