import ViewBridge.Output.File

namespace ViewBridge.Output

/-- A printer: the text so far, the level of the next line, and what a level is indented by. -/
structure Printer where
  output : String
  level : Nat
  unit : String

def spaces (width : Nat) : String := String.ofList (List.replicate width ' ')

namespace Printer

/-- Printing starts at the left edge, with at least one space to a level. -/
def new (width : Nat) : Printer := ⟨"", 0, spaces (max 1 width)⟩

abbrev Step := StateM Printer Unit

def push (text : String) : Step := modify fun p => { p with output := p.output ++ text }

def indent : Step := modify fun p => { p with level := p.level + 1 }

def outdent : Step := modify fun p => { p with level := p.level - 1 }

def emitIndent : Step := do
  let p ← get
  (List.replicate p.level p.unit).forM push

def emitLine (text : String) : Step := do
  emitIndent
  push text
  push "\n"

def printAttributes (attributes : List Attribute) : Step :=
  attributes.forM fun a => emitLine a.code

def printMember : Member → Step
  | .property attributes access name type => do
    printAttributes attributes
    emitLine (accessText access ++ "var " ++ escapeName name ++ ": " ++ type.spelled)
  | .initializer attributes access params => do
    printAttributes attributes
    emitLine (accessText access ++ "init(" ++ paramsText params ++ ") \x7b")
    emitLine "\x7d"
  | .method attributes access name params returns hasBody => do
    let signature := accessText access ++ "func " ++ escapeName name ++ "(" ++ paramsText params ++
      ")" ++ resultText returns
    printAttributes attributes
    if hasBody then
      emitLine (signature ++ " \x7b")
      emitLine "\x7d"
    else
      emitLine signature

def printClass (c : ClassDecl) : Step := do
  printAttributes c.attributes
  emitLine (accessText c.access ++ "class " ++ escapeName c.name ++ " \x7b")
  indent
  c.members.forM fun member => do
    push "\n"
    printMember member
  outdent
  emitLine "\x7d"

/-- A block behind a head, on lines of its own unless it is empty. -/
def printBlock (head : String) (isEmpty : Bool) (content : Step) : Step :=
  if isEmpty then emitLine (head ++ " \x7b\x7d")
  else do
    emitLine (head ++ " \x7b")
    indent
    content
    outdent
    emitLine "\x7d"

mutual

/-- A view: its head, its action or else its content, and its modifiers. -/
def printView : View → Step
  | ⟨comment, call, some lines, _, modifiers⟩ => do
    printBlock (View.headText comment call) lines.isEmpty (lines.forM emitLine)
    indent
    printModifiers modifiers
    outdent
  | ⟨comment, call, none, some children, modifiers⟩ => do
    printBlock (View.headText comment call) children.isEmpty (printViews children)
    indent
    printModifiers modifiers
    outdent
  | ⟨comment, call, none, none, modifiers⟩ => do
    emitLine (View.headText comment call)
    indent
    printModifiers modifiers
    outdent

def printViews : List View → Step
  | [] => pure ()
  | v :: vs => do
    printView v
    printViews vs

def printModifiers : List (Modifier View) → Step
  | [] => pure ()
  | .call call :: ms => do
    emitLine ("." ++ call.code)
    printModifiers ms
  | .comment text :: ms => do
    emitLine ("// " ++ text)
    printModifiers ms
  | .block name children :: ms => do
    emitLine ("." ++ name ++ " \x7b")
    indent
    printViews children
    outdent
    emitLine "\x7d"
    printModifiers ms

end

def printState (state : List StateVar) : Step :=
  if state.isEmpty then pure ()
  else do
    push "\n"
    state.forM fun v => emitLine v.code

def printViewStruct (s : ViewStruct) : Step := do
  s.comment.toList.forM fun text => emitLine ("// " ++ text)
  emitLine ("struct " ++ s.name ++ ": View \x7b")
  indent
  printState s.state
  push "\n"
  emitLine "var body: some View \x7b"
  indent
  printView s.body
  outdent
  emitLine "\x7d"
  outdent
  emitLine "\x7d"

def printItem : Item → Step
  | .classDecl decl => printClass decl
  | .viewStruct decl => printViewStruct decl
  | .view v => printView v
  | .comment text => emitLine ("// " ++ text)

def separate (needed : Bool) : Step := if needed then push "\n" else pure ()

/-- The items of a file, with an empty line before each but one that stands first. -/
def printItems (first : Bool) : List Item → Step
  | [] => pure ()
  | item :: items => do
    separate !first
    printItem item
    printItems false items

def printImports (imports : List String) : Step := imports.forM fun name => emitLine ("import " ++ name)

def printFile (f : File) : Step := do
  printImports f.imports
  printItems f.imports.isEmpty f.items

def after (step : Step) (p : Printer) : Printer := (step.run p).2

end Printer

def File.print (f : File) (width : Nat) : String :=
  (Printer.after (Printer.printFile f) (.new width)).output

end ViewBridge.Output
