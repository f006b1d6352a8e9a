import ViewBridge.Config.Basic
import ViewBridge.Output.File
import ViewBridge.Report.Diagnostic
import ViewBridge.Text.Uppercase
import ViewBridge.View.Construct

namespace ViewBridge.View

open Markup (Widget Canvas Rule Property)
open Output

/-- What the views of a module are built from, its trees apart. -/
structure Builder where
  config : Config
  table : WidgetTable
  /-- The classes that rules of the module name. -/
  ruleNames : List String

namespace Builder

/-- The kind of view for a class: by the table, or else as the view of a rule. -/
def kind? (b : Builder) (name : String) : Option ViewKind :=
  (b.table.lookup? name).or (if b.ruleNames.contains name then some (.custom name) else none)

def comment (b : Builder) (text : String) : Option String :=
  if b.config.includeComments then some text else none

def propertyModifiers {ν : Type} (b : Builder) (consumed : List String) (p : Property) :
    List (Modifier ν) :=
  if constructionProperties.contains p.name || consumed.contains p.name then []
  else
    match propertyCalls p.name p.value with
    | [] => ((b.comment ("kv: " ++ p.name ++ ": " ++ p.value.propertyText)).map .comment).toList
    | calls => calls.map .call

def modifiers {ν : Type} (b : Builder) (consumed : List String) (properties : List Property) :
    List (Modifier ν) :=
  properties.flatMap (b.propertyModifiers consumed)

/-- The comments that tell of drawing blocks. -/
def canvasComments {ν : Type} (b : Builder) (canvas : List (Canvas Widget)) : List (Modifier ν) :=
  canvas.flatMap fun block =>
    ((b.comment ("kv: " ++ block.name ++ " (" ++ toString block.instructions.length ++
      " instructions) not translated")).map .comment).toList

/-- A block that lays views over another one, if there are any. -/
def overlay (views : List View) : List (Modifier View) :=
  if views.isEmpty then [] else [.block "overlay" views]

/-- The view of a widget over the views of its children. A widget of no known class becomes a stack
of them. -/
def node (b : Builder) (w : Widget) (children : List View) : View :=
  match b.kind? w.name with
  | none =>
    { comment := b.comment ("Unknown widget: " ++ w.name), call := .bare "VStack", action := none
      children := some children
      modifiers := b.modifiers [] w.properties ++ b.canvasComments w.canvas }
  | some kind =>
    let c := construct b.config.includeComments w kind
    let own := b.modifiers c.consumed w.properties
    if kind.isContainer then
      { comment := none, call := c.call, action := c.action
        children := some children, modifiers := own ++ b.canvasComments w.canvas }
    else
      { comment := none, call := c.call, action := c.action, children := none
        modifiers := own ++ overlay children ++ b.canvasComments w.canvas }

mutual

def view (b : Builder) : Widget → View
  | ⟨name, properties, children, canvas, span⟩ =>
    b.node ⟨name, properties, children, canvas, span⟩ (views b children)

def views (b : Builder) : List Widget → List View
  | [] => []
  | w :: ws => view b w :: views b ws

end

/-- The warnings of a tree of widgets, from the root down: one for each widget of no known class. -/
def warnings (b : Builder) : Widget → List Diagnostic
  | ⟨name, _, children, _, span⟩ =>
    (if (b.kind? name).isNone then [.unknownWidget name span] else []) ++ forestWarnings children
where
  forestWarnings : List Widget → List Diagnostic
    | [] => []
    | w :: ws => warnings b w ++ forestWarnings ws

mutual

/-- The view of a widget, in one walk that leaves a warning at each widget of no known class. -/
def walk (b : Builder) : Widget → StateM (List Diagnostic) View
  | ⟨name, properties, children, canvas, span⟩ => do
    if (b.kind? name).isNone then modify (· ++ [.unknownWidget name span])
    return b.node ⟨name, properties, children, canvas, span⟩ (← walkAll b children)

def walkAll (b : Builder) : List Widget → StateM (List Diagnostic) (List View)
  | [] => return []
  | w :: ws => return (← walk b w) :: (← walkAll b ws)

end

def stateVars (b : Builder) (widgets : List Widget) : List StateVar :=
  if b.config.generateStateProperties then View.stateVars b.table widgets else []

/-- One view that holds those of a rule. -/
def stack : List View → View
  | [] => .ofCall (.withArgs "EmptyView" [])
  | [only] => only
  | many => { View.ofCall (.bare "VStack") with children := some many }

def ruleHeader (r : Rule) : String := (r.selectors.head?.map (·.shown)).getD r.primaryName

/-- What a rule adds to the view of its children, unless a widget of its base has it. -/
def ruleModifiers (b : Builder) (r : Rule) : List (Modifier View) :=
  if r.base?.isSome then [] else b.modifiers [] r.properties ++ b.canvasComments r.canvas

/-- The declared view of a rule over the views of its trees. -/
def declareRule (b : Builder) (r : Rule) (views : List View) : ViewStruct :=
  let inner := stack views
  { comment := b.comment ("Generated from KV rule: <" ++ ruleHeader r ++ ">")
    name := r.primaryName
    state := b.stateVars r.trees
    body := { inner with modifiers := inner.modifiers ++ b.ruleModifiers r } }

def ruleStruct (b : Builder) (r : Rule) : ViewStruct := b.declareRule r (b.views r.trees)

def walkRule (b : Builder) (r : Rule) : StateM (List Diagnostic) Item :=
  return .viewStruct (b.declareRule r (← b.walkAll r.trees))

/-- The name of the declared view of a root: from its identifier or its class, and told apart from
the rules. -/
def rootName (b : Builder) (w : Widget) : String :=
  let name := (w.id?.map Text.capitalize).getD w.name
  if b.ruleNames.contains name then name ++ "View" else name

def declareRoot (b : Builder) (w : Widget) (body : View) : ViewStruct :=
  { comment := b.comment ("Generated from KV widget: " ++ w.name), name := b.rootName w
    state := b.stateVars [w], body }

/-- The item of the root: a declared view, or a view alone for a layout. -/
def showRoot (b : Builder) (w : Widget) (body : View) : Item :=
  if b.config.generateStructs && !isBuiltinLayout w.name then .viewStruct (b.declareRoot w body)
  else .view body

def rootStruct (b : Builder) (w : Widget) : ViewStruct := b.declareRoot w (b.view w)

def rootItem (b : Builder) (w : Widget) : Item := b.showRoot w (b.view w)

end Builder

def builderFor (config : Config) (table : WidgetTable) (m : Markup.Module) : Builder :=
  { config, table, ruleNames := m.rules.flatMap (·.selectors.map (·.name)) }

/-- The file of a module, in one walk over its rules and then the root: a declared view for each
rule, then the root. -/
def translate (config : Config) (table : WidgetTable) (m : Markup.Module) :
    StateM (List Diagnostic) File := do
  let b := builderFor config table m
  let rules ← m.rules.mapM b.walkRule
  let root ← m.root.mapM fun w => return b.showRoot w (← b.walk w)
  return { imports := ["SwiftUI"], items := rules ++ root.toList }

def file (config : Config) (table : WidgetTable) (m : Markup.Module) : File :=
  let b := builderFor config table m
  { imports := ["SwiftUI"]
    items := m.rules.map (.viewStruct <| b.ruleStruct ·) ++ (m.root.map b.rootItem).toList }

/-- The warnings of a module: those of its rules, then those of the root. -/
def diagnostics (config : Config) (table : WidgetTable) (m : Markup.Module) : List Diagnostic :=
  let b := builderFor config table m
  m.rules.flatMap (Builder.warnings.forestWarnings b ·.trees) ++ (m.root.map b.warnings).getD []

mutual

theorem Builder.walk_run (b : Builder) (w : Widget) (ds : List Diagnostic) :
    (b.walk w).run ds = pure (b.view w, ds ++ b.warnings w) := by
  match w with
  | ⟨name, properties, children, canvas, span⟩ =>
    rw [walk, view, warnings]
    split <;> simp [walkAll_run b children]

theorem Builder.walkAll_run (b : Builder) (ws : List Widget) (ds : List Diagnostic) :
    (b.walkAll ws).run ds = pure (b.views ws, ds ++ warnings.forestWarnings b ws) := by
  match ws with
  | [] => simp [walkAll, views, warnings.forestWarnings]
  | w :: ws => simp [walkAll, views, warnings.forestWarnings, walk_run b w, walkAll_run b ws]

end

theorem Builder.walkRules_run (b : Builder) (rules : List Rule) (ds : List Diagnostic) :
    (rules.mapM b.walkRule).run ds =
      pure (rules.map (.viewStruct <| b.ruleStruct ·),
        ds ++ rules.flatMap (warnings.forestWarnings b ·.trees)) := by
  induction rules generalizing ds with
  | nil => simp
  | cons r rules ih => simp [walkRule, walkAll_run, ih, ruleStruct]

/-- The walk over a module gives its file and leaves its warnings. -/
theorem translate_run (config : Config) (table : WidgetTable) (m : Markup.Module) :
    (translate config table m).run [] = (file config table m, diagnostics config table m) := by
  change _ = pure _
  unfold translate file diagnostics
  cases m.root with
  | none => simp [Builder.walkRules_run]
  | some root => simp [Builder.walkRules_run, Builder.walk_run, Builder.rootItem]

end ViewBridge.View
