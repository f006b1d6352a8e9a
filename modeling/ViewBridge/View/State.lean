import ViewBridge.Markup.Tree
import ViewBridge.Output.View
import ViewBridge.View.Kind

namespace ViewBridge.View

open Markup (Widget)
open Output

/-- What the names of a widget's variables start with. -/
def bindingPrefix (w : Widget) : String := (w.id?.map (· ++ "_")).getD ""

/-- The name of the variable that a view of a kind is bound to. -/
def bindingName? (kind : ViewKind) (w : Widget) : Option String :=
  match kind with
  | .textField => some (bindingPrefix w ++ "text")
  | .slider => some (bindingPrefix w ++ "value")
  | .toggle => some (bindingPrefix w ++ "isOn")
  | _ => none

def bindingVar? (kind : ViewKind) (w : Widget) : Option StateVar :=
  (bindingName? kind w).bind fun name =>
    match kind with
    | .textField => some { name, type := "String", value := .text "" }
    | .slider => some { name, type := "Double", value := .float 0.5 }
    | .toggle => some { name, type := "Bool", value := .bool false }
    | _ => none

/-- The variables for sizes that the running program gives. -/
def dynamicVars : List StateVar :=
  [{ name := "dynamicWidth", type := "CGFloat", value := .int 100 },
    { name := "dynamicHeight", type := "CGFloat", value := .int 100 }]

/-- The variables that one widget asks for, its children apart. -/
def ownVars (table : WidgetTable) (w : Widget) : List StateVar :=
  ((table.lookup? w.name).bind (bindingVar? · w)).toList ++
    if w.properties.any (·.value.isDynamic) then dynamicVars else []

/-- The variables that a tree of widgets asks for, from the root down. -/
def treeVars (table : WidgetTable) : Widget → List StateVar
  | ⟨name, properties, children, canvas, span⟩ =>
    ownVars table ⟨name, properties, children, canvas, span⟩ ++ forestVars children
where
  forestVars : List Widget → List StateVar
    | [] => []
    | w :: ws => treeVars table w ++ forestVars ws

/-- The variables without those whose name has come before. -/
def distinctVars (seen : List String) : List StateVar → List StateVar
  | [] => []
  | v :: vs =>
    if seen.contains v.name then distinctVars seen vs
    else v :: distinctVars (v.name :: seen) vs

/-- The variables that a view of some widgets keeps. -/
def stateVars (table : WidgetTable) (widgets : List Widget) : List StateVar :=
  distinctVars [] (treeVars.forestVars table widgets)

end ViewBridge.View
