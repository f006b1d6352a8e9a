import ViewBridge.Literal.Spelling
import ViewBridge.View.Modifier
import ViewBridge.View.State

namespace ViewBridge.View

open Markup (Widget)
open Output

/-- The constructor of a view: its call, its action if it has one, and the properties it uses up. -/
structure Construction where
  call : Call
  action : Option (List String) := none
  consumed : List String := []

/-- The properties that have run their course in the constructor, whatever the kind of view. -/
def constructionProperties : List String :=
  ["text", "source", "orientation", "value", "isOn", "id"]

def handlerNames : List String := ["on_press", "on_release"]

def propertyExpr? (w : Widget) (name : String) : Option Expr := (w.property? name).map ofLiteral

def isHorizontal (w : Widget) : Bool :=
  (w.property? "orientation").bind (·.text?) == some "horizontal"

/-- The columns of a grid: as many as its property tells, or as many as fit. -/
def gridColumns (w : Widget) : String :=
  match w.property? "cols" with
  | some (.integer n) =>
    "Array(repeating: GridItem(.flexible()), count: " ++ toString n.toInt ++ ")"
  | _ => "[GridItem(.adaptive(minimum: 100))]"

def handlerComments (w : Widget) : List String :=
  (w.properties.filter (handlerNames.contains ·.name)).map fun p =>
    "// " ++ p.name ++ ": " ++ p.value.propertyText

/-- A reference to the variable that a view is bound to. -/
def binding (kind : ViewKind) (w : Widget) : Expr := .raw ("$" ++ (bindingName? kind w).getD "")

/-- The constructor of the view of a kind for a widget. -/
def construct (comments : Bool) (w : Widget) : ViewKind → Construction
  | .stack =>
    let callee := if isHorizontal w then "HStack" else "VStack"
    { call := match propertyExpr? w "spacing" with
        | some spacing => .withArgs callee [labeled "spacing" spacing]
        | none => .bare callee
      consumed := ["spacing"] }
  | .vStack => { call := .bare "VStack" }
  | .hStack => { call := .bare "HStack" }
  | .grid =>
    { call := .withArgs "LazyVGrid" [labeled "columns" (.raw (gridColumns w))]
      consumed := ["cols"] }
  | .zStackTopLeading =>
    { call := .withArgs "ZStack" [labeled "alignment" (.member "topLeading")] }
  | .zStack => { call := .bare "ZStack" }
  | .scrollView => { call := .bare "ScrollView" }
  | .text =>
    { call := .withArgs "Text" [positional ((propertyExpr? w "text").getD (.text "Text"))] }
  | .button =>
    { call := .withArgs "Button" [positional ((propertyExpr? w "text").getD (.text "Button"))]
      action := some (if comments then handlerComments w else [])
      consumed := handlerNames }
  | .textField =>
    { call := .withArgs "TextField"
        [positional ((propertyExpr? w "hint_text").getD (.text "Input")),
          labeled "text" (binding .textField w)]
      consumed := ["hint_text"] }
  | .image =>
    { call := .withArgs "Image" [positional ((propertyExpr? w "source").getD (.text "image"))] }
  | .slider =>
    let range := match propertyExpr? w "min", propertyExpr? w "max" with
      | some low, some high => [labeled "in" (.raw (low.code ++ "..." ++ high.code))]
      | _, _ => []
    { call := .withArgs "Slider" (labeled "value" (binding .slider w) :: range)
      consumed := ["min", "max"] }
  | .toggle =>
    { call := .withArgs "Toggle"
        [positional (.text "Switch"), labeled "isOn" (binding .toggle w)]
      consumed := ["active"] }
  | .progressView =>
    let total := (propertyExpr? w "max").map (labeled "total")
    { call := .withArgs "ProgressView"
        (labeled "value" ((propertyExpr? w "value").getD (.raw "progress")) :: total.toList)
      consumed := ["max"] }
  | .custom name => { call := .withArgs name [] }

end ViewBridge.View
