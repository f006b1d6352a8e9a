import ViewBridge.Inspect.Literal
import ViewBridge.Markup.Token
import ViewBridge.Markup.Tree

namespace ViewBridge.Markup

open Inspect

def Word.inspect : Word → Node
  | .identifier text => .variant "Identifier" [.text text]
  | .integer i => .variant "Integer" [.int i]
  | .float f => .variant "Float" [.float f]
  | .string text => .variant "String" [.text text]
  | .formatString text => .variant "FString" [.text text]
  | .colon => .atom "Colon"
  | .comma => .atom "Comma"
  | .openAngle => .atom "LAngle"
  | .closeAngle => .atom "RAngle"
  | .operator text => .variant "Operator" [.text text]

def Property.inspect (p : Property) : Node :=
  .record "Property" [("name", .text p.name), ("value", p.value.inspect), ("span", p.span.inspect)]

mutual

def Widget.inspect : Widget → Node
  | ⟨name, properties, children, canvas, span⟩ =>
    .record "Widget" [("name", .text name), ("properties", .list (properties.map (·.inspect))),
      ("children", .list (inspectWidgets children)), ("canvas", .list (inspectCanvas canvas)),
      ("span", span.inspect)]

def inspectWidgets : List Widget → List Node
  | [] => []
  | w :: ws => w.inspect :: inspectWidgets ws

def inspectCanvas : List (Canvas Widget) → List Node
  | [] => []
  | ⟨name, instructions, span⟩ :: blocks =>
    .record "CanvasBlock" [("name", .text name),
      ("instructions", .list (inspectWidgets instructions)), ("span", span.inspect)] :: inspectCanvas blocks

end

def Selector.inspect (s : Selector) : Node :=
  .record "Selector" [("name", .text s.name), ("bases", .list (s.bases.map .text))]

def Rule.inspect (r : Rule) : Node :=
  .record "Rule" [("selectors", .list (r.selectors.map (·.inspect))),
    ("properties", .list (r.properties.map (·.inspect))),
    ("children", .list (inspectWidgets r.children)), ("canvas", .list (inspectCanvas r.canvas)),
    ("span", r.span.inspect)]

def Module.inspect (m : Module) : Node :=
  .record "KvModule" [("rules", .list (m.rules.map (·.inspect))),
    ("root", .option (m.root.map (·.inspect)))]

end ViewBridge.Markup
