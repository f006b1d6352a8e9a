import ViewBridge.Classes.Token
import ViewBridge.Classes.Tree
import ViewBridge.Inspect.Literal

namespace ViewBridge.Classes

open Inspect

def Word.inspect : Word → Node
  | .classKeyword => .atom "Class"
  | .defKeyword => .atom "Def"
  | .passKeyword => .atom "Pass"
  | .identifier text => .variant "Identifier" [.text text]
  | .integer i => .variant "Integer" [.int i]
  | .float f => .variant "Float" [.float f]
  | .string text => .variant "String" [.text text]
  | .colon => .atom "Colon"
  | .comma => .atom "Comma"
  | .dot => .atom "Dot"
  | .ellipsis => .atom "Ellipsis"
  | .arrow => .atom "Arrow"
  | .at => .atom "At"
  | .pipe => .atom "Pipe"
  | .equals => .atom "Eq"
  | .star => .atom "Star"
  | .doubleStar => .atom "DoubleStar"
  | .operator text => .variant "Operator" [.text text]

def TypeHint.inspect : TypeHint → Node
  | .name text => .variant "Name" [.text text]
  | .subscript base args =>
    .record "Subscript" [("base", .text base), ("args", .list (inspectAll args))]
  | .listOf items => .variant "ListLiteral" [.list (inspectAll items)]
  | .union members => .variant "Union" [.list (inspectAll members)]
  | .none => .atom "None"
  | .forward text => .variant "Forward" [.text text]
  | .ellipsis => .atom "Ellipsis"
where
  inspectAll : List TypeHint → List Node
    | [] => []
    | item :: items => item.inspect :: inspectAll items

def inspectHint (hint : Option TypeHint) : Node := .option (hint.map (·.inspect))

def Decorator.inspect (d : Decorator) : Node :=
  .record "Decorator" [("name", .text d.name), ("has_args", .bool d.hasArgs),
    ("span", d.span.inspect)]

def Field.inspect (f : Field) : Node :=
  .record "Field" [("name", .text f.name), ("annotation", inspectHint f.hint),
    ("default", .option (f.default.map (·.inspect))), ("span", f.span.inspect),
    ("extent", f.extent.inspect)]

def Param.inspect (p : Param) : Node :=
  .record "Param" [("name", .text p.name), ("annotation", inspectHint p.hint),
    ("span", p.span.inspect)]

def Method.inspect (m : Method) : Node :=
  .record "Method" [("name", .text m.name), ("params", .list (m.params.map (·.inspect))),
    ("return_type", inspectHint m.returns), ("decorators", .list (m.decorators.map (·.inspect))),
    ("is_static", .bool m.isStatic), ("is_constructor", .bool m.isConstructor),
    ("span", m.span.inspect), ("extent", m.extent.inspect)]

def ClassDef.inspect (c : ClassDef) : Node :=
  .record "ClassDef" [("name", .text c.name), ("bases", .list (c.bases.map .text)),
    ("decorators", .list (c.decorators.map (·.inspect))),
    ("fields", .list (c.fields.map (·.inspect))), ("methods", .list (c.methods.map (·.inspect))),
    ("span", c.span.inspect)]

def Module.inspect (m : Module) : Node :=
  .record "PyModule" [("classes", .list (m.classes.map (·.inspect)))]

end ViewBridge.Classes
