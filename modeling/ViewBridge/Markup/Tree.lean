import ViewBridge.Literal.Basic
import ViewBridge.Source.Span

namespace ViewBridge.Markup

/-- A line `name: value` of an element. -/
structure Property where
  name : String
  value : Literal
  span : Span
  deriving Inhabited

/-- A block of drawing instructions. -/
structure Canvas (α : Type) where
  name : String
  instructions : List α
  span : Span

/-- An element of the widget tree. -/
structure Widget where
  name : String
  properties : List Property
  children : List Widget
  canvas : List (Canvas Widget)
  span : Span

/-- A class named in a rule header, with the bases of a class that the rule itself declares. -/
structure Selector where
  name : String
  bases : List String
  deriving DecidableEq

/-- A rule for classes of widgets. -/
structure Rule where
  selectors : List Selector
  properties : List Property
  children : List Widget
  canvas : List (Canvas Widget)
  span : Span

/-- A markup text: its rules in order and at most one root widget. -/
structure Module where
  rules : List Rule
  root : Option Widget

/-- The names that open a block of drawing instructions. -/
def isCanvasName (name : String) : Bool :=
  name == "canvas" || name == "canvas.before" || name == "canvas.after"

namespace Selector

/-- The selector as it stands in a rule header. -/
def shown (s : Selector) : String :=
  if s.bases.isEmpty then s.name else s.name ++ "@" ++ "+".intercalate s.bases

end Selector

namespace Rule

/-- The class that the rule is named for. -/
def primaryName (r : Rule) : String := (r.selectors.head?.map (·.name)).getD "Rule"

/-- The first base of a class that the rule declares. -/
def base? (r : Rule) : Option String := r.selectors.head?.bind (·.bases.head?)

/-- The body of the rule as a widget of a class. -/
def asWidget (r : Rule) (name : String) : Widget :=
  { name, properties := r.properties, children := r.children, canvas := r.canvas, span := r.span }

/-- The trees of widgets that the rule shows: a widget of its base, or else its children. -/
def trees (r : Rule) : List Widget :=
  match r.base? with
  | some base => [r.asWidget base]
  | none => r.children

end Rule

namespace Widget

/-- The value of the first property of a name. -/
def property? (w : Widget) (name : String) : Option Literal :=
  (w.properties.find? (·.name == name)).map (·.value)

/-- The identifier of a widget, if it is a string or a bare name. -/
def id? (w : Widget) : Option String := (w.property? "id").bind (·.text?)

/-- The number of widgets in a tree, drawing instructions apart. -/
def count : Widget → Nat
  | ⟨_, _, children, _, _⟩ => 1 + countAll children
where
  countAll : List Widget → Nat
    | [] => 0
    | w :: ws => w.count + countAll ws

end Widget

def Module.widgetCount (m : Module) : Nat :=
  let inRoot := (m.root.map (·.count)).getD 0
  (m.rules.map fun r => Widget.count.countAll r.children).foldr (· + ·) inRoot

end ViewBridge.Markup
