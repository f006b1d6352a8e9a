import ViewBridge.Markup.Tree

namespace ViewBridge.Markup

/-- A way to compare the places of two elements. -/
abbrev SpanTest := Span → Span → Bool

/-- Whether two elements agree at each position of two lists. -/
def allSame {α : Type} (same : α → α → Bool) : List α → List α → Bool
  | [], [] => true
  | a :: as, b :: bs => same a b && allSame same as bs
  | _, _ => false

def Property.same (spans : SpanTest) (p q : Property) : Bool :=
  p.name == q.name && p.value.same q.value && spans p.span q.span

mutual

/-- Whether two widgets agree in all but what the test of places lets pass. -/
def Widget.same (spans : SpanTest) : Widget → Widget → Bool
  | ⟨name, properties, children, canvas, span⟩, other =>
    name == other.name && allSame (Property.same spans) properties other.properties &&
      widgetsSame spans children other.children && canvasSame spans canvas other.canvas &&
      spans span other.span

def widgetsSame (spans : SpanTest) : List Widget → List Widget → Bool
  | [], [] => true
  | w :: ws, v :: vs => w.same spans v && widgetsSame spans ws vs
  | _, _ => false

def canvasSame (spans : SpanTest) : List (Canvas Widget) → List (Canvas Widget) → Bool
  | [], [] => true
  | ⟨name, instructions, span⟩ :: cs, other :: ds =>
    name == other.name && widgetsSame spans instructions other.instructions &&
      spans span other.span && canvasSame spans cs ds
  | _, _ => false

end

def Rule.same (spans : SpanTest) (r s : Rule) : Bool :=
  r.selectors == s.selectors && allSame (Property.same spans) r.properties s.properties &&
    widgetsSame spans r.children s.children && canvasSame spans r.canvas s.canvas &&
    spans r.span s.span

def Module.same (spans : SpanTest) (m n : Module) : Bool :=
  allSame (Rule.same spans) m.rules n.rules &&
    match m.root, n.root with
    | some a, some b => a.same spans b
    | none, none => true
    | _, _ => false

/-- Equality of modules wherever their elements stand. -/
def Module.structureEq (m n : Module) : Bool := m.same (fun _ _ => true) n

def Module.placedEq (m n : Module) : Bool := m.same (· == ·) n

end ViewBridge.Markup
