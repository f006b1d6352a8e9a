import ViewBridge.Proofs.Markup.Block

namespace ViewBridge

/-- All places taken for one. -/
def nowhere : Span → Span := fun _ => .origin

end ViewBridge

namespace ViewBridge.Markup

def Property.place (f : Span → Span) (p : Property) : Property := { p with span := f p.span }

mutual

/-- A widget whose elements stand at other places. -/
def Widget.place (f : Span → Span) : Widget → Widget
  | ⟨name, properties, children, canvas, span⟩ =>
    ⟨name, properties.map (Property.place f), placeWidgets f children, placeCanvas f canvas, f span⟩

def placeWidgets (f : Span → Span) : List Widget → List Widget
  | [] => []
  | w :: ws => w.place f :: placeWidgets f ws

def placeCanvas (f : Span → Span) : List (Canvas Widget) → List (Canvas Widget)
  | [] => []
  | ⟨name, instructions, span⟩ :: blocks =>
    ⟨name, placeWidgets f instructions, f span⟩ :: placeCanvas f blocks

end

def Body.place (f : Span → Span) (b : Body) : Body where
  properties := b.properties.map (Property.place f)
  children := placeWidgets f b.children
  canvas := placeCanvas f b.canvas

def Rule.place (f : Span → Span) (r : Rule) : Rule where
  selectors := r.selectors
  properties := r.properties.map (Property.place f)
  children := placeWidgets f r.children
  canvas := placeCanvas f r.canvas
  span := f r.span

def Module.place (f : Span → Span) (m : Module) : Module where
  rules := m.rules.map (Rule.place f)
  root := m.root.map (Widget.place f)

theorem widgetOf_place {f : Span → Span} (name : String) (span : Span) (b : Body) :
    widgetOf name (f span) (b.place f) = (widgetOf name span b).place f := by
  rw [widgetOf, widgetOf, Widget.place]
  rfl

end ViewBridge.Markup
