import ViewBridge.Literal.Spelling
import ViewBridge.Markup.Tree
import ViewBridge.Text.Outline

namespace ViewBridge.Markup

open Text (Outline OutlineLine)

def Property.outline (depth : Nat) (p : Property) : OutlineLine :=
  .line depth (p.name ++ ": " ++ p.value.propertyText)

mutual

/-- The lines of a widget: its header, then its properties, drawing blocks and children. -/
def Widget.outline (depth : Nat) : Widget → Outline
  | ⟨name, properties, children, canvas, _⟩ =>
    .line depth (name ++ ":") :: properties.map (·.outline (depth + 1)) ++
      canvasOutline (depth + 1) canvas ++ widgetsOutline (depth + 1) children

def canvasOutline (depth : Nat) : List (Canvas Widget) → Outline
  | [] => []
  | ⟨name, instructions, _⟩ :: blocks =>
    .line depth (name ++ ":") :: widgetsOutline (depth + 1) instructions ++
      canvasOutline depth blocks

def widgetsOutline (depth : Nat) : List Widget → Outline
  | [] => []
  | w :: ws => w.outline depth ++ widgetsOutline depth ws

end

def Rule.outline (r : Rule) : Outline :=
  .line 0 ("<" ++ ", ".intercalate (r.selectors.map (·.shown)) ++ ">:") ::
    r.properties.map (·.outline 1) ++ canvasOutline 1 r.canvas ++ widgetsOutline 1 r.children

/-- The canonical lines of a module, with an empty line between its parts. -/
def Module.outline (m : Module) : Outline :=
  Outline.separated (m.rules.map (·.outline) ++ (m.root.map (·.outline 0)).toList)

/-- The canonical text of a module, with at least one space to a level. -/
def Module.format (m : Module) (width : Nat) : String := m.outline.render (max 1 width)

end ViewBridge.Markup
