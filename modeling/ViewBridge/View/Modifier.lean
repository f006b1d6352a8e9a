import ViewBridge.Markup.Tree
import ViewBridge.View.Value

namespace ViewBridge.View

open Output

/-- The expressions of a pair of dimensions. -/
def pair? (value : Literal) : Option (Expr × Expr) :=
  match value.items? with
  | some [a, b] => some (ofDimension a, ofDimension b)
  | _ => none

def infinity : Expr := .member "infinity"

/-- Padding is given as one number, as one for each axis, or as one for each side from the left
clockwise. -/
def paddingCalls (value : Literal) : List Call :=
  let padding (args : List (Argument Expr)) : Call := .withArgs "padding" args
  match value.items? with
  | none => [padding [positional (ofDimension value)]]
  | some [all] => [padding [positional (ofDimension all)]]
  | some [h, v] =>
    [padding [positional (.member "horizontal"), positional (ofDimension h)],
      padding [positional (.member "vertical"), positional (ofDimension v)]]
  | some [left, top, right, bottom] =>
    [padding [positional (.call "EdgeInsets" (some [labeled "top" (ofDimension top),
      labeled "leading" (ofDimension left), labeled "bottom" (ofDimension bottom),
      labeled "trailing" (ofDimension right)]))]]
  | some _ => []

def horizontalAlignment? : Option String → Option String
  | some "left" => some "leading"
  | some "right" => some "trailing"
  | some "center" => some "center"
  | _ => none

def verticalAlignment? : Option String → Option String
  | some "top" => some "top"
  | some "bottom" => some "bottom"
  | some "middle" | some "center" => some "center"
  | _ => none

/-- A frame as wide or as high as there is room, with its content aligned. -/
def alignedFrame (limit : String) (alignment : Option String) : List Call :=
  match alignment with
  | some name =>
    [.withArgs "frame" [labeled limit infinity, labeled "alignment" (.member name)]]
  | none => []

def pairCall (callee first second : String) (value : Literal) : List Call :=
  match pair? value with
  | some (a, b) => [.withArgs callee [labeled first a, labeled second b]]
  | none => []

/-- The modifiers that a property becomes; none if it has no counterpart. -/
def propertyCalls (name : String) (value : Literal) : List Call :=
  match name with
  | "size" => pairCall "frame" "width" "height" value
  | "size_hint" => [.withArgs "frame" [labeled "maxWidth" infinity, labeled "maxHeight" infinity]]
  | "width" => [.withArgs "frame" [labeled "width" (ofDimension value)]]
  | "height" => [.withArgs "frame" [labeled "height" (ofDimension value)]]
  | "pos" => pairCall "offset" "x" "y" value
  | "padding" => paddingCalls value
  | "color" | "foreground_color" => [.withArgs "foregroundColor" [positional (ofColor value)]]
  | "background_color" => [.withArgs "background" [positional (ofColor value)]]
  | "font_size" =>
    [.withArgs "font" [positional (.call ".system" (some [labeled "size" (ofDimension value)]))]]
  | "opacity" => [.withArgs "opacity" [positional (ofDimension value)]]
  | "disabled" => [.withArgs "disabled" [positional (ofDimension value)]]
  | "halign" => alignedFrame "maxWidth" (horizontalAlignment? value.text?)
  | "valign" => alignedFrame "maxHeight" (verticalAlignment? value.text?)
  | _ => []

end ViewBridge.View
