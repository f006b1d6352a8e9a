import ViewBridge.Text.Dictionary

namespace ViewBridge

/-- The view that a class of widgets becomes. -/
inductive ViewKind where
  /-- A stack along the orientation of the widget. -/
  | stack
  | vStack
  | hStack
  | grid
  | zStackTopLeading
  | zStack
  | scrollView
  | text
  | button
  | textField
  | image
  | slider
  | toggle
  | progressView
  /-- A view declared elsewhere. -/
  | custom (name : String)
  deriving DecidableEq

namespace ViewKind

/-- Whether the view takes its children as a block of content. -/
def isContainer : ViewKind → Bool
  | .stack | .vStack | .hStack | .grid | .zStackTopLeading | .zStack | .scrollView => true
  | _ => false

def ofViewName (name : String) : ViewKind :=
  match name with
  | "VStack" => .vStack
  | "HStack" => .hStack
  | "LazyVGrid" => .grid
  | "ZStack" => .zStack
  | "ScrollView" => .scrollView
  | "Text" => .text
  | "Button" => .button
  | "TextField" => .textField
  | "Image" => .image
  | "Slider" => .slider
  | "Toggle" => .toggle
  | "ProgressView" => .progressView
  | _ => .custom name

end ViewKind

/-- The layouts that need no declared view around them. -/
def builtinLayouts : List String :=
  ["BoxLayout", "GridLayout", "FloatLayout", "RelativeLayout", "StackLayout", "ScrollView",
    "Widget", "AnchorLayout"]

def isBuiltinLayout (name : String) : Bool := builtinLayouts.contains name

structure WidgetTable where
  kinds : Text.Dictionary ViewKind

namespace WidgetTable

def builtin : WidgetTable := ⟨.ofList [
  ("BoxLayout", .stack), ("GridLayout", .grid), ("FloatLayout", .zStackTopLeading),
  ("RelativeLayout", .zStackTopLeading), ("AnchorLayout", .zStack), ("StackLayout", .vStack),
  ("Widget", .vStack), ("ScrollView", .scrollView), ("Label", .text), ("Button", .button),
  ("TextInput", .textField), ("Image", .image), ("Slider", .slider), ("Switch", .toggle),
  ("ProgressBar", .progressView)]⟩

/-- The built-in table with views given by name put over its own. -/
def withOverrides (overrides : Text.Dictionary String) : WidgetTable :=
  ⟨builtin.kinds.override (overrides.mapValues ViewKind.ofViewName)⟩

def lookup? (t : WidgetTable) (name : String) : Option ViewKind := t.kinds.get? name

end WidgetTable

end ViewBridge
