import ViewBridge.Proofs.View.Nesting

namespace ViewBridge.Output

namespace View

mutual

/-- The view without its comments and with its action emptied, and so all views below it. -/
def withoutComments : View → View
  | ⟨_, call, action, none, modifiers⟩ =>
    ⟨none, call, action.map fun _ => [], none, uncommented modifiers⟩
  | ⟨_, call, action, some children, modifiers⟩ =>
    ⟨none, call, action.map fun _ => [], some (allWithoutComments children), uncommented modifiers⟩

def allWithoutComments : List View → List View
  | [] => []
  | v :: vs => v.withoutComments :: allWithoutComments vs

def uncommented : List (Modifier View) → List (Modifier View)
  | [] => []
  | .call call :: ms => .call call :: uncommented ms
  | .comment _ :: ms => uncommented ms
  | .block name children :: ms => .block name (allWithoutComments children) :: uncommented ms

end

theorem withoutComments_eq (v : View) : v.withoutComments =
    { comment := none, call := v.call, action := v.action.map fun _ => []
      children := v.children.map allWithoutComments, modifiers := uncommented v.modifiers } := by
  obtain ⟨comment, call, action, children, modifiers⟩ := v
  cases children with
  | none => rfl
  | some children => rfl

theorem allWithoutComments_eq_map (vs : List View) :
    allWithoutComments vs = vs.map withoutComments := by
  induction vs with
  | nil => rfl
  | cons v vs ih => rw [allWithoutComments, List.map_cons, ih]

@[simp] theorem uncommented_append (ms ns : List (Modifier View)) :
    uncommented (ms ++ ns) = uncommented ms ++ uncommented ns := by
  induction ms with
  | nil => rfl
  | cons m ms ih =>
    cases m with
    | call call => exact congrArg (_ :: ·) ih
    | comment text => exact ih
    | block name children => exact congrArg (_ :: ·) ih

theorem uncommented_calls (calls : List Call) :
    uncommented (calls.map .call) = calls.map .call := by
  induction calls with
  | nil => rfl
  | cons call calls ih => exact congrArg (_ :: ·) ih

theorem uncommented_comment (text : Option String) :
    uncommented ((text.map Modifier.comment).toList) = [] := by
  cases text <;> rfl

theorem uncommented_flatMap {α : Type} (f : α → List (Modifier View)) (xs : List α) :
    uncommented (xs.flatMap f) = xs.flatMap fun x => uncommented (f x) := by
  induction xs with
  | nil => rfl
  | cons x xs ih => rw [List.flatMap_cons, List.flatMap_cons, uncommented_append, ih]

end View

def ViewStruct.withoutComments (s : ViewStruct) : ViewStruct :=
  { s with comment := none, body := s.body.withoutComments }

def ViewStruct.withoutState (s : ViewStruct) : ViewStruct := { s with state := [] }

def Item.withoutComments : Item → Item
  | .viewStruct decl => .viewStruct decl.withoutComments
  | .view v => .view v.withoutComments
  | .classDecl decl => .classDecl decl
  | .comment text => .comment text

def Item.withoutState : Item → Item
  | .viewStruct decl => .viewStruct decl.withoutState
  | .view v => .view v
  | .classDecl decl => .classDecl decl
  | .comment text => .comment text

def File.withoutComments (f : File) : File := { f with items := f.items.map (·.withoutComments) }

/-- The file with no variables in its declared views. -/
def File.withoutState (f : File) : File := { f with items := f.items.map (·.withoutState) }

end ViewBridge.Output

namespace ViewBridge.View

open List

open Markup (Widget Rule Property Canvas)
open Output

theorem construct_uncommented (comments : Bool) (w : Widget) (kind : ViewKind) :
    construct false w kind =
      { construct comments w kind with
        action := (construct comments w kind).action.map fun _ => [] } := by
  cases kind <;> rfl

namespace Builder

def silent (b : Builder) : Builder :=
  { b with config := { b.config with includeComments := false } }

/-- The builder with another width of a level, and with variables or without. -/
def adjusted (b : Builder) (width : Nat) (state : Bool) : Builder :=
  { b with config := { b.config with indentWidth := width, generateStateProperties := state } }

variable (b : Builder)

theorem silent_comment (text : String) : b.silent.comment text = none := rfl

theorem propertyModifiers_silent (consumed : List String) (p : Property) :
    b.silent.propertyModifiers consumed p =
      View.uncommented (b.propertyModifiers consumed p) := by
  unfold propertyModifiers
  split
  next => rfl
  next =>
    split
    next => rw [View.uncommented_comment, silent_comment]; rfl
    next calls _ => rw [View.uncommented_calls]

theorem modifiers_silent (consumed : List String) (ps : List Property) :
    b.silent.modifiers consumed ps = View.uncommented (b.modifiers consumed ps) := by
  unfold modifiers
  rw [View.uncommented_flatMap]
  exact congrArg ps.flatMap (funext (b.propertyModifiers_silent consumed))

theorem canvasComments_silent (canvas : List (Canvas Widget)) :
    b.silent.canvasComments canvas = View.uncommented (b.canvasComments canvas) := by
  unfold canvasComments
  rw [View.uncommented_flatMap]
  refine congrArg canvas.flatMap (funext fun block => ?_)
  rw [View.uncommented_comment, silent_comment]
  rfl

theorem uncommented_overlay (vs : List View) :
    View.uncommented (overlay vs) = overlay (vs.map View.withoutComments) := by
  unfold overlay
  cases vs with
  | nil => rfl
  | cons v vs =>
    have all := View.allWithoutComments_eq_map (v :: vs)
    exact congrArg (fun below => [Modifier.block "overlay" below]) all

mutual

theorem view_silent (w : Widget) : b.silent.view w = (b.view w).withoutComments := by
  match w with
  | ⟨name, properties, children, canvas, span⟩ =>
    have below : b.silent.views children = View.allWithoutComments (b.views children) := by
      rw [views_eq_map, views_eq_map, View.allWithoutComments_eq_map, map_map]
      exact views_silent children
    have kind : b.silent.kind? name = b.kind? name := rfl
    rw [View.withoutComments_eq, view, view, node, node, kind, below]
    cases b.kind? name with
    | none => simp [modifiers_silent, canvasComments_silent, silent_comment]
    | some kind =>
      have made := construct_uncommented b.config.includeComments
        ⟨name, properties, children, canvas, span⟩ kind
      have silent : b.silent.config.includeComments = false := rfl
      simp only [silent, made, modifiers_silent, canvasComments_silent]
      cases kind.isContainer with
      | true => simp
      | false => simp [uncommented_overlay, View.allWithoutComments_eq_map]

theorem views_silent (ws : List Widget) :
    ws.map b.silent.view = ws.map (View.withoutComments ∘ b.view) := by
  match ws with
  | [] => rfl
  | w :: ws => rw [map_cons, map_cons, view_silent w, views_silent ws]; rfl

end

theorem stack_silent (vs : List View) :
    stack (vs.map View.withoutComments) = (stack vs).withoutComments := by
  match vs with
  | [] => rfl
  | [only] => rfl
  | first :: second :: others =>
    simp only [stack, map_cons, View.withoutComments_eq, View.ofCall, Option.map_some,
      Option.map_none, View.allWithoutComments_eq_map]
    rfl

theorem ruleModifiers_silent (r : Rule) :
    b.silent.ruleModifiers r = View.uncommented (b.ruleModifiers r) := by
  unfold ruleModifiers
  split
  · rfl
  · rw [View.uncommented_append, modifiers_silent, canvasComments_silent]

theorem ruleStruct_silent (r : Rule) :
    b.silent.ruleStruct r = (b.ruleStruct r).withoutComments := by
  have views : b.silent.views r.trees = (b.views r.trees).map View.withoutComments := by
    rw [views_eq_map, views_eq_map, map_map]
    exact b.views_silent r.trees
  unfold ruleStruct declareRule
  rw [views, stack_silent, ruleModifiers_silent]
  simp only [ViewStruct.withoutComments, View.withoutComments_eq, View.uncommented_append]
  rfl

theorem rootItem_silent (w : Widget) : b.silent.rootItem w = (b.rootItem w).withoutComments := by
  have declared : b.silent.config.generateStructs = b.config.generateStructs := rfl
  unfold rootItem showRoot
  rw [declared, view_silent]
  split <;> rfl

variable (width : Nat)

mutual

theorem view_adjusted (state : Bool) (w : Widget) : (b.adjusted width state).view w = b.view w := by
  match w with
  | ⟨name, properties, children, canvas, span⟩ =>
    rw [view, view, views_adjusted state children]
    rfl

theorem views_adjusted (state : Bool) (ws : List Widget) :
    (b.adjusted width state).views ws = b.views ws := by
  match ws with
  | [] => rfl
  | w :: ws => rw [views, views, view_adjusted state w, views_adjusted state ws]

end

theorem ruleStruct_adjusted (state : Bool) (r : Rule) :
    (b.adjusted width state).ruleStruct r =
      { b.ruleStruct r with state := ((b.adjusted width state).ruleStruct r).state } := by
  unfold ruleStruct
  rw [views_adjusted]
  rfl

theorem ruleStruct_stateless (r : Rule) :
    (b.adjusted width false).ruleStruct r = (b.ruleStruct r).withoutState := by
  rw [ruleStruct_adjusted]
  rfl

theorem ruleStruct_width (r : Rule) :
    (b.adjusted width b.config.generateStateProperties).ruleStruct r = b.ruleStruct r := by
  rw [ruleStruct_adjusted]
  rfl

theorem rootItem_stateless (w : Widget) :
    (b.adjusted width false).rootItem w = (b.rootItem w).withoutState := by
  have declared : (b.adjusted width false).config.generateStructs = b.config.generateStructs := rfl
  unfold rootItem showRoot
  rw [declared, view_adjusted]
  split <;> rfl

theorem rootItem_width (w : Widget) :
    (b.adjusted width b.config.generateStateProperties).rootItem w = b.rootItem w := by
  unfold rootItem
  rw [view_adjusted]
  rfl

mutual

theorem warnings_congr {b c : Builder} (kinds : ∀ name, b.kind? name = c.kind? name) (w : Widget) :
    b.warnings w = c.warnings w := by
  match w with
  | ⟨name, properties, children, canvas, span⟩ =>
    rw [warnings, warnings, kinds name, forestWarnings_congr kinds children]

theorem forestWarnings_congr {b c : Builder} (kinds : ∀ name, b.kind? name = c.kind? name)
    (ws : List Widget) : warnings.forestWarnings b ws = warnings.forestWarnings c ws := by
  match ws with
  | [] => rfl
  | w :: ws =>
    rw [warnings.forestWarnings, warnings.forestWarnings, warnings_congr kinds w,
      forestWarnings_congr kinds ws]

end

end Builder

variable (config : Config) (table : WidgetTable) (m : Markup.Module)

theorem file_silent : file { config with includeComments := false } table m =
    (file config table m).withoutComments := by
  have rules := funext (builderFor config table m).ruleStruct_silent
  have root := funext (builderFor config table m).rootItem_silent
  have silent : builderFor { config with includeComments := false } table m =
      (builderFor config table m).silent := rfl
  simp only [file, File.withoutComments, silent, rules, root, List.map_append, List.map_map]
  cases m.root <;> rfl

theorem file_stateless : file { config with generateStateProperties := false } table m =
    (file config table m).withoutState := by
  have rules := funext ((builderFor config table m).ruleStruct_stateless config.indentWidth)
  have root := funext ((builderFor config table m).rootItem_stateless config.indentWidth)
  have stateless : builderFor { config with generateStateProperties := false } table m =
      (builderFor config table m).adjusted config.indentWidth false := rfl
  simp only [file, File.withoutState, stateless, rules, root, List.map_append, List.map_map]
  cases m.root <;> rfl

theorem file_width (width : Nat) :
    file { config with indentWidth := width } table m = file config table m := by
  have rules := funext ((builderFor config table m).ruleStruct_width width)
  have root := funext ((builderFor config table m).rootItem_width width)
  have adjusted : builderFor { config with indentWidth := width } table m =
      (builderFor config table m).adjusted width
        (builderFor config table m).config.generateStateProperties := rfl
  simp only [file, adjusted, rules, root]

theorem diagnostics_config (other : Config) :
    diagnostics other table m = diagnostics config table m := by
  have kinds (name : String) :
      (builderFor other table m).kind? name = (builderFor config table m).kind? name := rfl
  have rules := funext (Builder.forestWarnings_congr kinds)
  have trees := funext (Builder.warnings_congr kinds)
  simp only [diagnostics, rules, trees]

/-- The two switches take something out of the file and change nothing else: one the comments and
the lines of actions, the other the variables of declared views. Neither has a part in what is told
about the module. -/
theorem switches_take_out :
    file { config with includeComments := false } table m =
      (file { config with includeComments := true } table m).withoutComments ∧
    file { config with generateStateProperties := false } table m =
      (file { config with generateStateProperties := true } table m).withoutState ∧
    ∀ comments state, diagnostics
        { config with includeComments := comments, generateStateProperties := state } table m =
      diagnostics config table m :=
  ⟨file_silent { config with includeComments := true } table m,
    file_stateless { config with generateStateProperties := true } table m,
    fun _ _ => diagnostics_config config table m _⟩

end ViewBridge.View
