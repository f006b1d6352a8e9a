import ViewBridge.Proofs.View.References

namespace ViewBridge.Markup

/-- The widgets of a tree, each before those below it. -/
def Widget.all : Widget → List Widget
  | ⟨name, properties, children, canvas, span⟩ =>
    ⟨name, properties, children, canvas, span⟩ :: forest children
where
  forest : List Widget → List Widget
    | [] => []
    | w :: ws => w.all ++ forest ws

/-- The widgets of a module: those of its rules, then those of the root. -/
def Module.widgets (m : Module) : List Widget :=
  m.rules.flatMap (Widget.all.forest ·.trees) ++ (m.root.map (·.all)).getD []

instance (m : Module) (name : String) : Decidable (m.Names name) :=
  inferInstanceAs (Decidable (∃ r ∈ m.rules, ∃ s ∈ r.selectors, s.name = name))

end ViewBridge.Markup

namespace ViewBridge.Output

/-- The views of a tree, each before those below it. -/
def View.all (v : View) : List View := (v.nodes 0).map (·.2)

def File.views (f : File) : List View := f.items.flatMap fun item => item.view?.toList.flatMap View.all

end ViewBridge.Output

namespace ViewBridge.View

open List

open Markup (Widget Rule)
open Output

/-- Whether a class of widgets has no view: it is not in the table, and no rule is for it. -/
abbrev IsUnknown (table : WidgetTable) (m : Markup.Module) (name : String) : Prop :=
  table.lookup? name = none ∧ ¬m.Names name

/-- What a view shows of a widget of unknown class: a stack of the views of its children, with a
comment if there are any. No other view has one. -/
structure StandsFor (config : Config) (table : WidgetTable) (m : Markup.Module) (w : Widget)
    (v : View) : Prop where
  unknown : IsUnknown table m w.name → v.call = .bare "VStack" ∧ v.action = none ∧
    v.children = some (w.children.map (builderFor config table m).view)
  comment : v.comment = if config.includeComments ∧ IsUnknown table m w.name then
    some ("Unknown widget: " ++ w.name) else none

/-- Views of which those that stand for widgets do so in their order; the others have no comment. -/
inductive Displays (stands : Widget → View → Prop) : List Widget → List View → Prop
  | nil : Displays stands [] []
  | widget {w v ws vs} : stands w v → Displays stands ws vs → Displays stands (w :: ws) (v :: vs)
  | frame {v ws vs} : v.comment = none → Displays stands ws vs → Displays stands ws (v :: vs)

theorem Displays.append {stands : Widget → View → Prop} {ws ws' : List Widget} {vs vs' : List View}
    (h : Displays stands ws vs) (h' : Displays stands ws' vs') :
    Displays stands (ws ++ ws') (vs ++ vs') := by
  induction h with
  | nil => exact h'
  | widget hw _ ih => exact .widget hw ih
  | frame hv _ ih => exact .frame hv ih

variable {config : Config} {table : WidgetTable} {m : Markup.Module}

theorem kind?_eq_none {name : String} :
    (builderFor config table m).kind? name = none ↔ IsUnknown table m name := by
  have named : (builderFor config table m).ruleNames.contains name = true ↔ m.Names name :=
    contains_iff_mem.trans mem_ruleNames
  unfold Builder.kind?
  rw [Option.or_eq_none_iff, ite_eq_right_iff, named]
  simp [builderFor]

def warningAt (w : Widget) : Diagnostic :=
  { code := "W0002", severity := .warning, message := "unknown widget '" ++ w.name ++ "'"
    location := some ⟨w.span.line, w.span.column⟩ }

mutual

theorem warnings_eq (w : Widget) : (builderFor config table m).warnings w =
    (w.all.filter fun w => IsUnknown table m w.name).map warningAt := by
  match w with
  | ⟨name, properties, children, canvas, span⟩ =>
    rw [Builder.warnings, Widget.all, filter_cons, forestWarnings_eq children]
    by_cases h : IsUnknown table m name
    · simp [h, kind?_eq_none.mpr h]
      rfl
    · simp [h, kind?_eq_none]

theorem forestWarnings_eq (ws : List Widget) :
    Builder.warnings.forestWarnings (builderFor config table m) ws =
      ((Widget.all.forest ws).filter fun w => IsUnknown table m w.name).map warningAt := by
  match ws with
  | [] => rfl
  | w :: ws =>
    rw [Builder.warnings.forestWarnings, Widget.all.forest, filter_append, map_append,
      warnings_eq w, forestWarnings_eq ws]

end

mutual

theorem spread_widgets (b : Builder) (depth : Nat) (w : Widget) :
    (b.spread depth w).map (·.2) = w.all := by
  match w with
  | ⟨name, properties, children, canvas, span⟩ =>
    rw [Builder.spread, Widget.all, List.map_cons, spreadAll_widgets b _ children]

theorem spreadAll_widgets (b : Builder) (depth : Nat) (ws : List Widget) :
    (b.spreadAll depth ws).map (·.2) = Widget.all.forest ws := by
  match ws with
  | [] => rfl
  | w :: ws =>
    rw [Builder.spreadAll, Widget.all.forest, List.map_append, spread_widgets b depth w,
      spreadAll_widgets b depth ws]

end

theorem view_standsFor (w : Widget) :
    StandsFor config table m w ((builderFor config table m).view w) := by
  obtain ⟨name, properties, children, canvas, span⟩ := w
  rw [Builder.view_eq, Builder.node]
  cases kind : (builderFor config table m).kind? name with
  | none =>
    have unknown : IsUnknown table m name := kind?_eq_none.mp kind
    refine ⟨fun _ => ⟨rfl, rfl, rfl⟩, if_congr ?_ rfl rfl⟩
    exact (and_iff_left unknown).symm
  | some kind =>
    have listed : ¬IsUnknown table m name := by
      intro h
      rw [kind?_eq_none.mpr h] at kind
      cases kind
    refine ⟨fun h => absurd h listed, ?_⟩
    rw [if_neg fun h => listed h.2]
    dsimp only
    split <;> rfl

theorem displays_map (ws : List Widget) :
    Displays (StandsFor config table m) ws (ws.map (builderFor config table m).view) := by
  induction ws with
  | nil => exact .nil
  | cons w ws ih => exact .widget (view_standsFor w) ih

theorem displays_view (w : Widget) :
    Displays (StandsFor config table m) w.all ((builderFor config table m).view w).all := by
  have nodes : ((builderFor config table m).view w).all =
      w.all.map (builderFor config table m).view := by
    rw [View.all, Builder.view_nodes, ← spread_widgets (builderFor config table m) 0 w]
    simp [Function.comp_def]
  exact nodes ▸ displays_map w.all

/-- Modifiers behind a view leave what is displayed as it is. -/
theorem Displays.append_modifiers {ws : List Widget} {v : View}
    (h : Displays (StandsFor config table m) ws v.all) {ms : List (Modifier View)}
    (flat : ∀ m ∈ ms, m.IsFlat) :
    Displays (StandsFor config table m) ws (View.all { v with modifiers := v.modifiers ++ ms }) := by
  rw [View.all, View.nodes_eq] at h
  rw [View.all, v.nodes_append_flat flat, View.nodes_eq 0 v]
  cases h with
  | widget hw hs => exact .widget ⟨hw.unknown, hw.comment⟩ hs
  | frame hv hs => exact .frame hv hs

theorem forest_singleton (w : Widget) : Widget.all.forest [w] = w.all := List.append_nil w.all

theorem displays_stack (ws : List Widget) :
    Displays (StandsFor config table m) (Widget.all.forest ws)
      (Builder.stack ((builderFor config table m).views ws)).all := by
  rw [Builder.views_eq_map]
  match ws with
  | [] => exact .frame rfl .nil
  | [only] =>
    rw [forest_singleton]
    exact displays_view only
  | first :: second :: others =>
    rw [View.all, map_cons, map_cons, Builder.stack_nodes, ← map_cons, ← map_cons,
      Builder.views_nodes]
    have below : Displays (StandsFor config table m) (Widget.all.forest (first :: second :: others)) _ :=
      displays_map _
    rw [← spreadAll_widgets (builderFor config table m) 1] at below ⊢
    exact .frame rfl (by simpa [Function.comp_def] using below)

theorem displays_ruleStruct (r : Rule) :
    Displays (StandsFor config table m) (Widget.all.forest r.trees)
      ((builderFor config table m).ruleStruct r).body.all :=
  (displays_stack r.trees).append_modifiers (Builder.ruleModifiers_flat _ r)

theorem diagnostics_eq (config : Config) (table : WidgetTable) (m : Markup.Module) :
    diagnostics config table m =
      (m.widgets.filter fun w => IsUnknown table m w.name).map warningAt := by
  unfold diagnostics Markup.Module.widgets
  rw [List.filter_append, List.map_append, List.filter_flatMap, List.map_flatMap]
  refine congrArg₂ (· ++ ·) (congrArg m.rules.flatMap (funext fun r => forestWarnings_eq r.trees)) ?_
  cases m.root with
  | none => rfl
  | some root => exact warnings_eq root

theorem displays_file (config : Config) (table : WidgetTable) (m : Markup.Module) :
    Displays (StandsFor config table m) m.widgets (file config table m).views := by
  have rules (rs : List Rule) : Displays (StandsFor config table m)
      (rs.flatMap (Widget.all.forest ·.trees))
      (rs.flatMap fun r => ((builderFor config table m).ruleStruct r).body.all) := by
    induction rs with
    | nil => exact .nil
    | cons r rs ih => exact (displays_ruleStruct r).append ih
  have root : Displays (StandsFor config table m) ((m.root.map (·.all)).getD [])
      ((m.root.map (builderFor config table m).rootItem).toList.flatMap fun item =>
        item.view?.toList.flatMap View.all) := by
    cases m.root with
    | none => exact .nil
    | some root => simpa [Builder.rootItem_view?] using displays_view root
  unfold File.views file Markup.Module.widgets
  rw [List.flatMap_append, List.flatMap_map]
  simpa [Item.view?] using (rules m.rules).append root

/-- One walk gives the file and the warnings. Each widget of unknown class is warned about once, at
its place and in the order of the widgets, and is shown as a bare stack of its children with a
comment, if there are comments at all. -/
theorem unknown_widgets_exact (config : Config) (table : WidgetTable) (m : Markup.Module) :
    (translate config table m).run [] = (file config table m, diagnostics config table m) ∧
    diagnostics config table m =
      (m.widgets.filter fun w => IsUnknown table m w.name).map warningAt ∧
    Displays (StandsFor config table m) m.widgets (file config table m).views :=
  ⟨translate_run config table m, diagnostics_eq config table m, displays_file config table m⟩

end ViewBridge.View
