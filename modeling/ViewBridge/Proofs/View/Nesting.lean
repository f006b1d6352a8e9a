import Mathlib.Data.List.Forall2
import ViewBridge.Proofs.Output.Printer
import ViewBridge.View.Build

namespace ViewBridge.View

open List

open Markup (Widget Rule Property Canvas)
open Output

/-- A view with as many views below it as the widget has children, each of the shape of the child at
its place. -/
inductive SameShape : Widget → View → Prop
  | node {w : Widget} {v : View} : List.Forall₂ SameShape w.children v.subviews → SameShape w v

/-- A view that shows the tree of a widget: it has the widget's shape and size, and is printed with
one head for each of its views, since none of them has two blocks. -/
structure Mirrors (w : Widget) (v : View) : Prop where
  shape : SameShape w v
  size : v.count = w.count
  blocks : ∀ depth, ∀ n ∈ v.nodes depth, n.2.HasOneBlock
  heads : ∀ depth, (v.printed depth).filterMap PrintedLine.head? =
    (v.nodes depth).map fun n => n.2.head n.1

theorem Mirrors.of_blocks {w : Widget} {v : View} (shape : SameShape w v) (size : v.count = w.count)
    (blocks : ∀ depth, ∀ n ∈ v.nodes depth, n.2.HasOneBlock) : Mirrors w v :=
  ⟨shape, size, blocks, fun depth => View.printed_heads depth v (blocks depth)⟩

/-- Modifiers without views behind a view leave what it shows as it is. -/
theorem Mirrors.append_modifiers {w : Widget} {v : View} (h : Mirrors w v)
    {ms : List (Modifier View)} (flat : ∀ m ∈ ms, m.IsFlat) :
    Mirrors w { v with modifiers := v.modifiers ++ ms } := by
  have nodes := v.nodes_append_flat flat
  have subviews : View.subviews { v with modifiers := v.modifiers ++ ms } = v.subviews := by
    simp only [View.subviews, flatMap_append, View.overlaid_flat flat, append_nil]
  apply Mirrors.of_blocks
  case shape =>
    obtain ⟨children⟩ := h.shape
    exact .node (subviews ▸ children)
  case size =>
    rw [← h.size, ← View.length_nodes 0, ← View.length_nodes 0 v, nodes 0, View.nodes_eq 0 v]
    rfl
  case blocks =>
    intro depth
    have all := h.blocks depth
    rw [View.nodes_eq] at all
    rw [nodes, View.nodes_eq]
    exact forall_mem_cons.mpr
      ⟨(forall_mem_cons.mp all).1, (forall_mem_cons.mp all).2⟩

theorem construct_action (comments : Bool) (w : Widget) {kind : ViewKind}
    (h : kind.isContainer = true) : (construct comments w kind).action = none := by
  cases kind with
  | button => cases h
  | _ => rfl

namespace Builder

variable {ν : Type} (b : Builder)

theorem propertyModifiers_flat (consumed : List String) (p : Property) :
    ∀ m ∈ (b.propertyModifiers consumed p : List (Modifier ν)), m.IsFlat := by
  intro m hm
  unfold propertyModifiers at hm
  split at hm
  next => cases hm
  next =>
    split at hm
    next =>
      obtain ⟨text, _, rfl⟩ := Option.map_eq_some_iff.mp (Option.mem_toList.mp hm)
      trivial
    next =>
      obtain ⟨call, _, rfl⟩ := mem_map.mp hm
      trivial

theorem modifiers_flat (consumed : List String) (ps : List Property) :
    ∀ m ∈ (b.modifiers consumed ps : List (Modifier ν)), m.IsFlat := by
  intro m hm
  obtain ⟨p, _, hp⟩ := mem_flatMap.mp hm
  exact b.propertyModifiers_flat consumed p m hp

theorem canvasComments_flat (canvas : List (Canvas Widget)) :
    ∀ m ∈ (b.canvasComments canvas : List (Modifier ν)), m.IsFlat := by
  intro m hm
  obtain ⟨block, _, hb⟩ := mem_flatMap.mp hm
  obtain ⟨text, _, rfl⟩ := Option.map_eq_some_iff.mp (Option.mem_toList.mp hb)
  trivial

theorem views_eq_map (ws : List Widget) : b.views ws = ws.map b.view := by
  induction ws with
  | nil => rfl
  | cons w ws ih => rw [views, map_cons, ih]

theorem view_eq (w : Widget) : b.view w = b.node w (w.children.map b.view) := by
  rw [← views_eq_map]
  cases w
  rfl

theorem ruleModifiers_flat (r : Rule) : ∀ m ∈ b.ruleModifiers r, m.IsFlat := by
  unfold ruleModifiers
  split
  · exact forall_mem_nil _
  · exact forall_mem_append.mpr ⟨b.modifiers_flat [] r.properties, b.canvasComments_flat r.canvas⟩

/-- Whether the children of a widget become the content of its view. -/
def holdsContent (name : String) : Bool := (b.kind? name).all (·.isContainer)

theorem view_blocks (w : Widget) :
    ((b.view w).children = if b.holdsContent w.name then some (w.children.map b.view) else none) ∧
      (b.holdsContent w.name = true → (b.view w).action = none) ∧
      ∃ before after : List (Modifier View), (∀ m ∈ before, m.IsFlat) ∧ (∀ m ∈ after, m.IsFlat) ∧
        (b.view w).modifiers = before ++
          (if b.holdsContent w.name then [] else overlay (w.children.map b.view)) ++ after := by
  obtain ⟨name, properties, children, canvas, span⟩ := w
  rw [view_eq]
  unfold node holdsContent
  cases b.kind? name with
  | none =>
    exact ⟨rfl, fun _ => rfl, _, _, b.modifiers_flat [] properties, b.canvasComments_flat canvas,
      by simp⟩
  | some kind =>
    have flat := b.modifiers_flat (ν := View)
      (construct b.config.includeComments ⟨name, properties, children, canvas, span⟩ kind).consumed
      properties
    cases hk : kind.isContainer with
    | true =>
      exact ⟨by simp [hk], fun _ => by simp [hk, construct_action], _, _, flat,
        b.canvasComments_flat canvas, by simp [hk]⟩
    | false =>
      exact ⟨by simp [hk], fun h => absurd h (by simp [hk]), _, _, flat,
        b.canvasComments_flat canvas, by simp [hk]⟩

theorem view_hasOneBlock (w : Widget) : (b.view w).HasOneBlock := by
  obtain ⟨children, action, _⟩ := b.view_blocks w
  cases hc : b.holdsContent w.name with
  | true => exact .inl (action hc)
  | false => exact .inr (by rw [children, hc]; rfl)

theorem modifierNodes_overlay (depth : Nat) (vs : List View) :
    View.modifierNodes depth (overlay vs) = View.allNodes depth vs := by
  unfold overlay
  cases vs with
  | nil => rfl
  | cons v vs => exact append_nil _

theorem overlaid_overlay (vs : List View) :
    (overlay vs).flatMap View.subviews.overlaid = vs := by
  unfold overlay
  cases vs with
  | nil => rfl
  | cons v vs => exact append_nil _

theorem view_subviews (w : Widget) : (b.view w).subviews = w.children.map b.view := by
  obtain ⟨children, _, before, after, flat, flat', modifiers⟩ := b.view_blocks w
  rw [View.subviews, children, modifiers]
  cases b.holdsContent w.name with
  | true => rfl
  | false =>
    simp only [Bool.false_eq_true, if_false, Option.getD_none, flatMap_append,
      View.overlaid_flat flat, View.overlaid_flat flat', overlaid_overlay, nil_append,
      append_nil]

mutual

theorem sameShape_view (w : Widget) : SameShape w (b.view w) := by
  constructor
  rw [view_subviews]
  match w with
  | ⟨name, properties, children, canvas, span⟩ => exact sameShape_views children

theorem sameShape_views (ws : List Widget) : List.Forall₂ SameShape ws (ws.map b.view) := by
  match ws with
  | [] => exact .nil
  | w :: ws => exact .cons (sameShape_view w) (sameShape_views ws)

end

mutual

/-- The widgets of a tree, each before those below it, with the depths at which their views
start. -/
def spread (depth : Nat) : Widget → List (Nat × Widget)
  | ⟨name, properties, children, canvas, span⟩ =>
    (depth, ⟨name, properties, children, canvas, span⟩) ::
      spreadAll (depth + if b.holdsContent name then 1 else 2) children

def spreadAll (depth : Nat) : List Widget → List (Nat × Widget)
  | [] => []
  | w :: ws => spread depth w ++ spreadAll depth ws

end

mutual

theorem length_spread (depth : Nat) (w : Widget) : (b.spread depth w).length = w.count := by
  match w with
  | ⟨name, properties, children, canvas, span⟩ =>
    rw [spread, Widget.count, List.length_cons, length_spreadAll _ children, Nat.add_comm]

theorem length_spreadAll (depth : Nat) (ws : List Widget) :
    (b.spreadAll depth ws).length = Widget.count.countAll ws := by
  match ws with
  | [] => rfl
  | w :: ws =>
    rw [spreadAll, Widget.count.countAll, List.length_append, length_spread depth w,
      length_spreadAll depth ws]

end

theorem view_nodes_cons (depth : Nat) (w : Widget) :
    (b.view w).nodes depth = (depth, b.view w) ::
      View.allNodes (depth + if b.holdsContent w.name then 1 else 2) (w.children.map b.view) := by
  obtain ⟨children, _, before, after, flat, flat', modifiers⟩ := b.view_blocks w
  rw [View.nodes_eq, children, modifiers]
  cases b.holdsContent w.name with
  | true =>
    simp only [if_true, Option.getD_some, View.modifierNodes_append, View.modifierNodes_flat flat,
      View.modifierNodes_flat flat', List.append_nil]
  | false =>
    simp only [Bool.false_eq_true, if_false, Option.getD_none, View.modifierNodes_append,
      View.modifierNodes_flat flat, View.modifierNodes_flat flat', modifierNodes_overlay,
      View.allNodes, List.nil_append, List.append_nil]

mutual

theorem view_nodes (depth : Nat) (w : Widget) :
    (b.view w).nodes depth = (b.spread depth w).map fun p => (p.1, b.view p.2) := by
  rw [view_nodes_cons]
  match w with
  | ⟨name, properties, children, canvas, span⟩ =>
    rw [spread, List.map_cons, views_nodes _ children]

theorem views_nodes (depth : Nat) (ws : List Widget) :
    View.allNodes depth (ws.map b.view) =
      (b.spreadAll depth ws).map fun p => (p.1, b.view p.2) := by
  match ws with
  | [] => rfl
  | w :: ws =>
    rw [List.map_cons, View.allNodes, spreadAll, List.map_append, view_nodes depth w,
      views_nodes depth ws]

end

theorem view_count (w : Widget) : (b.view w).count = w.count := by
  rw [← View.length_nodes 0, view_nodes, List.length_map, length_spread]

theorem view_nodes_hasOneBlock (depth : Nat) (w : Widget) :
    ∀ n ∈ (b.view w).nodes depth, n.2.HasOneBlock := by
  intro n hn
  rw [view_nodes] at hn
  obtain ⟨p, _, rfl⟩ := List.mem_map.mp hn
  exact b.view_hasOneBlock p.2

/-- The widget whose tree is that of the view of a rule. -/
def shownWidget (r : Rule) : Widget :=
  match r.base?, r.children with
  | none, [only] => only
  | _, _ => r.asWidget (r.base?.getD r.primaryName)

theorem count_shownWidget (r : Rule) :
    (shownWidget r).count = Widget.count.countAll r.children +
      if r.base? = none ∧ r.children.length = 1 then 0 else 1 := by
  unfold shownWidget
  split
  next hb hc => simp [hb, hc, Widget.count.countAll]
  next hn =>
    have several : ¬(r.base? = none ∧ r.children.length = 1) := by
      rintro ⟨hb, hc⟩
      obtain ⟨only, hc⟩ := List.length_eq_one_iff.mp hc
      exact hn only hb hc
    rw [if_neg several, Rule.asWidget, Widget.count, Nat.add_comm]

theorem mirrors_view (w : Widget) : Mirrors w (b.view w) :=
  .of_blocks (b.sameShape_view w) (b.view_count w) fun depth => b.view_nodes_hasOneBlock depth w

theorem mirrors_of_children {w : Widget} {v : View} (action : v.action = none)
    (children : v.children.getD [] = w.children.map b.view) (modifiers : v.modifiers = []) :
    Mirrors w v := by
  have nodes (depth : Nat) : v.nodes depth =
      (depth, v) :: View.allNodes (depth + 1) (w.children.map b.view) := by
    rw [View.nodes_eq, children, modifiers, View.modifierNodes, List.append_nil]
  have subviews : v.subviews = w.children.map b.view := by
    rw [View.subviews, modifiers, ← children]
    rfl
  apply Mirrors.of_blocks
  case shape => exact .node (subviews ▸ b.sameShape_views w.children)
  case size =>
    obtain ⟨name, properties, below, canvas, span⟩ := w
    rw [← View.length_nodes 0, nodes, List.length_cons, b.views_nodes, List.length_map,
      length_spreadAll, Widget.count, Nat.add_comm]
  case blocks =>
    intro depth
    rw [nodes, views_nodes]
    intro n hn
    rcases List.mem_cons.mp hn with rfl | hn
    · exact .inl action
    · obtain ⟨p, _, rfl⟩ := List.mem_map.mp hn
      exact b.view_hasOneBlock p.2

theorem mirrors_stack (r : Rule) : Mirrors (shownWidget r) (stack (b.views r.trees)) := by
  unfold shownWidget Rule.trees
  rw [views_eq_map]
  cases r.base? with
  | some base => exact b.mirrors_view (r.asWidget base)
  | none =>
    match hc : r.children with
    | [] => exact b.mirrors_of_children rfl (by rw [Rule.asWidget, hc]; rfl) rfl
    | [only] => exact b.mirrors_view only
    | first :: second :: others =>
      exact b.mirrors_of_children rfl (by rw [Rule.asWidget, hc]; rfl) rfl

theorem mirrors_ruleStruct (r : Rule) : Mirrors (shownWidget r) (b.ruleStruct r).body :=
  (b.mirrors_stack r).append_modifiers (b.ruleModifiers_flat r)

theorem rootItem_view? (w : Widget) : (b.rootItem w).view? = some (b.view w) := by
  unfold rootItem showRoot
  split <;> rfl

end Builder

/-- Views keep the nesting and the number of widgets, when they are built and when they are printed;
a file declares a view for each rule and then shows the root. -/
theorem widget_nesting_kept :
    (∀ (v : View) (output : String) (level width : Nat),
      Printer.after (Printer.printView v) ⟨output, level, spaces width⟩ =
        ⟨output ++ Text.Outline.render width ((v.printed level).map PrintedLine.line), level, spaces width⟩) ∧
    (∀ (b : Builder) (w : Widget),
      Mirrors w (b.view w) ∧ (b.view w).subviews = w.children.map b.view) ∧
    ∀ (config : Config) (table : WidgetTable) (m : Markup.Module),
      ∃ (structs : List ViewStruct) (shown : List Item),
        (file config table m).items = structs.map Item.viewStruct ++ shown ∧
        List.Forall₂ (fun r s => s.name = r.primaryName ∧ Mirrors (Builder.shownWidget r) s.body ∧
          s.body.count = Widget.count.countAll r.children +
            if r.base? = none ∧ r.children.length = 1 then 0 else 1) m.rules structs ∧
        List.Forall₂ (fun w item => ∃ v, item.view? = some v ∧ Mirrors w v) m.root.toList shown := by
  refine ⟨fun v _ _ width => Printer.prints_view v _ width rfl, fun b w => ⟨b.mirrors_view w, b.view_subviews w⟩, ?_⟩
  intro config table m
  let b := builderFor config table m
  refine ⟨m.rules.map b.ruleStruct, (m.root.map b.rootItem).toList, ?_, ?_, ?_⟩
  · rw [List.map_map]
    rfl
  · rw [List.forall₂_map_right_iff, List.forall₂_same]
    intro r _
    have mirrors := b.mirrors_ruleStruct r
    exact ⟨rfl, mirrors, mirrors.size.trans (Builder.count_shownWidget r)⟩
  · rw [Option.toList_map, List.forall₂_map_right_iff, List.forall₂_same]
    intro w _
    exact ⟨b.view w, b.rootItem_view? w, b.mirrors_view w⟩

end ViewBridge.View
