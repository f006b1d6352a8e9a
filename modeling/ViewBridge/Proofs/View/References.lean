import ViewBridge.Proofs.Markup.Line
import ViewBridge.Proofs.View.Nesting

namespace ViewBridge.Markup

/-- A widget of a tree. -/
inductive Widget.Within (w : Widget) : Widget → Prop
  | self : Within w w
  | child {t c : Widget} : c ∈ t.children → Within w c → Within w t

def Module.Shows (m : Module) (w : Widget) : Prop :=
  (∃ r ∈ m.rules, ∃ t ∈ r.trees, w.Within t) ∨ ∃ t ∈ m.root, w.Within t

/-- A class that some rule of the module is for. -/
def Module.Names (m : Module) (name : String) : Prop :=
  ∃ r ∈ m.rules, ∃ s ∈ r.selectors, s.name = name

end ViewBridge.Markup

namespace ViewBridge.Output

def View.Calls (v : View) (call : Call) : Prop := ∃ n ∈ v.nodes 0, n.2.call = call

def File.Declares (f : File) (name : String) : Prop := ∃ s, Item.viewStruct s ∈ f.items ∧ s.name = name

theorem View.Calls.append_modifiers {v : View} {call : Call} (h : v.Calls call)
    {ms : List (Modifier View)} (flat : ∀ m ∈ ms, m.IsFlat) :
    View.Calls { v with modifiers := v.modifiers ++ ms } call := by
  obtain ⟨n, hn, hc⟩ := h
  rw [View.nodes_eq] at hn
  unfold View.Calls
  rw [v.nodes_append_flat flat 0, View.nodes_eq 0 v]
  rcases List.mem_cons.mp hn with rfl | hn
  · exact ⟨_, List.mem_cons_self, hc⟩
  · exact ⟨n, List.mem_cons_of_mem _ hn, hc⟩

end ViewBridge.Output

namespace ViewBridge.View

open List

open Markup (Widget Rule)
open Output

namespace Builder

variable (b : Builder) {t w : Widget}

theorem view_call_custom (unlisted : b.table.lookup? w.name = none) (named : w.name ∈ b.ruleNames) :
    (b.view w).call = .withArgs w.name [] := by
  have kind : b.kind? w.name = some (.custom w.name) := by
    rw [kind?, unlisted, Option.none_or, if_pos (contains_iff_mem.mpr named)]
  obtain ⟨name, properties, children, canvas, span⟩ := w
  rw [view_eq, node, kind]
  rfl

theorem view_mem_nodes (h : w.Within t) (depth : Nat) :
    ∃ d, (d, b.view w) ∈ (b.view t).nodes depth := by
  induction h generalizing depth with
  | self => exact ⟨depth, by rw [view_nodes_cons]; exact mem_cons_self⟩
  | @child t c hc _ ih =>
    obtain ⟨d, hd⟩ := ih (depth + if b.holdsContent t.name then 1 else 2)
    rw [view_nodes_cons]
    exact ⟨d, mem_cons_of_mem _ (View.mem_allNodes (mem_map_of_mem hc) hd)⟩

theorem view_calls (h : w.Within t) : (b.view t).Calls (b.view w).call := by
  obtain ⟨d, hd⟩ := b.view_mem_nodes h 0
  exact ⟨_, hd, rfl⟩

theorem stack_nodes (first second : View) (others : List View) :
    (stack (first :: second :: others)).nodes 0 =
      (0, stack (first :: second :: others)) :: View.allNodes 1 (first :: second :: others) := by
  rw [View.nodes_eq]
  exact congrArg _ (append_nil _)

theorem stack_calls {ws : List Widget} (ht : t ∈ ws) (h : w.Within t) :
    (stack (b.views ws)).Calls (b.view w).call := by
  rw [views_eq_map]
  match ws with
  | [] => cases ht
  | [only] =>
    cases mem_singleton.mp ht
    exact b.view_calls h
  | first :: second :: others =>
    obtain ⟨d, hd⟩ := b.view_mem_nodes h 1
    refine ⟨(d, b.view w), ?_, rfl⟩
    rw [map_cons, map_cons, stack_nodes]
    exact mem_cons_of_mem _ (View.mem_allNodes (mem_map_of_mem ht) hd)

theorem ruleStruct_calls {r : Rule} (ht : t ∈ r.trees) (h : w.Within t) :
    (b.ruleStruct r).body.Calls (b.view w).call :=
  (b.stack_calls ht h).append_modifiers (b.ruleModifiers_flat r)

theorem rootItem_eq_viewStruct {s : ViewStruct} : b.rootItem w = .viewStruct s ↔
      b.config.generateStructs = true ∧ isBuiltinLayout w.name = false ∧ s = b.rootStruct w := by
  unfold rootItem showRoot
  cases b.config.generateStructs <;> cases isBuiltinLayout w.name <;> simp [rootStruct, eq_comm]

end Builder

variable {config : Config} {table : WidgetTable} {m : Markup.Module}

theorem mem_ruleNames {name : String} :
    name ∈ (builderFor config table m).ruleNames ↔ m.Names name := by
  simp [builderFor, Markup.Module.Names]

theorem file_calls {w : Widget} (h : m.Shows w) :
    ∃ item ∈ (file config table m).items, ∃ v, item.view? = some v ∧
      v.Calls ((builderFor config table m).view w).call := by
  rcases h with ⟨r, hr, t, ht, h⟩ | ⟨t, ht, h⟩
  · exact ⟨_, mem_append_left _ (mem_map_of_mem hr), _, rfl,
      Builder.ruleStruct_calls _ ht h⟩
  · refine ⟨(builderFor config table m).rootItem t, mem_append_right _ ?_, _,
      Builder.rootItem_view? _ t, Builder.view_calls _ h⟩
    rw [Option.mem_toList]
    exact Option.mem_map_of_mem _ ht

theorem file_declares {name : String} :
    (file config table m).Declares name ↔ (∃ r ∈ m.rules, r.primaryName = name) ∨
      ∃ root ∈ m.root, config.generateStructs = true ∧ isBuiltinLayout root.name = false ∧
        (builderFor config table m).rootName root = name := by
  constructor
  · rintro ⟨s, hs, rfl⟩
    rcases mem_append.mp hs with hs | hs
    · obtain ⟨r, hr, hs⟩ := mem_map.mp hs
      cases hs
      exact .inl ⟨r, hr, rfl⟩
    · obtain ⟨root, hroot, hs⟩ := Option.map_eq_some_iff.mp (Option.mem_toList.mp hs)
      obtain ⟨structs, layout, rfl⟩ := (Builder.rootItem_eq_viewStruct _).mp hs
      exact .inr ⟨root, hroot, structs, layout, rfl⟩
  · rintro (⟨r, hr, rfl⟩ | ⟨root, hroot, structs, layout, rfl⟩)
    · exact ⟨_, mem_append_left _ (mem_map_of_mem hr), rfl⟩
    · refine ⟨(builderFor config table m).rootStruct root, mem_append_right _ ?_, rfl⟩
      rw [Option.mem_toList]
      exact Option.map_eq_some_iff.mpr
        ⟨root, hroot, (Builder.rootItem_eq_viewStruct _).mpr ⟨structs, layout, rfl⟩⟩

/-- A widget of a class that a rule is for, and that is not in the table, refers to a view by the
name of its class. The file declares that view exactly if the class is the first of some rule, or
is the name of the root's own view. -/
theorem reference_declared_iff {w : Widget} (shown : m.Shows w)
    (unlisted : table.lookup? w.name = none) (named : m.Names w.name) :
    (∃ item ∈ (file config table m).items, ∃ v, item.view? = some v ∧
      v.Calls (.withArgs w.name [])) ∧
    ((file config table m).Declares w.name ↔ (∃ r ∈ m.rules, r.primaryName = w.name) ∨
      ∃ root ∈ m.root, config.generateStructs = true ∧ isBuiltinLayout root.name = false ∧
        (builderFor config table m).rootName root = w.name) := by
  have call : ((builderFor config table m).view w).call = .withArgs w.name [] :=
    Builder.view_call_custom _ unlisted (mem_ruleNames.mpr named)
  exact ⟨call ▸ file_calls shown, file_declares⟩

/-- A widget in the base of one rule that refers to the view of another rule. -/
theorem reference_declared_iff_cell :
    let cell : Widget := ⟨"Cell", [], [], [], .origin⟩
    let m : Markup.Module :=
      ⟨[⟨[⟨"Row", ["BoxLayout"]⟩], [], [cell], [], .origin⟩, ⟨[⟨"Cell", []⟩], [], [], [], .origin⟩],
        none⟩
    m.Shows cell ∧ WidgetTable.builtin.lookup? "Cell" = none ∧ m.Names "Cell" ∧
      (file {} .builtin m).Declares "Cell" := by
  intro cell m
  have shown : m.Shows cell :=
    .inl ⟨_, mem_cons_self, _, mem_cons_self, .child mem_cons_self .self⟩
  have unlisted : WidgetTable.builtin.lookup? cell.name = none := by decide
  have named : m.Names cell.name :=
    ⟨_, mem_cons_of_mem _ mem_cons_self, _, mem_cons_self, rfl⟩
  refine ⟨shown, unlisted, named, ?_⟩
  apply (reference_declared_iff shown unlisted named).2.mpr
  exact .inl ⟨_, mem_cons_of_mem _ mem_cons_self, rfl⟩

/-- The second class of a rule is referred to by its name, and the file declares no such view. -/
theorem reference_undeclared_second_selector :
    ∃ m, Markup.parse "<A, B>:\n    Label:\nBoxLayout:\n    B:\n" = .ok m ∧
      ∃ w, m.Shows w ∧ WidgetTable.builtin.lookup? w.name = none ∧ m.Names w.name ∧
        ¬(file {} .builtin m).Declares w.name := by
  have parts : (Markup.parse "<A, B>:\n    Label:\nBoxLayout:\n    B:\n").toOption.any (fun m =>
      m.rules.map (·.selectors) == [[⟨"A", []⟩, ⟨"B", []⟩]] &&
        m.root.any (fun t => t.name == "BoxLayout" && t.children.map (·.name) == ["B"])) = true := by
    decide +kernel
  obtain ⟨m, hm, parts⟩ := (Option.any_eq_true _ _).mp parts
  obtain ⟨selectors, root⟩ := Bool.and_eq_true_iff.mp parts
  obtain ⟨t, ht, root⟩ := (Option.any_eq_true _ _).mp root
  obtain ⟨layout, names⟩ := Bool.and_eq_true_iff.mp root
  obtain ⟨w, children, name⟩ := map_eq_singleton_iff.mp (eq_of_beq names)
  obtain ⟨r, rules, classes⟩ := map_eq_singleton_iff.mp (eq_of_beq selectors)
  refine ⟨m, eq_ok_of_toOption hm, w, ?_, ?_, ?_, ?_⟩
  · exact .inr ⟨t, ht, .child (by rw [children]; exact mem_cons_self) .self⟩
  · rw [name]
    decide
  · exact ⟨r, by simp [rules], ⟨"B", []⟩, by simp [classes], name.symm⟩
  · rw [name, file_declares]
    rintro (⟨r', hr, first⟩ | ⟨t', ht', _, noLayout, _⟩)
    · rw [rules, mem_singleton] at hr
      simp [Rule.primaryName, hr, classes] at first
    · cases ht.symm.trans ht'
      rw [eq_of_beq layout] at noLayout
      exact absurd noLayout (by decide)

end ViewBridge.View
