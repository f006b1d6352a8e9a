import Mathlib.Data.List.Nodup
import ViewBridge.Proofs.View.References

namespace ViewBridge.Output

def Item.declaredName? : Item → Option String
  | .viewStruct decl => some decl.name
  | .classDecl _ | .view _ | .comment _ => none

def File.declaredNames (f : File) : List String := f.items.filterMap (·.declaredName?)

end ViewBridge.Output

namespace ViewBridge.View

open List

open Markup (Widget Rule)
open Output

/-- The name that a root gives its view, before it is told apart from the rules: the identifier of
the widget with a capital, or else its class. -/
def ownName (w : Widget) : String := (w.id?.map Text.capitalize).getD w.name

/-- Whether a root becomes a declared view. -/
def IsDeclared (config : Config) (w : Widget) : Prop :=
  config.generateStructs = true ∧ isBuiltinLayout w.name = false

variable {config : Config} {table : WidgetTable} {m : Markup.Module}

theorem rootName_eq (config : Config) (table : WidgetTable) (root : Widget) :
    (m.Names (ownName root) ∧
      (builderFor config table m).rootName root = ownName root ++ "View") ∨
    (¬m.Names (ownName root) ∧ (builderFor config table m).rootName root = ownName root) := by
  have named : (builderFor config table m).ruleNames.contains (ownName root) = true ↔
      m.Names (ownName root) := contains_iff_mem.trans mem_ruleNames
  have eq : (builderFor config table m).rootName root =
      if (builderFor config table m).ruleNames.contains (ownName root) then ownName root ++ "View"
      else ownName root := rfl
  by_cases h : m.Names (ownName root)
  · exact .inl ⟨h, eq.trans (if_pos (named.mpr h))⟩
  · exact .inr ⟨h, eq.trans (if_neg fun contained => h (named.mp contained))⟩

theorem rootItem_declaredName? (b : Builder) (root : Widget) (name : String) :
    (b.rootItem root).declaredName? = some name ↔
      IsDeclared b.config root ∧ b.rootName root = name := by
  unfold Builder.rootItem Builder.showRoot IsDeclared
  cases b.config.generateStructs <;> cases isBuiltinLayout root.name <;>
    simp [Item.declaredName?, Builder.declareRoot]

theorem file_declaredNames :
    (file config table m).declaredNames = m.rules.map (·.primaryName) ++
      (m.root.bind fun w => ((builderFor config table m).rootItem w).declaredName?).toList := by
  unfold File.declaredNames file
  rw [filterMap_append, filterMap_map]
  refine congrArg₂ (· ++ ·) (congrFun filterMap_eq_map' m.rules) ?_
  cases m.root with
  | none => rfl
  | some root =>
    rw [Option.map_some, Option.toList_some, Option.bind_some, filterMap_cons]
    cases ((builderFor config table m).rootItem root).declaredName? <;> rfl

theorem primaryName_eq_unnamed {r : Rule} (hr : r ∈ m.rules) {name : String} (free : ¬m.Names name) :
    r.primaryName = name ↔ name = "Rule" ∧ r.selectors = [] := by
  unfold Rule.primaryName
  cases selectors : r.selectors with
  | nil => simp [eq_comm]
  | cons first others =>
    have ne : first.name ≠ name := by
      intro eq
      exact free ⟨r, hr, first, by rw [selectors]; exact mem_cons_self, eq⟩
    simp [ne]

/-- The name of a root's view is that of a rule's view in two cases. Either the root has the name of
a class that a rule is for, and the name that it gets instead is that of another rule. Or some rule
is for no class at all and the root has the name of such rules. -/
theorem rootName_free_iff (config : Config) (table : WidgetTable) (root : Widget) :
    (∀ r ∈ m.rules, r.primaryName ≠ (builderFor config table m).rootName root) ↔
      (m.Names (ownName root) → ∀ r ∈ m.rules, r.primaryName ≠ ownName root ++ "View") ∧
      (ownName root = "Rule" → m.Names "Rule" ∨ ∀ r ∈ m.rules, r.selectors ≠ []) := by
  rcases rootName_eq config table root with ⟨named, eq⟩ | ⟨free, eq⟩
  · rw [eq]
    constructor
    · exact fun h => ⟨fun _ => h, fun rule => .inl (rule ▸ named)⟩
    · exact fun h => h.1 named
  · rw [eq]
    constructor
    · refine fun h => ⟨fun named => absurd named free, fun rule => .inr fun r hr none => ?_⟩
      exact h r hr ((primaryName_eq_unnamed hr free).mpr ⟨rule, none⟩)
    · rintro ⟨_, h⟩ r hr taken
      obtain ⟨rule, none⟩ := (primaryName_eq_unnamed hr free).mp taken
      rcases h rule with named | selectors
      · exact free (rule ▸ named)
      · exact selectors r hr none

/-- The views that a file declares have different names exactly if the name of the root's view is
not taken by a rule, where the rules have different names. -/
theorem declaredNames_nodup_iff (distinct : (m.rules.map (·.primaryName)).Nodup) :
    (file config table m).declaredNames.Nodup ↔
      ∀ root ∈ m.root, IsDeclared config root →
        (m.Names (ownName root) → ∀ r ∈ m.rules, r.primaryName ≠ ownName root ++ "View") ∧
        (ownName root = "Rule" → m.Names "Rule" ∨ ∀ r ∈ m.rules, r.selectors ≠ []) := by
  have root_names (name : String) : name ∈ (m.root.bind fun w =>
      ((builderFor config table m).rootItem w).declaredName?).toList ↔
        ∃ root ∈ m.root, IsDeclared config root ∧
          (builderFor config table m).rootName root = name := by
    rw [Option.mem_toList, Option.bind_eq_some_iff]
    simp only [rootItem_declaredName?]
    rfl
  have single (name? : Option String) : name?.toList.Nodup := by cases name? <;> simp
  rw [file_declaredNames, nodup_append]
  constructor
  · rintro ⟨_, _, apart⟩ root hroot declared
    refine (rootName_free_iff config table root).mp fun r hr => ?_
    exact apart _ (mem_map_of_mem hr) _ ((root_names _).mpr ⟨root, hroot, declared, rfl⟩)
  · refine fun h => ⟨distinct, single _, fun first hfirst second hsecond => ?_⟩
    obtain ⟨r, hr, rfl⟩ := mem_map.mp hfirst
    obtain ⟨root, hroot, declared, rfl⟩ := (root_names second).mp hsecond
    exact (rootName_free_iff config table root).mpr (h root hroot declared) r hr

/-- A root with the name of a rule, which is called otherwise then. -/
theorem declaredNames_nodup_iff_screen :
    let rule (name : String) : Rule := ⟨[⟨name, []⟩], [], [], [], .origin⟩
    let m : Markup.Module := ⟨[rule "Screen", rule "Cell"], some ⟨"Screen", [], [], [], .origin⟩⟩
    (m.rules.map (·.primaryName)).Nodup ∧ (file {} .builtin m).declaredNames.Nodup := by
  intro rule m
  have distinct : (m.rules.map (·.primaryName)).Nodup := by decide
  refine ⟨distinct, (declaredNames_nodup_iff distinct).mpr ?_⟩
  rintro _ ⟨⟩ _
  have own : ownName ⟨"Screen", [], [], [], .origin⟩ = "Screen" := by decide
  rw [own]
  exact ⟨fun _ => by decide, fun other => absurd other (by decide)⟩

/-- The name that a root gets instead of that of a rule may be the name of another rule. -/
theorem declaredNames_renamed_root_twice :
    ∃ m, Markup.parse "<Screen>:\n    Label:\n<ScreenView>:\n    Label:\nScreen:\n" = .ok m ∧
      (m.rules.map (·.primaryName)).Nodup ∧ ¬(file {} .builtin m).declaredNames.Nodup := by
  have names : (Markup.parse "<Screen>:\n    Label:\n<ScreenView>:\n    Label:\nScreen:\n").toOption.any
      (fun m => decide (m.rules.map (·.primaryName)).Nodup &&
        !decide (file {} .builtin m).declaredNames.Nodup) = true := by
    decide +kernel
  obtain ⟨m, hm, names⟩ := (Option.any_eq_true _ _).mp names
  obtain ⟨distinct, twice⟩ := Bool.and_eq_true_iff.mp names
  refine ⟨m, eq_ok_of_toOption hm, of_decide_eq_true distinct, ?_⟩
  simpa using twice

end ViewBridge.View
