import Mathlib.Algebra.GroupWithZero.Nat
import ViewBridge.Generate
import ViewBridge.Proofs.View.Erasure

namespace ViewBridge

open List

namespace Text

def OutlineLine.depth : OutlineLine → Nat
  | .empty => 0
  | .line depth _ => depth

theorem Outline.length_render (width : Nat) (outline : Outline) :
    (outline.render width).toList.length =
      (outline.render 0).toList.length + (outline.map OutlineLine.depth).sum * width := by
  induction outline with
  | nil => simp [render]
  | cons line lines ih =>
    rw [Scanner.render_cons, Scanner.render_cons, length_append, length_append, ih,
      map_cons, sum_cons, Nat.add_mul]
    cases line with
    | empty => simp [OutlineLine.render, OutlineLine.depth, Nat.add_assoc]
    | line depth content =>
      simp [OutlineLine.render, OutlineLine.depth]
      omega

theorem Outline.render_zero_ne_one {outline : Outline} {depth : Nat} {content : String}
    (h : .line (depth + 1) content ∈ outline) : outline.render 0 ≠ outline.render 1 := by
  intro same
  have length := outline.length_render 1
  obtain ⟨front, back, rfl⟩ := append_of_mem h
  rw [← same, map_append, sum_append, map_cons, sum_cons,
    OutlineLine.depth] at length
  omega

end Text

namespace Config

/-- The same choices with another width of a level. -/
def withWidth (config : Config) (width : Nat) : Config := { config with indentWidth := width }

variable (config : Config) (source : String)

theorem generate_views_width_zero :
    (config.withWidth 0).generate .views source = (config.withWidth 1).generate .views source := by
  simp only [generate, generate?, withWidth, View.translate_run, View.file_width,
    View.diagnostics_config config _ _ { config with indentWidth := _ }]
  rfl

theorem render_ofModule_width_zero_iff {m : Classes.Module} :
    (Model.ofModule source m).render 0 = (Model.ofModule source m).render 1 ↔ m.classes = [] := by
  constructor
  · intro same
    cases hc : m.classes with
    | nil => rfl
    | cons c cs =>
      have data : .line 1 ("data" ++ ": " ++ Model.dataName c) ∈ (Model.ofModule source m).outline := by
        simp [Model.Module.outline, Model.ofModule, hc, Model.widgetClass, Model.ModelClass.outline,
          Model.Member.outline]
      exact absurd same (Text.Outline.render_zero_ne_one data)
  · intro none
    simp [Model.ofModule, none, Model.Module.render, Model.Module.outline, Text.Outline.render]

theorem generate_models_width_zero_iff :
    (config.withWidth 0).generate .models source = (config.withWidth 1).generate .models source ↔
      ∀ m, Classes.parse source = .ok m → m.classes = [] := by
  unfold generate generate? Classes.parse
  cases Classes.tokens source with
  | error fault => simp [bind, Except.bind]
  | ok ts =>
    cases read : Classes.Module.ofTokens ts with
    | error fault => simp [bind, Except.bind, read]
    | ok m =>
      simp only [bind, Except.bind, read, pure, Except.pure, Except.ok.injEq, forall_eq']
      rw [← render_ofModule_width_zero_iff source]
      exact ⟨fun same => congrArg Generated.code same, fun same => congrArg (Generated.ofCode · _ _ _) same⟩

/-- A level of no width is taken for one of a single space in canonical markup, in views and in both
styles of declarations. In models it is so only where there is no class: otherwise their blocks stand
in the column of their headers. -/
theorem width_zero_iff :
    (config.withWidth 0).format source = (config.withWidth 1).format source ∧
      (config.withWidth 0).generate .views source = (config.withWidth 1).generate .views source ∧
      (∀ style, (config.withWidth 0).generate (.declarations style) source =
        (config.withWidth 1).generate (.declarations style) source) ∧
      ((config.withWidth 0).generate .models source = (config.withWidth 1).generate .models source ↔
        ∀ m, Classes.parse source = .ok m → m.classes = []) :=
  ⟨rfl, config.generate_views_width_zero source, fun _ => rfl,
    config.generate_models_width_zero_iff source⟩

/-- The members of a class without a width. -/
theorem width_zero_flattens :
    ((({} : Config).withWidth 0).generate .models "class A:\n    pass\n").code ≠
      ((({} : Config).withWidth 1).generate .models "class A:\n    pass\n").code := by
  decide +kernel

end Config

end ViewBridge
