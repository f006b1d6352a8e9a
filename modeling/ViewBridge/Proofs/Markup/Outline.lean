import ViewBridge.Proofs.Markup.Line

namespace ViewBridge.Markup

open Scanner

instance (cs : List Char) : Decidable (IsName cs) :=
  match cs with
  | [] => .isFalse fun ⟨_, _, h, _⟩ => nomatch h
  | c :: more =>
    decidable_of_iff (Text.isNameStart c = true ∧ ∀ d ∈ more, isIdentifierPart d = true)
      ⟨fun h => ⟨c, more, rfl, h⟩, fun ⟨_, _, eq, h⟩ => by cases eq; exact h⟩

instance (s : Selector) : Decidable s.Named := inferInstanceAs (Decidable (_ ∧ _))

def Property.Formed (ok : Literal → Prop) (p : Property) : Prop :=
  IsName p.name.toList ∧ ok p.value

mutual

/-- Whether the names of a widget and of all below it are such as the markup reads at their places,
and the values are of the given sort. -/
def Widget.Formed (ok : Literal → Prop) : Widget → Prop
  | ⟨name, properties, children, canvas, _⟩ =>
    IsName name.toList ∧ (∀ p ∈ properties, p.Formed ok) ∧ childrenFormed ok children ∧
      canvasFormed ok canvas

/-- A widget below another one does not start with a small letter. -/
def childrenFormed (ok : Literal → Prop) : List Widget → Prop
  | [] => True
  | w :: ws => startsLowercase w.name = false ∧ w.Formed ok ∧ childrenFormed ok ws

def canvasFormed (ok : Literal → Prop) : List (Canvas Widget) → Prop
  | [] => True
  | ⟨name, instructions, _⟩ :: blocks =>
    isCanvasName name = true ∧ childrenFormed ok instructions ∧ canvasFormed ok blocks

end

structure Rule.Formed (ok : Literal → Prop) (r : Rule) : Prop where
  selected : r.selectors ≠ []
  selectors : ∀ s ∈ r.selectors, s.Named
  properties : ∀ p ∈ r.properties, p.Formed ok
  children : childrenFormed ok r.children
  canvas : canvasFormed ok r.canvas

structure Module.Formed (ok : Literal → Prop) (m : Module) : Prop where
  rules : ∀ r ∈ m.rules, r.Formed ok
  root : ∀ w ∈ m.root, w.Formed ok

section Decide

variable (ok : Literal → Prop) [DecidablePred ok]

instance : DecidablePred (Property.Formed ok) := fun p =>
  inferInstanceAs (Decidable (IsName p.name.toList ∧ ok p.value))

mutual

def Widget.decideFormed : (w : Widget) → Decidable (w.Formed ok)
  | ⟨name, properties, children, canvas, _⟩ =>
    have := decideChildrenFormed children
    have := decideCanvasFormed canvas
    inferInstanceAs (Decidable (IsName name.toList ∧ (∀ p ∈ properties, p.Formed ok) ∧
      childrenFormed ok children ∧ canvasFormed ok canvas))

def decideChildrenFormed : (ws : List Widget) → Decidable (childrenFormed ok ws)
  | [] => .isTrue trivial
  | w :: ws =>
    have := w.decideFormed
    have := decideChildrenFormed ws
    inferInstanceAs (Decidable (startsLowercase w.name = false ∧ w.Formed ok ∧
      childrenFormed ok ws))

def decideCanvasFormed : (blocks : List (Canvas Widget)) → Decidable (canvasFormed ok blocks)
  | [] => .isTrue trivial
  | ⟨name, instructions, _⟩ :: blocks =>
    have := decideChildrenFormed instructions
    have := decideCanvasFormed blocks
    inferInstanceAs (Decidable (isCanvasName name = true ∧ childrenFormed ok instructions ∧
      canvasFormed ok blocks))

end

instance : DecidablePred (Rule.Formed ok) := fun r =>
  have := decideChildrenFormed ok r.children
  have := decideCanvasFormed ok r.canvas
  decidable_of_iff (r.selectors ≠ [] ∧ (∀ s ∈ r.selectors, s.Named) ∧
      (∀ p ∈ r.properties, p.Formed ok) ∧ childrenFormed ok r.children ∧ canvasFormed ok r.canvas)
    ⟨fun ⟨h, hs, hp, hw, hc⟩ => ⟨h, hs, hp, hw, hc⟩, fun ⟨h, hs, hp, hw, hc⟩ => ⟨h, hs, hp, hw, hc⟩⟩

instance : DecidablePred (Module.Formed ok) := fun m =>
  have := Widget.decideFormed ok
  decidable_of_iff ((∀ r ∈ m.rules, r.Formed ok) ∧ ∀ w ∈ m.root, w.Formed ok)
    ⟨fun ⟨hr, hw⟩ => ⟨hr, hw⟩, fun ⟨hr, hw⟩ => ⟨hr, hw⟩⟩

end Decide

def propertyBranch (p : Property) : Branch Word :=
  .node (p.name ++ ": " ++ p.value.propertyText)
    (.word (.identifier p.name) :: .word .colon :: valueKinds p.value) []

mutual

def widgetBranch : Widget → Branch Word
  | ⟨name, properties, children, canvas, _⟩ =>
    .node (name ++ ":") [.word (.identifier name), .word .colon]
      (properties.map propertyBranch ++ canvasBranches canvas ++ widgetBranches children)

def widgetBranches : List Widget → List (Branch Word)
  | [] => []
  | w :: ws => widgetBranch w :: widgetBranches ws

def canvasBranches : List (Canvas Widget) → List (Branch Word)
  | [] => []
  | ⟨name, instructions, _⟩ :: blocks =>
    .node (name ++ ":") [.word (.identifier name), .word .colon] (widgetBranches instructions) ::
      canvasBranches blocks

end

def ruleBranch (r : Rule) : Branch Word :=
  .node (ruleText r.selectors)
    (.word .openAngle :: (selectorsKinds r.selectors ++ [.word .closeAngle, .word .colon]))
    (r.properties.map propertyBranch ++ canvasBranches r.canvas ++ widgetBranches r.children)

/-- The parts of a module as trees of lines. -/
def Module.branches (m : Module) : List (Branch Word) :=
  m.rules.map ruleBranch ++ (m.root.map widgetBranch).toList

theorem branchesOutline_append (depth : Nat) (bs cs : List (Branch Word)) :
    branchesOutline depth (bs ++ cs) = branchesOutline depth bs ++ branchesOutline depth cs := by
  induction bs with
  | nil => rfl
  | cons b bs ih => simp [branchesOutline, ih]

theorem branchesOutline_properties (depth : Nat) (ps : List Property) :
    branchesOutline depth (ps.map propertyBranch) = ps.map (·.outline depth) := by
  induction ps with
  | nil => rfl
  | cons p ps ih =>
    rw [List.map_cons, branchesOutline, ih]
    rfl

mutual

theorem widgetBranch_outline (depth : Nat) (w : Widget) :
    (widgetBranch w).outline depth = w.outline depth := by
  obtain ⟨name, properties, children, canvas, span⟩ := w
  rw [widgetBranch, Branch.outline, Widget.outline, branchesOutline_append, branchesOutline_append,
    branchesOutline_properties, canvasBranches_outline, widgetBranches_outline]
  rfl

theorem widgetBranches_outline (depth : Nat) (ws : List Widget) :
    branchesOutline depth (widgetBranches ws) = widgetsOutline depth ws := by
  cases ws with
  | nil => rfl
  | cons w ws =>
    rw [widgetBranches, branchesOutline, widgetsOutline, widgetBranch_outline,
      widgetBranches_outline]

theorem canvasBranches_outline (depth : Nat) (blocks : List (Canvas Widget)) :
    branchesOutline depth (canvasBranches blocks) = canvasOutline depth blocks := by
  match blocks with
  | [] => rfl
  | ⟨name, instructions, span⟩ :: blocks =>
    rw [canvasBranches, branchesOutline, canvasOutline, Branch.outline, widgetBranches_outline,
      canvasBranches_outline]

end

theorem ruleBranch_outline (r : Rule) : (ruleBranch r).outline 0 = r.outline := by
  rw [ruleBranch, Branch.outline, Rule.outline, branchesOutline_append, branchesOutline_append,
    branchesOutline_properties, canvasBranches_outline, widgetBranches_outline]
  rfl

theorem outline_eq_branches (m : Module) :
    m.outline = Text.Outline.separated (m.branches.map (·.outline 0)) := by
  have root : (m.root.map widgetBranch).toList.map (·.outline 0) =
      (m.root.map (·.outline 0)).toList := by
    cases m.root with
    | none => rfl
    | some w => simp [widgetBranch_outline]
  rw [Module.outline, Module.branches, List.map_append, root, List.map_map]
  simp [Function.comp_def, ruleBranch_outline]

theorem propertyBranch_legible {p : Property} (h : p.Formed Legible) :
    (propertyBranch p).Legible readWord :=
  .node (lineReads_property h.1 h.2) (by simp)

theorem isName_of_isCanvasName {name : String} (h : isCanvasName name = true) :
    IsName name.toList := by
  simp only [isCanvasName, Bool.or_eq_true, beq_iff_eq] at h
  rcases h with (rfl | rfl) | rfl <;> decide

mutual

theorem widgetBranch_legible (w : Widget) (h : w.Formed Legible) :
    (widgetBranch w).Legible readWord := by
  obtain ⟨name, properties, children, canvas, span⟩ := w
  rw [Widget.Formed] at h
  obtain ⟨hn, hp, hw, hc⟩ := h
  rw [widgetBranch]
  refine .node (lineReads_header hn) fun b hb => ?_
  rcases List.mem_append.mp hb with hb | hb
  · rcases List.mem_append.mp hb with hb | hb
    · obtain ⟨p, hm, rfl⟩ := List.mem_map.mp hb
      exact propertyBranch_legible (hp p hm)
    · exact canvasBranches_legible canvas hc b hb
  · exact widgetBranches_legible children hw b hb

theorem widgetBranches_legible (ws : List Widget) (h : childrenFormed Legible ws) :
    ∀ b ∈ widgetBranches ws, b.Legible readWord := by
  match ws with
  | [] => exact fun b hb => by cases hb
  | w :: ws =>
    rw [childrenFormed] at h
    intro b hb
    rw [widgetBranches] at hb
    rcases List.mem_cons.mp hb with rfl | hb
    · exact widgetBranch_legible w h.2.1
    · exact widgetBranches_legible ws h.2.2 b hb

theorem canvasBranches_legible (blocks : List (Canvas Widget)) (h : canvasFormed Legible blocks) :
    ∀ b ∈ canvasBranches blocks, b.Legible readWord := by
  match blocks with
  | [] => exact fun b hb => by cases hb
  | ⟨name, instructions, span⟩ :: blocks =>
    rw [canvasFormed] at h
    intro b hb
    rw [canvasBranches] at hb
    rcases List.mem_cons.mp hb with rfl | hb
    · exact .node (lineReads_header (isName_of_isCanvasName h.1))
        (widgetBranches_legible instructions h.2.1)
    · exact canvasBranches_legible blocks h.2.2 b hb

end

theorem ruleBranch_legible {r : Rule} (h : r.Formed Legible) :
    (ruleBranch r).Legible readWord := by
  obtain ⟨selectors, properties, children, canvas, span⟩ := r
  have line : LineReads readWord (ruleText selectors)
      (.word .openAngle :: (selectorsKinds selectors ++ [.word .closeAngle, .word .colon])) := by
    cases selectors with
    | nil => exact absurd rfl h.selected
    | cons first others => exact lineReads_rule h.selectors
  refine .node line fun b hb => ?_
  rcases List.mem_append.mp hb with hb | hb
  · rcases List.mem_append.mp hb with hb | hb
    · obtain ⟨p, hm, rfl⟩ := List.mem_map.mp hb
      exact propertyBranch_legible (h.properties p hm)
    · exact canvasBranches_legible canvas h.canvas b hb
  · exact widgetBranches_legible children h.children b hb

/-- The tokens of the canonical text of a module. -/
theorem tokens_format {m : Module} (h : m.Formed Legible) (width : Nat) :
    ∃ ts, tokens (m.format width) = .ok ts ∧
      ts.map (·.kind) = branchesKinds m.branches ++ [.eof] := by
  rw [Module.format, outline_eq_branches]
  refine tokensOf_separated (Nat.lt_of_lt_of_le Nat.zero_lt_one (Nat.le_max_left 1 width)) _ ?_
  intro b hb
  rcases List.mem_append.mp hb with hb | hb
  · obtain ⟨r, hm, rfl⟩ := List.mem_map.mp hb
    exact ruleBranch_legible (h.rules r hm)
  · obtain ⟨w, hm, rfl⟩ := Option.map_eq_some_iff.mp (Option.mem_toList.mp hb)
    exact widgetBranch_legible w (h.root w hm)

end ViewBridge.Markup
