import ViewBridge.Markup.Same
import ViewBridge.Proofs.Markup.Reread

namespace ViewBridge.Markup

open List

open List

variable {ps : List Property}

mutual

def Widget.values : Widget → List Literal
  | ⟨_, properties, children, canvas, _⟩ =>
    properties.map (·.value) ++ (canvasValues canvas ++ widgetsValues children)

def widgetsValues : List Widget → List Literal
  | [] => []
  | w :: ws => w.values ++ widgetsValues ws

def canvasValues : List (Canvas Widget) → List Literal
  | [] => []
  | ⟨_, instructions, _⟩ :: blocks => widgetsValues instructions ++ canvasValues blocks

end

def Rule.values (r : Rule) : List Literal :=
  r.properties.map (·.value) ++ (canvasValues r.canvas ++ widgetsValues r.children)

def Module.values (m : Module) : List Literal :=
  m.rules.flatMap (·.values) ++ (m.root.map (·.values)).getD []

section Formed

variable {ok : Literal → Prop}

theorem properties_formed_iff : (∀ p ∈ ps, p.Formed ok) ↔
      (∀ p ∈ ps, p.Formed fun _ => True) ∧ ∀ v ∈ ps.map (·.value), ok v := by
  rw [forall_mem_map]
  exact ⟨fun h => ⟨fun p hp => ⟨(h p hp).1, trivial⟩, fun p hp => (h p hp).2⟩,
    fun h p hp => ⟨(h.1 p hp).1, h.2 p hp⟩⟩

mutual

theorem Widget.formed_iff (w : Widget) :
    w.Formed ok ↔ (w.Formed fun _ => True) ∧ ∀ v ∈ w.values, ok v := by
  obtain ⟨name, properties, children, canvas, span⟩ := w
  rw [Widget.Formed, Widget.Formed, Widget.values, forall_mem_append, forall_mem_append,
    properties_formed_iff, childrenFormed_iff children, canvasFormed_iff canvas]
  grind

theorem childrenFormed_iff (ws : List Widget) :
    childrenFormed ok ws ↔ childrenFormed (fun _ => True) ws ∧ ∀ v ∈ widgetsValues ws, ok v := by
  match ws with
  | [] => simp [childrenFormed, widgetsValues]
  | w :: ws =>
    rw [childrenFormed, childrenFormed, widgetsValues, forall_mem_append, Widget.formed_iff w,
      childrenFormed_iff ws]
    grind

theorem canvasFormed_iff (blocks : List (Canvas Widget)) :
    canvasFormed ok blocks ↔
      canvasFormed (fun _ => True) blocks ∧ ∀ v ∈ canvasValues blocks, ok v := by
  match blocks with
  | [] => simp [canvasFormed, canvasValues]
  | ⟨name, instructions, span⟩ :: blocks =>
    rw [canvasFormed, canvasFormed, canvasValues, forall_mem_append,
      childrenFormed_iff instructions, canvasFormed_iff blocks]
    grind

end

theorem Rule.formed_iff (r : Rule) :
    r.Formed ok ↔ (r.Formed fun _ => True) ∧ ∀ v ∈ r.values, ok v := by
  rw [Rule.values, forall_mem_append, forall_mem_append]
  constructor
  · rintro ⟨selected, selectors, properties, children, canvas⟩
    rw [properties_formed_iff] at properties
    rw [childrenFormed_iff] at children
    rw [canvasFormed_iff] at canvas
    exact ⟨⟨selected, selectors, properties.1, children.1, canvas.1⟩, properties.2, canvas.2,
      children.2⟩
  · rintro ⟨⟨selected, selectors, properties, children, canvas⟩, hp, hc, hw⟩
    exact ⟨selected, selectors, properties_formed_iff.mpr ⟨properties, hp⟩,
      (childrenFormed_iff _).mpr ⟨children, hw⟩, (canvasFormed_iff _).mpr ⟨canvas, hc⟩⟩

/-- The form of a module and the sort of its values are apart. -/
theorem Module.formed_iff (m : Module) :
    m.Formed ok ↔ (m.Formed fun _ => True) ∧ ∀ v ∈ m.values, ok v := by
  have root : ∀ v, v ∈ (m.root.map (·.values)).getD [] ↔ ∃ w ∈ m.root, v ∈ w.values := by
    cases m.root <;> simp
  simp only [Module.values, mem_append, mem_flatMap, root]
  constructor
  · intro h
    refine ⟨⟨fun r hr => (r.formed_iff.mp (h.rules r hr)).1,
      fun w hw => (w.formed_iff.mp (h.root w hw)).1⟩, ?_⟩
    rintro v (⟨r, hr, hv⟩ | ⟨w, hw, hv⟩)
    · exact (r.formed_iff.mp (h.rules r hr)).2 v hv
    · exact (w.formed_iff.mp (h.root w hw)).2 v hv
  · rintro ⟨h, hv⟩
    exact ⟨fun r hr => r.formed_iff.mpr ⟨h.rules r hr, fun v hm => hv v (.inl ⟨r, hr, hm⟩)⟩,
      fun w hw => w.formed_iff.mpr ⟨h.root w hw, fun v hm => hv v (.inr ⟨w, hw, hm⟩)⟩⟩

theorem Module.Formed.imp {m : Module} {fine : Literal → Prop} (h : m.Formed ok)
    (hi : ∀ v, ok v → fine v) : m.Formed fine := by
  rw [Module.formed_iff] at h ⊢
  exact ⟨h.1, fun v hv => hi v (h.2 v hv)⟩

end Formed

/-- The test of places that lets all pass. -/
def anywhere : SpanTest := fun _ _ => true

section Place

variable {f : Span → Span}

theorem property_same_place (p q : Property) :
    (p.place f).same anywhere q = p.same anywhere q := rfl

theorem allSame_map {α : Type} {same : α → α → Bool} {g : α → α}
    (h : ∀ a b, same (g a) b = same a b) (as bs : List α) :
    allSame same (as.map g) bs = allSame same as bs := by
  induction as generalizing bs with
  | nil => rfl
  | cons a as ih =>
    cases bs with
    | nil => rfl
    | cons b bs => simp [allSame, h, ih]

mutual

theorem widget_same_place (w v : Widget) : (w.place f).same anywhere v = w.same anywhere v := by
  obtain ⟨name, properties, children, canvas, span⟩ := w
  rw [Widget.place, Widget.same, Widget.same, allSame_map property_same_place,
    widgetsSame_place children, canvasSame_place canvas]
  rfl

theorem widgetsSame_place (ws vs : List Widget) :
    widgetsSame anywhere (placeWidgets f ws) vs = widgetsSame anywhere ws vs := by
  match ws, vs with
  | [], _ => rfl
  | w :: ws, [] => rfl
  | w :: ws, v :: vs =>
    rw [placeWidgets, widgetsSame, widgetsSame, widget_same_place w v, widgetsSame_place ws vs]

theorem canvasSame_place (cs ds : List (Canvas Widget)) :
    canvasSame anywhere (placeCanvas f cs) ds = canvasSame anywhere cs ds := by
  match cs, ds with
  | [], _ => rfl
  | ⟨name, instructions, span⟩ :: cs, [] => rfl
  | ⟨name, instructions, span⟩ :: cs, d :: ds =>
    rw [placeCanvas, canvasSame, canvasSame, widgetsSame_place instructions, canvasSame_place cs ds]
    rfl

end

theorem rule_same_place (r s : Rule) : (r.place f).same anywhere s = r.same anywhere s := by
  simp only [Rule.same, Rule.place, allSame_map property_same_place, widgetsSame_place,
    canvasSame_place]
  rfl

theorem structureEq_place (m n : Module) : (m.place f).structureEq n = m.structureEq n := by
  change (m.place f).same anywhere n = m.same anywhere n
  simp only [Module.same, Module.place, allSame_map rule_same_place]
  cases m.root with
  | none => rfl
  | some w =>
    cases n.root with
    | none => rfl
    | some v => simp [widget_same_place]

end Place

/-- Whether the text of a property value is read as the value it was written for. -/
def ReadsBack (v : Literal) : Prop := ∃ u, reading v = some u ∧ u.same v = true

theorem mapM_same_iff {α : Type} {same : α → α → Bool} {g : α → Option α} {as : List α} :
    (∃ bs, as.mapM g = some bs ∧ allSame same bs as = true) ↔
      ∀ a ∈ as, ∃ b, g a = some b ∧ same b a = true := by
  induction as with
  | nil => simp [allSame]
  | cons a as ih =>
    rw [List.forall_mem_cons, ← ih, List.mapM_cons]
    constructor
    · rintro ⟨bs, hb, hs⟩
      obtain ⟨b, ha, hb⟩ := Option.bind_eq_some_iff.mp hb
      obtain ⟨bs, has, hb⟩ := Option.bind_eq_some_iff.mp hb
      cases hb
      rw [allSame, Bool.and_eq_true] at hs
      exact ⟨⟨b, ha, hs.1⟩, bs, has, hs.2⟩
    · rintro ⟨⟨b, ha, hs⟩, bs, has, hss⟩
      exact ⟨b :: bs, by simp [ha, has], by simp [allSame, hs, hss]⟩

theorem literal_allSame_eq (vs us : List Literal) :
    Literal.same.allSame vs us = allSame Literal.same vs us := by
  induction vs generalizing us with
  | nil => cases us <;> rfl
  | cons v vs ih =>
    cases us with
    | nil => rfl
    | cons u us => rw [Literal.same.allSame, allSame, ih]

/-- A property value reads back if each of its items does from its own text. -/
theorem readsBack_iff (v : Literal) :
    ReadsBack v ↔ ∀ item ∈ parts v, ∃ u, readText item.spelled = some u ∧ u.same item = true := by
  have tuple : ∀ first items, ReadsBack (.tuple (first :: items)) ↔
      ∀ item ∈ first :: items, ∃ u, readText item.spelled = some u ∧ u.same item = true := by
    intro first items
    rw [← mapM_same_iff]
    simp only [ReadsBack, reading, Option.map_eq_some_iff]
    constructor
    · rintro ⟨_, ⟨us, hu, rfl⟩, hs⟩
      rw [Literal.same, literal_allSame_eq] at hs
      exact ⟨us, hu, hs⟩
    · rintro ⟨us, hu, hs⟩
      refine ⟨_, ⟨us, hu, rfl⟩, ?_⟩
      rwa [Literal.same, literal_allSame_eq]
  rcases value_cases v with ⟨item, rfl⟩ | ⟨first, second, items, rfl⟩ | ⟨hp, _, hr, _⟩
  · exact tuple item []
  · exact tuple first (second :: items)
  · rw [hp, List.forall_mem_singleton, ReadsBack, hr]

theorem properties_reread :
    (∃ qs, ps.mapM Property.reread = some qs ∧ allSame (Property.same anywhere) qs ps = true) ↔
      ∀ v ∈ ps.map (·.value), ReadsBack v := by
  have one : ∀ p : Property, (∃ q, p.reread = some q ∧ q.same anywhere p = true) ↔
      ReadsBack p.value := by
    intro p
    simp only [Property.reread, Option.map_eq_some_iff, ReadsBack]
    constructor
    · rintro ⟨_, ⟨u, hu, rfl⟩, hs⟩
      simp only [Property.same, anywhere, beq_self_eq_true, Bool.true_and, Bool.and_true] at hs
      exact ⟨u, hu, hs⟩
    · rintro ⟨u, hu, hs⟩
      exact ⟨_, ⟨u, hu, rfl⟩, by simp [Property.same, anywhere, hs]⟩
  rw [mapM_same_iff, List.forall_mem_map]
  exact ⟨fun h p hp => (one p).mp (h p hp), fun h p hp => (one p).mpr (h p hp)⟩

theorem joinBody_iff {properties : Option (List Property)} {canvas : Option (List (Canvas Widget))}
    {children : Option (List Widget)} {p : List Property → Prop}
    {c : List (Canvas Widget) → Prop} {w : List Widget → Prop} :
    (∃ b, joinBody properties canvas children = some b ∧ p b.properties ∧ c b.canvas ∧
      w b.children) ↔
      (∃ ps, properties = some ps ∧ p ps) ∧ (∃ cs, canvas = some cs ∧ c cs) ∧
        ∃ ws, children = some ws ∧ w ws := by
  cases properties with
  | none => simp [joinBody]
  | some ps =>
    cases canvas with
    | none => simp [joinBody]
    | some cs =>
      cases children with
      | none => simp [joinBody]
      | some ws => simp [joinBody]

mutual

theorem widget_reread (w : Widget) :
    (∃ v, w.reread = some v ∧ v.same anywhere w = true) ↔ ∀ v ∈ w.values, ReadsBack v := by
  obtain ⟨name, properties, children, canvas, span⟩ := w
  rw [Widget.values, List.forall_mem_append, List.forall_mem_append, ← properties_reread,
    ← canvas_reread canvas, ← widgets_reread children, ← joinBody_iff, Widget.reread]
  simp only [Option.map_eq_some_iff]
  constructor
  · rintro ⟨_, ⟨b, hb, rfl⟩, hs⟩
    simp only [widgetOf, Widget.same, Bool.and_eq_true] at hs
    exact ⟨b, hb, hs.1.1.1.2, hs.1.2, hs.1.1.2⟩
  · rintro ⟨b, hb, hp, hc, hw⟩
    exact ⟨_, ⟨b, hb, rfl⟩, by simp [widgetOf, Widget.same, hp, hc, hw, anywhere]⟩

theorem widgets_reread (ws : List Widget) :
    (∃ vs, rereadWidgets ws = some vs ∧ widgetsSame anywhere vs ws = true) ↔
      ∀ v ∈ widgetsValues ws, ReadsBack v := by
  match ws with
  | [] => simp [rereadWidgets, widgetsValues, widgetsSame]
  | w :: ws =>
    rw [widgetsValues, List.forall_mem_append, ← widget_reread w, ← widgets_reread ws,
      rereadWidgets]
    simp only [Option.bind_eq_some_iff, Option.map_eq_some_iff]
    constructor
    · rintro ⟨_, ⟨v, hv, vs, hvs, rfl⟩, hs⟩
      rw [widgetsSame, Bool.and_eq_true] at hs
      exact ⟨⟨v, hv, hs.1⟩, vs, hvs, hs.2⟩
    · rintro ⟨⟨v, hv, hs⟩, vs, hvs, hss⟩
      exact ⟨_, ⟨v, hv, vs, hvs, rfl⟩, by simp [widgetsSame, hs, hss]⟩

theorem canvas_reread (blocks : List (Canvas Widget)) :
    (∃ cs, rereadCanvas blocks = some cs ∧ canvasSame anywhere cs blocks = true) ↔
      ∀ v ∈ canvasValues blocks, ReadsBack v := by
  match blocks with
  | [] => simp [rereadCanvas, canvasValues, canvasSame]
  | ⟨name, instructions, span⟩ :: blocks =>
    rw [canvasValues, List.forall_mem_append, ← widgets_reread instructions,
      ← canvas_reread blocks, rereadCanvas]
    simp only [Option.bind_eq_some_iff, Option.map_eq_some_iff]
    constructor
    · rintro ⟨_, ⟨vs, hvs, cs, hcs, rfl⟩, hs⟩
      simp only [canvasSame, Bool.and_eq_true] at hs
      exact ⟨⟨vs, hvs, hs.1.1.2⟩, cs, hcs, hs.2⟩
    · rintro ⟨⟨vs, hvs, hs⟩, cs, hcs, hss⟩
      exact ⟨_, ⟨vs, hvs, cs, hcs, rfl⟩, by simp [canvasSame, hs, hss, anywhere]⟩

end

theorem rule_reread (r : Rule) :
    (∃ s, r.reread = some s ∧ s.same anywhere r = true) ↔ ∀ v ∈ r.values, ReadsBack v := by
  rw [Rule.values, List.forall_mem_append, List.forall_mem_append, ← properties_reread,
    ← canvas_reread, ← widgets_reread, ← joinBody_iff, Rule.reread]
  simp only [Option.map_eq_some_iff]
  constructor
  · rintro ⟨_, ⟨b, hb, rfl⟩, hs⟩
    simp only [Rule.same, Bool.and_eq_true] at hs
    exact ⟨b, hb, hs.1.1.1.2, hs.1.2, hs.1.1.2⟩
  · rintro ⟨b, hb, hp, hc, hw⟩
    exact ⟨_, ⟨b, hb, rfl⟩, by simp [Rule.same, hp, hc, hw, anywhere]⟩

theorem module_reread (m : Module) :
    (∃ n, m.reread = some n ∧ n.structureEq m = true) ↔ ∀ v ∈ m.values, ReadsBack v := by
  obtain ⟨rules, root⟩ := m
  have all : (∃ rs, rules.mapM Rule.reread = some rs ∧ allSame (Rule.same anywhere) rs rules = true) ↔
      ∀ v ∈ rules.flatMap (·.values), ReadsBack v := by
    rw [mapM_same_iff, List.forall_mem_flatMap]
    exact ⟨fun h r hr => (rule_reread r).mp (h r hr), fun h r hr => (rule_reread r).mpr (h r hr)⟩
  rw [Module.values, List.forall_mem_append, ← all, Module.reread]
  change (∃ n : Module, _ ∧ n.same anywhere _ = true) ↔ _
  cases root with
  | none =>
    simp only [Option.bind_eq_some_iff, Option.map_none, Option.getD_none]
    constructor
    · rintro ⟨_, ⟨rs, hr, ⟨⟩⟩, hs⟩
      exact ⟨⟨rs, hr, by simpa [Module.same] using hs⟩, by simp⟩
    · rintro ⟨⟨rs, hr, hs⟩, _⟩
      exact ⟨_, ⟨rs, hr, rfl⟩, by simpa [Module.same] using hs⟩
  | some w =>
    simp only [Option.bind_eq_some_iff, Option.map_some, Option.getD_some, ← widget_reread w,
      Option.map_eq_some_iff]
    constructor
    · rintro ⟨_, ⟨rs, hr, v, hv, rfl⟩, hs⟩
      simp only [Module.same, Bool.and_eq_true] at hs
      exact ⟨⟨rs, hr, hs.1⟩, v, hv, hs.2⟩
    · rintro ⟨⟨rs, hr, hs⟩, v, hv, hw⟩
      exact ⟨_, ⟨rs, hr, v, hv, rfl⟩, by simp [Module.same, hs, hw]⟩

/-- The canonical text of a module gives the module back, wherever its elements stand, if and only
if every value reads back from its own text. -/
theorem parse_format_iff {m : Module} (h : m.Formed Legible) (width : Nat) :
    (∃ n, parse (m.format width) = .ok n ∧ n.structureEq m = true) ↔
      ∀ v ∈ m.values, ReadsBack v := by
  rw [← module_reread]
  have placed := parse_format h width
  have kept {n n' : Module} (same : n.place nowhere = n'.place nowhere) :
      n.structureEq m = n'.structureEq m := by
    rw [← structureEq_place (f := nowhere) n, same, structureEq_place]
  constructor
  · rintro ⟨n, hn, hs⟩
    rw [hn] at placed
    obtain ⟨n', hr, same⟩ := Option.map_eq_some_iff.mp placed.symm
    exact ⟨n', hr, kept same ▸ hs⟩
  · rintro ⟨n, hn, hs⟩
    rw [hn] at placed
    obtain ⟨n', hr, same⟩ := Option.map_eq_some_iff.mp placed
    exact ⟨n', eq_ok_of_toOption hr, kept same ▸ hs⟩

end ViewBridge.Markup
