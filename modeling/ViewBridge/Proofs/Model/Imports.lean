import ViewBridge.Proofs.Model.Reread

namespace ViewBridge.Model

open List

open Classes (ClassDef Field NamedClass isName isName_iff)
open Text (Outline OutlineLine)

section Occurs

variable {α : Type} {part first second : List α} {x : α}

theorem occursIn_iff {part text : List Char} : occursIn part text = true ↔ part <:+: text := by
  induction text with
  | nil => rw [occursIn, List.isEmpty_iff, infix_nil]
  | cons c text ih => rw [occursIn, Bool.or_eq_true, isPrefixOf_iff_prefix, ih, infix_cons_iff]

theorem infix_append_cases (h : part <:+: first ++ second) :
    part <:+: first ∨ part <:+: second ∨
      ∃ p q, part = p ++ q ∧ p ≠ [] ∧ q ≠ [] ∧ p <:+ first ∧ q <+: second := by
  obtain ⟨s, t, eq⟩ := h
  rcases append_eq_append_iff.mp eq with ⟨more, rfl, _⟩ | ⟨more, split, rfl⟩
  · exact .inl ⟨s, more, rfl⟩
  rcases append_eq_append_iff.mp split with ⟨p, rfl, rfl⟩ | ⟨cs, rfl, rfl⟩
  · by_cases hp : p = []
    · exact .inr (.inl ⟨[], t, by simp [hp]⟩)
    by_cases hm : more = []
    · exact .inl ⟨s, [], by simp [hm]⟩
    exact .inr (.inr ⟨p, more, rfl, hp, hm, ⟨s, rfl⟩, ⟨t, rfl⟩⟩)
  · exact .inr (.inl ⟨cs, t, rfl⟩)

theorem infix_around (hx : x ∉ part) (h : part <:+: first ++ x :: second) :
    part <:+: first ∨ part <:+: second := by
  have head {q : List α} (hq : q ≠ []) (prefixed : q <+: x :: second) : x ∈ q := by
    cases q with
    | nil => exact absurd rfl hq
    | cons y q =>
      rw [(cons_prefix_cons.mp prefixed).1]
      exact mem_cons_self
  rcases infix_append_cases h with h | h | ⟨p, q, rfl, _, hq, _, prefixed⟩
  · exact .inl h
  · rcases infix_cons_iff.mp h with prefixed | h
    · by_cases none : part = []
      · exact .inl (none ▸ nil_infix)
      · exact absurd (head none prefixed) hx
    · exact .inr h
  · exact absurd (mem_append_right p (head hq prefixed)) hx

theorem infix_before (hx : x ∉ second) (h : part ++ [x] <:+: first ++ second) :
    part ++ [x] <:+: first := by
  rcases infix_append_cases h with h | h | ⟨p, q, eq, _, hq, _, prefixed⟩
  · exact h
  · exact absurd (h.subset (mem_append_right part mem_cons_self)) hx
  · have last : x ∈ q := by
      have ends := congrArg List.getLast? eq
      rw [getLast?_concat, getLast?_append_of_ne_nil p hq] at ends
      exact mem_of_getLast? ends.symm
    exact absurd (prefixed.subset last) hx

theorem infix_upto (hx : x ∉ part) (h : part ++ [x] <:+: first ++ x :: second) :
    part ++ [x] <:+: first ++ [x] ∨ part ++ [x] <:+: second := by
  rw [append_cons first x second] at h
  rcases infix_append_cases h with h | h | ⟨p, q, eq, hp, hq, suffixed, _⟩
  · exact .inl h
  · exact .inr h
  · obtain ⟨init, last, rfl⟩ := eq_nil_or_concat q |>.resolve_left hq
    have whole : part = p ++ init := by
      rw [concat_eq_append, ← append_assoc] at eq
      exact append_inj_left' eq rfl
    have ends : x ∈ p := by
      obtain ⟨s, ends⟩ := suffixed
      have ends := congrArg List.getLast? ends
      rw [getLast?_concat, getLast?_append_of_ne_nil s hp] at ends
      exact mem_of_getLast? ends
    exact absurd (whole ▸ mem_append_left init ends) hx

theorem infix_behind {n : Nat} (hx : x ∉ part) (h : part <:+: List.replicate n x ++ first) :
    part <:+: first := by
  induction n with
  | zero => exact h
  | succ n ih =>
    rw [replicate_succ, cons_append, ← nil_append (x :: _)] at h
    rcases infix_around hx h with none | h
    · rw [infix_nil.mp none]
      exact nil_infix
    · exact ih h

end Occurs

namespace PropertyKind

/-- Whether a text has the name of a class of properties with an open bracket behind it. -/
def CalledIn (kind : PropertyKind) (text : String) : Prop :=
  (kind.className ++ "(").toList <:+: text.toList

instance (kind : PropertyKind) (text : String) : Decidable (kind.CalledIn text) :=
  inferInstanceAs (Decidable (_ <:+: _))

variable {kind : PropertyKind} {first second text : String}

theorem toList_call (kind : PropertyKind) :
    (kind.className ++ "(").toList = kind.className.toList ++ ['('] := String.toList_append

theorem CalledIn.append_left (h : kind.CalledIn second) (first : String) :
    kind.CalledIn (first ++ second) := by
  unfold CalledIn at h ⊢
  rw [String.toList_append (s := first)]
  exact h.trans infix_append_right

theorem CalledIn.append_right (h : kind.CalledIn first) (second : String) :
    kind.CalledIn (first ++ second) := by
  unfold CalledIn at h ⊢
  rw [String.toList_append (s := first)]
  exact h.trans infix_append_left

theorem CalledIn.around_blank (h : kind.CalledIn (first ++ " " ++ second)) :
    kind.CalledIn first ∨ kind.CalledIn second := by
  have noBlank : ' ' ∉ (kind.className ++ "(").toList := by cases kind <;> decide
  refine infix_around noBlank ?_
  unfold CalledIn at h
  rwa [String.toList_append (s := first ++ " "), String.toList_append (s := first),
    append_assoc] at h

theorem CalledIn.before (h : kind.CalledIn (first ++ second)) (closed : '(' ∉ second.toList) :
    kind.CalledIn first := by
  unfold CalledIn at h ⊢
  rw [toList_call] at h ⊢
  rw [String.toList_append] at h
  exact infix_before closed h

theorem CalledIn.mem (h : kind.CalledIn text) : '(' ∈ text.toList := by
  unfold CalledIn at h
  rw [toList_call] at h
  exact h.subset (mem_append_right _ mem_cons_self)

theorem CalledIn.of_call {other : PropertyKind}
    (h : kind.CalledIn (other.className ++ "(" ++ text)) : kind = other ∨ kind.CalledIn text := by
  have bracket : '(' ∉ kind.className.toList := by cases kind <;> decide
  have own : kind.CalledIn (other.className ++ "(") → kind = other := by
    cases kind <;> cases other <;> decide
  unfold CalledIn at h own ⊢
  rw [toList_call] at h own ⊢
  rw [String.toList_append, toList_call, append_assoc] at h
  rw [toList_call] at own
  rcases infix_upto bracket h with h | h
  · exact .inl (own h)
  · exact .inr h

theorem calledIn_render {width depth : Nat} {content : String} :
    kind.CalledIn ((OutlineLine.line depth content).render width) ↔ kind.CalledIn content := by
  constructor
  · intro h
    have noBlank : ' ' ∉ (kind.className ++ "(").toList := by cases kind <;> decide
    have inside := h.before (by decide)
    unfold CalledIn at inside ⊢
    rw [String.toList_append (s := String.ofList _), String.toList_ofList] at inside
    exact infix_behind noBlank inside
  · exact fun h => (h.append_left _).append_right _

theorem not_calledIn_empty {width : Nat} : ¬kind.CalledIn (OutlineLine.empty.render width) := by
  intro h
  have bracket : '(' ∈ "\n".toList := h.mem
  exact absurd bracket (by decide)

theorem not_calledIn_defaultText (kind other : PropertyKind) (type : Descriptor) :
    ¬kind.CalledIn (other.defaultText type) := by
  intro h
  have bracket := h.mem
  unfold defaultText at bracket
  split at bracket <;> exact absurd bracket (by decide)

end PropertyKind

namespace Module

variable {m : Module} {kind : PropertyKind} {c : ModelClass}

def HasMemberLine (m : Module) (width : Nat) (text : String) : Prop :=
  ∃ c ∈ m.classes, ∃ member ∈ c.members, ∃ line ∈ member.outline, line.render width = text

/-- Whether the line that imports classes of properties names this one. -/
def ImportsKind (m : Module) (kind : PropertyKind) : Prop :=
  ∃ names, "from kivy.properties import " ++ ", ".intercalate names ∈ m.importLines ∧
    kind.className ∈ names

theorem importsKind_of_uses {member : Member} (hc : c ∈ m.classes) (hm : member ∈ c.members)
    (uses : member.uses kind = true) : m.ImportsKind kind := by
  have used : kind ∈ m.propertyKinds := by
    refine mem_filter.mpr ⟨by cases kind <;> decide, ?_⟩
    exact any_eq_true.mpr ⟨c, hc, any_eq_true.mpr ⟨member, hm, uses⟩⟩
  refine ⟨m.propertyKinds.map (·.className), ?_, mem_map_of_mem used⟩
  have some : m.propertyKinds.isEmpty = false :=
    isEmpty_eq_false_iff.mpr (ne_nil_of_mem used)
  unfold importLines
  rw [some]
  exact mem_append_left _ (mem_append_right _ mem_cons_self)

theorem mem_importLines_of_base (hc : c ∈ m.classes) :
    (c.base = "EventDispatcher" → "from kivy.event import EventDispatcher" ∈ m.importLines) ∧
      (c.base = "Widget" → "from kivy.uix.widget import Widget" ∈ m.importLines) := by
  have used {base : String} (eq : c.base = base) : m.usesBase base = true :=
    any_eq_true.mpr ⟨c, hc, beq_iff_eq.mpr eq⟩
  unfold importLines
  constructor
  · intro eq
    rw [used eq]
    exact mem_append_left _ (mem_append_left _ mem_cons_self)
  · intro eq
    rw [used eq]
    exact mem_append_right _ mem_cons_self

theorem exists_render_eq (m : Module) (width : Nat) :
    ∃ body, m.render width = String.join (m.importLines.map (· ++ "\n")) ++ body := by
  have line (content : String) : (OutlineLine.line 0 content).render width = content ++ "\n" := by
    rw [OutlineLine.render, Nat.zero_mul]
    exact congrArg (· ++ "\n") String.empty_append
  have lines : Outline.render width (m.importLines.map (.line 0)) =
      String.join (m.importLines.map (· ++ "\n")) := by
    rw [Outline.render, map_map]
    exact congrArg String.join (map_congr_left fun content _ => line content)
  unfold render outline
  split
  next none =>
    have empty : m.importLines = [] := by
      have classes : m.classes = [] := List.isEmpty_iff.mp none
      simp [importLines, usesBase, propertyKinds, classes]
    exact ⟨"", by rw [empty]; rfl⟩
  next =>
    refine ⟨Outline.render width (m.classes.flatMap (·.outline)), String.toList_inj.mp ?_⟩
    rw [Scanner.render_append, String.toList_append, lines]

end Module

/-- The texts of a source module that are put into the lines of the members of the module that is
generated from it, copied lines apart: names, and the defaults of fields that become properties. -/
inductive Spliced (m : Classes.Module) : String → Prop
  | className {c} : c ∈ m.classes → Spliced m c.name
  | fieldName {c f} : c ∈ m.classes → f ∈ c.fields → (propertyType? f).isSome → Spliced m f.name
  | default {c f v} : c ∈ m.classes → f ∈ c.fields → (propertyType? f).isSome → v ∈ f.default →
      Spliced m (literalText v)

section Members

variable {source : String} {m : Classes.Module} {c : ClassDef} {f : Field} {kind : PropertyKind}
  {line : OutlineLine} {width : Nat}

theorem mem_classes_ofModule {d : ModelClass} :
    d ∈ (ofModule source m).classes ↔
      ∃ c ∈ m.classes, d = dataClass source c ∨ d = widgetClass c := by
  simp [ofModule]

theorem uses_of_source {lines : List String} (hl : line ∈ (Member.source lines).outline)
    (called : kind.CalledIn (line.render width)) : (Member.source lines).uses kind = true := by
  obtain ⟨text, ht, rfl⟩ := mem_map.mp hl
  split at called
  next => exact absurd called PropertyKind.not_calledIn_empty
  next =>
    refine any_eq_true.mpr ⟨text, ht, occursIn_iff.mpr ?_⟩
    exact PropertyKind.calledIn_render.mp called

theorem uses_of_property {name default : String} {own : PropertyKind} {allowNone : Bool}
    (hl : line ∈ (Member.property name own default allowNone).outline)
    (called : kind.CalledIn (line.render width)) :
    (Member.property name own default allowNone).uses kind = true ∨ kind.CalledIn name ∨
      kind.CalledIn default := by
  rw [Member.outline, mem_singleton] at hl
  subst hl
  generalize hx : (if (allowNone && own != .object) = true then ", allownone=True" else "") = extra
    at called
  have closed : '(' ∉ (extra ++ ")").toList := by
    rw [← hx]
    split <;> decide
  have content : name ++ " = " ++ own.className ++ "(" ++ default ++ extra ++ ")" =
      name ++ " " ++ ("=" ++ " " ++ (own.className ++ "(" ++ (default ++ (extra ++ ")")))) := by
    apply String.toList_inj.mp
    simp
  have inside := PropertyKind.calledIn_render.mp called
  rw [content] at inside
  rcases inside.around_blank with inName | inside
  · exact .inr (.inl inName)
  rcases inside.around_blank with sign | inside
  · exact absurd sign.mem (by decide)
  rcases inside.of_call with rfl | inside
  · exact .inl (beq_self_eq_true kind)
  · exact .inr (.inr (inside.before closed))

/-- The members of the widget have no call but in the name of the class. -/
theorem calledIn_name_of_widget {member : Member} (hm : member ∈ (widgetClass c).members)
    (hl : line ∈ member.outline) (called : kind.CalledIn (line.render width)) :
    kind.CalledIn c.name := by
  have hint : kind.CalledIn ("data" ++ ": " ++ dataName c) → kind.CalledIn c.name := by
    intro h
    have content : "data" ++ ": " ++ dataName c = "data:" ++ " " ++ (c.name ++ "Data") := by
      apply String.toList_inj.mp
      simp [dataName]
    rw [content] at h
    rcases h.around_blank with h | h
    · exact absurd h.mem (by decide)
    · exact h.before (by decide)
  have signature : kind.CalledIn ("def __init__(self, data: " ++ dataName c ++ ", **kwargs):") →
      kind.CalledIn c.name := by
    intro h
    have content : "def __init__(self, data: " ++ dataName c ++ ", **kwargs):" =
        "def __init__(self, data:" ++ " " ++ (c.name ++ "Data," ++ " " ++ "**kwargs):") := by
      apply String.toList_inj.mp
      simp [dataName]
    rw [content] at h
    rcases h.around_blank with h | h
    · exact absurd h (by cases kind <;> decide)
    rcases h.around_blank with h | h
    · exact h.before (by decide)
    · exact absurd h.mem (by decide)
  have body {text : String} (ht : text ∈ ["super().__init__(**kwargs)", "self.data = data"]) :
      ¬kind.CalledIn text := by
    simp only [mem_cons, not_mem_nil, or_false] at ht
    rcases ht with rfl | rfl <;> cases kind <;> decide
  simp only [widgetClass, mem_cons, not_mem_nil, or_false] at hm
  rcases hm with rfl | rfl
  · rw [Member.outline, mem_singleton] at hl
    subst hl
    exact hint (PropertyKind.calledIn_render.mp called)
  · rw [Member.outline] at hl
    rcases mem_cons.mp hl with rfl | hl
    · exact signature (PropertyKind.calledIn_render.mp called)
    · obtain ⟨text, ht, rfl⟩ := mem_map.mp hl
      exact absurd (PropertyKind.calledIn_render.mp called) (body ht)

theorem exists_property (source : String) (h : (propertyType? f).isSome) :
    ∃ own default allowNone, fieldMember source f = .property f.name own default allowNone ∧
      (∀ v ∈ f.default, default = literalText v) ∧
      (f.default = none → ∀ kind : PropertyKind, ¬kind.CalledIn default) := by
  obtain ⟨type, ht⟩ := Option.isSome_iff_exists.mp h
  unfold fieldMember
  rw [ht]
  refine ⟨_, _, _, rfl, ?_, fun none kind => ?_⟩
  · intro v hv
    rw [Option.mem_def.mp hv]
    rfl
  · rw [none]
    exact PropertyKind.not_calledIn_defaultText kind _ type

theorem importsKind_or_spliced {text : String}
    (h : (ofModule source m).HasMemberLine width text) (called : kind.CalledIn text) :
    (ofModule source m).ImportsKind kind ∨ ∃ part, Spliced m part ∧ kind.CalledIn part := by
  obtain ⟨d, hd, member, hm, line, hl, rfl⟩ := h
  have imported : member.uses kind = true → (ofModule source m).ImportsKind kind :=
    Module.importsKind_of_uses hd hm
  obtain ⟨c, hc, rfl | rfl⟩ := mem_classes_ofModule.mp hd
  · rcases mem_append.mp hm with hf | hf
    · obtain ⟨f, inside, rfl⟩ := mem_map.mp hf
      by_cases typed : (propertyType? f).isSome
      · obtain ⟨own, default, allowNone, eq, given, absent⟩ := exists_property source typed
        rw [eq] at hl imported
        rcases uses_of_property hl called with uses | inName | inDefault
        · exact .inl (imported uses)
        · exact .inr ⟨f.name, .fieldName hc inside typed, inName⟩
        · cases hv : f.default with
          | none => exact absurd inDefault (absent hv kind)
          | some v => exact .inr ⟨literalText v, .default hc inside typed hv, given v hv ▸ inDefault⟩
      · have copied : fieldMember source f = .source (sourceLines source f.extent) := by
          rw [fieldMember, Option.not_isSome_iff_eq_none.mp typed]
        rw [copied] at hl imported
        exact .inl (imported (uses_of_source hl called))
    · obtain ⟨method, _, rfl⟩ := mem_map.mp hf
      exact .inl (imported (uses_of_source hl called))
  · exact .inr ⟨c.name, .className hc, calledIn_name_of_widget hm hl called⟩

/-- Whatever is put into a line is on a line of a member. -/
theorem exists_line_of_spliced {part : String} (h : Spliced m part) (called : kind.CalledIn part) :
    ∃ text, (ofModule source m).HasMemberLine width text ∧ kind.CalledIn text := by
  have shown {d : ModelClass} {member : Member} {depth : Nat} {content : String}
      (hd : d ∈ (ofModule source m).classes) (hm : member ∈ d.members)
      (hl : .line depth content ∈ member.outline) (inside : kind.CalledIn content) :
      ∃ text, (ofModule source m).HasMemberLine width text ∧ kind.CalledIn text :=
    ⟨(OutlineLine.line depth content).render width, ⟨d, hd, member, hm, .line depth content, hl, rfl⟩,
      PropertyKind.calledIn_render.mpr inside⟩
  have property {c : ClassDef} {f : Field} (hc : c ∈ m.classes) (hf : f ∈ c.fields)
      {own : PropertyKind} {default : String} {allowNone : Bool}
      (eq : fieldMember source f = .property f.name own default allowNone)
      (inside : kind.CalledIn f.name ∨ kind.CalledIn default) :
      ∃ text, (ofModule source m).HasMemberLine width text ∧ kind.CalledIn text := by
    have hm : fieldMember source f ∈ (dataClass source c).members :=
      mem_append_left _ (mem_map_of_mem hf)
    rw [eq] at hm
    refine shown (mem_classes_ofModule.mpr ⟨c, hc, .inl rfl⟩) hm (mem_singleton_self _) ?_
    rcases inside with inside | inside
    · exact (((((inside.append_right _).append_right _).append_right _).append_right _).append_right
        _).append_right _
    · exact ((inside.append_left _).append_right _).append_right _
  cases h with
  | className hc =>
    refine shown (mem_classes_ofModule.mpr ⟨_, hc, .inr rfl⟩) mem_cons_self
      (mem_singleton_self _) ?_
    exact (called.append_right "Data").append_left _
  | fieldName hc hf typed =>
    obtain ⟨own, default, allowNone, eq, -, -⟩ := exists_property source typed
    exact property hc hf eq (.inl called)
  | default hc hf typed hv =>
    obtain ⟨own, default, allowNone, eq, given, -⟩ := exists_property source typed
    exact property hc hf eq (.inr (given _ hv ▸ called))

theorem namedClass_of_parse (h : Classes.parse source = .ok m) : ∀ c ∈ m.classes, NamedClass c := by
  obtain ⟨ts, ht, _⟩ := exists_of_bind h
  obtain ⟨whole, fin, rfl, parse⟩ := Classes.exists_parse_eq ht
  obtain ⟨cs, run, rfl⟩ := exists_of_map (parse.symm.trans h)
  refine (Classes.classesFrom_gives [] whole).of_ok run fun t hw => ?_
  exact Classes.named_of_tokens ht t (mem_append_left _ hw)

theorem not_calledIn_name {name : String} (h : isName name = true) : ¬kind.CalledIn name := by
  intro called
  obtain ⟨_, c, cs, eq, hc, hs⟩ := isName_iff.mp h
  have bracket := called.mem
  rw [eq] at bracket
  rcases mem_cons.mp bracket with rfl | inside
  · exact absurd hc (by decide)
  · exact absurd (hs _ inside) (by decide)

end Members

/-- The imports of a generated module. Its text starts with them, and they hold the base classes
that it uses. They hold every class of properties that a line of a member calls exactly if they hold
those that are called in the names and defaults that are put into such lines. Names that were read
from a text call nothing, so that it depends on the defaults. -/
theorem imports_closed_iff (source : String) (m : Classes.Module) (width : Nat) :
    let out := ofModule source m
    (∃ body, out.render width = String.join (out.importLines.map (· ++ "\n")) ++ body) ∧
    (∀ c ∈ out.classes,
      (c.base = "EventDispatcher" → "from kivy.event import EventDispatcher" ∈ out.importLines) ∧
      (c.base = "Widget" → "from kivy.uix.widget import Widget" ∈ out.importLines)) ∧
    ∀ kind : PropertyKind,
      ((∀ line, out.HasMemberLine width line → kind.CalledIn line → out.ImportsKind kind) ↔
        ∀ part, Spliced m part → kind.CalledIn part → out.ImportsKind kind) ∧
      (Classes.parse source = .ok m → ∀ part, Spliced m part → kind.CalledIn part →
        ∃ c ∈ m.classes, ∃ f ∈ c.fields, (propertyType? f).isSome ∧
          ∃ v ∈ f.default, part = literalText v) := by
  intro out
  refine ⟨out.exists_render_eq width, fun c hc => Module.mem_importLines_of_base hc, fun kind => ?_⟩
  refine ⟨⟨fun h part spliced called => ?_, fun h line shown called => ?_⟩, ?_⟩
  · obtain ⟨line, shown, called⟩ := exists_line_of_spliced spliced called
    exact h line shown called
  · rcases importsKind_or_spliced shown called with imported | ⟨part, spliced, called⟩
    · exact imported
    · exact h part spliced called
  · intro read part spliced called
    have named := namedClass_of_parse read
    cases spliced with
    | className hc => exact absurd called (not_calledIn_name (named _ hc).name)
    | fieldName hc hf => exact absurd called (not_calledIn_name ((named _ hc).fields _ hf).name)
    | default hc hf typed hv => exact ⟨_, hc, _, hf, typed, _, hv, rfl⟩

theorem infix_intercalate (separator : String) {name : String} {names : List String} (h : name ∈ names) :
    name.toList <:+: (separator.intercalate names).toList := by
  induction names with
  | nil => cases h
  | cons first others ih =>
    cases others with
    | nil =>
      rw [mem_singleton.mp h]
      simp
    | cons second others =>
      rw [String.intercalate_cons_cons, String.toList_append, String.toList_append]
      rcases mem_cons.mp h with rfl | h
      · exact ⟨[], _, (append_assoc ..).symm⟩
      · exact (ih h).trans infix_append_right

theorem Module.ImportsKind.exists_line {m : Module} {kind : PropertyKind} (h : m.ImportsKind kind) :
    ∃ line ∈ m.importLines, kind.className.toList <:+: line.toList := by
  obtain ⟨names, hl, hn⟩ := h
  refine ⟨_, hl, (infix_intercalate ", " hn).trans ?_⟩
  rw [String.toList_append]
  exact infix_append_right

/-- A property whose default calls another class of properties, which is not imported. -/
theorem imports_lack_default_call :
    ∃ m, Classes.parse "class A:\n    x: object = StringProperty('')\n" = .ok m ∧
      let out := ofModule "class A:\n    x: object = StringProperty('')\n" m
      ∃ line, out.HasMemberLine 4 line ∧ PropertyKind.string.CalledIn line ∧
        ¬out.ImportsKind .string := by
  have check : (Classes.parse "class A:\n    x: object = StringProperty('')\n").toOption.any (fun m =>
      let out := ofModule "class A:\n    x: object = StringProperty('')\n" m
      (out.classes.any fun c => c.members.any fun member => member.outline.any fun line =>
        decide (PropertyKind.string.CalledIn (line.render 4))) &&
      out.importLines.all fun line =>
        !decide (PropertyKind.string.className.toList <:+: line.toList)) = true := by
    decide +kernel
  obtain ⟨m, hm, check⟩ := (Option.any_eq_true _ _).mp check
  obtain ⟨shown, absent⟩ := Bool.and_eq_true_iff.mp check
  obtain ⟨c, hc, shown⟩ := any_eq_true.mp shown
  obtain ⟨member, hmem, shown⟩ := any_eq_true.mp shown
  obtain ⟨line, hl, called⟩ := any_eq_true.mp shown
  refine ⟨m, eq_ok_of_toOption hm, _, ⟨c, hc, member, hmem, line, hl, rfl⟩, of_decide_eq_true called, ?_⟩
  intro imported
  obtain ⟨text, ht, inside⟩ := imported.exists_line
  have outside := all_eq_true.mp absent text ht
  simp [inside] at outside

end ViewBridge.Model
