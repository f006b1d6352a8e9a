import ViewBridge.Proofs.Markup.Formed

namespace ViewBridge.Markup

open List

variable {c : Char} {cs : List Char} {f : Float} {n : Nat} {source : String}

theorem numberText_point (h : (numberText cs).2 = true) : '.' ∈ (numberText cs).1 := by
  unfold numberText at h ⊢
  split
  next rest eq =>
    simp only [eq] at h ⊢
    split
    next he => simp [he] at h
    next => simp
  next eq =>
    split at h
    next rest eq' => exact absurd eq' (eq rest)
    next => cases h

theorem isDefined_readWord {previous : Option Kind}
    (h : readWord previous c cs = .ok (.word (.float f) n)) : Decimal.IsDefined f := by
  have hr := readWord_reading previous c cs
  generalize readWord previous c cs = r at h hr
  cases hr with
  | number =>
    obtain ⟨sign, digits, w, _, eq, number⟩ := exists_of_readNumber h
    cases eq
    cases number with
    | float point read =>
      exact Decimal.isDefined_readFloat? (mem_append_right _ (numberText_point point)) read
  | string =>
    obtain ⟨said, n, eq⟩ := exists_string_of_readString h
    cases eq
  | mark hw =>
    cases h
    cases hw
  | _ => cases h

theorem isDefined_of_tokens {ts : List Token} (h : tokens source = .ok ts)
    (hf : .word (.float f) ∈ ts.map (·.kind)) : Decimal.IsDefined f := by
  obtain ⟨t, ht, hk⟩ := mem_map.mp hf
  obtain ⟨previous, c, cs, n, hr⟩ := Scanner.word_of_tokensOf h t ht (.float f) hk
  exact isDefined_readWord hr

section Same

variable {float : Float → Prop} {expression : String → Prop}

mutual

theorem Plain.same_self (hf : ∀ f, float f → (f == f) = true) {v : Literal}
    (h : Plain float expression v) : v.same v = true := by
  cases v with
  | float f => exact hf f h
  | list items | tuple items => exact allPlain_same_self hf h
  | call callee args =>
    rw [Literal.same, Bool.and_eq_true]
    exact ⟨beq_self_eq_true callee, allPlain_same_self hf h.2⟩
  | _ => simp [Literal.same]

theorem allPlain_same_self (hf : ∀ f, float f → (f == f) = true) {vs : List Literal}
    (h : allPlain float expression vs) : Literal.same.allSame vs vs = true := by
  cases vs with
  | nil => rfl
  | cons v vs =>
    rw [Literal.same.allSame, Bool.and_eq_true]
    exact ⟨Plain.same_self hf h.1, allPlain_same_self hf h.2⟩

end

theorem allSame_self {α : Type} {same : α → α → Bool} {as : List α}
    (h : ∀ a ∈ as, same a a = true) : allSame same as as = true := by
  induction as with
  | nil => rfl
  | cons a as ih =>
    rw [allSame, h a mem_cons_self, ih fun b hb => h b (mem_cons_of_mem a hb)]
    rfl

theorem Accepted.same_self {among : List Kind → Prop}
    (hf : ∀ f, float f → (f == f) = true) {v : Literal} (h : Accepted among float v) :
    v.same v = true := by
  have item : ∀ {u}, ItemAccepted among float u → u.same u = true := by
    rintro u (plain | ⟨slice, _, _, _, rfl⟩)
    · exact plain.same_self hf
    · simp [Literal.same]
  have tuple : ∀ {first items}, Accepted among float (.tuple (first :: items)) →
      Literal.same (.tuple (first :: items)) (.tuple (first :: items)) = true := by
    intro first items h
    rw [Literal.same, literal_allSame_eq]
    exact allSame_self fun u hu => item (h u hu)
  rcases value_cases v with ⟨first, rfl⟩ | ⟨first, second, items, rfl⟩ | ⟨hp, _⟩
  · exact tuple h
  · exact tuple h
  · exact item (h v (by simp [hp]))

theorem properties_same_self {ps : List Property}
    (h : ∀ v ∈ ps.map (·.value), v.same v = true) :
    allSame (Property.same anywhere) ps ps = true := by
  refine allSame_self fun p hp => ?_
  simp [Property.same, anywhere, h p.value (mem_map_of_mem hp)]

mutual

theorem Widget.same_self (w : Widget) (h : ∀ v ∈ w.values, v.same v = true) :
    w.same anywhere w = true := by
  obtain ⟨name, properties, children, canvas, span⟩ := w
  rw [Widget.values, forall_mem_append, forall_mem_append] at h
  simp [Widget.same, anywhere, properties_same_self h.1, canvas_same_self canvas h.2.1,
    widgets_same_self children h.2.2]

theorem widgets_same_self (ws : List Widget) (h : ∀ v ∈ widgetsValues ws, v.same v = true) :
    widgetsSame anywhere ws ws = true := by
  match ws with
  | [] => rfl
  | w :: ws =>
    rw [widgetsValues, forall_mem_append] at h
    rw [widgetsSame, w.same_self h.1, widgets_same_self ws h.2]
    rfl

theorem canvas_same_self (blocks : List (Canvas Widget))
    (h : ∀ v ∈ canvasValues blocks, v.same v = true) : canvasSame anywhere blocks blocks = true := by
  match blocks with
  | [] => rfl
  | ⟨name, instructions, span⟩ :: blocks =>
    rw [canvasValues, forall_mem_append] at h
    simp [canvasSame, anywhere, widgets_same_self instructions h.1, canvas_same_self blocks h.2]

end

theorem Rule.same_self (r : Rule) (h : ∀ v ∈ r.values, v.same v = true) :
    r.same anywhere r = true := by
  rw [Rule.values, List.forall_mem_append, List.forall_mem_append] at h
  simp [Rule.same, anywhere, properties_same_self h.1, canvas_same_self r.canvas h.2.1,
    widgets_same_self r.children h.2.2]

theorem structureEq_self {m : Module} (h : ∀ v ∈ m.values, v.same v = true) :
    m.structureEq m = true := by
  have rules : allSame (Rule.same anywhere) m.rules m.rules = true := by
    refine allSame_self fun r hr => r.same_self fun v hv => h v ?_
    exact List.mem_append_left _ (List.mem_flatMap.mpr ⟨r, hr, hv⟩)
  change m.same anywhere m = true
  rw [Module.same, rules]
  cases hw : m.root with
  | none => rfl
  | some w =>
    refine w.same_self fun v hv => h v (List.mem_append_right _ ?_)
    rwa [hw]

end Same

theorem values_same_self {m : Module} (h : parse source = .ok m) :
    ∀ v ∈ m.values, v.same v = true := by
  obtain ⟨ts, ht, hm⟩ := exists_of_bind h
  intro v hv
  have accepted := (m.formed_iff.mp (ofTokens_formed ht hm)).2 v hv
  exact accepted.same_self fun f hf => (isDefined_of_tokens ht hf).beq_self

end ViewBridge.Markup
