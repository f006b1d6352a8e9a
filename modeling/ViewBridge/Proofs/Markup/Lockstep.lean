import ViewBridge.Proofs.Markup.Places

namespace ViewBridge.Markup

open List

/-- Two runs with the same outcome: both fail for the same reason, wherever that is, or their results
are related. -/
abbrev Agree {α β : Type} (S : α → β → Prop) := ViewBridge.Agree (InvImage Eq Fault.unplaced) S

variable {b b' : Body} {s s' span span' : Span} {name : String} {inner inner' : Body}
  {first : Literal}

theorem expressionText_alike {ts ts' : List Token} (h : Alike ts ts') (s : Spacing) :
    expressionText s ts = expressionText s ts' := by
  induction ts generalizing ts' s with
  | nil =>
    cases h.heads
    rfl
  | cons t ts ih =>
    obtain ⟨t', ts', rfl, hk, ht⟩ := map_eq_cons_iff.mp h.symm
    simp only [expressionText, hk, ih ht.symm]

section Line

variable {m n : Nat} {R : TokenRel Word} (hR : Lockstep m n R)
  {fin fin' : Span} {ts ts' : List Token}

include hR

theorem atItemEnd_lockstep (h : R ts ts') : atItemEnd ts = atItemEnd ts' := by
  cases hR.heads h with
  | nil => rfl
  | @cons k =>
    cases k with
    | word w => cases w <;> rfl
    | _ => rfl

theorem namesAgree (fin fin' : Span) : NamesAgree m n (InvImage Eq Fault.unplaced) R fin fin' where
  toLockstep := hR
  fault _ := unexpected_lockstep hR
  name h := .ok ⟨rfl, h⟩

theorem itemTokens_lockstep (depth : Nat) (h : R ts ts') :
    Alike (itemTokens depth ts) (itemTokens depth ts') ∧
      R (ts.drop (itemTokens depth ts).length) (ts'.drop (itemTokens depth ts').length) := by
  induction ts generalizing ts' depth with
  | nil =>
    cases hR.heads h
    exact ⟨rfl, h⟩
  | cons t ts ih =>
    cases hR.heads h with
    | @cons k s s' ts ts' next =>
      have taken : ∀ depth, k ≠ .newline →
          Alike (⟨k, s⟩ :: itemTokens depth ts) (⟨k, s'⟩ :: itemTokens depth ts') ∧
          R ((⟨k, s⟩ :: ts).drop ((⟨k, s⟩ : Token) :: itemTokens depth ts).length)
            ((⟨k, s'⟩ :: ts').drop ((⟨k, s'⟩ : Token) :: itemTokens depth ts').length) := by
        intro depth hk
        obtain ⟨alike, hr⟩ := ih depth (next hk)
        exact ⟨congrArg (k :: ·) alike, hr⟩
      cases k with
      | newline | eof => exact ⟨rfl, h⟩
      | word w =>
        cases w with
        | comma =>
          simp only [itemTokens]
          split
          · exact ⟨rfl, h⟩
          · exact taken _ nofun
        | _ => exact taken _ nofun
      | _ => exact taken _ nofun

theorem item_lockstep (h : R ts ts') : Agree (Leaves Eq R) (item fin ts) (item fin' ts') := by
  obtain ⟨alike, hd⟩ := itemTokens_lockstep hR 0 h
  have any : (itemTokens 0 ts).any (isExpressionToken ·.kind) =
      (itemTokens 0 ts').any (isExpressionToken ·.kind) := by
    have kinds := congrArg (List.any · isExpressionToken) alike
    simpa only [any_map, Function.comp_def] using kinds
  have text := expressionText_alike alike {}
  have orExpression : ∀ {fault fault' : Fault}, fault.unplaced = fault'.unplaced → Agree (Leaves Eq R)
      (if (itemTokens 0 ts).any (isExpressionToken ·.kind) then
        .ok (Literal.expression (expressionText {} (itemTokens 0 ts)), ts.drop (itemTokens 0 ts).length)
        else .error fault)
      (if (itemTokens 0 ts').any (isExpressionToken ·.kind) then
        .ok (Literal.expression (expressionText {} (itemTokens 0 ts')), ts'.drop (itemTokens 0 ts').length)
        else .error fault') := by
    intro fault fault' same
    rw [any, text]
    split
    · exact .ok ⟨rfl, hd⟩
    · exact .error same
  have read : Agree (Leaves Eq R) (atom fin ts) (atom fin' ts') := atom_lockstep (namesAgree hR fin fin') h
  unfold item
  generalize atom fin ts = x at read
  generalize atom fin' ts' = y at read
  cases read with
  | error same => exact orExpression same
  | @ok p q left =>
    obtain ⟨value, rest⟩ := p
    obtain ⟨_, rest'⟩ := q
    obtain ⟨rfl, hr⟩ := left
    simp only [atItemEnd_lockstep hR hr]
    split
    · exact .ok ⟨rfl, hr⟩
    · exact orExpression (unexpected_lockstep hR hr)

theorem propertyValue_lockstep (h : R ts ts') :
    Agree (Leaves Eq R) (propertyValue fin ts) (propertyValue fin' ts') :=
  bareTuple_lockstep (namesAgree hR fin fin') (item_lockstep hR) h

theorem identifier_lockstep {expected : Expected} (h : R ts ts') :
    Agree (Leaves Eq R) (identifier fin expected ts) (identifier fin' expected ts') := by
  cases hR.heads h with
  | nil => exact .error rfl
  | @cons k s s' rest rest' next =>
    cases k with
    | word w =>
      cases w with
      | identifier name => exact .ok ⟨rfl, next nofun⟩
      | _ => exact .error rfl
    | _ => exact .error rfl

theorem moreBases_lockstep (h : R ts ts') :
    Agree (Leaves Eq R) (moreBases fin ts) (moreBases fin' ts') := by
  induction hn : ts.length using Nat.strongRecOn generalizing ts ts' with
  | ind size ih =>
    by_cases hp : headKind ts = some (.word (.operator "+"))
    · cases hR.heads h with
      | nil => cases hp
      | @cons k s s' rest rest' next =>
        cases hp
        have hr := next nofun
        by_cases hi : ∃ base, headKind rest = some (.word (.identifier base))
        · obtain ⟨base, hi⟩ := hi
          cases hR.heads hr with
          | nil => cases hi
          | @cons k t t' rest rest' inner =>
            cases hi
            rw [length_cons, length_cons] at hn
            rw [moreBases_plus, moreBases_plus]
            exact (ih rest.length (by omega) (inner nofun) rfl).map_leaves fun _ _ _ hr => ⟨rfl, hr⟩
        · have other : ∀ base, headKind rest ≠ some (.word (.identifier base)) :=
            fun base hk => hi ⟨base, hk⟩
          rw [moreBases_refused other, moreBases_refused (headKind_lockstep hR hr ▸ other)]
          exact .error (unexpected_lockstep hR hr)
    · rw [moreBases_end hp, moreBases_end (headKind_lockstep hR h ▸ hp)]
      exact .ok ⟨rfl, h⟩

theorem selector_lockstep (h : R ts ts') :
    Agree (Leaves Eq R) (selector fin ts) (selector fin' ts') := by
  rw [selector_eq, selector_eq]
  refine (identifier_lockstep hR h).bind_leaves fun name rest rest' hr => ?_
  dsimp only
  cases hR.heads hr with
  | nil => exact .ok ⟨rfl, hr⟩
  | @cons k s s' rest rest' next =>
    cases k with
    | word w =>
      cases w with
      | operator op =>
        by_cases ho : op = "@"
        · subst ho
          refine (identifier_lockstep hR (next nofun)).bind_leaves fun base rest rest' hr => ?_
          exact (moreBases_lockstep hR hr).map_leaves fun _ _ _ hr => ⟨rfl, hr⟩
        · have ho : (op == "@") = false := beq_eq_false_iff_ne.mpr ho
          simp only [isOperatorToken, ho]
          exact .ok ⟨rfl, hr⟩
      | _ => exact .ok ⟨rfl, hr⟩
    | _ => exact .ok ⟨rfl, hr⟩

theorem selectors_lockstep (h : R ts ts') :
    Agree (Leaves Eq R) (selectors fin ts) (selectors fin' ts') := by
  induction hn : ts.length using Nat.strongRecOn generalizing ts ts' with
  | ind size ih =>
    rw [selectors_eq, selectors_eq]
    refine (selector_lockstep hR h).bind ?_
    rintro ⟨first, rest⟩ ⟨_, rest'⟩ hs ⟨rfl, hr⟩
    have shorter := length_lt_of_selector hs
    dsimp only
    cases hR.heads hr with
    | nil => exact .ok ⟨rfl, hr⟩
    | @cons k s s' rest rest' next =>
      rw [length_cons] at shorter
      cases k with
      | word w =>
        cases w with
        | comma =>
          exact (ih rest.length (by omega) (next nofun) rfl).map_leaves fun _ _ _ hr => ⟨rfl, hr⟩
        | _ => exact .ok ⟨rfl, hr⟩
      | _ => exact .ok ⟨rfl, hr⟩

variable {B : Nat → TokenRel Word} {depth : Nat} (ends : LineEnds R B depth)

include ends

theorem endOfLine_lockstep (h : R ts ts') :
    Agree (Behind B depth) (endOfLine fin ts) (endOfLine fin' ts') := by
  cases hR.heads h with
  | nil => exact .ok (.line rfl rfl (ends.nil h))
  | @cons k =>
    cases k with
    | newline => exact .ok (ends.newline h)
    | _ => exact .error rfl

/-- Both lines are headers, or none is. -/
theorem header?_lockstep (h : R ts ts') :
    Option.Rel (fun p q => Behind B depth p.2 q.2) (header? fin ts) (header? fin' ts') := by
  cases hR.heads h with
  | nil => exact .none
  | @cons k s s' rest rest' next =>
    cases k with
    | word w =>
      cases w with
      | identifier name =>
        cases hR.heads (next nofun) with
        | nil => exact .none
        | @cons k s s' rest rest' inner =>
          cases k with
          | word w =>
            cases w with
            | colon =>
              have hr := inner nofun
              cases hR.heads hr with
              | nil => exact .some (.line rfl rfl (ends.nil hr))
              | @cons k =>
                cases k with
                | newline => exact .some (ends.newline hr)
                | _ => exact .none
            | _ => exact .none
          | _ => exact .none
      | _ => exact .none
    | _ => exact .none

theorem propertyLine_lockstep (h : R ts ts') :
    Agree (Leaves (InvImage Eq (Property.place nowhere)) (Behind B depth))
      (propertyLine fin name span ts) (propertyLine fin' name span' ts') := by
  by_cases hc : headKind ts = some (.word .colon)
  · cases hR.heads h with
    | nil => cases hc
    | cons next =>
      cases hc
      rw [propertyLine_colon, propertyLine_colon]
      refine (propertyValue_lockstep hR (next nofun)).bind_leaves fun value rest rest' hr => ?_
      exact (endOfLine_lockstep hR ends hr).map fun _ _ behind => ⟨rfl, behind⟩
  · rw [propertyLine_refused hc, propertyLine_refused (headKind_lockstep hR h ▸ hc)]
    exact .error (unexpected_lockstep hR h)

end Line

section Block

variable {m n : Nat} {B : Nat → TokenRel Word} (hB : Frame m n B)
  {fin fin' : Span} {ts ts' : List Token} {depth : Nat}

theorem headKind_of_startsBlock (h : startsBlock ts = false) : headKind ts ≠ some .indent := by
  cases ts with
  | nil => nofun
  | cons t ts =>
    rintro hk
    obtain ⟨k, s⟩ := t
    cases hk
    cases h

theorem canvasOf_agree (h : b.place nowhere = b'.place nowhere) :
    Agree (InvImage Eq fun c : Canvas Widget => (⟨c.name, placeWidgets nowhere c.instructions,
      nowhere c.span⟩ : Canvas Widget)) (canvasOf name span b) (canvasOf name span' b') := by
  obtain ⟨properties, children, canvas⟩ := b
  obtain ⟨properties', children', canvas'⟩ := b'
  obtain ⟨sames, drawn, _⟩ := Body.mk.inj h
  cases properties with
  | nil =>
    obtain rfl := map_eq_nil_iff.mp sames.symm
    exact .ok (congrArg (fun ws => (⟨name, ws, .origin⟩ : Canvas Widget)) drawn)
  | cons p ps =>
    cases properties' with
    | nil => cases sames
    | cons =>
      have same := (Property.mk.inj (List.cons.inj sames).1).1
      exact .error (congrArg (fun name => Fault.parse .canvasInstruction (.property name) .origin) same)

theorem Body.same_property {p p' : Property} (h : b.place nowhere = b'.place nowhere)
    (hp : p.place nowhere = p'.place nowhere) :
    Body.place nowhere { b with properties := p :: b.properties } =
      Body.place nowhere { b' with properties := p' :: b'.properties } :=
  congrArg₂ (fun (b : Body) p => { b with properties := p :: b.properties }) h hp

theorem Body.same_widget (h : inner.place nowhere = inner'.place nowhere) :
    (widgetOf name s inner).place nowhere = (widgetOf name s' inner').place nowhere := by
  rw [← widgetOf_place, ← widgetOf_place, h]
  rfl

theorem Body.same_child (h : b.place nowhere = b'.place nowhere)
    (hi : inner.place nowhere = inner'.place nowhere) :
    Body.place nowhere { b with children := widgetOf name s inner :: b.children } =
      Body.place nowhere { b' with children := widgetOf name s' inner' :: b'.children } :=
  congrArg₂ (fun (b : Body) w => { b with children := w :: b.children }) h (Body.same_widget hi)

theorem Body.same_canvas {c c' : Canvas Widget} (h : b.place nowhere = b'.place nowhere)
    (hc : (⟨c.name, placeWidgets nowhere c.instructions, nowhere c.span⟩ : Canvas Widget) =
      ⟨c'.name, placeWidgets nowhere c'.instructions, nowhere c'.span⟩) :
    Body.place nowhere { b with canvas := c :: b.canvas } =
      Body.place nowhere { b' with canvas := c' :: b'.canvas } :=
  congrArg₂ (fun (b : Body) c => { b with canvas := c :: b.canvas }) h hc

theorem Body.same_rule {names : List Selector} (h : b.place nowhere = b'.place nowhere) :
    Rule.place nowhere ⟨names, b.properties, b.children, b.canvas, s⟩ =
      Rule.place nowhere ⟨names, b'.properties, b'.children, b'.canvas, s'⟩ :=
  congrArg (fun b : Body => (⟨names, b.properties, b.children, b.canvas, .origin⟩ : Rule)) h

include hB

/-- The blocks behind headers are read the same. -/
theorem blocks_lockstep (size : Nat) :
    (∀ {depth ts ts'}, ts.length < size → Behind B depth ts ts' →
      Agree (Leaves (InvImage Eq (Body.place nowhere)) (B depth)) (body fin ts) (body fin' ts')) ∧
    (∀ {depth ts ts'}, ts.length < size → B (depth + 1) ts ts' →
      Agree (Leaves (InvImage Eq (Body.place nowhere)) (B depth)) (blockLines fin ts)
        (blockLines fin' ts')) := by
  induction size with
  | zero => constructor <;> simp
  | succ size ih =>
    obtain ⟨bodies, lines⟩ := ih
    constructor
    · intro depth ts ts' hn h
      cases h with
      | line hs hs' hb =>
        rw [body_none (headKind_of_startsBlock hs), body_none (headKind_of_startsBlock hs')]
        exact .ok ⟨rfl, hb⟩
      | block hb =>
        rw [body_indent, body_indent]
        exact lines (Nat.lt_of_succ_lt_succ hn) hb
    · intro depth ts ts' hn h
      have next : ∀ {ts ts'}, ts.length < size → Behind B (depth + 1) ts ts' →
          Agree (Leaves (InvImage Eq (Body.place nowhere)) (B depth)) (blockLines fin ts)
            (blockLines fin' ts') := by
        intro ts ts' hn h
        cases h with
        | line _ _ hb => exact lines hn hb
        | block =>
          rw [blockLines_refused rfl, blockLines_refused rfl]
          exact .error rfl
      cases hB.inBlock h with
      | nil hb =>
        rw [blockLines_nil, blockLines_nil]
        exact .ok ⟨rfl, hb⟩
      | dedent hb =>
        rw [blockLines_dedent, blockLines_dedent]
        exact .ok ⟨rfl, hb⟩
      | @line k s s' rest rest' hk onLine =>
        obtain ⟨R, hR, ends, hl⟩ := onLine
        rw [length_cons] at hn
        cases k with
        | dedent => exact absurd rfl hk
        | newline =>
          rw [blockLines_newline, blockLines_newline]
          exact next (Nat.lt_of_succ_lt_succ hn) (ends.newline hl)
        | word w =>
          cases w with
          | identifier name =>
            have header : Option.Rel (fun p q => Behind B (depth + 1) p.2 q.2) (header? fin _)
              (header? fin' _) := header?_lockstep hR ends hl
            generalize hh : header? fin (⟨.word (.identifier name), s⟩ :: rest) = p at header
            generalize hh' : header? fin' (⟨.word (.identifier name), s'⟩ :: rest') = q at header
            cases header with
            | none =>
              rw [blockLines_property hh, blockLines_property hh']
              refine (propertyLine_lockstep hR ends (hR.tail hl nofun)).bind ?_
              rintro ⟨property, behind⟩ ⟨property', behind'⟩ hp ⟨same, hb⟩
              have shorter := length_le_of_propertyLine hp
              refine (next (Nat.lt_of_le_of_lt shorter (by omega)) hb).map ?_
              rintro ⟨others, _⟩ ⟨others', _⟩ ⟨sames, hr⟩
              exact ⟨Body.same_property sames same, hr⟩
            | @some p q hb =>
              obtain ⟨stop, after⟩ := p
              obtain ⟨stop', after'⟩ := q
              have header := length_le_of_header? hh
              rw [blockLines_header hh, blockLines_header hh']
              have inner := bodies (Nat.lt_of_le_of_lt header (by omega)) hb
              by_cases hc : isCanvasName name = true
              · rw [if_pos hc, if_pos hc]
                refine inner.bind ?_
                rintro ⟨inner, behind⟩ ⟨inner', behind'⟩ hi ⟨same, hr⟩
                have shorter := length_le_of_body hi
                refine (canvasOf_agree same).bind fun canvas canvas' _ drawn => ?_
                refine (lines (Nat.lt_of_le_of_lt shorter (by omega)) hr).map ?_
                rintro ⟨others, _⟩ ⟨others', _⟩ ⟨sames, hr⟩
                exact ⟨Body.same_canvas sames drawn, hr⟩
              · rw [if_neg hc, if_neg hc]
                split
                · exact .error rfl
                · refine inner.bind ?_
                  rintro ⟨inner, behind⟩ ⟨inner', behind'⟩ hi ⟨same, hr⟩
                  have shorter := length_le_of_body hi
                  refine (lines (Nat.lt_of_le_of_lt shorter (by omega)) hr).map ?_
                  rintro ⟨others, _⟩ ⟨others', _⟩ ⟨sames, hr⟩
                  exact ⟨Body.same_child sames same, hr⟩
          | _ =>
            rw [blockLines_refused rfl, blockLines_refused rfl]
            exact .error rfl
        | _ =>
          rw [blockLines_refused rfl, blockLines_refused rfl]
          exact .error rfl

theorem body_lockstep (h : Behind B depth ts ts') :
    Agree (Leaves (InvImage Eq (Body.place nowhere)) (B depth)) (body fin ts) (body fin' ts') :=
  (blocks_lockstep hB (ts.length + 1)).1 (Nat.lt_succ_self _) h

theorem rule_lockstep (h : OnLine B m n depth ts ts') :
    Agree (Leaves (InvImage Eq (Rule.place nowhere)) (B depth)) (rule fin span ts)
      (rule fin' span' ts') := by
  obtain ⟨R, hR, ends, hl⟩ := h
  rw [rule_eq, rule_eq]
  refine (selectors_lockstep hR hl).bind_leaves fun names rest rest' hr => ?_
  dsimp only
  cases hR.heads hr with
  | nil => exact .error rfl
  | @cons k s s' rest rest' next =>
    cases k with
    | word w =>
      cases w with
      | closeAngle =>
        cases hR.heads (next nofun) with
        | nil => exact .error rfl
        | @cons k s s' rest rest' inner =>
          cases k with
          | word w =>
            cases w with
            | colon =>
              refine (endOfLine_lockstep hR ends (inner nofun)).bind fun rest rest' _ behind => ?_
              refine (body_lockstep hB behind).map ?_
              rintro ⟨inner, _⟩ ⟨inner', _⟩ ⟨same, hr⟩
              exact ⟨Body.same_rule same, hr⟩
            | _ => exact .error rfl
          | _ => exact .error rfl
      | _ => exact .error rfl
    | _ => exact .error rfl

end Block

section Module

variable {fin fin' : Span} {root root' : Option Widget} {ts ts' : List Token}

/-- Where tokens stand bears only on the places of the module that they are read as. -/
theorem moduleFrom_alike (h : Alike ts ts')
    (hroot : root.map (Widget.place nowhere) = root'.map (Widget.place nowhere)) :
    Agree (InvImage Eq (Module.place nowhere)) (moduleFrom fin root ts)
      (moduleFrom fin' root' ts') := by
  induction hn : ts.length using Nat.strongRecOn generalizing ts ts' root root' with
  | ind size ih =>
    have whole := h
    cases h.heads with
    | nil =>
      rw [moduleFrom_nil, moduleFrom_nil]
      exact .ok (congrArg (Module.mk []) hroot)
    | @cons k s s' rest rest' =>
      have tail : Alike rest rest' := (List.cons.inj h).2
      rw [length_cons] at hn
      have refused : startsPart k = false → Agree (InvImage Eq (Module.place nowhere))
          (moduleFrom fin root (⟨k, s⟩ :: rest)) (moduleFrom fin' root' (⟨k, s'⟩ :: rest')) := by
        intro hk
        rw [moduleFrom_refused hk, moduleFrom_refused hk]
        exact .error rfl
      cases k with
      | newline =>
        rw [moduleFrom_newline, moduleFrom_newline]
        exact ih rest.length (by omega) tail hroot rfl
      | word w =>
        cases w with
        | openAngle =>
          rw [moduleFrom_rule, moduleFrom_rule]
          refine (rule_lockstep frame_alike (tail.onLine 0)).bind ?_
          rintro ⟨first, behind⟩ ⟨first', behind'⟩ hr ⟨same, hb⟩
          have shorter := length_le_of_rule hr
          refine (ih behind.length (by omega) hb hroot rfl).map ?_
          intro m m' others
          exact congrArg₂ (fun r (m : Module) => { m with rules := r :: m.rules }) same others
        | identifier name =>
          have header : Option.Rel (fun p q => Behind (fun _ => Alike) 0 p.2 q.2) (header? fin _)
            (header? fin' _) := header?_lockstep lockstep_alike (lineEnds_alike 0) whole
          generalize hh : header? fin (⟨.word (.identifier name), s⟩ :: rest) = p at header
          generalize hh' : header? fin' (⟨.word (.identifier name), s'⟩ :: rest') = q at header
          cases header with
          | none =>
            rw [moduleFrom_property hh, moduleFrom_property hh']
            exact .error rfl
          | some hb =>
            have header := length_le_of_header? hh
            cases root with
            | some w =>
              obtain ⟨w', rfl, _⟩ := Option.map_eq_some_iff.mp hroot.symm
              rw [moduleFrom_second hh, moduleFrom_second hh']
              exact .error rfl
            | none =>
              obtain rfl := Option.map_eq_none_iff.mp hroot.symm
              rw [moduleFrom_root hh, moduleFrom_root hh']
              refine (body_lockstep frame_alike hb).bind ?_
              rintro ⟨inner, behind⟩ ⟨inner', behind'⟩ hi ⟨same, hr⟩
              have shorter := length_le_of_body hi
              exact ih behind.length (by omega) hr (congrArg some (Body.same_widget same)) rfl
        | _ => exact refused rfl
      | _ => exact refused rfl

/-- The tokens of a text up to its end, and the module they are read as. -/
theorem exists_until_end {source : String} {ks : List Kind} {ts : List Token}
    (ht : tokens source = .ok ts) (hk : ts.map (·.kind) = ks ++ [.eof]) :
    ∃ v fin, v.map (·.kind) = ks ∧ parse source = moduleFrom fin none v := by
  obtain ⟨v, fin, rfl, -, until_eof⟩ := exists_untilEnd ht hk
  refine ⟨v, fin, rfl, ?_⟩
  rw [parse, ht]
  simp only [bind, Except.bind, Module.ofTokens, until_eof]

end Module

end ViewBridge.Markup
