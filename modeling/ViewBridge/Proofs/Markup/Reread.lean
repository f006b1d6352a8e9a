import ViewBridge.Proofs.Markup.Lockstep
import ViewBridge.Proofs.Markup.Outline

namespace ViewBridge.Markup

open Scanner List

variable {fin : Span} {ks ls rest : List Kind} {inner : List (Branch Word)}
  {part : Option Body} {name : String} {ps : List Property} {children : Option (List Widget)}

/-- The kinds of the block below a line. -/
def innerKinds : List (Branch Word) → List Kind
  | [] => []
  | b :: bs => .indent :: (branchesKinds (b :: bs) ++ [.dedent])

theorem kinds_node (text : String) (ks : List Kind) (inner : List (Branch Word)) :
    (Branch.node text ks inner).kinds = ks ++ .newline :: innerKinds inner := by
  cases inner <;> rfl

theorem branchesKinds_append (bs cs : List (Branch Word)) :
    branchesKinds (bs ++ cs) = branchesKinds bs ++ branchesKinds cs := by
  induction bs with
  | nil => rfl
  | cons b bs ih => simp [branchesKinds, ih]

def Body.append (b c : Body) : Body :=
  ⟨b.properties ++ c.properties, b.children ++ c.children, b.canvas ++ c.canvas⟩

/-- Lines of a block that give these parts of its body, whatever lines follow; nothing where they
are refused. -/
structure LinesRead (ks : List Kind) (part : Option Body) : Prop where
  head : ks.head? ≠ some .indent
  reads : ∀ fin rest, rest.head? ≠ some .indent →
    (blockLines fin (bare (ks ++ rest))).toOption = part.bind fun b =>
      (blockLines fin (bare rest)).toOption.map fun p => (b.append p.1, p.2)

theorem linesRead_nil : LinesRead [] (some {}) := by
  refine ⟨nofun, fun fin rest _ => ?_⟩
  rw [nil_append]
  cases (blockLines fin (bare rest)).toOption <;> rfl

theorem head?_append_ne (hk : ks.head? ≠ some .indent) (hr : rest.head? ≠ some .indent) :
    (ks ++ rest).head? ≠ some .indent := by
  cases ks with
  | nil => exact hr
  | cons k ks => exact hk

theorem LinesRead.append {first second : Option Body} (h : LinesRead ks first)
    (hs : LinesRead ls second) :
    LinesRead (ks ++ ls) (first.bind fun b => second.map b.append) := by
  refine ⟨head?_append_ne h.head hs.head, fun fin rest hr => ?_⟩
  rw [append_assoc, h.reads fin _ (head?_append_ne hs.head hr), hs.reads fin rest hr]
  cases first with
  | none => rfl
  | some b =>
    cases second with
    | none => rfl
    | some c => simp [Body.append, Function.comp_def]

theorem LinesRead.block (h : LinesRead ks part) (fin : Span) (rest : List Kind) :
    (blockLines fin (bare (ks ++ .dedent :: rest))).toOption = part.map (·, bare rest) := by
  rw [h.reads fin _ (by simp), bare_cons, blockLines_dedent]
  cases part with
  | none => rfl
  | some b => simp [Body.append, Except.toOption]

theorem LinesRead.body {bs : List (Branch Word)} (h : LinesRead (branchesKinds bs) part)
    (hr : rest.head? ≠ some .indent) :
    (body fin (bare (innerKinds bs ++ rest))).toOption = part.map (·, bare rest) := by
  cases bs with
  | nil =>
    have empty := h.block .origin rest
    simp only [branchesKinds, nil_append, bare_cons, blockLines_dedent] at empty
    have none : headKind (bare rest) ≠ some .indent := by simpa using hr
    rw [innerKinds, nil_append, body_none none, ← empty]
  | cons b bs =>
    have shape : innerKinds (b :: bs) ++ rest =
        .indent :: (branchesKinds (b :: bs) ++ .dedent :: rest) := by simp [innerKinds]
    rw [shape, bare_cons, body_indent, h.block]

def Property.reread (p : Property) : Option Property :=
  (reading p.value).map fun value => { name := p.name, value, span := .origin }

/-- A body from its parts, unless one of them is refused. -/
def joinBody (properties : Option (List Property)) (canvas : Option (List (Canvas Widget)))
    (children : Option (List Widget)) : Option Body :=
  properties.bind fun properties => canvas.bind fun canvas => children.map fun children =>
    { properties, children, canvas }

mutual

/-- A widget with the values that their own texts are read as. -/
def Widget.reread : Widget → Option Widget
  | ⟨name, properties, children, canvas, _⟩ =>
    (joinBody (properties.mapM Property.reread) (rereadCanvas canvas) (rereadWidgets children)).map
      (widgetOf name .origin)

def rereadWidgets : List Widget → Option (List Widget)
  | [] => some []
  | w :: ws => w.reread.bind fun w => (rereadWidgets ws).map (w :: ·)

def rereadCanvas : List (Canvas Widget) → Option (List (Canvas Widget))
  | [] => some []
  | ⟨name, instructions, _⟩ :: blocks =>
    (rereadWidgets instructions).bind fun instructions =>
      (rereadCanvas blocks).map (⟨name, instructions, .origin⟩ :: ·)

end

def Rule.reread (r : Rule) : Option Rule :=
  (joinBody (r.properties.mapM Property.reread) (rereadCanvas r.canvas) (rereadWidgets r.children)).map
    fun b => { selectors := r.selectors, properties := b.properties, children := b.children,
               canvas := b.canvas, span := .origin }

/-- A module with the values that their own texts are read as. -/
def Module.reread (m : Module) : Option Module :=
  (m.rules.mapM Rule.reread).bind fun rules =>
    match m.root with
    | none => some { rules, root := none }
    | some w => w.reread.map fun w => { rules, root := some w }

theorem exists_valueKinds {v : Literal} (h : Legible v) :
    ∃ k ks, valueKinds v = k :: ks ∧ k ≠ .newline := by
  have first : ∀ {ks}, IsSlice ks → ∀ ls, ∃ k more, ks ++ ls = k :: more ∧ k ≠ .newline := by
    intro ks hs ls
    have line : atLineEnd (bare (ks ++ ls)) = false := hs.atLineEnd
    cases ks with
    | nil => exact absurd rfl hs.ne_nil
    | cons k more =>
      refine ⟨k, more ++ ls, rfl, ?_⟩
      rintro rfl
      cases line
  rcases value_cases v with ⟨item, rfl⟩ | ⟨head, second, items, rfl⟩ | ⟨hp, hk, _, _⟩
  · exact first (h.reads List.mem_cons_self).slice _
  · exact first (h.reads List.mem_cons_self).slice _
  · have alone := first (h.reads (hp ▸ List.mem_cons_self)).slice []
    rwa [List.append_nil, ← hk] at alone

theorem header?_property {v : Literal} (h : Legible v) (name : String) :
    header? fin (bare (.word (.identifier name) :: .word .colon :: (valueKinds v ++ rest))) =
      none := by
  obtain ⟨k, ks, eq, hk⟩ := exists_valueKinds h
  rw [eq]
  cases k with
  | newline => exact absurd rfl hk
  | _ => rfl

theorem linesRead_property {p : Property} (h : p.Formed Legible) :
    LinesRead (propertyBranch p).kinds (p.reread.map fun p => { properties := [p] }) := by
  obtain ⟨_, hv⟩ := h
  rw [propertyBranch, kinds_node]
  refine ⟨nofun, fun fin rest hr => ?_⟩
  have header : header? fin (bare (.word (.identifier p.name) :: .word .colon ::
      (valueKinds p.value ++ .newline :: rest))) = none := header?_property hv p.name
  have value : (propertyValue fin (bare (valueKinds p.value ++ .newline :: rest))).toOption = _ :=
    propertyValue_reading hv
  simp only [innerKinds, List.cons_append, List.append_assoc, List.nil_append, bare_cons] at header ⊢
  rw [blockLines_property header, propertyLines, propertyLine_colon, toOption_bind, toOption_bind,
    value, Property.reread]
  cases reading p.value with
  | none => rfl
  | some v =>
    simp only [Option.map_some, Option.bind_some, bare_cons, endOfLine, Except.map,
      Except.toOption]
    cases blockLines fin (bare rest) <;> rfl

theorem linesRead_properties (h : ∀ p ∈ ps, p.Formed Legible) :
    LinesRead (branchesKinds (ps.map propertyBranch))
      ((ps.mapM Property.reread).map fun properties => { properties }) := by
  induction ps with
  | nil => exact linesRead_nil
  | cons p ps ih =>
    have lines := (linesRead_property (h p List.mem_cons_self)).append
      (ih fun p hp => h p (List.mem_cons_of_mem _ hp))
    have parts : ((p :: ps).mapM Property.reread).map (fun properties => ({ properties } : Body)) =
        (p.reread.map fun p => ({ properties := [p] } : Body)).bind fun b =>
          ((ps.mapM Property.reread).map fun properties => ({ properties } : Body)).map b.append := by
      rw [List.mapM_cons]
      cases p.reread with
      | none => rfl
      | some q => cases ps.mapM Property.reread <;> rfl
    rw [parts]
    exact lines

/-- The body of properties, drawing blocks and children, in this order. -/
theorem LinesRead.join {properties : Option (List Property)} {cs : List (Branch Word)}
    {canvas : Option (List (Canvas Widget))} {ws : List (Branch Word)}
    (hp : LinesRead (branchesKinds (ps.map propertyBranch))
      (properties.map fun properties => { properties }))
    (hc : LinesRead (branchesKinds cs) (canvas.map fun canvas => { canvas }))
    (hw : LinesRead (branchesKinds ws) (children.map fun children => { children })) :
    LinesRead (branchesKinds (ps.map propertyBranch ++ cs ++ ws))
      (joinBody properties canvas children) := by
  have lines := (hp.append hc).append hw
  rw [branchesKinds_append, branchesKinds_append]
  convert lines using 1
  cases properties with
  | none => rfl
  | some properties =>
    cases canvas with
    | none => rfl
    | some canvas =>
      cases children with
      | none => rfl
      | some children => simp [joinBody, Body.append]

theorem isCanvasName_of_startsLowercase (h : startsLowercase name = false) :
    isCanvasName name = false := by
  cases hc : isCanvasName name with
  | false => rfl
  | true =>
    simp only [isCanvasName, Bool.or_eq_true, beq_iff_eq] at hc
    rcases hc with (rfl | rfl) | rfl <;> cases h

theorem linesRead_child (text : String) (hn : startsLowercase name = false)
    (h : LinesRead (branchesKinds inner) part) :
    LinesRead (Branch.node text [.word (.identifier name), .word .colon] inner).kinds
      (part.map fun b => { children := [widgetOf name .origin b] }) := by
  rw [kinds_node]
  refine ⟨nofun, fun fin rest hr => ?_⟩
  have body : (body fin (bare (innerKinds inner ++ rest))).toOption = _ := h.body hr
  have canvas := isCanvasName_of_startsLowercase hn
  simp only [List.cons_append, List.nil_append, bare_cons]
  rw [blockLines_header rfl, canvas, hn, if_neg Bool.false_ne_true, if_neg Bool.false_ne_true,
    childLines, toOption_bind, body]
  cases part with
  | none => rfl
  | some b =>
    simp only [Option.map_some, Option.bind_some, toOption_map]
    rfl

theorem linesRead_canvas (text : String) (hn : isCanvasName name = true)
    (h : LinesRead (branchesKinds inner) (children.map fun children => { children })) :
    LinesRead (Branch.node text [.word (.identifier name), .word .colon] inner).kinds
      (children.map fun instructions => { canvas := [⟨name, instructions, .origin⟩] }) := by
  rw [kinds_node]
  refine ⟨nofun, fun fin rest hr => ?_⟩
  have body : (body fin (bare (innerKinds inner ++ rest))).toOption = _ := h.body hr
  simp only [List.cons_append, List.nil_append, bare_cons]
  rw [blockLines_header rfl, hn, if_pos rfl, canvasLines, toOption_bind, body]
  cases children with
  | none => rfl
  | some instructions =>
    simp only [Option.map_some, Option.bind_some, canvasOf, Except.bind, toOption_map]
    rfl

mutual

theorem linesRead_widget (w : Widget) (h : w.Formed Legible)
    (hn : startsLowercase w.name = false) :
    LinesRead (widgetBranch w).kinds (w.reread.map fun w => { children := [w] }) := by
  obtain ⟨name, properties, children, canvas, span⟩ := w
  rw [Widget.Formed] at h
  obtain ⟨_, hp, hw, hc⟩ := h
  rw [widgetBranch, Widget.reread, Option.map_map]
  exact linesRead_child _ hn
    ((linesRead_properties hp).join (linesRead_canvases canvas hc) (linesRead_widgets children hw))

theorem linesRead_widgets (ws : List Widget) (h : childrenFormed Legible ws) :
    LinesRead (branchesKinds (widgetBranches ws))
      ((rereadWidgets ws).map fun children => { children }) := by
  match ws with
  | [] => exact linesRead_nil
  | w :: ws =>
    rw [childrenFormed] at h
    have lines := (linesRead_widget w h.2.1 h.1).append (linesRead_widgets ws h.2.2)
    rw [widgetBranches, branchesKinds, rereadWidgets]
    convert lines using 1
    cases w.reread with
    | none => rfl
    | some w => cases rereadWidgets ws <;> rfl

theorem linesRead_canvases (blocks : List (Canvas Widget)) (h : canvasFormed Legible blocks) :
    LinesRead (branchesKinds (canvasBranches blocks))
      ((rereadCanvas blocks).map fun canvas => { canvas }) := by
  match blocks with
  | [] => exact linesRead_nil
  | ⟨name, instructions, span⟩ :: blocks =>
    rw [canvasFormed] at h
    have lines := (linesRead_canvas (name ++ ":") h.1 (linesRead_widgets instructions h.2.1)).append
      (linesRead_canvases blocks h.2.2)
    rw [canvasBranches, branchesKinds, rereadCanvas]
    convert lines using 1
    cases rereadWidgets instructions with
    | none => rfl
    | some instructions => cases rereadCanvas blocks <;> rfl

end

theorem moreBases_basesKinds (bases : List String)
    (hr : rest.head? ≠ some (.word (.operator "+"))) :
    moreBases fin (bare (basesKinds bases ++ rest)) = .ok (bases, bare rest) := by
  induction bases with
  | nil => exact moreBases_end (by simpa [basesKinds] using hr)
  | cons base bases ih =>
    have shape : basesKinds (base :: bases) ++ rest =
        .word (.operator "+") :: .word (.identifier base) :: (basesKinds bases ++ rest) := rfl
    rw [shape, bare_cons, bare_cons, moreBases_plus, ih]
    rfl

def endsSelector : Kind → Bool
  | .word .comma | .word .closeAngle => true
  | _ => false

theorem selector_selectorKinds (s : Selector) {k : Kind} (hk : endsSelector k = true) :
    selector fin (bare (selectorKinds s ++ k :: rest)) = .ok (s, bare (k :: rest)) := by
  obtain ⟨name, bases⟩ := s
  have base : isOperatorToken "@" (bare (k :: rest)) = false := by
    cases k with
    | word w => cases w <;> first | rfl | cases hk
    | _ => cases hk
  have plus : (k :: rest).head? ≠ some (.word (.operator "+")) := by
    rintro ⟨⟩
    cases hk
  rw [selector_eq]
  cases bases with
  | nil =>
    simp only [selectorKinds, List.cons_append, List.nil_append, bare_cons, identifier, Except.bind]
    rw [← bare_cons, base]
    rfl
  | cons base bases =>
    have more : moreBases fin (bare (basesKinds bases ++ k :: rest)) = _ :=
      moreBases_basesKinds bases plus
    simp only [selectorKinds, List.cons_append, bare_cons, identifier, Except.bind, isOperatorToken,
      beq_self_eq_true, if_true, List.drop_succ_cons, List.drop_zero, more]
    rfl

theorem selectors_selectorsKinds (first : Selector) (others : List Selector) :
    selectors fin (bare (selectorsKinds (first :: others) ++ .word .closeAngle :: rest)) =
      .ok (first :: others, bare (.word .closeAngle :: rest)) := by
  induction others generalizing first with
  | nil =>
    have one : selector fin (bare (selectorKinds first ++ .word .closeAngle :: rest)) = _ :=
      selector_selectorKinds first rfl
    rw [selectorsKinds, List.map_nil, commas, List.flatMap_nil, List.append_nil, selectors_eq, one]
    rfl
  | cons second others ih =>
    have shape : selectorsKinds (first :: second :: others) ++ .word .closeAngle :: rest =
        selectorKinds first ++
          .word .comma :: (selectorsKinds (second :: others) ++ .word .closeAngle :: rest) := by
      simp [selectorsKinds, commas]
    have one : selector fin (bare (selectorKinds first ++
        .word .comma :: (selectorsKinds (second :: others) ++ .word .closeAngle :: rest))) = _ :=
      selector_selectorKinds first rfl
    rw [shape, selectors_eq, one]
    simp only [Except.bind, bare_cons, selectorsEnd, ih]
    rfl

theorem rule_header (first : Selector) (others : List Selector)
    (h : LinesRead (branchesKinds inner) part) (hr : rest.head? ≠ some .indent) :
    (rule fin .origin (bare (selectorsKinds (first :: others) ++
      .word .closeAngle :: .word .colon :: .newline :: (innerKinds inner ++ rest)))).toOption =
      part.map fun b => (⟨first :: others, b.properties, b.children, b.canvas, .origin⟩,
        bare rest) := by
  have body : (body fin (bare (innerKinds inner ++ rest))).toOption = _ := h.body hr
  rw [rule_eq, selectors_selectorsKinds]
  simp only [Except.bind, bare_cons, ruleEnd, endOfLine, toOption_map, body, Option.map_map]
  rfl

theorem rule_ruleBranch {r : Rule} (h : r.Formed Legible) (hr : rest.head? ≠ some .indent) :
    ∃ ks, (ruleBranch r).kinds = .word .openAngle :: ks ∧
      (rule fin .origin (bare (ks ++ rest))).toOption = r.reread.map (·, bare rest) := by
  have block := (linesRead_properties h.properties).join (linesRead_canvases r.canvas h.canvas)
    (linesRead_widgets r.children h.children)
  refine ⟨selectorsKinds r.selectors ++ .word .closeAngle :: .word .colon :: .newline ::
    innerKinds (r.properties.map propertyBranch ++ canvasBranches r.canvas ++
      widgetBranches r.children), by simp [ruleBranch, kinds_node], ?_⟩
  rw [Rule.reread, Option.map_map, List.append_assoc]
  cases hs : r.selectors with
  | nil => exact absurd hs h.selected
  | cons first others => exact rule_header first others block hr

theorem moduleFrom_rules {rules : List Rule} (h : ∀ r ∈ rules, r.Formed Legible)
    {root : Option Widget} (hr : rest.head? ≠ some .indent) :
    (moduleFrom fin root (bare (branchesKinds (rules.map ruleBranch) ++ rest))).toOption =
      (rules.mapM Rule.reread).bind fun rules =>
        (moduleFrom fin root (bare rest)).toOption.map fun m =>
          { m with rules := rules ++ m.rules } := by
  induction rules with
  | nil =>
    rw [List.map_nil, branchesKinds, List.nil_append]
    cases (moduleFrom fin root (bare rest)).toOption <;> rfl
  | cons r rules ih =>
    have others := ih fun r hm => h r (List.mem_cons_of_mem _ hm)
    have next : (branchesKinds (rules.map ruleBranch) ++ rest).head? ≠ some .indent := by
      cases rules with
      | nil => exact hr
      | cons r rules =>
        rw [List.map_cons, branchesKinds, ruleBranch, kinds_node]
        simp
    obtain ⟨ks, hk, first⟩ : ∃ ks, (ruleBranch r).kinds = .word .openAngle :: ks ∧
        (rule fin .origin (bare (ks ++ _))).toOption = _ :=
      rule_ruleBranch (h r List.mem_cons_self) next
    rw [List.map_cons, branchesKinds, hk, List.append_assoc, List.cons_append, bare_cons,
      moduleFrom_rule, toOption_bind, first, List.mapM_cons]
    cases r.reread with
    | none => rfl
    | some r =>
      simp only [Option.map_some, Option.bind_some, toOption_map, others]
      cases rules.mapM Rule.reread with
      | none => rfl
      | some rules => cases (moduleFrom fin root (bare rest)).toOption <;> rfl

theorem moduleFrom_widget {w : Widget} (h : w.Formed Legible) :
    (moduleFrom fin none (bare (branchesKinds [widgetBranch w]))).toOption =
      w.reread.map fun w => { rules := [], root := some w } := by
  obtain ⟨name, properties, children, canvas, span⟩ := w
  rw [Widget.Formed] at h
  obtain ⟨_, hp, hw, hc⟩ := h
  have block := (linesRead_properties hp).join (linesRead_canvases canvas hc)
    (linesRead_widgets children hw)
  have body : (body fin (bare (innerKinds _ ++ []))).toOption = _ := block.body nofun
  rw [branchesKinds, branchesKinds, widgetBranch, kinds_node]
  simp only [List.cons_append, List.nil_append, bare_cons]
  rw [moduleFrom_root rfl, toOption_bind, body, Widget.reread]
  cases joinBody (properties.mapM Property.reread) (rereadCanvas canvas)
      (rereadWidgets children) with
  | none => rfl
  | some b =>
    simp only [Option.map_some, Option.bind_some, bare_nil, moduleFrom_nil]
    rfl

theorem moduleFrom_branches {m : Module} (h : m.Formed Legible) :
    (moduleFrom fin none (bare (branchesKinds m.branches))).toOption = m.reread := by
  obtain ⟨rules, root⟩ := m
  rw [Module.branches, branchesKinds_append, Module.reread]
  cases root with
  | none =>
    have all : (moduleFrom fin none (bare (branchesKinds (rules.map ruleBranch) ++ []))).toOption =
        _ := moduleFrom_rules h.rules (by simp)
    rw [Option.map_none, Option.toList_none, branchesKinds, all, bare_nil, moduleFrom_nil]
    cases rules.mapM Rule.reread with
    | none => rfl
    | some rules => simp [Except.toOption]
  | some w =>
    have head : (branchesKinds [widgetBranch w]).head? ≠ some .indent := by
      obtain ⟨name, properties, children, canvas, span⟩ := w
      rw [branchesKinds, widgetBranch, kinds_node]
      simp
    rw [Option.map_some, Option.toList_some, moduleFrom_rules h.rules head,
      moduleFrom_widget (h.root w rfl)]
    cases rules.mapM Rule.reread with
    | none => rfl
    | some rules => simp [Function.comp_def]

theorem alike_bare {ts : List Token} (h : ts.map (·.kind) = ks) : Alike ts (bare ks) := by
  rw [Alike, bare, List.map_map, h]
  exact (List.map_id ks).symm

/-- What the canonical text of a module is read as, wherever it stands: the module whose values are
what their own texts are read as. -/
theorem parse_format {m : Module} (h : m.Formed Legible) (width : Nat) :
    (parse (m.format width)).toOption.map (Module.place nowhere) =
      m.reread.map (Module.place nowhere) := by
  obtain ⟨ts, ht, hk⟩ := tokens_format h width
  obtain ⟨v, fin, hv, read⟩ := exists_until_end ht hk
  have reread : (moduleFrom fin none (bare (branchesKinds m.branches))).toOption = m.reread :=
    moduleFrom_branches h
  rw [read, ← reread]
  exact (moduleFrom_alike (alike_bare hv) rfl).map_toOption

end ViewBridge.Markup
