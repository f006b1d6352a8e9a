import ViewBridge.Proofs.Markup.Value

namespace ViewBridge.Markup

variable {fin span s : Span} {name : String} {ts rest afterHeader : List Token}

theorem propertyLine_colon :
    propertyLine fin name span (⟨.word .colon, s⟩ :: rest) =
      (propertyValue fin rest).bind fun p =>
        (endOfLine fin p.2).map fun rest => ({ name, value := p.1, span }, rest) := by
  unfold propertyLine
  dsimp only
  cases propertyValue fin rest with
  | error fault => rfl
  | ok p =>
    simp only [bind, Except.bind]
    cases endOfLine fin p.2 <;> rfl

theorem propertyLine_refused (h : headKind ts ≠ some (.word .colon)) :
    propertyLine fin name span ts = .error (unexpected fin .colonAfterProperty ts) := by
  unfold propertyLine
  split
  next => exact absurd rfl h
  next => rfl

theorem body_indent : body fin (⟨.indent, s⟩ :: rest) = blockLines fin rest := by
  rw [body]

theorem body_none (h : headKind ts ≠ some .indent) : body fin ts = .ok ({}, ts) := by
  rw [body]
  rintro span rest rfl
  exact h rfl

theorem blockLines_nil : blockLines fin [] = .ok ({}, []) := by
  rw [blockLines]

theorem blockLines_dedent : blockLines fin (⟨.dedent, s⟩ :: rest) = .ok ({}, rest) := by
  rw [blockLines]

theorem blockLines_newline : blockLines fin (⟨.newline, s⟩ :: rest) = blockLines fin rest := by
  rw [blockLines]

def canvasLines (fin : Span) (name : String) (span : Span) (ts : List Token) :
    Except Fault (Body × List Token) :=
  (body fin ts).bind fun p => (canvasOf name span p.1).bind fun canvas =>
    (blockLines fin p.2).map fun q => ({ q.1 with canvas := canvas :: q.1.canvas }, q.2)

def childLines (fin : Span) (name : String) (span : Span) (ts : List Token) :
    Except Fault (Body × List Token) :=
  (body fin ts).bind fun p => (blockLines fin p.2).map fun q =>
    ({ q.1 with children := widgetOf name span p.1 :: q.1.children }, q.2)

def propertyLines (fin : Span) (name : String) (span : Span) (ts : List Token) :
    Except Fault (Body × List Token) :=
  (propertyLine fin name span ts).bind fun p => (blockLines fin p.2).map fun q =>
    ({ q.1 with properties := p.1 :: q.1.properties }, q.2)

theorem blockLines_header {stop : Span}
    (h : header? fin (⟨.word (.identifier name), span⟩ :: rest) = some (stop, afterHeader)) :
    blockLines fin (⟨.word (.identifier name), span⟩ :: rest) =
      if isCanvasName name then canvasLines fin name span afterHeader
      else if startsLowercase name then .error (.parse .propertyValue .endOfLine stop)
      else childLines fin name span afterHeader := by
  have header := length_le_of_header? h
  rw [blockLines]
  split
  next stop' afterHeader' h' =>
    rw [h] at h'
    cases h'
    split
    · unfold canvasLines
      cases hb : body fin afterHeader with
      | error fault => rfl
      | ok p =>
        have shorter := length_le_of_body hb
        simp only [bind, Except.bind]
        cases canvasOf name span p.1 with
        | error fault => rfl
        | ok canvas =>
          dsimp only
          rw [if_pos (Nat.le_trans shorter header)]
          cases blockLines fin p.2 <;> rfl
    · split
      · rfl
      · unfold childLines
        cases hb : body fin afterHeader with
        | error fault => rfl
        | ok p =>
          have shorter := length_le_of_body hb
          simp only [bind, Except.bind]
          rw [if_pos (Nat.le_trans shorter header)]
          cases blockLines fin p.2 <;> rfl
  next h' =>
    rw [h] at h'
    cases h'

theorem blockLines_property
    (h : header? fin (⟨.word (.identifier name), span⟩ :: rest) = none) :
    blockLines fin (⟨.word (.identifier name), span⟩ :: rest) =
      propertyLines fin name span rest := by
  rw [blockLines]
  split
  next h' =>
    rw [h] at h'
    cases h'
  next =>
    unfold propertyLines
    cases hp : propertyLine fin name span rest with
    | error fault => rfl
    | ok p =>
      have shorter := length_le_of_propertyLine hp
      simp only [bind, Except.bind]
      rw [if_pos shorter]
      cases blockLines fin p.2 <;> rfl

def startsLine : Kind → Bool
  | .dedent | .newline | .word (.identifier _) => true
  | _ => false

theorem blockLines_refused {t : Token} (h : startsLine t.kind = false) :
    blockLines fin (t :: rest) = .error (unexpected fin .propertyOrChild (t :: rest)) := by
  obtain ⟨kind, span⟩ := t
  rw [blockLines.eq_def]
  split <;> simp_all [startsLine]

theorem moreBases_plus {s' : Span} {base : String} :
    moreBases fin (⟨.word (.operator "+"), s⟩ :: ⟨.word (.identifier base), s'⟩ :: rest) =
      (moreBases fin rest).map fun p => (base :: p.1, p.2) := by
  rw [moreBases, if_pos rfl]
  cases moreBases fin rest <;> rfl

theorem moreBases_refused (h : ∀ base, headKind rest ≠ some (.word (.identifier base))) :
    moreBases fin (⟨.word (.operator "+"), s⟩ :: rest) =
      .error (unexpected fin .baseClass rest) := by
  rw [moreBases.eq_def]
  dsimp only
  rw [if_pos rfl]
  split
  next => exact absurd rfl (h _)
  next => rfl

theorem moreBases_end (h : headKind ts ≠ some (.word (.operator "+"))) :
    moreBases fin ts = .ok ([], ts) := by
  rw [moreBases.eq_def]
  split
  next op span ts =>
    rw [if_neg]
    rintro rfl
    exact h rfl
  next => rfl

theorem selector_eq (fin : Span) (ts : List Token) :
    selector fin ts = (identifier fin .ruleName ts).bind fun p =>
      if isOperatorToken "@" p.2 then
        (identifier fin .baseClass (p.2.drop 1)).bind fun q =>
          (moreBases fin q.2).map fun r => ({ name := p.1, bases := q.1 :: r.1 }, r.2)
      else .ok ({ name := p.1, bases := [] }, p.2) := by
  unfold selector
  cases identifier fin .ruleName ts with
  | error fault => rfl
  | ok p =>
    simp only [bind, Except.bind]
    split
    · cases identifier fin .baseClass (p.2.drop 1) with
      | error fault => rfl
      | ok q =>
        dsimp only
        cases moreBases fin q.2 <;> rfl
    · rfl

def selectorsEnd (fin : Span) (first : Selector) (ts : List Token) :
    Except Fault (List Selector × List Token) :=
  match ts with
  | ⟨.word .comma, _⟩ :: rest => (selectors fin rest).map fun p => (first :: p.1, p.2)
  | ts => .ok ([first], ts)

theorem selectors_eq (fin : Span) (ts : List Token) :
    selectors fin ts = (selector fin ts).bind fun p => selectorsEnd fin p.1 p.2 := by
  rw [selectors]
  cases eq : selector fin ts with
  | error fault => rfl
  | ok p =>
    obtain ⟨first, rest⟩ := p
    have shorter := length_lt_of_selector eq
    cases rest with
    | nil => rfl
    | cons t rest =>
      obtain ⟨kind, span⟩ := t
      have within : rest.length < ts.length := by
        simp only [List.length_cons] at shorter
        omega
      cases kind with
      | word w =>
        cases w with
        | comma =>
          simp only [bind, Except.bind, within, if_true, selectorsEnd]
          cases selectors fin rest <;> rfl
        | _ => rfl
      | _ => rfl

def ruleEnd (fin span : Span) (names : List Selector) (ts : List Token) :
    Except Fault (Rule × List Token) :=
  match ts with
  | ⟨.word .closeAngle, _⟩ :: ⟨.word .colon, _⟩ :: rest =>
    (endOfLine fin rest).bind fun rest => (body fin rest).map fun p =>
      ({ selectors := names, properties := p.1.properties, children := p.1.children,
         canvas := p.1.canvas, span }, p.2)
  | ⟨.word .closeAngle, _⟩ :: rest => .error (unexpected fin .colonAfterRule rest)
  | ts => .error (unexpected fin .closeAngle ts)

theorem rule_eq (fin span : Span) (ts : List Token) :
    rule fin span ts = (selectors fin ts).bind fun p => ruleEnd fin span p.1 p.2 := by
  unfold rule
  cases selectors fin ts with
  | error fault => rfl
  | ok p =>
    obtain ⟨names, rest⟩ := p
    cases rest with
    | nil => rfl
    | cons t rest =>
      obtain ⟨kind, _⟩ := t
      cases kind with
      | word w =>
        cases w with
        | closeAngle =>
          cases rest with
          | nil => rfl
          | cons t rest =>
            obtain ⟨kind, _⟩ := t
            cases kind with
            | word w =>
              cases w with
              | colon =>
                simp only [bind, Except.bind, ruleEnd]
                cases endOfLine fin rest with
                | error fault => rfl
                | ok rest =>
                  dsimp only
                  cases body fin rest <;> rfl
              | _ => rfl
            | _ => rfl
        | _ => rfl
      | _ => rfl

variable {root : Option Widget}

theorem moduleFrom_nil : moduleFrom fin root [] = .ok { rules := [], root } := by
  rw [moduleFrom]

theorem moduleFrom_newline :
    moduleFrom fin root (⟨.newline, s⟩ :: rest) = moduleFrom fin root rest := by
  rw [moduleFrom]

theorem moduleFrom_rule :
    moduleFrom fin root (⟨.word .openAngle, span⟩ :: rest) =
      (rule fin span rest).bind fun p => (moduleFrom fin root p.2).map fun others =>
        { others with rules := p.1 :: others.rules } := by
  rw [moduleFrom]
  cases eq : rule fin span rest with
  | error fault => rfl
  | ok p =>
    have shorter := length_le_of_rule eq
    simp only [bind, Except.bind]
    rw [if_pos shorter]
    cases moduleFrom fin root p.2 <;> rfl

theorem moduleFrom_root {stop : Span}
    (h : header? fin (⟨.word (.identifier name), span⟩ :: rest) = some (stop, afterHeader)) :
    moduleFrom fin none (⟨.word (.identifier name), span⟩ :: rest) =
      (body fin afterHeader).bind fun p => moduleFrom fin (some (widgetOf name span p.1)) p.2 := by
  have header := length_le_of_header? h
  rw [moduleFrom.eq_def]
  simp only [h]
  cases hb : body fin afterHeader with
  | error fault => rfl
  | ok p =>
    have shorter := length_le_of_body hb
    simp only [bind, Except.bind]
    rw [if_pos (Nat.le_trans shorter header)]

theorem moduleFrom_second {w : Widget} {p : Span × List Token}
    (h : header? fin (⟨.word (.identifier name), span⟩ :: rest) = some p) :
    moduleFrom fin (some w) (⟨.word (.identifier name), span⟩ :: rest) =
      .error (.parse .singleRoot (.secondRoot name) span) := by
  rw [moduleFrom.eq_def]
  simp only [h]

theorem moduleFrom_property
    (h : header? fin (⟨.word (.identifier name), span⟩ :: rest) = none) :
    moduleFrom fin root (⟨.word (.identifier name), span⟩ :: rest) =
      .error (.parse .widgetHeader (.property name) span) := by
  rw [moduleFrom.eq_def]
  simp only [h]

def startsPart : Kind → Bool
  | .newline | .word .openAngle | .word (.identifier _) => true
  | _ => false

theorem moduleFrom_refused {t : Token} (h : startsPart t.kind = false) :
    moduleFrom fin root (t :: rest) = .error (unexpected fin .headerOrRule (t :: rest)) := by
  obtain ⟨kind, span⟩ := t
  rw [moduleFrom.eq_def]
  split <;> simp_all [startsPart]

end ViewBridge.Markup
