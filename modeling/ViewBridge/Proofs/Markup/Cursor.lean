import ViewBridge.Proofs.Markup.Block
import ViewBridge.Proofs.Source.CursorValues

namespace ViewBridge.Markup

open List

/-- A position in a list of tokens. -/
abbrev Cursor := Nat

namespace Cursor

open ViewBridge.Cursor

variable {s : Span} {after : List Token}

instance : Mark (.word Word.comma) := mark_word LawfulVocabulary.comma_iff

instance : Positioned Word := ⟨fun _ name p => pure (name, p)⟩

instance : LawfulPositions Word := ⟨fun _ h => .ok (.at h)⟩

instance : Mark (.word Word.colon) :=
  mark_word fun v => by cases v <;> first | exact ⟨fun _ => rfl, fun _ => rfl⟩ | exact ⟨nofun, nofun⟩

instance : Mark (.word Word.closeAngle) :=
  mark_word fun v => by cases v <;> first | exact ⟨fun _ => rfl, fun _ => rfl⟩ | exact ⟨nofun, nofun⟩

instance (text : String) : Mark (.word (Word.operator text)) :=
  mark_word fun v => by
    cases v with
    | operator op =>
      exact (beq_iff_eq (a := op) (b := text)).trans ⟨congrArg _, Word.operator.inj⟩
    | _ => exact ⟨nofun, nofun⟩

section

variable (all : List Token)

def itemEnd (depth : Nat) (p : Cursor) : Run Nat :=
  match all[p]? with
  | none => pure p
  | some t =>
    match t.kind with
    | .newline | .eof => pure p
    | .word .comma => if depth = 0 then pure p else p + 1 |>.itemEnd depth
    | kind => p + 1 |>.itemEnd (depthAfter depth kind)
partial_fixpoint

def atItemEnd (p : Nat) : Run Bool := do
  match (← tokenAt all p).kind with
  | .word .comma | .newline | .eof => return true
  | _ => return false

def expressionOr (p : Nat) (otherwise : Run (Literal × Nat)) : Run (Literal × Nat) := do
  let q ← itemEnd all 0 p
  let tokens ← slice all p q
  if tokens.any (isExpressionToken ·.kind) then return (.expression (expressionText {} tokens), q)
  else otherwise

def item (p : Nat) : Run (Literal × Nat) := do
  match ← (Cursor.atom all p).attempt with
  | .ok (value, q) =>
    if ← atItemEnd all q then return (value, q)
    else expressionOr all p (refuse all q .commaOrEndOfLine)
  | .error fault => expressionOr all p (throw (.fault fault))

def propertyValue (p : Nat) : Run (Literal × Nat) := Cursor.bareTuple all (item all) p

def isHeader (p : Nat) : Run Bool := do
  match ← kindAhead all p 0 with
  | .word (.identifier _) =>
    match ← kindAhead all p 1 with
    | .word .colon =>
      match ← kindAhead all p 2 with
      | .newline | .eof => return true
      | _ => return false
    | _ => return false
  | _ => return false

def identifier (expected : Expected) (p : Nat) : Run ((String × Span) × Nat) := do
  match ← tokenAt all p with
  | ⟨.word (.identifier name), span⟩ =>
    let (_, p) ← advance all p
    return ((name, span), p)
  | _ => refuse all p expected

/-- Passes a header, which the caller has seen to stand here. -/
def header (p : Nat) : Run ((String × Span) × Nat) := do
  let (name, p) ← identifier all .widgetHeader p
  let (_, p) ← consume all p (.word .colon) .widgetHeader
  let p ← passLineBreak all p
  return (name, p)

def propertyLine (p : Nat) : Run (Property × Nat) := do
  let ((name, span), p) ← identifier all .propertyOrChild p
  let (_, p) ← consume all p (.word .colon) .colonAfterProperty
  let (value, p) ← propertyValue all p
  let p ← passLineBreak all p
  return ({ name, value, span }, p)

mutual

def body (p : Cursor) : Run (Body × Nat) := do
  let (indented, (p : Cursor)) ← accept all p .indent
  if indented then p |>.blockLines else return ({}, p)
partial_fixpoint

def blockLines (p : Cursor) : Run (Body × Nat) := do
  match (← tokenAt all p).kind with
  | .dedent =>
    let (_, p) ← advance all p
    return ({}, p)
  | .eof => return ({}, p)
  | .newline =>
    let (_, (p : Cursor)) ← advance all p
    p |>.blockLines
  | .word (.identifier name) =>
    if ← isHeader all p then
      if startsLowercase name && !isCanvasName name then
        -- a header has a token behind its colon
        let t ← tokenAt all (p + 2)
        throw (.fault (.parse .propertyValue .endOfLine t.span))
      else
        let ((name, span), (p : Cursor)) ← header all p
        let (inner, (p : Cursor)) ← p |>.body
        if isCanvasName name then
          let canvas ← Run.of (canvasOf name span inner)
          let (lines, p) ← p |>.blockLines
          return ({ lines with canvas := canvas :: lines.canvas }, p)
        else
          let (lines, p) ← p |>.blockLines
          return ({ lines with children := widgetOf name span inner :: lines.children }, p)
    else
      let (property, (p : Cursor)) ← propertyLine all p
      let (lines, p) ← p |>.blockLines
      return ({ lines with properties := property :: lines.properties }, p)
  | _ => refuse all p .propertyOrChild
partial_fixpoint

end

def moreBases (p : Cursor) : Run (List String × Nat) := do
  let (goesOn, p) ← accept all p (.word (.operator "+"))
  if goesOn then
    let ((base, _), (p : Cursor)) ← identifier all .baseClass p
    let (bases, p) ← p |>.moreBases
    return (base :: bases, p)
  else return ([], p)
partial_fixpoint

def selector (p : Nat) : Run (Selector × Nat) := do
  let ((name, _), p) ← identifier all .ruleName p
  let (derived, p) ← accept all p (.word (.operator "@"))
  if derived then
    let ((base, _), p) ← identifier all .baseClass p
    let (bases, p) ← moreBases all p
    return ({ name, bases := base :: bases }, p)
  else return ({ name, bases := [] }, p)

def selectors (p : Cursor) : Run (List Selector × Nat) := do
  let (first, p) ← selector all p
  let (goesOn, (p : Cursor)) ← accept all p (.word .comma)
  if goesOn then
    let (others, p) ← p |>.selectors
    return (first :: others, p)
  else return ([first], p)
partial_fixpoint

/-- Reads a rule, the opening angle of which the caller has seen. -/
def rule (p : Nat) : Run (Rule × Nat) := do
  let (t, p) ← advance all p
  let (names, p) ← selectors all p
  let (_, p) ← consume all p (.word .closeAngle) .closeAngle
  let (_, p) ← consume all p (.word .colon) .colonAfterRule
  let p ← passLineBreak all p
  let (inner, p) ← body all p
  return ({ selectors := names, properties := inner.properties, children := inner.children,
            canvas := inner.canvas, span := t.span }, p)

def moduleFrom (root : Option Widget) (p : Cursor) : Run Module := do
  match ← tokenAt all p with
  | ⟨.eof, _⟩ => return { rules := [], root }
  | ⟨.newline, _⟩ =>
    let (_, (p : Cursor)) ← advance all p
    p |>.moduleFrom root
  | ⟨.word .openAngle, _⟩ =>
    let (first, (p : Cursor)) ← rule all p
    let others ← p |>.moduleFrom root
    return { others with rules := first :: others.rules }
  | ⟨.word (.identifier name), span⟩ =>
    if ← isHeader all p then
      match root with
      | some _ => throw (.fault (.parse .singleRoot (.secondRoot name) span))
      | none =>
        let ((name, span), p) ← header all p
        let (inner, (p : Cursor)) ← body all p
        p |>.moduleFrom (some (widgetOf name span inner))
    else throw (.fault (.parse .widgetHeader (.property name) span))
  | _ => refuse all p .headerOrRule
partial_fixpoint

end

/-- The module that a list of tokens spells, read with a position in them. -/
def parse (ts : List Token) : Run Module := moduleFrom (closed .origin ts) none 0

section Agreement

variable {all : List Token} {fin : Span} {tail ts rest : List Token} {p size : Nat}

theorem atItemEnd_eq (h : Sees all fin tail p ts) :
    atItemEnd all p = pure (Markup.atItemEnd ts) := by
  unfold atItemEnd
  cases ts with
  | nil => rw [h.tokenAt_finish, pure_bind, Markup.atItemEnd]
  | cons t rest =>
    obtain ⟨k, s⟩ := t
    rw [h.tokenAt, pure_bind]
    cases k with
    | eof => exact absurd rfl (h.plain _ mem_cons_self)
    | word w => cases w <;> rfl
    | _ => rfl

theorem itemEnd_eq (depth : Nat) (h : Sees all fin tail p ts) :
    itemEnd all depth p = pure (p + (itemTokens depth ts).length) := by
  induction ts generalizing depth p with
  | nil =>
    rw [itemEnd, h.finish]
    rfl
  | cons t rest ih =>
    obtain ⟨k, s⟩ := t
    have behind : ∀ depth, itemEnd all depth (p + 1) =
        pure (p + (⟨k, s⟩ :: itemTokens depth rest).length) := by
      intro depth
      rw [ih depth h.next, length_cons]
      congr 1
      omega
    rw [itemEnd, h.head]
    unfold itemTokens
    cases k with
    | newline | eof => rfl
    | word w =>
      cases w with
      | comma =>
        dsimp only
        split
        · rfl
        · exact behind depth
      | _ => exact behind depth
    | _ => exact behind _

theorem itemTokens_isPrefix (depth : Nat) (ts : List Token) : itemTokens depth ts <+: ts := by
  induction ts generalizing depth with
  | nil => exact nil_prefix
  | cons t ts ih =>
    unfold itemTokens
    split
    · exact nil_prefix
    · exact nil_prefix
    · split
      · exact nil_prefix
      · exact (prefix_cons_inj t).mpr (ih _)
    · exact (prefix_cons_inj t).mpr (ih _)

theorem expressionOr_matches {fault : Fault} {otherwise : Run (Literal × Nat)}
    (h : Sees all fin tail p ts)
    (refused : Matches (Stands all fin tail) otherwise (.error fault)) :
    Matches (Stands all fin tail) (expressionOr all p otherwise)
      (if (itemTokens 0 ts).any (isExpressionToken ·.kind) then
        .ok (.expression (expressionText {} (itemTokens 0 ts)), ts.drop (itemTokens 0 ts).length)
      else .error fault) := by
  obtain ⟨left, eq⟩ := itemTokens_isPrefix 0 ts
  have split : Sees all fin tail p (itemTokens 0 ts ++ left) := by
    rw [eq]
    exact h
  have drop := congrArg (List.drop (itemTokens 0 ts).length) eq
  rw [drop_left] at drop
  unfold expressionOr
  rw [itemEnd_eq 0 h, pure_bind, split.slice, pure_bind, ← drop]
  split
  · exact .ok (.at split.skip)
  · exact refused

theorem item_matches (h : Sees all fin tail p ts) :
    Matches (Stands all fin tail) (item all p) (Markup.item fin ts) := by
  unfold item Markup.item
  rcases (atom_matches h).attempt with ⟨_, _, eq, read, ⟨behind⟩⟩ | ⟨fault, eq, read⟩
  · simp only [eq, read, pure_bind, atItemEnd_eq behind]
    split
    · exact .ok (.at behind)
    · exact expressionOr_matches h (refuse_matches behind _)
  · simp only [eq, read, pure_bind]
    exact expressionOr_matches h .error

theorem propertyValue_matches (h : Sees all fin tail p ts) :
    Matches (Stands all fin tail) (propertyValue all p) (Markup.propertyValue fin ts) :=
  bareTuple_matches item_matches length_le_of_item h

theorem isHeader_eq (h : Sees all fin tail p ts) :
    isHeader all p = pure (header? fin ts).isSome := by
  unfold isHeader
  cases ts with
  | nil =>
    rw [kindAhead_eq 0 h.finish, pure_bind]
    rfl
  | cons t rest =>
    obtain ⟨k, s⟩ := t
    rw [kindAhead_eq 0 h.head, pure_bind]
    cases k with
    | word w =>
      cases w with
      | identifier name =>
        have next := h.next
        cases rest with
        | nil =>
          simp only [kindAhead_eq 1 next.finish, pure_bind]
          rfl
        | cons t rest =>
          obtain ⟨k, s'⟩ := t
          simp only [kindAhead_eq 1 next.head, pure_bind]
          cases k with
          | word w =>
            cases w with
            | colon =>
              cases rest with
              | nil =>
                simp only [kindAhead_eq 2 next.next.finish, pure_bind]
                rfl
              | cons t rest =>
                obtain ⟨k, s''⟩ := t
                simp only [kindAhead_eq 2 next.next.head, pure_bind]
                cases k with
                | eof => exact absurd rfl (next.next.plain _ mem_cons_self)
                | _ => rfl
            | _ => rfl
          | _ => rfl
      | _ => rfl
    | _ => rfl

/-- A header is passed, and a token stands behind its colon. -/
theorem header_eq {name : String} {span stop : Span}
    (h : Sees all fin tail p (⟨.word (.identifier name), span⟩ :: ts))
    (hh : header? fin (⟨.word (.identifier name), span⟩ :: ts) = some (stop, after)) :
    (∃ q, header all p = pure ((name, span), q) ∧ Sees all fin tail q after) ∧
      ∃ t, all[p + 2]? = some t ∧ t.span = stop := by
  have start : ∀ {s left}, ts = ⟨.word .colon, s⟩ :: left → header all p = do
      let q ← passLineBreak all (p + 2)
      return ((name, span), q) := by
    rintro s left rfl
    unfold header identifier
    simp only [h.tokenAt, h.advance, pure_bind, consume_eq h.next.head h.next.bound]
  unfold header? at hh
  split at hh
  next eq =>
    cases eq
    cases hh
    have behind := h.next.next
    refine ⟨⟨p + 2, ?_, behind⟩, _, behind.finish, rfl⟩
    rw [start rfl]
    unfold passLineBreak
    simp only [behind.tokenAt_finish, pure_bind]
  next eq =>
    cases eq
    cases hh
    have behind := h.next.next
    refine ⟨⟨p + 2 + 1, ?_, behind.next⟩, _, behind.head, rfl⟩
    rw [start rfl]
    unfold passLineBreak
    simp only [behind.tokenAt, behind.advance, pure_bind]
  next => cases hh

theorem propertyLine_matches {name : String} {span : Span}
    (h : Sees all fin tail p (⟨.word (.identifier name), span⟩ :: ts)) :
    Matches (Stands all fin tail) (propertyLine all p) (Markup.propertyLine fin name span ts) := by
  unfold propertyLine identifier
  simp only [h.tokenAt, h.advance, pure_bind]
  have next := h.next
  rcases next.consume (.word .colon) .colonAfterProperty with ⟨s, left, rfl, eq⟩ | ⟨bare, eq⟩
  · rw [eq, pure_bind, propertyLine_colon]
    refine (propertyValue_matches next.next).stands fun value q behind _ hb => ?_
    exact (passLineBreak_matches hb).map fun _ _ _ hl => .at hl
  · rw [eq, propertyLine_refused bare]
    exact (refuse_matches (R := Eq) next _).error_bind

structure BlocksMatch (all : List Token) (fin : Span) (tail : List Token) (size : Nat) : Prop where
  body : ∀ {p ts}, Sees all fin tail p ts → ts.length < size →
    Matches (Stands all fin tail) (body all p) (Markup.body fin ts)
  lines : ∀ {p ts}, Sees all fin tail p ts → ts.length < size →
    Matches (Stands all fin tail) (blockLines all p) (Markup.blockLines fin ts)

theorem body_step_matches (below : BlocksMatch all fin tail size) (h : Sees all fin tail p ts)
    (hn : ts.length ≤ size) : Matches (Stands all fin tail) (body all p) (Markup.body fin ts) := by
  rw [body]
  rcases h.accept .indent with ⟨s, left, rfl, eq⟩ | ⟨none, eq⟩
  · rw [length_cons] at hn
    rw [eq, pure_bind, body_indent]
    exact below.lines h.next (by omega)
  · rw [eq, pure_bind, body_none none]
    exact .ok (.at h)

theorem headed_matches {name : String} {span stop : Span} (below : BlocksMatch all fin tail size)
    (hn : ts.length < size) (h : Sees all fin tail p (⟨.word (.identifier name), span⟩ :: ts))
    (hh : header? fin (⟨.word (.identifier name), span⟩ :: ts) = some (stop, after)) :
    Matches (Stands all fin tail)
      (if startsLowercase name && !isCanvasName name then do
        let t ← tokenAt all (p + 2)
        throw (.fault (.parse .propertyValue .endOfLine t.span))
      else do
        let ((name, span), p) ← header all p
        let (inner, p) ← body all p
        if isCanvasName name then
          let canvas ← Run.of (canvasOf name span inner)
          let (lines, p) ← blockLines all p
          return ({ lines with canvas := canvas :: lines.canvas }, p)
        else
          let (lines, p) ← blockLines all p
          return ({ lines with children := widgetOf name span inner :: lines.children }, p))
      (Markup.blockLines fin (⟨.word (.identifier name), span⟩ :: ts)) := by
  obtain ⟨⟨q, passed, behind⟩, t, ht, rfl⟩ := header_eq h hh
  have shorter := length_le_of_header? hh
  rw [blockLines_header hh]
  by_cases canvas : isCanvasName name = true
  · simp only [canvas, Bool.not_true, Bool.and_false, Bool.false_eq_true, ↓reduceIte, passed, pure_bind]
    refine (below.body behind (by omega)).stands fun inner q left inner_read hl => ?_
    have within := length_le_of_body inner_read
    dsimp only
    cases hc : canvasOf name span inner with
    | error fault => exact .error
    | ok canvas =>
      exact (below.lines hl (by omega)).build_map fun _ _ _ => ⟨_, rfl, rfl⟩
  · by_cases lowercase : startsLowercase name = true
    · simp only [canvas, lowercase, Bool.not_false, Bool.and_true, Bool.false_eq_true, ↓reduceIte]
      rw [tokenAt_eq ht, pure_bind]
      exact .error
    · simp only [canvas, lowercase, Bool.false_and, Bool.false_eq_true, ↓reduceIte, passed, pure_bind]
      refine (below.body behind (by omega)).stands fun inner q left inner_read hl => ?_
      have within := length_le_of_body inner_read
      dsimp only
      exact (below.lines hl (by omega)).build_map fun _ _ _ => ⟨_, rfl, rfl⟩

theorem blockLines_step_matches (below : BlocksMatch all fin tail size)
    (h : Sees all fin tail p ts) (hn : ts.length ≤ size) :
    Matches (Stands all fin tail) (blockLines all p) (Markup.blockLines fin ts) := by
  rw [blockLines]
  cases ts with
  | nil =>
    rw [h.tokenAt_finish, pure_bind, blockLines_nil]
    exact .ok (.at h)
  | cons t rest =>
    obtain ⟨k, s⟩ := t
    rw [length_cons] at hn
    rw [h.tokenAt, pure_bind]
    cases k with
    | dedent =>
      simp only [h.advance, pure_bind, blockLines_dedent]
      exact .ok (.at h.next)
    | newline =>
      simp only [h.advance, pure_bind, blockLines_newline]
      exact below.lines h.next (by omega)
    | word w =>
      cases w with
      | identifier name =>
        simp only [isHeader_eq h, pure_bind]
        cases hh : header? fin (⟨.word (.identifier name), s⟩ :: rest) with
        | some found => exact headed_matches below (by omega) h hh
        | none =>
          rw [blockLines_property hh]
          refine (propertyLine_matches h).stands fun property q left property_read hl => ?_
          have shorter := length_le_of_propertyLine property_read
          exact (below.lines hl (by omega)).build_map fun _ _ _ => ⟨_, rfl, rfl⟩
      | _ =>
        rw [blockLines_refused rfl]
        exact refuse_matches h _
    | eof => exact absurd rfl (h.plain _ mem_cons_self)
    | _ =>
      rw [blockLines_refused rfl]
      exact refuse_matches h _

theorem blocksMatch (size : Nat) : BlocksMatch all fin tail size := by
  induction size with
  | zero => constructor <;> simp
  | succ size ih =>
    exact ⟨fun h hn => body_step_matches ih h (Nat.le_of_lt_succ hn),
      fun h hn => blockLines_step_matches ih h (Nat.le_of_lt_succ hn)⟩

theorem body_matches (h : Sees all fin tail p ts) :
    Matches (Stands all fin tail) (body all p) (Markup.body fin ts) :=
  (blocksMatch (ts.length + 1)).body h (Nat.lt_succ_self _)

/-- The same name, at a position that sees the tokens left. -/
inductive Named (all : List Token) (fin : Span) (tail : List Token) :
    (String × Span) × Nat → String × List Token → Prop
  | at {name span p rest} : Sees all fin tail p rest →
      Named all fin tail ((name, span), p) (name, rest)

theorem identifier_matches (expected : Expected) (h : Sees all fin tail p ts) :
    Matches (Named all fin tail) (identifier all expected p)
      (Markup.identifier fin expected ts) := by
  unfold identifier
  cases ts with
  | nil =>
    rw [h.tokenAt_finish, pure_bind]
    exact refuse_matches h _
  | cons t rest =>
    obtain ⟨k, s⟩ := t
    rw [h.tokenAt, pure_bind]
    cases k with
    | word w =>
      cases w with
      | identifier name =>
        simp only [h.advance, pure_bind]
        exact .ok (.at h.next)
      | _ => exact refuse_matches h _
    | _ => exact refuse_matches h _

theorem moreBases_named : Markup.moreBases fin (⟨.word (.operator "+"), s⟩ :: ts) =
      (Markup.identifier fin .baseClass ts).bind fun p =>
        (Markup.moreBases fin p.2).map fun q => (p.1 :: q.1, q.2) := by
  by_cases named : ∃ base, headKind ts = some (.word (.identifier base))
  · obtain ⟨base, hb⟩ := named
    obtain ⟨⟨k, s'⟩, ht, hk⟩ := Option.map_eq_some_iff.mp hb
    obtain ⟨rest, rfl⟩ := head?_eq_some_iff.mp ht
    cases hk
    exact moreBases_plus
  · rw [moreBases_refused fun base hb => named ⟨base, hb⟩]
    unfold Markup.identifier
    split
    next => exact absurd ⟨_, rfl⟩ named
    next => rfl

theorem moreBases_matches (h : Sees all fin tail p ts) :
    Matches (Stands all fin tail) (moreBases all p) (Markup.moreBases fin ts) := by
  induction hn : ts.length using Nat.strongRecOn generalizing ts p with
  | ind size ih =>
    rw [moreBases]
    rcases h.accept (.word (.operator "+")) with ⟨s, left, rfl, eq⟩ | ⟨last, eq⟩
    · rw [length_cons] at hn
      rw [eq, pure_bind, moreBases_named]
      refine (identifier_matches .baseClass h.next).bind ?_
      rintro ⟨⟨base, s'⟩, q⟩ ⟨_, behind⟩ base_read ⟨hb⟩
      have shorter := length_lt_of_identifier base_read
      exact (ih behind.length (by omega) hb rfl).build_map fun _ _ _ => ⟨_, rfl, rfl⟩
    · rw [eq, pure_bind, moreBases_end last]
      exact .ok (.at h)

theorem selector_matches (h : Sees all fin tail p ts) :
    Matches (Stands all fin tail) (selector all p) (Markup.selector fin ts) := by
  unfold selector
  rw [selector_eq]
  refine (identifier_matches .ruleName h).bind ?_
  rintro ⟨⟨name, s⟩, q⟩ ⟨_, behind⟩ _ ⟨hb⟩
  dsimp only
  rcases hb.accept (.word (.operator "@")) with ⟨s, left, rfl, eq⟩ | ⟨plain, eq⟩
  · rw [eq, pure_bind]
    refine (identifier_matches .baseClass hb.next).bind ?_
    rintro ⟨⟨base, s'⟩, q⟩ ⟨_, left⟩ _ ⟨hl⟩
    exact (moreBases_matches hl).build_map fun _ _ _ => ⟨_, rfl, rfl⟩
  · have none : isOperatorToken "@" behind = false := by
      unfold isOperatorToken
      split
      next op _ _ =>
        by_contra found
        rw [Bool.not_eq_false, beq_iff_eq] at found
        subst found
        exact plain rfl
      next => rfl
    rw [eq, pure_bind, none]
    exact .ok (.at hb)

theorem selectors_matches (h : Sees all fin tail p ts) :
    Matches (Stands all fin tail) (selectors all p) (Markup.selectors fin ts) := by
  induction hn : ts.length using Nat.strongRecOn generalizing ts p with
  | ind size ih =>
    rw [selectors, selectors_eq]
    refine (selector_matches h).stands fun first q behind first_read hb => ?_
    have shorter := length_lt_of_selector first_read
    dsimp only
    rcases hb.accept (.word .comma) with ⟨s, left, rfl, eq⟩ | ⟨last, eq⟩
    · rw [length_cons] at shorter
      rw [eq, pure_bind]
      exact (ih left.length (by omega) hb.next rfl).build_map fun _ _ _ => ⟨_, rfl, rfl⟩
    · simp only [eq, pure_bind, Bool.false_eq_true, ↓reduceIte]
      unfold selectorsEnd
      split
      next => exact absurd rfl last
      next => exact .ok (.at hb)

theorem rule_matches (h : Sees all fin tail p (⟨.word .openAngle, s⟩ :: ts)) :
    Matches (Stands all fin tail) (rule all p) (Markup.rule fin s ts) := by
  unfold rule
  rw [rule_eq, h.advance, pure_bind]
  refine (selectors_matches h.next).stands fun names q behind _ hb => ?_
  dsimp only
  rcases hb.consume (.word .closeAngle) .closeAngle with ⟨s', left, rfl, eq⟩ | ⟨bare, eq⟩
  · rw [eq, pure_bind]
    dsimp only
    rcases hb.next.consume (.word .colon) .colonAfterRule with
      ⟨s'', rest, rfl, eq⟩ | ⟨bare, eq⟩
    · rw [eq, pure_bind]
      refine (passLineBreak_matches hb.next.next).bind ?_
      intro q rest _ hr
      exact (body_matches hr).build_map fun _ _ _ => ⟨_, rfl, rfl⟩
    · rw [eq]
      unfold ruleEnd
      split
      next eq => exact absurd (by rw [(List.cons.inj eq).2]; rfl) bare
      next eq =>
        cases eq
        exact (refuse_matches (R := Eq) hb.next _).error_bind
      next other => exact absurd rfl (other _ _)
  · rw [eq]
    unfold ruleEnd
    split
    next => exact absurd rfl bare
    next => exact absurd rfl bare
    next => exact (refuse_matches (R := Eq) hb _).error_bind

theorem moduleFrom_matches (root : Option Widget) (h : Sees all fin tail p ts) :
    Matches Eq (moduleFrom all root p) (Markup.moduleFrom fin root ts) := by
  induction hn : ts.length using Nat.strongRecOn generalizing ts p root with
  | ind size ih =>
    rw [moduleFrom]
    cases ts with
    | nil =>
      rw [h.tokenAt_finish, pure_bind, moduleFrom_nil]
      exact .ok rfl
    | cons t rest =>
      obtain ⟨k, s⟩ := t
      rw [length_cons] at hn
      rw [h.tokenAt, pure_bind]
      cases k with
      | newline =>
        simp only [h.advance, pure_bind, moduleFrom_newline]
        exact ih rest.length (by omega) root h.next rfl
      | word w =>
        cases w with
        | openAngle =>
          rw [moduleFrom_rule]
          refine (rule_matches h).stands fun first q left rule_read hl => ?_
          have shorter := length_le_of_rule rule_read
          refine (ih left.length (by omega) root hl rfl).map ?_
          rintro others _ _ rfl
          rfl
        | identifier name =>
          simp only [isHeader_eq h, pure_bind]
          cases hh : header? fin (⟨.word (.identifier name), s⟩ :: rest) with
          | none =>
            rw [moduleFrom_property hh]
            exact .error
          | some found =>
            obtain ⟨stop, after⟩ := found
            cases root with
            | some w =>
              rw [moduleFrom_second hh]
              exact .error
            | none =>
              obtain ⟨⟨q, passed, behind⟩, _⟩ := header_eq h hh
              have within := length_le_of_header? hh
              rw [moduleFrom_root hh]
              simp only [Option.isSome_some, ↓reduceIte, passed, pure_bind]
              refine (body_matches behind).stands fun inner q left inner_read hl => ?_
              have shorter := length_le_of_body inner_read
              exact ih left.length (by omega) _ hl rfl
        | _ =>
          rw [moduleFrom_refused rfl]
          exact refuse_matches h _
      | eof => exact absurd rfl (h.plain _ mem_cons_self)
      | _ =>
        rw [moduleFrom_refused rfl]
        exact refuse_matches h _

theorem parse_eq (ts : List Token) : parse ts = Run.of (Module.ofTokens ts) := by
  obtain ⟨tail, sees⟩ := exists_sees_closed .origin ts
  exact (moduleFrom_matches none sees).run_eq

end Agreement

end Cursor

end ViewBridge.Markup
