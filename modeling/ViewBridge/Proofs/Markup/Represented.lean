import ViewBridge.Proofs.Locality
import ViewBridge.Proofs.Markup.Lockstep
import ViewBridge.Proofs.Markup.Outline
import ViewBridge.Proofs.Source.Lines

namespace ViewBridge.Markup

open List

open List

open List

open List

variable {names : List Selector} {source : String}

/-- The name of a header line and its place: the line is a name and a colon, nothing else. -/
def headerOf? : SourceLine Word → Option (String × Span)
  | ⟨[⟨.word (.identifier name), span⟩, ⟨.word .colon, _⟩], _⟩ => some (name, span)
  | _ => none

/-- What the tokens behind the colon of a line are read as. -/
def valueOf? (ts : List Token) : Option Literal :=
  match propertyValue .origin (ts ++ [⟨.newline, .origin⟩]) with
  | .ok (value, [_]) => some value
  | _ => none

/-- The property that a line `name: value` stands for. -/
inductive PropertyOf : SourceLine Word → Property → Prop
  | mk {name span colon t ts value} : valueOf? (t :: ts) = some value →
      PropertyOf ⟨⟨.word (.identifier name), span⟩ :: ⟨.word .colon, colon⟩ :: t :: ts, []⟩
        { name, value, span }

mutual

/-- The widget that a header line with its block stands for. -/
inductive WidgetOf : SourceLine Word → Widget → Prop
  | mk {line name span body} : headerOf? line = some (name, span) → BlockOf line.block body →
      WidgetOf line (widgetOf name span body)

/-- The drawing block that a header line with its block stands for. Drawing blocks directly inside
it are no part of it. -/
inductive CanvasOf : SourceLine Word → Canvas Widget → Prop
  | mk {line name span body} : headerOf? line = some (name, span) → BlockOf line.block body →
      body.properties = [] → CanvasOf line { name, instructions := body.children, span }

/-- What the lines of a block stand for: each for one property, child or drawing block, and those
of a sort in their order. -/
inductive BlockOf : List (SourceLine Word) → Body → Prop
  | nil : BlockOf [] {}
  | property {line lines property body} : PropertyOf line property → BlockOf lines body →
      BlockOf (line :: lines) { body with properties := property :: body.properties }
  | child {line lines widget body} : isCanvasName widget.name = false → WidgetOf line widget →
      BlockOf lines body → BlockOf (line :: lines) { body with children := widget :: body.children }
  | canvas {line lines canvas body} : isCanvasName canvas.name = true → CanvasOf line canvas →
      BlockOf lines body → BlockOf (line :: lines) { body with canvas := canvas :: body.canvas }

end

/-- The rule that a line with an opening angle stands for. -/
inductive RuleOf : SourceLine Word → Rule → Prop
  | mk {span ts block selectors body} :
      ts.map (·.kind) = selectorsKinds selectors ++ [.word .closeAngle, .word .colon] →
      BlockOf block body →
      RuleOf ⟨⟨.word .openAngle, span⟩ :: ts, block⟩
        { selectors, properties := body.properties, children := body.children,
          canvas := body.canvas, span }

/-- What the lines of a text outside all blocks stand for: rules in their order and one root. -/
inductive ModuleOf : List (SourceLine Word) → Module → Prop
  | nil : ModuleOf [] ⟨[], none⟩
  | rule {line lines rule m} : RuleOf line rule → ModuleOf lines m →
      ModuleOf (line :: lines) { m with rules := rule :: m.rules }
  | root {line lines root rules} : WidgetOf line root → ModuleOf lines ⟨rules, none⟩ →
      ModuleOf (line :: lines) ⟨rules, some root⟩

variable {fin s span : Span} {name : String} {l ts next after rest left : List Token}
  {block lines : List (SourceLine Word)} {b : Body}

section Line

theorem line_ends {l' : List Token} {s' : Span} (text : ∀ t ∈ l, t.kind.isText = true)
    (hn : ∀ t ∈ l', t.kind ≠ .newline)
    (h : l ++ ⟨.newline, s⟩ :: next = l' ++ ⟨.newline, s'⟩ :: after) : l = l' ∧ next = after := by
  induction l generalizing l' with
  | nil =>
    cases l' with
    | nil =>
      cases h
      exact ⟨rfl, rfl⟩
    | cons t l' =>
      rw [cons_append] at h
      cases (List.cons.inj h).1
      exact absurd rfl (hn _ mem_cons_self)
  | cons t l ih =>
    obtain ⟨ht, text⟩ := forall_mem_cons.mp text
    cases l' with
    | nil =>
      cases (List.cons.inj h).1
      cases ht
    | cons t' l' =>
      obtain ⟨rfl, behind⟩ := List.cons.inj h
      obtain ⟨rfl, rfl⟩ := ih text (forall_mem_cons.mp hn).2 behind
      exact ⟨rfl, rfl⟩

theorem propertyValue_line {v : Literal} (text : ∀ t ∈ l, t.kind.isText = true)
    (nested : Matched (l.map (·.kind)))
    (h : propertyValue fin (l ++ ⟨.newline, s⟩ :: next) = .ok (v, rest))
    (he : endOfLine fin rest = .ok left) : left = next ∧ valueOf? l = some v := by
  have lockstep : Lockstep next.length 0 (LineTo next ([] : List Token)) :=
    lockstep_lineTo (Nat.add_comm _ _)
  have lines : LineTo next [] (l ++ ⟨.newline, s⟩ :: next) (l ++ [⟨.newline, .origin⟩]) :=
    ⟨l, l, s, .origin, rfl, rfl, rfl, text, nested⟩
  have agree : Agree (Leaves Eq (LineTo next [])) (propertyValue fin _) (propertyValue .origin _) :=
    propertyValue_lockstep lockstep lines
  obtain ⟨⟨v', rest'⟩, hv, same, behind⟩ := agree.exists_ok h
  dsimp only at same behind
  obtain ⟨l₁, l₂, s₁, s₂, rfl, rfl, alike, text, _⟩ := behind
  cases alike.heads with
  | nil =>
    cases he
    refine ⟨rfl, ?_⟩
    rw [valueOf?, hv, same]
    rfl
  | @cons k =>
    have hk : k.isText = true := text _ mem_cons_self
    cases k with
    | newline => cases hk
    | _ => cases he

theorem identifier_kinds {expected : Expected} (h : identifier fin expected ts = .ok (name, rest)) :
    ∃ s, ts = ⟨.word (.identifier name), s⟩ :: rest := by
  unfold identifier at h
  split at h
  next =>
    cases h
    exact ⟨_, rfl⟩
  next => cases h

theorem moreBases_kinds {bases : List String} (h : moreBases fin ts = .ok (bases, rest)) :
    ∃ front, ts = front ++ rest ∧ front.map (·.kind) = basesKinds bases := by
  induction hn : ts.length using Nat.strongRecOn generalizing ts bases with
  | ind size ih =>
    by_cases hp : headKind ts = some (.word (.operator "+"))
    · cases ts with
      | nil => cases hp
      | cons t ts =>
        obtain ⟨k, s⟩ := t
        cases hp
        by_cases hi : ∃ base, headKind ts = some (.word (.identifier base))
        · obtain ⟨base, hi⟩ := hi
          cases ts with
          | nil => cases hi
          | cons t ts =>
            obtain ⟨k, s'⟩ := t
            cases hi
            rw [moreBases_plus] at h
            obtain ⟨⟨others, behind⟩, hm, eq⟩ := exists_of_map h
            cases eq
            rw [length_cons, length_cons] at hn
            obtain ⟨front, rfl, kinds⟩ := ih ts.length (by omega) hm rfl
            refine ⟨⟨_, s⟩ :: ⟨_, s'⟩ :: front, rfl, ?_⟩
            rw [map_cons, map_cons, kinds]
            rfl
        · rw [moreBases_refused fun base hk => hi ⟨base, hk⟩] at h
          cases h
    · rw [moreBases_end hp] at h
      cases h
      exact ⟨[], rfl, rfl⟩

theorem selector_kinds {names : Selector} (h : selector fin ts = .ok (names, rest)) :
    ∃ front, ts = front ++ rest ∧ front.map (·.kind) = selectorKinds names := by
  rw [selector_eq] at h
  obtain ⟨⟨first, behind⟩, hi, hp⟩ := exists_of_bind h
  obtain ⟨s, rfl⟩ := identifier_kinds hi
  dsimp only at hp
  split at hp
  next hat =>
    obtain ⟨⟨base, others⟩, hb, hq⟩ := exists_of_bind hp
    obtain ⟨⟨bases, behind'⟩, hm, eq⟩ := exists_of_map hq
    cases eq
    unfold isOperatorToken at hat
    split at hat
    next op s' ts =>
      obtain ⟨s'', rfl⟩ := identifier_kinds hb
      obtain ⟨front, rfl, kinds⟩ := moreBases_kinds hm
      refine ⟨⟨_, s⟩ :: ⟨_, s'⟩ :: ⟨_, s''⟩ :: front, rfl, ?_⟩
      rw [map_cons, map_cons, map_cons, kinds, beq_iff_eq.mp hat]
      rfl
    next => cases hat
  next =>
    cases hp
    exact ⟨[⟨_, s⟩], rfl, rfl⟩

theorem selectors_kinds (h : selectors fin ts = .ok (names, rest)) :
    ∃ front, ts = front ++ rest ∧ front.map (·.kind) = selectorsKinds names ∧ names ≠ [] := by
  induction hn : ts.length using Nat.strongRecOn generalizing ts names with
  | ind size ih =>
    rw [selectors_eq] at h
    obtain ⟨⟨first, behind⟩, hs, hp⟩ := exists_of_bind h
    have shorter := length_lt_of_selector hs
    obtain ⟨front, rfl, kinds⟩ := selector_kinds hs
    unfold selectorsEnd at hp
    dsimp only at hp
    split at hp
    next s behind =>
      obtain ⟨⟨others, behind'⟩, hm, eq⟩ := exists_of_map hp
      cases eq
      rw [length_cons] at shorter
      obtain ⟨front', rfl, kinds', some⟩ := ih behind.length (by omega) hm rfl
      refine ⟨front ++ ⟨.word .comma, s⟩ :: front', by simp, ?_, by simp⟩
      rw [map_append, map_cons, kinds, kinds']
      cases others with
      | nil => exact absurd rfl some
      | cons => simp [selectorsKinds, commas]
    next =>
      cases hp
      exact ⟨front, rfl, by simp [selectorsKinds, commas, kinds], by simp⟩

end Line

section Formed

variable {ok : Literal → Prop}

/-- What makes the parts that a line can stand for well formed. -/
structure LineFormed (ok : Literal → Prop) (line : SourceLine Word) : Prop where
  property : ∀ p, PropertyOf line p → p.Formed ok
  header : ∀ name span, headerOf? line = some (name, span) → IsName name.toList
  selectors : ∀ span ts names, line.tokens = ⟨.word .openAngle, span⟩ :: ts →
    ts.map (·.kind) = selectorsKinds names ++ [.word .closeAngle, .word .colon] →
      ∀ s ∈ names, s.Named

def LinesFormed (ok : Literal → Prop) (lines : List (SourceLine Word)) : Prop :=
  ∀ line : SourceLine Word, line.Among lines → LineFormed ok line

/-- Whether a body has the form of the lines that it is read from. -/
structure Body.Formed (ok : Literal → Prop) (b : Body) : Prop where
  properties : ∀ p ∈ b.properties, p.Formed ok
  children : childrenFormed ok b.children
  canvas : canvasFormed ok b.canvas

theorem Body.Formed.widget (h : b.Formed ok) (hn : IsName name.toList) (span : Span) :
    (widgetOf name span b).Formed ok :=
  ⟨hn, h.properties, h.children, h.canvas⟩

/-- A block of lines and the body that they stand for. -/
structure BodyOf (lines : List (SourceLine Word)) (b : Body) : Prop where
  ofLines : BlockOf lines b
  formed : ∀ ok, LinesFormed ok lines → b.Formed ok

theorem bodyOf_nil : BodyOf [] {} :=
  ⟨.nil, fun _ _ => ⟨by simp, trivial, trivial⟩⟩

variable {line : SourceLine Word}

theorem BodyOf.property {p : Property} (hp : PropertyOf line p) (h : BodyOf lines b) :
    BodyOf (line :: lines) { b with properties := p :: b.properties } := by
  refine ⟨.property hp h.ofLines, fun ok good => ?_⟩
  have formed := h.formed ok fun other hm => good other (.tail hm)
  exact ⟨forall_mem_cons.mpr ⟨(good line .head).property p hp, formed.properties⟩,
    formed.children, formed.canvas⟩

variable {inner : Body} (header : headerOf? line = some (name, span)) (hi : BodyOf line.block inner)

include header hi

theorem BodyOf.child (hc : isCanvasName name = false) (hl : startsLowercase name = false)
    (h : BodyOf lines b) :
    BodyOf (line :: lines) { b with children := widgetOf name span inner :: b.children } := by
  refine ⟨.child hc (.mk header hi.ofLines) h.ofLines, fun ok good => ?_⟩
  have formed := h.formed ok fun other hm => good other (.tail hm)
  have inside := hi.formed ok fun other hm => good other (.inside hm)
  have isName := (good line .head).header name span header
  exact ⟨formed.properties, ⟨hl, inside.widget isName span, formed.children⟩, formed.canvas⟩

theorem BodyOf.canvas (hc : isCanvasName name = true) (none : inner.properties = [])
    (h : BodyOf lines b) :
    BodyOf (line :: lines)
      { b with canvas := { name, instructions := inner.children, span } :: b.canvas } := by
  refine ⟨.canvas hc (.mk header hi.ofLines none) h.ofLines, fun ok good => ?_⟩
  have formed := h.formed ok fun other hm => good other (.tail hm)
  have inside := hi.formed ok fun other hm => good other (.inside hm)
  exact ⟨formed.properties, formed.children, hc, inside.children, formed.canvas⟩

end Formed

section Block

theorem header?_none (h : headKind ts ≠ some (.word .colon)) :
    header? fin (⟨.word (.identifier name), span⟩ :: ts) = none := by
  unfold header?
  split
  next eq =>
    cases eq
    exact absurd rfl h
  next eq =>
    cases eq
    exact absurd rfl h
  next => rfl

theorem exists_of_startsBlock (h : startsBlock ts = true) :
    ∃ s rest, ts = ⟨.indent, s⟩ :: rest := by
  unfold startsBlock at h
  split at h
  next => exact ⟨_, _, rfl⟩
  next => cases h

/-- Lines up to the end of their block, read as what they stand for. -/
def LinesStandFor (fin : Span) (ts : List Token) (lines : List (SourceLine Word))
    (after : List Token) : Prop :=
  ∀ b left, blockLines fin ts = .ok (b, left) → left = after ∧ BodyOf lines b

/-- The tokens behind a line: its block, read as what its lines stand for, and what comes after. -/
structure BlockStandsFor (fin : Span) (next : List Token) (block : List (SourceLine Word))
    (after : List Token) : Prop where
  plain : startsBlock next = false → next = after ∧ block = []
  body : ∀ b left, Markup.body fin next = .ok (b, left) → left = after ∧ BodyOf block b

theorem BlockStandsFor.none (h : startsBlock after = false) :
    BlockStandsFor fin after [] after where
  plain _ := ⟨rfl, rfl⟩
  body b left hb := by
    have head : headKind after ≠ some .indent := by
      rw [startsBlock_eq_false, head?_map] at h
      exact h
    rw [body_none head] at hb
    cases hb
    exact ⟨rfl, bodyOf_nil⟩

theorem BlockStandsFor.indent (h : LinesStandFor fin ts block after) :
    BlockStandsFor fin (⟨.indent, s⟩ :: ts) block after where
  plain := nofun
  body b left hb := by
    rw [body_indent] at hb
    exact h b left hb

variable (isLine : IsLine (l.map (·.kind))) (reads : BlockStandsFor fin next block after)
  (others : LinesStandFor fin after lines rest)

include reads others

theorem header_standsFor {colon : Span}
    (h : blockLines fin (⟨.word (.identifier name), span⟩ :: ⟨.word .colon, colon⟩ ::
      ⟨.newline, s⟩ :: next) = .ok (b, left)) :
    left = rest ∧ BodyOf
      (⟨[⟨.word (.identifier name), span⟩, ⟨.word .colon, colon⟩], block⟩ :: lines) b := by
  rw [blockLines_header rfl] at h
  split at h
  next hc =>
    obtain ⟨⟨inner, behind⟩, hi, hp⟩ := exists_of_bind h
    obtain ⟨canvas, hv, hq⟩ := exists_of_bind hp
    obtain ⟨⟨body, left⟩, hl, eq⟩ := exists_of_map hq
    cases eq
    obtain ⟨rfl, ofBlock⟩ := reads.body inner behind hi
    obtain ⟨rfl, ofLines⟩ := others body left hl
    unfold canvasOf at hv
    split at hv
    next => cases hv
    next none =>
      cases hv
      exact ⟨rfl, .canvas rfl ofBlock hc none ofLines⟩
  next hc =>
    split at h
    next => cases h
    next lowercase =>
      obtain ⟨⟨inner, behind⟩, hi, hp⟩ := exists_of_bind h
      obtain ⟨⟨body, left⟩, hl, eq⟩ := exists_of_map hp
      cases eq
      obtain ⟨rfl, ofBlock⟩ := reads.body inner behind hi
      obtain ⟨rfl, ofLines⟩ := others body left hl
      exact ⟨rfl, .child rfl ofBlock (eq_false_of_ne_true hc) (eq_false_of_ne_true lowercase) ofLines⟩

theorem property_standsFor {colon : Span} {t : Token}
    (text : ∀ u ∈ t :: l, u.kind.isText = true) (nested : Matched ((t :: l).map (·.kind)))
    (h : blockLines fin (⟨.word (.identifier name), span⟩ :: ⟨.word .colon, colon⟩ ::
      (t :: l ++ ⟨.newline, s⟩ :: next)) = .ok (b, left)) :
    left = rest ∧
      BodyOf
        (⟨⟨.word (.identifier name), span⟩ :: ⟨.word .colon, colon⟩ :: t :: l, block⟩ :: lines) b := by
  have header : header? fin (⟨.word (.identifier name), span⟩ :: ⟨.word .colon, colon⟩ ::
      (t :: l ++ ⟨.newline, s⟩ :: next)) = none := by
    obtain ⟨k, _⟩ := t
    have hk := text _ mem_cons_self
    cases k with
    | newline => cases hk
    | _ => rfl
  rw [blockLines_property header, propertyLines, propertyLine_colon] at h
  obtain ⟨⟨property, behind⟩, hp, hq⟩ := exists_of_bind h
  obtain ⟨⟨value, rest'⟩, hv, he⟩ := exists_of_bind hp
  obtain ⟨behind', he, eq⟩ := exists_of_map he
  cases eq
  obtain ⟨rfl, value⟩ := propertyValue_line text nested hv he
  obtain ⟨⟨body, left⟩, hl, eq⟩ := exists_of_map hq
  cases eq
  have plain : startsBlock behind = false := by
    by_contra hs
    obtain ⟨s, ts, rfl⟩ := exists_of_startsBlock (eq_true_of_ne_false hs)
    rw [blockLines_refused rfl] at hl
    cases hl
  obtain ⟨rfl, rfl⟩ := reads.plain plain
  obtain ⟨rfl, ofLines⟩ := others body left hl
  exact ⟨rfl, ofLines.property (.mk value)⟩

include isLine

/-- One line of a block. -/
theorem LinesStandFor.cons :
    LinesStandFor fin (l ++ ⟨.newline, s⟩ :: next) (⟨l, block⟩ :: lines) rest := by
  intro b left h
  have text : ∀ t ∈ l, t.kind.isText = true := fun t ht => isLine.text _ (mem_map_of_mem ht)
  have matched := isLine.nested.matched
  cases l with
  | nil => exact absurd rfl isLine.nonempty
  | cons t l =>
    obtain ⟨k, span⟩ := t
    have first : startsLine k = true := by
      by_contra hs
      rw [cons_append, blockLines_refused (t := ⟨k, span⟩) (eq_false_of_ne_true hs)] at h
      cases h
    obtain ⟨hk, behind⟩ := forall_mem_cons.mp text
    cases k with
    | word w =>
      cases w with
      | identifier name =>
        by_cases hc : headKind (l ++ ⟨.newline, s⟩ :: next) = some (.word .colon)
        · cases l with
          | nil => cases hc
          | cons u l =>
            obtain ⟨k, colon⟩ := u
            cases hc
            cases l with
            | nil => exact header_standsFor reads others h
            | cons t l =>
              exact property_standsFor reads others (forall_mem_cons.mp behind).2
                matched.tail.tail h
        · rw [cons_append, blockLines_property (header?_none hc), propertyLines,
            propertyLine_refused hc] at h
          cases h
      | _ => cases first
    | newline | dedent => cases hk
    | _ => cases first

omit reads others isLine

theorem linesStandFor_of_spellsLines (h : SpellsLines ts lines) (fin s : Span) (rest : List Token) :
    LinesStandFor fin (ts ++ ⟨.dedent, s⟩ :: rest) lines rest := by
  induction h generalizing s rest with
  | nil =>
    intro b left h
    rw [nil_append, blockLines_dedent] at h
    cases h
    exact ⟨rfl, bodyOf_nil⟩
  | line isLine spelled ih =>
    rw [append_assoc]
    exact .cons isLine (.none (spelled.startsBlock rfl)) (ih s rest)
  | block isLine _ _ ihi ih =>
    simp only [append_assoc, cons_append]
    exact .cons isLine (.indent (ihi _ _)) (ih s rest)

end Block

section Module

theorem isText_selectorsKinds : ∀ k ∈ selectorsKinds names, k.isText = true := by
  have bases : ∀ names, ∀ k ∈ basesKinds names, k.isText = true := by
    intro names k hk
    obtain ⟨base, _, hk⟩ := mem_flatMap.mp hk
    simp only [mem_cons, not_mem_nil, or_false] at hk
    rcases hk with rfl | rfl <;> rfl
  have one : ∀ s, ∀ k ∈ selectorKinds s, k.isText = true := by
    intro s k hk
    obtain ⟨name, bs⟩ := s
    cases bs with
    | nil =>
      cases mem_singleton.mp hk
      rfl
    | cons base bs =>
      simp only [selectorKinds, mem_cons] at hk
      rcases hk with rfl | rfl | rfl | hk
      · rfl
      · rfl
      · rfl
      · exact bases bs k hk
  intro k hk
  cases names with
  | nil => cases hk
  | cons s others =>
    rcases mem_append.mp hk with hk | hk
    · exact one s k hk
    · obtain ⟨ks, hs, hk⟩ := mem_flatMap.mp hk
      obtain ⟨s, _, rfl⟩ := mem_map.mp hs
      rcases mem_cons.mp hk with rfl | hk
      · rfl
      · exact one s k hk

theorem header?_line {stop : Span} (text : ∀ t ∈ l, t.kind.isText = true)
    (h : header? fin (⟨.word (.identifier name), span⟩ :: (l ++ ⟨.newline, s⟩ :: next)) =
      some (stop, rest)) : ∃ colon, l = [⟨.word .colon, colon⟩] ∧ rest = next := by
  unfold header? at h
  split at h
  next eq =>
    have last : (⟨.newline, s⟩ : Token) ∈ l ++ ⟨.newline, s⟩ :: next := by simp
    rw [(List.cons.inj eq).2] at last
    cases mem_singleton.mp last
  next _ _ colon stop behind eq =>
    obtain ⟨rfl, rfl⟩ := Prod.mk.inj (Option.some.inj h)
    have eq : l ++ ⟨.newline, s⟩ :: next = [⟨.word .colon, colon⟩] ++ ⟨.newline, stop⟩ :: behind :=
      (List.cons.inj eq).2
    obtain ⟨rfl, rfl⟩ := line_ends text (by simp) eq
    exact ⟨colon, rfl, rfl⟩
  next => cases h

theorem rule_standsFor {r : Rule} (text : ∀ t ∈ l, t.kind.isText = true)
    (reads : BlockStandsFor fin next block after)
    (h : rule fin span (l ++ ⟨.newline, s⟩ :: next) = .ok (r, left)) :
    left = after ∧ RuleOf ⟨⟨.word .openAngle, span⟩ :: l, block⟩ r ∧
      ∀ ok, LinesFormed ok (⟨⟨.word .openAngle, span⟩ :: l, block⟩ :: lines) → r.Formed ok := by
  rw [rule_eq] at h
  obtain ⟨⟨names, behind⟩, hs, hp⟩ := exists_of_bind h
  obtain ⟨front, eq, kinds, selected⟩ := selectors_kinds hs
  unfold ruleEnd at hp
  dsimp only at hp eq
  split at hp
  next s₁ s₂ rest =>
    obtain ⟨rest', he, hq⟩ := exists_of_bind hp
    obtain ⟨⟨body, left⟩, hb, eq'⟩ := exists_of_map hq
    cases eq'
    have headed : ∀ t ∈ front ++ [⟨.word .closeAngle, s₁⟩, ⟨.word .colon, s₂⟩],
        t.kind ≠ .newline := by
      intro t ht hk
      have hm : t.kind ∈ selectorsKinds names ++ [.word .closeAngle, .word .colon] := by
        rw [← kinds]
        simpa using mem_map_of_mem (f := (·.kind)) ht
      rw [hk] at hm
      rcases mem_append.mp hm with hm | hm
      · cases isText_selectorsKinds _ hm
      · simp at hm
    have eq : l ++ ⟨.newline, s⟩ :: next =
        front ++ [⟨.word .closeAngle, s₁⟩, ⟨.word .colon, s₂⟩] ++ rest := by
      rw [eq, append_assoc]
      rfl
    unfold endOfLine at he
    split at he
    next =>
      rw [append_nil] at eq
      have last : (⟨.newline, s⟩ : Token) ∈ l ++ ⟨.newline, s⟩ :: next := by simp
      rw [eq] at last
      exact absurd rfl (headed _ last)
    next s₃ rest =>
      cases he
      obtain ⟨same, rfl⟩ := line_ends text headed eq
      obtain ⟨rfl, ofBlock⟩ := reads.body body left hb
      have kinds : l.map (·.kind) = selectorsKinds names ++ [.word .closeAngle, .word .colon] := by
        rw [same, map_append, kinds]
        rfl
      refine ⟨rfl, .mk kinds ofBlock.ofLines, fun ok good => ?_⟩
      have formed := ofBlock.formed ok fun other hm => good other (.inside hm)
      exact ⟨selected, (good _ .head).selectors span _ names rfl kinds, formed.properties,
        formed.children, formed.canvas⟩
    next => cases he
  next => cases hp
  next => cases hp

/-- The lines of a text and the module that they stand for. -/
structure Represents (lines : List (SourceLine Word)) (m : Module) : Prop where
  ofLines : ModuleOf lines m
  formed : ∀ ok, LinesFormed ok lines → m.Formed ok

theorem represents_nil : Represents [] ⟨[], none⟩ :=
  ⟨.nil, fun _ _ => ⟨by simp, by simp⟩⟩

theorem Represents.rule {line : SourceLine Word} {r : Rule} {m : Module} (hr : RuleOf line r)
    (formed : ∀ ok, LinesFormed ok (line :: lines) → r.Formed ok) (h : Represents lines m) :
    Represents (line :: lines) { m with rules := r :: m.rules } := by
  refine ⟨.rule hr h.ofLines, fun ok good => ?_⟩
  have others := h.formed ok fun other hm => good other (.tail hm)
  exact ⟨forall_mem_cons.mpr ⟨formed ok good, others.rules⟩, others.root⟩

theorem Represents.root {line : SourceLine Word} {rules : List Rule}
    (header : headerOf? line = some (name, span)) (hb : BodyOf line.block b)
    (h : Represents lines ⟨rules, none⟩) :
    Represents (line :: lines) ⟨rules, some (widgetOf name span b)⟩ := by
  refine ⟨.root (.mk header hb.ofLines) h.ofLines, fun ok good => ?_⟩
  have others := h.formed ok fun other hm => good other (.tail hm)
  have inside := hb.formed ok fun other hm => good other (.inside hm)
  refine ⟨others.rules, ?_⟩
  rintro w ⟨⟩
  exact inside.widget ((good line .head).header name span header) span

/-- What is read of the lines of a text behind the root, if it came before them. -/
def PartsStandFor (fin : Span) (ts : List Token) (lines : List (SourceLine Word)) : Prop :=
  (∀ m, moduleFrom fin none ts = .ok m → Represents lines m) ∧
  ∀ w m, moduleFrom fin (some w) ts = .ok m → m.root = some w ∧ Represents lines ⟨m.rules, none⟩

theorem PartsStandFor.cons (isLine : IsLine (l.map (·.kind)))
    (reads : BlockStandsFor fin next block after) (others : PartsStandFor fin after lines) :
    PartsStandFor fin (l ++ ⟨.newline, s⟩ :: next) (⟨l, block⟩ :: lines) := by
  cases l with
  | nil => exact absurd rfl isLine.nonempty
  | cons t l =>
    obtain ⟨k, span⟩ := t
    have text : ∀ t ∈ l, t.kind.isText = true := fun t ht =>
      isLine.text _ (mem_cons_of_mem _ (mem_map_of_mem ht))
    have hk : k.isText = true := isLine.text _ mem_cons_self
    by_cases hs : startsPart k = false
    · refine ⟨fun m h => ?_, fun w m h => ?_⟩ <;>
        rw [cons_append, moduleFrom_refused (t := ⟨k, span⟩) hs] at h <;> cases h
    cases k with
    | word w =>
      cases w with
      | openAngle =>
        simp only [PartsStandFor, cons_append, moduleFrom_rule]
        refine ⟨fun m h => ?_, fun w m h => ?_⟩
        · obtain ⟨⟨r, behind⟩, hr, hm⟩ := exists_of_bind h
          obtain ⟨m', hm', rfl⟩ := exists_of_map hm
          obtain ⟨rfl, ofRule, formed⟩ := rule_standsFor text reads hr
          exact (others.1 m' hm').rule ofRule formed
        · obtain ⟨⟨r, behind⟩, hr, hm⟩ := exists_of_bind h
          obtain ⟨m', hm', rfl⟩ := exists_of_map hm
          obtain ⟨rfl, ofRule, formed⟩ := rule_standsFor text reads hr
          obtain ⟨root, represents⟩ := others.2 w m' hm'
          exact ⟨root, represents.rule ofRule formed⟩
      | identifier name =>
        cases hh : header? fin (⟨.word (.identifier name), span⟩ ::
            (l ++ ⟨.newline, s⟩ :: next)) with
        | none =>
          simp only [PartsStandFor, cons_append, moduleFrom_property hh]
          exact ⟨nofun, nofun⟩
        | some p =>
          simp only [PartsStandFor, cons_append, moduleFrom_root hh, moduleFrom_second hh]
          refine ⟨fun m h => ?_, nofun⟩
          obtain ⟨stop, rest⟩ := p
          obtain ⟨colon, rfl, rfl⟩ := header?_line text hh
          obtain ⟨⟨body, behind⟩, hb, hm⟩ := exists_of_bind h
          obtain ⟨rfl, ofBlock⟩ := reads.body body behind hb
          obtain ⟨root, represents⟩ := others.2 _ m hm
          obtain ⟨rules, _⟩ := m
          cases root
          exact represents.root rfl ofBlock
      | _ => exact absurd rfl hs
    | newline => cases hk
    | _ => exact absurd rfl hs

theorem partsStandFor_of_spellsLines (h : SpellsLines ts lines) (fin : Span) :
    PartsStandFor fin ts lines := by
  induction h with
  | nil =>
    simp only [PartsStandFor, moduleFrom_nil]
    refine ⟨fun m h => ?_, fun w m h => ?_⟩
    · cases h
      exact represents_nil
    · cases h
      exact ⟨rfl, represents_nil⟩
  | line isLine spelled ih =>
    have plain : startsBlock (_ ++ []) = false := spelled.startsBlock rfl
    rw [append_nil] at plain
    exact .cons isLine (.none plain) ih
  | block isLine inner _ _ ih =>
    exact .cons isLine (.indent (linesStandFor_of_spellsLines inner fin _ _)) ih

theorem head?_of_parse {ts : List Token} {m : Module} (ht : tokens source = .ok ts)
    (hm : parse source = .ok m) : (ts.map (·.kind)).head? ≠ some .indent := by
  obtain ⟨before, eq, _⟩ := (skeleton_of_tokensOf ht).eof_last
  obtain ⟨v, fin, rfl, hv⟩ := exists_until_end ht eq
  intro head
  rw [eq] at head
  cases v with
  | nil => cases head
  | cons t v =>
    obtain ⟨k, s⟩ := t
    cases head
    rw [hv, moduleFrom_refused rfl] at hm
    cases hm

/-- The tokens of an accepted text spell lines, which stand for the parts of its module. -/
theorem exists_represents {m : Module} (h : parse source = .ok m) :
    ∃ ts fin lines, tokens source = .ok (ts ++ [⟨.eof, fin⟩]) ∧ SpellsLines ts lines ∧
      Represents lines m := by
  obtain ⟨ts, ht, hm⟩ := exists_of_bind h
  obtain ⟨ks, hk, statements⟩ := statements_of_tokensOf readWord_gapless ht (head?_of_parse ht h)
  obtain ⟨before, eof, once⟩ := (skeleton_of_tokensOf ht).eof_last
  obtain rfl : before = ks := append_inj_left' (eof.symm.trans hk) rfl
  obtain ⟨v, fin, more, rfl, rfl, hn⟩ := exists_kinds_append hk
  obtain rfl := map_eq_nil_iff.mp hn
  obtain ⟨lines, spelled⟩ := statements.exists_spellsLines
  simp only [Module.ofTokens, untilEnd_eof once] at hm
  exact ⟨v, fin, lines, ht, spelled, (partsStandFor_of_spellsLines spelled fin).1 m hm⟩

end Module

end ViewBridge.Markup
