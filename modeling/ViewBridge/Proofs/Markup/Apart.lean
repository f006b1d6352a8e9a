import ViewBridge.Proofs.Markup.Respelling

namespace ViewBridge.Markup

open Scanner List

variable {c : Char}

def Word.mark? : Word → Option Char
  | .operator text =>
    match text.toList with
    | [c] => some c
    | _ => none
  | .openAngle => some '<'
  | .closeAngle => some '>'
  | _ => none

/-- Whether a token goes on with a character that stands directly behind it: a name with a dot, a
mark with the other half of a pair, and a minus with a digit. -/
def goesOn : Kind → Char → Bool
  | .word (.identifier _), d => d == '.'
  | .word w, d => w.mark?.any fun c => isPair c d || c == '-' && Text.isDigit d
  | _, _ => false

/-- Whether no token of an expression is read together with the one before it in the canonical
text. -/
def apart (s : Spacing) : List Kind → Bool
  | [] => true
  | k :: ks =>
    !(s.previous.any fun before =>
      s.isTight before k && (tokenText k).toList.head?.any (goesOn before)) && apart (s.after k) ks

/-- The word that a single angle is read as where no other mark stands behind it. -/
def Word.settled : Word → Word
  | .operator text => if text = "<" then .openAngle else if text = ">" then .closeAngle else .operator text
  | w => w

def settled : Kind → Kind
  | .word w => .word w.settled
  | k => k

variable {opened opened' : List Bracket} {ks : List Kind} {s : Spacing} {w : Word}

theorem apart_cons {k : Kind} (h : apart s (k :: ks) = true) :
    (∀ before ∈ s.previous, s.isTight before k = true →
      (tokenText k).toList.head?.any (goesOn before) = false) ∧ apart (s.after k) ks = true := by
  rw [apart, Bool.and_eq_true, Bool.not_eq_true'] at h
  refine ⟨fun before hb tight => ?_, h.2⟩
  have first := h.1
  rw [Option.mem_def.mp hb, Option.any_some, tight, Bool.true_and] at first
  exact first

theorem head_spelledText {before : Kind} (hs : s.previous = some before)
    (hl : Lexed s.previous opened ks opened') (ht : ∀ k ∈ ks, TokenKind.isText k = true)
    (ha : apart s ks = true) {d : Char} (hd : d ∈ (spelledText s ks).head?) :
    d = ' ' ∨ goesOn before d = false ∧ ∃ k more text, ks = k :: more ∧
      s.isTight before k = true ∧ (tokenText k).toList = d :: text := by
  cases ks with
  | nil => cases hd
  | cons k ks =>
    rw [spelledText_cons] at hd
    rcases s.gap_cases k with gap | ⟨gap, tight⟩
    · rw [gap] at hd
      cases hd
      exact .inl rfl
    · obtain ⟨c, text, eq, _⟩ := hl.starts (forall_mem_cons.mp ht).1
      have first := (apart_cons ha).1 before hs (tight before hs)
      rw [gap, eq] at hd
      cases hd
      rw [eq, head?_cons, Option.any_some] at first
      exact .inr ⟨first, k, ks, text, rfl, tight before hs, eq⟩

theorem mark_cases (h : w.mark? = some c) :
    w = .openAngle ∧ c = '<' ∨ w = .closeAngle ∧ c = '>' ∨ w = .operator c.toString := by
  cases w with
  | operator text =>
    simp only [Word.mark?] at h
    split at h
    next c' eq =>
      cases h
      refine .inr (.inr (congrArg Word.operator ?_))
      rw [← String.ofList_toList (s := text), eq]
      rfl
    next => cases h
  | openAngle => exact .inl ⟨rfl, (Option.some.inj h).symm⟩
  | closeAngle => exact .inr (.inl ⟨rfl, (Option.some.inj h).symm⟩)
  | _ => cases h

theorem goesOn_mark (h : w.mark? = some c) (d : Char) :
    goesOn (.word w) d = (isPair c d || c == '-' && Text.isDigit d) := by
  cases w with
  | identifier => cases h
  | _ => simp only [goesOn, h, Option.any_some]

theorem settled_angle (h : w.mark? = some c) (hc : c = '<' ∨ c = '>') :
    w.settled = angleWord c ∧ isOperator ["="] (.word w) = false ∧
      (s.after (.word w)).afterUnary = false := by
  rcases mark_cases h with ⟨rfl, rfl⟩ | ⟨rfl, rfl⟩ | rfl
  · exact ⟨rfl, rfl, rfl⟩
  · exact ⟨rfl, rfl, rfl⟩
  · rcases hc with rfl | rfl
    · exact ⟨rfl, rfl, rfl⟩
    · exact ⟨rfl, rfl, rfl⟩

theorem settled_operator (h : w.mark? = some c) (hc : ¬(c = '<' ∨ c = '>')) :
    w.settled = .operator c.toString := by
  rcases mark_cases h with ⟨_, rfl⟩ | ⟨_, rfl⟩ | rfl
  · exact absurd (.inl rfl) hc
  · exact absurd (.inr rfl) hc
  · have less : c.toString ≠ "<" := by
      intro eq
      exact hc (.inl (by simpa using congrArg String.toList eq))
    have greater : c.toString ≠ ">" := by
      intro eq
      exact hc (.inr (by simpa using congrArg String.toList eq))
    rw [Word.settled, if_neg less, if_neg greater]

/-- What the text behind a mark starts with where the tokens stand apart. -/
theorem head_behind_mark {d : Char} (mark : w.mark? = some c)
    (hl : Lexed (some (.word w)) opened ks opened') (ht : ∀ k ∈ ks, TokenKind.isText k = true)
    (ha : apart (s.after (.word w)) ks = true) (hd : d ∈ (spelledText (s.after (.word w)) ks).head?)
    : isPair c d = false ∧ (c = '-' → Text.isDigit d = false) ∧
      (c = '<' ∨ c = '>' → joinsAngle d = false) := by
  rcases head_spelledText (s := s.after (.word w)) rfl hl ht ha hd with
    rfl | ⟨goes, k, more, text, _, tight, eq⟩
  · exact ⟨Inert.isPair (by decide) c, fun _ => rfl, fun _ => rfl⟩
  rw [goesOn_mark mark, Bool.or_eq_false_iff] at goes
  refine ⟨goes.1, ?_, fun angle => ?_⟩
  · rintro rfl
    simpa using goes.2
  obtain ⟨_, equals, unary⟩ := settled_angle (s := s) mark angle
  rcases head_of_attaches (attaches_of_isTight equals unary tight) with
    ⟨name, rfl, dotted⟩ | ⟨d', more', eq', ending⟩
  · have point : d = '.' := by
      rw [tokenText] at eq
      rw [eq] at dotted
      exact Option.some.inj dotted
    rw [point]
    rfl
  · rw [eq] at eq'
    cases eq'
    have other : ∀ d ∈ endingChars, d ≠ '=' → joinsAngle d = false := by decide
    refine other d ending ?_
    rintro rfl
    -- An angle makes a pair with an equals sign, so that one does not stand here.
    have pair : isPair c '=' = true := by rcases angle with rfl | rfl <;> decide
    rw [pair] at goes
    cases goes.1

theorem leads_settled_mark {value : Bool} (mark : w.mark? = some c) (hc : IsMark c)
    (hl : Lexed (some (.word w)) opened ks opened') (ht : ∀ k ∈ ks, TokenKind.isText k = true)
    (ha : apart (s.after (.word w)) ks = true) :
    Leads value opened [c] (spelledText (s.after (.word w)) ks) (.word w.settled) opened := by
  have head := fun {d} => head_behind_mark (s := s) (d := d) mark hl ht ha
  have word : markWord c (spelledText (s.after (.word w)) ks) = w.settled := by
    unfold markWord
    by_cases angle : c = '<' ∨ c = '>'
    · have joins : (spelledText (s.after (.word w)) ks).head?.any joinsAngle = false := by
        cases hd : (spelledText (s.after (.word w)) ks).head? with
        | none => rfl
        | some d => exact (head hd).2.2 angle
      rw [if_pos ⟨angle, joins⟩, (settled_angle (s := s) mark angle).1]
    · rw [if_neg fun h => angle h.1, settled_operator mark angle]
  rw [← word]
  refine leads_mark hc (fun d hd => (head hd).1) fun hm digit => ?_
  obtain ⟨d, hd, digit⟩ := (Option.any_eq_true _ _).mp digit
  rw [(head hd).2.1 hm] at digit
  cases digit

theorem settled_pair (c d : Char) :
    (Word.operator (String.ofList [c, d])).settled = .operator (String.ofList [c, d]) := by
  have length : ∀ text : String, String.ofList [c, d] = text → text.toList.length = 2 := by
    rintro text rfl
    rw [String.toList_ofList]
    rfl
  have less : String.ofList [c, d] ≠ "<" := fun eq => absurd (length _ eq) (by decide)
  have greater : String.ofList [c, d] ≠ ">" := fun eq => absurd (length _ eq) (by decide)
  rw [Word.settled, if_neg less, if_neg greater]

theorem gap_dotted {text name : String}
    (ha : apart (s.after (.word (.identifier text))) (.word (.identifier name) :: ks) = true)
    (hd : IsDotted name.toList) :
    (s.after (.word (.identifier text))).gap (.word (.identifier name)) ≠ [] := by
  obtain ⟨rest, _, eq⟩ := hd
  intro gap
  rcases (s.after (.word (.identifier text))).gap_cases (.word (.identifier name)) with
    space | ⟨_, tight⟩
  · rw [gap] at space
    cases space
  · have first := (apart_cons ha).1 _ rfl (tight _ rfl)
    rw [tokenText, eq] at first
    cases first

/-- A word is read by itself where the tokens stand apart. -/
theorem leads_settled (fits : w.Fits s.previous) (hf : ∀ f, w = .float f → FloatReadsBack f)
    (hl : Lexed (some (.word w)) opened ks opened') (ht : ∀ k ∈ ks, TokenKind.isText k = true)
    (ha : apart (s.after (.word w)) ks = true) :
    Leads (s.previous.any endsValue) opened (tokenText (.word w)).toList
      (spelledText (s.after (.word w)) ks) (.word w.settled) opened := by
  have number : w.isOperand = true → Numeral (tokenText (.word w)).toList w →
      ((tokenText (.word w)).toList.head? = some '-' → s.previous.any endsValue = false) →
      Leads (s.previous.any endsValue) opened (tokenText (.word w)).toList
        (spelledText (s.after (.word w)) ks) (.word w) opened := by
    intro hw numeral minus blocks previous rest hp hr
    have ends := endsNumber_operand (s := s.after (.word w)) hw rfl (afterUnary_operand hw s) hl hr
    exact writes_numeral numeral ends fun hm => hp.trans (minus hm)
  cases w with
  | identifier text =>
    intro blocks previous rest hp hr
    have ends : EndsName (spelledText (s.after (.word (.identifier text))) ks ++ rest) := by
      rcases ends_operand (s := s.after (.word (.identifier text))) rfl rfl rfl hl with
        ⟨name, more, rfl, dotted, gap⟩ | ends
      · exact absurd gap (gap_dotted ha dotted)
      · exact (ends rest hr).1
    have written : Writes readWord ⟨.inside, blocks, opened, previous⟩ text.toList
        (spelledText (s.after (.word (.identifier text))) ks ++ rest)
        [.word (.identifier (String.ofList text.toList))]
        ⟨.inside, blocks, opened, some (.word (.identifier (String.ofList text.toList)))⟩ := by
      rcases fits with name | ⟨dotted, hv⟩
      · exact writes_name name ends
      · exact writes_dotted dotted ends (hp.trans hv)
    rwa [String.ofList_toList] at written
  | integer i => exact number rfl (numeral_integer i) fun minus => fits (minus_integer minus)
  | float f => exact number rfl (hf f rfl).numeral fun minus => fits (minus_float minus)
  | string text => exact fun _ _ rest _ _ => writes_string text _
  | formatString text =>
    intro blocks previous rest _ _
    have written : Writes readWord ⟨.inside, blocks, opened, previous⟩ text.toList
        (spelledText (s.after (.word (.formatString text))) ks ++ rest) _ _ :=
      writes_formatString fits _
    rwa [String.ofList_toList] at written
  | operator text =>
    have operator : IsOperator text.toList := fits
    rw [tokenText]
    generalize eq : text.toList = cs at operator
    obtain rfl : text = String.ofList cs := by rw [← eq, String.ofList_toList]
    cases operator with
    | @single c hc =>
      have mark : (Word.operator (String.ofList [c])).mark? = some c := by
        simp only [Word.mark?, String.toList_ofList]
      exact leads_settled_mark mark hc hl ht ha
    | @pair c d pair =>
      rw [settled_pair]
      exact leads_pair pair _
  | colon => exact fun _ _ _ _ _ => writes_colon _
  | comma => exact fun _ _ _ _ _ => writes_comma _
  | openAngle => exact leads_settled_mark rfl (by decide) hl ht ha
  | closeAngle => exact leads_settled_mark rfl (by decide) hl ht ha

theorem endsValue_settled (k : Kind) : endsValue (settled k) = endsValue k := by
  cases k with
  | word w =>
    cases w with
    | operator text =>
      simp only [settled, Word.settled]
      split
      · rfl
      · split <;> rfl
    | _ => rfl
  | _ => rfl

/-- Tokens that stand apart are read back from their text. -/
theorem writes_apart (hl : Lexed s.previous opened ks opened')
    (ht : ∀ k ∈ ks, TokenKind.isText k = true) (hf : ∀ f, .word (.float f) ∈ ks → FloatReadsBack f)
    (ha : apart s ks = true) {blocks : Indentation} {previous : Option Kind}
    {rest : List Char} (hp : previous.any endsValue = s.previous.any endsValue)
    (hr : EndsItem rest) :
    ∃ last, Writes readWord ⟨.inside, blocks, opened, previous⟩ (spelledText s ks) rest
      (ks.map settled) ⟨.inside, blocks, opened', last⟩ := by
  induction ks generalizing s opened previous with
  | nil =>
    cases hl
    exact ⟨previous, .refl _ rest⟩
  | cons k ks ih =>
    have text := forall_mem_cons.mp ht
    have floats : ∀ f, .word (.float f) ∈ ks → FloatReadsBack f :=
      fun f hm => hf f (mem_cons_of_mem _ hm)
    have apart := (apart_cons ha).2
    -- The token by itself, and then the others behind it.
    have first : ∀ {middle}, Lexed (some k) middle ks opened' →
        Leads (s.previous.any endsValue) opened (tokenText k).toList (spelledText (s.after k) ks)
          (settled k) middle →
        ∃ last, Writes readWord ⟨.inside, blocks, opened, previous⟩ (spelledText s (k :: ks)) rest
          ((k :: ks).map settled) ⟨.inside, blocks, opened', last⟩ := by
      intro middle hl lead
      obtain ⟨last, others⟩ : ∃ last, Writes readWord ⟨.inside, blocks, middle, some (settled k)⟩ _
          rest _ ⟨.inside, blocks, opened', last⟩ :=
        ih (s := s.after k) hl text.2 floats apart (endsValue_settled k)
      have both := (lead blocks previous rest hp hr).trans others
      rw [spelledText_cons]
      rcases s.gap_cases k with gap | ⟨gap, _⟩
      · rw [gap]
        exact ⟨last, (writes_blank _ (.inl rfl)).trans both⟩
      · rw [gap]
        exact ⟨last, both⟩
    cases hl with
    | @word _ _ w _ _ fits hl =>
      refine first hl (leads_settled fits ?_ hl text.2 apart)
      rintro f rfl
      exact hf f mem_cons_self
    | @opening _ _ b _ _ hl =>
      refine first hl ?_
      rw [tokenText_opening]
      exact fun _ _ _ _ _ => writes_opening b _
    | @closing _ _ b _ _ hl =>
      refine first hl ?_
      rw [tokenText_closing]
      exact fun _ _ _ _ _ => writes_closing b _
    | newline => cases text.1
    | layout hk => rcases hk with rfl | rfl | rfl <;> cases text.1

theorem settled_cases (k : Kind) :
    settled k = k ∨ k = .word (.operator "<") ∧ settled k = .word .openAngle ∨
      k = .word (.operator ">") ∧ settled k = .word .closeAngle := by
  cases k with
  | word w =>
    cases w with
    | operator text =>
      simp only [settled, Word.settled]
      split
      next less => exact .inr (.inl ⟨by rw [less], rfl⟩)
      next =>
        split
        next greater => exact .inr (.inr ⟨by rw [greater], rfl⟩)
        next => exact .inl rfl
    | _ => exact .inl rfl
  | _ => exact .inl rfl

/-- The spacing behind a token that is read as an angle. -/
def Spacing.settled (s : Spacing) : Spacing := { s with previous := s.previous.map Markup.settled }

theorem Spacing.settled_after (s : Spacing) (k : Kind) :
    s.settled.after (Markup.settled k) = (s.after k).settled := by
  have value : (s.previous.map Markup.settled).any endsValue = s.previous.any endsValue := by
    cases s.previous with
    | none => rfl
    | some before => exact endsValue_settled before
  rcases settled_cases k with same | ⟨rfl, _⟩ | ⟨rfl, _⟩
  · simp only [Spacing.settled, Spacing.after, value, same, Option.map_some]
  · rfl
  · rfl

theorem tokenText_settled (k : Kind) : tokenText (settled k) = tokenText k := by
  rcases settled_cases k with same | ⟨rfl, _⟩ | ⟨rfl, _⟩
  · rw [same]
  · rfl
  · rfl

theorem Spacing.isTight_settled (s : Spacing) (before k : Kind) :
    s.isTight (Markup.settled before) (Markup.settled k) = s.isTight before k := by
  have first : s.isTight (Markup.settled before) k = s.isTight before k := by
    rcases settled_cases before with same | ⟨rfl, same⟩ | ⟨rfl, same⟩
    · rw [same]
    · rw [same]
      simp [Spacing.isTight, Spacing.isKeywordArgument, isOperator, endsValue, Word.endsValue]
    · rw [same]
      simp [Spacing.isTight, Spacing.isKeywordArgument, isOperator, endsValue, Word.endsValue]
  have second : s.isTight (Markup.settled before) (Markup.settled k) =
      s.isTight (Markup.settled before) k := by
    rcases settled_cases k with same | ⟨rfl, same⟩ | ⟨rfl, same⟩
    · rw [same]
    · rw [same]
      simp [Spacing.isTight, Spacing.isKeywordArgument, isOperator]
    · rw [same]
      simp [Spacing.isTight, Spacing.isKeywordArgument, isOperator]
  rw [second, first]

theorem Spacing.gap_settled (s : Spacing) (k : Kind) :
    s.settled.gap (Markup.settled k) = s.gap k := by
  have tight : ∀ before, s.settled.isTight (Markup.settled before) (Markup.settled k) =
      s.isTight before k := s.isTight_settled (k := k)
  unfold Spacing.gap
  cases hs : s.previous with
  | none => simp [Spacing.settled, hs]
  | some before => simp [Spacing.settled, hs, ← tight before]

theorem spelledText_settled (s : Spacing) (ks : List Kind) :
    spelledText s.settled (ks.map settled) = spelledText s ks := by
  induction ks generalizing s with
  | nil => rfl
  | cons k ks ih =>
    rw [map_cons, spelledText_cons, spelledText_cons, s.gap_settled, tokenText_settled,
      s.settled_after, ih]

def isAngle (k : Kind) : Prop := k = .word .openAngle ∨ k = .word .closeAngle

mutual

theorem Phrase.not_angle {ks : List Kind} {v : Literal} (h : Phrase ks v) :
    ∀ k ∈ ks, ¬isAngle k := by
  cases h with
  | string | integer | float | formatString | name | unit => simp [isAngle]
  | call callee hs => simpa [isAngle] using hs.not_angle
  | list hs => simpa [isAngle] using hs.not_angle
  | group hv =>
    have inner := hv.not_angle
    simp only [forall_mem_cons, forall_mem_append]
    exact ⟨by simp [isAngle], inner, by simp [isAngle], by simp⟩
  | tuple hv hs =>
    have inner := hv.not_angle
    have others := hs.not_angle
    simp only [forall_mem_cons, forall_mem_append]
    exact ⟨by simp [isAngle], inner, by simp [isAngle], others⟩
termination_by ks.length
decreasing_by all_goals simp only [length_cons, length_append]; omega

theorem Phrases.not_angle {b : Bracket} {ks : List Kind} {vs : List Literal}
    (h : Phrases b ks vs) : ∀ k ∈ ks, ¬isAngle k := by
  cases h with
  | close => simp [isAngle]
  | last hv =>
    have inner := hv.not_angle
    simp only [forall_mem_cons, forall_mem_append]
    exact ⟨inner, by simp [isAngle], by simp⟩
  | more hv hs =>
    have inner := hv.not_angle
    have others := hs.not_angle
    simp only [forall_mem_cons, forall_mem_append]
    exact ⟨inner, by simp [isAngle], others⟩
termination_by ks.length
decreasing_by all_goals simp only [length_cons, length_append]; omega

end

theorem not_phrase_settled (h : ∀ v, ¬Phrase ks v) (v : Literal) : ¬Phrase (ks.map settled) v := by
  intro phrase
  have plain := phrase.not_angle
  have same : ks.map settled = ks := by
    refine (List.map_congr_left fun k hk => ?_).trans (List.map_id ks)
    have other := plain _ (List.mem_map_of_mem hk)
    rcases settled_cases k with same | ⟨_, same⟩ | ⟨_, same⟩
    · exact same
    · exact absurd (.inl same) other
    · exact absurd (.inr same) other
  rw [same] at phrase
  exact h v phrase

theorem passage_settled (depth : Nat) (ks : List Kind) :
    passage depth (ks.map settled) = passage depth ks := by
  induction ks generalizing depth with
  | nil => rfl
  | cons k ks ih =>
    rw [List.map_cons]
    rcases settled_cases k with same | ⟨rfl, same⟩ | ⟨rfl, same⟩
    · rw [same]
      exact passage_cons_congr ih k depth
    · rw [same, passage_word (by simp), passage_word (by simp), ih]
    · rw [same, passage_word (by simp), passage_word (by simp), ih]

theorem isExpressionToken_settled (k : Kind) :
    isExpressionToken (settled k) = isExpressionToken k := by
  rcases settled_cases k with same | ⟨rfl, _⟩ | ⟨rfl, _⟩
  · rw [same]
  · rfl
  · rfl

theorem isText_settled (k : Kind) : (settled k).isText = k.isText := by
  cases k <;> rfl

/-- An expression whose tokens stand apart is read back from its text. -/
theorem IsExpression.readText_apart (h : IsExpression ks)
    (hf : ∀ f, .word (.float f) ∈ ks → FloatReadsBack f) (ha : apart {} ks = true) :
    readText (expressionText {} (bare ks)) = some (.expression (expressionText {} (bare ks))) := by
  obtain ⟨hl, ht⟩ := h.lexed_none
  have filled : ks ≠ [] := by
    rintro rfl
    cases h.expression
  have passed : Markup.passage 0 (ks.map settled) = some 0 := by rw [passage_settled, h.passage]
  have text : ∀ k ∈ ks.map settled, TokenKind.isText k = true := by
    rw [List.forall_mem_map]
    intro k hk
    rw [isText_settled, ht k hk]
  have expression : (ks.map settled).any isExpressionToken = true := by
    rw [List.any_map, ← h.expression]
    congr 1
    exact funext isExpressionToken_settled
  have reads : ItemReads (expressionText {} (bare ks)) (ks.map settled) := by
    refine ⟨spelledText_starts hl ht filled, ⟨by simpa using filled, passed⟩, text, ?_⟩
    intro blocks previous rest hp hr
    refine writes_apart (s := {}) hl ht hf ha hp fun c hc => ?_
    rcases hr c hc with rfl | rfl <;> decide
  have same : expressionText {} (bare (ks.map settled)) = expressionText {} (bare ks) := by
    have chars : spelledText {} (ks.map settled) = spelledText {} ks := spelledText_settled {} ks
    exact String.toList_inj.mp chars
  rw [readText, reads.textKinds_eq, readItem_expression passed (not_phrase_settled h.other) expression,
    same]

end ViewBridge.Markup
