import ViewBridge.Proofs.Markup.Accepted

namespace ViewBridge.Markup

open Scanner

variable {previous : Option Kind} {k : Kind} {afterValue : Bool}

def Word.isOperand : Word → Bool
  | .identifier _ | .integer _ | .float _ | .string _ | .formatString _ => true
  | _ => false

/-- Whether a character can only be the start of a string or of its letters. -/
def startsFixed (c : Char) : Bool := c == '\'' || Text.isNameStart c

/-- How the text of a word is made up, by the ways in which it can be read. -/
inductive Spelled (afterValue : Bool) : Word → List Char → Prop
  | name {w cs} : w.isOperand = true → IsName cs →
      w.endsValue = (Word.identifier (String.ofList cs)).endsValue → Spelled afterValue w cs
  | dotted {text} : IsDotted text.toList → afterValue = true →
      Spelled afterValue (.identifier text) text.toList
  | numeral {w v cs} : w.isOperand = true → w.endsValue = true → Numeral cs v →
      (cs.head? = some '-' → afterValue = false) → Spelled afterValue w cs
  | minusName {f} : Spelled afterValue (.float f) ('-' :: "inf".toList)
  | fixed {w cs} : w.isOperand = true → w.endsValue = true →
      (∃ c more, cs = c :: more ∧ startsFixed c = true) →
      (∀ blocks opened previous rest, Writes readWord ⟨.inside, blocks, opened, previous⟩ cs rest
        [.word w] ⟨.inside, blocks, opened, some (.word w)⟩) → Spelled afterValue w cs
  | mark {w c} : w = angleWord c ∨ w = .operator c.toString → IsMark c → Spelled afterValue w [c]
  | pair {c d} : isPair c d = true → Spelled afterValue (.operator (String.ofList [c, d])) [c, d]
  | colon : Spelled afterValue .colon [':']
  | comma : Spelled afterValue .comma [',']

theorem minus_integer {i : Int64} (h : (toString i.toInt).toList.head? = some '-') :
    i.toInt < 0 := by
  rw [Decimal.toList_toString_toInt] at h
  split at h
  next negative => exact negative
  next =>
    obtain ⟨d, ds, eq, digit⟩ := (Decimal.isDigits_toDigits i.toInt.natAbs).exists_cons
    rw [eq] at h
    cases h
    cases digit

theorem minus_float {f : Float} (h : (Literal.floatText f).toList.head? = some '-') :
    ¬Decimal.SignClear f := by
  intro clear
  rw [Literal.floatText] at h
  by_cases hf : Decimal.IsFinite f
  · obtain ⟨number, ⟨whole, fraction, hw, _, rfl⟩, eq⟩ := Decimal.pointed_write_finite hf
    obtain ⟨d, ds, rfl, digit⟩ := hw.exists_cons
    rw [eq, Decimal.signOf_eq_nil clear] at h
    cases h
    cases digit
  · rcases Decimal.pointed_write_infinite hf with eq | eq
    · rw [eq] at h
      cases h
    · rw [eq, Decimal.signOf_eq_nil clear] at h
      cases h

theorem spelled_float {f : Float} (h : ¬Decimal.SignClear f → afterValue = false) :
    Spelled afterValue (.float f) (Literal.floatText f).toList := by
  by_cases hf : Decimal.IsFinite f
  · obtain ⟨number, hn, eq⟩ := Decimal.pointed_write_finite hf
    obtain ⟨g, _, numeral⟩ := numeral_float (Decimal.isSign_signOf f) hn
    rw [← eq] at numeral
    exact .numeral rfl rfl numeral fun minus => h (minus_float minus)
  · rcases Decimal.pointed_write_infinite hf with eq | eq
    · have value : (Word.identifier (String.ofList "NaN".toList)).endsValue = true := by decide
      rw [Literal.floatText, eq]
      exact .name rfl (by decide) value.symm
    · have value : (Word.identifier (String.ofList "inf".toList)).endsValue = true := by decide
      rw [Literal.floatText, eq]
      rcases Decimal.isSign_signOf f with hs | hs
      · rw [hs]
        exact .name rfl (by decide) value.symm
      · rw [hs]
        exact .minusName

theorem spelled_word {w : Word} (h : w.Fits previous) :
    Spelled (previous.any endsValue) w (tokenText (.word w)).toList := by
  cases w with
  | identifier text =>
    rcases h with h | ⟨h, hv⟩
    · exact .name rfl h (by rw [tokenText, String.ofList_toList])
    · exact .dotted h hv
  | integer i => exact .numeral rfl rfl (numeral_integer i) fun minus => h (minus_integer minus)
  | float f => exact spelled_float h
  | string text =>
    exact .fixed rfl rfl ⟨'\'', _, toList_quote text, rfl⟩ fun _ _ _ rest => writes_string text rest
  | formatString text =>
    refine .fixed rfl rfl ?_ fun blocks opened previous rest => ?_
    · obtain ⟨marks, quote, body, eq, parts⟩ := h
      obtain ⟨c, more, rfl, hc, _⟩ := parts.name
      exact ⟨c, more ++ quote :: body, eq, by simp [startsFixed, hc]⟩
    · have string : Writes readWord ⟨.inside, blocks, opened, previous⟩ text.toList rest _ _ :=
        writes_formatString h rest
      rwa [String.ofList_toList] at string
  | operator text =>
    have operator : IsOperator text.toList := h
    rw [tokenText]
    generalize eq : text.toList = cs at operator
    obtain rfl : text = String.ofList cs := by rw [← eq, String.ofList_toList]
    cases operator with
    | single hc => exact .mark (.inr rfl) hc
    | pair hp => exact .pair hp
  | colon => exact .colon
  | comma => exact .comma
  | openAngle => exact .mark (.inl rfl) (.inl rfl)
  | closeAngle => exact .mark (.inl rfl) (.inr (.inl rfl))

theorem Spelled.starts {w : Word} {cs : List Char} (h : Spelled afterValue w cs) :
    ∃ c more, cs = c :: more ∧ isLayoutChar c = false := by
  cases h with
  | name _ name => exact name.starts
  | dotted dotted =>
    obtain ⟨name, _, eq⟩ := dotted
    exact ⟨'.', name, eq, rfl⟩
  | numeral _ _ numeral => exact numeral.starts
  | minusName => exact ⟨'-', _, rfl, rfl⟩
  | fixed _ _ starts =>
    obtain ⟨c, more, rfl, hc⟩ := starts
    exact ⟨c, more, rfl, (startsWord_of_class hc (by decide)).layout⟩
  | @mark _ c _ hc => exact ⟨c, [], rfl, (startsWord_of_mark hc).layout⟩
  | @pair c d hp => exact ⟨c, [d], rfl, (startsWord_of_mark (isPair_first hp)).layout⟩
  | colon => exact ⟨':', [], rfl, rfl⟩
  | comma => exact ⟨',', [], rfl, rfl⟩

theorem tokenText_opening (b : Bracket) :
    (tokenText (.opening b)).toList = [b.openChar] := by
  simp [tokenText]

theorem tokenText_closing (b : Bracket) :
    (tokenText (.closing b)).toList = [b.closeChar] := by
  simp [tokenText]

theorem Lexed.starts {opened opened' : List Bracket} {ks : List Kind}
    (h : Lexed previous opened (k :: ks) opened') (hk : k.isText = true) :
    ∃ c more, (tokenText k).toList = c :: more ∧ isLayoutChar c = false := by
  cases h with
  | word fits _ => exact (spelled_word fits).starts
  | @opening _ _ b => exact ⟨b.openChar, [], tokenText_opening b, by cases b <;> rfl⟩
  | @closing _ _ b => exact ⟨b.closeChar, [], tokenText_closing b, by cases b <;> rfl⟩
  | newline => cases hk
  | layout kind => rcases kind with rfl | rfl | rfl <;> cases hk

def spelledText (s : Spacing) (ks : List Kind) : List Char :=
  (expressionText s (bare ks)).toList

/-- What stands between a token and the one before it. -/
def Spacing.gap (s : Spacing) (k : Kind) : List Char :=
  if s.previous.all (s.isTight · k) then [] else [' ']

theorem Spacing.gap_cases (s : Spacing) (k : Kind) :
    s.gap k = [' '] ∨ s.gap k = [] ∧ ∀ before ∈ s.previous, s.isTight before k = true := by
  unfold gap
  split
  next h =>
    refine .inr ⟨rfl, fun before hb => ?_⟩
    simpa [Option.mem_def.mp hb] using h
  next => exact .inl rfl

theorem spelledText_cons (s : Spacing) (k : Kind) (ks : List Kind) :
    spelledText s (k :: ks) =
      s.gap k ++ ((tokenText k).toList ++ spelledText (s.after k) ks) := by
  simp only [spelledText, bare_cons, expressionText, String.toList_append, List.append_assoc]
  congr 1
  unfold Spacing.gap
  cases s.previous with
  | none => rfl
  | some before =>
    simp only [Option.all_some]
    split <;> rfl

/-- The tokens that stand directly behind an operand. -/
def attaches : Kind → Bool
  | .closing _ | .word .comma | .word .colon | .opening .round | .opening .square => true
  | .word (.identifier text) => text.toList.head? == some '.'
  | .word (.operator text) => text == ";" || text == "="
  | _ => false

theorem isOperator_operand {w : Word} (hw : w.isOperand = true) (texts : List String) :
    isOperator texts (.word w) = false := by
  cases w with
  | operator => cases hw
  | _ => rfl

theorem attaches_of_isTight {s : Spacing} {w : Word} (hw : isOperator ["="] (.word w) = false)
    (hu : s.afterUnary = false) (h : s.isTight (.word w) k = true) : attaches k = true := by
  have before : s.isKeywordArgument (.word w) = false := by
    simp [Spacing.isKeywordArgument, hw]
  simp only [Spacing.isTight, hu, before, Bool.false_or, Bool.or_false] at h
  cases k with
  | word w =>
    cases w with
    | comma | colon => rfl
    | identifier text => simpa [Spacing.isKeywordArgument, isOperator, attaches] using h
    | operator text =>
      simp only [Spacing.isKeywordArgument, isOperator, Bool.or_eq_true, Bool.and_eq_true] at h
      rcases h with h | ⟨_, h⟩
      · simp [attaches, h]
      · simp [attaches, show text = "=" by simpa using h]
    | _ => simp [Spacing.isKeywordArgument, isOperator] at h
  | closing b => rfl
  | opening b =>
    cases b with
    | round | square => rfl
    | curly => simp [Spacing.isKeywordArgument, isOperator] at h
  | _ => simp [Spacing.isKeywordArgument, isOperator] at h

/-- Characters that end both a name and a number. -/
def endingChars : List Char := [' ', '\n', ')', ']', '\x7d', ',', ':', '(', '[', ';', '=']

theorem ends_of_head {c : Char} (hc : c ∈ endingChars) (rest : List Char) :
    EndsName (c :: rest) ∧ EndsNumber (c :: rest) := by
  have other : ∀ c ∈ endingChars, isIdentifierPart c = false ∧ c ≠ '\'' ∧ c ≠ '"' ∧
      Text.isDigit c = false ∧ Text.isNameStart c = false ∧ c ≠ '.' := by
    decide
  obtain ⟨part, single, double, digit, start, point⟩ := other c hc
  refine ⟨?_, ?_, ?_⟩
  · rintro d ⟨⟩
    exact ⟨part, single, double⟩
  · rintro d ⟨⟩
    exact ⟨digit, start⟩
  · intro d _ eq
    cases eq
    exact absurd rfl point

theorem head_of_attaches (h : attaches k = true) :
    (∃ text, k = .word (.identifier text) ∧ text.toList.head? = some '.') ∨
      ∃ c more, (tokenText k).toList = c :: more ∧ c ∈ endingChars := by
  cases k with
  | word w =>
    cases w with
    | comma => exact .inr ⟨',', [], rfl, by decide⟩
    | colon => exact .inr ⟨':', [], rfl, by decide⟩
    | identifier text => exact .inl ⟨text, rfl, by simpa [attaches] using h⟩
    | operator text =>
      simp only [attaches, Bool.or_eq_true, beq_iff_eq] at h
      rcases h with rfl | rfl
      · exact .inr ⟨';', [], rfl, by decide⟩
      · exact .inr ⟨'=', [], rfl, by decide⟩
    | _ => cases h
  | closing b => exact .inr ⟨b.closeChar, [], tokenText_closing b, by cases b <;> decide⟩
  | opening b =>
    refine .inr ⟨b.openChar, [], tokenText_opening b, ?_⟩
    cases b with
    | round | square => decide
    | curly => cases h
  | _ => cases h

theorem isDotted_of_fits {text : String} (h : Word.Fits previous (.identifier text))
    (hd : text.toList.head? = some '.') : IsDotted text.toList := by
  rcases h with ⟨c, more, eq, hc, _⟩ | ⟨h, _⟩
  · rw [eq] at hd
    cases hd
    cases hc
  · exact h

theorem IsDotted.endsNumber {cs : List Char} (h : IsDotted cs) (rest : List Char) :
    EndsNumber (cs ++ rest) := by
  obtain ⟨_, ⟨c, more, rfl, hc, _⟩, rfl⟩ := h
  refine ⟨?_, ?_⟩
  · rintro d ⟨⟩
    decide
  · rintro d ⟨⟩ _
    exact isDigit_of_isNameStart hc

section Operand

variable {s : Spacing} {w : Word} {ks : List Kind} {opened opened' : List Bracket}

/-- What follows an operand: either a dotted name directly behind it, or a text that ends it. -/
theorem ends_operand (hw : w.isOperand = true) (hs : s.previous = some (.word w))
    (hu : s.afterUnary = false) (hl : Lexed s.previous opened ks opened') :
    (∃ text more, ks = .word (.identifier text) :: more ∧ IsDotted text.toList ∧
      s.gap (.word (.identifier text)) = []) ∨
      ∀ rest, EndsItem rest →
        EndsName (spelledText s ks ++ rest) ∧ EndsNumber (spelledText s ks ++ rest) := by
  cases ks with
  | nil => exact .inr fun rest hr => ⟨hr.endsName, hr.endsNumber⟩
  | cons k ks =>
    rw [spelledText_cons]
    rcases s.gap_cases k with gap | ⟨gap, tight⟩
    · rw [gap]
      exact .inr fun rest _ => ends_of_head (by decide) _
    · have attached := attaches_of_isTight (isOperator_operand hw _) hu (tight _ hs)
      rcases head_of_attaches attached with ⟨text, rfl, head⟩ | ⟨c, more, eq, hc⟩
      · exact .inl ⟨text, ks, rfl, isDotted_of_fits hl.word_fits.1 head, gap⟩
      · refine .inr fun rest _ => ?_
        rw [gap, eq]
        exact ends_of_head hc _

theorem endsNumber_operand (hw : w.isOperand = true) (hs : s.previous = some (.word w))
    (hu : s.afterUnary = false) (hl : Lexed s.previous opened ks opened') {rest : List Char}
    (hr : EndsItem rest) : EndsNumber (spelledText s ks ++ rest) := by
  rcases ends_operand hw hs hu hl with ⟨text, more, rfl, dotted, gap⟩ | ends
  · rw [spelledText_cons, gap, List.nil_append, List.append_assoc]
    exact dotted.endsNumber _
  · exact (ends rest hr).2

end Operand

end ViewBridge.Markup
