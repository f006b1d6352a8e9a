import ViewBridge.View.Interpolation

namespace ViewBridge.View

open List

/-- What may follow the expression of a replacement field. -/
inductive FieldDetail where
  | none
  | format (spec : List Char)
  | conversion (mark : List Char)

def FieldDetail.written : FieldDetail → List Char
  | none => []
  | format spec => ':' :: spec
  | conversion mark => '!' :: mark

/-- A part of the text between the quotes of a format string. -/
inductive Segment where
  | char (c : Char)
  | openBrace
  | closeBrace
  | escape (c : Char)
  | field (expression : List Char) (detail : FieldDetail)

namespace Segment

def written : Segment → List Char
  | char c => [c]
  | openBrace => ['\x7b', '\x7b']
  | closeBrace => ['\x7d', '\x7d']
  | escape c => ['\\', c]
  | field expression detail => '\x7b' :: (expression ++ detail.written ++ ['\x7d'])

/-- The segment in the generated language, where nothing is left of the detail of a field. -/
def translated : Segment → List Char
  | char c => if c = '"' then ['\\', '"'] else [c]
  | openBrace => ['\x7b']
  | closeBrace => ['\x7d']
  | escape c => ['\\', c]
  | field expression _ => '\\' :: '(' :: (Text.trimEnd (Text.trimStart expression) ++ [')'])

end Segment

/-- A character that stands for itself between these quotes. -/
def IsPlainChar (quote c : Char) : Prop := c ≠ quote ∧ c ≠ '\\' ∧ c ≠ '\x7b' ∧ c ≠ '\x7d'

/-- Whether a segment can be written between these quotes. -/
def Segment.Fits (quote : Char) : Segment → Prop
  | char c => IsPlainChar quote c
  | openBrace | closeBrace | escape _ => True
  | field expression detail =>
    (∀ c ∈ expression ++ detail.written, IsPlainChar quote c) ∧ ∀ c ∈ expression, c ≠ ':' ∧ c ≠ '!'

instance (quote : Char) : DecidablePred (IsPlainChar quote) := fun _ =>
  inferInstanceAs (Decidable (_ ∧ _))

instance (quote : Char) : DecidablePred (Segment.Fits quote)
  | .char _ => inferInstanceAs (Decidable (IsPlainChar _ _))
  | .openBrace | .closeBrace | .escape _ => .isTrue trivial
  | .field _ _ => inferInstanceAs (Decidable (_ ∧ _))

variable {quote c : Char} {text rest : List Char}

theorem closesEarly_cons (h : c ≠ '\\') :
    closesEarly quote (c :: rest) = (c == quote || closesEarly quote rest) := by
  rw [closesEarly.eq_4]
  · exact fun slash => absurd slash h
  · exact fun _ _ slash => absurd slash h

theorem closesEarly_written (hq : quote = '\'' ∨ quote = '"') {s : Segment} (h : s.Fits quote) :
    closesEarly quote (s.written ++ rest) = closesEarly quote rest := by
  have pass {c : Char} {rest : List Char} (other : c ≠ quote) (slash : c ≠ '\\') :
      closesEarly quote (c :: rest) = closesEarly quote rest := by
    rw [closesEarly_cons slash, beq_eq_false_iff_ne.mpr other, Bool.false_or]
  have opening : '\x7b' ≠ quote := by rcases hq with rfl | rfl <;> decide
  have closing : '\x7d' ≠ quote := by rcases hq with rfl | rfl <;> decide
  have plain : ∀ text : List Char, (∀ c ∈ text, IsPlainChar quote c) → ∀ rest,
      closesEarly quote (text ++ rest) = closesEarly quote rest := by
    intro text ht rest
    induction text with
    | nil => rfl
    | cons c text ih =>
      obtain ⟨⟨other, slash, _⟩, ht⟩ := forall_mem_cons.mp ht
      rw [cons_append, pass other slash, ih ht]
  cases s with
  | char c => exact pass h.1 h.2.1
  | openBrace => exact (pass opening (by decide)).trans (pass opening (by decide))
  | closeBrace => exact (pass closing (by decide)).trans (pass closing (by decide))
  | escape c => rfl
  | field expression detail =>
    rw [Segment.written, cons_append, append_assoc, pass opening (by decide),
      plain _ h.1, singleton_append, pass closing (by decide)]

theorem interpolate_field (h : ∀ c ∈ text, c ≠ '\x7d') (read : List Char) :
    interpolate (some read) (text ++ '\x7d' :: rest) =
      '\\' :: '(' :: fieldExpression (read.reverse ++ text) ++ ')' :: interpolate none rest := by
  induction text generalizing read with
  | nil => rw [nil_append, interpolate, if_pos rfl, append_nil]
  | cons c text ih =>
    obtain ⟨hc, others⟩ := forall_mem_cons.mp h
    rw [cons_append, interpolate, if_neg hc, ih others]
    simp

theorem fieldExpression_detail {expression : List Char} (detail : FieldDetail)
    (h : ∀ c ∈ expression, c ≠ ':' ∧ c ≠ '!') :
    fieldExpression (expression ++ detail.written) =
      Text.trimEnd (Text.trimStart expression) := by
  have own : ∀ c ∈ expression, (decide (c ≠ ':') && decide (c ≠ '!')) = true := by simpa using h
  unfold fieldExpression
  rw [takeWhile_append_of_pos own]
  cases detail <;> simp [FieldDetail.written]

theorem interpolate_written {s : Segment} (h : s.Fits quote) :
    interpolate none (s.written ++ rest) = s.translated ++ interpolate none rest := by
  cases s with
  | char c =>
    obtain ⟨_, slash, opening, closing⟩ := h
    rw [Segment.written, Segment.translated, singleton_append]
    cases rest with
    | nil => by_cases hc : c = '"' <;> simp [interpolate, hc, opening]
    | cons next after =>
      by_cases hc : c = '"' <;> simp [interpolate, hc, opening, closing, slash]
  | openBrace => simp [Segment.written, Segment.translated, interpolate]
  | closeBrace => simp [Segment.written, Segment.translated, interpolate]
  | escape c => simp [Segment.written, Segment.translated, interpolate]
  | field expression detail =>
    obtain ⟨plain, own⟩ := h
    have closing : ∀ c ∈ expression ++ detail.written, c ≠ '\x7d' :=
      fun c hc => (plain c hc).2.2.2
    have enter : interpolate none ('\x7b' :: (expression ++ detail.written ++ '\x7d' :: rest)) =
        interpolate (some []) (expression ++ detail.written ++ '\x7d' :: rest) := by
      cases ht : expression ++ detail.written with
      | nil => simp [interpolate]
      | cons c text =>
        have opening : c ≠ '\x7b' := (plain c (by rw [ht]; exact mem_cons_self)).2.2.1
        simp [interpolate, opening]
    rw [Segment.written, cons_append, append_assoc, singleton_append, enter,
      interpolate_field closing, reverse_nil, nil_append,
      fieldExpression_detail detail own, Segment.translated]
    simp

/-- A format string is translated segment by segment. -/
theorem interpolation_segments {mark : Char} (hm : mark = 'f' ∨ mark = 'F')
    (hq : quote = '\'' ∨ quote = '"') (segments : List Segment)
    (fits : ∀ s ∈ segments, s.Fits quote) :
    interpolation? (String.ofList
        (mark :: quote :: (segments.flatMap Segment.written ++ [quote]))) =
      some (String.ofList ('"' :: (segments.flatMap Segment.translated ++ ['"']))) := by
  have inner : closesEarly quote (segments.flatMap Segment.written) = false ∧
      interpolate none (segments.flatMap Segment.written) =
        segments.flatMap Segment.translated := by
    induction segments with
    | nil => exact ⟨rfl, rfl⟩
    | cons s segments ih =>
      obtain ⟨hs, fits⟩ := forall_mem_cons.mp fits
      obtain ⟨inside, translated⟩ := ih fits
      rw [flatMap_cons, flatMap_cons, closesEarly_written hq hs,
        interpolate_written hs, translated]
      exact ⟨inside, rfl⟩
  have quotes : betweenQuotes? (quote :: (segments.flatMap Segment.written ++ [quote])) =
      some (quote, segments.flatMap Segment.written) := by
    simp [betweenQuotes?, hq]
  unfold interpolation?
  rw [String.toList_ofList]
  dsimp only
  rw [if_pos hm, quotes]
  dsimp only
  rw [inner.1, inner.2, if_neg Bool.false_ne_true]
  simp [← String.toList_inj]

/-- A field between escaped braces, behind it an escaped quote, a quote of the other kind and a field
with blanks and a format. -/
theorem interpolation_segments_greeting :
    let segments : List Segment := [.openBrace, .field ['w', 'h', 'o'] (.conversion ['r']),
      .closeBrace, .escape '\'', .char '"', .field [' ', 'n', ' '] (.format ['>', '4'])]
    (∀ s ∈ segments, s.Fits '\'') ∧
      interpolation? "f'\x7b\x7b\x7bwho!r\x7d\x7d\x7d\\'\"\x7b n :>4\x7d'" =
        some "\"\x7b\\(who)\x7d\\'\\\"\\(n)\"" := by
  intro segments
  have fits : ∀ s ∈ segments, s.Fits '\'' := by decide
  exact ⟨fits, interpolation_segments (.inl rfl) (.inl rfl) segments fits⟩

end ViewBridge.View
