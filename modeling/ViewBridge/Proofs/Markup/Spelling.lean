import ViewBridge.Literal.Spelling
import ViewBridge.Proofs.Characters
import ViewBridge.Proofs.Markup.Reading
import ViewBridge.Proofs.Source.Writing

namespace ViewBridge.Markup

open Scanner List

variable {c d : Char} {cs rest more number : List Char}

theorem isIdentifierPart_of_isNameStart (h : Text.isNameStart c = true) :
    isIdentifierPart c = true := by
  simp [isIdentifierPart, Text.isNamePart_of_isNameStart h]

/-- The characters of a name: a letter or an underscore, then letters, numbers, underscores and
dots. -/
def IsName (cs : List Char) : Prop :=
  ∃ c more, cs = c :: more ∧ Text.isNameStart c = true ∧ ∀ d ∈ more, isIdentifierPart d = true

/-- A name behind a dot. -/
def IsDotted (cs : List Char) : Prop := ∃ name, IsName name ∧ cs = '.' :: name

/-- A text that cannot continue a name and does not make one the mark of a string. -/
def EndsName (rest : List Char) : Prop :=
  ∀ c ∈ rest.head?, isIdentifierPart c = false ∧ c ≠ '\'' ∧ c ≠ '"'

theorem readIdentifier_name (hm : ∀ d ∈ more, isIdentifierPart d = true) (hr : EndsName rest) :
    readIdentifier c (more ++ rest) =
      .ok (.word (.identifier (String.ofList (c :: more))) more.length) := by
  obtain ⟨taken, dropped⟩ := takeWhile_boundary hm fun d hd => (hr d hd).1
  unfold readIdentifier
  simp only [taken, dropped]
  cases rest with
  | nil => rfl
  | cons d rest =>
    obtain ⟨_, single, double⟩ := hr d (by simp)
    simp [single, double]

theorem readWord_name {previous : Option Kind} (hc : Text.isNameStart c = true) :
    readWord previous c cs = readIdentifier c cs := by
  have digit := isDigit_of_isNameStart hc
  have single : c ≠ '\'' := ne_of_class hc (by decide)
  have double : c ≠ '"' := ne_of_class hc (by decide)
  have minus : c ≠ '-' := ne_of_class hc (by decide)
  have point : c ≠ '.' := ne_of_class hc (by decide)
  simp [readWord, single, double, minus, point, digit, hc]

variable {blocks : Indentation} {opened : List Bracket} {previous : Option Kind}

theorem writes_name (h : IsName cs) (hr : EndsName rest) :
    Writes readWord ⟨.inside, blocks, opened, previous⟩ cs rest
      [.word (.identifier (String.ofList cs))]
      ⟨.inside, blocks, opened, some (.word (.identifier (String.ofList cs)))⟩ := by
  obtain ⟨c, more, rfl, hc, hm⟩ := h
  refine writes_word (startsWord_of_isNameStart hc) ?_
  rw [readWord_name hc, readIdentifier_name hm hr]

theorem writes_dotted (h : IsDotted cs) (hr : EndsName rest) (hp : previous.any endsValue = true) :
    Writes readWord ⟨.inside, blocks, opened, previous⟩ cs rest
      [.word (.identifier (String.ofList cs))]
      ⟨.inside, blocks, opened, some (.word (.identifier (String.ofList cs)))⟩ := by
  obtain ⟨_, ⟨c, more, rfl, hc, hm⟩, rfl⟩ := h
  refine writes_word (startsWord_of_class (p := (· == '.')) rfl (by decide)) ?_
  have digit := isDigit_of_isNameStart hc
  have read : readWord previous '.' (c :: more ++ rest) = readIdentifier '.' (c :: more ++ rest) := by
    have nodigit : Text.isDigit '.' = false := rfl
    simp [readWord, digit, hp, hc, nodigit]
  rw [read]
  refine readIdentifier_name ?_ hr
  simpa [isIdentifierPart_of_isNameStart hc] using hm

theorem writes_colon (rest : List Char) :
    Writes readWord ⟨.inside, blocks, opened, previous⟩ [':'] rest [.word .colon]
      ⟨.inside, blocks, opened, some (.word .colon)⟩ :=
  writes_word (startsWord_of_class (p := (· == ':')) rfl (by decide)) rfl

theorem writes_comma (rest : List Char) :
    Writes readWord ⟨.inside, blocks, opened, previous⟩ [','] rest [.word .comma]
      ⟨.inside, blocks, opened, some (.word .comma)⟩ :=
  writes_word (startsWord_of_class (p := (· == ',')) rfl (by decide)) rfl

theorem escapeChar_cases (c : Char) :
    (∃ e, Literal.escapeChar c = ['\\', e] ∧ e ≠ '\n' ∧ Literal.unescape e = [c]) ∨
      (Literal.escapeChar c = [c] ∧ c ≠ '\'' ∧ c ≠ '\\' ∧ c ≠ '\n') := by
  unfold Literal.escapeChar
  split
  next h => exact .inl ⟨'\'', rfl, by decide, by rw [h]; rfl⟩
  next quote =>
    split
    next h => exact .inl ⟨'\\', rfl, by decide, by rw [h]; rfl⟩
    next slash =>
      split
      next h => exact .inl ⟨'n', rfl, by decide, by rw [h]; rfl⟩
      next newline =>
        split
        next h => exact .inl ⟨'t', rfl, by decide, by rw [h]; rfl⟩
        next =>
          split
          next h => exact .inl ⟨'r', rfl, by decide, by rw [h]; rfl⟩
          next => exact .inr ⟨rfl, quote, slash, newline⟩

/-- A quoted text reads back whatever follows it, and whatever an escaped line end stands for. -/
theorem quotedText?_escaped {escape : Char → List Char}
    (same : ∀ e, e ≠ '\n' → escape e = Literal.unescape e) (cs rest : List Char) :
    Literal.quotedText? escape '\'' (cs.flatMap Literal.escapeChar ++ '\'' :: rest) =
      some ⟨cs, (cs.flatMap Literal.escapeChar).length + 1⟩ := by
  induction cs with
  | nil => cases rest <;> simp [Literal.quotedText?]
  | cons c cs ih =>
    rcases escapeChar_cases c with ⟨e, he, hn, hu⟩ | ⟨he, quote, slash, newline⟩
    · simp only [flatMap_cons, he, cons_append, nil_append]
      rw [Literal.quotedText?, if_neg (by decide), if_neg (by decide), if_pos rfl, ih]
      simp [Literal.QuotedText.push, same e hn, hu]
      omega
    · simp only [flatMap_cons, he, cons_append, nil_append]
      generalize eq : cs.flatMap Literal.escapeChar ++ '\'' :: rest = tail at ih
      cases tail with
      | nil => simp at eq
      | cons d tail =>
        rw [Literal.quotedText?, if_neg quote, if_neg newline, if_neg slash, ih]
        simp [Literal.QuotedText.push]
        omega

theorem toList_quote (text : String) :
    (Literal.quote text).toList = '\'' :: (text.toList.flatMap Literal.escapeChar ++ ['\'']) := by
  simp [Literal.quote]

theorem writes_string (text : String) (rest : List Char) :
    Writes readWord ⟨.inside, blocks, opened, previous⟩ (Literal.quote text).toList rest
      [.word (.string text)] ⟨.inside, blocks, opened, some (.word (.string text))⟩ := by
  rw [toList_quote]
  refine writes_word (startsWord_of_class (p := (· == '\'')) rfl (by decide)) ?_
  have read := quotedText?_escaped (fun _ _ => rfl) text.toList rest
  simp only [readWord, true_or, if_true, readString]
  rw [append_assoc, singleton_append, read]
  simp

theorem formatStringLength?_append {quote : Char} (hq : quote = '\'' ∨ quote = '"')
    (h : formatStringLength? quote cs = some cs.length) (rest : List Char) :
    formatStringLength? quote (cs ++ rest) = some cs.length := by
  obtain ⟨body, more, eq, length, _, _, read⟩ := exists_of_formatStringLength? hq h
  obtain rfl : more = [] := by simpa [length] using congrArg List.length eq
  rw [append_nil] at eq
  rw [eq, read]

/-- The parts of a format string: the letters that mark one, a quote, and the text behind it up to
the same quote. -/
structure FormatParts (marks : List Char) (quote : Char) (body : List Char) : Prop where
  name : IsName marks
  isQuote : quote = '\'' ∨ quote = '"'
  isMark : stringPrefixes.contains (String.ofList (marks.map Decimal.lowerAscii)) = true
  format : (marks.map Decimal.lowerAscii).contains 'f' = true
  closed : formatStringLength? quote body = some body.length

def IsFormatString (cs : List Char) : Prop :=
  ∃ marks quote body, cs = marks ++ quote :: body ∧ FormatParts marks quote body

theorem writes_formatString (h : IsFormatString cs) (rest : List Char) :
    Writes readWord ⟨.inside, blocks, opened, previous⟩ cs rest
      [.word (.formatString (String.ofList cs))]
      ⟨.inside, blocks, opened, some (.word (.formatString (String.ofList cs)))⟩ := by
  obtain ⟨_, quote, body, rfl, ⟨c, more, rfl, hc, hm⟩, hq, prefixes, format, closed⟩ := h
  rw [cons_append]
  refine writes_word (startsWord_of_isNameStart hc) ?_
  have boundary : ∀ d ∈ (quote :: (body ++ rest)).head?, isIdentifierPart d = false := by
    intro d hd
    cases hd
    rcases hq with rfl | rfl <;> decide
  obtain ⟨taken, dropped⟩ := takeWhile_boundary hm boundary
  have length := formatStringLength?_append hq closed rest
  rw [readWord_name hc, append_assoc, cons_append]
  unfold readIdentifier
  simp only [taken, dropped, prefixes, hq, format, length, and_self, if_true, take_left]
  simp
  omega

/-- A text that cannot continue a number. -/
structure EndsNumber (rest : List Char) : Prop where
  head : ∀ c ∈ rest.head?, Text.isDigit c = false ∧ Text.isNameStart c = false
  point : ∀ c ∈ (rest.drop 1).head?, rest.head? = some '.' → Text.isDigit c = false

theorem numberText_digits {digits : List Char} (hd : Decimal.IsDigits digits) (hr : EndsNumber rest)
    : numberText (digits ++ rest) = (digits, false) := by
  obtain ⟨taken, dropped⟩ := takeWhile_boundary hd.isDigit fun c hc => (hr.head c hc).1
  unfold numberText
  simp only [taken, dropped]
  split
  next rest =>
    have none : rest.takeWhile Text.isDigit = [] := by
      cases rest with
      | nil => rfl
      | cons c rest =>
        have stop : Text.isDigit c = false := hr.point c (by simp) rfl
        simp [stop]
    simp [none]
  next => rfl

theorem numberText_pointed {whole fraction : List Char} (hw : Decimal.IsDigits whole)
    (hf : Decimal.IsDigits fraction) (hr : EndsNumber rest) :
    numberText (whole ++ '.' :: (fraction ++ rest)) = (whole ++ '.' :: fraction, true) := by
  have boundary : ∀ c ∈ ('.' :: (fraction ++ rest)).head?, Text.isDigit c = false := by
    simp [Text.isDigit]
  obtain ⟨taken, dropped⟩ := takeWhile_boundary hw.isDigit boundary
  obtain ⟨taken', _⟩ := takeWhile_boundary hf.isDigit fun c hc => (hr.head c hc).1
  unfold numberText
  simp only [taken, dropped, taken']
  rw [if_neg (by simpa using hf.ne_nil)]

/-- A number as the markup writes it, with the word that it reads as. -/
inductive Numeral : List Char → Word → Prop
  | integer {sign digits i} : Decimal.IsSign sign → Decimal.IsDigits digits →
      Decimal.readInt64? (sign ++ digits) = some i → Numeral (sign ++ digits) (.integer i)
  | float {sign whole fraction f} : Decimal.IsSign sign → Decimal.IsDigits whole →
      Decimal.IsDigits fraction →
      Decimal.readFloat? (sign ++ (whole ++ '.' :: fraction)) = some f →
      Numeral (sign ++ (whole ++ '.' :: fraction)) (.float f)

theorem Numeral.numberText {w : Word} (h : Numeral cs w) :
    ∃ sign number isFloat, cs = sign ++ number ∧ Decimal.IsSign sign ∧
      (∃ d ds, number = d :: ds ∧ Text.isDigit d = true) ∧
      (∀ rest, EndsNumber rest → numberText (number ++ rest) = (number, isFloat)) ∧
      readNumber.value cs isFloat = .ok (.word w (cs.length - 1)) := by
  cases h with
  | @integer sign digits i hs hd hr =>
    refine ⟨sign, digits, false, rfl, hs, hd.exists_cons, fun rest => numberText_digits hd, ?_⟩
    simp [readNumber.value, hr]
  | @float sign whole fraction f hs hw hf hr =>
    refine ⟨sign, whole ++ '.' :: fraction, true, rfl, hs, ?_, fun rest hrest => ?_, ?_⟩
    · obtain ⟨d, ds, rfl, hd⟩ := hw.exists_cons
      exact ⟨d, _, rfl, hd⟩
    · simpa using numberText_pointed hw hf hrest
    · simp [readNumber.value, hr]

theorem readNumber_of_numberText (sign : List Char) {isFloat : Bool}
    (eq : c :: more = sign ++ number) (hs : Decimal.IsSign sign)
    (hn : ∃ d ds, number = d :: ds ∧ Text.isDigit d = true)
    (ht : numberText (number ++ rest) = (number, isFloat)) (hr : EndsNumber rest) :
    readNumber c (more ++ rest) = readNumber.value (sign ++ number) isFloat := by
  have signs : (if c = '-' then (['-'], more ++ rest) else ([], c :: (more ++ rest))) =
      (sign, number ++ rest) := by
    rcases hs with rfl | rfl
    · obtain ⟨d, ds, rfl, hd⟩ := hn
      cases eq
      rw [if_neg (ne_of_class hd rfl)]
      rfl
    · cases eq
      rfl
  unfold readNumber
  rw [signs]
  simp only [ht, drop_left]
  cases rest with
  | nil => rfl
  | cons d rest =>
    obtain ⟨_, start⟩ := hr.head d (by simp)
    simp [start]

theorem writes_numeral {w : Word} (h : Numeral cs w) (hr : EndsNumber rest)
    (hp : cs.head? = some '-' → previous.any endsValue = false) :
    Writes readWord ⟨.inside, blocks, opened, previous⟩ cs rest [.word w]
      ⟨.inside, blocks, opened, some (.word w)⟩ := by
  obtain ⟨sign, number, isFloat, rfl, hs, hn, ht, hv⟩ := h.numberText
  obtain ⟨d, ds, rfl, hd⟩ := hn
  rcases hs with rfl | rfl
  · refine writes_word (startsWord_of_isDigit hd) ?_
    have single : d ≠ '\'' := ne_of_class hd (by decide)
    have double : d ≠ '"' := ne_of_class hd (by decide)
    have read : readWord previous d (ds ++ rest) = readNumber d (ds ++ rest) := by
      simp [readWord, single, double, hd]
    rw [read, readNumber_of_numberText [] rfl (.inl rfl) ⟨d, ds, rfl, hd⟩ (ht rest hr) hr, hv]
    rfl
  · change Writes readWord _ ('-' :: (d :: ds)) rest _ _
    refine writes_word (startsWord_of_class (p := (· == '-')) rfl (by decide)) ?_
    have noValue : previous.any endsValue = false := hp rfl
    have read : readWord previous '-' (d :: ds ++ rest) = readNumber '-' (d :: ds ++ rest) := by
      simp [readWord, hd, noValue]
    have number : readNumber '-' (d :: ds ++ rest) = readNumber.value (['-'] ++ d :: ds) isFloat :=
      readNumber_of_numberText ['-'] rfl (.inr rfl) ⟨d, ds, rfl, hd⟩ (ht rest hr) hr
    rw [read, number, hv]
    rfl

theorem numeral_integer (i : Int64) : Numeral (toString i.toInt).toList (.integer i) := by
  have hi := Decimal.readInt64?_toString i
  have hd := Decimal.isDigits_toDigits i.toInt.natAbs
  rw [Decimal.toList_toString_toInt] at hi ⊢
  split at hi
  next h =>
    rw [if_pos h]
    exact .integer (.inr rfl) hd hi
  next h =>
    rw [if_neg h]
    exact .integer (.inl rfl) hd hi

theorem numeral_float {sign : List Char} (hs : Decimal.IsSign sign) (hn : Decimal.IsPointed number)
    : ∃ g, Decimal.readFloat? (sign ++ number) = some g ∧ Numeral (sign ++ number) (.float g) := by
  obtain ⟨whole, fraction, hw, hf, rfl⟩ := hn
  have read := Decimal.readFloat?_pointed hs hw hf
  exact ⟨_, read, .float hs hw hf read⟩

/-- A character that is an operator, or an angle. -/
def IsMark (c : Char) : Prop := c = '<' ∨ c = '>' ∨ c ∈ operatorChars

instance : DecidablePred IsMark := fun _ => inferInstanceAs (Decidable (_ ∨ _ ∨ _))

/-- Whether two characters are read as one operator. -/
def isPair (c d : Char) : Bool := pairedOperators.contains (String.ofList [c, d])

theorem isPair_second (h : isPair c d = true) :
    d = '*' ∨ d = '/' ∨ d = '=' ∨ d = '<' ∨ d = '>' := by
  have second : ∀ text ∈ pairedOperators, text.toList.getLast? = some '*' ∨
      text.toList.getLast? = some '/' ∨ text.toList.getLast? = some '=' ∨
      text.toList.getLast? = some '<' ∨ text.toList.getLast? = some '>' := by
    decide
  have pair := second _ (contains_iff_mem.mp h)
  simpa using pair

theorem isPair_first (h : isPair c d = true) : IsMark c := by
  have first : ∀ text ∈ pairedOperators, ∀ c ∈ text.toList.take 1, IsMark c := by decide
  exact first _ (contains_iff_mem.mp h) c (by simp)

theorem isMark_second (h : isPair c d = true) : IsMark d := by
  rcases isPair_second h with rfl | rfl | rfl | rfl | rfl <;> decide

theorem isPair_nameStart (hd : Text.isNameStart d = true) : isPair c d = false := by
  cases h : isPair c d with
  | false => rfl
  | true => rcases isPair_second h with rfl | rfl | rfl | rfl | rfl <;> revert hd <;> decide

theorem readOperator_single (h : ∀ d ∈ rest.head?, isPair c d = false) :
    readOperator c rest = .word (.operator c.toString) 0 := by
  unfold readOperator
  split
  next d rest =>
    have single : pairedOperators.contains (String.ofList [c, d]) = false := h d (by simp)
    simp only [single, Bool.false_eq_true, if_false]
  next => rfl

theorem readOperator_pair (h : isPair c d = true) :
    readOperator c (d :: rest) = .word (.operator (String.ofList [c, d])) 1 := by
  unfold readOperator
  exact if_pos h

theorem readWord_operator (hc : c ∈ operatorChars)
    (hm : c = '-' → cs.head?.any Text.isDigit = true → previous.any endsValue = true) :
    readWord previous c cs = .ok (readOperator c cs) := by
  have other : ∀ c ∈ operatorChars, c ≠ '\'' ∧ c ≠ '"' ∧ c ≠ '.' ∧ Text.isDigit c = false ∧
      Text.isNameStart c = false ∧ c ≠ ':' ∧ c ≠ ',' ∧ c ≠ '<' ∧ c ≠ '>' := by
    decide
  obtain ⟨single, double, point, digit, start, colon, comma, less, greater⟩ := other c hc
  have number : ¬(c = '-' ∧ cs.head?.any Text.isDigit = true ∧ (!previous.any endsValue) = true) := by
    rintro ⟨rfl, hd, hv⟩
    simp [hm rfl hd] at hv
  unfold readWord
  simp only [single, double, or_self, if_false, point, digit, start, false_and, colon, comma, less,
    greater, contains_iff_mem, hc, if_true, number, Bool.false_eq_true]

theorem startsWord_of_operator (hc : c ∈ operatorChars) : StartsWord c :=
  startsWord_of_class (p := operatorChars.contains) (contains_iff_mem.mpr hc) (by decide)

theorem writes_operator (hc : c ∈ operatorChars) (hd : ∀ d ∈ rest.head?, isPair c d = false)
    (hm : c = '-' → rest.head?.any Text.isDigit = true → previous.any endsValue = true) :
    Writes readWord ⟨.inside, blocks, opened, previous⟩ [c] rest [.word (.operator c.toString)]
      ⟨.inside, blocks, opened, some (.word (.operator c.toString))⟩ := by
  refine writes_word (startsWord_of_operator hc) ?_
  rw [nil_append, readWord_operator hc hm, readOperator_single hd]
  rfl

def angleWord (c : Char) : Word := if c = '<' then .openAngle else .closeAngle

/-- Whether an angle before this character is read as an operator. -/
def joinsAngle (d : Char) : Bool := ['=', '<', '>'].contains d

theorem joinsAngle_nameStart (hd : Text.isNameStart d = true) : joinsAngle d = false := by
  have other : ∀ d ∈ ['=', '<', '>'], Text.isNameStart d = false := by decide
  cases h : joinsAngle d with
  | false => rfl
  | true =>
    rw [other d (contains_iff_mem.mp h)] at hd
    cases hd

theorem readWord_angle (hc : c = '<' ∨ c = '>') : readWord previous c cs =
      if cs.head?.any joinsAngle then .ok (readOperator c cs) else .ok (.word (angleWord c) 0) := by
  have other : c ≠ '\'' ∧ c ≠ '"' ∧ c ≠ '-' ∧ c ≠ '.' ∧ Text.isDigit c = false ∧
      Text.isNameStart c = false ∧ c ≠ ':' ∧ c ≠ ',' := by
    rcases hc with rfl | rfl <;> decide
  obtain ⟨single, double, minus, point, digit, start, colon, comma⟩ := other
  unfold readWord
  simp only [single, double, minus, point, digit, start, colon, comma, hc, or_self, false_and,
    true_and, if_false, Bool.false_eq_true]
  split
  next => exact (if_pos ‹_›).symm
  next h =>
    refine Eq.trans ?_ (if_neg h).symm
    rcases hc with rfl | rfl <;> rfl

theorem startsWord_of_angle (hc : c = '<' ∨ c = '>') : StartsWord c := by
  rcases hc with rfl | rfl
  · exact startsWord_of_class (p := (· == '<')) rfl (by decide)
  · exact startsWord_of_class (p := (· == '>')) rfl (by decide)

theorem writes_angle (hc : c = '<' ∨ c = '>') (h : rest.head?.any joinsAngle = false) :
    Writes readWord ⟨.inside, blocks, opened, previous⟩ [c] rest [.word (angleWord c)]
      ⟨.inside, blocks, opened, some (.word (angleWord c))⟩ := by
  refine writes_word (startsWord_of_angle hc) ?_
  rw [nil_append, readWord_angle hc, h]
  rfl

theorem startsWord_of_mark (hc : IsMark c) : StartsWord c := by
  rcases hc with hc | hc | hc
  · exact startsWord_of_angle (.inl hc)
  · exact startsWord_of_angle (.inr hc)
  · exact startsWord_of_operator hc

/-- The word of a mark that is read by itself before a text. -/
def markWord (c : Char) (rest : List Char) : Word :=
  if (c = '<' ∨ c = '>') ∧ rest.head?.any joinsAngle = false then angleWord c
  else .operator c.toString

theorem writes_mark (hc : IsMark c) (hd : ∀ d ∈ rest.head?, isPair c d = false)
    (hm : c = '-' → rest.head?.any Text.isDigit = true → previous.any endsValue = true) :
    Writes readWord ⟨.inside, blocks, opened, previous⟩ [c] rest [.word (markWord c rest)]
      ⟨.inside, blocks, opened, some (.word (markWord c rest))⟩ := by
  unfold markWord
  by_cases angle : c = '<' ∨ c = '>'
  · cases h : rest.head?.any joinsAngle with
    | false =>
      rw [if_pos ⟨angle, rfl⟩]
      exact writes_angle angle h
    | true =>
      rw [if_neg (by simp)]
      refine writes_word (startsWord_of_angle angle) ?_
      rw [nil_append, readWord_angle angle, h, readOperator_single hd]
      rfl
  · have operator : c ∈ operatorChars := by
      rcases hc with hc | hc | hc
      · exact absurd (.inl hc) angle
      · exact absurd (.inr hc) angle
      · exact hc
    rw [if_neg fun h => angle h.1]
    exact writes_operator operator hd hm

theorem joinsAngle_pair (hc : c = '<' ∨ c = '>') (h : isPair c d = true) : joinsAngle d = true := by
  have second : ∀ text ∈ pairedOperators, ∀ d ∈ text.toList.drop 1,
      text.toList.head? = some '<' ∨ text.toList.head? = some '>' → joinsAngle d = true := by
    decide
  have last := second _ (contains_iff_mem.mp h) d (by simp)
  rcases hc with rfl | rfl
  · exact last (by simp)
  · exact last (by simp)

/-- Two marks that make up one operator. -/
theorem writes_pair (h : isPair c d = true) (rest : List Char) :
    Writes readWord ⟨.inside, blocks, opened, previous⟩ [c, d] rest
      [.word (.operator (String.ofList [c, d]))]
      ⟨.inside, blocks, opened, some (.word (.operator (String.ofList [c, d])))⟩ := by
  refine writes_word (startsWord_of_mark (isPair_first h)) ?_
  have read : readWord previous c (d :: rest) = .ok (readOperator c (d :: rest)) := by
    have angle : c = '<' ∨ c = '>' →
        readWord previous c (d :: rest) = .ok (readOperator c (d :: rest)) := by
      intro hc
      rw [readWord_angle hc]
      simp [joinsAngle_pair hc h]
    rcases isPair_first h with hc | hc | hc
    · exact angle (.inl hc)
    · exact angle (.inr hc)
    · refine readWord_operator hc fun _ digit => ?_
      rcases isPair_second h with rfl | rfl | rfl | rfl | rfl <;> cases digit
  rw [singleton_append, read, readOperator_pair h]
  rfl

end ViewBridge.Markup
