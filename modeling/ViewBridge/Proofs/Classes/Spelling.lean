import ViewBridge.Proofs.Classes.Names
import ViewBridge.Proofs.Markup.Spelling
import ViewBridge.Proofs.Source.Layout
import ViewBridge.Proofs.Source.Skeleton

namespace ViewBridge

theorem Enclosed.nested {ω : Type} {ks : List (TokenKind ω)} (h : Enclosed ks) : Nested ks := by
  induction h with
  | nil => exact .nil
  | word w _ ih => exact .word w ih
  | group b hi _ _ ih => exact .group b hi ih

end ViewBridge

namespace ViewBridge.Classes

open Scanner List

variable {c : Char} {more sign : List Char} {w : Word} {isFloat : Bool} {callee : String}

/-- A text that has tokens of these kinds in front of another text, behind any token. -/
def Spells (text : List Char) (ks : List Kind) (rest : List Char) : Prop :=
  ∀ blocks opened previous, ∃ last, Writes readWord ⟨.inside, blocks, opened, previous⟩ text rest ks
    ⟨.inside, blocks, opened, last⟩

/-- The same behind a token that is no operand, so that a minus is the sign of a number. -/
def SpellsValue (text : List Char) (ks : List Kind) (rest : List Char) : Prop :=
  ∀ blocks opened previous, previous.any endsOperand = false →
    ∃ last, Writes readWord ⟨.inside, blocks, opened, previous⟩ text rest ks
      ⟨.inside, blocks, opened, last⟩

section Spells

variable {text second rest : List Char} {ks ls : List Kind}

theorem Spells.value (h : Spells text ks rest) : SpellsValue text ks rest :=
  fun blocks opened previous _ => h blocks opened previous

theorem spells_nil (rest : List Char) : Spells [] [] rest :=
  fun _ _ previous => ⟨previous, .refl _ rest⟩

theorem Spells.append (h : Spells text ks (second ++ rest)) (hs : Spells second ls rest) :
    Spells (text ++ second) (ks ++ ls) rest := by
  intro blocks opened previous
  obtain ⟨mid, first⟩ := h blocks opened previous
  obtain ⟨last, writes⟩ := hs blocks opened mid
  exact ⟨last, first.trans writes⟩

theorem SpellsValue.append (h : SpellsValue text ks (second ++ rest)) (hs : Spells second ls rest) :
    SpellsValue (text ++ second) (ks ++ ls) rest := by
  intro blocks opened previous hp
  obtain ⟨mid, first⟩ := h blocks opened previous hp
  obtain ⟨last, writes⟩ := hs blocks opened mid
  exact ⟨last, first.trans writes⟩

theorem spells_blank (h : Spells text ks rest) : Spells (' ' :: text) ks rest := by
  intro blocks opened previous
  obtain ⟨last, writes⟩ := h blocks opened previous
  exact ⟨last, (writes_blank (text ++ rest) (.inl rfl)).trans writes⟩

theorem spells_word (hc : StartsWord c)
    (hr : ∀ previous, readWord previous c (more ++ rest) = .ok (.word w more.length)) :
    Spells (c :: more) [.word w] rest :=
  fun _ _ previous => ⟨_, writes_word hc (hr previous)⟩

theorem spells_group (b : Bracket) (h : SpellsValue text ks (b.closeChar :: rest)) :
    Spells (b.openChar :: (text ++ [b.closeChar])) (.opening b :: (ks ++ [.closing b])) rest := by
  intro blocks opened previous
  obtain ⟨last, inside⟩ := h blocks (b :: opened) (some (.opening b)) rfl
  have closed := inside.trans (writes_closing b rest)
  have start : Writes readWord ⟨.inside, blocks, opened, previous⟩ [b.openChar]
      (text ++ [b.closeChar] ++ rest) [.opening b] _ := writes_opening b _
  exact ⟨_, start.trans closed⟩

section Marks

theorem startsWord_comma : StartsWord ',' := startsWord_of_class (p := (· == ',')) rfl (by decide)

/-- A comma and a blank before a further value. -/
theorem spells_comma (h : SpellsValue text ks rest) :
    Spells (',' :: ' ' :: text) (.word .comma :: ks) rest := by
  intro blocks opened previous
  obtain ⟨last, writes⟩ := h blocks opened (some (.word .comma)) rfl
  have blank := (writes_blank (text ++ rest) (.inl rfl)).trans writes
  have comma : Writes readWord ⟨.inside, blocks, opened, previous⟩ [',']
      (' ' :: text ++ rest) [.word .comma] _ := writes_word startsWord_comma rfl
  exact ⟨last, comma.trans blank⟩

theorem spells_lastComma (rest : List Char) : Spells [','] [.word .comma] rest :=
  spells_word startsWord_comma fun _ => rfl

theorem spells_colon (hc : c ≠ '=') (rest : List Char) :
    Spells [':'] [.word .colon] (c :: rest) := by
  refine spells_word (startsWord_of_class (p := (· == ':')) rfl (by decide)) fun previous => ?_
  have read : readWord previous ':' (c :: rest) =
      if some c = some '=' then .ok (.word (.operator ":=") 1) else .ok (.word .colon 0) := rfl
  rw [nil_append, read, if_neg (by simpa using hc)]
  rfl

theorem spells_equals (hc : operatorChars.contains c = false) (rest : List Char) :
    Spells ['='] [.word .equals] (c :: rest) := by
  refine spells_word (startsWord_of_class (p := (· == '=')) rfl (by decide)) fun previous => ?_
  have run : operatorRun (c :: rest) = [] := by
    rw [operatorRun, if_neg (by rw [hc]; nofun)]
  have read : readWord previous '=' (c :: rest) = .ok (.word
      (operatorWord (String.ofList ('=' :: operatorRun (c :: rest)))) (operatorRun (c :: rest)).length) :=
    rfl
  rw [nil_append, read, run]
  rfl

end Marks

section Names

variable {name : String}

/-- A text that cannot continue a name and does not make one the mark of a string. -/
def EndsName (rest : List Char) : Prop :=
  ∀ c ∈ rest.head?, Text.isNamePart c = false ∧ c ≠ '\'' ∧ c ≠ '"'

theorem readIdentifier_name (hm : ∀ d ∈ more, Text.isNamePart d = true) (hr : EndsName rest) :
    readIdentifier c (more ++ rest) =
      .ok (.word ((keyword? (String.ofList (c :: more))).getD (.identifier (String.ofList (c :: more))))
        more.length) := by
  obtain ⟨taken, dropped⟩ := takeWhile_boundary hm fun d hd => (hr d hd).1
  unfold readIdentifier
  simp only [taken, dropped]
  cases rest with
  | nil => rfl
  | cons d rest =>
    obtain ⟨_, single, double⟩ := hr d (by simp)
    simp [single, double]

theorem spells_identifier (hc : Text.isNameStart c = true)
    (hm : ∀ d ∈ more, Text.isNamePart d = true) (hr : EndsName rest)
    (hw : (keyword? (String.ofList (c :: more))).getD (.identifier (String.ofList (c :: more))) = w)
    : Spells (c :: more) [.word w] rest := by
  refine spells_word (startsWord_of_isNameStart hc) fun previous => ?_
  rw [readWord_name hc, readIdentifier_name hm hr, hw]

theorem spells_name (h : isName name = true) (hr : EndsName rest) :
    Spells name.toList [.word (.identifier name)] rest := by
  obtain ⟨keyword, c, more, eq, hc, hm⟩ := isName_iff.mp h
  rw [eq]
  refine spells_identifier hc hm hr ?_
  rw [← eq, String.ofList_toList, keyword]
  rfl

theorem starts_of_isName (h : isName name = true) :
    ∃ c cs, name.toList = c :: cs ∧ Text.isNameStart c = true := by
  obtain ⟨_, c, cs, eq, hc, _⟩ := isName_iff.mp h
  exact ⟨c, cs, eq, hc⟩

theorem layout_of_isNameStart (h : Text.isNameStart c = true) : isLayoutChar c = false :=
  (startsWord_of_isNameStart h).layout

theorem spells_dot (hc : Text.isNameStart c = true) (rest : List Char) :
    Spells ['.'] [.word .dot] (c :: rest) := by
  refine spells_word (startsWord_of_class (p := (· == '.')) rfl (by decide)) fun previous => ?_
  have digit := isDigit_of_isNameStart hc
  have point : c ≠ '.' := ne_of_class hc (by decide)
  have noDigit : Text.isDigit '.' = false := rfl
  have noName : Text.isNameStart '.' = false := rfl
  simp [readWord, digit, point, noDigit, noName]

theorem endsName_dot (rest : List Char) : EndsName ('.' :: rest) := by
  rintro _ ⟨⟩
  exact ⟨rfl, by decide, by decide⟩

theorem spells_dottedTail {more : String} (h : DottedTail more ks) (hr : EndsName rest) :
    Spells more.toList ks rest ∧ EndsName (more.toList ++ rest) := by
  induction h with
  | nil => exact ⟨spells_nil rest, hr⟩
  | @dot name more ks hn hm ih =>
    obtain ⟨behind, ends⟩ := ih
    rw [String.toList_append, String.toList_append, append_assoc]
    refine ⟨?_, endsName_dot _⟩
    have dot : Spells ".".toList [.word .dot] (name.toList ++ more.toList ++ rest) := by
      obtain ⟨c, cs, eq, hc⟩ := starts_of_isName hn
      rw [eq]
      exact spells_dot hc _
    exact dot.append (.append (spells_name hn ends) behind)

theorem spells_dotted {text : String} (h : Dotted text ks) (hr : EndsName rest) :
    Spells text.toList ks rest := by
  obtain ⟨hn, hm⟩ := h
  obtain ⟨behind, ends⟩ := spells_dottedTail hm hr
  rw [String.toList_append]
  exact (spells_name hn ends).append behind

end Names

section Strings

theorem take_two_escaped (cs : List Char) (hr : rest.head? ≠ some '\'') :
    (cs.flatMap Literal.escapeChar ++ '\'' :: rest).take 2 ≠ ['\'', '\''] := by
  cases cs with
  | nil =>
    cases rest with
    | nil => simp
    | cons d rest => simpa using hr
  | cons c cs =>
    rcases Markup.escapeChar_cases c with ⟨e, he, _⟩ | ⟨he, quote, _⟩
    · simp [he]
    · simp [he, quote]

theorem spells_string (text : String) (hr : rest.head? ≠ some '\'') :
    Spells (Literal.quote text).toList [.word (.string text)] rest := by
  have same (e : Char) (he : e ≠ '\n') : unescape e = Literal.unescape e := if_neg he
  have read : readString false '\'' 0 (text.toList.flatMap Literal.escapeChar ++ '\'' :: rest) =
      .ok (.word (.string text) ((text.toList.flatMap Literal.escapeChar).length + 1)) := by
    unfold readString
    dsimp only
    rw [if_neg (take_two_escaped text.toList hr), if_neg Bool.false_ne_true,
      Markup.quotedText?_escaped same]
    simp
  rw [Markup.toList_quote]
  refine spells_word (startsWord_of_class (p := (· == '\'')) rfl (by decide)) fun previous => ?_
  have bare := (Opening.bare (c := '\'') (.inl rfl)).readWord_eq previous
    (text.toList.flatMap Literal.escapeChar ++ ['\''] ++ rest)
  rw [append_assoc] at bare ⊢
  rw [length_append]
  exact bare.trans read

end Strings

section Numbers

variable {digits whole fraction : List Char}

theorem numeral_digits (h : ∀ c ∈ digits, Text.isDigit c = true) (isFloat : Bool) (cs : List Char) :
    numeral isFloat (digits ++ cs) = (numeral isFloat cs).push digits digits.length := by
  induction digits with
  | nil => simp [Numeral.push]
  | cons c digits ih =>
    obtain ⟨hc, others⟩ := forall_mem_cons.mp h
    rw [cons_append, numeral.eq_def]
    simp only [hc, if_true, ih others, Numeral.push, cons_append, nil_append,
      length_cons]
    congr 1
    omega

theorem numeral_whole (h : ∀ c ∈ digits, Text.isDigit c = true) (isFloat : Bool) :
    numeral isFloat digits = ⟨digits, digits.length, isFloat⟩ := by
  have run := numeral_digits h isFloat []
  rw [append_nil] at run
  rw [run]
  simp [Numeral.push, numeral]

theorem numeral_pointed (hw : Decimal.IsDigits whole) (hf : Decimal.IsDigits fraction) :
    numeral false (whole ++ '.' :: fraction) =
      ⟨whole ++ '.' :: fraction, (whole ++ '.' :: fraction).length, true⟩ := by
  have noDigit : Text.isDigit '.' = false := rfl
  have point (cs : List Char) : numeral false ('.' :: cs) = (numeral true cs).push ['.'] 1 := by
    rw [numeral.eq_def]
    simp [noDigit]
  rw [numeral_digits hw.isDigit, point, numeral_whole hf.isDigit]
  simp [Numeral.push]
  omega

def numberWord? (isFloat : Bool) (text : List Char) : Option Word :=
  if isFloat then (Decimal.readFloat? text).map .float else (Decimal.readInt64? text).map .integer

/-- A number that starts with a digit, up to the text behind it. -/
theorem readNumber_of_numeral (eq : c :: more = sign ++ digits) (hs : Decimal.IsSign sign)
    (start : ∃ d ds, digits = d :: ds ∧ Text.isDigit d = true)
    (base : digits[1]?.bind radix? = none)
    (hn : numeral false digits = ⟨digits, digits.length, isFloat⟩)
    (value : numberWord? isFloat (sign ++ digits) = some w) :
    readNumber c more = .ok (.word w more.length) := by
  have signs : (if c = '-' then (['-'], more) else ([], c :: more)) = (sign, digits) := by
    rcases hs with rfl | rfl
    · obtain ⟨d, ds, rfl, hd⟩ := start
      cases eq
      rw [if_neg (ne_of_class hd rfl)]
    · cases eq
      rfl
  have length : sign.length + digits.length - 1 = more.length := by
    have := congrArg List.length eq
    rw [length_append, length_cons] at this
    omega
  have none : (if digits.head? = some '0' then digits[1]?.bind radix? else none) = none := by
    rw [base, ite_self]
  unfold readNumber
  rw [signs]
  simp only [none, hn, Numeral.push, Nat.add_sub_cancel_left, drop_length, head?_nil,
    Option.filter_none, length]
  cases isFloat with
  | true =>
    obtain ⟨f, hf, rfl⟩ := Option.map_eq_some_iff.mp value
    simp [hf]
  | false =>
    obtain ⟨i, hi, rfl⟩ := Option.map_eq_some_iff.mp value
    simp [hi]

theorem radix?_of_isDigit (h : Text.isDigit c = true ∨ c = '.') : radix? c = none := by
  rcases h with h | rfl
  · have ne (d : Char) (hd : Text.isDigit d = false) : c ≠ d := ne_of_class h hd
    simp [radix?, ne 'x' rfl, ne 'X' rfl, ne 'o' rfl, ne 'O' rfl, ne 'b' rfl, ne 'B' rfl]
  · rfl

theorem base_none (h : ∀ c ∈ digits, Text.isDigit c = true ∨ c = '.') :
    digits[1]?.bind radix? = none := by
  cases hd : digits[1]? with
  | none => rfl
  | some c => exact radix?_of_isDigit (h c (mem_of_getElem? hd))

/-- A text that is read as words and groups wherever a value may stand. -/
def ValueText (text : List Char) (ks : List Kind) : Prop :=
  Enclosed ks ∧ ∀ rest, Parted rest → SpellsValue text ks rest

theorem valueText_number (hs : Decimal.IsSign sign)
    (start : ∃ d ds, digits = d :: ds ∧ Text.isDigit d = true)
    (chars : ∀ c ∈ digits, Text.isDigit c = true ∨ c = '.')
    (hn : numeral false digits = ⟨digits, digits.length, isFloat⟩)
    (value : numberWord? isFloat (sign ++ digits) = some w) :
    ValueText (sign ++ digits) [.word w] := by
  refine ⟨.word w .nil, fun rest hr => ?_⟩
  obtain ⟨d, ds, rfl, hd⟩ := start
  rcases hs with rfl | rfl
  · have read := readNumber_of_numeral (nil_append _).symm (.inl rfl) ⟨d, ds, rfl, hd⟩
      (base_none chars) hn value
    refine Spells.value (spells_word (startsWord_of_isDigit hd) fun previous => ?_)
    have slash : d ≠ '\\' := ne_of_class hd (by decide)
    have single : d ≠ '\'' := ne_of_class hd (by decide)
    have double : d ≠ '"' := ne_of_class hd (by decide)
    have word : readWord previous d (ds ++ rest) = readNumber d (ds ++ rest) := by
      simp [readWord, slash, single, double, hd]
    rw [word, readNumber_append_parted hr, read]
  · have read := readNumber_of_numeral (singleton_append (x := '-')).symm (.inr rfl)
      ⟨d, ds, rfl, hd⟩ (base_none chars) hn value
    refine fun blocks opened previous hp => ⟨_, writes_word
      (startsWord_of_class (p := (· == '-')) rfl (by decide)) ?_⟩
    have word : readWord previous '-' (d :: ds ++ rest) = readNumber '-' (d :: ds ++ rest) := by
      simp [readWord, hd, hp]
    exact (word.trans (readNumber_append_parted hr '-' (d :: ds))).trans read

theorem valueText_digits {i : Int64} (hs : Decimal.IsSign sign) (hd : Decimal.IsDigits digits)
    (read : Decimal.readInt64? (sign ++ digits) = some i) :
    ValueText (sign ++ digits) [.word (.integer i)] :=
  valueText_number hs hd.exists_cons (fun c hc => .inl (hd.isDigit c hc))
    (numeral_whole hd.isDigit false) (congrArg (Option.map Word.integer) read)

theorem valueText_integer (i : Int64) :
    ValueText (toString i.toInt).toList [.word (.integer i)] := by
  have value := Decimal.readInt64?_toString i
  have hd := Decimal.isDigits_toDigits i.toInt.natAbs
  rw [Decimal.toList_toString_toInt] at value ⊢
  split at value
  next negative =>
    rw [if_pos negative]
    exact valueText_digits (.inr rfl) hd value
  next positive =>
    rw [if_neg positive]
    exact valueText_digits (.inl rfl) hd value

theorem valueText_pointed {f : Float} (hs : Decimal.IsSign sign) (hw : Decimal.IsDigits whole)
    (hf : Decimal.IsDigits fraction)
    (read : Decimal.readFloat? (sign ++ (whole ++ '.' :: fraction)) = some f) :
    ValueText (sign ++ (whole ++ '.' :: fraction)) [.word (.float f)] := by
  have chars : ∀ c ∈ whole ++ '.' :: fraction, Text.isDigit c = true ∨ c = '.' := by
    intro c hc
    rcases mem_append.mp hc with hc | hc
    · exact .inl (hw.isDigit c hc)
    · rcases mem_cons.mp hc with hc | hc
      · exact .inr hc
      · exact .inl (hf.isDigit c hc)
  have start : ∃ d ds, whole ++ '.' :: fraction = d :: ds ∧ Text.isDigit d = true := by
    obtain ⟨d, ds, rfl, hd⟩ := hw.exists_cons
    exact ⟨d, _, rfl, hd⟩
  exact valueText_number hs start chars (numeral_pointed hw hf) (congrArg (Option.map Word.float) read)

theorem endsName_of_parted (h : Parted rest) : EndsName rest := by
  intro c hc
  have stop := h c hc
  have ne {d : Char} (hd : goesOn d = true) : c ≠ d := by
    rintro rfl
    rw [hd] at stop
    cases stop
  refine ⟨?_, ne (by decide), ne (by decide)⟩
  cases part : Text.isNamePart c with
  | false => rfl
  | true =>
    rw [goesOn, part] at stop
    cases stop

theorem valueText_name {text : String} (h : Dotted text ks) : ValueText text.toList ks := by
  refine ⟨?_, fun rest hr => (spells_dotted h (endsName_of_parted hr)).value⟩
  obtain ⟨_, hm⟩ := h
  refine .word _ ?_
  induction hm with
  | nil => exact .nil
  | dot _ _ ih => exact .word _ (.word _ ih)

theorem dotted_of_isName {name : String} (h : isName name = true) :
    Dotted name [.word (.identifier name)] := by
  have dotted := Dotted.name h .nil
  rwa [String.append_empty] at dotted

theorem valueText_finite {f g : Float} (finite : Decimal.IsFinite f)
    (read : Decimal.readFloat? (Literal.floatText f).toList = some g) :
    ValueText (Literal.floatText f).toList [.word (.float g)] := by
  obtain ⟨number, ⟨whole, fraction, hw, hf, rfl⟩, eq⟩ := Decimal.pointed_write_finite finite
  rw [Literal.floatText, eq] at read ⊢
  exact valueText_pointed (Decimal.isSign_signOf f) hw hf read

theorem valueText_float (f : Float) : ∃ ks, ValueText (Literal.floatText f).toList ks := by
  by_cases finite : Decimal.IsFinite f
  · obtain ⟨number, ⟨whole, fraction, hw, hf, rfl⟩, eq⟩ := Decimal.pointed_write_finite finite
    rw [Literal.floatText, eq]
    have value := Decimal.readFloat?_pointed (Decimal.isSign_signOf f) hw hf
    exact ⟨_, valueText_pointed (Decimal.isSign_signOf f) hw hf value⟩
  · rw [Literal.floatText]
    rcases Decimal.pointed_write_infinite finite with eq | eq
    · rw [eq]
      exact ⟨_, valueText_name (dotted_of_isName (by decide : isName "NaN" = true))⟩
    · have name := valueText_name (dotted_of_isName (by decide : isName "inf" = true))
      rw [eq]
      rcases Decimal.isSign_signOf f with sign | sign
      · rw [sign]
        exact ⟨_, name⟩
      · rw [sign]
        refine ⟨_, .word (.operator "-") name.1, fun rest hr => ?_⟩
        have minus : Spells ['-'] [.word (.operator "-")] ("inf".toList ++ rest) :=
          spells_word (startsWord_of_class (p := (· == '-')) rfl (by decide)) fun _ => rfl
        have inf : Spells "inf".toList _ rest := spells_name (by decide) (endsName_of_parted hr)
        exact (minus.append inf).value

end Numbers

section Values

theorem valueText_string (text : String) :
    ValueText (Literal.quote text).toList [.word (.string text)] := by
  refine ⟨.word _ .nil, fun rest hr => (spells_string text fun quote => ?_).value⟩
  have stop := hr '\'' quote
  cases stop

theorem valueText_bool (b : Bool) : ∃ ks, ValueText (Literal.bool b).spelled.toList ks := by
  cases b with
  | true => exact ⟨_, valueText_name (dotted_of_isName (by decide : isName "True" = true))⟩
  | false => exact ⟨_, valueText_name (dotted_of_isName (by decide : isName "False" = true))⟩

theorem parted_mark (hc : goesOn c = false) (rest : List Char) : Parted (c :: rest) := by
  rintro _ ⟨⟩
  exact hc

theorem endsName_mark (hc : goesOn c = false) (rest : List Char) : EndsName (c :: rest) :=
  endsName_of_parted (parted_mark hc rest)

/-- A keyword or a name that is given by its characters. -/
theorem spells_fixed {text : String}
    (shape : ∃ c cs, text.toList = c :: cs ∧ Text.isNameStart c = true ∧
      ∀ d ∈ cs, Text.isNamePart d = true) (hw : (keyword? text).getD (.identifier text) = w)
    (hr : EndsName rest) : Spells text.toList [.word w] rest := by
  obtain ⟨c, cs, eq, hc, hs⟩ := shape
  rw [eq]
  refine spells_identifier hc hs hr ?_
  rw [← eq, String.ofList_toList, hw]

/-- A name with a type behind it. -/
theorem spells_hint {name type : String} (hn : isName name = true)
    (ht : isName type = true) (hr : EndsName rest) :
    Spells (name.toList ++ ':' :: ' ' :: type.toList)
      [.word (.identifier name), .word .colon, .word (.identifier type)] rest := by
  have first (more : List Char) : Spells name.toList [.word (.identifier name)] (':' :: more) :=
    spells_name hn (endsName_mark rfl more)
  have colon := spells_colon (by decide : ' ' ≠ '=') (type.toList ++ rest)
  exact (first _).append (colon.append (spells_blank (spells_name ht hr)))

theorem valueText_nil : ValueText [] [] := ⟨.nil, fun rest _ => (spells_nil rest).value⟩

theorem valueText_group (b : Bracket) (h : ValueText text ks) :
    ValueText (b.openChar :: (text ++ [b.closeChar])) (.opening b :: (ks ++ [.closing b])) := by
  have closes (rest : List Char) : Parted (b.closeChar :: rest) := by
    cases b <;> exact parted_mark rfl rest
  exact ⟨.group b h.1 .nil, fun rest _ => (spells_group b (h.2 _ (closes rest))).value⟩

theorem valueText_comma (h : ValueText text ks) (hs : ValueText second ls) :
    ValueText (text ++ ',' :: ' ' :: second) (ks ++ .word .comma :: ls) :=
  ⟨h.1.append (.word Word.comma hs.1), fun rest hr =>
    (h.2 _ (parted_mark rfl _)).append (spells_comma (hs.2 rest hr))⟩

theorem toList_joined (v u : Literal) (items : List Literal) :
    (Literal.spelled.joined (v :: u :: items)).toList =
      v.spelled.toList ++ ',' :: ' ' :: (Literal.spelled.joined (u :: items)).toList := by
  rw [Literal.spelled.joined, String.toList_append, String.toList_append, append_assoc]
  · rfl
  · exact cons_ne_nil u items

theorem valueText_joined {items : List Literal}
    (h : ∀ v ∈ items, ∃ ks, ValueText v.spelled.toList ks) :
    ∃ ks, ValueText (Literal.spelled.joined items).toList ks := by
  induction items with
  | nil => exact ⟨[], valueText_nil⟩
  | cons v items ih =>
    obtain ⟨⟨ks, first⟩, others⟩ := forall_mem_cons.mp h
    obtain ⟨ls, behind⟩ := ih others
    cases items with
    | nil => exact ⟨ks, first⟩
    | cons u items =>
      rw [toList_joined]
      exact ⟨_, valueText_comma first behind⟩

theorem valueText_oneItem (h : ValueText text ks) :
    ValueText (text ++ [',']) (ks ++ [.word .comma]) :=
  ⟨h.1.append (.word Word.comma .nil), fun rest _ =>
    (h.2 _ (parted_mark rfl rest)).append (spells_lastComma rest)⟩

theorem spells_call (hn : Dotted callee ls) (h : ValueText text ks) (rest : List Char) :
    Spells (callee.toList ++ '(' :: (text ++ [')']))
      (ls ++ .opening .round :: (ks ++ [.closing .round])) rest := by
  have group : Spells ('(' :: (text ++ [')'])) _ rest :=
    spells_group .round (h.2 _ (parted_mark rfl rest))
  exact (spells_dotted hn (endsName_of_parted (parted_mark rfl _))).append group

theorem valueText_call (hn : Dotted callee ls) (h : ValueText text ks) :
    ValueText (callee.toList ++ '(' :: (text ++ [')']))
      (ls ++ .opening .round :: (ks ++ [.closing .round])) :=
  ⟨(valueText_name hn).1.append (valueText_group .round h).1, fun rest _ =>
    (spells_call hn h rest).value⟩

theorem toList_bracketed (start stop text : String) :
    (start ++ text ++ stop).toList = start.toList ++ (text.toList ++ stop.toList) := by
  rw [String.toList_append, String.toList_append, append_assoc]

/-- Every value that can be written out is read as words and groups. -/
theorem exists_valueText {v : Literal} (h : Spellable v) : ∃ ks, ValueText v.spelled.toList ks := by
  induction h with
  | string text => exact ⟨_, valueText_string text⟩
  | integer i => exact ⟨_, valueText_integer i⟩
  | float f => exact valueText_float f
  | bool b => exact valueText_bool b
  | name hn => exact ⟨_, valueText_name hn⟩
  | list _ ih =>
    obtain ⟨ks, items⟩ := valueText_joined ih
    rw [Literal.spelled, toList_bracketed]
    exact ⟨_, valueText_group .square items⟩
  | @tuple items _ ih =>
    by_cases one : ∃ item, items = [item]
    · obtain ⟨item, rfl⟩ := one
      obtain ⟨ks, first⟩ := ih item mem_cons_self
      rw [Literal.spelled, toList_bracketed]
      have inner := valueText_group .round (valueText_oneItem first)
      rw [append_assoc] at inner
      exact ⟨_, inner⟩
    · obtain ⟨ks, items⟩ := valueText_joined ih
      rw [Literal.spelled, toList_bracketed]
      · exact ⟨_, valueText_group .round items⟩
      · exact fun item eq => one ⟨item, eq⟩
  | @call callee _ args hn _ ih =>
    obtain ⟨ks, items⟩ := valueText_joined ih
    have spelled : (Literal.call callee args).spelled.toList =
        callee.toList ++ '(' :: ((Literal.spelled.joined args).toList ++ [')']) := by
      rw [Literal.spelled]
      simp
    rw [spelled]
    exact ⟨_, valueText_call hn items⟩

end Values

end Spells

end ViewBridge.Classes
