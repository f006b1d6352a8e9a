import ViewBridge.Proofs.Decimal.Sign
import ViewBridge.Proofs.Markup.Same

namespace ViewBridge.Markup

open Scanner

variable {v : Literal} {w : Word} {rest : List Char}

mutual

/-- A value made up of literals, names, calls and sequences. Its floats are of one sort and its
expressions of another. -/
def Plain (float : Float → Prop) (expression : String → Prop) : Literal → Prop
  | .string _ | .integer _ | .bool _ => True
  | .float f => float f
  | .name text => IsName text.toList ∧ text ≠ "True" ∧ text ≠ "False"
  | .list items | .tuple items => allPlain float expression items
  | .call callee args => IsName callee.toList ∧ allPlain float expression args
  | .expression text => expression text

def allPlain (float : Float → Prop) (expression : String → Prop) : List Literal → Prop
  | [] => True
  | v :: vs => Plain float expression v ∧ allPlain float expression vs

end

section Decide

variable (float : Float → Prop) (expression : String → Prop) [DecidablePred float]
  [DecidablePred expression]

mutual

def decidePlain : (v : Literal) → Decidable (Plain float expression v)
  | .string _ | .integer _ | .bool _ => .isTrue trivial
  | .float f => inferInstanceAs (Decidable (float f))
  | .name text =>
    inferInstanceAs (Decidable (IsName text.toList ∧ text ≠ "True" ∧ text ≠ "False"))
  | .list items | .tuple items => decideAllPlain items
  | .call callee args =>
    have := decideAllPlain args
    inferInstanceAs (Decidable (IsName callee.toList ∧ allPlain float expression args))
  | .expression text => inferInstanceAs (Decidable (expression text))

def decideAllPlain : (vs : List Literal) → Decidable (allPlain float expression vs)
  | [] => .isTrue trivial
  | v :: vs =>
    have := decidePlain v
    have := decideAllPlain vs
    inferInstanceAs (Decidable (Plain float expression v ∧ allPlain float expression vs))

end

instance : DecidablePred (Plain float expression) := decidePlain float expression

end Decide

section Weaken

variable {float float' : Float → Prop} {expression expression' : String → Prop}

mutual

theorem Plain.imp (hf : ∀ f, float f → float' f) (he : ∀ t, expression t → expression' t)
    (v : Literal) (h : Plain float expression v) : Plain float' expression' v := by
  cases v with
  | string | integer | bool => trivial
  | float f => exact hf f h
  | name text => exact h
  | list items => exact allPlain.imp hf he items h
  | tuple items => exact allPlain.imp hf he items h
  | call callee args => exact ⟨h.1, allPlain.imp hf he args h.2⟩
  | expression text => exact he text h

theorem allPlain.imp (hf : ∀ f, float f → float' f) (he : ∀ t, expression t → expression' t)
    (vs : List Literal) (h : allPlain float expression vs) : allPlain float' expression' vs := by
  cases vs with
  | nil => trivial
  | cons v vs => exact ⟨Plain.imp hf he v h.1, allPlain.imp hf he vs h.2⟩

end

end Weaken

mutual

def spelledKinds : Literal → List Kind
  | .string text => [.word (.string text)]
  | .integer i => [.word (.integer i)]
  | .float f => textKinds (Literal.floatText f)
  | .bool true => [.word (.identifier "True")]
  | .bool false => [.word (.identifier "False")]
  | .name text => [.word (.identifier text)]
  | .list items => .opening .square :: (joinedKinds items ++ [.closing .square])
  | .tuple [item] => .opening .round :: ((spelledKinds item ++ [.word .comma]) ++ [.closing .round])
  | .tuple items => .opening .round :: (joinedKinds items ++ [.closing .round])
  | .call callee args =>
    .word (.identifier callee) :: .opening .round :: (joinedKinds args ++ [.closing .round])
  | .expression text => [.word (.formatString text)]

def joinedKinds : List Literal → List Kind
  | [] => []
  | [item] => spelledKinds item
  | item :: items => spelledKinds item ++ .word .comma :: joinedKinds items

end

def EndsItem (rest : List Char) : Prop := ∀ c ∈ rest.head?, c ∈ [',', ')', ']', '\n']

theorem EndsItem.endsName (h : EndsItem rest) : EndsName rest := by
  have other : ∀ c ∈ [',', ')', ']', '\n'], isIdentifierPart c = false ∧ c ≠ '\'' ∧ c ≠ '"' := by
    decide
  exact fun c hc => other c (h c hc)

theorem EndsItem.endsNumber (h : EndsItem rest) : EndsNumber rest := by
  have other : ∀ c ∈ [',', ')', ']', '\n'],
      Text.isDigit c = false ∧ Text.isNameStart c = false ∧ c ≠ '.' := by
    decide
  refine ⟨fun c hc => ?_, fun c _ hp => ?_⟩
  · obtain ⟨digit, start, _⟩ := other c (h c hc)
    exact ⟨digit, start⟩
  · exact absurd rfl (other '.' (h '.' hp)).2.2

theorem endsItem_closing {b : Bracket} (hb : b ≠ .curly) (rest : List Char) :
    EndsItem (b.closeChar :: rest) := by
  intro c hc
  cases hc
  cases b with
  | curly => exact absurd rfl hb
  | _ => decide

/-- A text of items that is read as these kinds wherever a value may stand. -/
structure Spells (text : List Char) (ks : List Kind) : Prop where
  inside : ∀ depth, passage (depth + 1) ks = some (depth + 1)
  isText : ∀ k ∈ ks, TokenKind.isText k = true
  writes : ∀ blocks opened previous rest, previous.any endsValue = false → EndsItem rest →
    ∃ last, Writes readWord ⟨.inside, blocks, opened, previous⟩ text rest ks
      ⟨.inside, blocks, opened, last⟩

/-- The same of a text that is one item. -/
structure ItemSpells (text : List Char) (ks : List Kind) : Prop
    extends Spells text ks where
  starts : ∃ c cs, text = c :: cs ∧ isLayoutChar c = false
  ne_nil : ks ≠ []
  passage : passage 0 ks = some 0

theorem ItemSpells.itemReads {text : String} {ks : List Kind}
    (h : ItemSpells text.toList ks) : ItemReads text ks := by
  refine ⟨h.starts, ⟨h.ne_nil, h.passage⟩, h.isText, fun blocks previous rest hp hr => ?_⟩
  refine h.writes blocks [] previous rest hp fun c hc => ?_
  rcases hr c hc with rfl | rfl <;> decide

theorem itemSpells_word {text : List Char}
    (starts : ∃ c cs, text = c :: cs ∧ isLayoutChar c = false) (hw : w ≠ .comma)
    (writes : ∀ blocks opened previous rest, previous.any endsValue = false → EndsItem rest →
      Writes readWord ⟨.inside, blocks, opened, previous⟩ text rest [.word w]
        ⟨.inside, blocks, opened, some (.word w)⟩) : ItemSpells text [.word w] := by
  have passage : ∀ depth, passage depth [.word w] = some depth := by
    intro depth
    cases w with
    | comma => exact absurd rfl hw
    | _ => rfl
  exact ⟨⟨fun depth => passage _, by simp [TokenKind.isText],
    fun blocks opened previous rest hp hr => ⟨_, writes blocks opened previous rest hp hr⟩⟩,
    starts, by simp, passage 0⟩

theorem itemSpells_name {text : String} (h : IsName text.toList) :
    ItemSpells text.toList [.word (.identifier text)] := by
  refine itemSpells_word h.starts (by simp) fun blocks opened previous rest _ hr => ?_
  have name : Writes readWord ⟨.inside, blocks, opened, previous⟩ text.toList rest _ _ :=
    writes_name h hr.endsName
  rwa [String.ofList_toList] at name

theorem Numeral.starts {cs : List Char} (h : Numeral cs w) :
    ∃ c more, cs = c :: more ∧ isLayoutChar c = false := by
  obtain ⟨sign, number, _, rfl, hs, ⟨d, ds, rfl, hd⟩, _⟩ := h.numberText
  rcases hs with rfl | rfl
  · exact ⟨d, ds, rfl, (startsWord_of_isDigit hd).layout⟩
  · exact ⟨'-', d :: ds, rfl, rfl⟩

theorem itemSpells_numeral {text : List Char} (h : Numeral text w) : ItemSpells text [.word w] := by
  refine itemSpells_word h.starts ?_ fun blocks opened previous rest hp hr => ?_
  · rintro rfl
    cases h
  · exact writes_numeral h hr.endsNumber fun _ => hp

theorem itemSpells_formatString {text : String} (h : IsFormatString text.toList) :
    ItemSpells text.toList [.word (.formatString text)] := by
  refine itemSpells_word ?_ (by simp) fun blocks opened previous rest _ _ => ?_
  · obtain ⟨marks, quote, body, eq, parts⟩ := h
    obtain ⟨c, more, hc, hl⟩ := parts.name.starts
    exact ⟨c, more ++ quote :: body, by rw [eq, hc]; rfl, hl⟩
  · have string : Writes readWord ⟨.inside, blocks, opened, previous⟩ text.toList rest _ _ :=
      writes_formatString h rest
    rwa [String.ofList_toList] at string

theorem itemSpells_float (f : Float) :
    ItemSpells (Literal.floatText f).toList (textKinds (Literal.floatText f)) := by
  have spells : ∃ ks, ItemSpells (Literal.floatText f).toList ks := by
    by_cases hf : Decimal.IsFinite f
    · obtain ⟨number, hn, eq⟩ := Decimal.pointed_write_finite hf
      obtain ⟨g, _, numeral⟩ := numeral_float (Decimal.isSign_signOf f) hn
      exact ⟨_, by rw [Literal.floatText, eq]; exact itemSpells_numeral numeral⟩
    · rcases Decimal.pointed_write_infinite hf with eq | eq
      · exact ⟨_, itemSpells_name (by rw [Literal.floatText, eq]; decide)⟩
      rcases Decimal.isSign_signOf f with hs | hs
      · exact ⟨_, itemSpells_name (by rw [Literal.floatText, eq, hs]; decide)⟩
      · rw [Literal.floatText, eq, hs]
        have name : IsName "inf".toList := by decide
        refine ⟨[.word (.operator "-"), .word (.identifier "inf")],
          ⟨fun _ => rfl, by simp [TokenKind.isText], fun blocks opened previous rest _ hr => ?_⟩,
          ⟨'-', _, rfl, rfl⟩, by simp, rfl⟩
        have minus : Writes readWord ⟨.inside, blocks, opened, previous⟩ ['-']
            ("inf".toList ++ rest) [.word (.operator "-")]
            ⟨.inside, blocks, opened, some (.word (.operator "-"))⟩ :=
          writes_operator_name (by decide) name
        exact ⟨_, minus.trans (writes_name name hr.endsName)⟩
  obtain ⟨ks, hk⟩ := spells
  rwa [hk.itemReads.textKinds_eq]

variable {text : List Char} {ks : List Kind} {b : Bracket}

theorem Spells.writes_enclosed (h : Spells text ks) (hb : b ≠ .curly) (blocks : Indentation)
    (opened : List Bracket) (previous : Option Kind) (rest : List Char) :
    Writes readWord ⟨.inside, blocks, opened, previous⟩ (b.openChar :: (text ++ [b.closeChar])) rest
      (.opening b :: (ks ++ [.closing b])) ⟨.inside, blocks, opened, some (.closing b)⟩ := by
  have opening : (some (TokenKind.opening b)).any (endsValue ·) = false := rfl
  obtain ⟨last, inner⟩ := h.writes blocks (b :: opened) _ (b.closeChar :: rest) opening
    (endsItem_closing hb rest)
  simpa using ((writes_opening b _).trans inner).trans (writes_closing b rest)

theorem Spells.enclosed (h : Spells text ks) (hb : b ≠ .curly) :
    ItemSpells (b.openChar :: (text ++ [b.closeChar])) (.opening b :: (ks ++ [.closing b])) := by
  have passage : ∀ depth, passage depth (.opening b :: (ks ++ [.closing b])) = some depth := by
    intro depth
    simp only [Markup.passage, passage_append, depthAfter, h.inside, Option.bind_some]
    rfl
  refine ⟨⟨fun depth => passage _, ?_, fun blocks opened previous rest _ hr => ?_⟩, ?_, by simp,
    passage 0⟩
  · have closing : ∀ k ∈ [TokenKind.closing b], TokenKind.isText (ω := Word) k = true := by
      simp [TokenKind.isText]
    exact List.forall_mem_cons.mpr ⟨rfl, List.forall_mem_append.mpr ⟨h.isText, closing⟩⟩
  · exact ⟨_, h.writes_enclosed hb blocks opened previous rest⟩
  · refine ⟨b.openChar, text ++ [b.closeChar], rfl, ?_⟩
    cases b <;> rfl

theorem Spells.call {callee : String} (h : Spells text ks) (hc : IsName callee.toList) :
    ItemSpells (callee.toList ++ '(' :: (text ++ [')']))
      (.word (.identifier callee) :: .opening .round :: (ks ++ [.closing .round])) := by
  have args := h.enclosed (b := .round) (by decide)
  refine ⟨⟨fun depth => ?_, ?_, fun blocks opened previous rest hp hr => ?_⟩, ?_, by simp, ?_⟩
  · exact args.inside depth
  · exact List.forall_mem_cons.mpr ⟨rfl, args.isText⟩
  · have name : Writes readWord ⟨.inside, blocks, opened, previous⟩ callee.toList
        ('(' :: (text ++ [')']) ++ rest) _ _ :=
      writes_name hc (endsName_cons (by decide) (by decide) (by decide))
    rw [String.ofList_toList] at name
    exact ⟨_, name.trans (h.writes_enclosed (b := .round) (by decide) blocks opened _ rest)⟩
  · obtain ⟨c, more, eq, hl⟩ := hc.starts
    exact ⟨c, more ++ '(' :: (text ++ [')']), by rw [eq]; rfl, hl⟩
  · exact args.passage

theorem spells_nil : Spells [] [] :=
  ⟨fun _ => rfl, by simp, fun _ _ previous rest _ _ => ⟨previous, .refl _ rest⟩⟩

theorem ItemSpells.comma (h : ItemSpells text ks) : Spells (text ++ [',']) (ks ++ [.word .comma]) := by
  refine ⟨fun depth => ?_, ?_, fun blocks opened previous rest hp _ => ?_⟩
  · rw [passage_append, h.inside]
    rfl
  · exact List.forall_mem_append.mpr ⟨h.isText, by simp [TokenKind.isText]⟩
  · obtain ⟨last, item⟩ := h.writes blocks opened previous (',' :: rest) hp
      (by simp [EndsItem])
    exact ⟨_, item.trans (writes_comma rest)⟩

theorem ItemSpells.cons {text' : List Char} {ks' : List Kind} (h : ItemSpells text ks)
    (hs : Spells text' ks') :
    Spells (text ++ ',' :: ' ' :: text') (ks ++ .word .comma :: ks') := by
  have first := h.comma
  refine ⟨fun depth => ?_, ?_, fun blocks opened previous rest hp hr => ?_⟩
  · have both := passage_append (depth + 1) (ks ++ [.word .comma]) ks'
    rw [first.inside, Option.bind_some, hs.inside] at both
    simpa using both
  · exact List.forall_mem_append.mpr ⟨h.isText, List.forall_mem_cons.mpr ⟨rfl, hs.isText⟩⟩
  · obtain ⟨last, others⟩ := hs.writes blocks opened (some (.word .comma)) rest rfl hr
    obtain ⟨_, item⟩ := h.writes blocks opened previous (',' :: ' ' :: (text' ++ rest)) hp
      (by simp [EndsItem])
    have line := ((item.trans (writes_comma _)).trans (writes_blank _ (.inl rfl))).trans others
    exact ⟨last, by simpa using line⟩

/-- The sort of plain values that the markup can read from their own text. -/
abbrev IsPlain : Literal → Prop := Plain (fun _ => True) (IsFormatString ·.toList)

mutual

theorem itemSpells_plain (v : Literal) (h : IsPlain v) :
    ItemSpells v.spelled.toList (spelledKinds v) := by
  match v with
  | .string text =>
    rw [Literal.spelled, spelledKinds]
    exact itemSpells_word ⟨'\'', _, toList_quote text, rfl⟩ (by simp)
      fun _ _ _ rest _ _ => writes_string text rest
  | .integer i => exact itemSpells_numeral (numeral_integer i)
  | .float f => exact itemSpells_float f
  | .bool true => exact itemSpells_name (by decide)
  | .bool false => exact itemSpells_name (by decide)
  | .name text => exact itemSpells_name h.1
  | .list items =>
    have items := (spells_joined items h).enclosed (b := .square) (by decide)
    rw [Literal.spelled, spelledKinds]
    simpa [Bracket.openChar, Bracket.closeChar] using items
  | .tuple [] =>
    have items := spells_nil.enclosed (b := .round) (by decide)
    exact items
  | .tuple [item] =>
    have items := (itemSpells_plain item h.1).comma.enclosed (b := .round) (by decide)
    rw [Literal.spelled, spelledKinds]
    simpa [Bracket.openChar, Bracket.closeChar] using items
  | .tuple (first :: second :: items) =>
    have items := (spells_joined (first :: second :: items) h).enclosed (b := .round) (by decide)
    rw [Literal.spelled, spelledKinds]
    · simpa [Bracket.openChar, Bracket.closeChar] using items
    · simp
    · simp
  | .call callee args =>
    have call := (spells_joined args h.2).call h.1
    rw [Literal.spelled, spelledKinds]
    simpa using call
  | .expression text => exact itemSpells_formatString h

theorem spells_joined (items : List Literal)
    (h : allPlain (fun _ => True) (IsFormatString ·.toList) items) :
    Spells (Literal.spelled.joined items).toList (joinedKinds items) := by
  match items with
  | [] => exact spells_nil
  | [item] => exact (itemSpells_plain item h.1).toSpells
  | first :: second :: items =>
    have items := (itemSpells_plain first h.1).cons (spells_joined (second :: items) h.2)
    rw [Literal.spelled.joined, joinedKinds]
    · simpa using items
    · simp
    · simp

end

/-- Whether a double is a number that is read from its own text. -/
def FloatReadsBack (f : Float) : Prop :=
  Decimal.IsFinite f ∧ Decimal.readFloat? (Literal.floatText f).toList = some f

instance : DecidablePred FloatReadsBack := fun _ => inferInstanceAs (Decidable (_ ∧ _))

theorem FloatReadsBack.numeral {f : Float} (h : FloatReadsBack f) :
    Numeral (Literal.floatText f).toList (.float f) := by
  obtain ⟨hf, read⟩ := h
  obtain ⟨number, hn, eq⟩ := Decimal.pointed_write_finite hf
  obtain ⟨g, read', numeral⟩ := numeral_float (Decimal.isSign_signOf f) hn
  have text : (Literal.floatText f).toList = Decimal.signOf f ++ number := eq
  rw [text, read'] at read
  obtain rfl : g = f := Option.some.inj read
  rwa [text]

mutual

/-- The tokens of a plain value are read as the value. -/
theorem phrase_plain (v : Literal) (h : Plain FloatReadsBack (IsFormatString ·.toList) v) :
    ∃ u, Phrase (spelledKinds v) u ∧ u.same v = true := by
  match v with
  | .string text => exact ⟨_, .string text, by simp [Literal.same]⟩
  | .integer i => exact ⟨_, .integer i, by simp [Literal.same]⟩
  | .float f =>
    rw [spelledKinds, (itemSpells_numeral h.numeral).itemReads.textKinds_eq]
    exact ⟨_, .float f, (Decimal.isDefined_of_isFinite h.1).beq_self⟩
  | .bool true => exact ⟨_, .name "True", rfl⟩
  | .bool false => exact ⟨_, .name "False", rfl⟩
  | .name text =>
    obtain ⟨_, isTrue, isFalse⟩ := h
    refine ⟨_, .name text, ?_⟩
    simp [Literal.ofName, isTrue, isFalse, Literal.same]
  | .list items =>
    obtain ⟨us, phrases, same⟩ := phrases_plain .square items h
    exact ⟨_, .list phrases, same⟩
  | .tuple [] => exact ⟨_, .unit, rfl⟩
  | .tuple [item] =>
    obtain ⟨u, phrase, same⟩ := phrase_plain item h.1
    have tuple := Phrase.tuple phrase (.close .round)
    exact ⟨_, by simpa [spelledKinds] using tuple, by simp [Literal.same, Literal.same.allSame, same]⟩
  | .tuple (first :: second :: items) =>
    obtain ⟨u, phrase, same⟩ := phrase_plain first h.1
    obtain ⟨us, phrases, others⟩ := phrases_plain .round (second :: items) h.2
    have tuple := Phrase.tuple phrase phrases
    refine ⟨.tuple (u :: us), ?_, by simp [Literal.same, Literal.same.allSame, same, others]⟩
    rw [spelledKinds, joinedKinds, List.append_assoc]
    · exact tuple
    · simp
    · simp
  | .call callee args =>
    obtain ⟨us, phrases, same⟩ := phrases_plain .round args h.2
    exact ⟨_, .call callee phrases, by simp [Literal.same, same]⟩
  | .expression text => exact ⟨_, .formatString text, by simp [Literal.same]⟩

theorem phrases_plain (b : Bracket) (items : List Literal)
    (h : allPlain FloatReadsBack (IsFormatString ·.toList) items) :
    ∃ us, Phrases b (joinedKinds items ++ [.closing b]) us ∧
      Literal.same.allSame us items = true := by
  match items with
  | [] => exact ⟨[], .close b, rfl⟩
  | [item] =>
    obtain ⟨u, phrase, same⟩ := phrase_plain item h.1
    exact ⟨[u], .last phrase, by simp [Literal.same.allSame, same]⟩
  | first :: second :: items =>
    obtain ⟨u, phrase, same⟩ := phrase_plain first h.1
    obtain ⟨us, phrases, others⟩ := phrases_plain b (second :: items) h.2
    refine ⟨u :: us, ?_, by simp [Literal.same.allSame, same, others]⟩
    rw [joinedKinds, List.append_assoc]
    · exact .more phrase phrases
    · simp

end

theorem allPlain_iff {float : Float → Prop} {expression : String → Prop} {vs : List Literal} :
    allPlain float expression vs ↔ ∀ v ∈ vs, Plain float expression v := by
  induction vs with
  | nil => simp [allPlain]
  | cons v vs ih => rw [allPlain, List.forall_mem_cons, ih]

theorem Plain.parts {float : Float → Prop} {expression : String → Prop}
    (h : Plain float expression v) : ∀ item ∈ parts v, Plain float expression item := by
  rcases value_cases v with ⟨item, rfl⟩ | ⟨first, second, items, rfl⟩ | ⟨hp, _⟩
  · exact allPlain_iff.mp h
  · exact allPlain_iff.mp h
  · rwa [hp, List.forall_mem_singleton]

theorem legible_of_plain (h : IsPlain v) : Legible v :=
  fun item hi => ⟨_, (itemSpells_plain item (h.parts item hi)).itemReads⟩

theorem readText_plain (h : Plain FloatReadsBack (IsFormatString ·.toList) v) :
    ∃ u, readText v.spelled = some u ∧ u.same v = true := by
  obtain ⟨u, phrase, same⟩ := phrase_plain v h
  have spells := itemSpells_plain v (h.imp (fun _ _ => trivial) (fun _ h => h))
  refine ⟨u, ?_, same⟩
  rw [readText, spells.itemReads.textKinds_eq]
  exact readItem_phrase phrase

theorem readsBack_of_plain (h : Plain FloatReadsBack (IsFormatString ·.toList) v) : ReadsBack v :=
  (readsBack_iff v).mpr fun item hi => readText_plain (h.parts item hi)

end ViewBridge.Markup
