import ViewBridge.Proofs.Markup.Spacing

namespace ViewBridge.Markup

open Scanner List

variable {value : Bool} {opened middle opened' : List Bracket} {first second text : List Char}
  {ks ls : List Kind} {d : Char} {k : Kind}

/-- A token that is read from the start of a text; `value` tells whether an operand ends before
it. -/
def Leads (value : Bool) (opened : List Bracket) (first second : List Char) (k : Kind)
    (opened' : List Bracket) : Prop :=
  ∀ blocks previous rest, previous.any endsValue = value → EndsItem rest →
    Writes readWord ⟨.inside, blocks, opened, previous⟩ first (second ++ rest) [k]
      ⟨.inside, blocks, opened', some k⟩

/-- A text that is read as some tokens of an item, which open and close the same brackets as those
that it was made from. -/
def Rereads (value : Bool) (opened : List Bracket) (text : List Char) (ks : List Kind)
    (opened' : List Bracket) : Prop :=
  ∃ ls, (∀ blocks previous rest, previous.any endsValue = value → EndsItem rest →
      ∃ last, Writes readWord ⟨.inside, blocks, opened, previous⟩ text rest ls
        ⟨.inside, blocks, opened', last⟩) ∧
    (∀ depth, passage depth ls = passage depth ks) ∧ (ks ≠ [] → ls ≠ []) ∧
    ∀ k ∈ ls, TokenKind.isText k = true

theorem Rereads.blank (h : Rereads value opened second ks opened') :
    Rereads value opened (' ' :: second) ks opened' := by
  obtain ⟨ls, writes, same⟩ := h
  refine ⟨ls, fun blocks previous rest hp hr => ?_, same⟩
  obtain ⟨last, writes⟩ := writes blocks previous rest hp hr
  exact ⟨last, (writes_blank _ (.inl rfl)).trans writes⟩

/-- A token before a text, in the place of some tokens that pass the same brackets. -/
theorem Rereads.lead (hk : k.isText = true) (lead : Leads value opened first second k middle)
    (h : Rereads (endsValue k) middle second ks opened')
    (same : ∀ {rest}, (∀ depth, passage depth rest = passage depth ks) →
      ∀ depth, passage depth (k :: rest) = passage depth ls) :
    Rereads value opened (first ++ second) ls opened' := by
  obtain ⟨rest, writes, passed, _, text⟩ := h
  refine ⟨k :: rest, fun blocks previous rest hp hr => ?_, same passed, by simp,
    forall_mem_cons.mpr ⟨hk, text⟩⟩
  obtain ⟨last, writes⟩ := writes blocks (some k) rest rfl hr
  exact ⟨last, (lead blocks previous rest hp hr).trans writes⟩

variable {c : Char} {cs : List Char} {w' : Word} {previous : Option Kind}

theorem passage_word {w : Word} (hw : w ≠ .comma) (depth : Nat) :
    passage depth (.word w :: ks) = passage depth ks := by
  cases w with
  | comma => exact absurd rfl hw
  | _ => rfl

theorem passage_cons_congr (h : ∀ depth, passage depth ls = passage depth ks) (k : Kind)
    (depth : Nat) : passage depth (k :: ls) = passage depth (k :: ks) := by
  unfold passage
  simp only [h]

theorem Rereads.token (hk : k.isText = true) (lead : Leads value opened first second k middle)
    (h : Rereads (endsValue k) middle second ks opened') :
    Rereads value opened (first ++ second) (k :: ks) opened' :=
  h.lead hk lead fun passed => passage_cons_congr passed k

theorem Rereads.extra {w : Word} (hw : w ≠ .comma)
    (lead : Leads value opened first second (.word w) opened)
    (h : Rereads w.endsValue opened second ks opened') :
    Rereads value opened (first ++ second) ks opened' := by
  refine h.lead rfl lead fun passed depth => ?_
  rw [passage_word hw, passed]

theorem Rereads.cons {w : Word} (hw : w ≠ .comma) (hw' : w' ≠ .comma)
    (lead : Leads value opened first second (.word w) opened)
    (h : Rereads w.endsValue opened second ks opened') :
    Rereads value opened (first ++ second) (.word w' :: ks) opened' := by
  refine h.lead rfl lead fun passed depth => ?_
  rw [passage_word hw, passage_word hw', passed]

theorem Rereads.absorb {w : Word} (hw : w ≠ .comma) (hk : ks ≠ [])
    (h : Rereads value opened first ks opened') :
    Rereads value opened first (.word w :: ks) opened' := by
  obtain ⟨ls, writes, passed, filled, text⟩ := h
  refine ⟨ls, writes, fun depth => ?_, fun _ => filled hk, text⟩
  rw [passage_word hw, passed]

theorem leads_pair (h : isPair c d = true) (second : List Char) :
    Leads value opened [c, d] second (.word (.operator (String.ofList [c, d]))) opened :=
  fun _ _ _ _ _ => writes_pair h _

/-- The end of a text that the next characters may still go on with: a name, or a mark. -/
inductive Pending (value : Bool) (s : Spacing) : List Char → Word → Prop
  | name {cs w : _} : w.isOperand = true → s.afterUnary = false →
      IsName cs ∨ IsDotted cs ∧ value = true →
      w.endsValue = (Word.identifier (String.ofList cs)).endsValue → Pending value s cs w
  | mark {c w : _} : w ≠ .comma → w.endsValue = false → IsMark c → Pending value s [c] w

/-- Whether the text of tokens is read as such tokens at a place where nothing is pending. -/
def Fresh (ks : List Kind) : Prop :=
  ∀ {s : Spacing} {opened opened'}, Lexed s.previous opened ks opened' →
    (∀ k ∈ ks, TokenKind.isText k = true) →
    Rereads (s.previous.any endsValue) opened (spelledText s ks) ks opened'

/-- Whether it is so behind anything that may be pending. -/
def Resumes (ks : List Kind) : Prop :=
  ∀ {s : Spacing} {opened opened' value cs w}, s.previous = some (.word w) →
    Lexed s.previous opened ks opened' → (∀ k ∈ ks, TokenKind.isText k = true) →
    Pending value s cs w →
    Rereads value opened (cs ++ spelledText s ks) (.word w :: ks) opened'

theorem afterUnary_operand {w : Word} (hw : w.isOperand = true) (s : Spacing) :
    (s.after (.word w)).afterUnary = false := by
  cases w with
  | operator => cases hw
  | _ => rfl

theorem Numeral.endsValue {w : Word} (h : Numeral cs w) : w.endsValue = true ∧ w ≠ .comma := by
  cases h with
  | integer => exact ⟨rfl, by simp⟩
  | float => exact ⟨rfl, by simp⟩

theorem ne_comma_of_isOperand {w : Word} (hw : w.isOperand = true) : w ≠ .comma := by
  rintro rfl
  cases hw

theorem endsValue_mark {w : Word} (h : w = angleWord c ∨ w = .operator c.toString) :
    w.endsValue = false ∧ w ≠ .comma := by
  rcases h with rfl | rfl
  · unfold angleWord
    split
    · exact ⟨rfl, by simp⟩
    · exact ⟨rfl, by simp⟩
  · exact ⟨rfl, by simp⟩

variable {s : Spacing} {w : Word}

/-- The first word, behind which the others are read. -/
theorem fresh_word (fresh : Fresh ks) (resumes : Resumes ks) (fits : w.Fits s.previous)
    (hl : Lexed (some (.word w)) opened ks opened') (ht : ∀ k ∈ ks, TokenKind.isText k = true) :
    Rereads (s.previous.any endsValue) opened
      ((tokenText (.word w)).toList ++ spelledText (s.after (.word w)) ks) (.word w :: ks)
      opened' := by
  have others : Rereads w.endsValue opened (spelledText (s.after (.word w)) ks) ks opened' :=
    fresh (s := s.after (.word w)) hl ht
  have pending : ∀ {value cs}, Pending value (s.after (.word w)) cs w →
      Rereads value opened (cs ++ spelledText (s.after (.word w)) ks) (.word w :: ks) opened' :=
    fun hp => resumes (s := s.after (.word w)) rfl hl ht hp
  have spelled := spelled_word fits
  generalize (tokenText (.word w)).toList = cs at spelled
  cases spelled with
  | name hw name value => exact pending (.name hw (afterUnary_operand hw s) (.inl name) value)
  | dotted dotted hv =>
    refine pending (.name rfl rfl (.inr ⟨dotted, hv⟩) ?_)
    rw [String.ofList_toList]
  | @numeral _ v _ hw value numeral minus =>
    obtain ⟨value', comma⟩ := numeral.endsValue
    rw [value, ← value'] at others
    refine .cons comma (ne_comma_of_isOperand hw) (fun blocks previous rest hp hr => ?_) others
    have number := endsNumber_operand (s := s.after (.word w)) hw rfl (afterUnary_operand hw s) hl hr
    exact writes_numeral numeral number fun hm => hp.trans (minus hm)
  | @minusName f =>
    have inf : IsName "inf".toList := by decide
    have value : (Word.identifier (String.ofList "inf".toList)).endsValue = true := by decide
    have named : Rereads false opened _ _ opened' := pending (.name rfl rfl (.inl inf) value.symm)
    have minus : Leads (s.previous.any endsValue) opened ['-']
        ("inf".toList ++ spelledText (s.after (.word (.float f))) ks) (.word (.operator "-"))
        opened := by
      intro blocks previous rest _ _
      rw [append_assoc]
      exact writes_operator_name (by decide) inf
    have both := Rereads.extra (by simp) minus named
    exact both
  | fixed _ _ _ writes => exact .token rfl (fun _ _ _ _ _ => writes _ _ _ _) others
  | mark hw hc =>
    obtain ⟨value, comma⟩ := endsValue_mark hw
    exact pending (.mark comma value hc)
  | pair hp => exact .token rfl (leads_pair hp _) others
  | colon => exact .token rfl (fun _ _ _ _ _ => writes_colon _) others
  | comma => exact .token rfl (fun _ _ _ _ _ => writes_comma _) others

theorem fresh_cons (fresh : Fresh ks) (resumes : Resumes ks) : Fresh (k :: ks) := by
  intro s opened opened' hl ht
  have text := forall_mem_cons.mp ht
  suffices first : Rereads (s.previous.any endsValue) opened
      ((tokenText k).toList ++ spelledText (s.after k) ks) (k :: ks) opened' by
    rw [spelledText_cons]
    rcases s.gap_cases k with gap | ⟨gap, _⟩
    · rw [gap]
      exact first.blank
    · rwa [gap]
  cases hl with
  | word fits hl => exact fresh_word fresh resumes fits hl text.2
  | @opening _ _ b _ _ hl =>
    rw [tokenText_opening]
    exact .token rfl (fun _ _ _ _ _ => writes_opening b _) (fresh (s := s.after _) hl text.2)
  | @closing _ _ b _ _ hl =>
    rw [tokenText_closing]
    exact .token rfl (fun _ _ _ _ _ => writes_closing b _) (fresh (s := s.after _) hl text.2)
  | newline => cases text.1
  | layout hk => rcases hk with rfl | rfl | rfl <;> cases text.1

theorem IsName.append_dotted (h : IsName cs) (hd : IsDotted text) : IsName (cs ++ text) := by
  obtain ⟨c, more, rfl, hc, hm⟩ := h
  obtain ⟨_, ⟨d, parts, rfl, hd, hp⟩, rfl⟩ := hd
  refine ⟨c, _, rfl, hc, ?_⟩
  have point : isIdentifierPart '.' = true := by decide
  have start := isIdentifierPart_of_isNameStart hd
  exact forall_mem_append.mpr ⟨hm, forall_mem_cons.mpr
    ⟨point, forall_mem_cons.mpr ⟨start, hp⟩⟩⟩

theorem IsDotted.append_dotted (h : IsDotted cs) (hd : IsDotted text) : IsDotted (cs ++ text) := by
  obtain ⟨name, hn, rfl⟩ := h
  exact ⟨name ++ text, hn.append_dotted hd, rfl⟩

theorem endsValue_of_mem_point {text : String} (h : '.' ∈ text.toList) :
    (Word.identifier text).endsValue = true := by
  have undotted : ∀ text ∈ expressionKeywords, '.' ∉ text.toList := by decide
  have other : text ∉ expressionKeywords := fun hm => undotted text hm h
  simp [Word.endsValue, other]

theorem IsDotted.mem_point (h : IsDotted cs) : '.' ∈ cs := by
  obtain ⟨name, _, rfl⟩ := h
  exact mem_cons_self

theorem resumes_name (fresh : Fresh ks)
    (resumes : ∀ k more, ks = k :: more → Resumes more) (hs : s.previous = some (.word w))
    (hl : Lexed s.previous opened ks opened') (ht : ∀ k ∈ ks, TokenKind.isText k = true)
    (hw : w.isOperand = true) (hu : s.afterUnary = false)
    (hc : IsName cs ∨ IsDotted cs ∧ value = true)
    (hv : w.endsValue = (Word.identifier (String.ofList cs)).endsValue) :
    Rereads value opened (cs ++ spelledText s ks) (.word w :: ks) opened' := by
  rcases ends_operand hw hs hu hl with ⟨text, more, rfl, dotted, gap⟩ | ends
  · rw [spelledText_cons, gap, nil_append, ← append_assoc]
    have joined : IsName (cs ++ text.toList) ∨ IsDotted (cs ++ text.toList) ∧ value = true := by
      rcases hc with hc | ⟨hc, hv⟩
      · exact .inl (hc.append_dotted dotted)
      · exact .inr ⟨hc.append_dotted dotted, hv⟩
    have point : '.' ∈ (String.ofList (cs ++ text.toList)).toList := by
      rw [String.toList_ofList]
      exact mem_append_right _ dotted.mem_point
    have same : (Word.identifier text).endsValue =
        (Word.identifier (String.ofList (cs ++ text.toList))).endsValue := by
      rw [endsValue_of_mem_point dotted.mem_point, endsValue_of_mem_point point]
    have next := resumes _ more rfl (s := s.after (.word (.identifier text))) rfl hl.word_fits.2
      (forall_mem_cons.mp ht).2 (.name rfl rfl joined same)
    exact .absorb (ne_comma_of_isOperand hw) (by simp) next
  · have others := fresh hl ht
    rw [hs, Option.any_some, endsValue, hv] at others
    refine .cons (by simp) (ne_comma_of_isOperand hw) (fun blocks previous rest hp hr => ?_) others
    rcases hc with hc | ⟨hc, hv⟩
    · exact writes_name hc (ends rest hr).1
    · exact writes_dotted hc (ends rest hr).1 (hp.trans hv)

/-- A character that no mark before it is read together with. -/
def Inert (d : Char) : Prop := d ∉ ['*', '/', '=', '<', '>'] ∧ Text.isDigit d = false

instance : DecidablePred Inert := fun _ => inferInstanceAs (Decidable (_ ∧ _))

theorem Inert.isPair (h : Inert d) (c : Char) : isPair c d = false := by
  cases hp : Markup.isPair c d with
  | false => rfl
  | true => exact absurd (by simpa using isPair_second hp) h.1

theorem inert_of_isNameStart (h : Text.isNameStart d = true) : Inert d := by
  have other : ∀ d ∈ ['*', '/', '=', '<', '>'], Text.isNameStart d = false := by decide
  refine ⟨fun hm => ?_, isDigit_of_isNameStart h⟩
  rw [other d hm] at h
  cases h

theorem Numeral.negate {v : Word} (h : Numeral cs v) (hs : cs.head? ≠ some '-') :
    ∃ v', Numeral ('-' :: cs) v' := by
  cases h with
  | @integer sign digits i hsign hd hi =>
    rcases hsign with rfl | rfl
    · rw [nil_append, Decimal.readInt64?_digits hd] at hi
      have value := Decimal.toInt_of_int64OfInt? hi
      have bound := Int64.toInt_lt i
      have range : Int64.minValue.toInt ≤ -(Nat.ofDigitChars 10 digits 0 : Int) ∧
          -(Nat.ofDigitChars 10 digits 0 : Int) ≤ Int64.maxValue.toInt := by
        rw [Int64.toInt_minValue, Int64.toInt_maxValue]
        omega
      have read : Decimal.readInt64? (['-'] ++ digits) =
          some (Int64.ofInt (-(Nat.ofDigitChars 10 digits 0 : Int))) := by
        rw [singleton_append, Decimal.readInt64?_minus hd, Decimal.int64OfInt?, if_pos range]
      exact ⟨_, .integer (.inr rfl) hd read⟩
    · exact absurd rfl hs
  | @float sign whole fraction f hsign hw hf hread =>
    rcases hsign with rfl | rfl
    · obtain ⟨g, _, numeral⟩ := numeral_float (.inr rfl) ⟨whole, fraction, hw, hf, rfl⟩
      exact ⟨_, numeral⟩
    · exact absurd rfl hs

theorem isPair_digit (hd : Text.isDigit d = true) : isPair c d = false := by
  cases h : isPair c d with
  | false => rfl
  | true => rcases isPair_second h with rfl | rfl | rfl | rfl | rfl <;> revert hd <;> decide

theorem isDigit_of_isMark (h : IsMark c) : Text.isDigit c = false := by
  have other : ∀ c ∈ operatorChars, Text.isDigit c = false := by decide
  rcases h with rfl | rfl | h
  · rfl
  · rfl
  · exact other c h

theorem EndsItem.inert {rest : List Char} (h : EndsItem rest) :
    ∀ d ∈ rest.head?, Inert d ∧ joinsAngle d = false := by
  have other : ∀ d ∈ [',', ')', ']', '\n'], Inert d ∧ joinsAngle d = false := by decide
  exact fun d hd => other d (h d hd)

/-- A mark that does not go on with the text behind it. -/
theorem leads_mark (hc : IsMark c) (pair : ∀ d ∈ text.head?, isPair c d = false)
    (minus : c = '-' → text.head?.any Text.isDigit = true → value = true) :
    Leads value opened [c] text (.word (markWord c text)) opened := by
  intro blocks previous rest hp hr
  cases text with
  | cons d more => exact writes_mark hc pair fun hm digit => hp.trans (minus hm digit)
  | nil =>
    have word : markWord c rest = markWord c [] := by
      have angle : rest.head?.any joinsAngle = false := by
        cases h : rest.head? with
        | none => rfl
        | some d => exact (hr.inert d h).2
      simp [markWord, angle]
    rw [← word]
    refine writes_mark hc (fun d hd => (hr.inert d hd).1.isPair c) fun _ digit => ?_
    obtain ⟨d, hd, digit⟩ := (Option.any_eq_true _ _).mp digit
    rw [(hr.inert d hd).1.2] at digit
    cases digit

theorem markWord_word (c : Char) (text : List Char) :
    markWord c text = angleWord c ∨ markWord c text = .operator c.toString := by
  unfold markWord
  split
  · exact .inl rfl
  · exact .inr rfl

theorem resumes_alone (fresh : Fresh ks) (hs : s.previous = some (.word w))
    (hl : Lexed s.previous opened ks opened') (ht : ∀ k ∈ ks, TokenKind.isText k = true)
    (hw : w ≠ .comma) (hv : w.endsValue = false) (hc : IsMark c)
    (pair : ∀ d ∈ (spelledText s ks).head?, isPair c d = false)
    (minus : c = '-' → (spelledText s ks).head?.any Text.isDigit = true → value = true) :
    Rereads value opened (c :: spelledText s ks) (.word w :: ks) opened' := by
  obtain ⟨hv', comma⟩ := endsValue_mark (markWord_word c (spelledText s ks))
  have others := fresh hl ht
  rw [hs, Option.any_some, endsValue, hv, ← hv'] at others
  exact .cons comma hw (leads_mark hc pair minus) others

/-- A pending mark behind which a word stands directly: it goes on with another mark, and a minus
goes on with a number. -/
theorem resumes_mark_word (fresh : Fresh ks) (resumes : Resumes ks)
    (fits : w'.Fits s.previous) (hl : Lexed (some (.word w')) opened ks opened')
    (ht : ∀ k ∈ ks, TokenKind.isText k = true) (hw : w ≠ .comma)
    (alone : ∀ {d more}, (tokenText (.word w')).toList = d :: more → isPair c d = false →
      (c = '-' → Text.isDigit d = true → value = true) →
      Rereads value opened
        (c :: ((tokenText (.word w')).toList ++ spelledText (s.after (.word w')) ks))
        (.word w :: .word w' :: ks) opened') :
    Rereads value opened
      (c :: ((tokenText (.word w')).toList ++ spelledText (s.after (.word w')) ks))
      (.word w :: .word w' :: ks) opened' := by
  have others : Rereads w'.endsValue opened (spelledText (s.after (.word w')) ks) ks opened' :=
    fresh (s := s.after (.word w')) hl ht
  have spelled := spelled_word fits
  generalize (tokenText (.word w')).toList = cs at spelled alone
  have inert : ∀ {d more}, cs = d :: more → Inert d →
      Rereads value opened (c :: (cs ++ spelledText (s.after (.word w')) ks))
        (.word w :: .word w' :: ks) opened' := by
    intro d more eq hd
    refine alone eq (hd.isPair c) fun _ digit => ?_
    rw [hd.2] at digit
    cases digit
  have unpaired : ∀ {d more}, cs = d :: more → IsMark d → isPair c d = false →
      Rereads value opened (c :: (cs ++ spelledText (s.after (.word w')) ks))
        (.word w :: .word w' :: ks) opened' := by
    intro d more eq hd hp
    refine alone eq hp fun _ digit => ?_
    rw [isDigit_of_isMark hd] at digit
    cases digit
  cases spelled with
  | name _ name _ =>
    obtain ⟨d, more, rfl, hd, _⟩ := name
    exact inert rfl (inert_of_isNameStart hd)
  | dotted dotted _ =>
    obtain ⟨name, _, eq⟩ := dotted
    exact inert eq (by decide)
  | @numeral _ v _ hw' hv numeral _ =>
    obtain ⟨sign, number, _, rfl, hsign, ⟨d, ds, rfl, digit⟩, _⟩ := numeral.numberText
    rcases hsign with rfl | rfl
    · by_cases joined : c = '-' ∧ value = false
      · obtain ⟨rfl, rfl⟩ := joined
        have ne : d ≠ '-' := ne_of_class digit rfl
        obtain ⟨v', negative⟩ := numeral.negate (by simpa using ne)
        obtain ⟨hv', comma⟩ := negative.endsValue
        rw [hv, ← hv'] at others
        have number : Leads false opened ('-' :: d :: ds) (spelledText (s.after (.word w')) ks)
            (.word v') opened := by
          intro blocks previous rest hp hr
          have ends := endsNumber_operand (s := s.after (.word w')) hw' rfl
            (afterUnary_operand hw' s) hl hr
          exact writes_numeral negative ends fun _ => hp
        have both := Rereads.cons comma (ne_comma_of_isOperand hw') number others
        exact .absorb hw (by simp) both
      · refine alone rfl (isPair_digit digit) fun minus _ => ?_
        simpa [minus] using joined
    · exact inert rfl (by decide)
  | minusName => exact inert rfl (by decide)
  | fixed _ _ starts _ =>
    obtain ⟨d, more, rfl, hd⟩ := starts
    simp only [startsFixed, Bool.or_eq_true, beq_iff_eq] at hd
    rcases hd with rfl | hd
    · exact inert rfl (by decide)
    · exact inert rfl (inert_of_isNameStart hd)
  | @mark _ d hw' hd =>
    obtain ⟨hv, comma⟩ := endsValue_mark hw'
    cases hp : isPair c d with
    | false => exact unpaired rfl hd hp
    | true =>
      rw [hv] at others
      have both : Rereads value opened ([c, d] ++ _) (.word w' :: ks) opened' :=
        .cons (by simp) comma (leads_pair hp _) others
      exact .absorb hw (by simp) both
  | @pair d e second =>
    cases hp : isPair c d with
    | false => exact unpaired rfl (isPair_first second) hp
    | true =>
      have marked : Rereads false opened ([e] ++ _) _ opened' :=
        resumes (s := s.after _) rfl hl ht (.mark (by simp) rfl (isMark_second second))
      have both : Rereads value opened ([c, d] ++ ([e] ++ _)) _ opened' :=
        .extra (by simp) (leads_pair hp _) marked
      exact .absorb hw (by simp) both
  | colon => exact inert rfl (by decide)
  | comma => exact inert rfl (by decide)

theorem resumes_mark (fresh : Fresh ks) (resumes : Resumes ks)
    (hs : s.previous = some (.word w)) (hl : Lexed s.previous opened (k :: ks) opened')
    (ht : ∀ k' ∈ k :: ks, TokenKind.isText k' = true) (hw : w ≠ .comma) (hv : w.endsValue = false)
    (hc : IsMark c) :
    Rereads value opened (c :: spelledText s (k :: ks)) (.word w :: k :: ks) opened' := by
  have text := forall_mem_cons.mp ht
  have alone : ∀ {d more}, spelledText s (k :: ks) = d :: more → isPair c d = false →
      (c = '-' → Text.isDigit d = true → value = true) →
      Rereads value opened (c :: spelledText s (k :: ks)) (.word w :: k :: ks) opened' := by
    intro d more eq hp minus
    have head : (spelledText s (k :: ks)).head? = some d := by rw [eq, head?_cons]
    refine resumes_alone (fresh_cons fresh resumes) hs hl ht hw hv hc ?_ ?_
    · rw [head]
      rintro d' ⟨⟩
      exact hp
    · rw [head]
      exact minus
  have inert : ∀ {d more}, spelledText s (k :: ks) = d :: more → Inert d →
      Rereads value opened (c :: spelledText s (k :: ks)) (.word w :: k :: ks) opened' := by
    intro d more eq hd
    refine alone eq (hd.isPair c) fun _ digit => ?_
    rw [hd.2] at digit
    cases digit
  rw [spelledText_cons] at alone inert ⊢
  rcases s.gap_cases k with gap | ⟨gap, _⟩
  · rw [gap] at inert ⊢
    exact inert rfl (by decide)
  rw [gap, nil_append] at alone inert ⊢
  cases hl with
  | word fits hl =>
    refine resumes_mark_word fresh resumes fits hl text.2 hw fun eq hp minus => ?_
    exact alone (by rw [eq, cons_append]) hp minus
  | @opening _ _ b =>
    rw [tokenText_opening] at inert ⊢
    exact inert rfl (by cases b <;> decide)
  | @closing _ _ b =>
    rw [tokenText_closing] at inert ⊢
    exact inert rfl (by cases b <;> decide)
  | newline => cases text.1
  | layout hk => rcases hk with rfl | rfl | rfl <;> cases text.1

theorem fresh_resumes (ks : List Kind) : Fresh ks ∧ Resumes ks := by
  induction ks with
  | nil =>
    have fresh : Fresh [] := by
      intro s opened opened' hl _
      cases hl
      exact ⟨[], fun blocks previous rest _ _ => ⟨previous, .refl _ rest⟩, fun _ => rfl,
        fun h => absurd rfl h, by simp⟩
    refine ⟨fresh, fun hs hl ht hp => ?_⟩
    cases hp with
    | name hw hu hc hv => exact resumes_name fresh (by simp) hs hl ht hw hu hc hv
    | mark hw hv hc =>
      exact resumes_alone fresh hs hl ht hw hv hc (by simp [spelledText, bare, expressionText])
        (by simp [spelledText, bare, expressionText])
  | cons k ks ih =>
    obtain ⟨fresh, resumes⟩ := ih
    refine ⟨fresh_cons fresh resumes, fun hs hl ht hp => ?_⟩
    cases hp with
    | name hw hu hc hv =>
      refine resumes_name (fresh_cons fresh resumes) ?_ hs hl ht hw hu hc hv
      rintro _ _ ⟨⟩
      exact resumes
    | mark hw hv hc => exact resumes_mark fresh resumes hs hl ht hw hv hc

/-- The tokens of an item are those of one line. -/
theorem Lexed.isText {depth depth' : Nat}
    (h : Lexed previous opened ks opened') (hp : ¬AtStart previous)
    (hs : passage depth ks = some depth') : ∀ k ∈ ks, TokenKind.isText k = true := by
  have text : ∀ {k : Kind}, k.isText = true → ¬AtStart (some k) := by
    intro k hk start
    rw [start k rfl] at hk
    cases hk
  induction h generalizing depth with
  | nil => simp
  | @word _ _ w ks _ _ _ ih =>
    refine forall_mem_cons.mpr ⟨rfl, ?_⟩
    by_cases hw : w = .comma
    · subst hw
      simp only [passage] at hs
      split at hs
      next => cases hs
      next => exact ih (text rfl) hs
    · rw [passage_word hw] at hs
      exact ih (text rfl) hs
  | opening _ ih => exact forall_mem_cons.mpr ⟨rfl, ih (text rfl) hs⟩
  | closing _ ih => exact forall_mem_cons.mpr ⟨rfl, ih (text rfl) hs⟩
  | newline => cases hs
  | layout _ start => exact absurd start hp

theorem Lexed.rebase {previous' : Option Kind}
    (h : Lexed previous opened ks opened') (ht : ∀ k ∈ ks, TokenKind.isText k = true)
    (hp : previous'.any endsValue = previous.any endsValue) :
    Lexed previous' opened ks opened' := by
  cases h with
  | nil => exact .nil
  | @word _ _ w _ _ fits h =>
    refine .word ?_ h
    cases w with
    | identifier | integer | float =>
      unfold Word.Fits at fits ⊢
      rwa [hp]
    | _ => exact fits
  | opening h => exact .opening h
  | closing h => exact .closing h
  | newline => cases (forall_mem_cons.mp ht).1
  | layout hk => rcases hk with rfl | rfl | rfl <;> cases (forall_mem_cons.mp ht).1

theorem IsExpression.lexed_none (h : IsExpression ks) :
    Lexed none [] ks [] ∧ ∀ k ∈ ks, TokenKind.isText k = true := by
  obtain ⟨previous, hp, start, hl⟩ := h.lexed
  have text := hl.isText start h.passage
  exact ⟨hl.rebase text hp.symm, text⟩

theorem spelledText_starts (hl : Lexed none opened ks opened')
    (ht : ∀ k ∈ ks, TokenKind.isText k = true) (hk : ks ≠ []) :
    ∃ c more, spelledText {} ks = c :: more ∧ isLayoutChar c = false := by
  cases ks with
  | nil => exact absurd rfl hk
  | cons k ks =>
    obtain ⟨c, more, eq, hc⟩ := hl.starts (forall_mem_cons.mp ht).1
    have gap : Spacing.gap {} k = [] := rfl
    exact ⟨c, _, by rw [spelledText_cons, gap, eq]; rfl, hc⟩

theorem IsExpression.itemReads (h : IsExpression ks) :
    ∃ ls, ItemReads (expressionText {} (bare ks)) ls := by
  obtain ⟨hl, ht⟩ := h.lexed_none
  have filled : ks ≠ [] := by
    rintro rfl
    cases h.expression
  obtain ⟨ls, writes, passed, nonempty, text⟩ := (fresh_resumes ks).1 (s := {}) hl ht
  refine ⟨ls, spelledText_starts hl ht filled, ⟨nonempty filled, ?_⟩, text, ?_⟩
  · rw [passed, h.passage]
  · intro blocks previous rest hp hr
    refine writes blocks previous rest hp fun c hc => ?_
    rcases hr c hc with rfl | rfl <;> decide

theorem legible_of_accepted {among : List Kind → Prop} {float : Float → Prop}
    {v : Literal} (h : Accepted among float v) : Legible v := by
  intro item hi
  rcases h item hi with plain | ⟨slice, _, _, expression, rfl⟩
  · have isPlain : IsPlain item := plain.imp (fun _ _ => trivial) fun _ h => h
    exact ⟨_, (itemSpells_plain item isPlain).itemReads⟩
  · exact expression.itemReads

end ViewBridge.Markup
