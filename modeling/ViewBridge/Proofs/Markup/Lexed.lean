import ViewBridge.Proofs.Decimal.Sign
import ViewBridge.Proofs.Markup.Phrase
import ViewBridge.Proofs.Markup.Spelling

namespace ViewBridge.Markup

open Scanner List

variable {cs : List Char} {ts : List Token} {more : Nat}

/-- The characters of an operator. -/
inductive IsOperator : List Char → Prop
  | single {c} : IsMark c → IsOperator [c]
  | pair {c d} : isPair c d = true → IsOperator [c, d]

/-- What is known of a word behind another token: a dotted name stands behind an operand only, and
a number with a minus behind none. -/
def Word.Fits (previous : Option Kind) : Word → Prop
  | .identifier text =>
    IsName text.toList ∨ IsDotted text.toList ∧ previous.any Markup.endsValue = true
  | .integer i => i.toInt < 0 → previous.any Markup.endsValue = false
  | .float f => ¬Decimal.SignClear f → previous.any Markup.endsValue = false
  | .formatString text => IsFormatString text.toList
  | .operator text => IsOperator text.toList
  | _ => True

variable {w : Word} {c : Char} {a : Stage Word}

theorem numberText_head : (numberText cs).1.head? ≠ some '-' := by
  have whole : ∀ more, more.head? ≠ some '-' →
      (cs.takeWhile Text.isDigit ++ more).head? ≠ some '-' := by
    intro more hm
    cases h : cs.takeWhile Text.isDigit with
    | nil => exact hm
    | cons c digits =>
      have digit : Text.isDigit c = true :=
        mem_takeWhile_imp (h ▸ mem_cons_self : c ∈ cs.takeWhile Text.isDigit)
      rintro ⟨⟩
      cases digit
  have alone : (cs.takeWhile Text.isDigit).head? ≠ some '-' := by simpa using whole [] (by simp)
  unfold numberText
  simp only
  split
  next =>
    split
    next => exact alone
    next => exact whole _ (by simp)
  next => exact alone

theorem readNumber_word {previous : Option Kind}
    (hc : c = '-' → previous.any endsValue = false) (h : readNumber c cs = .ok (.word w more)) :
    w.Fits previous := by
  obtain ⟨sign, digits, _, parts, eq, number⟩ := exists_of_readNumber h
  cases eq
  have unsigned : previous.any endsValue ≠ false →
      (Decimal.splitSign (sign ++ (numberText digits).1)).1 = false := by
    intro hv
    rw [if_neg fun minus => hv (hc minus)] at parts
    cases parts
    exact Decimal.splitSign_unsigned numberText_head
  cases number with
  | float _ read =>
    intro negative
    by_contra hv
    exact negative (Decimal.signClear_readFloat? (unsigned hv) read)
  | integer read =>
    intro negative
    by_contra hv
    have nonneg := Decimal.readInt64?_nonneg (unsigned hv) read
    omega

theorem isName_takeWhile (hc : Text.isNameStart c = true) (cs : List Char) :
    IsName (c :: cs.takeWhile isIdentifierPart) :=
  ⟨c, _, rfl, hc, fun _ hd => mem_takeWhile_imp hd⟩

theorem isDotted_takeWhile (h : cs.head?.any Text.isNameStart = true) :
    IsDotted ('.' :: cs.takeWhile isIdentifierPart) := by
  cases cs with
  | nil => cases h
  | cons c cs =>
    have part := isIdentifierPart_of_isNameStart h
    refine ⟨c :: cs.takeWhile isIdentifierPart, isName_takeWhile h cs, ?_⟩
    rw [takeWhile_cons_of_pos part]

theorem stringPrefixes_dotted (cs : List Char) :
    stringPrefixes.contains (String.ofList (('.' :: cs).map Decimal.lowerAscii)) = false := by
  have undotted : ∀ text ∈ stringPrefixes, text.toList.head? ≠ some '.' := by decide
  cases h : stringPrefixes.contains (String.ofList (('.' :: cs).map Decimal.lowerAscii)) with
  | false => rfl
  | true =>
    have dotted := undotted _ (contains_iff_mem.mp h)
    simp [Decimal.lowerAscii] at dotted

theorem readWord_word {previous : Option Kind}
    (h : readWord previous c cs = .ok (.word w more)) : w.Fits previous := by
  have hr := readWord_reading previous c cs
  generalize readWord previous c cs = r at h hr
  cases hr with
  | string =>
    obtain ⟨said, n, eq⟩ := exists_string_of_readString h
    cases eq
    trivial
  | number hc =>
    refine readNumber_word ?_ h
    rintro rfl
    rcases hc with ⟨_, _, hv⟩ | ⟨ne, _⟩ | digit
    · simpa using hv
    · cases ne
    · cases digit
  | name hc =>
    cases h
    rw [Word.Fits, String.toList_ofList]
    rcases hc with hc | ⟨rfl, hv, hn⟩
    · exact .inl (isName_takeWhile hc cs)
    · exact .inr ⟨isDotted_takeWhile hn, hv⟩
  | @format marks quote body _ hc eq hq hm hf _ _ read =>
    cases h
    subst eq
    have start : Text.isNameStart c = true := by
      rcases hc with hc | ⟨rfl, _⟩
      · exact hc
      · exact absurd hm (by rw [stringPrefixes_dotted]; exact Bool.false_ne_true)
    rw [Word.Fits, String.toList_ofList]
    exact ⟨_, quote, body, rfl, isName_takeWhile start cs, hq, hm, hf,
      by simpa using read []⟩
  | operator hc _ pair =>
    cases h
    rw [Word.Fits, String.toList_ofList]
    rcases pair with rfl | ⟨d, rfl, pair⟩
    · exact .single (by simpa [IsMark] using hc)
    · exact .pair pair
  | @mark w hw =>
    cases h
    cases w <;> cases hw <;> trivial
  | unterminated | invalid => cases h

/-- Whether a token stands at the start of a line, given the one before it. -/
def AtStart (previous : Option Kind) : Prop := ∀ k ∈ previous, k.isText = false

/-- The tokens of a text from one place to another: behind which token they start, which brackets
are open there, and which are open behind them. -/
inductive Lexed : Option Kind → List Bracket → List Kind →
    List Bracket → Prop
  | nil {previous opened} : Lexed previous opened [] opened
  | word {previous opened w ks opened' : _} : w.Fits previous →
      Lexed (some (.word w)) opened ks opened' → Lexed previous opened (.word w :: ks) opened'
  | opening {previous opened b ks opened'} : Lexed (some (.opening b)) (b :: opened) ks opened' →
      Lexed previous opened (.opening b :: ks) opened'
  | closing {previous opened b ks opened'} : Lexed (some (.closing b)) opened ks opened' →
      Lexed previous (b :: opened) (.closing b :: ks) opened'
  | newline {previous ks opened'} : Lexed (some .newline) [] ks opened' →
      Lexed previous [] (.newline :: ks) opened'
  | layout {previous k ks opened'} : k = .indent ∨ k = .dedent ∨ k = .eof → AtStart previous →
      Lexed (some k) [] ks opened' → Lexed previous [] (k :: ks) opened'

theorem getLast?_cons_or (k : Kind) (ks : List Kind)
    (previous : Option Kind) :
    (k :: ks).getLast?.or previous = ks.getLast?.or (some k) := by
  simp [getLast?_cons]

theorem lexed_layouts {previous : Option Kind} {kinds ks : List Kind}
    {opened' : List Bracket} (hp : AtStart previous)
    (hk : ∀ k ∈ kinds, k = .indent ∨ k = .dedent ∨ k = .eof)
    (h : Lexed (kinds.getLast?.or previous) [] ks opened') :
    Lexed previous [] (kinds ++ ks) opened' := by
  induction kinds generalizing previous with
  | nil => exact h
  | cons k kinds ih =>
    have mark := hk k mem_cons_self
    refine .layout mark hp (ih ?_ (fun k hm => hk k (mem_cons_of_mem _ hm)) ?_)
    · rintro k' ⟨⟩
      rcases mark with rfl | rfl | rfl <;> rfl
    · rwa [← getLast?_cons_or k kinds previous]

theorem mem_layoutKinds {change : IndentChange} {k : Kind} (h : k ∈ layoutKinds change) :
    k = .indent ∨ k = .dedent ∨ k = .eof := by
  cases change with
  | same => cases h
  | indent => exact .inl (mem_singleton.mp h)
  | dedent n => exact .inr (.inl (eq_of_mem_replicate h))

theorem lexed_step {b : Stage Word} {out : List (ViewBridge.Token Word)}
    {ks : List Kind} (h : Step readWord a out b) (hv : Valid a)
    (hl : Lexed b.scanner.previous (b.scanner.opened.map (·.1)) ks []) :
    Lexed a.scanner.previous (a.scanner.opened.map (·.1)) (out.map (·.kind) ++ ks) [] := by
  cases h with
  | emptyLine | commentLine | blank | joinedLine | comment | gap => exact hl
  | @layout s blanks c rest change blocks _ _ hu =>
    have opened : s.opened = [] := hv.line_opened rfl
    have start : AtStart s.previous := by
      rcases hv.line_previous rfl with hp | hp
      · simp [AtStart, show s.previous = none from hp]
      · simp [AtStart, show s.previous = some .newline from hp, TokenKind.isText]
    have kinds : ((layoutKinds change).map ((s.pass blanks).token · [])).map (·.kind) =
        layoutKinds change := by
      rw [map_map]
      exact map_id _
    simp only [Scanner.pass, opened, map_nil] at hl
    rw [kinds, opened]
    exact lexed_layouts start (fun k hk => mem_layoutKinds hk) hl
  | lineEnd ho =>
    simp only [Scanner.emit, Scanner.pass, ho, map_nil] at hl ⊢
    exact .newline hl
  | opening b => exact .opening hl
  | closing ho =>
    rw [ho]
    exact .closing hl
  | word _ hr => exact .word (readWord_word hr) hl

theorem lexed_finish {s : Scanner Word} (h : s.finish = .ok ts) :
    Lexed s.previous (s.opened.map (·.1)) (ts.map (·.kind)) [] := by
  have dedents : ∀ {previous : Option Kind}, AtStart previous →
      Lexed previous [] (List.replicate s.blocks.depth .dedent ++ [.eof]) [] := by
    intro previous hp
    have marks : ∀ k ∈ List.replicate s.blocks.depth .dedent ++ [TokenKind.eof (ω := Word)],
        k = .indent ∨ k = .dedent ∨ k = .eof := by
      intro k hk
      rcases mem_append.mp hk with hk | hk
      · exact .inr (.inl (eq_of_mem_replicate hk))
      · exact .inr (.inr (mem_singleton.mp hk))
    simpa using lexed_layouts hp marks .nil
  unfold finish at h
  split at h
  next => cases h
  next opened =>
    cases h
    have kinds : (s.closingKinds.map (s.token · [])).map (·.kind) = s.closingKinds := by
      rw [map_map]
      exact map_id _
    rw [kinds, opened, closingKinds]
    split
    next hp =>
      rw [hp]
      exact dedents (by simp [AtStart])
    next hp =>
      rw [hp]
      exact dedents (by simp [AtStart, TokenKind.isText])
    next => exact .newline (dedents (by simp [AtStart, TokenKind.isText]))

theorem lexed_scan (hv : Valid a) (h : scan readWord a = .ok ts) :
    Lexed a.scanner.previous (a.scanner.opened.map (·.1)) (ts.map (·.kind)) [] := by
  have run := scan_induction readWord
    (motive := fun a r => Valid a → ∀ ts, r = .ok ts →
      Lexed a.scanner.previous (a.scanner.opened.map (·.1)) (ts.map (·.kind)) [])
    (fun a r hs _ ts hr => by
      subst hr
      generalize eq : Except.ok ts = r at hs
      cases hs with
      | lineFinish => exact lexed_finish (s := pass _ _) eq.symm
      | finish => exact lexed_finish eq.symm
      | dedent | unmatched | misread => cases eq)
    (fun a out b r hs ih hv ts hr => by
      cases r with
      | error fault => cases hr
      | ok rest =>
        cases hr
        rw [map_append]
        exact lexed_step hs hv (ih (hs.valid hv) rest rfl))
  exact run a hv ts h

theorem lexed_tokens {source : String} (h : tokens source = .ok ts) :
    Lexed none [] (ts.map (·.kind)) [] :=
  lexed_scan (a := ⟨.line, {}, source.toList⟩)
    ⟨fun _ => rfl, fun _ => .inl rfl, fun _ => rfl⟩ h

variable {previous : Option Kind} {opened opened' : List Bracket}
  {ks ls : List Kind}

theorem Lexed.split (h : Lexed previous opened (ks ++ ls) opened') :
    ∃ middle, Lexed previous opened ks middle ∧
      Lexed (ks.getLast?.or previous) middle ls opened' := by
  induction ks generalizing previous opened with
  | nil => exact ⟨opened, .nil, h⟩
  | cons k ks ih =>
    rw [getLast?_cons_or]
    cases h with
    | word hw h =>
      obtain ⟨middle, first, second⟩ := ih h
      exact ⟨middle, .word hw first, second⟩
    | opening h =>
      obtain ⟨middle, first, second⟩ := ih h
      exact ⟨middle, .opening first, second⟩
    | closing h =>
      obtain ⟨middle, first, second⟩ := ih h
      exact ⟨middle, .closing first, second⟩
    | newline h =>
      obtain ⟨middle, first, second⟩ := ih h
      exact ⟨middle, .newline first, second⟩
    | layout hk hp h =>
      obtain ⟨middle, first, second⟩ := ih h
      exact ⟨middle, .layout hk hp first, second⟩

/-- The brackets are counted as they are open. -/
theorem Lexed.passage_length (h : Lexed previous opened ks opened') {depth : Nat}
    (hp : passage opened.length ks = some depth) : depth = opened'.length := by
  induction h with
  | nil => exact (Option.some.inj hp).symm
  | @word _ opened w ks opened' _ _ ih =>
    cases w with
    | comma =>
      simp only [passage] at hp
      split at hp
      next => cases hp
      next => exact ih hp
    | _ => exact ih hp
  | opening _ ih => exact ih hp
  | closing _ ih => exact ih hp
  | newline => cases hp
  | layout hk _ _ ih =>
    rcases hk with rfl | rfl | rfl
    · exact ih hp
    · exact ih hp
    · cases hp

end ViewBridge.Markup
