import ViewBridge.Markup.Format
import ViewBridge.Proofs.Markup.Block
import ViewBridge.Proofs.Markup.Phrase
import ViewBridge.Proofs.Markup.Spelling
import ViewBridge.Proofs.Source.Layout

namespace ViewBridge.Markup

open List

variable {fin : Span} {ks rest : List Kind} {slices : List (List Kind)}
  {c : Char} {blocks : Indentation} {v : Literal} {previous : Option Kind} {α ε : Type}
  {cs : List Char} {others : List Selector} {s : Selector} {name : String}

theorem toOption_bind {β : Type} (x : Except ε α) (k : α → Except ε β) :
    (x.bind k).toOption = x.toOption.bind fun a => (k a).toOption := by
  cases x <;> rfl

theorem toOption_map {β : Type} (x : Except ε α) (g : α → β) :
    (x.map g).toOption = x.toOption.map g := by
  cases x <;> rfl

theorem exists_error_of_toOption {x : Except ε α} (h : x.toOption = none) : ∃ e, x = .error e := by
  cases x with
  | error e => exact ⟨e, rfl⟩
  | ok b => cases h

/-- Whether tokens make up one item of a property value. -/
structure IsSlice (ks : List Kind) : Prop where
  ne_nil : ks ≠ []
  passage : passage 0 ks = some 0

theorem IsSlice.atLineEnd (h : IsSlice ks) : atLineEnd (bare (ks ++ rest)) = false := by
  have hp := h.passage
  cases ks with
  | nil => exact absurd rfl h.ne_nil
  | cons k ks =>
    cases k with
    | newline => cases hp
    | _ => rfl

/-- The items behind the first one, each behind a comma. -/
def commas (slices : List (List Kind)) : List Kind :=
  slices.flatMap (.word .comma :: ·)

theorem atItemEnd_commas : atItemEnd (bare (commas slices ++ .newline :: rest)) = true := by
  cases slices <;> rfl

theorem moreItems_toOption (hs : ∀ ks ∈ slices, IsSlice ks) :
    (moreItems (item fin) fin (bare (commas slices ++ .newline :: rest))).toOption =
      (slices.mapM readItem).map (·, bare (.newline :: rest)) := by
  induction slices with
  | nil =>
    have ends : headKind (bare (.newline :: rest)) ≠ some (.word Word.comma) := by simp
    rw [show commas [] = [] from rfl, nil_append, moreItems_end ends]
    rfl
  | cons ks slices ih =>
    have hk := hs ks (by simp)
    have shape : commas (ks :: slices) ++ .newline :: rest =
        .word .comma :: (ks ++ (commas slices ++ .newline :: rest)) := by simp [commas]
    have first : (item fin (bare (ks ++ (commas slices ++ .newline :: rest)))).toOption = _ :=
      item_toOption hk.passage atItemEnd_commas
    have inside : ¬ViewBridge.atLineEnd (bare (ks ++ (commas slices ++ .newline :: rest))) = true := by
      rw [hk.atLineEnd]
      exact Bool.false_ne_true
    rw [shape, bare_cons, show Word.comma = Vocabulary.comma from rfl, moreItems_comma, if_neg inside, mapM_cons]
    cases hr : readItem ks with
    | none =>
      rw [hr] at first
      obtain ⟨fault, eq⟩ := exists_error_of_toOption first
      rw [eq]
      rfl
    | some v =>
      rw [hr] at first
      have eq := eq_ok_of_toOption first
      have shorter := length_le_of_item eq
      have others := ih fun ks hm => hs ks (by simp [hm])
      rw [eq]
      simp only [Except.bind]
      rw [if_pos shorter, toOption_map, others]
      cases slices.mapM readItem <;> rfl

theorem propertyValue_single (hk : IsSlice ks) :
    (propertyValue fin (bare (ks ++ .newline :: rest))).toOption =
      (readItem ks).map (·, bare (.newline :: rest)) := by
  have first : (item fin (bare (ks ++ .newline :: rest))).toOption = _ :=
    item_toOption hk.passage rfl
  rw [propertyValue, bareTuple_eq, toOption_bind, first]
  cases readItem ks <;> rfl

theorem propertyValue_several (hk : IsSlice ks) (hs : ∀ ks ∈ slices, IsSlice ks)
    (hn : slices ≠ []) :
    (propertyValue fin (bare (ks ++ (commas slices ++ .newline :: rest)))).toOption =
      ((ks :: slices).mapM readItem).map fun vs => (.tuple vs, bare (.newline :: rest)) := by
  have first : (item fin (bare (ks ++ (commas slices ++ .newline :: rest)))).toOption = _ :=
    item_toOption hk.passage atItemEnd_commas
  have others : (moreItems (item fin) fin (bare (commas slices ++ .newline :: rest))).toOption = _ :=
    moreItems_toOption hs
  have tuple : ∀ v, bareEnd (item fin) fin v (bare (commas slices ++ .newline :: rest)) =
      (moreItems (item fin) fin (bare (commas slices ++ .newline :: rest))).map
        fun p => (.tuple (v :: p.1), p.2) := by
    intro v
    cases slices with
    | nil => exact absurd rfl hn
    | cons ks slices => rfl
  rw [propertyValue, bareTuple_eq, toOption_bind, first, mapM_cons]
  cases readItem ks with
  | none => rfl
  | some v =>
    simp only [Option.map_some, Option.bind_some, tuple, toOption_map, others]
    cases slices.mapM readItem <;> rfl

theorem propertyValue_trailing (hk : IsSlice ks) :
    (propertyValue fin (bare (ks ++ .word .comma :: .newline :: rest))).toOption =
      (readItem ks).map fun v => (.tuple [v], bare (.newline :: rest)) := by
  have first : (item fin (bare (ks ++ .word .comma :: .newline :: rest))).toOption = _ :=
    item_toOption hk.passage rfl
  have others : moreItems (item fin) fin (bare (.word .comma :: .newline :: rest)) =
      .ok ([], bare (.newline :: rest)) := by
    have ends : atLineEnd (bare (.newline :: rest)) = true := rfl
    rw [bare_cons, show Word.comma = Vocabulary.comma from rfl, moreItems_comma, if_pos ends]
  rw [propertyValue, bareTuple_eq, toOption_bind, first]
  cases readItem ks with
  | none => rfl
  | some v =>
    show ((moreItems (item fin) fin (bare (.word .comma :: .newline :: rest))).map _).toOption = _
    rw [others]
    rfl

open Scanner

def textKinds (text : String) : List Kind :=
  match tokens text with
  | .ok ts => (ts.map (·.kind)).takeWhile (·.isText)
  | .error _ => []

/-- Whether a text is one item of a property value, with tokens of these kinds wherever it is
written. -/
structure ItemReads (text : String) (ks : List Kind) : Prop where
  starts : ∃ c cs, text.toList = c :: cs ∧ isLayoutChar c = false
  slice : IsSlice ks
  isText : ∀ k ∈ ks, TokenKind.isText k = true
  writes : ∀ blocks previous rest, previous.any endsValue = false →
    (∀ c ∈ rest.head?, c = ',' ∨ c = '\n') →
    ∃ last, Writes readWord ⟨.inside, blocks, [], previous⟩ text.toList rest ks
      ⟨.inside, blocks, [], last⟩

theorem ItemReads.textKinds_eq {text : String} (h : ItemReads text ks) : textKinds text = ks := by
  obtain ⟨c, cs, eq, hc⟩ := h.starts
  have layout : Writes readWord ⟨.line, {}, [], none⟩ [] (c :: (cs ++ [])) []
      ⟨.inside, {}, [], none⟩ :=
    writes_layout (by simp) hc
      (rfl : Indentation.update {} (indentWidth []) = .ok (.same, {}))
  obtain ⟨last, hw⟩ := h.writes {} none [] rfl (by simp)
  rw [← cons_append, ← eq] at layout
  obtain ⟨ts, ht, hk⟩ := tokensOf_of_writes (layout.trans hw) rfl
  simp only [nil_append, String.ofList_toList] at ht hk
  unfold textKinds tokens
  rw [ht]
  simp only [hk]
  rw [takeWhile_append_of_pos h.isText]
  have none : (closingKinds { blocks := {}, previous := last }).takeWhile
      (TokenKind.isText (ω := Word)) = [] := by
    have marks := closingKinds_isText (s := { blocks := {}, previous := last })
    cases hc : closingKinds { blocks := {}, previous := last } with
    | nil => rfl
    | cons k ks =>
      have mark := marks k (by simp [hc])
      simp [mark]
  rw [none, append_nil]

/-- The items that a property value is written as: a tuple needs no brackets on its line. -/
def parts : Literal → List Literal
  | .tuple (first :: items) => first :: items
  | value => [value]

def valueKinds : Literal → List Kind
  | .tuple [item] => textKinds item.spelled ++ [.word .comma]
  | .tuple (first :: items) =>
    textKinds first.spelled ++ commas (items.map (textKinds ·.spelled))
  | value => textKinds value.spelled

def readText (text : String) : Option Literal := readItem (textKinds text)

def reading : Literal → Option Literal
  | .tuple (first :: items) => ((first :: items).mapM (readText ·.spelled)).map .tuple
  | value => readText value.spelled

/-- Whether each item of a property value can be told apart in its text. -/
def Legible (v : Literal) : Prop := ∀ item ∈ parts v, ∃ ks, ItemReads item.spelled ks

theorem Legible.reads {item : Literal} (h : Legible v) (hm : item ∈ parts v) :
    ItemReads item.spelled (textKinds item.spelled) := by
  obtain ⟨ks, hk⟩ := h item hm
  rwa [hk.textKinds_eq]

/-- A property value is a tuple of one item, a tuple of several, or one item. -/
theorem value_cases (v : Literal) :
    (∃ item, v = .tuple [item]) ∨ (∃ first second items, v = .tuple (first :: second :: items)) ∨
      (parts v = [v] ∧ valueKinds v = textKinds v.spelled ∧ reading v = readText v.spelled ∧
        v.propertyText = v.spelled) := by
  cases v with
  | tuple items =>
    match items with
    | [] => exact .inr (.inr ⟨rfl, rfl, rfl, rfl⟩)
    | [item] => exact .inl ⟨item, rfl⟩
    | first :: second :: items => exact .inr (.inl ⟨first, second, items, rfl⟩)
  | _ => exact .inr (.inr ⟨rfl, rfl, rfl, rfl⟩)

theorem propertyValue_reading (h : Legible v) :
    (propertyValue fin (bare (valueKinds v ++ .newline :: rest))).toOption =
      (reading v).map (·, bare (.newline :: rest)) := by
  rcases value_cases v with ⟨item, rfl⟩ | ⟨first, second, items, rfl⟩ | ⟨hp, hk, hr, _⟩
  · have single := (h.reads mem_cons_self).slice
    simp only [valueKinds, append_assoc, singleton_append, propertyValue_trailing single,
      reading, mapM_cons, mapM_nil, readText]
    cases readItem (textKinds item.spelled) <;> rfl
  · have head := (h.reads mem_cons_self).slice
    have tail : ∀ ks ∈ (second :: items).map (textKinds ·.spelled), IsSlice ks := by
      intro ks hm
      obtain ⟨item, hi, rfl⟩ := mem_map.mp hm
      exact (h.reads (mem_cons_of_mem first hi)).slice
    have several : (propertyValue fin (bare (_ ++ (commas _ ++ .newline :: rest)))).toOption = _ :=
      propertyValue_several head tail (by simp)
    simp only [valueKinds, append_assoc, several, reading, Option.map_map]
    rw [← map_cons (f := fun item : Literal => textKinds item.spelled), mapM_map]
    rfl
  · have single := (h.reads (hp ▸ mem_cons_self)).slice
    rw [hk, hr, propertyValue_single single]
    rfl

theorem writes_joined {first : Literal} {items : List Literal}
    (h : ∀ item ∈ first :: items, ItemReads item.spelled (textKinds item.spelled))
    (blocks : Indentation) (hp : previous.any endsValue = false) (rest : List Char) :
    ∃ last, Writes readWord ⟨.inside, blocks, [], previous⟩
      (Literal.spelled.joined (first :: items)).toList ('\n' :: rest)
      (textKinds first.spelled ++ commas (items.map (textKinds ·.spelled)))
      ⟨.inside, blocks, [], last⟩ := by
  induction items generalizing first previous with
  | nil =>
    obtain ⟨last, hw⟩ := (h first (by simp)).writes blocks previous ('\n' :: rest) hp (by simp)
    exact ⟨last, by simpa [Literal.spelled.joined, commas] using hw⟩
  | cons second items ih =>
    have inner : (some (TokenKind.word Word.comma)).any endsValue = false := rfl
    obtain ⟨last, others⟩ := ih (fun item hm => h item (mem_cons_of_mem first hm)) inner
    obtain ⟨_, head⟩ := (h first (by simp)).writes blocks previous
      (',' :: ' ' :: ((Literal.spelled.joined (second :: items)).toList ++ '\n' :: rest)) hp (by simp)
    have line := ((head.trans (writes_comma _)).trans (writes_blank _ (.inl rfl))).trans others
    exact ⟨last, by simpa [Literal.spelled.joined, commas] using line⟩

theorem writes_value (h : Legible v) (blocks : Indentation) (hp : previous.any endsValue = false)
    (rest : List Char) :
    ∃ last, Writes readWord ⟨.inside, blocks, [], previous⟩ v.propertyText.toList ('\n' :: rest)
      (valueKinds v) ⟨.inside, blocks, [], last⟩ := by
  rcases value_cases v with ⟨item, rfl⟩ | ⟨first, second, items, rfl⟩ | ⟨hp', hk, _, ht⟩
  · obtain ⟨_, hw⟩ := (h.reads mem_cons_self).writes blocks previous (',' :: '\n' :: rest) hp
      (by simp)
    have line := hw.trans (writes_comma ('\n' :: rest))
    exact ⟨_, by simpa [Literal.propertyText, valueKinds] using line⟩
  · exact writes_joined (fun item hm => h.reads hm) blocks hp rest
  · rw [hk, ht]
    exact (h.reads (hp' ▸ mem_cons_self)).writes blocks previous ('\n' :: rest) hp (by simp)

theorem endsName_cons {rest : List Char} (hc : isIdentifierPart c = false) (hs : c ≠ '\'')
    (hd : c ≠ '"') : EndsName (c :: rest) := by
  intro d hm
  cases hm
  exact ⟨hc, hs, hd⟩

theorem endsName_colon (rest : List Char) : EndsName (':' :: rest) :=
  endsName_cons (by decide) (by decide) (by decide)

theorem IsName.starts (h : IsName cs) : ∃ c more, cs = c :: more ∧ isLayoutChar c = false := by
  obtain ⟨c, more, rfl, hc, _⟩ := h
  exact ⟨c, more, rfl, (startsWord_of_isNameStart hc).layout⟩

theorem lineReads_property (hn : IsName name.toList) (hv : Legible v) :
    LineReads readWord (name ++ ": " ++ v.propertyText)
      (.word (.identifier name) :: .word .colon :: valueKinds v) := by
  refine ⟨?_, fun blocks previous rest _ => ?_⟩
  · obtain ⟨c, more, eq, hc⟩ := hn.starts
    exact ⟨c, more ++ (": ".toList ++ v.propertyText.toList), by simp [eq], hc⟩
  · have colon : (some (TokenKind.word Word.colon)).any endsValue = false := rfl
    obtain ⟨last, value⟩ := writes_value hv blocks colon rest
    have name : Writes readWord ⟨.inside, blocks, [], previous⟩ name.toList
        (':' :: ' ' :: (v.propertyText.toList ++ '\n' :: rest)) _ _ :=
      writes_name hn (endsName_colon _)
    have line := ((name.trans (writes_colon _)).trans (writes_blank _ (.inl rfl))).trans value
    exact ⟨last, by simpa using line⟩

/-- The header line of a widget or of a drawing block. -/
theorem lineReads_header (hn : IsName name.toList) :
    LineReads readWord (name ++ ":") [.word (.identifier name), .word .colon] := by
  refine ⟨?_, fun blocks previous rest _ => ?_⟩
  · obtain ⟨c, more, eq, hc⟩ := hn.starts
    exact ⟨c, more ++ [':'], by simp [eq], hc⟩
  · have name : Writes readWord ⟨.inside, blocks, [], previous⟩ name.toList
        (':' :: '\n' :: rest) _ _ :=
      writes_name hn (endsName_colon _)
    have line := name.trans (writes_colon _)
    exact ⟨_, by simpa using line⟩

def basesKinds (bases : List String) : List Kind :=
  bases.flatMap fun base => [.word (.operator "+"), .word (.identifier base)]

def selectorKinds (s : Selector) : List Kind :=
  .word (.identifier s.name) ::
    match s.bases with
    | [] => []
    | base :: bases =>
      .word (.operator "@") :: .word (.identifier base) :: basesKinds bases

def selectorsKinds : List Selector → List Kind
  | [] => []
  | s :: others => selectorKinds s ++ commas (others.map selectorKinds)

def Selector.Named (s : Selector) : Prop :=
  IsName s.name.toList ∧ ∀ base ∈ s.bases, IsName base.toList

theorem IsName.head (h : IsName cs) (rest : List Char) :
    ∃ c more, cs ++ rest = c :: more ∧ Text.isNameStart c = true := by
  obtain ⟨c, more, rfl, hc, _⟩ := h
  exact ⟨c, more ++ rest, rfl, hc⟩

/-- An operator directly before a name. -/
theorem writes_operator_name {name rest : List Char} (hc : c ∈ operatorChars) (hn : IsName name)
    {opened : List Bracket} : Writes readWord ⟨.inside, blocks, opened, previous⟩ [c] (name ++ rest)
      [.word (.operator c.toString)]
      ⟨.inside, blocks, opened, some (.word (.operator c.toString))⟩ := by
  obtain ⟨d, more, eq, hd⟩ := hn.head rest
  rw [eq]
  refine writes_operator hc (fun e he => ?_) (fun _ h => ?_)
  · cases he
    exact isPair_nameStart hd
  · rw [head?_cons, Option.any_some, isDigit_of_isNameStart hd] at h
    cases h

theorem endsName_operator (hc : c ∈ operatorChars) (rest : List Char) : EndsName (c :: rest) := by
  have other : ∀ c ∈ operatorChars, isIdentifierPart c = false ∧ c ≠ '\'' ∧ c ≠ '"' := by decide
  obtain ⟨part, single, double⟩ := other c hc
  exact endsName_cons part single double

theorem writes_bases {bases : List String} (hb : ∀ base ∈ bases, IsName base.toList)
    {rest : List Char} (hr : EndsName rest) :
    ∃ last, Writes readWord ⟨.inside, blocks, [], previous⟩
      (bases.flatMap fun base => "+".toList ++ base.toList) rest (basesKinds bases)
      ⟨.inside, blocks, [], last⟩ := by
  induction bases generalizing previous with
  | nil => exact ⟨previous, .refl _ rest⟩
  | cons base bases ih =>
    have name := hb base (by simp)
    obtain ⟨last, others⟩ : ∃ last, Writes readWord
        ⟨.inside, blocks, [], some (.word (.identifier base))⟩ _ rest _
        ⟨.inside, blocks, [], last⟩ := ih fun base hm => hb base (by simp [hm])
    have ends : EndsName ((bases.flatMap fun base => "+".toList ++ base.toList) ++ rest) := by
      cases bases with
      | nil => exact hr
      | cons base bases => exact endsName_operator (by decide) _
    have plus : Writes readWord ⟨.inside, blocks, [], previous⟩ ['+']
        (base.toList ++ ((bases.flatMap fun base => "+".toList ++ base.toList) ++ rest))
        [.word (.operator "+")] ⟨.inside, blocks, [], some (.word (.operator "+"))⟩ :=
      writes_operator_name (by decide) name
    have first := plus.trans (writes_name name ends)
    rw [String.ofList_toList] at first
    exact ⟨last, by simpa [basesKinds] using first.trans others⟩

def ruleText (selectors : List Selector) : String :=
  "<" ++ ", ".intercalate (selectors.map (·.shown)) ++ ">:"

theorem toList_intercalate_cons (separator first : String) (others : List String) :
    (separator.intercalate (first :: others)).toList =
      first.toList ++ others.flatMap fun text => separator.toList ++ text.toList := by
  induction others generalizing first with
  | nil => simp
  | cons second others ih => simp [String.intercalate_cons_cons, ih]

theorem toList_shown_cons (name base : String) (bases : List String) :
    (Selector.mk name (base :: bases)).shown.toList = name.toList ++ '@' :: (base.toList ++
      bases.flatMap fun base => "+".toList ++ base.toList) := by
  have nonempty : ¬(base :: bases).isEmpty = true := Bool.false_ne_true
  rw [Selector.shown, if_neg nonempty, String.toList_append, String.toList_append,
    toList_intercalate_cons, append_assoc]
  rfl

theorem toList_ruleText (first : Selector) (others : List Selector) :
    (ruleText (first :: others)).toList = '<' :: (first.shown.toList ++
      ((others.flatMap fun s => ", ".toList ++ s.shown.toList) ++ ['>', ':'])) := by
  rw [ruleText, map_cons, String.toList_append, String.toList_append,
    toList_intercalate_cons, flatMap_map, append_assoc, append_assoc]
  rfl

theorem Selector.Named.head (h : s.Named) :
    ∃ c more, s.shown.toList = c :: more ∧ Text.isNameStart c = true := by
  obtain ⟨name, bases⟩ := s
  cases bases with
  | nil =>
    obtain ⟨c, more, eq, hc⟩ := h.1.head []
    exact ⟨c, more, by simpa [Selector.shown] using eq, hc⟩
  | cons base bases =>
    rw [toList_shown_cons]
    exact h.1.head _

theorem writes_selector (hs : s.Named) {rest : List Char} (hr : EndsName rest) :
    ∃ last, Writes readWord ⟨.inside, blocks, [], previous⟩ s.shown.toList rest (selectorKinds s)
      ⟨.inside, blocks, [], last⟩ := by
  obtain ⟨name, bases⟩ := s
  obtain ⟨hn, hb⟩ := hs
  cases bases with
  | nil =>
    have alone : Writes readWord ⟨.inside, blocks, [], previous⟩ name.toList rest _ _ :=
      writes_name hn hr
    exact ⟨_, by simpa [Selector.shown, selectorKinds] using alone⟩
  | cons base bases =>
    have hbase : IsName base.toList := hb base mem_cons_self
    have hbases : ∀ base ∈ bases, IsName base.toList :=
      fun other hm => hb other (mem_cons_of_mem base hm)
    obtain ⟨last, others⟩ : ∃ last, Writes readWord
        ⟨.inside, blocks, [], some (.word (.identifier base))⟩ _ rest _
        ⟨.inside, blocks, [], last⟩ := writes_bases hbases hr
    have ends : EndsName ((bases.flatMap fun base => "+".toList ++ base.toList) ++ rest) := by
      cases bases with
      | nil => exact hr
      | cons base bases => exact endsName_operator (by decide) _
    have sign : Writes readWord ⟨.inside, blocks, [], some (.word (.identifier name))⟩ ['@']
        (base.toList ++ ((bases.flatMap fun base => "+".toList ++ base.toList) ++ rest))
        [.word (.operator "@")] ⟨.inside, blocks, [], some (.word (.operator "@"))⟩ :=
      writes_operator_name (by decide) hbase
    have first : Writes readWord ⟨.inside, blocks, [], some (.word (.operator "@"))⟩ base.toList
        ((bases.flatMap fun base => "+".toList ++ base.toList) ++ rest) _ _ :=
      writes_name hbase ends
    have named : Writes readWord ⟨.inside, blocks, [], previous⟩ name.toList
        ('@' :: (base.toList ++ ((bases.flatMap fun base => "+".toList ++ base.toList) ++ rest)))
        _ _ :=
      writes_name hn (endsName_operator (by decide) _)
    rw [String.ofList_toList] at first named
    have line := ((named.trans sign).trans first).trans others
    rw [toList_shown_cons]
    exact ⟨last, by simpa [selectorKinds] using line⟩

theorem writes_selectors (hs : ∀ s ∈ others, s.Named) {rest : List Char} (hr : EndsName rest) :
    ∃ last, Writes readWord ⟨.inside, blocks, [], previous⟩
      (others.flatMap fun s => ", ".toList ++ s.shown.toList) rest
      (commas (others.map selectorKinds)) ⟨.inside, blocks, [], last⟩ := by
  induction others generalizing previous with
  | nil => exact ⟨previous, .refl _ rest⟩
  | cons s others ih =>
    have ends : EndsName ((others.flatMap fun s => ", ".toList ++ s.shown.toList) ++ rest) := by
      cases others with
      | nil => exact hr
      | cons s others => exact endsName_cons (by decide) (by decide) (by decide)
    obtain ⟨middle, first⟩ : ∃ last, Writes readWord
        ⟨.inside, blocks, [], some (.word .comma)⟩ _ _ _ ⟨.inside, blocks, [], last⟩ :=
      writes_selector (hs s (by simp)) ends
    obtain ⟨last, more⟩ : ∃ last, Writes readWord ⟨.inside, blocks, [], middle⟩ _ rest _
        ⟨.inside, blocks, [], last⟩ := ih fun s hm => hs s (by simp [hm])
    have comma : Writes readWord ⟨.inside, blocks, [], previous⟩ [',']
        (' ' :: (s.shown.toList ++
          ((others.flatMap fun s => ", ".toList ++ s.shown.toList) ++ rest))) _ _ :=
      writes_comma _
    have line := ((comma.trans (writes_blank _ (.inl rfl))).trans first).trans more
    exact ⟨last, by simpa [commas] using line⟩

/-- The header line of a rule. -/
theorem lineReads_rule {first : Selector} (hs : ∀ s ∈ first :: others, s.Named) :
    LineReads readWord (ruleText (first :: others))
      (.word .openAngle :: (selectorsKinds (first :: others) ++
        [.word .closeAngle, .word .colon])) := by
  refine ⟨⟨'<', _, toList_ruleText first others, rfl⟩, fun blocks previous rest _ => ?_⟩
  have ends : EndsName ('>' :: ':' :: '\n' :: rest) :=
    endsName_cons (by decide) (by decide) (by decide)
  have ends' : EndsName ((others.flatMap fun s => ", ".toList ++ s.shown.toList) ++
      '>' :: ':' :: '\n' :: rest) := by
    cases others with
    | nil => exact ends
    | cons s others => exact endsName_cons (by decide) (by decide) (by decide)
  obtain ⟨middle, head⟩ : ∃ last, Writes readWord
      ⟨.inside, blocks, [], some (.word .openAngle)⟩ _ _ _ ⟨.inside, blocks, [], last⟩ :=
    writes_selector (hs first (by simp)) ends'
  obtain ⟨last, tail⟩ : ∃ last, Writes readWord ⟨.inside, blocks, [], middle⟩ _ _ _
      ⟨.inside, blocks, [], last⟩ :=
    writes_selectors (fun s hm => hs s (mem_cons_of_mem first hm)) ends
  have start : (first.shown.toList ++ ((others.flatMap fun s => ", ".toList ++ s.shown.toList) ++
      '>' :: ':' :: '\n' :: rest)).head?.any joinsAngle = false := by
    obtain ⟨c, more, eq, hc⟩ := (hs first mem_cons_self).head
    rw [eq]
    exact joinsAngle_nameStart hc
  have opening : Writes readWord ⟨.inside, blocks, [], previous⟩ ['<'] _ [.word .openAngle]
      ⟨.inside, blocks, [], some (.word .openAngle)⟩ := writes_angle (.inl rfl) start
  have closing : Writes readWord ⟨.inside, blocks, [], last⟩ ['>'] (':' :: '\n' :: rest)
      [.word .closeAngle] ⟨.inside, blocks, [], some (.word .closeAngle)⟩ :=
    writes_angle (.inr rfl) rfl
  have line := (((opening.trans head).trans tail).trans closing).trans (writes_colon _)
  rw [toList_ruleText]
  exact ⟨_, by simpa [selectorsKinds] using line⟩

end ViewBridge.Markup
