import ViewBridge.Model.Build
import ViewBridge.Proofs.Classes.Reread
import ViewBridge.Proofs.Classes.Spacing
import ViewBridge.Proofs.Markup.Plain

namespace ViewBridge.Classes

open Scanner List

section Readers

variable {fin s s' : Span} {v : Literal} {vs : List Literal} {b : Bracket}
  {ts rest left : List Token}

theorem ne_closing_of_atom (h : atom fin ts = .ok (v, rest)) (b : Bracket) :
    headKind ts ≠ some (.closing b) := by
  intro closes
  cases ts with
  | nil => cases closes
  | cons t ts =>
    obtain ⟨k, s⟩ := t
    obtain rfl := Option.some.inj closes
    rw [atom_refused rfl] at h
    cases h

theorem sequence_last (h : atom fin ts = .ok (v, ⟨.closing b, s⟩ :: rest)) :
    sequence fin b ts = .ok ([v], rest) := by
  rw [sequence_items (ne_closing_of_atom h), h]
  exact if_pos rfl

theorem sequence_more (h : atom fin ts = .ok (v, ⟨.word .comma, s⟩ :: rest))
    (hs : sequence fin b rest = .ok (vs, left)) : sequence fin b ts = .ok (v :: vs, left) := by
  rw [sequence_items (ne_closing_of_atom h), h]
  show (sequence fin b rest).map _ = _
  rw [hs]
  rfl

theorem atom_tuple (h : atom fin ts = .ok (v, ⟨.word .comma, s'⟩ :: rest))
    (hs : sequence fin .round rest = .ok (vs, left)) :
    atom fin (⟨.opening .round, s⟩ :: ts) = .ok (.tuple (v :: vs), left) := by
  rw [atom_group (ne_closing_of_atom h .round), h]
  show (sequence fin .round rest).map _ = _
  rw [hs]
  rfl

/-- Whether tokens call the name before them. -/
def startsCall : List Token → Bool
  | ⟨.opening .round, _⟩ :: _ => true
  | _ => false

theorem atom_dotted {name more : String} (h : dottedTail fin ts = .ok (more, rest)) :
    atom fin (⟨.word (.identifier name), s⟩ :: ts) = nameEnd fin (name ++ more) rest := by
  rw [atom_named rfl, show Vocabulary.wholeName fin name ts = .ok (name ++ more, rest) by
    show (dottedTail fin ts).bind _ = _
    rw [h]
    rfl]
  rfl

theorem atom_name {name more : String} (h : dottedTail fin ts = .ok (more, rest))
    (hr : startsCall rest = false) :
    atom fin (⟨.word (.identifier name), s⟩ :: ts) = .ok (.ofName (name ++ more), rest) := by
  rw [atom_dotted h]
  unfold nameEnd
  split
  next => cases hr
  next => rfl

theorem atom_call {name more : String}
    (h : dottedTail fin ts = .ok (more, ⟨.opening .round, s'⟩ :: rest))
    (hs : sequence fin .round rest = .ok (vs, left)) :
    atom fin (⟨.word (.identifier name), s⟩ :: ts) = .ok (.call (name ++ more) vs, left) := by
  rw [atom_dotted h]
  show (sequence fin .round rest).map _ = _
  rw [hs]
  rfl

end Readers

/-- A value that can be read from its own text. Its floats are read back from theirs, and its names
are dotted ones that do not stand for a truth value. -/
inductive Writable : Literal → Prop
  | string (text) : Writable (.string text)
  | integer (i) : Writable (.integer i)
  | float {f} : Markup.FloatReadsBack f → Writable (.float f)
  | bool (b) : Writable (.bool b)
  | name {text ks} : Dotted text ks → text ≠ "True" → text ≠ "False" → Writable (.name text)
  | list {items} : (∀ v ∈ items, Writable v) → Writable (.list items)
  | tuple {items} : (∀ v ∈ items, Writable v) → Writable (.tuple items)
  | call {callee ks args} : Dotted callee ks → (∀ v ∈ args, Writable v) →
      Writable (.call callee args)

section ReadsAs

variable {text second : List Char} {ks ls : List Kind} {v : Literal}
  {vs : List Literal}

/-- Tokens before which a value ends: they neither go on with a name nor call it. -/
def EndsValue (rest : List Token) : Prop := startsDot rest = false ∧ startsCall rest = false

theorem dottedTail_tokens {fin : Span} {more : String} {ts rest : List Token}
    (h : DottedTail more ks) (hk : ts.map (·.kind) = ks) (hr : startsDot rest = false) :
    dottedTail fin (ts ++ rest) = .ok (more, rest) :=
  dottedTail_of_kinds h (congrArg (List.map hushed) hk) hr

/-- A text that is read as this value wherever a value may stand. -/
structure ReadsAs (text : List Char) (ks : List Kind) (v : Literal) : Prop where
  spells : ValueText text ks
  reads : ∀ fin ts rest, ts.map (·.kind) = ks → EndsValue rest →
    atom fin (ts ++ rest) = .ok (v, rest)

/-- The same of values between commas, up to the bracket that closes them. -/
structure ItemsReadAs (text : List Char) (ks : List Kind) (vs : List Literal) :
    Prop where
  spells : ValueText text ks
  reads : ∀ fin b s ts rest, ts.map (·.kind) = ks →
    sequence fin b (ts ++ ⟨.closing b, s⟩ :: rest) = .ok (vs, rest)

theorem readsAs_word {w : Word} (h : ValueText text [.word w])
    (hw : ∀ fin s rest, atom fin (⟨.word w, s⟩ :: rest) = .ok (v, rest)) :
    ReadsAs text [.word w] v := by
  refine ⟨h, fun fin ts rest hk _ => ?_⟩
  obtain ⟨s, _, rfl, behind⟩ := exists_token hk
  obtain rfl := map_eq_nil_iff.mp behind
  exact hw fin s rest

theorem readsAs_name {name : String} (h : Dotted name ks) :
    ReadsAs name.toList ks (.ofName name) := by
  refine ⟨valueText_name h, fun fin ts rest hk hr => ?_⟩
  obtain ⟨_, hm⟩ := h
  obtain ⟨s, us, rfl, behind⟩ := exists_token hk
  exact atom_name (dottedTail_tokens hm behind hr.1) hr.2

theorem itemsReadAs_nil : ItemsReadAs [] [] [] := by
  refine ⟨valueText_nil, fun fin b s ts rest hk => ?_⟩
  obtain rfl := map_eq_nil_iff.mp hk
  exact sequence_close

theorem ReadsAs.last (h : ReadsAs text ks v) : ItemsReadAs text ks [v] :=
  ⟨h.spells, fun fin _ _ ts _ hk =>
    sequence_last (h.reads fin ts _ hk ⟨rfl, rfl⟩)⟩

theorem ReadsAs.beforeComma (h : ReadsAs text ks v) {ts : List Token}
    (hk : ts.map (·.kind) = ks ++ .word .comma :: ls) (fin : Span) (rest : List Token) :
    ∃ s us, us.map (·.kind) = ls ∧
      atom fin (ts ++ rest) = .ok (v, ⟨.word .comma, s⟩ :: (us ++ rest)) := by
  obtain ⟨first, others, rfl, hf, ho⟩ := map_eq_append_iff.mp hk
  obtain ⟨s, us, rfl, hu⟩ := exists_token ho
  rw [append_assoc]
  exact ⟨s, us, hu, h.reads fin first _ hf ⟨rfl, rfl⟩⟩

theorem ReadsAs.items (h : ReadsAs text ks v) (hs : ItemsReadAs second ls vs) :
    ItemsReadAs (text ++ ',' :: ' ' :: second) (ks ++ .word .comma :: ls) (v :: vs) := by
  refine ⟨valueText_comma h.spells hs.spells, fun fin b s ts rest hk => ?_⟩
  obtain ⟨_, us, hu, first⟩ := h.beforeComma hk fin (⟨.closing b, s⟩ :: rest)
  exact sequence_more first (hs.reads fin b s us rest hu)

theorem exists_itemsReadAs {items : List Literal}
    (h : ∀ v ∈ items, ∃ ks, ReadsAs v.spelled.toList ks v) :
    ∃ ks, ItemsReadAs (Literal.spelled.joined items).toList ks items := by
  induction items with
  | nil => exact ⟨[], itemsReadAs_nil⟩
  | cons v items ih =>
    obtain ⟨⟨ks, first⟩, others⟩ := forall_mem_cons.mp h
    cases items with
    | nil => exact ⟨ks, first.last⟩
    | cons u items =>
      obtain ⟨ls, behind⟩ := ih others
      rw [toList_joined]
      exact ⟨_, first.items behind⟩

theorem exists_group {b : Bracket} {ts : List Token}
    (h : ts.map (·.kind) = .opening b :: (ks ++ [.closing b])) :
    ∃ s us s', ts = ⟨.opening b, s⟩ :: (us ++ [⟨.closing b, s'⟩]) ∧ us.map (·.kind) = ks := by
  obtain ⟨s, inner, rfl, hi⟩ := exists_token h
  obtain ⟨us, close, rfl, hu, hc⟩ := map_eq_append_iff.mp hi
  obtain ⟨s', _, rfl, none⟩ := exists_token hc
  obtain rfl := map_eq_nil_iff.mp none
  exact ⟨s, us, s', rfl, hu⟩

theorem ItemsReadAs.list (h : ItemsReadAs text ks vs) :
    ReadsAs ('[' :: (text ++ [']'])) (.opening .square :: (ks ++ [.closing .square])) (.list vs) := by
  refine ⟨valueText_group .square h.spells, fun fin ts rest hk _ => ?_⟩
  obtain ⟨s, us, s', rfl, hu⟩ := exists_group hk
  rw [cons_append, append_assoc]
  rw [atom_list, singleton_append, h.reads fin .square s' us rest hu]
  rfl

theorem readsAs_unit : ReadsAs ['(', ')'] [.opening .round, .closing .round] (.tuple []) := by
  refine ⟨valueText_group .round valueText_nil, fun fin ts rest hk _ => ?_⟩
  obtain ⟨s, us, rfl, hu⟩ := exists_token hk
  obtain ⟨s', ws, rfl, hw⟩ := exists_token hu
  obtain rfl := map_eq_nil_iff.mp hw
  exact atom_unit

/-- A value in front of others in round brackets, which a comma tells from a value in brackets. -/
theorem ReadsAs.group (h : ReadsAs text ks v)
    (hs : ValueText second (ks ++ .word .comma :: ls))
    (others : ∀ fin s ts rest, ts.map (·.kind) = ls →
      sequence fin .round (ts ++ ⟨.closing .round, s⟩ :: rest) = .ok (vs, rest)) :
    ReadsAs ('(' :: (second ++ [')']))
      (.opening .round :: (ks ++ .word .comma :: ls ++ [.closing .round])) (.tuple (v :: vs)) := by
  refine ⟨valueText_group .round hs, fun fin ts rest hk _ => ?_⟩
  obtain ⟨s, us, s', rfl, hu⟩ := exists_group hk
  obtain ⟨_, ws, hw, first⟩ := h.beforeComma hu fin (⟨.closing .round, s'⟩ :: rest)
  rw [cons_append, append_assoc]
  exact atom_tuple first (others fin s' ws rest hw)

theorem ItemsReadAs.call {callee : String} (hn : Dotted callee ls) (h : ItemsReadAs text ks vs) :
    ReadsAs (callee.toList ++ '(' :: (text ++ [')']))
      (ls ++ .opening .round :: (ks ++ [.closing .round])) (.call callee vs) := by
  refine ⟨valueText_call hn h.spells, fun fin ts rest hk _ => ?_⟩
  obtain ⟨_, hm⟩ := hn
  obtain ⟨names, group, rfl, hd, hg⟩ := map_eq_append_iff.mp hk
  obtain ⟨s, us, s', rfl, hu⟩ := exists_group hg
  obtain ⟨s₁, more, rfl, behind⟩ := exists_token hd
  have tail : dottedTail fin (more ++ ⟨.opening .round, s⟩ :: (us ++ ⟨.closing .round, s'⟩ :: rest)) =
      .ok _ := dottedTail_tokens hm behind rfl
  simpa using atom_call tail (h.reads fin .round s' us rest hu)

theorem exists_readsAs_tuple {items : List Literal}
    (h : ∀ v ∈ items, ∃ ks, ReadsAs v.spelled.toList ks v) :
    ∃ ks, ReadsAs (Literal.tuple items).spelled.toList ks (.tuple items) := by
  cases items with
  | nil => exact ⟨_, readsAs_unit⟩
  | cons v items =>
    obtain ⟨⟨ks, first⟩, others⟩ := forall_mem_cons.mp h
    cases items with
    | nil =>
      rw [Literal.spelled, toList_bracketed]
      have one := first.group (valueText_oneItem first.spells)
        fun fin s ts rest => itemsReadAs_nil.reads fin .round s ts rest
      rw [append_assoc] at one
      exact ⟨_, one⟩
    | cons u items =>
      obtain ⟨ls, behind⟩ := exists_itemsReadAs others
      rw [Literal.spelled, toList_bracketed, toList_joined]
      · exact ⟨_, first.group (valueText_comma first.spells behind.spells)
          fun fin s ts rest => behind.reads fin .round s ts rest⟩
      · simp

theorem exists_readsAs (h : Writable v) : ∃ ks, ReadsAs v.spelled.toList ks v := by
  induction h with
  | string text => exact ⟨_, readsAs_word (valueText_string text) fun _ _ _ => atom_literal rfl⟩
  | integer i => exact ⟨_, readsAs_word (valueText_integer i) fun _ _ _ => atom_literal rfl⟩
  | float h => exact ⟨_, readsAs_word (valueText_finite h.1 h.2) fun _ _ _ => atom_literal rfl⟩
  | bool b =>
    cases b with
    | true => exact ⟨_, readsAs_name (dotted_of_isName (by decide : isName "True" = true))⟩
    | false => exact ⟨_, readsAs_name (dotted_of_isName (by decide : isName "False" = true))⟩
  | @name text ks hn notTrue notFalse =>
    have name := readsAs_name hn
    rw [Literal.ofName, if_neg notTrue, if_neg notFalse] at name
    exact ⟨ks, name⟩
  | list _ ih =>
    obtain ⟨ks, items⟩ := exists_itemsReadAs ih
    rw [Literal.spelled, toList_bracketed]
    exact ⟨_, items.list⟩
  | tuple _ ih => exact exists_readsAs_tuple ih
  | @call callee _ args hn _ ih =>
    obtain ⟨ks, items⟩ := exists_itemsReadAs ih
    have spelled : (Literal.call callee args).spelled.toList =
        callee.toList ++ '(' :: ((Literal.spelled.joined args).toList ++ [')']) := by
      rw [Literal.spelled]
      simp
    rw [spelled]
    exact ⟨_, items.call hn⟩

end ReadsAs

section Field

variable {fin s : Span} {name value : String} {v : Literal} {ks : List Kind}
  {ts rest : List Token}

theorem defaultValue_of_atom (h : atom fin ts = .ok (v, ⟨.newline, s⟩ :: rest)) :
    defaultValue fin ts = (some v, ⟨.newline, s⟩ :: rest) := by
  have plain : plainValue fin ts = .ok (v, ⟨.newline, s⟩ :: rest) := by
    rw [plainValue, bareTuple_eq, h]
    rfl
  rw [defaultValue, plain]
  rfl

def fieldKinds (name : String) (ks : List Kind) : List Kind :=
  .word (.identifier name) :: .word .equals :: (ks ++ [.newline])

theorem classBody_default (fin s : Span) (reserved : isReservedName name = false)
    (h : ReadsAs value.toList ks v) (hk : ts.map (·.kind) = fieldKinds name ks) :
    ∃ f : Field, f.name = name ∧ f.hint = none ∧ f.default = some v ∧
      classBody fin [] (ts ++ [⟨.dedent, s⟩]) = .ok (⟨[f], []⟩, []) := by
  obtain ⟨s₁, ts₁, rfl, h₁⟩ := exists_token hk
  obtain ⟨s₂, ts₂, rfl, h₂⟩ := exists_token h₁
  obtain ⟨us, ts₃, rfl, hu, h₃⟩ := map_eq_append_iff.mp h₂
  obtain ⟨s₃, ts₄, rfl, h₄⟩ := exists_token h₃
  obtain rfl := map_eq_nil_iff.mp h₄
  have read : defaultValue fin (us ++ [⟨.newline, s₃⟩, ⟨.dedent, s⟩]) =
      (some v, [⟨.newline, s₃⟩, ⟨.dedent, s⟩]) :=
    defaultValue_of_atom (h.reads fin us _ hu ⟨rfl, rfl⟩)
  have line : ∃ extent, member fin [] (⟨.word (.identifier name), s₁⟩ :: ⟨.word .equals, s₂⟩ ::
      (us ++ [⟨.newline, s₃⟩, ⟨.dedent, s⟩])) =
        .ok (⟨⟨[⟨name, none, some v, s₁, extent⟩], []⟩, []⟩, [⟨.dedent, s⟩]) := by
    rw [member_eq_field rfl, field_eq]
    show ∃ extent, (fieldEnd fin name none s₁ _
      (defaultValue fin (us ++ [⟨.newline, s₃⟩, ⟨.dedent, s⟩]))).bind _ = _
    rw [read]
    simp [fieldEnd, endOfLine, reserved, Except.map, Except.bind]
  obtain ⟨extent, line⟩ := line
  refine ⟨⟨name, none, some v, s₁, extent⟩, rfl, rfl, rfl, ?_⟩
  rw [cons_append, cons_append, append_assoc, classBody_member (by simp) (by simp)]
  show (member fin [] (⟨.word (.identifier name), s₁⟩ :: ⟨.word .equals, s₂⟩ ::
      (us ++ [⟨.newline, s₃⟩, ⟨.dedent, s⟩]))).bind _ = _
  rw [line]
  simp [Except.bind, Except.map, classBody, Members.append]

theorem tokens_default (hn : isName name = true) (h : ValueText value.toList ks) :
    ∃ ts, tokens (DefaultSite.field.text name " = " value) = .ok ts ∧
      ts.map (·.kind) = headerKinds ++ (fieldKinds name ks ++ [.dedent]) ++ [.eof] := by
  obtain ⟨_, declared⟩ : ∃ last, Writes readWord ⟨.line, {}, [], none⟩ _
      (" = ".toList ++ (value.toList ++ ['\n'])) _ ⟨.inside, ⟨[4]⟩, [], last⟩ :=
    writes_declaration .field hn (endsName_mark rfl _)
  obtain ⟨_, written⟩ := h.2 ['\n'] (parted_mark rfl []) ⟨[4]⟩ [] (some (.word .equals)) rfl
  have given := declared.trans (writes_spacedEquals (value.toList ++ ['\n']))
  obtain ⟨ts, ht, hk⟩ := tokensOf_of_writes ((given.trans written).trans (writes_newline [])) rfl
  refine ⟨ts, ?_, ?_⟩
  · rw [text_eq, ← append_assoc]
    exact ht
  · rw [hk]
    simp [fieldKinds, DefaultSite.kinds, closingKinds, Indentation.depth]

theorem parse_default (hn : isName name = true) (reserved : isReservedName name = false)
    (h : ReadsAs value.toList ks v) :
    ∃ (c : ClassDef) (f : Field), parse (DefaultSite.field.text name " = " value) = .ok ⟨[c]⟩ ∧
      c.name = "A" ∧ c.bases = [] ∧ c.methods = [] ∧ c.fields = [f] ∧
      f.name = name ∧ f.hint = none ∧ f.default = some v := by
  obtain ⟨ts, ht, hk⟩ := tokens_default hn h.spells
  obtain ⟨whole, fin, kinds, read⟩ := exists_until_end ht hk
  obtain ⟨header, body, rfl, headed, inner⟩ := map_eq_append_iff.mp kinds
  obtain ⟨line, close, rfl, hl, hc⟩ := map_eq_append_iff.mp inner
  obtain ⟨s, _, rfl, none⟩ := exists_token hc
  obtain rfl := map_eq_nil_iff.mp none
  obtain ⟨f, named, hint, default, members⟩ := classBody_default fin s reserved h hl
  obtain ⟨start, classes⟩ := exists_classesFrom_header headed (line ++ [⟨.dedent, s⟩])
  refine ⟨⟨"A", [], [], [f], [], start⟩, f, ?_, rfl, rfl, rfl, rfl, named, hint, default⟩
  rw [read, classes, members]
  simp [Except.bind, Except.map, classesFrom_nil]

end Field

/-- A default is read back from its text in a generated class, which is that of the property that a
field with the default becomes. It is the same text that values have inside others in the canonical
form of a document. -/
theorem default_reads_back {v : Literal} (h : Writable v) {name : String} (hn : isName name = true)
    (reserved : isReservedName name = false) :
    (∃ (c : ClassDef) (f : Field),
      parse ("class A:\n    " ++ name ++ " = " ++ Model.literalText v ++ "\n") = .ok ⟨[c]⟩ ∧
      c.name = "A" ∧ c.bases = [] ∧ c.methods = [] ∧ c.fields = [f] ∧
      f.name = name ∧ f.hint = none ∧ f.default = some v) ∧
    (∀ (u : Literal) (source : String) (f : Field), f.default = some u →
      (Model.propertyType? f).isSome → ∃ kind allowNone,
        Model.fieldMember source f = .property f.name kind (Model.literalText u) allowNone) ∧
    (∀ u : Literal, Model.literalText u = u.spelled) ∧
    ∀ items : List Literal,
      (Literal.list items).propertyText = "[" ++ ", ".intercalate (items.map (·.spelled)) ++ "]" ∧
      (∀ callee, (Literal.call callee items).propertyText =
        callee ++ "(" ++ ", ".intercalate (items.map (·.spelled)) ++ ")") ∧
      (∀ u, items = [u] → (Literal.tuple items).propertyText = u.spelled ++ ",") ∧
      (2 ≤ items.length →
        (Literal.tuple items).propertyText = ", ".intercalate (items.map (·.spelled))) := by
  obtain ⟨ks, reads⟩ := exists_readsAs h
  rw [Model.literalText_eq_spelled v]
  refine ⟨parse_default hn reserved reads, fun u source f default typed => ?_,
    Model.literalText_eq_spelled, fun items => ?_⟩
  · obtain ⟨type, ht⟩ := Option.isSome_iff_exists.mp typed
    rw [Model.fieldMember, ht, default]
    exact ⟨_, _, rfl⟩
  · rw [← Literal.spelled.joined_eq]
    refine ⟨by simp [Literal.propertyText, Literal.spelled],
      fun callee => by simp [Literal.propertyText, Literal.spelled], fun u single => ?_,
      fun several => ?_⟩
    · rw [single, Literal.propertyText]
    · obtain _ | ⟨u, _ | ⟨w, more⟩⟩ := items
      · simp at several
      · simp at several
      · simp [Literal.propertyText]

/-- A nested default with strings that need care, signed numbers, a dotted name, and tuples of no and
of one item. -/
def sampleDefault : Literal :=
  .call "kivy.dp" [.list [.string "", .string "it's\n", .integer (-3), .float (-0.5)],
    .tuple [], .tuple [.name "a.True"], .bool false]

theorem default_reads_back_nested :
    ∃ (c : ClassDef) (f : Field),
      parse ("class A:\n    " ++ "x" ++ " = " ++ Model.literalText sampleDefault ++ "\n") = .ok ⟨[c]⟩ ∧
      c.name = "A" ∧ c.bases = [] ∧ c.methods = [] ∧ c.fields = [f] ∧
      f.name = "x" ∧ f.hint = none ∧ f.default = some sampleDefault := by
  have callee : Dotted ("kivy" ++ ("." ++ "dp" ++ "")) _ :=
    .name (by decide) (.dot (by decide) .nil)
  have dotted : Dotted ("a" ++ ("." ++ "True" ++ "")) _ :=
    .name (by decide) (.dot (by decide) .nil)
  have texts : Writable
      (.list [.string "", .string "it's\n", .integer (-3), .float (-0.5)]) := by
    refine .list ?_
    simp only [forall_mem_cons]
    exact ⟨.string _, .string _, .integer _, .float (by decide), forall_mem_nil _⟩
  have single : Writable (.tuple [.name "a.True"]) := by
    refine .tuple ?_
    simp only [forall_mem_cons]
    exact ⟨.name dotted (by decide) (by decide), forall_mem_nil _⟩
  have writable : Writable sampleDefault := by
    refine .call callee ?_
    simp only [forall_mem_cons]
    exact ⟨texts, .tuple (forall_mem_nil _), single, .bool false, forall_mem_nil _⟩
  exact (default_reads_back writable (by decide) (by decide)).1

end ViewBridge.Classes
