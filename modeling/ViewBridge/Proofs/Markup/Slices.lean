import ViewBridge.Proofs.Markup.Represented

namespace ViewBridge.Markup

open List

variable {k : Kind}

/-- Tokens cut at the commas outside brackets, so many of which are open before them. -/
def slices (depth : Nat) : List Kind → List (List Kind)
  | [] => [[]]
  | k :: ks =>
    match depth, k with
    | 0, .word .comma => [] :: slices 0 ks
    | depth, k => (slices (depthAfter depth k) ks).modifyHead (k :: ·)

/-- The slices that are items: an empty one at the end is none. -/
def itemsOf : List (List Kind) → List (List Kind)
  | [] | [[]] => []
  | slice :: others => slice :: itemsOf others

def wholeAtom? (ks : List Kind) : Option Literal :=
  match atom .origin (bare ks) with
  | .ok (v, []) => some v
  | _ => none

/-- The value of the tokens of one item: a plain value, or else the text of an expression. -/
def itemValue (ks : List Kind) : Literal :=
  (wholeAtom? ks).getD (.expression (expressionText {} (bare ks)))

/-- The value of the tokens behind the colon of a property. -/
def splitValue (ks : List Kind) : Literal :=
  match slices 0 ks with
  | [slice] => itemValue slice
  | several => .tuple ((itemsOf several).map itemValue)

variable {fin : Span} {ks rest : List Kind} {v : Literal} {after : List Token}

section Slices

theorem wholeAtom?_eq_some : wholeAtom? ks = some v ↔ Phrase ks v := by
  unfold wholeAtom?
  constructor
  · intro h
    split at h
    next read =>
      obtain rfl := Option.some.inj h
      obtain ⟨used, others, rfl, none, phrase⟩ := phrase_of_atom read
      obtain rfl := map_eq_nil_iff.mp none.symm
      rwa [append_nil]
    next => cases h
  · intro h
    have read : atom .origin (bare (ks ++ [])) = .ok (v, []) := h.atom (by simp)
    rw [append_nil] at read
    rw [read]

theorem slices_cons {depth : Nat} (h : depth = 0 → k ≠ .word .comma) :
    slices depth (k :: ks) = (slices (depthAfter depth k) ks).modifyHead (k :: ·) := by
  rw [slices.eq_def]
  dsimp only
  split
  next => exact absurd rfl (h rfl)
  next => rfl

theorem passage_cons {depth : Nat} (hk : k.isText = true) (h : depth = 0 → k ≠ .word .comma) :
    passage depth (k :: ks) = passage (depthAfter depth k) ks := by
  cases k with
  | word w =>
    cases w with
    | comma => exact if_neg fun hd => absurd rfl (h hd)
    | _ => rfl
  | newline | eof => cases hk
  | _ => rfl

theorem slices_ne_nil (depth : Nat) (ks : List Kind) : slices depth ks ≠ [] := by
  induction ks generalizing depth with
  | nil => simp [slices]
  | cons k ks ih =>
    by_cases cut : depth = 0 → k ≠ .word .comma
    · rw [slices_cons cut]
      simpa using ih (depthAfter depth k)
    · obtain ⟨rfl, comma⟩ := Classical.not_imp.mp cut
      obtain rfl := not_not.mp comma
      simp [slices]

/-- Tokens without a comma outside brackets are one slice, and all of them belong to one item; others
are cut at the first such comma. -/
theorem slices_cases (depth : Nat) (text : ∀ k ∈ ks, k.isText = true) :
    (slices depth ks = [ks] ∧ ∃ depth', passage depth ks = some depth') ∨
      ∃ slice others, ks = slice ++ .word .comma :: others ∧ passage depth slice = some 0 ∧
        slices depth ks = slice :: slices 0 others := by
  induction ks generalizing depth with
  | nil => exact .inl ⟨rfl, depth, rfl⟩
  | cons k ks ih =>
    obtain ⟨hk, text⟩ := forall_mem_cons.mp text
    by_cases cut : depth = 0 ∧ k = .word .comma
    · obtain ⟨rfl, rfl⟩ := cut
      exact .inr ⟨[], ks, rfl, rfl, rfl⟩
    · have inner : depth = 0 → k ≠ .word .comma := fun hd hk => cut ⟨hd, hk⟩
      rw [slices_cons inner]
      rcases ih (depthAfter depth k) text with ⟨alone, depth', passed⟩ | ⟨slice, others, rfl, passed, first⟩
      · exact .inl ⟨by rw [alone]; rfl, depth', by rw [passage_cons hk inner, passed]⟩
      · exact .inr ⟨k :: slice, others, rfl, by rw [passage_cons hk inner, passed], by rw [first]; rfl⟩

/-- The tokens of an item: those of a plain value, or some that only an expression has. -/
def IsItem (ks : List Kind) : Prop :=
  (∃ v, Phrase ks v) ∨ (∀ v, ¬Phrase ks v) ∧ ks.any isExpressionToken = true

theorem IsItem.ne_nil (h : IsItem ks) : ks ≠ [] := by
  rintro rfl
  rcases h with ⟨_, phrase⟩ | ⟨_, expression⟩
  · cases phrase
  · cases expression

theorem itemValue_phrase (h : Phrase ks v) : itemValue ks = v := by
  rw [itemValue, wholeAtom?_eq_some.mpr h]
  rfl

theorem itemValue_other (h : ∀ v, ¬Phrase ks v) :
    itemValue ks = .expression (expressionText {} (bare ks)) := by
  have none : wholeAtom? ks = none :=
    Option.eq_none_iff_forall_ne_some.mpr fun u hu => h u (wholeAtom?_eq_some.mp hu)
  rw [itemValue, none]
  rfl

theorem item_slice (slice : itemTokens 0 (bare (ks ++ rest)) = bare ks)
    (ends : atItemEnd (bare rest) = true) (h : item fin (bare (ks ++ rest)) = .ok (v, after)) :
    after = bare rest ∧ IsItem ks ∧ v = itemValue ks := by
  by_cases phrase : ∃ u, Phrase ks u
  · obtain ⟨u, phrase⟩ := phrase
    rw [item_phrase phrase ends] at h
    cases h
    exact ⟨rfl, .inl ⟨_, phrase⟩, (itemValue_phrase phrase).symm⟩
  · have other : ∀ u, ¬Phrase ks u := fun u hu => phrase ⟨u, hu⟩
    obtain ⟨fault, read⟩ := item_other fin rest slice other
    rw [read] at h
    split at h
    next expression =>
      cases h
      exact ⟨rfl, .inr ⟨other, expression⟩, (itemValue_other other).symm⟩
    next => cases h

theorem itemsOf_cons {slice : List Kind} {others : List (List Kind)}
    (h : IsItem slice) : itemsOf (slice :: others) = slice :: itemsOf others := by
  cases slice with
  | nil => exact absurd rfl h.ne_nil
  | cons => rfl

theorem item_slices (text : ∀ k ∈ ks, k.isText = true)
    (h : item fin (bare (ks ++ [.newline])) = .ok (v, after)) :
    (slices 0 ks = [ks] ∧ IsItem ks ∧ v = itemValue ks ∧ after = bare [.newline]) ∨
      ∃ slice others, ks = slice ++ .word .comma :: others ∧ IsItem slice ∧ v = itemValue slice ∧
        slices 0 ks = slice :: slices 0 others ∧ after = bare (.word .comma :: others ++ [.newline]) := by
  rcases slices_cases 0 text with ⟨alone, depth, passed⟩ | ⟨slice, others, rfl, passed, first⟩
  · have tokens : itemTokens 0 (bare (ks ++ [.newline])) = bare ks := by
      rw [itemTokens_of_passage passed]
      exact append_nil _
    obtain ⟨rfl, some, rfl⟩ := item_slice tokens rfl h
    exact .inl ⟨alone, some, rfl, rfl⟩
  · rw [append_assoc] at h
    obtain ⟨rfl, some, rfl⟩ := item_slice (itemTokens_eq passed rfl) rfl h
    exact .inr ⟨slice, others, rfl, some, rfl, first, rfl⟩

theorem moreItems_slices {vs : List Literal} (text : ∀ k ∈ ks, k.isText = true)
    (h : moreItems (item fin) fin (bare (.word .comma :: ks ++ [.newline])) = .ok (vs, after)) :
    vs = (itemsOf (slices 0 ks)).map itemValue ∧ ∀ slice ∈ itemsOf (slices 0 ks), IsItem slice := by
  induction hn : ks.length using Nat.strongRecOn generalizing ks vs with
  | ind size ih =>
    rw [cons_append, bare_cons, show Word.comma = Vocabulary.comma from rfl, moreItems_comma] at h
    cases ks with
    | nil =>
      cases h
      exact ⟨rfl, by simp [slices, itemsOf]⟩
    | cons k ks =>
      have inLine : atLineEnd (bare (k :: ks ++ [.newline])) = false := by
        have hk := text k mem_cons_self
        cases k with
        | newline => cases hk
        | _ => rfl
      rw [inLine, if_neg Bool.false_ne_true] at h
      obtain ⟨⟨first, rest⟩, hi, hs⟩ := exists_of_bind h
      split at hs
      next =>
        obtain ⟨⟨others, rest'⟩, hm, eq⟩ := exists_of_map hs
        cases eq
        rcases item_slices text hi with ⟨alone, some, rfl, rfl⟩ | ⟨slice, more, eq, some, rfl, cut, rfl⟩
        · rw [moreItems_end (by simp)] at hm
          cases hm
          rw [alone, itemsOf_cons some]
          exact ⟨rfl, by simpa [itemsOf] using some⟩
        · have shorter : more.length < size := by
            rw [← hn, eq, length_append, length_cons]
            omega
          have inner : ∀ k ∈ more, k.isText = true := fun k hk => text k (by rw [eq]; simp [hk])
          obtain ⟨rfl, filled⟩ := ih more.length shorter inner hm rfl
          rw [cut, itemsOf_cons some]
          exact ⟨rfl, forall_mem_cons.mpr ⟨some, filled⟩⟩
      next => cases hs

/-- A value is read from the slices of its tokens. -/
theorem valueOf?_slices {ts : List Token} (text : ∀ t ∈ ts, t.kind.isText = true)
    (h : valueOf? ts = some v) : v = splitValue (ts.map (·.kind)) ∧
      itemsOf (slices 0 (ts.map (·.kind))) ≠ [] ∧
        ∀ slice ∈ itemsOf (slices 0 (ts.map (·.kind))), IsItem slice := by
  have text : ∀ k ∈ ts.map (·.kind), k.isText = true := forall_mem_map.mpr text
  have alike : Alike (ts ++ [⟨.newline, .origin⟩]) (bare (ts.map (·.kind) ++ [.newline])) := by
    simp [Alike]
  unfold valueOf? at h
  split at h
  next last read =>
    obtain rfl := Option.some.inj h
    have agree : Agree (Leaves Eq Alike) (propertyValue .origin _) (propertyValue .origin _) :=
      propertyValue_lockstep lockstep_alike alike
    obtain ⟨⟨v', after⟩, hv, rfl, _⟩ := agree.exists_ok read
    rw [propertyValue, bareTuple_eq] at hv
    obtain ⟨⟨first, rest⟩, hi, he⟩ := exists_of_bind hv
    unfold splitValue
    rcases item_slices text hi with ⟨alone, some, rfl, rfl⟩ | ⟨slice, others, eq, some, rfl, cut, rfl⟩
    · cases he
      rw [alone, itemsOf_cons some]
      exact ⟨rfl, by simp, by simpa [itemsOf] using some⟩
    · obtain ⟨⟨vs, rest⟩, hm, eq'⟩ := exists_of_map he
      cases eq'
      have inner : ∀ k ∈ others, k.isText = true := fun k hk => text k (by rw [eq]; simp [hk])
      obtain ⟨rfl, filled⟩ := moreItems_slices inner hm
      rw [cut, itemsOf_cons some]
      refine ⟨?_, by simp, forall_mem_cons.mpr ⟨some, filled⟩⟩
      cases hs : slices 0 others with
      | nil => exact absurd hs (slices_ne_nil 0 others)
      | cons => exact congrArg (fun ss => Literal.tuple (ss.map itemValue)) (itemsOf_cons some).symm
  next => cases h

end Slices

section Lines

variable {line : SourceLine Word} {lines : List (SourceLine Word)} {name : String}
  {span colon : Span} {v : List Token}
  (eq : line.tokens = ⟨.word (.identifier name), span⟩ :: ⟨.word .colon, colon⟩ :: v) (some : v ≠ [])

include eq some

theorem headerOf?_of_value : headerOf? line = none := by
  unfold headerOf?
  split
  next => exact absurd (List.cons.inj (List.cons.inj eq).2).2.symm some
  next => rfl

theorem BlockOf.propertyOf {b : Body} (h : BlockOf lines b) (hm : line.Among lines) :
    ∃ p, PropertyOf line p := by
  have none := headerOf?_of_value eq some
  induction hm generalizing b with
  | head =>
    cases h with
    | property ofProperty => exact ⟨_, ofProperty⟩
    | child _ ofWidget =>
      cases ofWidget with
      | mk header => cases none.symm.trans header
    | canvas _ ofCanvas =>
      cases ofCanvas with
      | mk header => cases none.symm.trans header
  | inside hm ih =>
    cases h with
    | property ofProperty =>
      cases ofProperty
      cases hm
    | child _ ofWidget =>
      cases ofWidget with
      | mk _ ofBlock => exact ih ofBlock
    | canvas _ ofCanvas =>
      cases ofCanvas with
      | mk _ ofBlock => exact ih ofBlock
  | tail _ ih =>
    cases h with
    | property _ ofLines | child _ _ ofLines | canvas _ _ ofLines => exact ih ofLines

/-- A line of a text with tokens behind its colon is a property. -/
theorem ModuleOf.propertyOf {m : Module} (h : ModuleOf lines m) (hm : line.Among lines) :
    ∃ p, PropertyOf line p := by
  have none := headerOf?_of_value eq some
  induction h with
  | nil => cases hm
  | rule ofRule _ ih =>
    cases hm with
    | head =>
      cases ofRule
      cases eq
    | inside hm =>
      cases ofRule with
      | mk _ ofBlock => exact ofBlock.propertyOf eq some hm
    | tail hm => exact ih hm
  | root ofWidget _ ih =>
    obtain ⟨header, ofBlock⟩ := ofWidget
    cases hm with
    | head => cases none.symm.trans header
    | inside hm => exact ofBlock.propertyOf eq some hm
    | tail hm => exact ih hm

end Lines

/-- A value is split at the commas outside brackets: every property line of an accepted text has the
value of its slices, of which only the last may be empty. -/
theorem property_values_split {source : String} {m : Module} (h : parse source = .ok m) :
    ∃ ts fin lines, tokens source = .ok (ts ++ [⟨.eof, fin⟩]) ∧ SpellsLines ts lines ∧
      ModuleOf lines m ∧
      ∀ line : SourceLine Word, line.Among lines → ∀ name span colon v, v ≠ [] →
        line.tokens = ⟨.word (.identifier name), span⟩ :: ⟨.word .colon, colon⟩ :: v →
          PropertyOf line { name, value := splitValue (v.map (·.kind)), span } ∧
            ∀ slice ∈ itemsOf (slices 0 (v.map (·.kind))), slice ≠ [] := by
  obtain ⟨ts, fin, lines, ht, spelled, ofLines, _⟩ := exists_represents h
  refine ⟨ts, fin, lines, ht, spelled, ofLines, ?_⟩
  intro line among name span colon v some eq
  have text := (spelled.exists_of_among among).1.text
  obtain ⟨p, property⟩ := ofLines.propertyOf eq some among
  cases property with
  | mk value =>
    cases eq
    obtain ⟨-, text⟩ := forall_mem_cons.mp (forall_mem_cons.mp text).2
    obtain ⟨rfl, _, filled⟩ := valueOf?_slices (forall_mem_map.mp text) value
    exact ⟨.mk value, fun slice hs => (filled slice hs).ne_nil⟩

/-- Commas inside brackets, an expression with such a comma, and a comma at the end. -/
theorem property_values_split_nested :
    ∃ m ts fin lines, parse "A:\n    x: f(1, [2, 3]), a + g(b, c), 'd',\n" = .ok m ∧
      tokens "A:\n    x: f(1, [2, 3]), a + g(b, c), 'd',\n" = .ok (ts ++ [⟨.eof, fin⟩]) ∧
      SpellsLines ts lines ∧ ModuleOf lines m ∧
      ∀ line : SourceLine Word, line.Among lines → ∀ name span colon v, v ≠ [] →
        line.tokens = ⟨.word (.identifier name), span⟩ :: ⟨.word .colon, colon⟩ :: v →
          PropertyOf line { name, value := splitValue (v.map (·.kind)), span } ∧
            ∀ slice ∈ itemsOf (slices 0 (v.map (·.kind))), slice ≠ [] := by
  have read : (parse "A:\n    x: f(1, [2, 3]), a + g(b, c), 'd',\n").toOption.isSome = true := by
    decide +kernel
  obtain ⟨m, hm⟩ := Option.isSome_iff_exists.mp read
  have hm := eq_ok_of_toOption hm
  obtain ⟨ts, fin, lines, split⟩ := property_values_split hm
  exact ⟨m, ts, fin, lines, hm, split⟩

end ViewBridge.Markup
