import ViewBridge.Proofs.Markup.Value

namespace ViewBridge.Markup

open List

/-- Tokens of these kinds that stand nowhere in particular. -/
def bare (ks : List Kind) : List Token := ks.map (⟨·, .origin⟩)

@[simp] theorem bare_nil : bare [] = [] := rfl

@[simp] theorem bare_cons (k : Kind) (ks : List Kind) :
    bare (k :: ks) = ⟨k, .origin⟩ :: bare ks := rfl

@[simp] theorem bare_append (ks ls : List Kind) : bare (ks ++ ls) = bare ks ++ bare ls :=
  map_append

@[simp] theorem length_bare (ks : List Kind) : (bare ks).length = ks.length :=
  length_map _

@[simp] theorem headKind_bare (ks : List Kind) : headKind (bare ks) = ks.head? := by
  cases ks <;> rfl

mutual

/-- The kinds of the tokens of a plain value. -/
inductive Phrase : List Kind → Literal → Prop
  | string (text) : Phrase [.word (.string text)] (.string text)
  | integer (i) : Phrase [.word (.integer i)] (.integer i)
  | float (x) : Phrase [.word (.float x)] (.float x)
  | formatString (text) : Phrase [.word (.formatString text)] (.expression text)
  | name (text) : Phrase [.word (.identifier text)] (.ofName text)
  | call {ks vs} (callee) : Phrases .round ks vs →
      Phrase (.word (.identifier callee) :: .opening .round :: ks) (.call callee vs)
  | list {ks vs} : Phrases .square ks vs → Phrase (.opening .square :: ks) (.list vs)
  | unit : Phrase [.opening .round, .closing .round] (.tuple [])
  | group {ks v} : Phrase ks v → Phrase (.opening .round :: (ks ++ [.closing .round])) v
  | tuple {ks v ls vs} : Phrase ks v → Phrases .round ls vs →
      Phrase (.opening .round :: (ks ++ .word .comma :: ls)) (.tuple (v :: vs))

/-- The kinds of plain values between commas, up to their closing bracket. -/
inductive Phrases : Bracket → List Kind → List Literal → Prop
  | close (b) : Phrases b [.closing b] []
  | last {b ks v} : Phrase ks v → Phrases b (ks ++ [.closing b]) [v]
  | more {b ks v ls vs} : Phrase ks v → Phrases b ls vs →
      Phrases b (ks ++ .word .comma :: ls) (v :: vs)

end

variable {fin : Span} {ks rest : List Kind} {v : Literal} {vs : List Literal}
  {b : Bracket}

theorem Phrase.head_startsValue (h : Phrase ks v) :
    ∃ k more, ks = k :: more ∧ startsValue k = true := by
  cases h <;> exact ⟨_, _, rfl, rfl⟩

theorem Phrase.head_ne_closing (h : Phrase ks v) (b : Bracket) :
    headKind (bare (ks ++ rest)) ≠ some (.closing b) := by
  obtain ⟨k, more, rfl, hk⟩ := h.head_startsValue
  intro eq
  cases eq
  cases hk

mutual

/-- A plain value is read from its tokens, unless it is a name that what follows makes a call. -/
theorem Phrase.atom {ks rest : List Kind} {v : Literal} (h : Phrase ks v)
    (hr : rest.head? ≠ some (.opening .round)) :
    atom fin (bare (ks ++ rest)) = .ok (v, bare rest) := by
  cases h with
  | string | integer | float | formatString =>
    rw [singleton_append, bare_cons]
    exact atom_literal rfl
  | name text =>
    rw [singleton_append, bare_cons, atom_name (by simpa using hr)]
  | call callee hs =>
    rw [cons_append, cons_append, bare_cons, bare_cons, atom_call, hs.sequence]
    rfl
  | list hs =>
    rw [cons_append, bare_cons, atom_list, hs.sequence]
    rfl
  | unit => exact atom_unit
  | group hp =>
    rw [cons_append, append_assoc, bare_cons, atom_group (hp.head_ne_closing _),
      hp.atom (by simp)]
    rfl
  | tuple hp hs =>
    rw [cons_append, append_assoc, bare_cons, atom_group (hp.head_ne_closing _),
      hp.atom (by simp)]
    show (ViewBridge.sequence fin .round (bare (_ ++ rest))).map _ = _
    rw [hs.sequence]
    rfl
termination_by ks.length
decreasing_by all_goals simp only [length_cons, length_append]; omega

theorem Phrases.sequence {ks rest : List Kind} {vs : List Literal} {b : Bracket}
    (h : Phrases b ks vs) : sequence fin b (bare (ks ++ rest)) = .ok (vs, bare rest) := by
  cases h with
  | close => exact sequence_close
  | last hp =>
    rw [append_assoc, sequence_items (hp.head_ne_closing), hp.atom (by simp)]
    exact if_pos rfl
  | more hp hs =>
    rw [append_assoc, sequence_items (hp.head_ne_closing), hp.atom (by simp)]
    show (ViewBridge.sequence fin b (bare (_ ++ rest))).map _ = _
    rw [hs.sequence]
    rfl
termination_by ks.length
decreasing_by all_goals simp only [length_cons, length_append]; omega

end

/-- Kinds of tokens the first of which are such, and what is left behind those. -/
def Begins (P : List Kind → Prop) (ks : List Kind) (rest : List Token) : Prop :=
  ∃ used others, ks = used ++ others ∧ rest = bare others ∧ P used

/-- What is read off less than so many tokens as plain values is such. -/
structure PhrasesRead (fin : Span) (size : Nat) : Prop where
  value : ∀ {ks v rest}, ks.length < size → atom fin (bare ks) = .ok (v, rest) →
    Begins (Phrase · v) ks rest
  values : ∀ {b ks vs rest}, ks.length < size → sequence fin b (bare ks) = .ok (vs, rest) →
    Begins (Phrases b · vs) ks rest

section Read

variable {size : Nat} {left : List Token} (below : PhrasesRead fin size)

include below

theorem phrase_of_name {text : String} (hn : ks.length < size)
    (h : atom fin (⟨.word (.identifier text), .origin⟩ :: bare ks) = .ok (v, left)) :
    Begins (Phrase · v) (.word (.identifier text) :: ks) left := by
  by_cases hr : headKind (bare ks) = some (.opening .round)
  · cases ks with
    | nil => cases hr
    | cons k ks =>
      cases hr
      rw [bare_cons, atom_call] at h
      obtain ⟨p, hs, hp⟩ := exists_of_map h
      cases hp
      obtain ⟨used, others, rfl, hrest, hu⟩ := below.values (Nat.lt_of_succ_lt hn) hs
      exact ⟨_, others, rfl, hrest, .call text hu⟩
  · rw [atom_name hr] at h
    cases h
    exact ⟨[_], ks, rfl, rfl, .name text⟩

theorem phrase_of_group (hn : ks.length < size)
    (h : atom fin (⟨.opening .round, .origin⟩ :: bare ks) = .ok (v, left)) :
    Begins (Phrase · v) (.opening .round :: ks) left := by
  by_cases hr : headKind (bare ks) = some (.closing .round)
  · cases ks with
    | nil => cases hr
    | cons k ks =>
      cases hr
      rw [bare_cons, atom_unit] at h
      cases h
      exact ⟨_, ks, rfl, rfl, .unit⟩
  rw [atom_group hr] at h
  obtain ⟨⟨first, rest'⟩, ha, hp⟩ := exists_of_bind h
  obtain ⟨used, others, rfl, rfl, hu⟩ := below.value hn ha
  rw [length_append] at hn
  cases others with
  | nil => cases hp
  | cons k others =>
    cases k with
    | closing b =>
      cases b with
      | round =>
        cases hp
        exact ⟨_ :: (used ++ [_]), others, by simp, rfl, .group hu⟩
      | _ => cases hp
    | word w =>
      cases w with
      | comma =>
        obtain ⟨p, hs, hq⟩ := exists_of_map hp
        cases hq
        rw [length_cons] at hn
        obtain ⟨more, others, rfl, hrest, hm⟩ := below.values (by omega) hs
        exact ⟨_ :: (used ++ _ :: more), others, by simp, hrest, .tuple hu hm⟩
      | _ => cases hp
    | _ => cases hp

theorem phrase_of_atom_step (hn : ks.length ≤ size) (h : atom fin (bare ks) = .ok (v, left)) :
    Begins (Phrase · v) ks left := by
  cases ks with
  | nil =>
    rw [bare_nil, atom.eq_def] at h
    cases h
  | cons k ks =>
    rw [bare_cons] at h
    by_cases hk : startsValue k = false
    · rw [atom_refused hk] at h
      cases h
    cases k with
    | word w =>
      cases w with
      | string | integer | float | formatString =>
        rw [atom_literal rfl] at h
        cases h
        exact ⟨[_], ks, rfl, rfl, by constructor⟩
      | identifier => exact phrase_of_name below hn h
      | _ => exact absurd rfl hk
    | opening b =>
      cases b with
      | square =>
        rw [atom_list] at h
        obtain ⟨p, hs, hp⟩ := exists_of_map h
        cases hp
        obtain ⟨used, others, rfl, hrest, hu⟩ := below.values hn hs
        exact ⟨_, others, rfl, hrest, .list hu⟩
      | round => exact phrase_of_group below hn h
      | curly => exact absurd rfl hk
    | _ => exact absurd rfl hk

theorem phrases_of_sequence_step (hn : ks.length ≤ size)
    (h : sequence fin b (bare ks) = .ok (vs, left)) : Begins (Phrases b · vs) ks left := by
  by_cases hc : ∃ b', headKind (bare ks) = some (.closing b')
  · obtain ⟨b', hc⟩ := hc
    cases ks with
    | nil => cases hc
    | cons k ks =>
      cases hc
      by_cases hb : b' = b
      · subst hb
        rw [bare_cons, sequence_close] at h
        cases h
        exact ⟨[_], ks, rfl, rfl, .close b'⟩
      · rw [bare_cons, sequence_mismatch hb] at h
        cases h
  rw [sequence_items fun b' h => hc ⟨b', h⟩] at h
  obtain ⟨⟨first, rest'⟩, ha, hp⟩ := exists_of_bind h
  obtain ⟨used, others, rfl, rfl, hu⟩ := phrase_of_atom_step below hn ha
  have shorter := length_lt_of_atom ha
  simp only [length_bare, length_append] at hn shorter
  cases others with
  | nil => cases hp
  | cons k others =>
    cases k with
    | closing b' =>
      change (if b' = b then _ else _) = _ at hp
      split at hp
      next eq =>
        subst eq
        cases hp
        exact ⟨used ++ [_], others, by simp, rfl, .last hu⟩
      next => cases hp
    | word w =>
      cases w with
      | comma =>
        obtain ⟨p, hs, hq⟩ := exists_of_map hp
        cases hq
        rw [length_cons] at hn
        obtain ⟨more, others, rfl, hrest, hm⟩ := below.values (by omega) hs
        exact ⟨used ++ _ :: more, others, by simp, hrest, .more hu hm⟩
      | _ => cases hp
    | _ => cases hp

end Read

theorem phrasesRead (size : Nat) : PhrasesRead fin size := by
  induction size with
  | zero => constructor <;> simp
  | succ size ih =>
    exact ⟨fun hn => phrase_of_atom_step ih (Nat.le_of_lt_succ hn),
      fun hn => phrases_of_sequence_step ih (Nat.le_of_lt_succ hn)⟩

theorem phrase_of_atom {rest : List Token} (h : atom fin (bare ks) = .ok (v, rest)) :
    ∃ used others, ks = used ++ others ∧ rest = bare others ∧ Phrase used v :=
  (phrasesRead (ks.length + 1)).value (Nat.lt_succ_self _) h

/-- The brackets open behind tokens of one item, given those open before them; nothing where the
item ends among them. -/
def passage : Nat → List Kind → Option Nat
  | depth, [] => some depth
  | depth, k :: ks =>
    match k with
    | .newline | .eof => none
    | .word .comma => if depth = 0 then none else passage depth ks
    | k => passage (depthAfter depth k) ks

theorem passage_append (depth : Nat) (ks ls : List Kind) :
    passage depth (ks ++ ls) = (passage depth ks).bind (passage · ls) := by
  induction ks generalizing depth with
  | nil => rfl
  | cons k ks ih =>
    cases k with
    | word w =>
      cases w with
      | comma =>
        simp only [List.cons_append, passage]
        split
        · rfl
        · exact ih depth
      | _ => exact ih _
    | newline => rfl
    | eof => rfl
    | _ => exact ih _

theorem itemTokens_of_passage {depth depth' : Nat} (h : passage depth ks = some depth') :
    itemTokens depth (bare (ks ++ rest)) = bare ks ++ itemTokens depth' (bare rest) := by
  induction ks generalizing depth with
  | nil =>
    cases h
    rfl
  | cons k ks ih =>
    cases k with
    | word w =>
      cases w with
      | comma =>
        simp only [passage] at h
        split at h
        next => cases h
        next hd =>
          simp only [List.cons_append, bare_cons, itemTokens, if_neg hd, ih h]
      | _ => exact congrArg (_ :: ·) (ih h)
    | newline => cases h
    | eof => cases h
    | _ => exact congrArg (_ :: ·) (ih h)

mutual

theorem Phrase.passage_eq {ks : List Kind} {v : Literal} (h : Phrase ks v)
    (depth : Nat) : passage depth ks = some depth := by
  cases h with
  | string | integer | float | formatString | name | unit => rfl
  | call callee hs => exact hs.passage_eq depth
  | list hs => exact hs.passage_eq depth
  | group hp =>
    simp only [passage, passage_append, depthAfter, hp.passage_eq, Option.bind_some]
    rfl
  | tuple hp hs =>
    simp only [passage, passage_append, depthAfter, hp.passage_eq, Option.bind_some,
      Nat.add_eq_zero_iff, Nat.one_ne_zero, and_false, if_false]
    exact hs.passage_eq depth
termination_by ks.length
decreasing_by all_goals simp only [List.length_cons, List.length_append]; omega

theorem Phrases.passage_eq {ks : List Kind} {vs : List Literal} {b : Bracket}
    (h : Phrases b ks vs) (depth : Nat) : passage (depth + 1) ks = some depth := by
  cases h with
  | close => rfl
  | last hp =>
    simp only [passage, passage_append, depthAfter, hp.passage_eq, Option.bind_some]
    rfl
  | more hp hs =>
    simp only [passage, passage_append, hp.passage_eq, Option.bind_some,
      Nat.add_eq_zero_iff, Nat.one_ne_zero, and_false, if_false]
    exact hs.passage_eq depth
termination_by ks.length
decreasing_by all_goals simp only [List.length_cons, List.length_append]; omega

end

@[simp] theorem map_kind_bare (ks : List Kind) : (bare ks).map (·.kind) = ks := by
  rw [bare, List.map_map]
  exact List.map_id _

theorem bare_injective {ks ls : List Kind} (h : bare ks = bare ls) : ks = ls := by
  rw [← map_kind_bare ks, h, map_kind_bare]

theorem itemTokens_of_atItemEnd (h : atItemEnd (bare rest) = true) :
    itemTokens 0 (bare rest) = [] := by
  cases rest with
  | nil => rfl
  | cons k rest =>
    cases k with
    | word w =>
      cases w with
      | comma => rfl
      | _ => cases h
    | newline => rfl
    | _ => cases h

theorem head_of_atItemEnd (h : atItemEnd (bare rest) = true) :
    rest.head? ≠ some (.opening .round) := by
  cases rest with
  | nil => nofun
  | cons k rest =>
    intro eq
    cases eq
    cases h

theorem item_phrase (h : Phrase ks v) (hr : atItemEnd (bare rest) = true) :
    item fin (bare (ks ++ rest)) = .ok (v, bare rest) := by
  unfold item
  rw [h.atom (head_of_atItemEnd hr)]
  simp only [hr, if_true]

theorem itemTokens_eq (hs : passage 0 ks = some 0) (hr : atItemEnd (bare rest) = true) :
    itemTokens 0 (bare (ks ++ rest)) = bare ks := by
  rw [itemTokens_of_passage hs, itemTokens_of_atItemEnd hr, List.append_nil]

/-- What is no plain value as a whole is read as an expression, or refused. -/
theorem item_other (fin : Span) (rest : List Kind)
    (slice : itemTokens 0 (bare (ks ++ rest)) = bare ks) (hn : ∀ v, ¬Phrase ks v) :
    ∃ fault, item fin (bare (ks ++ rest)) =
      if ks.any isExpressionToken then
        .ok (.expression (expressionText {} (bare ks)), bare rest)
      else .error fault := by
  have dropped : (bare (ks ++ rest)).drop (bare ks).length = bare rest := by
    rw [bare_append, List.drop_left]
  have any : (bare ks).any (isExpressionToken ·.kind) = ks.any isExpressionToken := by
    simp [bare, Function.comp_def]
  unfold item
  simp only [slice, dropped, any]
  split
  next p value others eq =>
    obtain ⟨used, others, eq', rfl, hu⟩ := phrase_of_atom eq
    rw [if_neg]
    · exact ⟨_, rfl⟩
    · intro he
      rw [eq', itemTokens_of_passage (hu.passage_eq 0), itemTokens_of_atItemEnd he,
        List.append_nil] at slice
      exact hn value (bare_injective slice ▸ hu)
  next => exact ⟨_, rfl⟩

def readItem (ks : List Kind) : Option Literal :=
  (item .origin (bare ks)).toOption.map (·.1)

theorem readItem_phrase (h : Phrase ks v) : readItem ks = some v := by
  have alone : item .origin (bare (ks ++ [])) = .ok (v, bare []) := item_phrase h rfl
  rw [List.append_nil] at alone
  rw [readItem, alone]
  rfl

theorem readItem_expression (hs : passage 0 ks = some 0) (hn : ∀ v, ¬Phrase ks v)
    (hx : ks.any isExpressionToken = true) :
    readItem ks = some (.expression (expressionText {} (bare ks))) := by
  obtain ⟨fault, alone⟩ := item_other .origin [] (itemTokens_eq hs rfl) hn
  rw [List.append_nil, if_pos hx] at alone
  rw [readItem, alone]
  rfl

/-- The value of an item depends on its own tokens alone. -/
theorem item_toOption (hs : passage 0 ks = some 0) (hr : atItemEnd (bare rest) = true) :
    (item fin (bare (ks ++ rest))).toOption = (readItem ks).map (·, bare rest) := by
  by_cases hp : ∃ v, Phrase ks v
  · obtain ⟨v, hp⟩ := hp
    rw [item_phrase hp hr, readItem_phrase hp]
    rfl
  · have hn : ∀ v, ¬Phrase ks v := fun v h => hp ⟨v, h⟩
    obtain ⟨fault, here⟩ := item_other fin rest (itemTokens_eq hs hr) hn
    by_cases hx : ks.any isExpressionToken = true
    · rw [here, if_pos hx, readItem_expression hs hn hx]
      rfl
    · obtain ⟨fault', alone⟩ := item_other .origin [] (itemTokens_eq hs rfl) hn
      rw [List.append_nil] at alone
      rw [here, readItem, alone, if_neg hx, if_neg hx]
      rfl

end ViewBridge.Markup
