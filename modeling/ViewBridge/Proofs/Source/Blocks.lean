import ViewBridge.Proofs.Source.Lines

namespace ViewBridge

open List

variable {ω : Type} {ks ls : List (TokenKind ω)}

/-- Every block has a line. -/
def Filled (ks : List (TokenKind ω)) : Prop :=
  ∀ before after, ks ≠ before ++ .indent :: .dedent :: after

theorem Filled.part (h : Filled ks) (hi : ls <:+: ks) : Filled ls := by
  obtain ⟨front, back, rfl⟩ := hi
  intro before after eq
  exact h (front ++ before) (after ++ back) (by simp [eq])

theorem Skeleton.filled (h : Skeleton ks) : Filled ks := by
  intro before after eq
  have place := h.dedent_place (before ++ [.indent]) after (by simp [eq])
  simp at place

namespace BlocksBalanced

theorem append (h : BlocksBalanced ks) (hl : BlocksBalanced ls) : BlocksBalanced (ks ++ ls) where
  opened := by
    intro before after eq
    rcases append_eq_append_iff.mp eq with ⟨more, rfl, rest⟩ | ⟨more, rfl, rest⟩
    · have first := h.closed
      have second := hl.opened more after rest
      simp only [countP_append]
      omega
    · exact h.opened before more rfl
  closed := by
    have first := h.closed
    have second := hl.closed
    simp only [countP_append]
    omega

/-- The marks of a block around what is inside it. -/
theorem block (h : BlocksBalanced ks) : BlocksBalanced (.indent :: (ks ++ [.dedent])) where
  opened := by
    intro before after eq
    cases before with
    | nil => exact Nat.le_refl _
    | cons k before =>
      obtain ⟨rfl, tail⟩ := List.cons.inj eq
      rcases append_eq_append_iff.mp tail with ⟨more, rfl, rest⟩ | ⟨more, rfl, rest⟩
      · have inner := h.closed
        have last : more.countP TokenKind.isDedent ≤ 1 := by
          have all := congrArg (List.countP TokenKind.isDedent) rest
          simp only [countP_append, countP_singleton, TokenKind.isDedent] at all
          simp only [↓reduceIte] at all
          omega
        simp only [countP_cons, countP_append, TokenKind.isIndent, TokenKind.isDedent]
        simp only [Bool.false_eq_true, ↓reduceIte]
        omega
      · have inner := h.opened before more rfl
        simp only [countP_cons, TokenKind.isIndent, TokenKind.isDedent]
        simp only [Bool.false_eq_true, ↓reduceIte]
        omega
  closed := by
    have inner := h.closed
    simp only [countP_cons, countP_append, countP_nil]
    simp only [TokenKind.isIndent, TokenKind.isDedent, Bool.false_eq_true, ↓reduceIte]
    omega

theorem of_flat (h : ∀ k ∈ ks, k.isIndent = false ∧ k.isDedent = false) : BlocksBalanced ks := by
  have none (ls : List (TokenKind ω)) (hs : ∀ k ∈ ls, k ∈ ks) :
      ls.countP TokenKind.isDedent = 0 ∧ ls.countP TokenKind.isIndent = 0 := by
    simp only [countP_eq_zero]
    exact ⟨fun k hk => by simp [h k (hs k hk)], fun k hk => by simp [h k (hs k hk)]⟩
  constructor
  · intro before after eq
    have flat := none before fun k hk => by simp [eq, hk]
    omega
  · have flat := none ks fun k hk => hk
    omega

theorem of_isLine (h : IsLine ks) : BlocksBalanced (ks ++ [.newline]) := by
  refine of_flat fun k hk => ?_
  rcases mem_append.mp hk with hk | hk
  · have text := h.text k hk
    cases k with
    | indent | dedent => cases text
    | _ => exact ⟨rfl, rfl⟩
  · obtain rfl := mem_singleton.mp hk
    exact ⟨rfl, rfl⟩

end BlocksBalanced

theorem SpellsLines.balanced {ts : List (Token ω)} {lines : List (SourceLine ω)}
    (h : SpellsLines ts lines) : BlocksBalanced (ts.map (·.kind)) := by
  induction h with
  | nil => exact .of_flat nofun
  | @line l s ts lines isLine _ ih =>
    have whole := (BlocksBalanced.of_isLine isLine).append ih
    simpa using whole
  | @block l s s₁ s₂ inner block ts lines isLine _ _ first second =>
    have whole := ((BlocksBalanced.of_isLine isLine).append first.block).append second
    simpa using whole

/-- The last token of lines, with the ends of the line and of the blocks that it is in. -/
theorem SpellsLines.exists_last {ts : List (Token ω)} {lines : List (SourceLine ω)}
    (h : SpellsLines ts lines) (ne : ts ≠ []) (filled : Filled (ts.map (·.kind))) :
    ∃ front last ends n, ts = front ++ last :: ends ∧ last.kind.isText = true ∧
      ends.map (·.kind) = .newline :: List.replicate n .dedent := by
  have only {l : List (Token ω)} (isLine : IsLine (l.map (·.kind))) (s : Span) :
      ∃ front last ends n, l ++ [⟨.newline, s⟩] = front ++ last :: ends ∧
        last.kind.isText = true ∧ ends.map (·.kind) = .newline :: List.replicate n .dedent := by
    have some : l ≠ [] := fun eq => isLine.nonempty (by rw [eq]; rfl)
    have text := isLine.text _ (mem_map_of_mem (getLast_mem some))
    have split : l ++ [⟨.newline, s⟩] = l.dropLast ++ l.getLast some :: [⟨.newline, s⟩] := by
      rw [append_cons l.dropLast, dropLast_concat_getLast some]
    exact ⟨l.dropLast, l.getLast some, [⟨.newline, s⟩], 0, split, text, rfl⟩
  induction h with
  | nil => exact absurd rfl ne
  | @line l s ts lines isLine spelled ih =>
    by_cases last : ts = []
    · subst last
      exact only isLine s
    · have inner : Filled (ts.map (·.kind)) :=
        filled.part ⟨l.map (·.kind) ++ [.newline], [], by simp⟩
      obtain ⟨front, t, ends, n, rfl, text, hk⟩ := ih last inner
      exact ⟨l ++ ⟨.newline, s⟩ :: front, t, ends, n, by simp, text, hk⟩
  | @block l s s₁ s₂ inner block ts lines isLine _ _ first second =>
    by_cases last : ts = []
    · subst last
      have some : inner ≠ [] := by
        rintro rfl
        exact filled (l.map (·.kind) ++ [.newline]) [] (by simp)
      have within : Filled (inner.map (·.kind)) :=
        filled.part ⟨l.map (·.kind) ++ [.newline, .indent], [.dedent], by simp⟩
      obtain ⟨front, t, ends, n, rfl, text, hk⟩ := first some within
      refine ⟨l ++ ⟨.newline, s⟩ :: ⟨.indent, s₁⟩ :: front, t, ends ++ [⟨.dedent, s₂⟩], n + 1, by simp,
        text, ?_⟩
      rw [map_append, hk, replicate_succ']
      rfl
    · have behind : Filled (ts.map (·.kind)) :=
        filled.part ⟨l.map (·.kind) ++ .newline :: .indent :: (inner.map (·.kind) ++ [.dedent]), [],
          by simp⟩
      obtain ⟨front, t, ends, n, rfl, text, hk⟩ := second last behind
      exact ⟨l ++ ⟨.newline, s⟩ :: ⟨.indent, s₁⟩ :: (inner ++ ⟨.dedent, s₂⟩ :: front), t, ends, n, by simp,
        text, hk⟩

theorem SpellsLines.append {ts us : List (Token ω)} {lines more : List (SourceLine ω)}
    (h : SpellsLines ts lines) (hu : SpellsLines us more) :
    SpellsLines (ts ++ us) (lines ++ more) := by
  induction h with
  | nil => exact hu
  | line isLine _ ih => simpa using SpellsLines.line isLine ih
  | block isLine inner _ _ ih => simpa using SpellsLines.block isLine inner ih

section Split

variable {n : Nat} {before after line : List (TokenKind ω)}

theorem exists_behind_line (h : IsLine line) {rest : List (TokenKind ω)}
    (eq : line ++ .newline :: rest = before ++ .indent :: after) :
    ∃ more, rest = more ++ .indent :: after := by
  rcases append_eq_append_iff.mp eq with ⟨more, rfl, tail⟩ | ⟨more, rfl, tail⟩
  · cases more with
    | nil => cases tail
    | cons k more => exact ⟨more, (List.cons.inj tail).2⟩
  · cases more with
    | nil => cases tail
    | cons k more =>
      obtain ⟨rfl, _⟩ := List.cons.inj tail
      have text := h.text .indent (by simp)
      cases text

theorem Ends.behind_indent (h : Ends n ks) (eq : ks = before ++ .indent :: after) :
    ∃ m, Ends (m + 1) after := by
  induction h generalizing before with
  | nil => simp at eq
  | dedent _ ih =>
    cases before with
    | nil => cases eq
    | cons k before => exact ih (List.cons.inj eq).2
  | line isLine _ ih =>
    obtain ⟨more, eq⟩ := exists_behind_line isLine eq
    exact ih eq
  | @block n line ks isLine ends ih =>
    obtain ⟨more, eq⟩ := exists_behind_line isLine eq
    cases more with
    | nil =>
      obtain rfl := (List.cons.inj eq).2
      exact ⟨n + 1, ends⟩
    | cons k more => exact ih (List.cons.inj eq).2

theorem FromLine.of_ends_append (h : Ends n ks) (hs : Statements ls) : FromLine n (ks ++ ls) :=
  ⟨ks, ls, rfl, h, hs⟩

theorem exists_of_append_eq_indent (eq : ks ++ ls = before ++ .indent :: after) :
    (∃ rest, ks = before ++ .indent :: rest ∧ after = rest ++ ls) ∨
      ∃ more, ls = more ++ .indent :: after := by
  rcases append_eq_append_iff.mp eq with ⟨more, rfl, tail⟩ | ⟨more, rfl, tail⟩
  · exact .inr ⟨more, tail⟩
  · cases more with
    | nil => exact .inr ⟨[], tail.symm⟩
    | cons k more =>
      obtain ⟨rfl, rfl⟩ := List.cons.inj tail
      exact .inl ⟨more, rfl, rfl⟩

theorem Statements.behind_indent (h : Statements ks) (eq : ks = before ++ .indent :: after) :
    ∃ m, FromLine (m + 1) after := by
  induction h generalizing before with
  | nil => simp at eq
  | line isLine _ ih =>
    obtain ⟨more, eq⟩ := exists_behind_line isLine eq
    exact ih eq
  | @block line inner ks isLine ends statements ih =>
    obtain ⟨more, eq⟩ := exists_behind_line isLine eq
    cases more with
    | nil =>
      obtain rfl := (List.cons.inj eq).2
      exact ⟨0, .of_ends_append ends statements⟩
    | cons k more =>
      rcases exists_of_append_eq_indent (List.cons.inj eq).2 with ⟨rest, within, rfl⟩ | ⟨_, behind⟩
      · obtain ⟨m, inside⟩ := ends.behind_indent within
        exact ⟨m, .of_ends_append inside statements⟩
      · exact ih behind

theorem FromLine.behind_indent (h : FromLine n ks) (eq : ks = before ++ .indent :: after) :
    ∃ m, FromLine (m + 1) after := by
  obtain ⟨inner, more, rfl, ends, statements⟩ := h
  rcases exists_of_append_eq_indent eq with ⟨rest, within, rfl⟩ | ⟨_, behind⟩
  · obtain ⟨m, inside⟩ := ends.behind_indent within
    exact ⟨m, .of_ends_append inside statements⟩
  · exact statements.behind_indent behind

theorem BehindLine.behind_indent (h : BehindLine n ks) (eq : ks = before ++ .indent :: after) :
    ∃ m, FromLine (m + 1) after := by
  rcases h with h | ⟨inner, rfl, h⟩
  · exact h.behind_indent eq
  · cases before with
    | nil =>
      obtain rfl := (List.cons.inj eq).2
      exact ⟨n, h⟩
    | cons k before => exact h.behind_indent (List.cons.inj eq).2

end Split

/-- The block that an indent opens, up to its end. -/
theorem BehindLine.exists_block {n : Nat} {front ts : List (Token ω)} {s : Span}
    (h : BehindLine n ((front ++ ⟨.indent, s⟩ :: ts).map (·.kind))) :
    ∃ inner s' rest lines, ts = inner ++ ⟨.dedent, s'⟩ :: rest ∧ SpellsLines inner lines ∧
      startsBlock rest = false := by
  obtain ⟨m, block, more, eq, ends, statements⟩ :=
    h.behind_indent (map_append ..)
  obtain ⟨v, u, rfl, rfl, rfl⟩ := map_eq_append_iff.mp eq
  obtain ⟨inner, s', rest, lines, rfl, spelled, behind⟩ := ends.exists_spellsLines
  refine ⟨inner, s', rest ++ u, lines, by simp, spelled, ?_⟩
  cases m with
  | succ m => exact behind.startsBlock u
  | zero =>
    generalize hr : rest.map (·.kind) = ks at behind
    cases behind
    obtain rfl := map_eq_nil_iff.mp hr
    have outer : startsBlock (u ++ []) = false := statements.startsBlock rfl
    rwa [append_nil] at outer

end ViewBridge
