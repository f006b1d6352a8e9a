import ViewBridge.Proofs.Classes.MemberLines
import ViewBridge.Proofs.Source.Blocks

namespace ViewBridge

open List

variable {ω : Type} {lines : List (SourceLine ω)} {ts : List (Token ω)} {ks : List (TokenKind ω)}

theorem Nested.behind_word {w : ω} (h : Nested (.word w :: ks)) : Nested ks := by
  cases h with
  | word _ h => exact h
  | layout hk => cases hk

theorem SpellsLines.ends {n : Nat} (h : SpellsLines ts lines) (hk : Ends (n + 1) ks) :
    Ends (n + 1) (ts.map (·.kind) ++ ks) := by
  induction h generalizing n ks with
  | nil => exact hk
  | line isLine _ ih =>
    rw [map_append, append_assoc]
    exact .line isLine (ih hk)
  | @block l s s₁ s₂ inner block ts lines isLine _ _ first second =>
    have behind := first (.dedent (second hk))
    simp only [map_append, map_cons, append_assoc, cons_append]
    exact .block isLine behind

theorem SpellsLines.exists_statement (h : SpellsLines ts lines) (ne : ts ≠ []) :
    ∃ v us line others, ts = v ++ us ∧ Statement (v.map (·.kind)) ∧ SpellsLines v [line] ∧
      SpellsLines us others := by
  cases h with
  | nil => exact absurd rfl ne
  | @line l s us others isLine rest =>
    refine ⟨l ++ [⟨.newline, s⟩], us, _, others, by simp, ?_, .line isLine .nil, rest⟩
    rw [map_append]
    exact .line isLine
  | @block l s s₁ s₂ inner block us others isLine body rest =>
    have first : SpellsLines (l ++ ⟨.newline, s⟩ :: ⟨.indent, s₁⟩ :: (inner ++ [⟨.dedent, s₂⟩]))
        [⟨l, block⟩] := .block isLine body .nil
    have statement : Ends 1 (inner.map (·.kind) ++ [.dedent]) := body.ends (.dedent .nil)
    refine ⟨_, us, _, others, by simp, ?_, first, rest⟩
    simp only [map_append, map_cons]
    exact .block isLine statement

theorem SpellsLines.last_isText {pre : List (Token ω)} (h : SpellsLines ts lines)
    (hp : ∀ t ∈ pre.getLast?, t.kind.isText = false) :
    ∀ t ∈ (pre ++ ts).getLast?, t.kind.isText = false := by
  induction h generalizing pre with
  | nil => rwa [append_nil]
  | @line l s ts lines _ _ ih =>
    have newline : ∀ t ∈ (pre ++ l ++ [Token.mk .newline s]).getLast?, t.kind.isText = false := by
      rw [getLast?_concat]
      rintro _ ⟨⟩
      rfl
    simpa using ih newline
  | @block l s s₁ s₂ inner block ts lines _ _ _ _ ih =>
    have dedent : ∀ t ∈ (pre ++ l ++ [Token.mk .newline s, Token.mk .indent s₁] ++ inner ++
        [Token.mk .dedent s₂]).getLast?, t.kind.isText = false := by
      rw [getLast?_concat]
      rintro _ ⟨⟩
      rfl
    simpa using ih dedent

end ViewBridge

namespace ViewBridge.Classes

open List

variable {fin s : Span} {whole pre v rest left ts : List Token} {pending : List Decorator}
  {p : Pending} {f : Field} {ms : Members} {line : MemberLine} {source : SourceLine Word}
  {lines : List (SourceLine Word)} {extent : Span} {shown : Interface}

/-- Whole statements of a block that are read as members which show this much, and the place that
they take. -/
structure Chunk (whole pre chunk post : List Token) (extent : Span) (shown : Interface) : Prop where
  whole : whole = pre ++ (chunk ++ post)
  start : ∀ t ∈ pre.getLast?, t.kind.isText = false
  deep : (pre.map (·.kind)).countP TokenKind.isDedent < (pre.map (·.kind)).countP TokenKind.isIndent
  lines : ∃ lines, SpellsLines chunk lines
  spanned : Spanned chunk extent
  reads : Reads [] (chunk.map (·.kind)) shown []

/-- The tokens have a stretch that is read as members which show this much. -/
def HeldAt (whole : List Token) (extent : Span) (shown : Interface) : Prop :=
  ∃ pre chunk post, Chunk whole pre chunk post extent shown

/-- The tokens up to some line of a block, with the lines before it whose decorators wait there. -/
structure Waiting (whole pre rest : List Token) (p : Pending) : Prop where
  whole : whole = pre ++ (p.tokens ++ rest)
  start : ∀ t ∈ pre.getLast?, t.kind.isText = false
  deep : (pre.map (·.kind)).countP TokenKind.isDedent < (pre.map (·.kind)).countP TokenKind.isIndent
  lines : ∃ lines, SpellsLines p.tokens lines
  reads : Reads [] (p.tokens.map (·.kind)) {} (p.decorators.map Decorator.label)
  leads : p.Leads

theorem Waiting.past (h : Waiting whole pre (v ++ rest) p) (hs : SpellsLines v lines) :
    Waiting whole (pre ++ (p.tokens ++ v)) rest {} := by
  obtain ⟨before, spelled⟩ := h.lines
  have all := spelled.append hs
  have closed : ((p.tokens ++ v).map (·.kind)).countP TokenKind.isDedent =
      ((p.tokens ++ v).map (·.kind)).countP TokenKind.isIndent := all.balanced.closed
  have deep := h.deep
  refine ⟨?_, all.last_isText h.start, ?_, ⟨[], .nil⟩, reads_nil [], rfl⟩
  · rw [h.whole]
    simp
  · simp only [map_append, countP_append] at closed ⊢
    omega

theorem Waiting.extended (h : Waiting whole pre (v ++ rest) p) (hs : SpellsLines v lines)
    {after : Pending} (tokens : after.tokens = p.tokens ++ v) (leads : after.Leads)
    (reads : Reads (p.decorators.map Decorator.label) (v.map (·.kind)) {}
      (after.decorators.map Decorator.label)) : Waiting whole pre rest after := by
  obtain ⟨before, spelled⟩ := h.lines
  refine ⟨?_, h.start, h.deep, ?_, ?_, leads⟩
  · rw [h.whole, tokens, append_assoc]
  · exact ⟨_, tokens ▸ spelled.append hs⟩
  · rw [tokens, map_append]
    exact h.reads.append reads

/-- What waits and the tokens of a line make up the stretch of the member that is read there. -/
theorem Waiting.heldAt (h : Waiting whole pre (v ++ rest) p) (hs : SpellsLines v lines)
    (reads : Reads (p.decorators.map Decorator.label) (v.map (·.kind)) shown [])
    (spanned : Spanned (p.tokens ++ v) extent) : HeldAt whole extent shown := by
  obtain ⟨before, spelled⟩ := h.lines
  refine ⟨pre, p.tokens ++ v, rest, ?_, h.start, h.deep, ⟨_, spelled.append hs⟩, spanned, ?_⟩
  · rw [h.whole, append_assoc]
  · rw [map_append]
    exact h.reads.append reads

theorem isLine_of_spellsLines (h : SpellsLines (v ++ [⟨.newline, s⟩]) [source]) :
    IsLine (v.map (·.kind)) := by
  generalize eq : v ++ [⟨.newline, s⟩] = u at h
  cases h with
  | line isLine none =>
    cases none
    obtain ⟨rfl, _⟩ := append_inj' eq rfl
    exact isLine
  | block _ _ none =>
    cases none
    have last := congrArg getLast? eq
    simp [getLast?_cons] at last

/-- The line of a field without a type. -/
theorem FieldAt.reads (h : FieldAt v f) (hs : SpellsLines v [source]) (none : f.hint = none) :
    Reads [] (v.map (·.kind)) ⟨[f.name], []⟩ [] := by
  obtain ⟨l, s, rfl, text, reserved, equals, _⟩ := h
  have isLine := isLine_of_spellsLines hs
  rcases equals none with rfl | ⟨s', l, rfl⟩
  · exact reads_name reserved
  · have reads : Reads [] _ ⟨[f.name], []⟩ [] := reads_equals reserved
      (fun k hk => isLine.text k (mem_cons_of_mem _ (mem_cons_of_mem _ hk)))
      isLine.nested.behind_word.behind_word
    rw [map_append]
    exact reads

/-- What a statement of a class body adds stands where its extent says, and what waits behind it is
known again. -/
theorem Waiting.step (lexed : Lexed whole) (h : Waiting whole pre (v ++ rest) p)
    (statement : Statement (v.map (·.kind))) (hs : SpellsLines v [source])
    (hr : startsBlock rest = false) (hm : member fin p.decorators (v ++ rest) = .ok (line, rest)) :
    (∃ pre' p', p'.decorators = line.pending ∧ Waiting whole pre' rest p') ∧
      (∀ f ∈ line.members.fields, f.hint = none → HeldAt whole f.extent ⟨[f.name], []⟩) ∧
      ∀ m ∈ line.members.methods, HeldAt whole m.extent ⟨[], [m.signature]⟩ := by
  have past := h.past hs
  obtain ⟨_, p', eq, lineAt, leads, same, _⟩ := exists_lineAt (h.whole ▸ lexed) h.leads hm
  obtain rfl := append_cancel_right eq
  have reads (hf : startsField (v.map (·.kind)) = false) := Reads.of_statement statement hf hm hr
  obtain ⟨⟨fs, ms⟩, ds⟩ := line
  obtain rfl : p'.decorators = ds := same
  dsimp only at lineAt reads ⊢
  cases lineAt with
  | blank =>
    obtain ⟨_, _, eq, text⟩ := statement.exists_text
    cases eq
    cases text
  | @quiet w s s' quiet =>
    refine ⟨?_, nofun, nofun⟩
    rcases p.kept_cases [⟨.word w, s⟩, ⟨.newline, s'⟩] with eq | eq
    · exact ⟨_, {}, by rw [eq], past⟩
    · refine ⟨_, _, rfl, h.extended hs (by rw [eq]) leads (reads ?_)⟩
      cases w with
      | passKeyword | ellipsis | string => rfl
      | _ => cases quiet
  | decorator => exact ⟨⟨_, _, rfl, h.extended hs rfl leads (reads rfl)⟩, nofun, nofun⟩
  | nested | reserved => exact ⟨⟨_, {}, rfl, past⟩, nofun, nofun⟩
  | field here =>
    refine ⟨⟨_, {}, rfl, past⟩, fun f hf none => ?_, nofun⟩
    obtain rfl := mem_singleton.mp hf
    have bare : Waiting whole _ (v ++ rest) {} := h.past (v := []) .nil
    exact bare.heldAt hs (here.reads hs none) here.spanned
  | @method keyword w m starts _ _ spanned =>
    refine ⟨⟨_, {}, rfl, past⟩, nofun, fun m hm => ?_⟩
    obtain rfl := mem_singleton.mp hm
    have plain : startsField ((keyword ++ w).map (·.kind)) = false := by cases starts <;> rfl
    exact h.heldAt hs (reads plain) spanned

theorem rest_of_member {result : Members × List Token} (statement : Statement (v.map (·.kind)))
    (hr : startsBlock rest = false) (hm : member fin pending (v ++ rest) = .ok (line, left))
    (hb : classBody fin line.pending left = .ok result) : left = rest := by
  obtain ⟨R, hR, ends, hl⟩ := statement.onLine rfl hr hr
  have both : Agree _ (member fin pending (v ++ rest)) (member fin pending (v ++ rest)) :=
    member_lockstep (frame_upto rest rest) hR ends rfl hl
  obtain ⟨⟨_, behind⟩, same, _, onward⟩ := both.exists_ok hm
  rcases onward with upto | ⟨_, _, upto⟩ | @⟨s, _, inner⟩
  · exact upto.eq_of_zero.1
  · exact upto.eq_of_zero.1
  · obtain ⟨fault, refused⟩ := classBody_indent fin line.pending s inner
    cases refused.symm.trans hb

theorem exists_of_classBody (statement : Statement (v.map (·.kind)))
    (hb : classBody fin pending (v ++ rest) = .ok (ms, left)) :
    ∃ line behind others, member fin pending (v ++ rest) = .ok (line, behind) ∧
      classBody fin line.pending behind = .ok (others, left) ∧ ms = line.members.append others := by
  obtain ⟨k, ks, eq, text⟩ := statement.exists_text
  obtain ⟨s, v, rfl, _⟩ := exists_kinds_cons eq
  rw [cons_append, classBody_member (by rintro rfl; cases text) (by rintro rfl; cases text)] at hb
  obtain ⟨⟨line, behind⟩, hm, hb⟩ := exists_of_bind hb
  dsimp only at hb
  split at hb
  next =>
    obtain ⟨⟨others, _⟩, ho, eq⟩ := exists_of_map hb
    cases eq
    exact ⟨line, behind, others, hm, ho, rfl⟩
  next => cases hb

/-- The members of a class body are stretches of its lines. -/
theorem Waiting.run (lexed : Lexed whole) (hs : SpellsLines ts lines)
    (h : Waiting whole pre (ts ++ ⟨.dedent, s⟩ :: rest) p)
    (hb : classBody fin p.decorators (ts ++ ⟨.dedent, s⟩ :: rest) = .ok (ms, left)) :
    (∀ f ∈ ms.fields, f.hint = none → HeldAt whole f.extent ⟨[f.name], []⟩) ∧
      ∀ m ∈ ms.methods, HeldAt whole m.extent ⟨[], [m.signature]⟩ := by
  induction hn : ts.length using Nat.strongRecOn generalizing ts lines pre p ms with
  | ind size ih =>
    by_cases ne : ts = []
    · subst ne
      rw [nil_append, classBody] at hb
      cases hb
      exact ⟨forall_mem_nil _, forall_mem_nil _⟩
    · obtain ⟨v, us, source, others, rfl, statement, first, further⟩ := hs.exists_statement ne
      rw [append_assoc] at h hb
      have start : startsBlock (us ++ ⟨.dedent, s⟩ :: rest) = false := further.startsBlock rfl
      obtain ⟨line, behind, others, hm, ho, rfl⟩ := exists_of_classBody statement hb
      obtain rfl := rest_of_member statement start hm ho
      obtain ⟨⟨pre', p', same, next⟩, fields, methods⟩ := h.step lexed statement first start hm
      have shorter : us.length < size := by
        obtain ⟨_, _, eq, _⟩ := statement.exists_text
        have some : 0 < v.length := by
          have length := congrArg List.length eq
          rw [length_map, length_cons] at length
          omega
        rw [← hn, length_append]
        omega
      rw [← same] at ho
      obtain ⟨fields', methods'⟩ := ih us.length shorter further next ho rfl
      exact ⟨forall_mem_append.mpr ⟨fields, fields'⟩, forall_mem_append.mpr ⟨methods, methods'⟩⟩

end ViewBridge.Classes
