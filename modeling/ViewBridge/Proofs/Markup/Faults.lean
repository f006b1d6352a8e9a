import ViewBridge.Markup.Parse
import ViewBridge.Proofs.Source.Values

namespace ViewBridge.Markup

open List

variable {fin s span : Span} {name : String} {ts rest : List Token} {fault : Fault} {size : Nat}

instance : LawfulVocabulary Word where
  comma_iff w := by
    cases w <;> first | exact ⟨fun _ => rfl, fun _ => rfl⟩ | exact ⟨nofun, nofun⟩
  wholeName_sound _ _ ts := .ok (suffix_refl ts)

theorem item_sound (ts : List Token) : Sound fin ts (item fin ts) := by
  have orExpression {fault : Fault} (hb : Blames fin ts fault) : Sound fin ts
      (if (itemTokens 0 ts).any (isExpressionToken ·.kind) then
        .ok (Literal.expression (expressionText {} (itemTokens 0 ts)),
          ts.drop (itemTokens 0 ts).length)
        else .error fault) := by
    split
    · exact .ok (drop_suffix _ _)
    · exact .error hb
  have read : Sound fin ts (atom fin ts) := (atom_takes ts).sound
  unfold item
  generalize atom fin ts = x at read
  cases read with
  | error hb => exact orExpression hb
  | @ok p sub =>
    obtain ⟨value, rest⟩ := p
    dsimp only
    split
    · exact .ok sub
    · exact orExpression (unexpected_blames _ sub)

theorem propertyValue_sound (ts : List Token) : Sound fin ts (propertyValue fin ts) :=
  (bareTuple_gives (Q := fun _ => True) trivialKeep (fun ts => (item_sound ts).gives fun _ => trivial)
    ts).sound

theorem propertyLine_sound (ts : List Token) :
    Answers (Blames fin ts) (fun p => p.2 <:+ ts ∧ p.1.name = name ∧ p.1.span = span)
      (propertyLine fin name span ts) := by
  unfold propertyLine
  split
  next rest =>
    refine Answers.bind ((propertyValue_sound rest).mono (suffix_cons _ _)) ?_
    rintro ⟨value, behind⟩ _ sub
    refine Answers.bind ((endOfLine_sound behind).imp (fun _ hb => hb.mono sub)
      fun _ hr => hr.trans sub) ?_
    exact fun _ _ hr => .ok ⟨hr, rfl, rfl⟩
  next => exact .error (unexpected_blames _ (suffix_refl _))

/-- A fault that tells of what stands in a list of tokens at its place, of a name in it, or of the end
of a line. -/
inductive BlamesLine (fin : Span) (ts : List Token) : Fault → Prop
  | token {fault : Fault} : Blames fin ts fault → BlamesLine fin ts fault
  | property {expected name span} : ⟨.word (.identifier name), span⟩ ∈ ts →
      BlamesLine fin ts (.parse expected (.property name) span)
  | secondRoot {expected name span} : ⟨.word (.identifier name), span⟩ ∈ ts →
      BlamesLine fin ts (.parse expected (.secondRoot name) span)
  | endOfLine {expected span} : span = fin ∨ ⟨.newline, span⟩ ∈ ts →
      BlamesLine fin ts (.parse expected .endOfLine span)

theorem BlamesLine.mono (h : BlamesLine fin rest fault) (sub : rest <:+ ts) :
    BlamesLine fin ts fault := by
  cases h with
  | token hb => exact .token (hb.mono sub)
  | property hm => exact .property (sub.subset hm)
  | secondRoot hm => exact .secondRoot (sub.subset hm)
  | endOfLine hm => exact .endOfLine (hm.imp_right fun h => sub.subset h)

/-- The properties of a block have their names among its tokens. -/
structure BlockLeaves (ts : List Token) (p : Body × List Token) : Prop where
  rest : p.2 <:+ ts
  named : ∀ property ∈ p.1.properties, ⟨.word (.identifier property.name), property.span⟩ ∈ ts

theorem BlockLeaves.mono {p : Body × List Token} (h : BlockLeaves rest p) (sub : rest <:+ ts) :
    BlockLeaves ts p :=
  ⟨h.rest.trans sub, fun property hp => sub.subset (h.named property hp)⟩

theorem header?_suffix {t : Token} {stop : Span}
    (h : header? fin (t :: ts) = some (stop, rest)) :
    rest <:+ ts ∧ (stop = fin ∨ ⟨.newline, stop⟩ ∈ ts) := by
  unfold header? at h
  split at h
  next =>
    cases h
    exact ⟨nil_suffix, .inl rfl⟩
  next eq =>
    cases h
    cases eq
    refine ⟨(suffix_cons _ _).trans (suffix_cons _ _), .inr ?_⟩
    exact mem_cons_of_mem _ mem_cons_self
  next => cases h

theorem canvasOf_sound {inner : Body}
    (named : ∀ property ∈ inner.properties,
      ⟨.word (.identifier property.name), property.span⟩ ∈ ts) :
    Answers (BlamesLine fin ts) (fun _ => True) (canvasOf name span inner) := by
  unfold canvasOf
  split
  next p ps eq =>
    exact .error (.property (named p (eq ▸ mem_cons_self)))
  next => exact .ok trivial

/-- Blocks of less than so many tokens are read soundly. -/
structure BlocksSound (fin : Span) (size : Nat) : Prop where
  body : ∀ ts : List Token, ts.length < size → Answers (BlamesLine fin ts) (BlockLeaves ts) (body fin ts)
  lines : ∀ ts : List Token, ts.length < size →
    Answers (BlamesLine fin ts) (BlockLeaves ts) (blockLines fin ts)

theorem blockLines_step_sound (below : BlocksSound fin size) (hn : ts.length ≤ size) :
    Answers (BlamesLine fin ts) (BlockLeaves ts) (blockLines fin ts) := by
  have within {x} {rest : List Token} (h : Answers (BlamesLine fin rest) (BlockLeaves rest) x)
      (sub : rest <:+ ts) : Answers (BlamesLine fin ts) (BlockLeaves ts) x :=
    h.imp (fun _ hb => hb.mono sub) fun _ hl => hl.mono sub
  rw [blockLines.eq_def]
  split
  next => exact .ok ⟨suffix_refl _, forall_mem_nil _⟩
  next => exact .ok ⟨suffix_cons _ _, forall_mem_nil _⟩
  next rest => exact within (below.lines rest hn) (suffix_cons _ _)
  next name span rest =>
    rw [length_cons] at hn
    have tail : rest <:+ ⟨.word (.identifier name), span⟩ :: rest := suffix_cons _ _
    split
    next stop after hh =>
      obtain ⟨sub, place⟩ := header?_suffix hh
      have header := sub.length_le
      have inner := within (below.body after (by omega)) (sub.trans tail)
      split
      next =>
        refine Answers.bind inner ?_
        rintro ⟨block, behind⟩ _ ⟨hb, named⟩
        refine Answers.bind (canvasOf_sound named) fun canvas _ _ => ?_
        dsimp only at hb ⊢
        split
        next shorter =>
          refine Answers.bind (within (below.lines behind (by omega)) hb) ?_
          exact fun _ _ hl => .ok ⟨hl.rest, hl.named⟩
        next => exact .error (.token <| unexpected_blames _ hb)
      next =>
        split
        next => exact .error (.endOfLine (place.imp_right (tail.subset ·)))
        next =>
          refine Answers.bind inner ?_
          rintro ⟨block, behind⟩ _ ⟨hb, _⟩
          dsimp only at hb ⊢
          split
          next shorter =>
            refine Answers.bind (within (below.lines behind (by omega)) hb) ?_
            exact fun _ _ hl => .ok ⟨hl.rest, hl.named⟩
          next => exact .error (.token <| unexpected_blames _ hb)
    next =>
      refine Answers.bind ((propertyLine_sound rest).imp (fun _ hb => .token (hb.mono tail))
        fun _ h => h) ?_
      rintro ⟨property, behind⟩ _ ⟨sub, hname, hspan⟩
      dsimp only at sub hname hspan ⊢
      split
      next shorter =>
        refine Answers.bind (within (below.lines behind (by omega)) (sub.trans tail)) ?_
        rintro ⟨others, left⟩ _ ⟨left, named⟩
        refine .ok ⟨left, fun p hm => ?_⟩
        rcases mem_cons.mp hm with rfl | hm
        · rw [hname, hspan]
          exact mem_cons_self
        · exact named p hm
      next => exact .error (.token <| unexpected_blames _ (sub.trans tail))
  next => exact .error (.token <| unexpected_blames _ (suffix_refl _))

theorem blocksSound (size : Nat) : BlocksSound fin size := by
  induction size with
  | zero => constructor <;> simp
  | succ size ih =>
    refine ⟨fun ts hn => ?_, fun _ hn => blockLines_step_sound ih (Nat.le_of_lt_succ hn)⟩
    rw [body.eq_def]
    split
    next rest =>
      exact (ih.lines rest (Nat.lt_of_succ_lt_succ hn)).imp
        (fun _ hb => hb.mono (suffix_cons _ _)) fun _ hl => hl.mono (suffix_cons _ _)
    next => exact .ok ⟨suffix_refl _, forall_mem_nil _⟩

theorem body_sound (ts : List Token) :
    Answers (BlamesLine fin ts) (BlockLeaves ts) (body fin ts) :=
  (blocksSound (ts.length + 1)).body ts (Nat.lt_succ_self _)

theorem identifier_takes (expected : Expected) (ts : List Token) :
    Takes fin ts (identifier fin expected ts) := by
  unfold identifier
  split
  next => exact .ok (taken_cons _ _)
  next => exact refused _ (suffix_refl _)

theorem moreBases_sound (ts : List Token) : Sound fin ts (moreBases fin ts) := by
  induction hn : ts.length using Nat.strongRecOn generalizing ts with
  | ind size ih =>
    rw [moreBases.eq_def]
    split
    next op span rest =>
      rw [length_cons] at hn
      split
      next =>
        split
        next inner =>
          rw [length_cons] at hn
          refine Answers.bind ((ih inner.length (by omega) inner rfl).mono
            ((suffix_cons _ _).trans (suffix_cons _ _))) ?_
          exact fun _ _ hl => .ok hl
        next => exact refused _ (suffix_cons _ _)
      next => exact .ok (suffix_refl _)
    next => exact .ok (suffix_refl _)

theorem selector_takes (ts : List Token) : Takes fin ts (selector fin ts) := by
  refine Answers.bind (identifier_takes _ ts) ?_
  rintro ⟨name, rest⟩ _ taken
  dsimp only at taken ⊢
  split
  next =>
    refine Answers.bind (((identifier_takes _ _).sound.mono (drop_suffix 1 rest)).behind taken) ?_
    rintro ⟨base, behind⟩ _ sub
    refine Answers.bind ((moreBases_sound behind).behind sub) ?_
    exact fun _ _ hl => .ok hl
  next => exact .ok taken

theorem selectors_sound (ts : List Token) : Sound fin ts (selectors fin ts) := by
  induction hn : ts.length using Nat.strongRecOn generalizing ts with
  | ind size ih =>
    rw [selectors.eq_def]
    refine Answers.bind (selector_takes ts).sound ?_
    rintro ⟨first, rest⟩ _ sub
    dsimp only at sub ⊢
    split
    next inner _ =>
      have sub := (suffix_cons _ inner).trans sub
      split
      next shorter =>
        refine Answers.bind ((ih inner.length (by omega) inner rfl).mono sub) ?_
        exact fun _ _ hl => .ok hl
      next => exact refused _ sub
    next => exact .ok sub

theorem rule_sound (ts : List Token) :
    Answers (BlamesLine fin ts) (·.2 <:+ ts) (rule fin span ts) := by
  refine Answers.bind ((selectors_sound ts).imp (fun _ hb => .token hb) fun _ hr => hr) ?_
  rintro ⟨names, rest⟩ - sub
  dsimp only at sub ⊢
  split
  next rest =>
    replace sub := (suffix_cons _ rest).trans sub
    split
    next inner =>
      have sub := (suffix_cons _ inner).trans sub
      refine Answers.bind ((endOfLine_sound inner).imp (fun _ hb => .token (hb.mono sub))
        fun _ hr => hr.trans sub) ?_
      intro behind _ hb
      refine Answers.bind ((body_sound behind).imp (fun _ h => h.mono hb) fun _ hl => hl.mono hb) ?_
      exact fun _ _ hl => .ok hl.rest
    next => exact .error (.token <| unexpected_blames _ sub)
  next => exact .error (.token <| unexpected_blames _ sub)

theorem moduleFrom_sound (root : Option Widget) (ts : List Token) :
    Answers (BlamesLine fin ts) (fun _ => True) (moduleFrom fin root ts) := by
  induction hn : ts.length using Nat.strongRecOn generalizing ts root with
  | ind size ih =>
    have parts {rest : List Token} (root : Option Widget) (sub : rest <:+ ts)
        (shorter : rest.length < ts.length) :
        Answers (BlamesLine fin ts) (fun _ => True) (moduleFrom fin root rest) :=
      (ih rest.length (by omega) root rest rfl).imp (fun _ hb => hb.mono sub) fun _ h => h
    rw [moduleFrom.eq_def]
    split
    next => exact .ok trivial
    next => exact parts root (suffix_cons _ _) (Nat.lt_succ_self _)
    next span rest =>
      have tail := suffix_cons (⟨.word .openAngle, span⟩ : Token) rest
      refine Answers.bind ((rule_sound rest).imp (fun _ hb => hb.mono tail) fun _ hr => hr.trans tail) ?_
      rintro ⟨first, behind⟩ _ sub
      dsimp only at sub ⊢
      split
      next shorter =>
        refine Answers.bind (parts root sub (Nat.lt_succ_of_le shorter)) ?_
        exact fun _ _ _ => .ok trivial
      next => exact .error (.token <| unexpected_blames _ sub)
    next name span rest =>
      split
      next => exact .error (.property mem_cons_self)
      next => exact .error (.secondRoot mem_cons_self)
      next after hh =>
        have sub : after <:+ ⟨.word (.identifier name), span⟩ :: rest :=
          (header?_suffix hh).1.trans (suffix_cons _ rest)
        refine Answers.bind ((body_sound after).imp (fun _ hb => hb.mono sub) fun _ h => h) ?_
        rintro ⟨inner, behind⟩ _ left
        have sub := left.rest.trans sub
        dsimp only at sub ⊢
        split
        next shorter => exact parts _ sub (Nat.lt_succ_of_le shorter)
        next => exact .error (.token <| unexpected_blames _ sub)
    next => exact .error (.token <| unexpected_blames _ (suffix_refl _))

theorem ofTokens_blames (h : Module.ofTokens ts = .error fault) :
    BlamesLine (untilEnd .origin ts).2 (untilEnd .origin ts).1 fault :=
  (moduleFrom_sound none _).of_error h

theorem length_le_of_item {v : Literal} (h : item fin ts = .ok (v, rest)) :
    rest.length ≤ ts.length :=
  ((item_sound ts).of_ok h).length_le

theorem length_le_of_propertyLine {p : Property}
    (h : propertyLine fin name span ts = .ok (p, rest)) : rest.length ≤ ts.length :=
  ((propertyLine_sound ts).of_ok h).1.length_le

theorem length_le_of_body {b : Body} (h : body fin ts = .ok (b, rest)) :
    rest.length ≤ ts.length :=
  ((body_sound ts).of_ok h).rest.length_le

theorem length_lt_of_identifier {expected : Expected}
    (h : identifier fin expected ts = .ok (name, rest)) : rest.length < ts.length :=
  ((identifier_takes expected ts).of_ok h).2

theorem length_lt_of_selector {names : Selector} (h : selector fin ts = .ok (names, rest)) :
    rest.length < ts.length :=
  ((selector_takes ts).of_ok h).2

theorem length_le_of_rule {r : Rule} (h : rule fin span ts = .ok (r, rest)) :
    rest.length ≤ ts.length :=
  ((rule_sound ts).of_ok h).length_le

end ViewBridge.Markup
