import ViewBridge.Proofs.Classes.Layout

namespace ViewBridge.Classes

open List

variable {fin start s : Span} {ts rest v w pre after left us : List Token}
  {ds : List Decorator} {m : Method} {f : Field} {members : Members} {name : String} {t : Token}
  {fs : List Field} {ms : List Method}

section Params

theorem exists_paramEntry {p : Param} (h : paramEntry fin ts = .ok (some p, rest)) :
    ∃ w, ts = ⟨.word (.identifier p.name), p.span⟩ :: w ++ rest := by
  rw [paramEntry.eq_def] at h
  split at h
  case h_1 | h_2 =>
    split at h
    · obtain ⟨_, _, eq⟩ := exists_of_bind h
      cases eq
    · cases h
  case h_3 => split at h <;> cases h
  case h_4 name s us =>
    obtain ⟨⟨type, behind⟩, ht, h⟩ := exists_of_bind h
    have sub : behind <:+ us := (typeBehind_sound isColon us).of_ok ht
    dsimp only at h
    split at h
    next =>
      cases h
      obtain ⟨w, rfl⟩ := (skipArgument_suffix 0 _).trans ((suffix_cons _ _).trans sub)
      exact ⟨w, rfl⟩
    next =>
      cases h
      obtain ⟨w, rfl⟩ := sub
      exact ⟨w, rfl⟩
  case h_5 => cases h

/-- The tokens of a parameter list have the names of the parameters among them. -/
theorem exists_of_params {ps : List Param} (h : params fin ts = .ok (ps, rest)) :
    ∃ w, ts = w ++ rest ∧ ∀ p ∈ ps, ⟨.word (.identifier p.name), p.span⟩ ∈ w := by
  have entry {us left : List Token} {first : Option Param}
      (h : paramEntry fin us = .ok (first, left)) :
      ∃ w, us = w ++ left ∧ ∀ p ∈ first.toList, ⟨.word (.identifier p.name), p.span⟩ ∈ w := by
    cases first with
    | none =>
      obtain ⟨w, rfl⟩ := (paramEntry_sound us).of_ok h
      exact ⟨w, rfl, forall_mem_nil _⟩
    | some p =>
      obtain ⟨w, rfl⟩ := exists_paramEntry h
      exact ⟨_, rfl, by simp⟩
  induction hn : ts.length using Nat.strongRecOn generalizing ts ps with
  | ind size ih =>
    by_cases closed : ∃ s us, ts = ⟨.closing .round, s⟩ :: us
    · obtain ⟨s, us, rfl⟩ := closed
      rw [(entries_params fin).close] at h
      cases h
      exact ⟨[⟨.closing .round, s⟩], rfl, forall_mem_nil _⟩
    · rw [(entries_params fin).more fun s us eq => closed ⟨s, us, eq⟩] at h
      obtain ⟨⟨first, behind⟩, he, h⟩ := exists_of_bind h
      obtain ⟨⟨goesOn, next⟩, hend, h⟩ := exists_of_bind h
      obtain ⟨w, rfl, hw⟩ := entry he
      obtain ⟨w', rfl⟩ := (entryEnd_sound behind).of_ok hend
      dsimp only at h
      split at h
      · split at h
        · next shorter =>
          obtain ⟨⟨others, _⟩, ho, eq⟩ := exists_of_map h
          cases eq
          obtain ⟨w'', rfl, more⟩ := ih next.length (hn ▸ shorter) ho rfl
          refine ⟨w ++ (w' ++ w''), by simp, fun p hp => ?_⟩
          rcases mem_append.mp hp with hp | hp
          · exact mem_append_left _ (hw p hp)
          · exact mem_append_right _ (mem_append_right _ (more p hp))
        · cases h
      · cases h
        exact ⟨w ++ w', by simp, fun p hp => mem_append_left _ (hw p hp)⟩

end Params

section Laid

/-- Tokens of a text in front of its end. -/
structure Lexed (ts : List Token) : Prop where
  order : InOrder ts
  skeleton : Skeleton (ts.map (·.kind) ++ [.eof])

/-- A field at its name, with an extent up to the last token of its line. Without a type it is
nothing but a name, or given a value. -/
def FieldAt (v : List Token) (f : Field) : Prop :=
  ∃ l s, v = ⟨.word (.identifier f.name), f.span⟩ :: l ++ [⟨.newline, s⟩] ∧
    (∀ t ∈ l, t.kind.isText = true) ∧ isReservedName f.name = false ∧
    (f.hint = none → l = [] ∨ ∃ s' l', l = ⟨.word .equals, s'⟩ :: l') ∧ Spanned v f.extent

theorem FieldAt.spanned (h : FieldAt v f) : Spanned v f.extent := by
  obtain ⟨_, _, _, _, _, _, spanned⟩ := h
  exact spanned

theorem exists_fieldAt (lexed : Lexed (pre ++ ⟨.word (.identifier name), s⟩ :: ts))
    (h : field fin name s (⟨.word (.identifier name), s⟩ :: ts) = .ok (some f, rest)) :
    ∃ v, ⟨.word (.identifier name), s⟩ :: ts = v ++ rest ∧ FieldAt v f := by
  obtain ⟨rfl, rfl, reserved, left, type, ended, _⟩ := exists_of_field h
  obtain ⟨l, s, next, rfl, -, matched, text⟩ := exists_line lexed.skeleton rfl
  have order := lexed.order.sublist (sublist_append_right pre _)
  obtain ⟨rfl, spanned⟩ :=
    spanned_of_field (t := ⟨.word (.identifier f.name), f.span⟩) order rfl text matched h
  refine ⟨_, by simp, l, s, rfl, text, reserved, fun none => ?_, spanned⟩
  rw [none] at type
  exact equals_of_field text type ended

/-- The words that a method definition starts with. -/
inductive DefKeyword : List Token → Prop
  | plain {s : _} : DefKeyword [⟨.word .defKeyword, s⟩]
  | async {s s' : _} : DefKeyword [⟨.word (.identifier "async"), s⟩, ⟨.word .defKeyword, s'⟩]

/-- A group in brackets, closed by the bracket that belongs to the first one. -/
inductive Group (inner : List Token) : List Token → Prop
  | round {s s' : _} : Enclosed (inner.map (·.kind)) →
      Group inner (⟨.opening .round, s⟩ :: (inner ++ [⟨.closing .round, s'⟩]))

/-- A method behind its keyword: its name, its parameters in brackets, a type, and what follows the
first colon behind the brackets. -/
def SignatureAt (w after : List Token) (m : Method) : Prop :=
  ∃ inner group type s body, w = ⟨.word (.identifier m.name), m.span⟩ ::
      (group ++ (type ++ ⟨.word .colon, s⟩ :: body)) ∧ Group inner group ∧
    (∀ p ∈ m.params, ⟨.word (.identifier p.name), p.span⟩ ∈ inner) ∧
    (∀ t ∈ type, t.kind.isText = true ∧ t.kind ≠ .word .colon) ∧ Body after body

/-- The decorators that wait for a method, with the tokens from the first of them on. -/
structure Pending where
  tokens : List Token := []
  decorators : List Decorator := []

/-- A line that leaves decorators waiting. -/
def Pending.kept (p : Pending) (v : List Token) : Pending :=
  if p.decorators.isEmpty then {} else { p with tokens := p.tokens ++ v }

def isQuiet : Word → Bool
  | .passKeyword | .ellipsis | .string _ => true
  | _ => false

/-- A line of a class body, with the block that belongs to it: what waits before and behind it, and
the members that it gives. -/
inductive LineAt (after : List Token) :
    Pending → List Token → Pending → List Field → List Method → Prop
  | blank {p s : _} : LineAt after p [⟨.newline, s⟩] (p.kept [⟨.newline, s⟩]) [] []
  | quiet {p w s s' : _} : isQuiet w = true → LineAt after p [⟨.word w, s⟩, ⟨.newline, s'⟩]
      (p.kept [⟨.word w, s⟩, ⟨.newline, s'⟩]) [] []
  | decorator {p d l s : _} : (∀ t ∈ l, t.kind.isText = true) →
      LineAt after p (⟨.word .at, d.span⟩ :: (l ++ [⟨.newline, s⟩]))
        ⟨p.tokens ++ ⟨.word .at, d.span⟩ :: (l ++ [⟨.newline, s⟩]), p.decorators ++ [d]⟩ [] []
  | nested {p s l body : _} : (∀ t ∈ l, t.kind.isText = true) → Block after body →
      LineAt after p (⟨.word .classKeyword, s⟩ :: (l ++ body)) {} [] []
  | reserved {p name s l s' : _} : isReservedName name = true → (∀ t ∈ l, t.kind.isText = true) →
      LineAt after p (⟨.word (.identifier name), s⟩ :: (l ++ [⟨.newline, s'⟩])) {} [] []
  | field {p v f : _} : FieldAt v f → LineAt after p v {} [f] []
  | method {p keyword w m : _} : DefKeyword keyword → SignatureAt w after m →
      m.decorators = p.decorators → Spanned (p.tokens ++ (keyword ++ w)) m.extent →
      LineAt after p (keyword ++ w) {} [] [m]

/-- Lines of a class body one behind the other. -/
inductive Laid (after : List Token) : Pending → List Token → List Field → List Method → Prop
  | nil {p : _} : Laid after p [] [] []
  | line {p p' v ts fs fs' ms ms' : _} : LineAt (ts ++ after) p v p' fs ms → Laid after p' ts fs' ms' →
      Laid after p (v ++ ts) (fs ++ fs') (ms ++ ms')

/-- What stands behind the colon of a class: a block of lines, nothing, or a line. -/
inductive MembersAt (after : List Token) : List Token → List Field → List Method → Prop
  | block {s s₁ lines s₂ fs ms : _} : Laid (⟨.dedent, s₂⟩ :: after) {} lines fs ms →
      MembersAt after (⟨.newline, s⟩ :: ⟨.indent, s₁⟩ :: (lines ++ [⟨.dedent, s₂⟩])) fs ms
  | none {s : _} : startsBlock after = false → MembersAt after [⟨.newline, s⟩] [] []
  | line {v p fs ms : _} : LineAt after {} v p fs ms → MembersAt after v fs ms

theorem exists_enclosed (h : Skeleton ((pre ++ ⟨.opening .round, s⟩ :: ts).map (·.kind) ++ [.eof]))
    (closed : rest = behindGroup 0 ts) :
    ∃ inner s', ts = inner ++ ⟨.closing .round, s'⟩ :: rest ∧ Enclosed (inner.map (·.kind)) := by
  have matched : Matched ((pre ++ ⟨.opening .round, s⟩ :: ts).map (·.kind) ++ [.eof]) := h.brackets.matched
  rw [map_append, append_assoc] at matched
  obtain ⟨ks, ls, eq, enclosed⟩ := matched.of_append [] .round _ rfl
  have kinds : (ts ++ [(⟨.eof, s⟩ : Token)]).map (·.kind) = ks ++ .closing .round :: ls := by
    rw [map_append]
    exact eq
  obtain ⟨inner, s', left, split, rfl, -⟩ := exists_kinds_append kinds
  rcases eq_nil_or_concat left with rfl | ⟨left, last, rfl⟩
  · cases (append_inj' split rfl).2
  · rw [concat_eq_append, ← cons_append, ← append_assoc] at split
    obtain ⟨rfl, -⟩ := append_inj' split rfl
    rw [enclosed.behindGroup rfl] at closed
    exact ⟨inner, s', by rw [closed]; rfl, enclosed⟩

theorem exists_signatureAt (h : Skeleton ((pre ++ ts).map (·.kind) ++ [.eof]))
    (hm : method fin ds start ts = .ok (m, rest)) :
    ∃ w, ts = w ++ rest ∧ m.decorators = ds ∧ SignatureAt w rest m := by
  unfold method at hm
  split at hm
  case h_1 name s s' us =>
    obtain ⟨⟨ps, behind⟩, hp, hm⟩ := exists_of_bind hm
    obtain ⟨⟨returns, left⟩, hr, hm⟩ := exists_of_bind hm
    dsimp only at hm
    split at hm
    next s₂ us' =>
      rw [append_cons pre] at h
      obtain ⟨inner, s₁, rfl, enclosed⟩ :=
        exists_enclosed h ((entries_params fin).eq_behindGroup behindGroup_paramEntry hp)
      obtain ⟨w, same, names⟩ := exists_of_params hp
      obtain ⟨type, rfl, text⟩ : ∃ type, behind = type ++ ⟨.word .colon, s₂⟩ :: us' ∧
          ∀ t ∈ type, t.kind.isText = true ∧ t.kind ≠ .word .colon := by
        rcases typeBehind_passes hr with eq | ⟨w, s, us, rfl, arrow, v, rfl, closed, plain⟩
        · exact ⟨[], eq.symm, forall_mem_nil _⟩
        · refine ⟨⟨.word w, s⟩ :: v, rfl, forall_mem_cons.mpr ⟨⟨rfl, ?_⟩, fun t ht => ?_⟩⟩
          · rintro ⟨⟩
            cases arrow
          · exact ⟨closed.isText _ (mem_map_of_mem ht), plain t ht⟩
      have split : pre ++ [⟨.word (.identifier name), s⟩] ++ ⟨.opening .round, s'⟩ ::
          (inner ++ ⟨.closing .round, s₁⟩ :: (type ++ ⟨.word .colon, s₂⟩ :: us')) =
          (pre ++ [⟨.word (.identifier name), s⟩] ++ ⟨.opening .round, s'⟩ ::
            (inner ++ ⟨.closing .round, s₁⟩ :: type)) ++ ⟨.word .colon, s₂⟩ :: us' := by simp
      rw [split] at h
      obtain ⟨body, left, rfl, hb, end_eq⟩ := exists_body h rfl
      rw [end_eq] at hm
      cases hm
      have member (p : Param) (hp : p ∈ ps) : ⟨.word (.identifier p.name), p.span⟩ ∈ inner := by
        rw [append_cons] at same
        obtain rfl := append_cancel_right same
        simpa using names p hp
      refine ⟨_, ?_, rfl, inner, ⟨.opening .round, s'⟩ :: (inner ++ [⟨.closing .round, s₁⟩]), type, s₂,
        body, rfl, .round enclosed, fun p hp => ?_, text, hb⟩
      · simp
      · dsimp only at hp
        split at hp
        · exact member p hp
        · exact member p (mem_of_mem_drop hp)
    next => cases hm
  case h_2 => cases hm
  case h_3 => cases hm

theorem exists_decoratorLine {d : Decorator} (h : Skeleton ((pre ++ ⟨.word .at, s⟩ :: ts).map (·.kind) ++ [.eof]))
    (hd : decorator fin s ts = .ok (d, rest)) :
    ∃ l s', ts = l ++ ⟨.newline, s'⟩ :: rest ∧ (∀ t ∈ l, t.kind.isText = true) ∧ d.span = s := by
  obtain ⟨⟨name, behind⟩, hn, hb⟩ := exists_of_bind hd
  obtain ⟨v, rfl, closed, -⟩ := dottedName_passes hn
  have text : ∀ t ∈ v, t.kind.isText = true := fun t ht => closed.isText _ (mem_map_of_mem ht)
  dsimp only at hb
  split at hb
  next _ s₁ us =>
    obtain ⟨_, he, eq⟩ := exists_of_bind hb
    cases eq
    have split : pre ++ ⟨.word .at, s⟩ :: (v ++ ⟨.opening .round, s₁⟩ :: us) =
        (pre ++ ⟨.word .at, s⟩ :: v) ++ ⟨.opening .round, s₁⟩ :: us := by simp
    obtain ⟨inner, s₂, eq, enclosed⟩ := exists_enclosed (split ▸ h) rfl
    generalize behindGroup 0 us = left at he eq
    subst eq
    have all : ∀ t ∈ v ++ ⟨.opening .round, s₁⟩ :: (inner ++ [⟨.closing .round, s₂⟩]), t.kind.isText = true := by
      simp only [forall_mem_append, forall_mem_cons]
      exact ⟨text, rfl, fun t ht => enclosed.isText _ (mem_map_of_mem ht), rfl, nofun⟩
    have line : v ++ ⟨.opening .round, s₁⟩ :: (inner ++ ⟨.closing .round, s₂⟩ :: left) =
        (v ++ ⟨.opening .round, s₁⟩ :: (inner ++ [⟨.closing .round, s₂⟩])) ++ left := by simp
    rw [line] at h ⊢
    obtain ⟨s', rfl⟩ := exists_newline_of_endOfLine h rfl all he
    exact ⟨_, s', rfl, all, rfl⟩
  next =>
    obtain ⟨_, he, eq⟩ := exists_of_bind hb
    cases eq
    obtain ⟨s', rfl⟩ := exists_newline_of_endOfLine h rfl text he
    exact ⟨v, s', rfl, text, rfl⟩

theorem exists_reservedLine (h : Skeleton ((pre ++ t :: ts).map (·.kind) ++ [.eof])) (ht : t.kind.isText = true)
    (hf : field fin name s (t :: ts) = .ok (none, rest)) :
    isReservedName name = true ∧ ∃ l s', ts = l ++ ⟨.newline, s'⟩ :: rest ∧ ∀ t ∈ l, t.kind.isText = true := by
  obtain ⟨l, s', next, rfl, -, matched, text⟩ := exists_line h ht
  rw [field_eq] at hf
  obtain ⟨⟨hint, left⟩, type, hf⟩ := exists_of_bind hf
  unfold fieldEnd at hf
  split at hf
  · cases hf
  · obtain ⟨more, ended, eq⟩ := exists_of_map hf
    obtain ⟨none, rfl⟩ := Prod.mk.inj eq
    obtain ⟨_, -, rfl⟩ := exists_left text matched type ended
    split at none
    next reserved => exact ⟨reserved, l, s', rfl, text⟩
    next => cases none

/-- What waits starts with the first decorator. -/
def Pending.Leads (p : Pending) : Prop :=
  p.tokens.head? = p.decorators.head?.map fun d => ⟨.word .at, d.span⟩

theorem Pending.kept_cases (p : Pending) (v : List Token) :
    p.kept v = {} ∨ p.kept v = { p with tokens := p.tokens ++ v } := by
  unfold Pending.kept
  split
  · exact .inl rfl
  · exact .inr rfl

theorem Pending.kept_suffix (p : Pending) (v : List Token) :
    (p.kept v).tokens <:+ p.tokens ++ v := by
  unfold Pending.kept
  split
  · exact nil_suffix
  · exact suffix_refl _

theorem Pending.Leads.kept {p : Pending} (h : p.Leads) (v : List Token) :
    (p.kept v).Leads ∧ (p.kept v).decorators = p.decorators := by
  unfold Pending.kept
  cases hd : p.decorators with
  | nil => exact ⟨rfl, rfl⟩
  | cons d ds =>
    refine ⟨?_, rfl⟩
    rw [Pending.Leads, hd] at h
    show (p.tokens ++ v).head? = _
    rw [head?_append, h]
    rfl

theorem leads_nothing : Pending.Leads {} := rfl

/-- The tokens that are read as a line of a class body, and what waits behind it. -/
theorem exists_lineAt {p : Pending} {line : MemberLine} (lexed : Lexed (pre ++ (p.tokens ++ ts)))
    (leads : p.Leads) (h : member fin p.decorators ts = .ok (line, rest)) :
    ∃ v p', ts = v ++ rest ∧ LineAt rest p v p' line.members.fields line.members.methods ∧
      p'.Leads ∧ p'.decorators = line.pending ∧ p'.tokens <:+ p.tokens ++ v := by
  have skeleton := lexed.skeleton
  rw [← append_assoc] at skeleton
  have added {keyword us : List Token} {start : Span} {m : Method} {left : List Token}
      (hk : DefKeyword keyword) (split : ts = keyword ++ us)
      (hs : keyword.head?.map (·.span) = some start) (hm : method fin p.decorators start us = .ok (m, left))
      (done : (⟨⟨[], [m]⟩, []⟩, left) = (line, rest)) :
      ∃ v p', ts = v ++ rest ∧ LineAt rest p v p' line.members.fields line.members.methods ∧
        p'.Leads ∧ p'.decorators = line.pending ∧ p'.tokens <:+ p.tokens ++ v := by
    cases done
    subst split
    rw [← append_assoc] at skeleton
    obtain ⟨w, rfl, same, signature⟩ := exists_signatureAt skeleton hm
    refine ⟨keyword ++ w, {}, by simp, .method hk signature same ?_, leads_nothing, rfl, nil_suffix⟩
    rw [(extent_of_method hm).1, ← append_assoc]
    obtain ⟨inner, group, type, s, body, rfl, _⟩ := signature
    refine spanned_extentFrom (lexed.order.sublist ?_) ?_ ⟨_, mem_cons_self, rfl⟩ rfl
    · rw [← append_assoc keyword, ← append_assoc p.tokens, ← append_assoc p.tokens]
      exact (sublist_append_left _ rest).trans (sublist_append_right pre _)
    · rw [Pending.Leads] at leads
      rw [append_assoc, head?_append, head?_append, leads]
      cases p.decorators with
      | nil =>
        cases hk with
        | plain => exact hs
        | async => exact hs
      | cons d _ => rfl
  rw [member.eq_def] at h
  split at h
  case h_1 s us =>
    obtain ⟨⟨d, _⟩, hd, eq⟩ := exists_of_bind h
    cases eq
    obtain ⟨l, s', rfl, text, rfl⟩ := exists_decoratorLine skeleton hd
    refine ⟨⟨.word .at, d.span⟩ :: (l ++ [⟨.newline, s'⟩]), _, by simp, .decorator text, ?_, rfl,
      suffix_refl _⟩
    rw [Pending.Leads] at leads ⊢
    rw [head?_append, head?_append, leads]
    cases p.decorators <;> rfl
  case h_2 s us =>
    obtain ⟨⟨m, _⟩, hm, eq⟩ := exists_of_bind h
    exact added (.plain (s := s)) rfl rfl hm (Except.ok.inj eq)
  case h_3 s us =>
    cases h
    obtain ⟨l, body, left, rfl, text, block, skipped⟩ := exists_block skeleton rfl
    rw [skipped]
    exact ⟨⟨.word .classKeyword, s⟩ :: (l ++ body), {}, by simp, .nested text block, leads_nothing, rfl, nil_suffix⟩
  case h_4 s us | h_5 s us | h_6 _ s us =>
    obtain ⟨_, he, eq⟩ := exists_of_bind h
    cases eq
    obtain ⟨s', rfl⟩ := exists_newline_of_endOfLine (v := []) skeleton rfl (forall_mem_nil _) he
    obtain ⟨leads', same⟩ := leads.kept [_, ⟨.newline, s'⟩]
    exact ⟨_, _, rfl, .quiet rfl, leads', same, p.kept_suffix _⟩
  case h_7 name s us =>
    split at h
    next s' us =>
      split at h
      next eq =>
        subst eq
        obtain ⟨⟨m, _⟩, hm, eq⟩ := exists_of_bind h
        exact added (@DefKeyword.async s s') rfl rfl hm (Except.ok.inj eq)
      next => cases h
    next =>
      obtain ⟨⟨f, _⟩, hf, eq⟩ := exists_of_bind h
      cases eq
      cases f with
      | none =>
        obtain ⟨reserved, l, s', rfl, text⟩ := exists_reservedLine skeleton rfl hf
        exact ⟨⟨.word (.identifier name), s⟩ :: (l ++ [⟨.newline, s'⟩]), {}, by simp,
          .reserved reserved text, leads_nothing, rfl, nil_suffix⟩
      | some f =>
        rw [← append_assoc] at lexed
        obtain ⟨v, eq, at_⟩ := exists_fieldAt lexed hf
        exact ⟨v, {}, eq, .field at_, leads_nothing, rfl, nil_suffix⟩
  case h_8 => cases h

theorem Lexed.behind {p p' : Pending} (h : Lexed (pre ++ (p.tokens ++ (v ++ rest))))
    (sub : p'.tokens <:+ p.tokens ++ v) : ∃ pre', Lexed (pre' ++ (p'.tokens ++ rest)) := by
  obtain ⟨u, eq⟩ := sub
  rw [← append_assoc p.tokens, ← eq, append_assoc, ← append_assoc] at h
  exact ⟨_, h⟩

/-- The body of a class is lines up to the end of its block. -/
theorem exists_laid {p : Pending} (lexed : Lexed (pre ++ (p.tokens ++ ts))) (leads : p.Leads)
    (h : classBody fin p.decorators ts = .ok (members, left)) :
    ∃ lines rest, ts = lines ++ rest ∧ Laid rest p lines members.fields members.methods ∧
      (rest = [] ∨ ∃ s, rest = ⟨.dedent, s⟩ :: left) := by
  induction hn : ts.length using Nat.strongRecOn generalizing ts p pre members with
  | ind size ih =>
    rw [classBody.eq_def] at h
    split at h
    case h_1 =>
      cases h
      exact ⟨[], [], rfl, .nil, .inl rfl⟩
    case h_2 s us =>
      cases h
      exact ⟨[], _, rfl, .nil, .inr ⟨s, rfl⟩⟩
    case h_3 s us =>
      obtain ⟨leads', same⟩ := leads.kept [⟨.newline, s⟩]
      obtain ⟨pre', lexed'⟩ := lexed.behind (p.kept_suffix [⟨.newline, s⟩])
      rw [← same] at h
      obtain ⟨lines, rest, rfl, laid, ends⟩ := ih us.length (by simp [← hn]) lexed' leads' h rfl
      exact ⟨⟨.newline, s⟩ :: lines, rest, rfl, .line .blank laid, ends⟩
    case h_4 =>
      obtain ⟨⟨line, behind⟩, hm, h⟩ := exists_of_bind h
      obtain ⟨v, p', rfl, lineAt, leads', same, sub⟩ := exists_lineAt lexed leads hm
      dsimp only at h
      split at h
      next shorter =>
        obtain ⟨⟨others, _⟩, ho, eq⟩ := exists_of_bind h
        cases eq
        obtain ⟨pre', lexed'⟩ := lexed.behind sub
        rw [← same] at ho
        obtain ⟨lines, rest, rfl, laid, ends⟩ := ih behind.length (hn ▸ shorter) lexed' leads' ho rfl
        exact ⟨v ++ lines, rest, by simp, .line lineAt laid, ends⟩
      next => cases h

/-- Tokens that close as many blocks as they open. -/
def Even (ts : List Token) : Prop :=
  (ts.map (·.kind)).countP TokenKind.isDedent = (ts.map (·.kind)).countP TokenKind.isIndent

theorem Even.append (h : Even ts) (hu : Even us) : Even (ts ++ us) := by
  unfold Even at *
  rw [map_append, countP_append, countP_append, h, hu]

theorem even_text (text : ∀ t ∈ ts, t.kind.isText = true) : Even ts := by
  have none {p : Kind → Bool} (layout : ∀ k, k.isText = true → p k = false) :
      (ts.map (·.kind)).countP p = 0 := by
    rw [countP_eq_zero, forall_mem_map]
    intro t ht
    rw [layout _ (text t ht)]
    exact Bool.false_ne_true
  have layout (k : Kind) (hk : k.isText = true) : k.isDedent = false ∧ k.isIndent = false := by
    cases k with
    | indent | dedent => cases hk
    | _ => exact ⟨rfl, rfl⟩
  unfold Even
  rw [none fun k hk => (layout k hk).1, none fun k hk => (layout k hk).2]

theorem even_line (text : ∀ t ∈ v, t.kind.isText = true) : Even (v ++ [⟨.newline, s⟩]) :=
  (even_text text).append rfl

theorem Block.even (h : Block after v) : Even v := by
  cases h with
  | @lines s s₁ s₂ inner balanced =>
    have closed : Even inner := balanced.closed
    unfold Even at *
    simp [countP_cons, countP_append, TokenKind.isIndent, TokenKind.isDedent, closed]
  | none => rfl

theorem SignatureAt.even (h : SignatureAt w after m) : Even w := by
  obtain ⟨inner, _, type, s, body, rfl, @⟨s₁, s₂, enclosed⟩, -, text, behind⟩ := h
  have front : Even (⟨.word (.identifier m.name), m.span⟩ :: ⟨.opening .round, s₁⟩ ::
      (inner ++ ⟨.closing .round, s₂⟩ :: (type ++ [⟨.word .colon, s⟩]))) := by
    apply even_text
    simp only [forall_mem_cons, forall_mem_append]
    exact ⟨rfl, rfl, fun t ht => enclosed.isText _ (mem_map_of_mem ht), rfl,
      fun t ht => (text t ht).1, rfl, nofun⟩
  have behind : Even body := by
    cases behind with
    | line _ text => exact even_line text
    | block block => exact block.even
  simpa using front.append behind

theorem LineAt.even {p p' : Pending} (h : LineAt after p v p' fs ms) : Even v := by
  cases h with
  | blank => rfl
  | quiet => rfl
  | decorator text => exact even_line (v := _ :: _) (forall_mem_cons.mpr ⟨rfl, text⟩)
  | nested text block => exact (even_text (forall_mem_cons.mpr ⟨rfl, text⟩)).append block.even
  | reserved _ text => exact even_line (v := _ :: _) (forall_mem_cons.mpr ⟨rfl, text⟩)
  | field here =>
    obtain ⟨l, s, rfl, text, _⟩ := here
    exact even_line (forall_mem_cons.mpr ⟨rfl, text⟩)
  | method keyword signature =>
    refine Even.append ?_ signature.even
    cases keyword <;> rfl

theorem Laid.even {p : Pending} (h : Laid after p ts fs ms) : Even ts := by
  induction h with
  | nil => rfl
  | line here _ ih => exact here.even.append ih

theorem exists_membersAt (lexed : Lexed (pre ++ ⟨.word .colon, s⟩ :: ts))
    (h : classMembers fin ts = .ok (members, left)) :
    ∃ body, ts = body ++ left ∧ MembersAt left body members.fields members.methods := by
  unfold classMembers at h
  split at h
  case h_1 =>
    obtain ⟨l, _, _, eq, -⟩ := exists_line lexed.skeleton rfl
    cases l <;> cases eq
  case h_2 s₁ s₂ us =>
    have split : pre ++ ⟨.word .colon, s⟩ :: ⟨.newline, s₁⟩ :: ⟨.indent, s₂⟩ :: us =
        (pre ++ [⟨.word .colon, s⟩, ⟨.newline, s₁⟩]) ++ ⟨.indent, s₂⟩ :: us := by simp
    have inner : Lexed (pre ++ [⟨.word .colon, s⟩, ⟨.newline, s₁⟩, ⟨.indent, s₂⟩] ++ ([] ++ us)) := by
      simpa using lexed
    obtain ⟨lines, rest, rfl, laid, ends⟩ := exists_laid inner leads_nothing h
    rcases ends with rfl | ⟨s₃, rfl⟩
    · have skeleton := lexed.skeleton
      rw [split, append_nil, map_append, append_assoc] at skeleton
      have open_ : (lines.map (·.kind)).countP TokenKind.isIndent < (lines.map (·.kind)).countP TokenKind.isDedent :=
        skeleton.blocks.lt_of_indent
      exact absurd laid.even (Nat.ne_of_gt open_)
    · exact ⟨⟨.newline, s₁⟩ :: ⟨.indent, s₂⟩ :: (lines ++ [⟨.dedent, s₃⟩]), by simp, .block laid⟩
  case h_3 s₁ us other =>
    cases h
    refine ⟨[⟨.newline, s₁⟩], rfl, .none ?_⟩
    unfold startsBlock
    split
    next => exact absurd rfl (other _ _)
    next => rfl
  case h_4 =>
    obtain ⟨⟨line, rest⟩, hm, eq⟩ := exists_of_map h
    cases eq
    rw [append_cons] at lexed
    obtain ⟨v, p, rfl, lineAt, _⟩ := exists_lineAt (p := {}) lexed leads_nothing hm
    exact ⟨v, rfl, .line lineAt⟩

/-- The header of a class behind its keyword: its name, and its base classes in brackets. -/
inductive HeaderAt (name : String) : List Token → Prop
  | plain {s : _} : HeaderAt name [⟨.word (.identifier name), s⟩]
  | bases {s inner group : _} : Group inner group → HeaderAt name (⟨.word (.identifier name), s⟩ :: group)

theorem exists_headerAt {head : String × List String} (h : Skeleton ((pre ++ ts).map (·.kind) ++ [.eof]))
    (hh : classHead fin ts = .ok (head, rest)) :
    ∃ header s, ts = header ++ ⟨.word .colon, s⟩ :: rest ∧ HeaderAt head.1 header := by
  unfold classHead at hh
  split at hh
  next name s us =>
    obtain ⟨⟨bases, behind⟩, hb, hh⟩ := exists_of_bind hh
    unfold headerEnd at hh
    split at hh
    next s' left colon =>
      cases hh
      dsimp only at colon
      subst colon
      unfold classBases at hb
      split at hb
      next s₁ us =>
        rw [append_cons pre] at h
        obtain ⟨inner, s₂, rfl, enclosed⟩ :=
          exists_enclosed h ((entries_baseClasses fin).eq_behindGroup behindGroup_baseClass hb)
        exact ⟨⟨.word (.identifier name), s⟩ :: ⟨.opening .round, s₁⟩ :: (inner ++ [⟨.closing .round, s₂⟩]),
          s', by simp, .bases (.round enclosed)⟩
      next =>
        cases hb
        exact ⟨_, s', rfl, .plain⟩
    next => cases hh
  next => cases hh

end Laid

end ViewBridge.Classes
