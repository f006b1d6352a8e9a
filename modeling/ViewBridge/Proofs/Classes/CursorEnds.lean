import ViewBridge.Proofs.Classes.CursorMembers

namespace ViewBridge.Classes.Cursor

open ViewBridge.Cursor List

variable {α β : Type} {run : Run (α × Nat)}

/-- A position among tokens the last of which is an end. -/
structure Inside (all : List Token) (p : Nat) : Prop where
  bound : p < all.length
  closed : ∀ t, all.getLast? = some t → t.kind = .eof

/-- A position at or behind another one. -/
structure Reaches (all : List Token) (p q : Nat) : Prop where
  le : p ≤ q
  inside : Inside all q

/-- A run that ends with a fault or at a position not before a certain one. -/
abbrev Reads (all : List Token) (p : Nat) (run : Run (α × Nat)) : Prop :=
  Finishes (fun r => Reaches all p r.2) run

/-- The same of a run that gives nothing but its position. -/
abbrev Skips (all : List Token) (p : Nat) (run : Run Nat) : Prop := Finishes (Reaches all p) run

variable {all : List Token} {p q : Nat} {t : Token}

theorem inside_closed (place : Span) (ts : List Token) : Inside (closed place ts) 0 := by
  unfold closed
  split
  next fin last =>
    have nonempty : ts ≠ [] := fun eq => by rw [eq] at last; cases last
    refine ⟨length_pos_iff.mpr nonempty, fun t ht => ?_⟩
    rw [last] at ht
    cases ht
    rfl
  next t _ _ =>
    refine ⟨by simp, fun u hu => ?_⟩
    rw [getLast?_concat] at hu
    cases hu
    rfl
  next =>
    refine ⟨Nat.one_pos, fun u hu => ?_⟩
    cases hu
    rfl

theorem Reads.weaken (h : Reads all q run) (le : p ≤ q) : Reads all p run :=
  Finishes.imp h fun _ hr => ⟨le.trans hr.le, hr.inside⟩

theorem Skips.weaken {run : Run Nat} (h : Skips all q run) (le : p ≤ q) : Skips all p run :=
  Finishes.imp h fun _ hr => ⟨le.trans hr.le, hr.inside⟩

theorem Reads.andThen {k : α × Nat → Run (β × Nat)} (h : Reads all p run)
    (hk : ∀ a q, Inside all q → Reads all q (k (a, q))) : Reads all p (run >>= k) :=
  Finishes.bind h fun r hr => (hk r.1 r.2 hr.inside).weaken hr.le

theorem Skips.andThen {run : Run Nat} {k : Nat → Run (β × Nat)} (h : Skips all p run)
    (hk : ∀ q, Inside all q → Reads all q (k q)) : Reads all p (run >>= k) :=
  Finishes.bind h fun q hq => (hk q hq.inside).weaken hq.le

namespace Inside

theorem reaches (h : Inside all p) : Reaches all p p := ⟨Nat.le_refl p, h⟩

theorem stays {a : α} (h : Inside all p) : Reads all p (pure (a, p)) := .ok h.reaches

/-- What holds at a position because it holds at all later ones holds everywhere. -/
theorem induction {motive : ∀ p, Inside all p → Prop}
    (step : ∀ p (h : Inside all p),
      (∀ q (hq : Reaches all (p + 1) q), motive q hq.inside) → motive p h)
    (p : Nat) (h : Inside all p) : motive p h := by
  induction hn : all.length - p using Nat.strongRecOn generalizing p with
  | ind size ih =>
    refine step p h fun q hq => ih (all.length - q) ?_ q hq.inside rfl
    have here := h.bound
    have later := hq.le
    omega

theorem exists_token (h : Inside all p) : ∃ t, all[p]? = some t :=
  ⟨_, getElem?_eq_getElem h.bound⟩

/-- Only the last token has nothing behind it, and that is an end. -/
theorem next (h : Inside all p) (ht : all[p]? = some t) (hk : t.kind ≠ .eof) :
    Inside all (p + 1) := by
  refine ⟨?_, h.closed⟩
  have bound := h.bound
  by_contra last
  rw [show p = all.length - 1 by omega, ← getLast?_eq_getElem?] at ht
  exact hk (h.closed t ht)

theorem advance (h : Inside all p) (ht : all[p]? = some t) (hk : t.kind ≠ .eof) :
    advance all p = pure (t, p + 1) :=
  advance_eq ht (h.next ht hk).bound

theorem advance_reads (h : Inside all p) (ht : all[p]? = some t) :
    ∃ q, Cursor.advance all p = pure (t, q) ∧ Reaches all p q := by
  unfold Cursor.advance
  rw [tokenAt_eq ht, pure_bind, lower_length ht, pure_bind]
  have bound := h.bound
  refine ⟨_, rfl, ?_, ?_, h.closed⟩
  · split <;> omega
  · split <;> omega

theorem accept (h : Inside all p) (kind : Kind) [mark : Mark kind] :
    accept all p kind = pure (true, p + 1) ∧ Inside all (p + 1) ∨
      accept all p kind = pure (false, p) := by
  obtain ⟨⟨k, s⟩, ht⟩ := h.exists_token
  by_cases hk : k = kind
  · subst hk
    have next := h.next ht mark.ne_eof
    exact .inl ⟨accept_eq ht next.bound, next⟩
  · exact .inr (accept_eq_of_ne ht hk)

theorem refuse {G : α → Prop} (h : Inside all p) (expected : Expected) :
    Finishes G (refuse all p expected) := by
  obtain ⟨t, ht⟩ := h.exists_token
  rw [refuse_eq ht]
  exact .error

theorem consume (h : Inside all p) (kind : Kind) [mark : Mark kind]
    (expected : Expected) : Reads all (p + 1) (consume all p kind expected) := by
  obtain ⟨⟨k, s⟩, ht⟩ := h.exists_token
  by_cases hk : k = kind
  · subst hk
    have next := h.next ht mark.ne_eof
    rw [consume_eq ht next.bound]
    exact .ok next.reaches
  · rw [consume_eq_of_ne ht hk]
    exact h.refuse expected

theorem kindAhead (h : Inside all p) (offset : Nat) : ∃ k, kindAhead all p offset = pure k := by
  obtain ⟨t, ht⟩ := h.exists_token
  have bound := h.bound
  have within : min (p + offset) (all.length - 1) < all.length := by omega
  unfold Cursor.kindAhead
  rw [lower_length ht, pure_bind, tokenAt_eq (getElem?_eq_getElem within), pure_bind]
  exact ⟨_, rfl⟩

theorem exists_sees (h : Inside all p) : ∃ fin tail ts, Sees all fin tail p ts := by
  induction p, h using Inside.induction with
  | step p h ih =>
    obtain ⟨⟨k, s⟩, ht⟩ := h.exists_token
    have drop : all.drop p = ⟨k, s⟩ :: all.drop (p + 1) := by
      rw [drop_eq_getElem_cons h.bound, ← Option.some.inj
        ((getElem?_eq_getElem h.bound).symm.trans ht)]
    by_cases hk : k = .eof
    · subst hk
      exact ⟨s, all.drop (p + 1), [], drop, by simp⟩
    · obtain ⟨fin, tail, ts, sees⟩ := ih (p + 1) (h.next ht hk).reaches
      refine ⟨fin, tail, ⟨k, s⟩ :: ts, ?_, forall_mem_cons.mpr ⟨hk, sees.plain⟩⟩
      rw [drop, sees.drop_eq]
      rfl

theorem atLineBreak (h : Inside all p) : ∃ b, atLineBreak all p = pure b := by
  obtain ⟨fin, tail, ts, sees⟩ := h.exists_sees
  exact ⟨_, atLineBreak_eq sees⟩

theorem reaches_of_sees (h : Inside all p) {fin : Span} {tail ts rest : List Token}
    (here : Sees all fin tail p ts) (there : Sees all fin tail q rest) (sub : rest <:+ ts) :
    Reaches all p q := by
  have length := here.length
  have length' := there.length
  have shorter := sub.length_le
  exact ⟨by omega, by omega, h.closed⟩

/-- A reader that stays before the next end wherever it starts. -/
theorem reads (h : Inside all p) {run : Run (α × Nat)}
    {read : Span → List Token → Except Fault (α × List Token)}
    (hm : ∀ {fin tail ts}, Sees all fin tail p ts → Matches (Stands all fin tail) run (read fin ts))
    (sound : ∀ fin ts, Sound fin ts (read fin ts)) : Reads all p run := by
  obtain ⟨fin, tail, ts, sees⟩ := h.exists_sees
  rcases (hm sees).exists_eq with ⟨_, _, eq, read, ⟨hr⟩⟩ | ⟨fault, eq, _⟩
  · rw [eq]
    exact .ok (h.reaches_of_sees sees hr ((sound fin ts).of_ok read))
  · rw [eq]
    exact .error

theorem passLineBreak (h : Inside all p) : Skips all p (passLineBreak all p) := by
  obtain ⟨fin, tail, ts, sees⟩ := h.exists_sees
  rcases (passLineBreak_matches sees).exists_eq with ⟨q, rest, eq, read, hr⟩ | ⟨fault, eq, _⟩
  · rw [eq]
    exact .ok (h.reaches_of_sees sees hr ((endOfLine_sound ts).of_ok read))
  · rw [eq]
    exact .error

theorem skips (h : Inside all p) {run : Run Nat} {skip : List Token → List Token}
    (hl : ∀ {fin tail ts}, Sees all fin tail p ts → Lands all fin tail run (skip ts))
    (suffix : ∀ ts, skip ts <:+ ts) : Skips all p run := by
  obtain ⟨fin, tail, ts, sees⟩ := h.exists_sees
  obtain ⟨q, eq, hq⟩ := hl sees
  rw [eq]
  exact .ok (h.reaches_of_sees sees hq (suffix ts))

end Inside

theorem skipLine_skips (h : Inside all p) : Skips all p (skipLine all p) :=
  h.skips skipLine_lands skipLine_suffix

theorem skipLine_skips_succ (h : Inside all p) (ht : all[p]? = some t) (hk : t.kind ≠ .eof) :
    Skips all (p + 1) (skipLine all p) := by
  have next := h.next ht hk
  have later := skipLine_skips next
  obtain ⟨k, s⟩ := t
  unfold skipLine at later ⊢
  rw [lineEnd]
  unfold ViewBridge.Cursor.atLineBreak
  rw [tokenAt_eq ht, pure_bind]
  cases k with
  | newline =>
    simp only [pure_bind, ↓reduceIte, accept_eq ht next.bound]
    exact .ok next.reaches
  | eof => exact absurd rfl hk
  | _ =>
    simp only [pure_bind, Bool.false_eq_true, ↓reduceIte, h.advance ht (by simp)]
    exact later

theorem skipBlockLines_skips (depth : Nat) (h : Inside all p) :
    Skips all p (skipBlockLines all depth p) := by
  induction p, h using Inside.induction generalizing depth with
  | step p h ih =>
    rw [skipBlockLines]
    split
    next => exact .ok h.reaches
    next hd =>
      obtain ⟨⟨k, s⟩, ht⟩ := h.exists_token
      cases k with
      | eof =>
        obtain ⟨q, eq, hq⟩ := h.advance_reads ht
        rw [eq, pure_bind]
        exact .ok hq
      | dedent =>
        obtain ⟨depth, rfl⟩ := Nat.exists_eq_succ_of_ne_zero hd
        rw [h.advance ht (by simp), pure_bind]
        exact (ih (p + 1) (h.next ht (by simp)).reaches depth).weaken (Nat.le_succ p)
      | _ =>
        rw [h.advance ht (by simp), pure_bind]
        exact (ih (p + 1) (h.next ht (by simp)).reaches _).weaken (Nat.le_succ p)

theorem skipBlock_skips (h : Inside all p) : Skips all p (skipBlock all p) := by
  unfold skipBlock
  rcases h.accept .indent with ⟨eq, next⟩ | eq
  · rw [eq, pure_bind]
    exact (skipBlockLines_skips 1 next).weaken (Nat.le_succ p)
  · rw [eq, pure_bind]
    exact .ok h.reaches

theorem skipStatement_skips (h : Inside all p) (ht : all[p]? = some t) (hk : t.kind ≠ .eof) :
    Skips all (p + 1) (skipStatement all p) :=
  (skipLine_skips_succ h ht hk).bind fun _ hq => (skipBlock_skips hq.inside).weaken hq.le

theorem skipArgument_skips (depth : Nat) (h : Inside all p) :
    Skips all p (skipArgument all depth p) :=
  h.skips (skipArgument_lands depth) (skipArgument_suffix depth)

theorem skipGroup_skips (depth : Nat) (h : Inside all p) : Skips all p (skipGroup all depth p) := by
  induction p, h using Inside.induction generalizing depth with
  | step p h ih =>
    obtain ⟨⟨k, s⟩, ht⟩ := h.exists_token
    have further (hk : k ≠ .eof) (depth : Nat) : Skips all p (skipGroup all depth (p + 1)) :=
      (ih (p + 1) (h.next ht hk).reaches depth).weaken (Nat.le_succ p)
    rw [skipGroup]
    cases k with
    | eof =>
      obtain ⟨q, eq, hq⟩ := h.advance_reads ht
      rw [eq, pure_bind]
      exact .ok hq
    | closing b =>
      rw [h.advance ht (by simp), pure_bind]
      dsimp only
      split
      · exact .ok ⟨Nat.le_succ p, h.next ht (by simp)⟩
      · exact further (by simp) _
    | _ =>
      rw [h.advance ht (by simp), pure_bind]
      exact further (by simp) _

theorem identifier_reads (expected : Expected) (h : Inside all p) :
    Reads all (p + 1) (identifier all expected p) := by
  obtain ⟨⟨k, s⟩, ht⟩ := h.exists_token
  unfold identifier
  rw [tokenAt_eq ht, pure_bind]
  cases k with
  | word w =>
    cases w with
    | identifier name =>
      dsimp only
      rw [h.advance ht nofun, pure_bind]
      exact .ok (h.next ht nofun).reaches
    | _ => exact h.refuse expected
  | _ => exact h.refuse expected

theorem dottedName_reads (expected : Expected) (h : Inside all p) :
    Reads all p (dottedName all expected p) :=
  h.reads (dottedName_matches expected) fun _ ts => (dottedName_gives expected ts).sound

theorem typeExpression_reads (h : Inside all p) : Reads all p (typeExpression all p) :=
  h.reads hint_matches fun _ => hint_sound

theorem typeBehind_reads (kind : Kind) [Mark kind] (h : Inside all p) :
    Reads all p (typeBehind all kind p) := by
  unfold typeBehind
  rcases h.accept kind with ⟨eq, next⟩ | eq
  · rw [eq, pure_bind]
    exact Reads.andThen ((typeExpression_reads next).weaken (Nat.le_succ p)) fun _ _ hr => hr.stays
  · rw [eq, pure_bind]
    exact h.stays

theorem decorator_reads (h : Inside all p) (ht : all[p]? = some t) (hk : t.kind ≠ .eof) :
    Reads all (p + 1) (decorator all p) := by
  unfold decorator
  rw [h.advance ht hk, pure_bind]
  refine (dottedName_reads .decoratorName (h.next ht hk)).andThen ?_
  intro name q hq
  obtain ⟨u, hu⟩ := hq.exists_token
  dsimp only
  rw [tokenAt_eq hu, pure_bind]
  split
  · refine (skipGroup_skips 0 hq).andThen fun r hr => ?_
    exact hr.passLineBreak.andThen fun _ hl => hl.stays
  · exact hq.passLineBreak.andThen fun _ hl => hl.stays

theorem entryEnd_reads (h : Inside all p) : Reads all (p + 1) (entryEnd all p) := by
  unfold entryEnd
  rcases h.accept (.word .comma) with ⟨eq, next⟩ | eq
  · rw [eq, pure_bind]
    exact .ok next.reaches
  · rw [eq, pure_bind]
    exact (h.consume (.closing .round) .commaOrCloseParen).andThen fun _ _ hr => hr.stays

theorem plainBase_reads (h : Inside all p) : Reads all p (plainBase all p) := by
  refine (dottedName_reads .baseClass h).andThen fun name q hq => ?_
  obtain ⟨t, ht⟩ := hq.exists_token
  dsimp only
  rw [tokenAt_eq ht, pure_bind]
  split
  · exact (skipGroup_skips 0 hq).andThen fun _ hr => hr.stays
  · exact hq.stays

theorem baseClass_reads (h : Inside all p) : Reads all p (baseClass all p) := by
  obtain ⟨here, eq⟩ := h.kindAhead 0
  obtain ⟨ahead, eq'⟩ := h.kindAhead 1
  unfold baseClass
  rw [eq, pure_bind, eq']
  split
  · rw [pure_bind]
    split
    · exact (skipArgument_skips 0 h).andThen fun _ hr => hr.stays
    · exact plainBase_reads h
  · exact plainBase_reads h

theorem entries_reads {entry : Nat → Run (Option α × Nat)}
    (he : ∀ {p}, Inside all p → Reads all p (entry p)) (h : Inside all p) :
    Reads all p (entries all entry p) := by
  induction p, h using Inside.induction with
  | step p h ih =>
    rw [entries]
    rcases h.accept (.closing .round) with ⟨eq, next⟩ | eq
    · rw [eq, pure_bind]
      exact .ok ⟨Nat.le_succ p, next⟩
    · rw [eq, pure_bind]
      refine (he h).bind ?_
      rintro ⟨first, q⟩ hq
      refine (entryEnd_reads hq.inside).bind ?_
      rintro ⟨goesOn, r⟩ hr
      have later : Reaches all (p + 1) r :=
        ⟨(Nat.succ_le_succ hq.le).trans hr.le, hr.inside⟩
      dsimp only
      split
      · refine Reads.andThen ((ih r later).weaken (Nat.le_of_succ_le later.le)) ?_
        exact fun _ _ hl => hl.stays
      · exact .ok ⟨Nat.le_of_succ_le later.le, later.inside⟩

theorem paramEntry_reads (h : Inside all p) : Reads all p (paramEntry all p) :=
  h.reads paramEntry_matches fun _ => paramEntry_sound

theorem methodBody_skips (h : Inside all p) : Skips all p (methodBody all p) := by
  obtain ⟨ended, line⟩ := h.atLineBreak
  unfold methodBody
  rw [line, pure_bind]
  split
  · exact h.passLineBreak.bind fun _ hq => (skipBlock_skips hq.inside).weaken hq.le
  · exact skipLine_skips h

theorem exists_extentFrom_eq (start : Span) (h : Inside all p) :
    ∃ extent, extentFrom all start p = pure extent := by
  unfold extentFrom
  rw [slice_eq (Nat.zero_le p) (Nat.le_of_lt h.bound), pure_bind]
  exact ⟨_, rfl⟩

theorem method_reads (decorators : List Decorator) (async : Option Span) (h : Inside all p)
    (ht : all[p]? = some t) (hk : t.kind ≠ .eof) :
    Reads all (p + 1) (method all decorators async p) := by
  unfold method
  rw [h.advance ht hk, pure_bind]
  refine Reads.andThen ((identifier_reads .methodName (h.next ht hk)).weaken (Nat.le_succ _)) ?_
  intro named q hq
  refine Reads.andThen ((hq.consume (.opening .round) .openParenAfterMethod).weaken
    (Nat.le_succ q)) fun _ q hq => ?_
  refine (entries_reads paramEntry_reads hq).andThen fun params q hq => ?_
  refine (typeBehind_reads (.word .arrow) hq).andThen fun returns q hq => ?_
  refine Reads.andThen ((hq.consume (.word .colon) .colonAfterSignature).weaken
    (Nat.le_succ q)) fun _ q hq => ?_
  refine (methodBody_skips hq).andThen fun q hq => ?_
  obtain ⟨extent, eq⟩ := exists_extentFrom_eq
    (((decorators.head?.map (·.span)).or async).getD t.span) hq
  dsimp only
  rw [eq, pure_bind, keptParams_eq, pure_bind]
  exact hq.stays

theorem fieldDefault_reads (h : Inside all p) : Reads all p (fieldDefault all p) := by
  obtain ⟨fin, tail, ts, sees⟩ := h.exists_sees
  obtain ⟨q, eq, hq⟩ := fieldDefault_eq sees
  rw [eq]
  exact .ok (h.reaches_of_sees sees hq (fieldDefault_gives ts).1)

theorem field_reads (h : Inside all p) : Reads all (p + 1) (field all p) := by
  refine (identifier_reads .memberDeclaration h).andThen fun named q hq => ?_
  refine (typeBehind_reads (.word .colon) hq).andThen fun hint q hq => ?_
  refine (fieldDefault_reads hq).andThen fun default q hq => ?_
  obtain ⟨ended, line⟩ := hq.atLineBreak
  obtain ⟨extent, eq⟩ := exists_extentFrom_eq named.2 hq
  dsimp only
  rw [line, pure_bind]
  split
  · exact hq.refuse _
  · rw [eq, pure_bind]
    refine hq.passLineBreak.andThen fun r hr => ?_
    split
    · exact hr.stays
    · exact hr.stays

theorem methodLine_reads (pending : List Decorator) (async : Option Span) (h : Inside all p)
    (ht : all[p]? = some t) (hk : t.kind ≠ .eof) :
    Reads all (p + 1) (methodLine all pending async p) :=
  (method_reads pending async h ht hk).andThen fun _ _ hr => hr.stays

theorem fieldLine_reads (h : Inside all p) : Reads all (p + 1) (fieldLine all p) :=
  (field_reads h).andThen fun _ _ hr => hr.stays

theorem member_reads (pending : List Decorator) (h : Inside all p) :
    Reads all (p + 1) (member all pending p) := by
  obtain ⟨⟨k, s⟩, ht⟩ := h.exists_token
  unfold member
  rw [tokenAt_eq ht, pure_bind]
  cases k with
  | word w =>
    cases w with
    | «at» => exact (decorator_reads h ht nofun).andThen fun _ _ hr => hr.stays
    | defKeyword => exact methodLine_reads pending none h ht nofun
    | classKeyword => exact (skipStatement_skips h ht nofun).andThen fun _ hr => hr.stays
    | passKeyword | ellipsis | string =>
      dsimp only
      rw [h.advance ht nofun, pure_bind]
      exact (h.next ht nofun).passLineBreak.andThen fun _ hr => hr.stays
    | identifier name =>
      have next := h.next ht nofun
      obtain ⟨u, hu⟩ := next.exists_token
      dsimp only
      rw [kindAhead_eq 1 hu, h.advance ht nofun]
      split
      · rw [pure_bind]
        split
        next eq =>
          have waits : u.kind ≠ .eof := fun eof => by rw [eof] at eq; cases eq
          rw [pure_bind]
          exact (methodLine_reads pending (some s) next hu waits).weaken (Nat.le_succ _)
        next => exact fieldLine_reads h
      · exact fieldLine_reads h
    | _ => exact h.refuse _
  | _ => exact h.refuse _

theorem classBody_reads (pending : List Decorator) (h : Inside all p) :
    Reads all p (classBody all pending p) := by
  induction p, h using Inside.induction generalizing pending with
  | step p h ih =>
    obtain ⟨⟨k, s⟩, ht⟩ := h.exists_token
    rw [classBody, tokenAt_eq ht, pure_bind]
    cases k with
    | dedent =>
      dsimp only
      rw [h.advance ht (by simp), pure_bind]
      exact .ok ⟨Nat.le_succ p, h.next ht (by simp)⟩
    | eof => exact h.stays
    | newline =>
      dsimp only
      rw [h.advance ht (by simp), pure_bind]
      exact (ih (p + 1) (h.next ht (by simp)).reaches pending).weaken (Nat.le_succ p)
    | _ =>
      refine (member_reads pending h).bind ?_
      rintro ⟨line, q⟩ hq
      refine Reads.andThen ((ih q hq line.pending).weaken (Nat.le_of_succ_le hq.le)) ?_
      exact fun _ _ hr => hr.stays

theorem classMembers_reads (h : Inside all p) : Reads all p (classMembers all p) := by
  obtain ⟨ended, line⟩ := h.atLineBreak
  unfold classMembers
  rw [line, pure_bind]
  split
  · refine h.passLineBreak.andThen fun q hq => ?_
    rcases hq.accept .indent with ⟨eq, next⟩ | eq
    · rw [eq, pure_bind]
      exact (classBody_reads [] next).weaken (Nat.le_succ q)
    · rw [eq, pure_bind]
      exact hq.stays
  · exact Reads.andThen ((member_reads [] h).weaken (Nat.le_succ p)) fun _ _ hr => hr.stays

theorem classBases_reads (h : Inside all p) : Reads all p (classBases all p) := by
  unfold classBases
  rcases h.accept (.opening .round) with ⟨eq, next⟩ | eq
  · rw [eq, pure_bind]
    exact (entries_reads baseClass_reads next).weaken (Nat.le_succ p)
  · rw [eq, pure_bind]
    exact h.stays

theorem classDef_reads (decorators : List Decorator) (h : Inside all p) (ht : all[p]? = some t)
    (hk : t.kind ≠ .eof) : Reads all (p + 1) (classDef all decorators p) := by
  unfold classDef
  rw [h.advance ht hk, pure_bind]
  refine Reads.andThen ((identifier_reads .className (h.next ht hk)).weaken (Nat.le_succ _)) ?_
  intro named q hq
  refine (classBases_reads hq).andThen fun bases q hq => ?_
  refine Reads.andThen ((hq.consume (.word .colon) .colonAfterClass).weaken (Nat.le_succ q)) ?_
  intro _ q hq
  exact (classMembers_reads hq).andThen fun _ _ hr => hr.stays

theorem exists_isFunction_eq (h : Inside all p) : ∃ b, isFunction all p = pure b := by
  obtain ⟨t, ht⟩ := h.exists_token
  obtain ⟨ahead, eq⟩ := h.kindAhead 1
  unfold isFunction
  rw [tokenAt_eq ht, pure_bind, eq]
  split
  · exact ⟨true, rfl⟩
  · split
    · rw [pure_bind]
      split
      · exact ⟨true, rfl⟩
      · exact ⟨false, rfl⟩
    · exact ⟨false, rfl⟩
  · exact ⟨false, rfl⟩

theorem classesFrom_finishes (pending : List Decorator) (h : Inside all p) :
    Finishes (fun _ => True) (classesFrom all pending p) := by
  induction p, h using Inside.induction generalizing pending with
  | step p h ih =>
    obtain ⟨⟨k, s⟩, ht⟩ := h.exists_token
    have statement (hk : k ≠ .eof) : Finishes (fun _ => True)
        (do
          let function ← isFunction all p
          if function || pending.isEmpty then
            let p ← skipStatement all p
            classesFrom all [] p
          else refuse all p .classOrFunction) := by
      obtain ⟨function, eq⟩ := exists_isFunction_eq h
      rw [eq, pure_bind]
      split
      · exact (skipStatement_skips h ht hk).bind fun q hq => ih q hq []
      · exact h.refuse _
    rw [classesFrom, tokenAt_eq ht, pure_bind]
    cases k with
    | eof => exact .ok trivial
    | newline =>
      dsimp only
      rw [h.advance ht (by simp), pure_bind]
      exact ih (p + 1) (h.next ht (by simp)).reaches pending
    | word w =>
      cases w with
      | «at» => exact (decorator_reads h ht (by simp)).bind fun r hr => ih r.2 hr _
      | classKeyword =>
        refine (classDef_reads pending h ht (by simp)).bind fun r hr => ?_
        exact (ih r.2 hr []).bind fun _ _ => .ok trivial
      | _ => exact statement (by simp)
    | _ => exact statement (by simp)

theorem parse_finishes (ts : List Token) : Finishes (fun _ => True) (parse ts) :=
  (classesFrom_finishes [] (inside_closed .origin ts)).bind fun _ _ => .ok trivial

theorem parseType_finishes (ts : List Token) : Finishes (fun _ => True) (parseType ts) :=
  (typeExpression_reads (inside_closed .origin ts)).bind fun _ _ => .ok trivial

end ViewBridge.Classes.Cursor
