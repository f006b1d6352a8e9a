import ViewBridge.Proofs.Classes.Members
import ViewBridge.Proofs.Classes.Names

namespace ViewBridge.Classes

open List

variable {fin s span : Span} {name : String} {ts rest : List Token} {fault : Fault}

instance : Inherited Named := ⟨fun sub h => h.suffix sub⟩

theorem skipLine_suffix (ts : List Token) : skipLine ts <:+ ts :=
  (tail_suffix _).trans (lineEnd_suffix ts)

theorem skipStatement_suffix (ts : List Token) : skipStatement ts <:+ ts := by
  refine List.IsSuffix.trans ?_ (skipLine_suffix ts)
  unfold skipStatement skipBlock
  split
  next eq =>
    rw [eq]
    exact (behindClosing_suffix _ _ 0 _).trans (suffix_cons _ _)
  next => exact suffix_refl _

theorem skipArgument_suffix (depth : Nat) (ts : List Token) : skipArgument depth ts <:+ ts := by
  fun_induction skipArgument depth ts with
  | case1 | case2 | case4 | case6 => exact suffix_refl _
  | case3 _ _ _ _ _ ih | case5 _ _ _ _ _ ih | case7 _ _ _ _ _ ih | case8 _ _ _ _ _ _ _ ih =>
    exact ih.trans (suffix_cons _ _)

theorem dottedTail_gives (ts : List Token) :
    Gives Named fin ts (fun more => ∃ ks, DottedTail more ks) (dottedTail fin ts) := by
  induction hn : ts.length using Nat.strongRecOn generalizing ts with
  | ind size ih =>
    rw [dottedTail.eq_def]
    split
    next s name s' behind =>
      have sub : behind <:+ ⟨.word .dot, s⟩ :: ⟨.word (.identifier name), s'⟩ :: behind :=
        (suffix_cons _ _).trans (suffix_cons _ _)
      have shorter : behind.length < size := by
        rw [← hn, length_cons, length_cons]
        omega
      refine (ih _ shorter behind rfl).then sub fun more rest hr dots => ?_
      refine .ok ⟨hr, fun named => ?_⟩
      obtain ⟨ks, hm⟩ := dots named
      exact ⟨_, .dot named.tail.head hm⟩
    next => exact refused _ (suffix_cons _ _)
    next => exact .ok ⟨suffix_refl _, fun _ => ⟨[], .nil⟩⟩

theorem dottedName_gives (expected : Expected) (ts : List Token) :
    Gives Named fin ts (fun name => ∃ ks, Dotted name ks) (dottedName fin expected ts) := by
  unfold dottedName
  split
  next =>
    refine (dottedTail_gives _).then (suffix_cons _ _) fun more behind hb dots => ?_
    refine .ok ⟨hb, fun named => ?_⟩
    obtain ⟨ks, hm⟩ := dots named
    exact ⟨_, .name named.head hm⟩
  next => exact refused _ (suffix_refl _)

theorem spellableKeep : ValuesKeep Named Spellable where
  literal {w _ _ _} _ hl := by
    cases w with
    | string text =>
      cases hl
      exact .string text
    | integer i =>
      cases hl
      exact .integer i
    | float f =>
      cases hl
      exact .float f
    | _ => cases hl
  name {w s ts first fin name rest} named hl read := by
    cases w with
    | identifier =>
      cases hl
      obtain ⟨⟨more, _⟩, tail, eq⟩ := exists_of_bind read
      cases eq
      obtain ⟨ks, hm⟩ := ((dottedTail_gives ts).of_ok tail).2 named.tail
      exact ⟨spellable_ofName (.name named.head hm), fun _ => .call (.name named.head hm)⟩
    | _ => cases hl
  list := .list
  tuple := .tuple

variable {size : Nat}

theorem plainValue_gives (ts : List Token) : Gives Named fin ts Spellable (plainValue fin ts) :=
  bareTuple_gives spellableKeep (fun ts => (atom_draws spellableKeep ts).gives) ts

theorem defaultValue_gives (ts : List Token) :
    (defaultValue fin ts).2 <:+ ts ∧ (Named ts → ∀ v ∈ (defaultValue fin ts).1, Spellable v) := by
  have none : lineEnd ts <:+ ts ∧ (Named ts → ∀ v ∈ (none : Option Literal), Spellable v) :=
    ⟨lineEnd_suffix ts, fun _ _ hv => by cases hv⟩
  unfold defaultValue
  split
  next v rest read =>
    obtain ⟨sub, spelled⟩ := (plainValue_gives ts).of_ok read
    split
    next =>
      refine ⟨sub, fun named => ?_⟩
      rintro _ ⟨⟩
      exact spelled named
    next => exact none
  next => exact none

section Types

variable {quoted : String → TypeHint} {left : List Token} {b : Bracket} {w : Word}

/-- Tokens that start with some whose brackets are closed and among which no colon stands. -/
def Passes (ts rest : List Token) : Prop :=
  ∃ v, ts = v ++ rest ∧ Enclosed (v.map (·.kind)) ∧ ∀ t ∈ v, t.kind ≠ .word .colon

theorem Passes.refl (ts : List Token) : Passes ts ts := ⟨[], rfl, .nil, forall_mem_nil _⟩

theorem Passes.suffix (h : Passes ts rest) : rest <:+ ts := by
  obtain ⟨v, rfl, _⟩ := h
  exact suffix_append v rest

theorem Passes.trans (h : Passes ts rest) (hr : Passes rest left) : Passes ts left := by
  obtain ⟨v, rfl, closed, plain⟩ := h
  obtain ⟨w, rfl, closed', plain'⟩ := hr
  refine ⟨v ++ w, by simp, ?_, forall_mem_append.mpr ⟨plain, plain'⟩⟩
  rw [map_append]
  exact closed.append closed'

theorem Passes.word (h : Passes ts rest) (hw : isColon w = false) : Passes (⟨.word w, s⟩ :: ts) rest := by
  obtain ⟨v, rfl, closed, plain⟩ := h
  refine ⟨⟨.word w, s⟩ :: v, rfl, .word w closed, forall_mem_cons.mpr ⟨?_, plain⟩⟩
  rintro ⟨⟩
  cases hw

theorem Passes.group (h : Passes ts (⟨.closing b, span⟩ :: rest)) :
    Passes (⟨.opening b, s⟩ :: ts) rest := by
  obtain ⟨v, rfl, closed, plain⟩ := h
  refine ⟨⟨.opening b, s⟩ :: (v ++ [⟨.closing b, span⟩]), by simp, ?_, ?_⟩
  · rw [map_cons, map_append]
    exact .group b closed .nil
  · simp only [forall_mem_cons, forall_mem_append]
    exact ⟨nofun, plain, nofun, nofun⟩

theorem dottedTail_passes {more : String} (h : dottedTail fin ts = .ok (more, rest)) :
    Passes ts rest := by
  fun_induction dottedTail fin ts generalizing more with
  | case1 _ name _ ts ih =>
    obtain ⟨⟨others, behind⟩, hr, eq⟩ := exists_of_bind h
    cases eq
    exact .word (.word (ih hr) rfl) rfl
  | case2 => cases h
  | case3 =>
    cases h
    exact .refl _

theorem dottedName_passes {expected : Expected} (h : dottedName fin expected ts = .ok (name, rest)) :
    Passes ts rest := by
  unfold dottedName at h
  split at h
  · obtain ⟨⟨more, behind⟩, hr, eq⟩ := exists_of_bind h
    cases eq
    exact .word (dottedTail_passes hr) rfl
  · cases h

/-- Types of less than so many tokens are read soundly, and no colon stands in one. -/
structure TypesSound (quoted : String → TypeHint) (fin : Span) (size : Nat) : Prop where
  expression : ∀ ts : List Token, ts.length < size →
    Answers (Blames fin ts) (Passes ts ·.2) (typeExpression quoted fin ts)
  members : ∀ ts : List Token, ts.length < size →
    Answers (Blames fin ts) (Passes ts ·.2) (moreMembers quoted fin ts)
  member : ∀ ts : List Token, ts.length < size →
    Answers (Blames fin ts) (Passes ts ·.2) (typeMember quoted fin ts)
  list : ∀ ts : List Token, ts.length < size →
    Answers (Blames fin ts) (fun p => ∃ s, Passes ts (⟨.closing .square, s⟩ :: p.2)) (typeList quoted fin ts)

theorem typeMember_step_sound (below : TypesSound quoted fin size) (hn : ts.length ≤ size) :
    Answers (Blames fin ts) (Passes ts ·.2) (typeMember quoted fin ts) := by
  rw [typeMember.eq_def]
  split
  case h_1 first s tail =>
    rw [length_cons] at hn
    split
    next => exact .ok (.word (.refl _) rfl)
    next =>
      refine ((dottedTail_sound tail).mono (suffix_cons _ _)).bind ?_
      rintro ⟨more, behind⟩ read -
      have hb : Passes (⟨.word (.identifier first), s⟩ :: tail) behind := .word (dottedTail_passes read) rfl
      dsimp only
      split
      next _ args =>
        have sub := (suffix_cons _ args).trans hb.suffix
        split
        next shorter =>
          refine (below.list _ (by omega)).behind sub ?_
          rintro _ ⟨_, hl⟩
          exact .ok (hb.trans hl.group)
        next => exact refused _ sub
      next => exact .ok hb
  case h_2 =>
    rw [length_cons] at hn
    refine (below.list _ (by omega)).behind (suffix_cons _ _) ?_
    rintro _ ⟨_, hl⟩
    exact .ok hl.group
  case h_3 =>
    rw [length_cons] at hn
    refine (below.expression _ (by omega)).behind (suffix_cons _ _) ?_
    rintro ⟨inner, behind⟩ hb
    dsimp only at hb ⊢
    split
    next => exact .ok hb.group
    next => exact refused _ (hb.suffix.trans (suffix_cons _ _))
  case h_4 | h_5 => exact .ok (.word (.refl _) rfl)
  case h_6 => exact refused _ (suffix_refl _)

theorem moreMembers_step_sound (below : TypesSound quoted fin size) (hn : ts.length ≤ size) :
    Answers (Blames fin ts) (Passes ts ·.2) (moreMembers quoted fin ts) := by
  rw [moreMembers.eq_def]
  split
  next s rest =>
    rw [length_cons] at hn
    refine (below.member _ (by omega)).behind (suffix_cons _ _) ?_
    rintro ⟨first, behind⟩ hb
    have hb : Passes (⟨.word .pipe, s⟩ :: rest) behind := .word hb rfl
    dsimp only
    split
    next shorter =>
      exact (below.members _ (by omega)).behind hb.suffix fun _ hl => .ok (hb.trans hl)
    next => exact refused _ hb.suffix
  next => exact .ok (.refl _)

theorem typeExpression_step_sound (below : TypesSound quoted fin size) (hn : ts.length ≤ size) :
    Answers (Blames fin ts) (Passes ts ·.2) (typeExpression quoted fin ts) := by
  rw [typeExpression]
  refine Answers.bind (typeMember_step_sound below hn) ?_
  rintro ⟨first, rest⟩ _ hb
  dsimp only at hb ⊢
  split
  next =>
    split
    next shorter =>
      exact (below.members _ (by omega)).behind hb.suffix fun _ hl => .ok (hb.trans hl)
    next => exact refused _ hb.suffix
  next => exact .ok hb

theorem typeList_step_sound (below : TypesSound quoted fin size) (hn : ts.length ≤ size) :
    Answers (Blames fin ts) (fun p => ∃ s, Passes ts (⟨.closing .square, s⟩ :: p.2))
      (typeList quoted fin ts) := by
  rw [typeList.eq_def]
  split
  next => exact .ok ⟨_, .refl _⟩
  next =>
    refine Answers.bind (typeExpression_step_sound below hn) ?_
    rintro ⟨first, behind⟩ _ hb
    dsimp only at hb ⊢
    split
    next items _ =>
      have hb : Passes _ items := hb.trans (.word (.refl _) rfl)
      split
      next shorter =>
        refine (below.list _ (by omega)).behind hb.suffix ?_
        rintro _ ⟨s, hl⟩
        exact .ok ⟨s, hb.trans hl⟩
      next => exact refused _ hb.suffix
    next => exact .ok ⟨_, hb⟩
    next => exact refused _ hb.suffix

theorem typesSound (size : Nat) : TypesSound quoted fin size := by
  induction size with
  | zero => constructor <;> simp
  | succ size ih =>
    exact ⟨fun _ hn => typeExpression_step_sound ih (Nat.le_of_lt_succ hn),
      fun _ hn => moreMembers_step_sound ih (Nat.le_of_lt_succ hn),
      fun _ hn => typeMember_step_sound ih (Nat.le_of_lt_succ hn),
      fun _ hn => typeList_step_sound ih (Nat.le_of_lt_succ hn)⟩

theorem hint_passes (ts : List Token) : Answers (Blames fin ts) (Passes ts ·.2) (hint fin ts) :=
  (typesSound (ts.length + 1)).expression ts (Nat.lt_succ_self _)

theorem hint_sound (ts : List Token) : Sound fin ts (hint fin ts) :=
  (hint_passes ts).imp (fun _ hb => hb) fun _ h => h.suffix

theorem typeBehind_passes {mark : Word → Bool} {type : Option TypeHint}
    (h : typeBehind fin mark ts = .ok (type, rest)) :
    rest = ts ∨ ∃ w s us, ts = ⟨.word w, s⟩ :: us ∧ mark w = true ∧ Passes us rest := by
  unfold typeBehind at h
  split at h
  next w s us =>
    split at h
    next marked =>
      obtain ⟨⟨type, left⟩, ht, eq⟩ := exists_of_map h
      cases eq
      exact .inr ⟨w, s, us, rfl, marked, (hint_passes us).of_ok ht⟩
    next =>
      cases h
      exact .inl rfl
  next =>
    cases h
    exact .inl rfl

theorem typeBehind_sound (mark : Word → Bool) (ts : List Token) :
    Sound fin ts (typeBehind fin mark ts) := by
  unfold typeBehind
  split
  next rest =>
    split
    next =>
      exact Answers.map ((hint_sound rest).mono (suffix_cons _ _)) fun _ hl => hl
    next => exact .ok (suffix_refl _)
  next => exact .ok (suffix_refl _)

end Types

theorem endOfLine_within (sub : rest <:+ ts) :
    Answers (Blames fin ts) (· <:+ ts) (endOfLine fin rest) :=
  (endOfLine_sound rest).imp (fun _ h => h.mono sub) fun _ h => h.trans sub

theorem decorator_sound (ts : List Token) : Sound fin ts (decorator fin span ts) := by
  refine Answers.bind (dottedName_gives _ ts).sound ?_
  rintro ⟨name, rest⟩ _ sub
  dsimp only at sub ⊢
  split
  next inner _ =>
    have group : behindGroup 0 inner <:+ ts :=
      (behindClosing_suffix _ _ 0 inner).trans ((suffix_cons _ _).trans sub)
    refine Answers.bind (endOfLine_within group) ?_
    exact fun _ _ hl => .ok hl
  next =>
    refine Answers.bind (endOfLine_within sub) ?_
    exact fun _ _ hl => .ok hl

theorem entryEnd_sound (ts : List Token) : Sound fin ts (entryEnd fin ts) := by
  unfold entryEnd
  split
  next => exact .ok (suffix_cons _ _)
  next => exact .ok (suffix_cons _ _)
  next => exact refused _ (suffix_refl _)

theorem Entries.gives {α : Type} {G : α → Prop} {expected : Expected} {entry read}
    (hr : Entries expected fin entry read)
    (entries : ∀ ts, Gives Named fin ts (fun a => ∀ b ∈ a, G b) (entry ts)) (ts : List Token) :
    Gives Named fin ts (fun as => ∀ b ∈ as, G b) (read ts) := by
  induction hn : ts.length using Nat.strongRecOn generalizing ts with
  | ind size ih =>
    by_cases closed : ∃ s rest, ts = ⟨.closing .round, s⟩ :: rest
    · obtain ⟨s, rest, rfl⟩ := closed
      rw [hr.close]
      exact .ok ⟨suffix_cons _ _, fun _ => forall_mem_nil _⟩
    · rw [hr.more fun s rest eq => closed ⟨s, rest, eq⟩]
      refine Answers.bind (entries ts) ?_
      rintro ⟨first, behind⟩ _ ⟨hb, hf⟩
      have one (named : Named ts) : ∀ b ∈ first.toList, G b :=
        fun b hm => hf named b (Option.mem_toList.mp hm)
      refine (entryEnd_sound behind).then hb fun goesOn left hl => ?_
      dsimp only
      split
      · split
        next shorter =>
          refine Answers.map ((ih left.length (by omega) left rfl).mono hl) ?_
          exact fun _ h => ⟨h.1, fun named => forall_mem_append.mpr ⟨one named, h.2 named⟩⟩
        next => exact .error (unexpected_blames _ hl)
      · exact .ok ⟨hl, one⟩

theorem baseClass_gives (ts : List Token) :
    Gives Named fin ts (fun base => ∀ b ∈ base, ∃ ks, Dotted b ks) (baseClass fin ts) := by
  rw [baseClass.eq_def]
  split
  next => exact .ok ⟨skipArgument_suffix 0 _, fun _ _ hb => by cases hb⟩
  next =>
    refine Answers.bind (dottedName_gives _ ts) ?_
    rintro ⟨name, rest⟩ _ ⟨sub, dotted⟩
    have one (named : Named ts) : ∀ b ∈ some name, ∃ ks, Dotted b ks := by
      rintro _ ⟨⟩
      exact dotted named
    dsimp only at sub ⊢
    split
    next inner _ =>
      exact .ok ⟨(behindClosing_suffix _ _ 0 inner).trans ((suffix_cons _ _).trans sub), one⟩
    next => exact .ok ⟨sub, one⟩

theorem baseClass_sound (ts : List Token) : Sound fin ts (baseClass fin ts) :=
  (baseClass_gives ts).sound

theorem paramEntry_sound (ts : List Token) : Sound fin ts (paramEntry fin ts) := by
  rw [paramEntry.eq_def]
  split
  case h_1 | h_2 =>
    split
    next rest =>
      refine Answers.bind ((typeBehind_sound isColon rest).mono
        ((suffix_cons _ _).trans (suffix_cons _ _))) ?_
      rintro ⟨_, left⟩ _ hl
      exact .ok hl
    next => exact .ok (suffix_cons _ _)
  case h_3 =>
    split
    next => exact .ok (suffix_cons _ _)
    next => exact refused _ (suffix_refl _)
  case h_4 rest =>
    refine (typeBehind_sound isColon rest).then (suffix_cons _ _) fun hint left hl => ?_
    dsimp only
    split
    next _ inner =>
      exact .ok ((skipArgument_suffix 0 inner).trans ((suffix_cons _ _).trans hl))
    next => exact .ok hl
  case h_5 => exact refused _ (suffix_refl _)

theorem params_sound (ts : List Token) : Sound fin ts (params fin ts) := by
  have entries : Gives Named fin ts (fun ps => ∀ p ∈ ps, True) (params fin ts) :=
    (entries_params fin).gives (fun ts => (paramEntry_sound ts).gives fun _ _ _ => trivial) ts
  exact entries.sound

theorem method_sound (decorators : List Decorator) (start : Span) (ts : List Token) :
    Sound fin ts (method fin decorators start ts) := by
  rw [method.eq_def]
  split
  next rest =>
    refine (params_sound rest).then ((suffix_cons _ _).trans (suffix_cons _ _))
      fun allParams behind hb => ?_
    refine (typeBehind_sound isArrow behind).then hb fun returns left hl => ?_
    dsimp only
    split
    next _ inner =>
      have sub := (suffix_cons _ inner).trans hl
      apply Answers.ok
      dsimp only
      split
      · exact (skipStatement_suffix inner).trans sub
      · exact (skipLine_suffix inner).trans sub
    next => exact refused _ hl
  next => exact refused _ (suffix_cons _ _)
  next => exact refused _ (suffix_refl _)

theorem fieldDefault_gives (ts : List Token) :
    (fieldDefault fin ts).2 <:+ ts ∧ (Named ts → ∀ v ∈ (fieldDefault fin ts).1, Spellable v) := by
  unfold fieldDefault
  split
  next inner =>
    obtain ⟨sub, spelled⟩ := defaultValue_gives inner
    exact ⟨sub.trans (suffix_cons _ _), fun named => spelled named.tail⟩
  next => exact ⟨suffix_refl _, fun _ _ hv => by cases hv⟩

theorem field_gives (ts : List Token) :
    Gives Named fin (⟨.word (.identifier name), s⟩ :: ts) (fun f => ∀ g ∈ f, NamedField g)
      (field fin name span (⟨.word (.identifier name), s⟩ :: ts)) := by
  rw [field_eq]
  refine (typeBehind_sound isColon ts).then (suffix_cons _ _) fun hint behind hb => ?_
  obtain ⟨left, spelled⟩ := fieldDefault_gives behind
  dsimp only
  unfold fieldEnd
  split
  · exact .error (unexpected_blames _ (left.trans hb))
  · refine Answers.map (endOfLine_within (left.trans hb)) fun _ hl => ⟨hl, fun named => ?_⟩
    dsimp only
    split
    next =>
      intro g hg
      cases hg
    next reserved =>
      rintro _ ⟨⟩
      exact ⟨named.head, eq_false_of_ne_true reserved, spelled (named.suffix hb)⟩

abbrev FieldsNamed (ms : Members) : Prop := ∀ f ∈ ms.fields, NamedField f

theorem member_gives (pending : List Decorator) (ts : List Token) :
    Gives Named fin ts (FieldsNamed ·.members) (member fin pending ts) := by
  have none {line : MemberLine} {left : List Token} (sub : left <:+ ts)
      (hl : line.members.fields = []) :
      Gives Named fin ts (FieldsNamed ·.members) (.ok (line, left)) := by
    refine .ok ⟨sub, fun _ => ?_⟩
    dsimp only
    rw [FieldsNamed, hl]
    exact forall_mem_nil _
  rw [member.eq_def]
  split
  case h_1 rest =>
    exact (decorator_sound rest).then (suffix_cons _ _) fun _ _ hl => none hl rfl
  case h_2 rest =>
    exact (method_sound pending _ rest).then (suffix_cons _ _) fun _ _ hl => none hl rfl
  case h_3 rest => exact none ((skipStatement_suffix rest).trans (suffix_cons _ _)) rfl
  case h_4 | h_5 | h_6 =>
    refine Answers.bind (endOfLine_within (suffix_cons _ _)) ?_
    exact fun _ _ hl => none hl rfl
  case h_7 rest =>
    split
    next inner =>
      split
      · refine Answers.bind ((method_sound pending _ inner).mono
          ((suffix_cons _ _).trans (suffix_cons _ _))) ?_
        exact fun _ _ hl => none hl rfl
      · exact refused _ (suffix_cons _ _)
    next =>
      refine Answers.bind (field_gives rest) ?_
      rintro ⟨f, left⟩ _ ⟨hl, hf⟩
      exact .ok ⟨hl, fun named g hg => hf named g (Option.mem_toList.mp hg)⟩
  case h_8 => exact refused _ (suffix_refl _)

theorem member_sound (pending : List Decorator) (ts : List Token) :
    Sound fin ts (member fin pending ts) :=
  (member_gives pending ts).sound

theorem classBody_gives (pending : List Decorator) (ts : List Token) :
    Gives Named fin ts FieldsNamed (classBody fin pending ts) := by
  induction hn : ts.length using Nat.strongRecOn generalizing ts pending with
  | ind size ih =>
    rw [classBody.eq_def]
    split
    next => exact .ok ⟨suffix_refl _, fun _ => forall_mem_nil _⟩
    next => exact .ok ⟨suffix_cons _ _, fun _ => forall_mem_nil _⟩
    next rest =>
      rw [length_cons] at hn
      exact (ih rest.length (by omega) pending rest rfl).mono (suffix_cons _ _)
    next =>
      refine Answers.bind (member_gives pending ts) ?_
      rintro ⟨line, behind⟩ _ ⟨hb, hf⟩
      dsimp only at hb hf ⊢
      split
      next shorter =>
        exact (ih behind.length (by omega) line.pending behind rfl).then hb
          fun _ _ hl hm => .ok ⟨hl, fun named => forall_mem_append.mpr ⟨hf named, hm named⟩⟩
      next => exact refused _ hb

theorem classMembers_gives (ts : List Token) : Gives Named fin ts FieldsNamed (classMembers fin ts) := by
  unfold classMembers
  split
  next => exact .ok ⟨suffix_refl _, fun _ => forall_mem_nil _⟩
  next =>
    exact (classBody_gives [] _).mono ((suffix_cons _ _).trans (suffix_cons _ _))
  next => exact .ok ⟨suffix_cons _ _, fun _ => forall_mem_nil _⟩
  next => exact Answers.map (member_gives [] ts) fun _ h => h

theorem classBases_gives (ts : List Token) :
    Gives Named fin ts (fun bases => ∀ b ∈ bases, ∃ ks, Dotted b ks) (classBases fin ts) := by
  unfold classBases
  split
  next inner =>
    exact ((entries_baseClasses fin).gives baseClass_gives inner).mono (suffix_cons _ _)
  next => exact .ok ⟨suffix_refl _, fun _ => forall_mem_nil _⟩

theorem classHead_gives (ts : List Token) :
    Gives Named fin ts (fun head => isName head.1 = true ∧ ∀ b ∈ head.2, ∃ ks, Dotted b ks)
      (classHead fin ts) := by
  unfold classHead
  split
  next rest =>
    refine (classBases_gives rest).then (suffix_cons _ _) fun bases behind hb dotted => ?_
    unfold headerEnd
    dsimp only at hb dotted ⊢
    split
    next =>
      exact .ok ⟨(suffix_cons _ _).trans hb, fun named => ⟨named.head, dotted named⟩⟩
    next => exact .error (unexpected_blames _ hb)
  next => exact refused _ (suffix_refl _)

theorem classDef_gives (decorators : List Decorator) (ts : List Token) :
    Gives Named fin ts NamedClass (classDef fin decorators span ts) := by
  rw [classDef_eq]
  refine Answers.bind (classHead_gives ts) ?_
  rintro ⟨⟨name, bases⟩, behind⟩ _ ⟨hb, head⟩
  refine Answers.map ((classMembers_gives behind).mono hb) ?_
  exact fun _ h => ⟨h.1, fun named => ⟨(head named).1, (head named).2, h.2 named⟩⟩

theorem classDef_sound (decorators : List Decorator) (ts : List Token) :
    Sound fin ts (classDef fin decorators span ts) :=
  (classDef_gives decorators ts).sound

theorem classesFrom_gives (pending : List Decorator) (ts : List Token) :
    Answers (Blames fin ts) (fun cs => Named ts → ∀ c ∈ cs, NamedClass c)
      (classesFrom fin pending ts) := by
  induction hn : ts.length using Nat.strongRecOn generalizing ts pending with
  | ind size ih =>
    have classes {pending : List Decorator} {rest : List Token} (sub : rest <:+ ts)
        (shorter : rest.length < ts.length) :
        Answers (Blames fin ts) (fun cs => Named ts → ∀ c ∈ cs, NamedClass c)
          (classesFrom fin pending rest) :=
      (ih rest.length (by omega) pending rest rfl).imp (fun _ hb => hb.mono sub)
        fun _ h named => h (named.suffix sub)
    rw [classesFrom.eq_def]
    split
    case h_1 => exact .ok fun _ => forall_mem_nil _
    case h_2 => exact classes (suffix_cons _ _) (Nat.lt_succ_self _)
    case h_3 span rest =>
      refine (decorator_sound rest).then (suffix_cons _ _) fun d behind hb => ?_
      dsimp only
      split
      next shorter => exact classes hb (Nat.lt_succ_of_le shorter)
      next => exact .error (unexpected_blames _ hb)
    case h_4 span rest =>
      refine (classDef_gives pending rest).then (suffix_cons _ _) fun c behind hb hc => ?_
      dsimp only
      split
      next shorter =>
        refine Answers.bind (classes hb (Nat.lt_succ_of_le shorter)) ?_
        exact fun _ _ hs => .ok fun named => forall_mem_cons.mpr ⟨hc named, hs named⟩
      next => exact .error (unexpected_blames _ hb)
    case h_5 t rest _ _ _ =>
      split
      · exact classes (skipStatement_suffix _) (Nat.lt_succ_of_le (length_skipStatement_le t rest))
      · exact .error (unexpected_blames _ (suffix_refl _))

/-- A list of tokens that spells no classes is refused for one of its tokens, or at its end. -/
theorem ofTokens_blames (h : Module.ofTokens ts = .error fault) :
    Blames (untilEnd .origin ts).2 (untilEnd .origin ts).1 fault := by
  have answers : Answers (Blames (untilEnd .origin ts).2 (untilEnd .origin ts).1) (fun _ => True)
      (Module.ofTokens ts) := by
    refine Answers.bind (classesFrom_gives [] _) ?_
    exact fun _ _ _ => .ok trivial
  exact answers.of_error h

end ViewBridge.Classes
