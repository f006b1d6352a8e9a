import ViewBridge.Proofs.Classes.CursorQuotes

namespace ViewBridge.Classes.Cursor

open ViewBridge.Cursor List

variable {all tail ts rest : List Token} {fin s : Span} {p q : Nat}
  {pending decorators : List Decorator} {name : String} {async : Option Span}

theorem hint_matches (h : Sees all fin tail p ts) :
    Matches (Stands all fin tail) (typeExpression all p) (hint fin ts) :=
  typeExpression_matches (quotes_quotedHint all) h

theorem typeBehind_matches {w : Word} [Mark (.word w)] {mark : Word → Bool}
    (hm : ∀ v, mark v = true ↔ v = w) (h : Sees all fin tail p ts) :
    Matches (Stands all fin tail) (typeBehind all (.word w) p) (Classes.typeBehind fin mark ts) := by
  unfold typeBehind
  rcases h.accept (.word w) with ⟨s, left, rfl, eq⟩ | ⟨other, eq⟩
  · rw [eq, pure_bind, Classes.typeBehind, if_pos ((hm w).mpr rfl)]
    exact (hint_matches h.next).build_map fun _ _ _ => ⟨_, rfl, rfl⟩
  · simp only [eq, pure_bind, Bool.false_eq_true, ↓reduceIte]
    unfold Classes.typeBehind
    split
    next v s left =>
      rw [if_neg fun hv => other (by rw [(hm v).mp hv]; rfl)]
      exact .ok (.at h)
    next => exact .ok (.at h)

theorem isColon_iff (w : Word) : isColon w = true ↔ w = .colon := by
  cases w <;> simp [isColon]

theorem isArrow_iff (w : Word) : isArrow w = true ↔ w = .arrow := by
  cases w <;> simp [isArrow]

theorem decorator_matches (h : Sees all fin [] p (⟨.word .at, s⟩ :: ts)) :
    Matches (Stands all fin []) (decorator all p) (Classes.decorator fin s ts) := by
  unfold decorator Classes.decorator
  rw [h.advance, pure_bind]
  refine (dottedName_matches _ h.next).stands fun name q behind _ hb => ?_
  dsimp only
  rcases hb.head_cases (.opening .round) with ⟨s', left, rfl⟩ | ⟨other, t, ht, hk⟩
  · obtain ⟨r, eq, hr⟩ := group_lands hb
    rw [hb.tokenAt, pure_bind]
    dsimp only
    rw [eq, pure_bind]
    refine (passLineBreak_matches hr).bind ?_
    exact fun _ _ _ hl => .ok (.at hl)
  · rw [tokenAt_eq ht, pure_bind]
    split
    next eq => exact absurd eq hk
    next =>
      split
      next => exact absurd rfl other
      next =>
        refine (passLineBreak_matches hb).bind ?_
        exact fun _ _ _ hl => .ok (.at hl)

theorem entryEnd_matches (h : Sees all fin tail p ts) :
    Matches (Stands all fin tail) (entryEnd all p) (Classes.entryEnd fin ts) := by
  unfold entryEnd
  rcases h.accept (.word .comma) with ⟨s, left, rfl, eq⟩ | ⟨last, eq⟩
  · rw [eq, pure_bind]
    exact .ok (.at h.next)
  · simp only [eq, pure_bind, Bool.false_eq_true, ↓reduceIte]
    rcases h.consume (.closing .round) .commaOrCloseParen with
      ⟨s, left, rfl, eq⟩ | ⟨bare, eq⟩
    · rw [eq, pure_bind]
      exact .ok (.at h.next)
    · rw [eq]
      unfold Classes.entryEnd
      split
      next => exact absurd rfl last
      next => exact absurd rfl bare
      next => exact (refuse_matches (R := Eq) h _).error_bind

theorem plainBase_matches (h : Sees all fin [] p ts) :
    Matches (Stands all fin []) (plainBase all p)
      (do
        let (name, rest) ← Classes.dottedName fin .baseClass ts
        match rest with
        | ⟨.opening .square, _⟩ :: rest => return (some name, behindGroup 0 rest)
        | _ => return (some name, rest)) := by
  unfold plainBase
  refine (dottedName_matches _ h).stands fun name q behind _ hb => ?_
  dsimp only
  rcases hb.head_cases (.opening .square) with ⟨s, left, rfl⟩ | ⟨other, t, ht, hk⟩
  · obtain ⟨r, eq, hr⟩ := group_lands hb
    rw [hb.tokenAt, pure_bind]
    dsimp only
    rw [eq, pure_bind]
    exact .ok (.at hr)
  · rw [tokenAt_eq ht, pure_bind]
    split
    next eq => exact absurd eq hk
    next =>
      split
      next => exact absurd rfl other
      next => exact .ok (.at hb)

theorem baseClass_matches (h : Sees all fin [] p ts) :
    Matches (Stands all fin []) (baseClass all p) (Classes.baseClass fin ts) := by
  have plain := plainBase_matches h
  unfold baseClass
  cases ts with
  | nil =>
    rw [kindAhead_eq 0 h.finish, pure_bind]
    exact plain
  | cons t rest =>
    obtain ⟨k, s⟩ := t
    rw [kindAhead_eq 0 h.head, pure_bind]
    cases k with
    | word w =>
      cases w with
      | identifier name =>
        dsimp only
        rcases h.next.head_cases (.word .equals) with ⟨s', left, rfl⟩ | ⟨other, t, ht, hk⟩
        · obtain ⟨q, eq, hq⟩ := skipArgument_lands 0 h
          rw [kindAhead_eq 1 h.next.head, pure_bind]
          dsimp only
          rw [eq, pure_bind]
          exact .ok (.at hq)
        · rw [kindAhead_eq 1 ht, pure_bind]
          split
          next eq => exact absurd eq hk
          next =>
            unfold Classes.baseClass
            split
            next same =>
              cases same
              exact absurd rfl other
            next => exact plain
      | _ => exact plain
    | _ => exact plain

theorem length_lt_of_entryEnd {goesOn : Bool}
    (h : Classes.entryEnd fin ts = .ok (goesOn, rest)) : rest.length < ts.length := by
  unfold Classes.entryEnd at h
  split at h
  next => cases h; exact Nat.lt_succ_self _
  next => cases h; exact Nat.lt_succ_self _
  next => cases h

theorem entries_matches {α : Type} {expected : Expected} {entry read}
    {run : Nat → Run (Option α × Nat)} (hr : Entries expected fin entry read)
    (sound : ∀ ts, Sound fin ts (entry ts))
    (he : ∀ {p ts}, Sees all fin tail p ts → Matches (Stands all fin tail) (run p) (entry ts))
    (h : Sees all fin tail p ts) : Matches (Stands all fin tail) (entries all run p) (read ts) := by
  induction hn : ts.length using Nat.strongRecOn generalizing ts p with
  | ind size ih =>
    rw [entries]
    rcases h.accept (.closing .round) with ⟨s, left, rfl, eq⟩ | ⟨inside, eq⟩
    · rw [eq, pure_bind, hr.close]
      exact .ok (.at h.next)
    · simp only [eq, pure_bind, Bool.false_eq_true, ↓reduceIte]
      rw [hr.more]
      · refine (he h).stands fun first q behind read hb => ?_
        have suffix := ((sound ts).of_ok read).length_le
        refine (entryEnd_matches hb).stands fun goesOn r left ended hl => ?_
        have shorter := length_lt_of_entryEnd ended
        dsimp only at suffix ⊢
        rw [if_pos (Nat.lt_of_lt_of_le shorter suffix)]
        split
        · exact (ih left.length (by omega) hl rfl).build_map fun _ _ _ => ⟨_, rfl, rfl⟩
        · exact .ok (.at hl)
      · rintro s rest rfl
        exact inside rfl

theorem starParam_matches {w : Word} (hw : w = .star ∨ w = .doubleStar)
    (h : Sees all fin tail p (⟨.word w, s⟩ :: ts)) : Matches (Stands all fin tail) (starParam all p)
      (Classes.paramEntry fin (⟨.word w, s⟩ :: ts)) := by
  have same : Classes.paramEntry fin (⟨.word w, s⟩ :: ts) =
      Classes.paramEntry fin (⟨.word .star, s⟩ :: ts) := by
    rcases hw with rfl | rfl <;> rfl
  have next := h.next
  unfold starParam
  rw [h.advance, pure_bind, same]
  cases ts with
  | nil =>
    dsimp only
    rw [next.tokenAt_finish, pure_bind]
    exact .ok (.at next)
  | cons u left =>
    obtain ⟨k, s⟩ := u
    dsimp only
    rw [next.tokenAt, pure_bind]
    cases k with
    | word w =>
      cases w with
      | identifier name =>
        dsimp only
        rw [next.advance, pure_bind]
        exact (typeBehind_matches isColon_iff next.next).build fun _ _ _ => ⟨_, rfl, rfl⟩
      | _ => exact .ok (.at next)
    | _ => exact .ok (.at next)

theorem plainParam_matches (h : Sees all fin tail p (⟨.word (.identifier name), s⟩ :: ts)) :
    Matches (Stands all fin tail) (plainParam all p)
      (Classes.paramEntry fin (⟨.word (.identifier name), s⟩ :: ts)) := by
  unfold plainParam
  rcases identifier_cases .parameterName h with ⟨_, _, _, same, eq⟩ | ⟨other, _⟩
  · cases same
    rw [eq, pure_bind, Classes.paramEntry]
    refine (typeBehind_matches isColon_iff h.next).stands fun type q behind _ hb => ?_
    dsimp only
    rcases hb.accept (.word .equals) with ⟨s', left, rfl, eq⟩ | ⟨other, eq⟩
    · obtain ⟨r, passed, hr⟩ := skipArgument_lands 0 hb.next
      rw [eq, pure_bind]
      dsimp only
      rw [if_pos rfl, passed, pure_bind]
      exact .ok (.at hr)
    · simp only [eq, pure_bind, Bool.false_eq_true, ↓reduceIte]
      split
      next => exact absurd rfl other
      next => exact .ok (.at hb)
  · exact absurd rfl (other _ _ _)

theorem plainParam_refused (h : Sees all fin tail p ts)
    (other : ∀ name s left, ts ≠ ⟨.word (.identifier name), s⟩ :: left) :
    Matches (Stands all fin tail) (plainParam all p)
      (.error (unexpected fin .parameterName ts)) := by
  unfold plainParam
  rcases identifier_cases .parameterName h with ⟨_, _, _, same, _⟩ | ⟨_, eq⟩
  · exact absurd same (other _ _ _)
  · rw [eq]
    exact (refuse_matches (R := Eq) h _).error_bind

theorem paramEntry_matches (h : Sees all fin tail p ts) :
    Matches (Stands all fin tail) (paramEntry all p) (Classes.paramEntry fin ts) := by
  unfold paramEntry
  cases ts with
  | nil =>
    rw [h.tokenAt_finish, pure_bind]
    exact plainParam_refused h (by simp)
  | cons t left =>
    obtain ⟨k, s⟩ := t
    rw [h.tokenAt, pure_bind]
    cases k with
    | word w =>
      cases w with
      | star => exact starParam_matches (.inl rfl) h
      | doubleStar => exact starParam_matches (.inr rfl) h
      | operator op =>
        dsimp only
        rw [Classes.paramEntry]
        split
        · rw [h.advance, pure_bind]
          exact .ok (.at h.next)
        · exact plainParam_refused h (by simp)
      | identifier name => exact plainParam_matches h
      | _ => exact plainParam_refused h (by simp)
    | _ => exact plainParam_refused h (by simp)

theorem methodBody_lands (h : Sees all fin [] p ts) :
    Lands all fin [] (methodBody all p)
      (if atLineEnd ts then Classes.skipStatement ts else Classes.skipLine ts) := by
  unfold methodBody
  rw [atLineBreak_eq h, pure_bind]
  rcases h.line_cases with ⟨rfl, _, eq⟩ | ⟨s, left, rfl, _, eq⟩ | ⟨⟨k, s⟩, left, rfl, hk, _, _⟩
  · rw [eq, pure_bind]
    exact skipBlock_lands h
  · rw [eq, pure_bind]
    exact skipBlock_lands h.next
  · have inline : atLineEnd (⟨k, s⟩ :: left) = false := by
      cases k with
      | newline => exact absurd rfl hk
      | _ => rfl
    simp only [inline, Bool.false_eq_true, ↓reduceIte]
    exact skipLine_lands h

theorem extentFrom_eq {t : Token} (start : Span) (h : Sees all fin [] p (t :: ts))
    (ht : t.kind.isText = true) (hq : Sees all fin [] q rest) (sub : rest <:+ ts) :
    extentFrom all start q = pure (Classes.extentFrom start (t :: ts) rest) := by
  have here := h.length
  have there := hq.length
  have shorter := sub.length_le
  simp only [length_cons, length_nil] at here there
  have read : all.take q = all.take p ++ t :: ts.take (ts.length - rest.length) := by
    have behind : q = p + (ts.length - rest.length + 1) := by omega
    rw [behind, take_add, h.drop_eq, cons_append, take_succ_cons,
      take_append_of_le_length (Nat.sub_le _ _)]
  have consumed : (t :: ts).take ((t :: ts).length - rest.length) =
      t :: ts.take (ts.length - rest.length) := by
    rw [length_cons, Nat.succ_sub shorter, take_succ_cons]
  unfold extentFrom Classes.extentFrom consumedStop
  rw [slice_eq (Nat.zero_le q) (by omega), pure_bind, drop_zero, read, consumed,
    filter_append, filter_cons_of_pos (p := fun t : Token => t.kind.isText) ht]
  simp only [getLast?_append, getLast?_cons, Option.some_or, Option.map_some,
    Option.getD_some]

theorem keptParams_eq (isStatic : Bool) (params : List Param) :
    keptParams isStatic params = pure (if isStatic then params else params.drop 1) := by
  cases isStatic with
  | true => rfl
  | false =>
    cases params with
    | nil => rfl
    | cons => rfl

theorem method_matches (h : Sees all fin [] p (⟨.word .defKeyword, s⟩ :: ts)) :
    Matches (Stands all fin []) (method all decorators async p)
      (Classes.method fin decorators (async.getD s) ts) := by
  have start : ((decorators.head?.map (·.span)).or async).getD s =
      (decorators.head?.map (·.span)).getD (async.getD s) := by
    cases decorators <;> rfl
  unfold method
  rw [h.advance, pure_bind]
  dsimp only
  rcases identifier_cases .methodName h.next with ⟨name, span, left, rfl, eq⟩ | ⟨other, eq⟩
  · rw [eq, pure_bind]
    have named := h.next
    dsimp only
    rcases named.next.consume (.opening .round) .openParenAfterMethod with
      ⟨s', inner, rfl, eq⟩ | ⟨bare, eq⟩
    · rw [eq, pure_bind, Classes.method]
      refine (entries_matches (entries_params fin) paramEntry_sound paramEntry_matches
        named.next.next).bind ?_
      rintro ⟨params, q⟩ ⟨_, behind⟩ read ⟨hb⟩
      refine (typeBehind_matches isArrow_iff hb).stands fun returns q left returned hl => ?_
      have sub := ((typeBehind_sound isArrow behind).of_ok returned).trans
        ((params_sound inner).of_ok read)
      dsimp only at sub ⊢
      rcases hl.consume (.word .colon) .colonAfterSignature with
        ⟨s'', body, rfl, eq⟩ | ⟨bare, eq⟩
      · obtain ⟨r, passed, hr⟩ := methodBody_lands hl.next
        rw [eq, pure_bind]
        dsimp only
        have tail : (if atLineEnd body then Classes.skipStatement body
            else Classes.skipLine body) <:+ ⟨.opening .round, s'⟩ :: inner := by
          have inside := (suffix_cons _ body).trans
            (sub.trans (suffix_cons ⟨.opening .round, s'⟩ inner))
          split
          · exact (skipStatement_suffix body).trans inside
          · exact (skipLine_suffix body).trans inside
        rw [passed, pure_bind, extentFrom_eq _ named rfl hr tail, pure_bind, keptParams_eq,
          pure_bind, start]
        exact .ok (.at hr)
      · rw [eq]
        split
        next => exact absurd rfl bare
        next => exact (refuse_matches (R := Eq) hl _).error_bind
    · rw [eq]
      unfold Classes.method
      split
      next same =>
        cases same
        exact absurd rfl bare
      next same =>
        cases same
        exact (refuse_matches (R := Eq) named.next _).error_bind
      next same => exact absurd rfl (same _ _ _)
  · rw [eq]
    unfold Classes.method
    split
    next => exact absurd rfl (other _ _ _)
    next => exact absurd rfl (other _ _ _)
    next => exact (refuse_matches (R := Eq) h.next _).error_bind

theorem fieldDefault_eq (h : Sees all fin tail p ts) :
    ∃ q, fieldDefault all p = pure ((Classes.fieldDefault fin ts).1, q) ∧
      Sees all fin tail q (Classes.fieldDefault fin ts).2 := by
  unfold fieldDefault
  rcases h.accept (.word .equals) with ⟨s, left, rfl, eq⟩ | ⟨other, eq⟩
  · rw [eq, pure_bind]
    exact defaultValue_eq h.next
  · simp only [eq, pure_bind, Bool.false_eq_true, ↓reduceIte]
    unfold Classes.fieldDefault
    split
    next => exact absurd rfl other
    next => exact ⟨p, rfl, h⟩

theorem field_matches (h : Sees all fin [] p (⟨.word (.identifier name), s⟩ :: ts)) :
    Matches (Stands all fin []) (field all p)
      (Classes.field fin name s (⟨.word (.identifier name), s⟩ :: ts)) := by
  unfold field
  rcases identifier_cases .memberDeclaration h with ⟨_, _, _, same, eq⟩ | ⟨other, _⟩
  · cases same
    rw [eq, pure_bind, field_eq]
    refine (typeBehind_matches isColon_iff h.next).stands fun type q behind read hb => ?_
    obtain ⟨r, eq, hr⟩ := fieldDefault_eq hb
    have sub : (Classes.fieldDefault fin behind).2 <:+ ts :=
      (fieldDefault_gives behind).1.trans ((typeBehind_sound isColon ts).of_ok read)
    dsimp only
    rw [eq, pure_bind]
    dsimp only
    rw [atLineBreak_eq hr, pure_bind]
    unfold fieldEnd
    split
    · exact refuse_matches hr _
    · rw [extentFrom_eq _ h rfl hr sub, pure_bind]
      refine (passLineBreak_matches hr).bind ?_
      intro r left _ hl
      dsimp only
      split
      · exact .ok (.at hl)
      · exact .ok (.at hl)
  · exact absurd rfl (other _ _ _)

theorem methodLine_matches (h : Sees all fin [] p (⟨.word .defKeyword, s⟩ :: ts)) :
    Matches (Stands all fin []) (methodLine all pending async p)
      (do
        let (m, rest) ← Classes.method fin pending (async.getD s) ts
        return ({ members := { methods := [m] } }, rest)) := by
  exact (method_matches h).build fun _ _ _ => ⟨_, rfl, rfl⟩

theorem fieldLine_matches (h : Sees all fin [] p (⟨.word (.identifier name), s⟩ :: ts)) :
    Matches (Stands all fin []) (fieldLine all p)
      (do
        let (f, rest) ← Classes.field fin name s (⟨.word (.identifier name), s⟩ :: ts)
        return ({ members := { fields := f.toList } }, rest)) := by
  exact (field_matches h).build fun _ _ _ => ⟨_, rfl, rfl⟩

/-- A line that starts with a name holds a field, or a method that waits. -/
theorem member_name_matches (h : Sees all fin [] p (⟨.word (.identifier name), s⟩ :: ts)) :
    Matches (Stands all fin [])
      (do
        if name = "async" then
          match ← kindAhead all p 1 with
          | .word .defKeyword =>
            let (t, p) ← advance all p
            methodLine all pending (some t.span) p
          | _ => fieldLine all p
        else fieldLine all p)
      (Classes.member fin pending (⟨.word (.identifier name), s⟩ :: ts)) := by
  have line := fieldLine_matches h
  rcases h.next.head_cases (.word .defKeyword) with ⟨s', left, rfl⟩ | ⟨other, t, ht, hk⟩
  · rw [kindAhead_eq 1 h.next.head, h.advance, Classes.member]
    by_cases hname : name = "async"
    · rw [if_pos hname, if_pos hname]
      exact methodLine_matches h.next
    · rw [if_neg hname, if_neg hname]
      exact line
  · have own : Classes.member fin pending (⟨.word (.identifier name), s⟩ :: ts) =
        (do
          let (f, rest) ← Classes.field fin name s (⟨.word (.identifier name), s⟩ :: ts)
          return ({ members := { fields := f.toList } }, rest)) := by
      rw [Classes.member]
      rintro s' left rfl
      exact other rfl
    rw [kindAhead_eq 1 ht, own]
    split
    · rw [pure_bind]
      split
      next eq => exact absurd eq hk
      next => exact line
    · exact line

theorem member_matches (pending : List Decorator) (h : Sees all fin [] p ts) :
    Matches (Stands all fin []) (member all pending p) (Classes.member fin pending ts) := by
  unfold member
  cases ts with
  | nil =>
    rw [h.tokenAt_finish, pure_bind]
    exact refuse_matches h _
  | cons t rest =>
    have next := h.next
    obtain ⟨k, s⟩ := t
    rw [h.tokenAt, pure_bind]
    cases k with
    | word w =>
      cases w with
      | «at» =>
        exact (decorator_matches h).build fun _ _ _ => ⟨_, rfl, rfl⟩
      | defKeyword => exact methodLine_matches h
      | classKeyword =>
        obtain ⟨q, eq, hq⟩ := skipStatement_lands h
        dsimp only
        rw [eq, pure_bind]
        exact .ok (.at hq)
      | passKeyword | ellipsis | string =>
        dsimp only
        rw [h.advance, pure_bind]
        refine (passLineBreak_matches next).bind ?_
        exact fun _ _ _ hl => .ok (.at hl)
      | identifier name => exact member_name_matches h
      | _ => exact refuse_matches h _
    | _ => exact refuse_matches h _

/-- Reading a line of a class body takes at least one token. -/
theorem length_lt_of_member {line : MemberLine}
    (h : Classes.member fin pending ts = .ok (line, rest)) : rest.length < ts.length := by
  have behind {α : Type} {a : α} {t : Token} {left : List Token}
      {x : Except Fault (α × List Token)} (sound : Sound fin left x) (read : x = .ok (a, rest)) :
      rest.length < (t :: left).length :=
    Nat.lt_succ_of_le (sound.of_ok read).length_le
  rw [Classes.member.eq_def] at h
  split at h
  case h_1 left =>
    obtain ⟨⟨d, _⟩, read, hr⟩ := exists_of_bind h
    cases hr
    exact behind (decorator_sound left) read
  case h_2 left =>
    obtain ⟨⟨m, _⟩, read, hr⟩ := exists_of_bind h
    cases hr
    exact behind (method_sound pending _ left) read
  case h_3 left =>
    cases h
    exact Nat.lt_succ_of_le (skipStatement_suffix left).length_le
  case h_4 left | h_5 left | h_6 left =>
    obtain ⟨_, read, hr⟩ := exists_of_bind h
    cases hr
    exact Nat.lt_succ_of_le ((endOfLine_sound left).of_ok read).length_le
  case h_7 left =>
    split at h
    next inner =>
      split at h
      · obtain ⟨⟨m, _⟩, read, hr⟩ := exists_of_bind h
        cases hr
        exact Nat.lt_succ_of_lt (behind (method_sound pending _ inner) read)
      · cases h
    next =>
      obtain ⟨⟨f, _⟩, read, hr⟩ := exists_of_bind h
      cases hr
      rw [field_eq] at read
      obtain ⟨⟨hint, behind⟩, typed, ended⟩ := exists_of_bind read
      have sub : (Classes.fieldDefault fin behind).2 <:+ left :=
        (fieldDefault_gives behind).1.trans ((typeBehind_sound isColon left).of_ok typed)
      unfold fieldEnd at ended
      split at ended
      · cases ended
      · obtain ⟨_, passed, hr⟩ := exists_of_map ended
        cases hr
        exact Nat.lt_succ_of_le (((endOfLine_sound _).of_ok passed).trans sub).length_le
  case h_8 => cases h

theorem classBody_line_matches (pending : List Decorator) (h : Sees all fin [] p ts)
    (ih : ∀ {q rest} pending, Sees all fin [] q rest → rest.length < ts.length →
      Matches (Stands all fin []) (classBody all pending q) (Classes.classBody fin pending rest)) :
    Matches (Stands all fin [])
      (do
        let (line, p) ← member all pending p
        let (members, p) ← classBody all line.pending p
        return (line.members.append members, p))
      (do
        let (line, rest) ← Classes.member fin pending ts
        if rest.length < ts.length then
          let (members, rest) ← Classes.classBody fin line.pending rest
          return (line.members.append members, rest)
        else throw (unexpected fin .memberDeclaration rest)) := by
  refine (member_matches pending h).stands fun line q behind read hb => ?_
  have shorter := length_lt_of_member read
  dsimp only
  rw [if_pos shorter]
  exact (ih line.pending hb shorter).build fun _ _ _ => ⟨_, rfl, rfl⟩

theorem classBody_matches (pending : List Decorator) (h : Sees all fin [] p ts) :
    Matches (Stands all fin []) (classBody all pending p) (Classes.classBody fin pending ts) := by
  induction hn : ts.length using Nat.strongRecOn generalizing ts p pending with
  | ind size ih =>
    have line := classBody_line_matches pending h fun _ hr shorter =>
      ih _ (hn ▸ shorter) _ hr rfl
    rw [classBody]
    cases ts with
    | nil =>
      rw [h.tokenAt_finish, pure_bind, Classes.classBody]
      exact .ok (.at h)
    | cons t rest =>
      have next := h.next
      have plain := h.plain t mem_cons_self
      obtain ⟨k, s⟩ := t
      rw [h.tokenAt, pure_bind, Classes.classBody.eq_def]
      cases k with
      | dedent =>
        dsimp only
        rw [h.advance, pure_bind]
        exact .ok (.at next)
      | newline =>
        rw [length_cons] at hn
        dsimp only
        rw [h.advance, pure_bind]
        exact ih rest.length (by omega) pending next rfl
      | eof => exact absurd rfl plain
      | _ => exact line

theorem classMembers_matches (h : Sees all fin [] p ts) :
    Matches (Stands all fin []) (classMembers all p) (Classes.classMembers fin ts) := by
  unfold classMembers
  rw [atLineBreak_eq h, pure_bind]
  rcases h.line_cases with ⟨rfl, _, eq⟩ | ⟨s, left, rfl, _, eq⟩ | ⟨⟨k, s⟩, left, rfl, hk, _, _⟩
  · rcases h.accept .indent with ⟨_, _, none, _⟩ | ⟨_, bare⟩
    · cases none
    · simp only [atLineEnd, ↓reduceIte, eq, bare, pure_bind, Bool.false_eq_true]
      exact .ok (.at h)
  · rcases h.next.accept .indent with ⟨_, inner, rfl, indented⟩ | ⟨other, bare⟩
    · simp only [atLineEnd, ↓reduceIte, eq, indented, pure_bind]
      exact classBody_matches [] h.next.next
    · simp only [atLineEnd, ↓reduceIte, eq, bare, pure_bind, Bool.false_eq_true]
      unfold Classes.classMembers
      split
      next same => cases same
      next same =>
        cases same
        exact absurd rfl other
      next same =>
        cases same
        exact .ok (.at h.next)
      next same => exact absurd rfl (same _ _)
  · have one : Matches (Stands all fin [])
        (do
          let (line, p) ← member all [] p
          return (line.members, p))
        ((Classes.member fin [] (⟨k, s⟩ :: left)).map fun (line, rest) => (line.members, rest)) := by
      exact (member_matches [] h).build_map fun _ _ _ => ⟨_, rfl, rfl⟩
    cases k with
    | newline => exact absurd rfl hk
    | _ => exact one

theorem classBases_matches (h : Sees all fin [] p ts) :
    Matches (Stands all fin []) (classBases all p) (Classes.classBases fin ts) := by
  unfold classBases
  rcases h.accept (.opening .round) with ⟨s, left, rfl, eq⟩ | ⟨other, eq⟩
  · rw [eq, pure_bind, Classes.classBases]
    exact entries_matches (entries_baseClasses fin) baseClass_sound baseClass_matches h.next
  · simp only [eq, pure_bind, Bool.false_eq_true, ↓reduceIte]
    unfold Classes.classBases
    split
    next => exact absurd rfl other
    next => exact .ok (.at h)

theorem classDef_matches (h : Sees all fin [] p (⟨.word .classKeyword, s⟩ :: ts)) :
    Matches (Stands all fin []) (classDef all decorators p)
      (Classes.classDef fin decorators s ts) := by
  unfold classDef
  rw [h.advance, pure_bind, classDef_eq]
  dsimp only
  rcases identifier_cases .className h.next with ⟨name, _, left, rfl, eq⟩ | ⟨other, eq⟩
  · rw [eq, pure_bind]
    show Matches _ _ ((Classes.classBases fin left >>= headerEnd fin name) >>= _)
    rw [bind_assoc]
    refine (classBases_matches h.next.next).stands fun bases q behind _ hb => ?_
    dsimp only
    rcases hb.consume (.word .colon) .colonAfterClass with ⟨_, left, rfl, eq⟩ | ⟨bare, eq⟩
    · rw [eq, pure_bind]
      exact (classMembers_matches hb.next).build_map fun _ _ _ => ⟨_, rfl, rfl⟩
    · rw [eq]
      unfold headerEnd
      dsimp only
      split
      next => exact absurd rfl bare
      next => exact (refuse_matches (R := Eq) hb _).error_bind
  · rw [eq]
    unfold classHead
    split
    next => exact absurd rfl (other _ _ _)
    next => exact (refuse_matches (R := Eq) h.next _).error_bind

theorem isFunction_eq {t : Token} (h : Sees all fin [] p (t :: ts)) :
    isFunction all p = pure (Classes.isFunction (t :: ts)) := by
  obtain ⟨k, s⟩ := t
  unfold isFunction
  rw [h.tokenAt, pure_bind]
  cases k with
  | word w =>
    cases w with
    | identifier name =>
      dsimp only
      rcases h.next.head_cases (.word .defKeyword) with ⟨s', left, rfl⟩ | ⟨other, t, ht, hk⟩
      · rw [kindAhead_eq 1 h.next.head, Classes.isFunction]
        split
        next hname =>
          rw [beq_iff_eq.mpr hname]
          rfl
        next hname => rw [beq_false_of_ne hname]
      · have plain : Classes.isFunction (⟨.word (.identifier name), s⟩ :: ts) = false := by
          unfold Classes.isFunction
          split
          next same => cases same
          next same =>
            cases same
            exact absurd rfl other
          next => rfl
        rw [kindAhead_eq 1 ht, plain, pure_bind]
        split
        · split
          next eq => exact absurd eq hk
          next => rfl
        · rfl
    | _ => rfl
  | _ => rfl

theorem classesFrom_matches (pending : List Decorator) (h : Sees all fin [] p ts) :
    Matches Eq (classesFrom all pending p) (Classes.classesFrom fin pending ts) := by
  induction hn : ts.length using Nat.strongRecOn generalizing ts p pending with
  | ind size ih =>
    rw [classesFrom]
    cases ts with
    | nil =>
      rw [h.tokenAt_finish, pure_bind, Classes.classesFrom]
      exact .ok rfl
    | cons t rest =>
      have next := h.next
      have plain := h.plain t mem_cons_self
      have classes {q : Nat} {left : List Token} (pending : List Decorator)
          (hl : Sees all fin [] q left) (shorter : left.length ≤ rest.length) :
          Matches Eq (classesFrom all pending q) (Classes.classesFrom fin pending left) := by
        rw [length_cons] at hn
        exact ih left.length (by omega) pending hl rfl
      have statement : Matches Eq
          (do
            let function ← isFunction all p
            if function || pending.isEmpty then
              let p ← skipStatement all p
              classesFrom all [] p
            else refuse all p .classOrFunction)
          (if Classes.isFunction (t :: rest) || pending.isEmpty then
            Classes.classesFrom fin [] (Classes.skipStatement (t :: rest))
          else .error (unexpected fin .classOrFunction (t :: rest))) := by
        rw [isFunction_eq h, pure_bind]
        split
        · obtain ⟨q, eq, hq⟩ := skipStatement_lands h
          rw [eq, pure_bind]
          exact classes [] hq (length_skipStatement_le t rest)
        · exact refuse_matches h _
      obtain ⟨k, s⟩ := t
      rw [h.tokenAt, pure_bind, Classes.classesFrom.eq_def]
      cases k with
      | eof => exact absurd rfl plain
      | newline =>
        dsimp only
        rw [h.advance, pure_bind]
        exact classes pending next (Nat.le_refl _)
      | word w =>
        cases w with
        | «at» =>
          refine (decorator_matches h).stands fun d q left read hl => ?_
          have shorter := ((decorator_sound rest).of_ok read).length_le
          dsimp only at shorter ⊢
          rw [if_pos shorter]
          exact classes _ hl shorter
        | classKeyword =>
          refine (classDef_matches h).stands fun c q left read hl => ?_
          have shorter := ((classDef_sound pending rest).of_ok read).length_le
          dsimp only at shorter ⊢
          rw [if_pos shorter]
          refine (classes [] hl shorter).bind ?_
          rintro _ others _ rfl
          exact .ok rfl
        | _ => exact statement
      | _ => exact statement

theorem parse_upToEnd (ts : List Token) :
    parse (upToEnd ts) = Run.of (Module.ofTokens ts) := by
  unfold parse
  rw [closed_upToEnd]
  refine Matches.run_eq ((classesFrom_matches [] (sees_upToEnd ts)).bind ?_)
  rintro _ classes _ rfl
  exact .ok rfl

end ViewBridge.Classes.Cursor
