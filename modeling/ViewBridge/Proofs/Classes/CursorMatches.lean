import ViewBridge.Proofs.Classes.Cursor

namespace ViewBridge.Classes.Cursor

open ViewBridge.Cursor List

variable {all tail ts rest : List Token} {fin s : Span} {p size : Nat} {name : String}

theorem lineEnd_lands (h : Sees all fin tail p ts) :
    Lands all fin tail (lineEnd all p) (Classes.lineEnd ts) := by
  induction ts generalizing p with
  | nil =>
    rw [lineEnd, atLineBreak_eq h, pure_bind]
    exact ⟨p, rfl, h⟩
  | cons t rest ih =>
    obtain ⟨k, s⟩ := t
    rw [lineEnd, atLineBreak_eq h, pure_bind]
    cases k with
    | newline => exact ⟨p, rfl, h⟩
    | _ =>
      simp only [atLineEnd, Bool.false_eq_true, ↓reduceIte, h.advance, pure_bind]
      exact ih h.next

theorem skipLine_lands (h : Sees all fin tail p ts) :
    Lands all fin tail (skipLine all p) (Classes.skipLine ts) := by
  have ended := atLineEnd_lineEnd ts
  obtain ⟨q, eq, hq⟩ := lineEnd_lands h
  unfold skipLine Classes.skipLine
  rw [eq, pure_bind]
  generalize Classes.lineEnd ts = us at ended hq
  rcases hq.accept .newline with ⟨s, left, rfl, eq⟩ | ⟨none, eq⟩
  · simp only [eq, pure_bind]
    exact ⟨q + 1, rfl, hq.next⟩
  · simp only [eq, pure_bind]
    cases us with
    | nil => exact ⟨q, rfl, hq⟩
    | cons t us =>
      obtain ⟨k, s⟩ := t
      cases k with
      | newline => exact absurd rfl none
      | _ => cases ended

theorem skipBlockLines_lands (depth : Nat) (h : Sees all fin [] p ts) :
    Lands all fin [] (skipBlockLines all (depth + 1) p) (behindBlock depth ts) := by
  induction ts generalizing depth p with
  | nil =>
    rw [skipBlockLines, if_neg (Nat.succ_ne_zero depth), h.advance_finish, pure_bind]
    exact ⟨p, rfl, h⟩
  | cons t rest ih =>
    obtain ⟨k, s⟩ := t
    rw [skipBlockLines, if_neg (Nat.succ_ne_zero depth), h.advance, pure_bind]
    cases k with
    | indent => exact ih (depth + 1) h.next
    | dedent =>
      cases depth with
      | zero =>
        simp only [lower, pure_bind]
        rw [skipBlockLines, if_pos rfl]
        exact ⟨p + 1, rfl, h.next⟩
      | succ depth =>
        simp only [lower, pure_bind]
        exact ih depth h.next
    | eof => exact absurd rfl (h.plain _ mem_cons_self)
    | _ => exact ih depth h.next

theorem skipBlock_lands (h : Sees all fin [] p ts) :
    Lands all fin [] (skipBlock all p) (Classes.skipBlock ts) := by
  unfold skipBlock
  rcases h.accept .indent with ⟨s, left, rfl, eq⟩ | ⟨none, eq⟩
  · rw [eq, pure_bind]
    exact skipBlockLines_lands 0 h.next
  · simp only [eq, pure_bind, Bool.false_eq_true, ↓reduceIte]
    unfold Classes.skipBlock
    split
    next => exact absurd rfl none
    next => exact ⟨p, rfl, h⟩

theorem skipStatement_lands (h : Sees all fin [] p ts) :
    Lands all fin [] (skipStatement all p) (Classes.skipStatement ts) := by
  obtain ⟨q, eq, behind⟩ := skipLine_lands h
  unfold skipStatement
  rw [eq, pure_bind]
  exact skipBlock_lands behind

theorem skipArgument_lands (depth : Nat) (h : Sees all fin tail p ts) :
    Lands all fin tail (skipArgument all depth p) (Classes.skipArgument depth ts) := by
  induction ts generalizing depth p with
  | nil =>
    rw [skipArgument, h.tokenAt_finish, pure_bind, argumentDepth, pure_bind]
    exact ⟨p, rfl, h⟩
  | cons t rest ih =>
    obtain ⟨k, s⟩ := t
    rw [skipArgument, h.tokenAt, pure_bind, h.advance]
    unfold Classes.skipArgument
    cases k with
    | newline =>
      rw [argumentDepth, pure_bind]
      exact ⟨p, rfl, h⟩
    | opening b =>
      simp only [argumentDepth, pure_bind]
      exact ih (depth + 1) h.next
    | closing b =>
      cases depth with
      | zero =>
        simp only [argumentDepth, ↓reduceIte, pure_bind]
        exact ⟨p, rfl, h⟩
      | succ depth =>
        simp only [argumentDepth, Nat.succ_ne_zero, ↓reduceIte, lower, pure_bind]
        exact ih depth h.next
    | eof => exact absurd rfl (h.plain _ mem_cons_self)
    | word w =>
      cases w with
      | comma =>
        dsimp only [argumentDepth]
        split
        · rw [pure_bind]
          exact ⟨p, rfl, h⟩
        · rw [pure_bind]
          exact ih depth h.next
      | _ =>
        simp only [argumentDepth, pure_bind]
        exact ih depth h.next
    | _ =>
      simp only [argumentDepth, pure_bind]
      exact ih depth h.next

theorem skipGroup_lands (depth : Nat) (h : Sees all fin [] p ts) :
    Lands all fin [] (skipGroup all (depth + 1) p) (behindGroup depth ts) := by
  induction ts generalizing depth p with
  | nil =>
    rw [skipGroup, h.advance_finish, pure_bind]
    exact ⟨p, rfl, h⟩
  | cons t rest ih =>
    obtain ⟨k, s⟩ := t
    rw [skipGroup, h.advance, pure_bind]
    cases k with
    | opening b => exact ih (depth + 1) h.next
    | closing b =>
      cases depth with
      | zero => exact ⟨p + 1, rfl, h.next⟩
      | succ depth => exact ih depth h.next
    | eof => exact absurd rfl (h.plain _ mem_cons_self)
    | _ => exact ih depth h.next

theorem group_lands {b : Bracket} (h : Sees all fin [] p (⟨.opening b, s⟩ :: ts)) :
    Lands all fin [] (skipGroup all 0 p) (behindGroup 0 ts) := by
  rw [skipGroup, h.advance, pure_bind]
  exact skipGroup_lands 0 h.next

theorem identifier_cases (expected : Expected) (h : Sees all fin tail p ts) :
    (∃ name s left, ts = ⟨.word (.identifier name), s⟩ :: left ∧
        identifier all expected p = pure ((name, s), p + 1)) ∨
      (∀ name s left, ts ≠ ⟨.word (.identifier name), s⟩ :: left) ∧
        identifier all expected p = refuse all p expected := by
  unfold identifier
  cases ts with
  | nil =>
    rw [h.tokenAt_finish, pure_bind]
    exact .inr ⟨nofun, rfl⟩
  | cons t left =>
    obtain ⟨k, s⟩ := t
    rw [h.tokenAt, pure_bind]
    cases k with
    | word w =>
      cases w with
      | identifier name =>
        dsimp only
        rw [h.advance, pure_bind]
        exact .inl ⟨name, s, left, rfl, rfl⟩
      | _ => exact .inr ⟨nofun, rfl⟩
    | _ => exact .inr ⟨nofun, rfl⟩

theorem dottedTail_matches (h : Sees all fin tail p ts) :
    Matches (Stands all fin tail) (dottedTail all p) (Classes.dottedTail fin ts) := by
  induction hn : ts.length using Nat.strongRecOn generalizing ts p with
  | ind size ih =>
    rw [dottedTail, Classes.dottedTail.eq_def]
    rcases h.accept (.word .dot) with ⟨s, left, rfl, eq⟩ | ⟨last, eq⟩
    · rw [eq, pure_bind]
      simp only [↓reduceIte]
      rcases identifier_cases .nameAfterDot h.next with ⟨name, s', rest, rfl, eq⟩ | ⟨other, eq⟩
      · simp only [length_cons] at hn
        rw [eq, pure_bind]
        exact (ih rest.length (by omega) h.next.next rfl).build fun _ _ _ => ⟨_, rfl, rfl⟩
      · rw [eq]
        split
        next eq =>
          cases eq
          exact absurd rfl (other _ _ _)
        next eq =>
          cases eq
          exact (refuse_matches (R := Eq) h.next _).error_bind
        next bare => exact absurd rfl (bare _ _)
    · simp only [eq, pure_bind, Bool.false_eq_true, ↓reduceIte]
      split
      next => exact absurd rfl last
      next => exact absurd rfl last
      next => exact .ok (.at h)

theorem dottedName_matches (expected : Expected) (h : Sees all fin tail p ts) :
    Matches (Stands all fin tail) (dottedName all expected p) (Classes.dottedName fin expected ts) := by
  unfold dottedName Classes.dottedName
  rcases identifier_cases expected h with ⟨name, s, left, rfl, eq⟩ | ⟨other, eq⟩
  · rw [eq, pure_bind]
    exact (dottedTail_matches h.next).build fun _ _ _ => ⟨_, rfl, rfl⟩
  · rw [eq]
    split
    next => exact absurd rfl (other _ _ _)
    next => exact (refuse_matches (R := Eq) h _).error_bind

theorem dottedName_bind {α : Type} {k : String × Nat → Run α} (expected : Expected)
    (h : Sees all fin tail p (⟨.word (.identifier name), s⟩ :: ts)) :
    dottedName all expected p >>= k =
      dottedTail all (p + 1) >>= fun r => k (name ++ r.1, r.2) := by
  rcases identifier_cases expected h with ⟨_, _, _, same, eq⟩ | ⟨other, _⟩
  · cases same
    unfold dottedName
    simp only [eq, pure_bind, bind_assoc]
  · exact absurd rfl (other _ _ _)

instance : LawfulPositions Word where
  wholeName_matches _ h := (dottedTail_matches h).build fun _ _ _ => ⟨_, rfl, rfl⟩

theorem plainValue_matches (h : Sees all fin tail p ts) :
    Matches (Stands all fin tail) (plainValue all p) (Classes.plainValue fin ts) :=
  bareTuple_matches atom_matches (fun read => Nat.le_of_lt (length_lt_of_atom read)) h

/-- A default is read, or else the line is passed from where the default would start. -/
theorem defaultValue_eq (h : Sees all fin tail p ts) :
    ∃ q, defaultValue all p = pure ((Classes.defaultValue fin ts).1, q) ∧
      Sees all fin tail q (Classes.defaultValue fin ts).2 := by
  obtain ⟨q, passed, behind⟩ := lineEnd_lands h
  have none : noDefault all p = pure (none, q) := by
    unfold noDefault
    rw [passed, pure_bind]
  unfold defaultValue Classes.defaultValue
  rcases (plainValue_matches h).attempt with ⟨_, _, eq, read, ⟨hr⟩⟩ | ⟨fault, eq, read⟩
  · simp only [eq, read, pure_bind, atLineBreak_eq hr]
    split
    · exact ⟨_, rfl, hr⟩
    · exact ⟨q, none, behind⟩
  · simp only [eq, read, pure_bind]
    exact ⟨q, none, behind⟩

section Types

variable {reads : String → TypeHint}

theorem typeExpression_sound (ts : List Token) : Sound fin ts (Classes.typeExpression reads fin ts) :=
  ((typesSound (ts.length + 1)).expression ts (Nat.lt_succ_self _)).imp (fun _ hb => hb) fun _ h => h.suffix

theorem typeList_sound (ts : List Token) : Sound fin ts (Classes.typeList reads fin ts) :=
  ((typesSound (ts.length + 1)).list ts (Nat.lt_succ_self _)).imp (fun _ hb => hb)
    fun _ ⟨_, h⟩ => (suffix_cons _ _).trans h.suffix

/-- Reading a member of a union takes at least one token. -/
theorem length_lt_of_typeMember {type : TypeHint}
    (h : Classes.typeMember reads fin ts = .ok (type, rest)) : rest.length < ts.length := by
  have listed {left behind : List Token} {t : Token} {make : List TypeHint → TypeHint}
      (sub : left <:+ behind)
      (hl : ((Classes.typeList reads fin left).bind fun r => .ok (make r.1, r.2)) =
        .ok (type, rest)) : rest.length < (t :: behind).length := by
    obtain ⟨items, read, hr⟩ := exists_of_bind hl
    cases hr
    have suffix := (((typeList_sound left).of_ok read).trans sub).length_le
    rw [length_cons]
    omega
  rw [Classes.typeMember.eq_def] at h
  split at h
  case h_1 tail =>
    split at h
    next =>
      cases h
      exact Nat.lt_succ_self _
    next =>
      obtain ⟨⟨more, behind⟩, read, hr⟩ := exists_of_bind h
      have sub := (dottedTail_sound tail).of_ok read
      dsimp only at sub hr
      split at hr
      next =>
        split at hr
        next => exact listed ((suffix_cons _ _).trans sub) hr
        next => cases hr
      next =>
        cases hr
        exact Nat.lt_succ_of_le sub.length_le
  case h_2 => exact listed (suffix_refl _) h
  case h_3 inner =>
    obtain ⟨⟨type, behind⟩, read, hr⟩ := exists_of_bind h
    have suffix := ((typeExpression_sound inner).of_ok read).length_le
    dsimp only at suffix hr
    split at hr
    next =>
      cases hr
      rw [length_cons] at suffix ⊢
      omega
    next => cases hr
  case h_4 | h_5 =>
    cases h
    exact Nat.lt_succ_self _
  case h_6 => cases h

structure TypesMatch (reads : String → TypeHint) (all : List Token) (fin : Span)
    (tail : List Token) (size : Nat) : Prop where
  expression : ∀ {p ts}, Sees all fin tail p ts → ts.length < size →
    Matches (Stands all fin tail) (typeExpression all p) (Classes.typeExpression reads fin ts)
  members : ∀ {p ts}, Sees all fin tail p ts → ts.length < size →
    Matches (Stands all fin tail) (moreMembers all p) (Classes.moreMembers reads fin ts)
  member : ∀ {p ts}, Sees all fin tail p ts → ts.length < size →
    Matches (Stands all fin tail) (typeMember all p) (Classes.typeMember reads fin ts)
  list : ∀ {p ts}, Sees all fin tail p ts → ts.length < size →
    Matches (Stands all fin tail) (typeList all p) (Classes.typeList reads fin ts)

/-- What the strings among some tokens stand for. -/
def Quotes (reads : String → TypeHint) (all : List Token) : Prop :=
  ∀ t ∈ all, ∀ text, t.kind = .word (.string text) → Quote.type text = pure (reads text)

theorem typeMember_name_matches (below : TypesMatch reads all fin tail size)
    (h : Sees all fin tail p (⟨.word (.identifier name), s⟩ :: ts)) (hn : ts.length < size)
    (hname : name ≠ "None") : Matches (Stands all fin tail)
      (do
        let (name, p) ← dottedName all .typeExpression p
        let (subscripted, p) ← accept all p (.opening .square)
        if subscripted then
          let (args, p) ← typeList all p
          return (.subscript name args, p)
        else return (.name name, p))
      (Classes.typeMember reads fin (⟨.word (.identifier name), s⟩ :: ts)) := by
  rw [dottedName_bind _ h, Classes.typeMember, if_neg hname]
  refine (dottedTail_matches h.next).stands fun more q behind read hb => ?_
  have suffix := ((dottedTail_sound ts).of_ok read).length_le
  dsimp only at suffix ⊢
  rcases hb.accept (.opening .square) with ⟨s', left, rfl, eq⟩ | ⟨other, eq⟩
  · rw [length_cons] at suffix
    simp only [eq, pure_bind, ↓reduceIte]
    rw [if_pos (by omega)]
    exact (below.list hb.next (by omega)).build fun _ _ _ => ⟨_, rfl, rfl⟩
  · simp only [eq, pure_bind, Bool.false_eq_true, ↓reduceIte]
    split
    next => exact absurd rfl other
    next => exact .ok (.at hb)

theorem typeMember_step_matches (quotes : Quotes reads all) (below : TypesMatch reads all fin tail size)
    (h : Sees all fin tail p ts) (hn : ts.length ≤ size) :
    Matches (Stands all fin tail) (typeMember all p) (Classes.typeMember reads fin ts) := by
  rw [typeMember]
  cases ts with
  | nil =>
    rw [h.tokenAt_finish, pure_bind, Classes.typeMember.eq_def]
    exact refuse_matches h _
  | cons t rest =>
    obtain ⟨k, s⟩ := t
    rw [length_cons] at hn
    rw [h.tokenAt, pure_bind]
    have next := h.next
    cases k with
    | word w =>
      cases w with
      | identifier name =>
        by_cases hname : name = "None"
        · simp only [hname, ↓reduceIte, h.advance, pure_bind, Classes.typeMember]
          exact .ok (.at next)
        · simp only [hname, ↓reduceIte]
          exact typeMember_name_matches below h (by omega) hname
      | ellipsis =>
        simp only [h.advance, pure_bind, Classes.typeMember]
        exact .ok (.at next)
      | string text =>
        have stands := quotes _ (mem_of_getElem? h.head) text rfl
        simp only [h.advance, pure_bind, stands, Classes.typeMember]
        exact .ok (.at next)
      | _ =>
        rw [Classes.typeMember.eq_def]
        exact refuse_matches h _
    | opening b =>
      cases b with
      | square =>
        simp only [h.advance, pure_bind]
        rw [Classes.typeMember]
        exact (below.list next (by omega)).build fun _ _ _ => ⟨_, rfl, rfl⟩
      | round =>
        simp only [h.advance, pure_bind]
        rw [Classes.typeMember]
        refine (below.expression next (by omega)).stands fun inner q behind _ hb => ?_
        dsimp only
        rcases hb.consume (.closing .round) .closeParen with
          ⟨s', left, rfl, eq⟩ | ⟨bare, eq⟩
        · rw [eq, pure_bind]
          exact .ok (.at hb.next)
        · rw [eq]
          split
          next => exact absurd rfl bare
          next => exact (refuse_matches (R := Eq) hb _).error_bind
      | curly =>
        rw [Classes.typeMember.eq_def]
        exact refuse_matches h _
    | _ =>
      rw [Classes.typeMember.eq_def]
      exact refuse_matches h _

theorem moreMembers_step_matches (below : TypesMatch reads all fin tail size)
    (h : Sees all fin tail p ts) (hn : ts.length ≤ size) :
    Matches (Stands all fin tail) (moreMembers all p) (Classes.moreMembers reads fin ts) := by
  rw [moreMembers, Classes.moreMembers.eq_def]
  rcases h.accept (.word .pipe) with ⟨s, left, rfl, eq⟩ | ⟨last, eq⟩
  · rw [length_cons] at hn
    simp only [eq, pure_bind, ↓reduceIte]
    refine (below.member h.next (by omega)).stands fun first q behind read hb => ?_
    have shorter := length_lt_of_typeMember read
    dsimp only
    rw [if_pos (Nat.le_of_lt shorter)]
    exact (below.members hb (by omega)).build fun _ _ _ => ⟨_, rfl, rfl⟩
  · simp only [eq, pure_bind, Bool.false_eq_true, ↓reduceIte]
    split
    next => exact absurd rfl last
    next => exact .ok (.at h)

theorem typeExpression_step_matches (quotes : Quotes reads all)
    (below : TypesMatch reads all fin tail size) (h : Sees all fin tail p ts) (hn : ts.length ≤ size) :
    Matches (Stands all fin tail) (typeExpression all p) (Classes.typeExpression reads fin ts) := by
  rw [typeExpression, Classes.typeExpression]
  refine (typeMember_step_matches quotes below h hn).stands fun first q behind read hb => ?_
  have shorter := length_lt_of_typeMember read
  dsimp only
  cases behind with
  | nil =>
    rw [hb.tokenAt_finish, pure_bind]
    exact .ok (.at hb)
  | cons t left =>
    obtain ⟨k, s⟩ := t
    rw [hb.tokenAt, pure_bind]
    cases k with
    | word w =>
      cases w with
      | pipe =>
        dsimp only
        rw [if_pos shorter]
        exact (below.members hb (by omega)).build fun _ _ _ => ⟨_, rfl, rfl⟩
      | _ => exact .ok (.at hb)
    | _ => exact .ok (.at hb)

theorem typeList_step_matches (quotes : Quotes reads all) (below : TypesMatch reads all fin tail size)
    (h : Sees all fin tail p ts) (hn : ts.length ≤ size) :
    Matches (Stands all fin tail) (typeList all p) (Classes.typeList reads fin ts) := by
  rw [typeList]
  rcases h.accept (.closing .square) with ⟨s, left, rfl, eq⟩ | ⟨inside, eq⟩
  · rw [eq, pure_bind, Classes.typeList]
    exact .ok (.at h.next)
  · simp only [eq, pure_bind, Bool.false_eq_true, ↓reduceIte]
    rw [Classes.typeList]
    · refine (typeExpression_step_matches quotes below h hn).stands fun first q behind read hb => ?_
      have suffix := ((typeExpression_sound ts).of_ok read).length_le
      dsimp only at suffix ⊢
      rcases hb.accept (.word .comma) with ⟨s, left, rfl, eq⟩ | ⟨last, eq⟩
      · rw [length_cons] at suffix
        simp only [eq, pure_bind, ↓reduceIte]
        rw [if_pos (by omega)]
        exact (below.list hb.next (by omega)).build fun _ _ _ => ⟨_, rfl, rfl⟩
      · simp only [eq, pure_bind, Bool.false_eq_true, ↓reduceIte]
        rcases hb.consume (.closing .square) .commaOrCloseBracket with
          ⟨s, left, rfl, eq⟩ | ⟨bare, eq⟩
        · rw [eq, pure_bind]
          exact .ok (.at hb.next)
        · rw [eq]
          split
          next => exact absurd rfl last
          next => exact absurd rfl bare
          next => exact (refuse_matches (R := Eq) hb _).error_bind
    · rintro s rest rfl
      exact inside rfl

theorem typesMatch (quotes : Quotes reads all) (size : Nat) : TypesMatch reads all fin tail size := by
  induction size with
  | zero => constructor <;> simp
  | succ size ih =>
    exact ⟨fun h hn => typeExpression_step_matches quotes ih h (Nat.le_of_lt_succ hn),
      fun h hn => moreMembers_step_matches ih h (Nat.le_of_lt_succ hn),
      fun h hn => typeMember_step_matches quotes ih h (Nat.le_of_lt_succ hn),
      fun h hn => typeList_step_matches quotes ih h (Nat.le_of_lt_succ hn)⟩

theorem typeExpression_matches (quotes : Quotes reads all) (h : Sees all fin tail p ts) :
    Matches (Stands all fin tail) (typeExpression all p) (Classes.typeExpression reads fin ts) :=
  (typesMatch quotes (ts.length + 1)).expression h (Nat.lt_succ_self _)

end Types

end ViewBridge.Classes.Cursor
