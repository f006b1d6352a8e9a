import ViewBridge.Proofs.Classes.Carried
import ViewBridge.Proofs.Source.Values

namespace ViewBridge.Classes

open List

theorem dottedTail_sound {fin : Span} (ts : List Token) : Sound fin ts (dottedTail fin ts) := by
  fun_induction dottedTail fin ts with
  | case1 s name s' ts ih =>
    exact ih.then ((suffix_cons _ _).trans (suffix_cons _ _)) fun _ _ hl => .ok hl
  | case2 => exact refused _ (suffix_cons _ _)
  | case3 => exact .ok (suffix_refl _)

instance : LawfulVocabulary Word where
  comma_iff w := by
    cases w <;> first | exact ⟨fun _ => rfl, fun _ => rfl⟩ | exact ⟨nofun, nofun⟩
  wholeName_sound _ _ ts := (dottedTail_sound ts).then (suffix_refl _) fun _ _ hl => .ok hl

/-- A reader of entries between commas up to a closing bracket. -/
structure Entries {α : Type} (expected : Expected) (fin : Span)
    (entry : List Token → Except Fault (Option α × List Token))
    (read : List Token → Except Fault (List α × List Token)) : Prop where
  close (s : Span) (rest : List Token) : read (⟨.closing .round, s⟩ :: rest) = .ok ([], rest)
  more {ts : List Token} : (∀ s rest, ts ≠ ⟨.closing .round, s⟩ :: rest) →
    read ts = (entry ts).bind fun p => (entryEnd fin p.2).bind fun q =>
      if q.1 then
        if q.2.length < ts.length then (read q.2).map fun r => (p.1.toList ++ r.1, r.2)
        else .error (unexpected fin expected q.2)
      else .ok (p.1.toList, q.2)

theorem entries_baseClasses (fin : Span) :
    Entries .baseClass fin (baseClass fin) (baseClasses fin) where
  close s rest := by rw [baseClasses]
  more inside := by
    rw [baseClasses]
    · rfl
    · exact inside

theorem entries_params (fin : Span) :
    Entries .parameterName fin (paramEntry fin) (params fin) where
  close s rest := by rw [params]
  more inside := by
    rw [params]
    · rfl
    · exact inside

section Entries

variable {α : Type} {expected : Expected} {fin s : Span} {ts rest left : List Token}
  {entry : List Token → Except Fault (Option α × List Token)}
  {read : List Token → Except Fault (List α × List Token)} {first : Option α} {others : List α}

theorem Entries.read_comma (hr : Entries expected fin entry read)
    (inside : ∀ s rest, ts ≠ ⟨.closing .round, s⟩ :: rest)
    (he : entry ts = .ok (first, ⟨.word .comma, s⟩ :: rest)) (shorter : rest.length < ts.length)
    (hm : read rest = .ok (others, left)) : read ts = .ok (first.toList ++ others, left) := by
  rw [hr.more inside, he]
  simp only [Except.bind, entryEnd, if_true, shorter, hm]
  rfl

theorem Entries.read_last (hr : Entries expected fin entry read)
    (inside : ∀ s rest, ts ≠ ⟨.closing .round, s⟩ :: rest)
    (he : entry ts = .ok (first, ⟨.closing .round, s⟩ :: rest)) :
    read ts = .ok (first.toList, rest) := by
  rw [hr.more inside, he]
  rfl

end Entries

theorem atLineEnd_lineEnd (ts : List Token) : atLineEnd (lineEnd ts) = true := by
  induction ts with
  | nil => rfl
  | cons t ts ih =>
    obtain ⟨k, s⟩ := t
    cases k with
    | newline => rfl
    | _ => exact ih

/-- Two lists of tokens that start alike, but for what a string says if that does not count. -/
inductive Tops (loud : Bool) (R : TokenRel Word) : List Token → List Token → Prop
  | nil : Tops loud R [] []
  | string {text text' s s' ts ts'} : (loud = true → text = text') → R ts ts' →
      Tops loud R (⟨.word (.string text), s⟩ :: ts) (⟨.word (.string text'), s'⟩ :: ts')
  | cons {k s s' ts ts'} : (k ≠ .newline → R ts ts') →
      Tops loud R (⟨k, s⟩ :: ts) (⟨k, s'⟩ :: ts')

/-- Relations of token lists that readers of a line keep which do not look into strings. -/
structure Steps (loud : Bool) (m n : Nat) (R : TokenRel Word) : Prop where
  tops {ts ts'} : R ts ts' → Tops loud R ts ts'
  length {ts ts'} : R ts ts' → ts.length + n = ts'.length + m
  group {b s s' ts ts'} : R (⟨.opening b, s⟩ :: ts) (⟨.opening b, s'⟩ :: ts') →
    R (behindGroup 0 ts) (behindGroup 0 ts')

/-- The same type behind a mark, if types count. -/
abbrev SameHint (loud : Bool) : Option TypeHint → Option TypeHint → Prop :=
  InvImage Eq fun hint => cond loud hint none

section Steps

variable {loud : Bool} {m n : Nat} {R : TokenRel Word}

theorem steps_of_lockstep (hR : Lockstep m n R) : Steps true m n R where
  tops h := by
    cases hR.heads h with
    | nil => exact .nil
    | cons next => exact .cons next
  length := hR.length
  group := hR.group

theorem Steps.lockstep (hR : Steps true m n R) : Lockstep m n R where
  heads h := by
    cases hR.tops h with
    | nil => exact .nil
    | string same next =>
      obtain rfl := same rfl
      exact .cons fun _ => next
    | cons next => exact .cons next
  length := hR.length
  group := hR.group

theorem Steps.flip (hR : Steps loud m n R) : Steps loud n m fun ts ts' => R ts' ts where
  tops h := by
    cases hR.tops h with
    | nil => exact .nil
    | string same next => exact .string (fun counts => (same counts).symm) next
    | cons next => exact .cons next
  length h := (hR.length h).symm
  group h := hR.group h

variable (hR : Steps loud m n R) {fin fin' : Span} {ts ts' : List Token}

include hR

theorem atLineEnd_steps (h : R ts ts') : atLineEnd ts = atLineEnd ts' := by
  cases hR.tops h with
  | nil | string => rfl
  | @cons k => cases k <;> rfl

theorem skipArgument_steps (depth : Nat) (h : R ts ts') :
    R (skipArgument depth ts) (skipArgument depth ts') := by
  induction ts generalizing ts' depth with
  | nil =>
    cases hR.tops h
    exact h
  | cons t ts ih =>
    cases hR.tops h with
    | string _ next => exact (ih _ next :)
    | @cons k s s' ts ts' next =>
      cases k with
      | newline => exact h
      | opening => exact (ih _ (next nofun) :)
      | closing =>
        cases depth with
        | zero => exact h
        | succ depth => exact (ih _ (next nofun) :)
      | word w =>
        cases w with
        | comma =>
          simp only [skipArgument]
          split
          · exact h
          · exact ih _ (next nofun)
        | _ => exact (ih _ (next nofun) :)
      | _ => exact (ih _ (next nofun) :)

theorem lineEnd_steps (h : R ts ts') : R (lineEnd ts) (lineEnd ts') := by
  induction ts generalizing ts' with
  | nil =>
    cases hR.tops h
    exact h
  | cons t ts ih =>
    cases hR.tops h with
    | string _ next => exact (ih next :)
    | @cons k s s' ts ts' next =>
      cases k with
      | newline => exact h
      | _ => exact (ih (next nofun) :)

theorem carries_of_steps : Carries (loud = true) R (fun _ _ => False) quotedHint fin fin' := by
  refine .of_length (fun h => ?_) hR.length
  cases hR.tops h with
  | nil => exact .finish rfl
  | string same next => exact .string same next
  | cons next => exact .step (behindHead_of next)

theorem dottedTail_steps (h : R ts ts') :
    Agree (Leaves Eq R) (dottedTail fin ts) (dottedTail fin' ts') :=
  (dottedTail_carried (carries_of_steps hR) h).agree
    (dottedTail_carried (carries_of_steps hR.flip) h)

theorem dottedName_steps {expected : Expected} (h : R ts ts') :
    Agree (Leaves Eq R) (dottedName fin expected ts) (dottedName fin' expected ts') := by
  cases hR.tops h with
  | nil | string => exact .error trivial
  | @cons k s s' rest rest' next =>
    cases k with
    | word w =>
      cases w with
      | identifier name =>
        exact (dottedTail_steps hR (next nofun)).bind_leaves fun _ _ _ hr => .ok ⟨rfl, hr⟩
      | _ => exact .error trivial
    | _ => exact .error trivial

theorem hint_steps (h : R ts ts') :
    Agree (Leaves (fun a b => loud = true → a = b) R) (hint fin ts) (hint fin' ts') :=
  (typeExpression_carried (carries_of_steps hR) h).agree
    (typeExpression_carried (carries_of_steps hR.flip) h)

theorem typeBehind_steps {mark : Word → Bool} (hm : ∀ text, mark (.string text) = false)
    (h : R ts ts') :
    Agree (Leaves (SameHint loud) R) (typeBehind fin mark ts) (typeBehind fin' mark ts') := by
  cases hR.tops h with
  | nil => exact .ok ⟨rfl, h⟩
  | string =>
    simp only [typeBehind, hm]
    exact .ok ⟨rfl, h⟩
  | @cons k s s' rest rest' next =>
    cases k with
    | word w =>
      simp only [typeBehind]
      split
      · refine (hint_steps hR (next nofun)).map ?_
        rintro ⟨type, _⟩ ⟨type', _⟩ ⟨same, hr⟩
        refine ⟨?_, hr⟩
        cases loud with
        | false => rfl
        | true => exact congrArg some (same rfl)
      · exact .ok ⟨rfl, h⟩
    | _ => exact .ok ⟨rfl, h⟩

theorem entryEnd_steps (h : R ts ts') :
    Agree (Leaves Eq R) (entryEnd fin ts) (entryEnd fin' ts') := by
  cases hR.tops h with
  | nil | string => exact .error trivial
  | @cons k s s' rest rest' next =>
    cases k with
    | word w =>
      cases w with
      | comma => exact .ok ⟨rfl, next nofun⟩
      | _ => exact .error trivial
    | closing b =>
      cases b with
      | round => exact .ok ⟨rfl, next nofun⟩
      | _ => exact .error trivial
    | _ => exact .error trivial

theorem Entries.steps {α : Type} {expected : Expected} {P : Option α → Option α → Prop}
    {Q : List α → List α → Prop} {entry entry' read read'} (hr : Entries expected fin entry read)
    (hr' : Entries expected fin' entry' read') (nil : Q [] [])
    (append : ∀ {a a' l l'}, P a a' → Q l l' → Q (a.toList ++ l) (a'.toList ++ l'))
    (entries : ∀ {ts ts'}, R ts ts' → Agree (Leaves P R) (entry ts) (entry' ts')) (h : R ts ts') :
    Agree (Leaves Q R) (read ts) (read' ts') := by
  induction hn : ts.length using Nat.strongRecOn generalizing ts ts' with
  | ind size ih =>
    by_cases closed : ∃ s rest, ts = ⟨.closing .round, s⟩ :: rest
    · obtain ⟨s, rest, rfl⟩ := closed
      cases hR.tops h with
      | cons next =>
        rw [hr.close, hr'.close]
        exact .ok ⟨nil, next nofun⟩
    · have inside : ∀ s rest, ts ≠ ⟨.closing .round, s⟩ :: rest :=
        fun s rest eq => closed ⟨s, rest, eq⟩
      have inside' : ∀ s rest, ts' ≠ ⟨.closing .round, s⟩ :: rest := by
        rintro s rest rfl
        cases hR.tops h
        exact inside _ _ rfl
      rw [hr.more inside, hr'.more inside']
      refine (entries h).bind ?_
      rintro ⟨first, behind⟩ ⟨first', behind'⟩ _ ⟨hp, hb⟩
      refine (entryEnd_steps hR hb).bind_leaves fun goesOn rest rest' hl => ?_
      cases goesOn with
      | false =>
        have one := append hp nil
        rw [append_nil, append_nil] at one
        exact .ok ⟨one, hl⟩
      | true =>
        have length := hR.length h
        have length' := hR.length hl
        refine .guard (by dsimp only at *; omega) trivial fun shorter => ?_
        refine (ih rest.length (Nat.lt_of_lt_of_eq shorter hn) hl rfl).map ?_
        rintro ⟨others, _⟩ ⟨_, _⟩ ⟨hq, hl⟩
        exact ⟨append hp hq, hl⟩

end Steps

section Line

variable {m n : Nat} {R : TokenRel Word} (hR : Lockstep m n R)
  {fin fin' : Span} {ts ts' : List Token}

include hR

theorem namesAgree (fin fin' : Span) : NamesAgree m n (fun _ _ => True) R fin fin' where
  toLockstep := hR
  fault _ _ _ _ := trivial
  name h := (dottedTail_steps (steps_of_lockstep hR) h).bind_leaves fun _ _ _ hr => .ok ⟨rfl, hr⟩

/-- A default is kept in both runs or in none, and both go on at the end of the line. -/
theorem defaultValue_lockstep (h : R ts ts') :
    Leaves Eq R (defaultValue fin ts) (defaultValue fin' ts') := by
  have read : Agree (Leaves Eq R) (plainValue fin ts) (plainValue fin' ts') :=
    bareTuple_lockstep (namesAgree hR fin fin') (atom_lockstep (namesAgree hR fin fin')) h
  unfold defaultValue
  generalize plainValue fin ts = x at read
  generalize plainValue fin' ts' = y at read
  cases read with
  | error => exact ⟨rfl, lineEnd_steps (steps_of_lockstep hR) h⟩
  | @ok p q left =>
    obtain ⟨value, rest⟩ := p
    obtain ⟨_, rest'⟩ := q
    obtain ⟨rfl, hr⟩ := left
    simp only [atLineEnd_lockstep hR hr]
    split
    · exact ⟨rfl, hr⟩
    · exact ⟨rfl, lineEnd_steps (steps_of_lockstep hR) h⟩

theorem baseClass_lockstep (h : R ts ts') :
    Agree (Leaves Eq R) (baseClass fin ts) (baseClass fin' ts') := by
  by_cases keyword : ∃ name s t rest,
      ts = ⟨.word (.identifier name), s⟩ :: ⟨.word .equals, t⟩ :: rest
  · have passed := skipArgument_steps (steps_of_lockstep hR) 0 h
    obtain ⟨name, s, t, rest, rfl⟩ := keyword
    cases hR.heads h with
    | cons next =>
      cases hR.heads (next nofun)
      exact .ok ⟨rfl, passed⟩
  · have named : ∀ name s t rest, ts = ⟨.word (.identifier name), s⟩ :: ⟨.word .equals, t⟩ :: rest →
        False := fun name s t rest eq => keyword ⟨name, s, t, rest, eq⟩
    have named' : ∀ name s t rest,
        ts' = ⟨.word (.identifier name), s⟩ :: ⟨.word .equals, t⟩ :: rest → False := by
      rintro name s t rest rfl
      cases hR.heads h with
      | cons next =>
        cases hR.heads (next nofun)
        exact named _ _ _ _ rfl
    rw [baseClass, baseClass]
    · refine (dottedName_steps (steps_of_lockstep hR) h).bind_leaves fun name rest rest' hr => ?_
      cases hR.heads hr with
      | nil => exact .ok ⟨rfl, hr⟩
      | @cons k =>
        cases k with
        | opening b =>
          cases b with
          | square => exact .ok ⟨rfl, hR.group hr⟩
          | _ => exact .ok ⟨rfl, hr⟩
        | _ => exact .ok ⟨rfl, hr⟩
    · exact named'
    · exact named

theorem baseClasses_lockstep (h : R ts ts') :
    Agree (Leaves Eq R) (baseClasses fin ts) (baseClasses fin' ts') :=
  (entries_baseClasses fin).steps (steps_of_lockstep hR) (entries_baseClasses fin') rfl
    (fun ha hl => by rw [ha, hl]) (baseClass_lockstep hR) h

end Line

end ViewBridge.Classes
