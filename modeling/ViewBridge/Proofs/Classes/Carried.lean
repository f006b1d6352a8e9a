import ViewBridge.Classes.Parse
import ViewBridge.Proofs.Source.Lockstep

namespace ViewBridge

open List

/-- A run that succeeds if another one does, with a related result. -/
inductive Mimics {α β : Type} (S : α → β → Prop) : Except Fault α → Except Fault β → Prop
  | error {fault y} : Mimics S (.error fault) y
  | ok {a b} : S a b → Mimics S (.ok a) (.ok b)

/-- Two runs with the same outcome: both fail, or their results are related. -/
abbrev Classes.Agree {α β : Type} (S : α → β → Prop) := ViewBridge.Agree (fun _ _ => True) S

section Mimics

variable {α β γ δ : Type} {S : α → β → Prop} {T : γ → δ → Prop} {x : Except Fault α}
  {y : Except Fault β}

theorem Mimics.bind {f : α → Except Fault γ} {g : β → Except Fault δ} (h : Mimics S x y)
    (hk : ∀ a b, S a b → Mimics T (f a) (g b)) : Mimics T (x.bind f) (y.bind g) := by
  cases h with
  | error => exact .error
  | ok hs => exact hk _ _ hs

theorem Mimics.guard {p q : Prop} [Decidable p] [Decidable q] {fault fault' : Fault}
    (h : p → q) (hp : p → Mimics S x y) :
    Mimics S (if p then x else .error fault) (if q then y else .error fault') := by
  split
  next holds =>
    rw [if_pos (h holds)]
    exact hp holds
  next => exact .error

theorem Mimics.exists_ok {a : α} (h : Mimics S x y) (hx : x = .ok a) :
    ∃ b, y = .ok b ∧ S a b := by
  cases h with
  | error => cases hx
  | ok hs =>
    cases hx
    exact ⟨_, rfl, hs⟩

theorem Mimics.agree {T : β → α → Prop} (h : Mimics S x y) (back : Mimics T y x) :
    Classes.Agree S x y := by
  cases h with
  | error =>
    cases back
    exact .error trivial
  | ok hs => exact .ok hs

end Mimics

namespace Classes

def leavesType : List Token → Bool
  | ⟨.word .dot, _⟩ :: _ | ⟨.word .pipe, _⟩ :: _ | ⟨.opening .square, _⟩ :: _ => false
  | _ => true

section Carried

variable (p : Prop) (R H : TokenRel Word)

/-- What is related behind a token: where an argument may start, also what `H` relates. -/
def BehindHead : Kind → List Token → List Token → Prop
  | .newline, _, _ => True
  | .opening .square, ts, ts' | .word .comma, ts, ts' => R ts ts' ∨ H ts ts'
  | _, ts, ts' => R ts ts'

theorem behindHead_of {R H : TokenRel Word} {k : Kind}
    {ts ts' : List Token} (h : k ≠ .newline → R ts ts') : BehindHead R H k ts ts' := by
  unfold BehindHead
  split
  next => trivial
  next => exact .inl (h (by simp))
  next => exact .inl (h (by simp))
  next line _ _ => exact h line

/-- Two lists of tokens that start alike, or the first of them with the end of a line. Strings say
the same if `p` holds. -/
inductive Starts : List Token → List Token → Prop
  | finish {ts'} : leavesType ts' = true → Starts [] ts'
  | newline {s ts ts'} : leavesType ts' = true → Starts (⟨.newline, s⟩ :: ts) ts'
  | string {text text' s s' ts ts'} : (p → text = text') → R ts ts' →
      Starts (⟨.word (.string text), s⟩ :: ts) (⟨.word (.string text'), s'⟩ :: ts')
  | step {k s s' ts ts'} : BehindHead R H k ts ts' → Starts (⟨k, s⟩ :: ts) (⟨k, s'⟩ :: ts')

/-- Relations of token lists such that what is read as a type from the first is read from the
second. -/
structure Carries (quoted : String → TypeHint) (fin fin' : Span) : Prop where
  starts {ts ts'} : R ts ts' → Starts p R H ts ts'
  le {ts ts' us us'} : R ts ts' ∨ H ts ts' → R us us' → us.length ≤ ts.length →
    us'.length ≤ ts'.length
  lt {ts ts' us us'} : R ts ts' → R us us' → us.length < ts.length → us'.length < ts'.length
  hole {ts ts'} : H ts ts' → ∃ type us us', typeExpression quoted fin ts = .ok (type, us) ∧
    typeExpression quoted fin' ts' = .ok (type, us') ∧ R us us'

/-- Nothing needs to be known but how the lists start if they differ in length by a constant. -/
theorem Carries.of_length {p : Prop} {R : TokenRel Word}
    {quoted : String → TypeHint} {fin fin' : Span} {m n : Nat}
    (starts : ∀ {ts ts'}, R ts ts' → Starts p R (fun _ _ => False) ts ts')
    (length : ∀ {ts ts'}, R ts ts' → ts.length + n = ts'.length + m) :
    Carries p R (fun _ _ => False) quoted fin fin' where
  starts := starts
  le h hr shorter := by
    have here := length (h.resolve_right id)
    have there := length hr
    omega
  lt h hr shorter := by
    have here := length h
    have there := length hr
    omega
  hole := False.elim

/-- A reader that mimics another one, with its value if `p` holds. -/
abbrev Carry {α : Type} (x y : Except Fault (α × List Token)) : Prop :=
  Mimics (Leaves (fun a b => p → a = b) R) x y

/-- The readers of types of less than so many tokens carry over. -/
structure TypesCarried (quoted : String → TypeHint) (fin fin' : Span) (size : Nat) : Prop where
  expression {ts ts'} : ts.length < size → R ts ts' →
    Carry p R (typeExpression quoted fin ts) (typeExpression quoted fin' ts')
  members {ts ts'} : ts.length < size → R ts ts' →
    Carry p R (moreMembers quoted fin ts) (moreMembers quoted fin' ts')
  member {ts ts'} : ts.length < size → R ts ts' →
    Carry p R (typeMember quoted fin ts) (typeMember quoted fin' ts')
  list {ts ts'} : ts.length < size → R ts ts' ∨ H ts ts' →
    Carry p R (typeList quoted fin ts) (typeList quoted fin' ts')

end Carried

section Carries

variable {p : Prop} {R H : TokenRel Word} {quoted : String → TypeHint}
  {fin fin' : Span} (hR : Carries p R H quoted fin fin') {ts ts' : List Token} {size : Nat}

theorem dottedTail_leaves (h : leavesType ts = true) : dottedTail fin ts = .ok ("", ts) := by
  unfold dottedTail
  split
  next => cases h
  next => cases h
  next => rfl

theorem moreMembers_leaves (h : leavesType ts = true) :
    moreMembers quoted fin ts = .ok ([], ts) := by
  rw [moreMembers.eq_def]
  split
  next => cases h
  next => rfl

include hR

theorem dottedTail_carried (h : R ts ts') :
    Mimics (Leaves Eq R) (dottedTail fin ts) (dottedTail fin' ts') := by
  induction hn : ts.length using Nat.strongRecOn generalizing ts ts' with
  | ind size ih =>
    cases hR.starts h with
    | finish leaves | newline leaves =>
      rw [dottedTail_leaves leaves]
      exact .ok ⟨rfl, h⟩
    | string => exact .ok ⟨rfl, h⟩
    | @step k s s' rest rest' next =>
      cases k with
      | word w =>
        cases w with
        | dot =>
          cases hR.starts next with
          | finish | newline | string => exact .error
          | @step k _ _ behind behind' name =>
            cases k with
            | word w =>
              cases w with
              | identifier n =>
                refine (ih behind.length (by simp at hn; omega) name rfl).bind ?_
                rintro ⟨more, _⟩ ⟨_, _⟩ ⟨rfl, hr⟩
                exact .ok ⟨rfl, hr⟩
              | _ => exact .error
            | _ => exact .error
        | _ => exact .ok ⟨rfl, h⟩
      | _ => exact .ok ⟨rfl, h⟩

theorem typeMember_step_carried (below : TypesCarried p R H quoted fin fin' size)
    (hn : ts.length ≤ size) (h : R ts ts') :
    Carry p R (typeMember quoted fin ts) (typeMember quoted fin' ts') := by
  cases hR.starts h with
  | finish | newline =>
    rw [typeMember.eq_def quoted fin]
    exact .error
  | string same next =>
    rw [typeMember, typeMember]
    exact .ok ⟨fun hp => congrArg quoted (same hp), next⟩
  | @step k s s' rest rest' next =>
    rw [length_cons] at hn
    cases k with
    | word w =>
      cases w with
      | ellipsis | string =>
        rw [typeMember, typeMember]
        exact .ok ⟨fun _ => rfl, next⟩
      | identifier name =>
        rw [typeMember, typeMember]
        split
        · exact .ok ⟨fun _ => rfl, next⟩
        refine (dottedTail_carried hR next).bind ?_
        rintro ⟨more, behind⟩ ⟨_, behind'⟩ ⟨rfl, hb⟩
        cases hR.starts hb with
        | finish leaves | newline leaves =>
          dsimp only
          split
          next => cases leaves
          next => exact .ok ⟨fun _ => rfl, hb⟩
        | string => exact .ok ⟨fun _ => rfl, hb⟩
        | @step k _ _ _ _ inner =>
          cases k with
          | opening b =>
            cases b with
            | square =>
              refine .guard (hR.le (.inl next) hb) fun shorter => ?_
              refine (below.list (by omega) inner).bind ?_
              rintro ⟨args, _⟩ ⟨_, _⟩ ⟨same, hr⟩
              exact .ok ⟨fun hp => congrArg (TypeHint.subscript _) (same hp), hr⟩
            | _ => exact .ok ⟨fun _ => rfl, hb⟩
          | _ => exact .ok ⟨fun _ => rfl, hb⟩
      | _ =>
        rw [typeMember.eq_def quoted fin]
        exact .error
    | opening b =>
      cases b with
      | square =>
        rw [typeMember, typeMember]
        refine (below.list (by omega) next).bind ?_
        rintro ⟨items, _⟩ ⟨_, _⟩ ⟨same, hr⟩
        exact .ok ⟨fun hp => congrArg TypeHint.listOf (same hp), hr⟩
      | round =>
        rw [typeMember, typeMember]
        refine (below.expression (by omega) next).bind ?_
        rintro ⟨inner, behind⟩ ⟨_, behind'⟩ ⟨same, hb⟩
        cases hR.starts hb with
        | finish | newline | string => exact .error
        | @step k _ _ _ _ closed =>
          cases k with
          | closing b =>
            cases b with
            | round => exact .ok ⟨same, closed⟩
            | _ => exact .error
          | _ => exact .error
      | curly =>
        rw [typeMember.eq_def quoted fin]
        exact .error
    | _ =>
      rw [typeMember.eq_def quoted fin]
      exact .error

theorem moreMembers_step_carried (below : TypesCarried p R H quoted fin fin' size)
    (hn : ts.length ≤ size) (h : R ts ts') :
    Carry p R (moreMembers quoted fin ts) (moreMembers quoted fin' ts') := by
  have none (leaves : leavesType ts = true) (leaves' : leavesType ts' = true) :
      Carry p R (moreMembers quoted fin ts) (moreMembers quoted fin' ts') := by
    rw [moreMembers_leaves leaves, moreMembers_leaves leaves']
    exact .ok ⟨fun _ => rfl, h⟩
  cases hR.starts h with
  | finish leaves | newline leaves => exact none rfl leaves
  | string => exact none rfl rfl
  | @step k s s' rest rest' next =>
    rw [length_cons] at hn
    cases k with
    | word w =>
      cases w with
      | pipe =>
        rw [moreMembers, moreMembers]
        refine (below.member (by omega) next).bind ?_
        rintro ⟨first, behind⟩ ⟨_, behind'⟩ ⟨same, hb⟩
        refine .guard (hR.le (.inl next) hb) fun shorter => ?_
        refine (below.members (Nat.lt_of_le_of_lt shorter (by omega)) hb).bind ?_
        rintro ⟨others, _⟩ ⟨_, _⟩ ⟨same', hr⟩
        exact .ok ⟨fun hp => congrArg₂ List.cons (same hp) (same' hp), hr⟩
      | _ =>
        rw [moreMembers.eq_def quoted fin, moreMembers.eq_def quoted fin']
        exact .ok ⟨fun _ => rfl, h⟩
    | _ =>
      rw [moreMembers.eq_def quoted fin, moreMembers.eq_def quoted fin']
      exact .ok ⟨fun _ => rfl, h⟩

theorem typeExpression_step_carried (below : TypesCarried p R H quoted fin fin' size)
    (hn : ts.length ≤ size) (h : R ts ts') :
    Carry p R (typeExpression quoted fin ts) (typeExpression quoted fin' ts') := by
  rw [typeExpression, typeExpression]
  refine (typeMember_step_carried hR below hn h).bind ?_
  rintro ⟨first, rest⟩ ⟨first', rest'⟩ ⟨same, hr⟩
  have more : rest.length < size →
      Carry p R (moreMembers quoted fin rest) (moreMembers quoted fin' rest') :=
    fun hn => below.members hn hr
  have shortens := hR.lt h hr
  cases hR.starts hr with
  | finish leaves | newline leaves =>
    dsimp only
    split
    next => cases leaves
    next => exact .ok ⟨same, hr⟩
  | string => exact .ok ⟨same, hr⟩
  | @step k =>
    cases k with
    | word w =>
      cases w with
      | pipe =>
        refine .guard shortens fun shorter => ?_
        refine (more (by omega)).bind ?_
        rintro ⟨others, _⟩ ⟨_, _⟩ ⟨same', hr⟩
        exact .ok ⟨fun hp => congrArg TypeHint.union (congrArg₂ List.cons (same hp) (same' hp)), hr⟩
      | _ => exact .ok ⟨same, hr⟩
    | _ => exact .ok ⟨same, hr⟩

theorem typeList_items_carried (below : TypesCarried p R H quoted fin fin' size)
    (hn : ts.length ≤ size) (h : R ts ts' ∨ H ts ts')
    (inside : ∀ s rest, ts = ⟨.closing .square, s⟩ :: rest → False)
    (inside' : ∀ s rest, ts' = ⟨.closing .square, s⟩ :: rest → False)
    (first : Carry p R (typeExpression quoted fin ts) (typeExpression quoted fin' ts')) :
    Carry p R (typeList quoted fin ts) (typeList quoted fin' ts') := by
  rw [typeList, typeList]
  · refine first.bind ?_
    rintro ⟨first, behind⟩ ⟨first', behind'⟩ ⟨same, hb⟩
    cases hR.starts hb with
    | finish | newline | string => exact .error
    | @step k _ _ _ _ next =>
      cases k with
      | closing b =>
        cases b with
        | square => exact .ok ⟨fun hp => congrArg (fun type => [type]) (same hp), next⟩
        | _ => exact .error
      | word w =>
        cases w with
        | comma =>
          refine .guard (hR.le h hb) fun shorter => ?_
          refine (below.list (by omega) next).bind ?_
          rintro ⟨others, _⟩ ⟨_, _⟩ ⟨same', hr⟩
          exact .ok ⟨fun hp => congrArg₂ List.cons (same hp) (same' hp), hr⟩
        | _ => exact .error
      | _ => exact .error
  · exact inside'
  · exact inside

theorem typeList_step_carried (below : TypesCarried p R H quoted fin fin' size)
    (hn : ts.length ≤ size) (h : R ts ts' ∨ H ts ts') :
    Carry p R (typeList quoted fin ts) (typeList quoted fin' ts') := by
  have items := typeList_items_carried hR below hn h
  rcases h with h | hole
  · have first := typeExpression_step_carried hR below hn h
    cases hR.starts h with
    | finish | newline =>
      rw [typeList, typeExpression, typeMember.eq_def]
      · exact .error
      · simp
    | string => exact items (by simp) (by simp) first
    | @step k _ _ _ _ next =>
      by_cases closed : k = .closing .square
      · subst closed
        rw [typeList, typeList]
        exact .ok ⟨fun _ => rfl, next⟩
      · exact items (by simp [closed]) (by simp [closed]) first
  · obtain ⟨type, us, us', read, read', hr⟩ := hR.hole hole
    refine items ?_ ?_ (read ▸ read' ▸ .ok ⟨fun _ => rfl, hr⟩)
    · rintro s rest rfl
      rw [typeExpression, typeMember.eq_def] at read
      cases read
    · rintro s rest rfl
      rw [typeExpression, typeMember.eq_def] at read'
      cases read'

theorem typesCarried (size : Nat) : TypesCarried p R H quoted fin fin' size := by
  induction size with
  | zero => constructor <;> simp
  | succ size ih =>
    exact ⟨fun hn => typeExpression_step_carried hR ih (Nat.le_of_lt_succ hn),
      fun hn => moreMembers_step_carried hR ih (Nat.le_of_lt_succ hn),
      fun hn => typeMember_step_carried hR ih (Nat.le_of_lt_succ hn),
      fun hn => typeList_step_carried hR ih (Nat.le_of_lt_succ hn)⟩

theorem typeExpression_carried (h : R ts ts') :
    Carry p R (typeExpression quoted fin ts) (typeExpression quoted fin' ts') :=
  (typesCarried hR (ts.length + 1)).expression (Nat.lt_succ_self _) h

end Carries

/-- Token lists that are alike up to different ends. -/
def EndsWith (tail tail' ts ts' : List Token) : Prop :=
  ∃ w w', Alike w w' ∧ ts = w ++ tail ∧ ts' = w' ++ tail'

section Ends

variable {quoted : String → TypeHint} {fin fin' : Span} {w w' tail tail' : List Token}
  {type : TypeHint}

theorem carries_endsWith (ht : atLineEnd tail = true) (ht' : leavesType tail' = true) :
    Carries True (EndsWith tail tail') (fun _ _ => False) quoted fin fin' := by
  refine .of_length (m := tail.length) (n := tail'.length) ?_ ?_
  · rintro _ _ ⟨w, w', alike, rfl, rfl⟩
    cases alike.heads with
    | cons next => exact .step (behindHead_of fun hk => ⟨_, _, next hk, rfl, rfl⟩)
    | nil =>
      cases tail with
      | nil => exact .finish ht'
      | cons t tail =>
        obtain ⟨k, s⟩ := t
        cases k with
        | newline => exact .newline ht'
        | _ => cases ht
  · rintro _ _ ⟨w, w', alike, rfl, rfl⟩
    have length := Alike.length alike
    simp only [length_append]
    omega

/-- A type that ends with a line is read the same before all that does not go on with it. -/
theorem typeExpression_append (ht : atLineEnd tail = true) (ht' : leavesType tail' = true)
    (h : typeExpression quoted fin (w ++ tail) = .ok (type, tail)) (alike : Alike w w')
    (fin' : Span) : typeExpression quoted fin' (w' ++ tail') = .ok (type, tail') := by
  have carries : Carries True (EndsWith tail tail') (fun _ _ => False) quoted fin fin' :=
    carries_endsWith ht ht'
  obtain ⟨⟨type', _⟩, read, same, v, v', behind, eq, rfl⟩ :=
    (typeExpression_carried carries ⟨w, w', alike, rfl, rfl⟩).exists_ok h
  obtain rfl : type = type' := same trivial
  obtain rfl : v = [] := self_eq_append_left.mp eq
  obtain rfl : v' = [] := eq_nil_of_length_eq_zero (Alike.length behind).symm
  exact read

end Ends

end Classes

end ViewBridge
