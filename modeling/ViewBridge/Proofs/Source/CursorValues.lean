import ViewBridge.Proofs.Source.Cursor
import ViewBridge.Proofs.Source.Values

namespace ViewBridge

/-- A position in a list of tokens. -/
abbrev Cursor := Nat

namespace Cursor

open Vocabulary List

variable {ω : Type} {all : List (Token ω)} {fin s : Span} {tail ts rest : List (Token ω)} {p size : Nat}

section Lines

variable [Describable ω]

theorem refuse_matches {α β : Type} {R : α → β → Prop} (h : Sees all fin tail p ts)
    (expected : Expected) :
    Matches R (refuse all p expected) (.error (unexpected fin expected ts)) := by
  cases ts with
  | nil =>
    rw [refuse_eq h.finish]
    exact .error
  | cons t ts =>
    rw [refuse_eq h.head]
    exact .error

theorem passLineBreak_matches (h : Sees all fin tail p ts) :
    Matches (Sees all fin tail) (passLineBreak all p) (endOfLine fin ts) := by
  rcases h.line_cases with ⟨rfl, _, eq⟩ | ⟨s, left, rfl, _, eq⟩ | ⟨⟨k, s⟩, left, rfl, hk, _, eq⟩
  · rw [eq]
    exact .ok h
  · rw [eq]
    exact .ok h.next
  · rw [eq]
    cases k with
    | newline => exact absurd rfl hk
    | _ => exact refuse_matches h _

theorem atLineBreak_eq (h : Sees all fin tail p ts) : atLineBreak all p = pure (atLineEnd ts) := by
  rcases h.line_cases with ⟨rfl, eq, _⟩ | ⟨s, left, rfl, eq, _⟩ | ⟨⟨k, s⟩, left, rfl, hk, eq, _⟩
  · exact eq
  · exact eq
  · rw [eq]
    cases k with
    | newline => exact absurd rfl hk
    | _ => rfl

end Lines

variable [BEq ω] [Vocabulary ω]

/-- A language whose names can be read with a position in its tokens. -/
class Positioned (ω : Type) [BEq ω] [Vocabulary ω] where
  wholeName : List (Token ω) → String → Nat → Run (String × Nat)

section Readers

variable [Positioned ω] (all)

mutual

def atom (p : Cursor) : Run (Literal × Nat) := do
  match (← tokenAt all p).kind with
  | .word w =>
    match lead w with
    | .literal value =>
      let (_, p) ← advance all p
      return (value, p)
    | .name first =>
      let (_, p) ← advance all p
      let (name, p) ← Positioned.wholeName all first p
      let (called, (p : Cursor)) ← accept all p (.opening .round)
      if called then
        let (args, p) ← p |>.sequence .round
        return (.call name args, p)
      else return (.ofName name, p)
    | .other => refuse all p .value
  | .opening .square =>
    let (_, (p : Cursor)) ← advance all p
    let (items, p) ← p |>.sequence .square
    return (.list items, p)
  | .opening .round =>
    let (_, p) ← advance all p
    let (empty, (p : Cursor)) ← accept all p (.closing .round)
    if empty then return (.tuple [], p)
    else
      let (first, p) ← p |>.atom
      let (closed, p) ← accept all p (.closing .round)
      if closed then return (first, p)
      else
        let (_, (p : Cursor)) ← consume all p (.word comma) .commaOrCloseParen
        let (items, p) ← p |>.sequence .round
        return (.tuple (first :: items), p)
  | .newline | .eof => refuse all p (missing ω)
  | _ => refuse all p .value
partial_fixpoint

def sequence (bracket : Bracket) (p : Cursor) : Run (List Literal × Nat) := do
  let (closed, (p : Cursor)) ← accept all p (.closing bracket)
  if closed then return ([], p)
  else
    let (first, p) ← p |>.atom
    let (goesOn, (p : Cursor)) ← accept all p (.word comma)
    if goesOn then
      let (items, p) ← p |>.sequence bracket
      return (first :: items, p)
    else
      let (_, p) ← consume all p (.closing bracket) .commaOrClosingBracket
      return ([first], p)
partial_fixpoint

end

omit [Positioned ω]

variable (item : Nat → Run (Literal × Nat))

def moreItems (p : Cursor) : Run (List Literal × Nat) := do
  let (goesOn, p) ← accept all p (.word comma)
  if goesOn then
    if ← atLineBreak all p then return ([], p)
    else
      let (first, (p : Cursor)) ← item p
      let (items, p) ← p |>.moreItems
      return (first :: items, p)
  else return ([], p)
partial_fixpoint

def bareTuple (p : Nat) : Run (Literal × Nat) := do
  let (first, p) ← item p
  match (← tokenAt all p).kind with
  | .word w =>
    if w == comma then
      let (items, p) ← moreItems all item p
      return (.tuple (first :: items), p)
    else return (first, p)
  | _ => return (first, p)

end Readers

/-- Names are read at a position as they are from the list of the tokens there. -/
class LawfulPositions (ω : Type) [BEq ω] [Vocabulary ω] [Positioned ω] : Prop where
  wholeName_matches {all : List (Token ω)} {fin : Span} {tail ts : List (Token ω)} {p : Nat}
    (first : String) : Sees all fin tail p ts →
    Matches (Stands all fin tail) (Positioned.wholeName all first p) (wholeName fin first ts)

variable [lawful : LawfulVocabulary ω]

instance : Mark (.word (comma : ω)) := mark_word lawful.comma_iff

section Values

variable [Positioned ω] {name : String} {first : Literal} {b : Bracket}

/-- Values and sequences of less than so many tokens are read at positions as from lists. -/
structure ValuesMatch (all : List (Token ω)) (fin : Span) (tail : List (Token ω)) (size : Nat) :
    Prop where
  atom {p : Nat} {ts : List (Token ω)} : Sees all fin tail p ts → ts.length < size →
    Matches (Stands all fin tail) (atom all p) (ViewBridge.atom fin ts)
  sequence {p : Nat} {ts : List (Token ω)} (b : Bracket) : Sees all fin tail p ts → ts.length < size →
    Matches (Stands all fin tail) (sequence all b p) (ViewBridge.sequence fin b ts)

omit lawful in
theorem nameEnd_matches (below : ValuesMatch all fin tail size) (h : Sees all fin tail p ts)
    (hn : ts.length ≤ size) : Matches (Stands all fin tail)
      (do
        let (called, p) ← accept all p (.opening .round)
        if called then
          let (args, p) ← sequence all .round p
          return (.call name args, p)
        else return (.ofName name, p))
      (nameEnd fin name ts) := by
  rcases h.accept (.opening .round) with ⟨s, left, rfl, eq⟩ | ⟨other, eq⟩
  · simp only [eq, pure_bind, ↓reduceIte, nameEnd]
    exact (below.sequence .round h.next hn).build_map fun _ _ _ => ⟨_, rfl, rfl⟩
  · simp only [eq, pure_bind, Bool.false_eq_true, ↓reduceIte]
    unfold nameEnd
    split
    next => exact absurd rfl other
    next => exact .ok (.at h)

theorem groupEnd_matches (below : ValuesMatch all fin tail size) (h : Sees all fin tail p ts)
    (hn : ts.length ≤ size) : Matches (Stands all fin tail)
      (do
        let (closed, p) ← accept all p (.closing .round)
        if closed then return (first, p)
        else
          let (_, p) ← consume all p (.word comma) .commaOrCloseParen
          let (items, p) ← sequence all .round p
          return (.tuple (first :: items), p))
      (groupEnd fin first ts) := by
  rcases h.accept (.closing .round) with ⟨s, left, rfl, eq⟩ | ⟨goesOn, eq⟩
  · rw [eq, pure_bind]
    exact .ok (.at h.next)
  · simp only [eq, pure_bind, Bool.false_eq_true, ↓reduceIte]
    rcases h.consume (.word comma) .commaOrCloseParen with ⟨s, left, rfl, eq⟩ | ⟨bare, eq⟩
    · simp only [eq, pure_bind, groupEnd, afterComma?_comma]
      exact (below.sequence .round h.next hn).build_map fun _ _ _ => ⟨_, rfl, rfl⟩
    · unfold groupEnd
      rw [eq, afterComma?_eq_none bare]
      dsimp only
      split
      next => exact absurd rfl goesOn
      next => exact (refuse_matches (R := Eq) h _).error_bind

theorem sequenceEnd_matches (below : ValuesMatch all fin tail size) (h : Sees all fin tail p ts)
    (hn : ts.length ≤ size) : Matches (Stands all fin tail)
      (do
        let (goesOn, p) ← accept all p (.word comma)
        if goesOn then
          let (items, p) ← sequence all b p
          return (first :: items, p)
        else
          let (_, p) ← consume all p (.closing b) .commaOrClosingBracket
          return ([first], p))
      (sequenceEnd fin b first ts) := by
  rcases h.accept (.word comma) with ⟨s, left, rfl, eq⟩ | ⟨last, eq⟩
  · simp only [eq, pure_bind, ↓reduceIte, sequenceEnd, afterComma?_comma]
    exact (below.sequence b h.next hn).build_map fun _ _ _ => ⟨_, rfl, rfl⟩
  · simp only [eq, pure_bind, Bool.false_eq_true, ↓reduceIte]
    unfold sequenceEnd
    rw [afterComma?_eq_none last]
    rcases h.consume (.closing b) .commaOrClosingBracket with ⟨s, left, rfl, eq⟩ | ⟨bare, eq⟩
    · simp only [eq, pure_bind, ↓reduceIte]
      exact .ok (.at h.next)
    · rw [eq]
      dsimp only
      split
      next b' s rest =>
        rw [if_neg fun hb => bare (by rw [hb]; rfl)]
        exact (refuse_matches (R := Eq) h _).error_bind
      next => exact (refuse_matches (R := Eq) h _).error_bind

variable [positions : LawfulPositions ω]

theorem atom_step_matches (below : ValuesMatch all fin tail size) (h : Sees all fin tail p ts)
    (hn : ts.length ≤ size) :
    Matches (Stands all fin tail) (atom all p) (ViewBridge.atom fin ts) := by
  rw [atom]
  cases ts with
  | nil =>
    rw [h.tokenAt_finish, pure_bind, ViewBridge.atom.eq_def]
    exact refuse_matches h _
  | cons t rest =>
    obtain ⟨k, s⟩ := t
    rw [length_cons] at hn
    rw [h.tokenAt, pure_bind]
    have next := h.next
    cases k with
    | word w =>
      dsimp only
      cases hw : lead w with
      | literal value =>
        simp only [h.advance, pure_bind]
        rw [atom_literal hw]
        exact .ok (.at next)
      | name text =>
        simp only [h.advance, pure_bind]
        rw [atom_named hw]
        refine (positions.wholeName_matches text next).stands fun name q behind read hb => ?_
        have shorter := ((lawful.wholeName_sound fin text rest).of_ok read).length_le
        exact nameEnd_matches below hb (by dsimp only at shorter ⊢; omega)
      | other =>
        rw [atom_refused (by simp [startsValue, hw])]
        exact refuse_matches h _
    | opening b =>
      cases b with
      | square =>
        simp only [h.advance, pure_bind]
        rw [atom_list]
        exact (below.sequence .square next (by omega)).build_map fun _ _ _ => ⟨_, rfl, rfl⟩
      | round =>
        simp only [h.advance, pure_bind]
        rcases next.accept (.closing .round) with ⟨s', left, rfl, eq⟩ | ⟨inside, eq⟩
        · rw [eq, pure_bind, atom_unit]
          exact .ok (.at next.next)
        · rw [eq, pure_bind, atom_group inside]
          refine (below.atom next (by omega)).stands fun first q behind read hb => ?_
          have shorter := length_lt_of_atom read
          exact groupEnd_matches below hb (by dsimp only; omega)
      | curly =>
        rw [atom_refused rfl]
        exact refuse_matches h _
    | eof => exact absurd rfl (h.plain _ mem_cons_self)
    | _ =>
      rw [atom_refused rfl]
      exact refuse_matches h _

theorem sequence_step_matches (below : ValuesMatch all fin tail size)
    (h : Sees all fin tail p ts) (hn : ts.length ≤ size) :
    Matches (Stands all fin tail) (sequence all b p) (ViewBridge.sequence fin b ts) := by
  have first := atom_step_matches below h hn
  rw [sequence]
  rcases h.accept (.closing b) with ⟨s, left, rfl, eq⟩ | ⟨inside, eq⟩
  · rw [eq, pure_bind, sequence_close]
    exact .ok (.at h.next)
  · rw [eq, pure_bind]
    by_cases mismatch : ∃ b' s rest, ts = ⟨.closing b', s⟩ :: rest
    · obtain ⟨b', s, rest, rfl⟩ := mismatch
      rw [atom_refused rfl] at first
      rw [sequence_mismatch fun hb => inside (by rw [hb]; rfl)]
      exact first.error_bind
    · have items : ∀ b', headKind ts ≠ some (.closing b') := by
        rintro b' hb
        obtain ⟨t, ht, hk⟩ := Option.map_eq_some_iff.mp hb
        obtain ⟨rest, rfl⟩ := head?_eq_some_iff.mp ht
        exact mismatch ⟨b', t.span, rest, by rw [← hk]⟩
      rw [sequence_items items]
      refine first.stands fun first q behind read hb => ?_
      have shorter := length_lt_of_atom read
      exact sequenceEnd_matches below hb (by dsimp only; omega)

theorem valuesMatch (size : Nat) : ValuesMatch all fin tail size := by
  induction size with
  | zero => constructor <;> simp
  | succ size ih =>
    exact ⟨fun h hn => atom_step_matches ih h (Nat.le_of_lt_succ hn),
      fun _ h hn => sequence_step_matches ih h (Nat.le_of_lt_succ hn)⟩

theorem atom_matches (h : Sees all fin tail p ts) :
    Matches (Stands all fin tail) (atom all p) (ViewBridge.atom fin ts) :=
  (valuesMatch (ts.length + 1)).atom h (Nat.lt_succ_self _)

end Values

section Items

variable {item : Nat → Run (Literal × Nat)}
  {listItem : List (Token ω) → Except Fault (Literal × List (Token ω))}

theorem moreItems_matches
    (items : ∀ {p ts}, Sees all fin tail p ts → Matches (Stands all fin tail) (item p) (listItem ts))
    (shorten : ∀ {ts v rest}, listItem ts = .ok (v, rest) → rest.length ≤ ts.length)
    (h : Sees all fin tail p ts) :
    Matches (Stands all fin tail) (moreItems all item p) (ViewBridge.moreItems listItem fin ts) := by
  induction hn : ts.length using Nat.strongRecOn generalizing ts p with
  | ind size ih =>
    rw [moreItems]
    rcases h.accept (.word comma) with ⟨s, left, rfl, eq⟩ | ⟨last, eq⟩
    · rw [length_cons] at hn
      simp only [eq, pure_bind, atLineBreak_eq h.next, moreItems_comma, ↓reduceIte]
      split
      · exact .ok (.at h.next)
      · refine (items h.next).stands fun first q behind read hb => ?_
        have shorter := shorten read
        dsimp only
        rw [if_pos shorter]
        exact (ih behind.length (by omega) hb rfl).build_map fun _ _ _ => ⟨_, rfl, rfl⟩
    · rw [eq, pure_bind, moreItems_end last]
      exact .ok (.at h)

theorem bareTuple_matches
    (items : ∀ {p ts}, Sees all fin tail p ts → Matches (Stands all fin tail) (item p) (listItem ts))
    (shorten : ∀ {ts v rest}, listItem ts = .ok (v, rest) → rest.length ≤ ts.length)
    (h : Sees all fin tail p ts) :
    Matches (Stands all fin tail) (bareTuple all item p) (ViewBridge.bareTuple listItem fin ts) := by
  unfold bareTuple
  rw [bareTuple_eq]
  refine (items h).stands fun first q behind _ hb => ?_
  dsimp only [bareEnd]
  cases behind with
  | nil =>
    rw [hb.tokenAt_finish, pure_bind]
    exact .ok (.at hb)
  | cons t left =>
    obtain ⟨k, s⟩ := t
    rw [hb.tokenAt, pure_bind]
    cases k with
    | word w =>
      by_cases hw : w = comma
      · subst hw
        simp only [(lawful.comma_iff comma).mpr rfl, ↓reduceIte, afterComma?_comma]
        exact (moreItems_matches items shorten hb).build_map fun _ _ _ => ⟨_, rfl, rfl⟩
      · have other : headKind (⟨.word w, s⟩ :: left) ≠ some (.word comma) :=
          fun eq => hw (TokenKind.word.inj (Option.some.inj eq))
        rw [afterComma?_eq_none other]
        simp only [mt (lawful.comma_iff w).mp hw, Bool.false_eq_true, ↓reduceIte]
        exact .ok (.at hb)
    | _ => exact .ok (.at hb)

end Items

end Cursor

end ViewBridge
