import ViewBridge.Proofs.Source.Faults
import ViewBridge.Proofs.Source.Lockstep

namespace ViewBridge

open Vocabulary List

/-- Comparing tells the comma from all other words, and reading a name leaves an end of its tokens. -/
class LawfulVocabulary (ω : Type) [BEq ω] [Vocabulary ω] : Prop where
  comma_iff (w : ω) : (w == comma) = true ↔ w = comma
  wholeName_sound (fin : Span) (first : String) (ts : List (Token ω)) :
    Sound fin ts (wholeName fin first ts)

/-- What holds of a list of tokens holds of its ends. -/
class Inherited {ω : Type} (Q : List (Token ω) → Prop) : Prop where
  suffix {ts rest : List (Token ω)} : rest <:+ ts → Q ts → Q rest

instance {ω : Type} : Inherited fun _ : List (Token ω) => True := ⟨fun _ h => h⟩

variable {ω : Type} {fin s s' : Span} {ts rest : List (Token ω)} {b : Bracket}

/-- The rest of some tokens of which at least one was taken. -/
abbrev Taken (ts rest : List (Token ω)) : Prop := rest <:+ ts ∧ rest.length < ts.length

theorem taken_cons (t : Token ω) (rest : List (Token ω)) : Taken (t :: rest) rest :=
  ⟨suffix_cons t rest, Nat.lt_succ_self _⟩

theorem Taken.trans {left : List (Token ω)} (h : Taken ts rest) (hl : left <:+ rest) : Taken ts left :=
  ⟨hl.trans h.1, Nat.lt_of_le_of_lt hl.length_le h.2⟩

section Gives

variable [Describable ω] {Q : List (Token ω) → Prop} {α β : Type} {G : α → Prop} {H : β → Prop}
  {x : Except Fault (α × List (Token ω))} {k : α × List (Token ω) → Except Fault β}

/-- A sound reader, whose result is as `G` tells if its tokens are as `Q` tells. -/
abbrev Gives (Q : List (Token ω) → Prop) (fin : Span) (ts : List (Token ω)) (G : α → Prop)
    (x : Except Fault (α × List (Token ω))) : Prop :=
  Answers (Blames fin ts) (fun p => p.2 <:+ ts ∧ (Q ts → G p.1)) x

/-- The same of a reader that takes at least one token. -/
abbrev Draws (Q : List (Token ω) → Prop) (fin : Span) (ts : List (Token ω)) (G : α → Prop)
    (x : Except Fault (α × List (Token ω))) : Prop :=
  Answers (Blames fin ts) (fun p => Taken ts p.2 ∧ (Q ts → G p.1)) x

/-- A reader that takes at least one token, or leaves a fault about them. -/
abbrev Takes (fin : Span) (ts : List (Token ω)) (x : Except Fault (α × List (Token ω))) : Prop :=
  Answers (Blames fin ts) (Taken ts ·.2) x

theorem Sound.behind (h : Sound fin rest x) (taken : Taken ts rest) : Takes fin ts x :=
  h.imp (fun _ hb => hb.mono taken.1) fun _ hl => taken.trans hl

theorem Takes.sound (h : Takes fin ts x) : Sound fin ts x := h.imp (fun _ hb => hb) fun _ hr => hr.1

theorem Gives.sound (h : Gives Q fin ts G x) : Sound fin ts x :=
  h.imp (fun _ hb => hb) fun _ hr => hr.1

theorem Sound.gives (h : Sound fin ts x) (hg : ∀ a, G a) : Gives Q fin ts G x :=
  h.imp (fun _ hb => hb) fun p hr => ⟨hr, fun _ => hg p.1⟩

theorem Draws.gives (h : Draws Q fin ts G x) : Gives Q fin ts G x :=
  h.imp (fun _ hb => hb) fun _ hr => ⟨hr.1.1, hr.2⟩

variable [inherited : Inherited Q]

theorem Gives.mono (h : Gives Q fin rest G x) (sub : rest <:+ ts) : Gives Q fin ts G x :=
  h.imp (fun _ hb => hb.mono sub) fun _ hr => ⟨hr.1.trans sub, fun hq => hr.2 (inherited.suffix sub hq)⟩

theorem Gives.then (h : Gives Q fin rest G x) (sub : rest <:+ ts)
    (hk : ∀ a left, left <:+ ts → (Q ts → G a) → Answers (Blames fin ts) H (k (a, left))) :
    Answers (Blames fin ts) H (x.bind k) :=
  (h.mono sub).bind fun p _ hp => hk p.1 p.2 hp.1 hp.2

theorem Draws.then (h : Draws Q fin rest G x) (sub : rest <:+ ts)
    (hk : ∀ a left, Taken ts left → (Q ts → G a) → Answers (Blames fin ts) H (k (a, left))) :
    Answers (Blames fin ts) H (x.bind k) :=
  (h.imp (fun _ hb => hb.mono sub) fun _ hr => hr).bind fun p _ hp =>
    hk p.1 p.2 ⟨hp.1.1.trans sub, Nat.lt_of_lt_of_le hp.1.2 sub.length_le⟩
      fun hq => hp.2 (inherited.suffix sub hq)

end Gives

def headKind (ts : List (Token ω)) : Option (TokenKind ω) := ts.head?.map (·.kind)

@[simp] theorem headKind_nil : headKind ([] : List (Token ω)) = none := rfl

@[simp] theorem headKind_cons (t : Token ω) (ts : List (Token ω)) :
    headKind (t :: ts) = some t.kind := rfl

section Lines

variable {m n : Nat} {R : TokenRel ω} (hR : Lockstep m n R) {fin' : Span}
  {ts' : List (Token ω)}

include hR

theorem headKind_lockstep (h : R ts ts') : headKind ts = headKind ts' := by
  cases hR.heads h <;> rfl

theorem unexpected_lockstep [Describable ω] {expected : Expected} (h : R ts ts') :
    (unexpected fin expected ts).unplaced = (unexpected fin' expected ts').unplaced := by
  cases hR.heads h <;> rfl

theorem atLineEnd_lockstep (h : R ts ts') : atLineEnd ts = atLineEnd ts' := by
  cases hR.heads h with
  | nil => rfl
  | @cons k => cases k <;> rfl

end Lines

variable [BEq ω] [Vocabulary ω]

/-- A property of values that is shared by all that are read from tokens as `Q` tells. -/
structure ValuesKeep (Q : List (Token ω) → Prop) (G : Literal → Prop) : Prop where
  literal {w s ts value} : Q (⟨.word w, s⟩ :: ts) → lead w = .literal value → G value
  name {w s ts first fin name rest} : Q (⟨.word w, s⟩ :: ts) → lead w = .name first →
    wholeName fin first ts = .ok (name, rest) →
    G (.ofName name) ∧ ∀ args, (∀ v ∈ args, G v) → G (.call name args)
  list {items} : (∀ v ∈ items, G v) → G (.list items)
  tuple {items} : (∀ v ∈ items, G v) → G (.tuple items)

/-- Values and sequences of less than so many tokens are read from at least one of them. -/
structure ValuesDrawn (Q : List (Token ω) → Prop) (G : Literal → Prop) (fin : Span) (size : Nat) :
    Prop where
  atom (ts : List (Token ω)) : ts.length < size → Draws Q fin ts G (atom fin ts)
  sequence (b : Bracket) (ts : List (Token ω)) : ts.length < size →
    Draws Q fin ts (fun items => ∀ v ∈ items, G v) (sequence fin b ts)

variable [lawful : LawfulVocabulary ω]

@[simp] theorem afterComma?_comma : afterComma? (⟨.word comma, s⟩ :: ts) = some ts :=
  if_pos ((lawful.comma_iff _).mpr rfl)

theorem afterComma?_eq_some (h : afterComma? ts = some rest) : ∃ s, ts = ⟨.word comma, s⟩ :: rest := by
  unfold afterComma? at h
  split at h
  next w s _ =>
    split at h
    next hw =>
      cases (lawful.comma_iff w).mp hw
      cases h
      exact ⟨s, rfl⟩
    next => cases h
  next => cases h

section Values

variable {Q : List (Token ω) → Prop} [inherited : Inherited Q] {G : Literal → Prop} {size : Nat}

theorem atom_step_draws (keep : ValuesKeep Q G) (below : ValuesDrawn Q G fin size)
    (hn : ts.length ≤ size) : Draws Q fin ts G (atom fin ts) := by
  rw [atom.eq_def]
  split
  case h_1 w s tail =>
    rw [length_cons] at hn
    split
    next hl => exact .ok ⟨taken_cons _ _, fun hq => keep.literal hq hl⟩
    next first hl =>
      refine Answers.bind ((lawful.wholeName_sound fin first tail).behind (taken_cons _ tail)) ?_
      rintro ⟨name, rest⟩ read taken
      have named hq := keep.name (s := s) hq hl read
      dsimp only at taken ⊢
      split
      next args =>
        have taken := taken.trans (suffix_cons _ args)
        split
        next shorter =>
          exact (below.sequence _ _ (by omega)).then taken.1
            fun items _ hl hi => .ok ⟨hl, fun hq => (named hq).2 items (hi hq)⟩
        next => exact refused _ taken.1
      next => exact .ok ⟨taken, fun hq => (named hq).1⟩
    next => exact refused _ (suffix_refl _)
  case h_2 =>
    exact (below.sequence _ _ hn).then (suffix_cons _ _)
      fun _ _ hl hi => .ok ⟨hl, fun hq => keep.list (hi hq)⟩
  case h_3 =>
    exact .ok ⟨(taken_cons _ _).trans (suffix_cons _ _), fun _ => keep.tuple (forall_mem_nil _)⟩
  case h_4 inner _ =>
    rw [length_cons] at hn
    refine (below.atom _ (by omega)).then (suffix_cons _ _) fun first behind hb hf => ?_
    dsimp only
    split
    next items ha =>
      obtain ⟨_, rfl⟩ := afterComma?_eq_some ha
      have taken := hb.trans (suffix_cons _ items)
      split
      next shorter =>
        exact (below.sequence _ _ (by omega)).then taken.1
          fun _ _ hl hi => .ok ⟨hl, fun hq => keep.tuple (forall_mem_cons.mpr ⟨hf hq, hi hq⟩)⟩
      next => exact refused _ taken.1
    next =>
      split
      next => exact .ok ⟨hb.trans (suffix_cons _ _), hf⟩
      next => exact refused _ hb.1
  case h_5 => exact refused _ (suffix_refl _)

theorem sequence_step_draws (keep : ValuesKeep Q G) (below : ValuesDrawn Q G fin size)
    (hn : ts.length ≤ size) : Draws Q fin ts (fun items => ∀ v ∈ items, G v) (sequence fin b ts) := by
  rw [sequence.eq_def]
  split
  next =>
    split
    next => exact .ok ⟨taken_cons _ _, fun _ => forall_mem_nil _⟩
    next => exact refused _ (suffix_refl _)
  next =>
    refine (atom_step_draws keep below hn).then (suffix_refl _) fun first behind hb hf => ?_
    dsimp only
    split
    next items ha =>
      obtain ⟨_, rfl⟩ := afterComma?_eq_some ha
      have taken := hb.trans (suffix_cons _ items)
      split
      next shorter =>
        exact (below.sequence _ _ (by omega)).then taken.1
          fun _ _ hl hi => .ok ⟨hl, fun hq => forall_mem_cons.mpr ⟨hf hq, hi hq⟩⟩
      next => exact refused _ taken.1
    next =>
      split
      next =>
        split
        next =>
          exact .ok ⟨hb.trans (suffix_cons _ _), fun hq => forall_mem_singleton.mpr (hf hq)⟩
        next => exact refused _ hb.1
      next => exact refused _ hb.1

theorem valuesDrawn (keep : ValuesKeep Q G) (size : Nat) : ValuesDrawn Q G fin size := by
  induction size with
  | zero => constructor <;> simp
  | succ size ih =>
    exact ⟨fun _ hn => atom_step_draws keep ih (Nat.le_of_lt_succ hn),
      fun _ _ hn => sequence_step_draws keep ih (Nat.le_of_lt_succ hn)⟩

theorem atom_draws (keep : ValuesKeep Q G) (ts : List (Token ω)) : Draws Q fin ts G (atom fin ts) :=
  (valuesDrawn keep (ts.length + 1)).atom ts (Nat.lt_succ_self _)

omit lawful in
theorem trivialKeep : ValuesKeep (fun _ : List (Token ω) => True) fun _ => True :=
  ⟨fun _ _ => trivial, fun _ _ _ => ⟨trivial, fun _ _ => trivial⟩, fun _ => trivial, fun _ => trivial⟩

theorem atom_takes (ts : List (Token ω)) : Takes fin ts (atom fin ts) :=
  (atom_draws trivialKeep ts).imp (fun _ hb => hb) fun _ hr => hr.1

theorem length_lt_of_atom {v : Literal} (h : atom fin ts = .ok (v, rest)) :
    rest.length < ts.length :=
  ((atom_takes ts).of_ok h).2

variable {item : List (Token ω) → Except Fault (Literal × List (Token ω))}

omit lawful in
theorem moreItems_gives (items : ∀ ts, Gives Q fin ts G (item ts)) (ts : List (Token ω)) :
    Gives Q fin ts (fun items => ∀ v ∈ items, G v) (moreItems item fin ts) := by
  induction hn : ts.length using Nat.strongRecOn generalizing ts with
  | ind size ih =>
    have none : Gives Q fin ts (fun items => ∀ v ∈ items, G v) (.ok (([] : List Literal), ts)) :=
      .ok ⟨suffix_refl _, fun _ => forall_mem_nil _⟩
    rw [moreItems.eq_def]
    split
    next rest =>
      rw [length_cons] at hn
      split
      next =>
        split
        next => exact .ok ⟨suffix_cons _ _, fun _ => forall_mem_nil _⟩
        next =>
          refine (items rest).then (suffix_cons _ _) fun first behind hb hf => ?_
          dsimp only
          split
          next shorter =>
            exact (ih behind.length (by omega) behind rfl).then hb
              fun _ _ hl hi => .ok ⟨hl, fun hq => forall_mem_cons.mpr ⟨hf hq, hi hq⟩⟩
          next => exact refused _ hb
      next => exact none
    next => exact none

omit lawful in
theorem bareTuple_gives (keep : ValuesKeep Q G) (items : ∀ ts, Gives Q fin ts G (item ts))
    (ts : List (Token ω)) : Gives Q fin ts G (bareTuple item fin ts) := by
  refine (items ts).then (suffix_refl _) fun first rest hr hf => ?_
  dsimp only
  split
  next =>
    exact (moreItems_gives items rest).then hr
      fun _ _ hl hi => .ok ⟨hl, fun hq => keep.tuple (forall_mem_cons.mpr ⟨hf hq, hi hq⟩)⟩
  next => exact .ok ⟨hr, hf⟩

end Values

section Ends

omit lawful

/-- What follows a name: the arguments of a call, or something else. -/
def nameEnd (fin : Span) (name : String) (ts : List (Token ω)) :
    Except Fault (Literal × List (Token ω)) :=
  match ts with
  | ⟨.opening .round, _⟩ :: rest => (sequence fin .round rest).map fun p => (.call name p.1, p.2)
  | ts => .ok (.ofName name, ts)

/-- What follows the first value in round brackets. -/
def groupEnd (fin : Span) (first : Literal) (ts : List (Token ω)) :
    Except Fault (Literal × List (Token ω)) :=
  match afterComma? ts with
  | some rest => (sequence fin .round rest).map fun p => (.tuple (first :: p.1), p.2)
  | none =>
    match ts with
    | ⟨.closing .round, _⟩ :: rest => .ok (first, rest)
    | ts => .error (unexpected fin .commaOrCloseParen ts)

/-- What follows a value of a sequence. -/
def sequenceEnd (fin : Span) (b : Bracket) (first : Literal) (ts : List (Token ω)) :
    Except Fault (List Literal × List (Token ω)) :=
  match afterComma? ts with
  | some rest => (sequence fin b rest).map fun p => (first :: p.1, p.2)
  | none =>
    match ts with
    | ⟨.closing b', s⟩ :: rest =>
      if b' = b then .ok ([first], rest)
      else .error (unexpected fin .commaOrClosingBracket (⟨.closing b', s⟩ :: rest))
    | ts => .error (unexpected fin .commaOrClosingBracket ts)

/-- What follows the first item of a tuple that may do without brackets. -/
def bareEnd (item : List (Token ω) → Except Fault (Literal × List (Token ω))) (fin : Span)
    (first : Literal) (ts : List (Token ω)) : Except Fault (Literal × List (Token ω)) :=
  match afterComma? ts with
  | some _ => (moreItems item fin ts).map fun p => (.tuple (first :: p.1), p.2)
  | none => .ok (first, ts)

end Ends

/-- Whether a token can be the first one of a value. -/
def startsValue : TokenKind ω → Bool
  | .word w =>
    match lead w with
    | .literal _ | .name _ => true
    | .other => false
  | .opening .round | .opening .square => true
  | _ => false

section Equations

variable {w : ω} {item : List (Token ω) → Except Fault (Literal × List (Token ω))}

theorem afterComma?_eq_none (h : headKind ts ≠ some (.word comma)) : afterComma? ts = none := by
  cases ha : afterComma? ts with
  | none => rfl
  | some rest =>
    obtain ⟨s, rfl⟩ := afterComma?_eq_some ha
    exact absurd rfl h

omit lawful in
theorem atom_literal {v : Literal} (h : lead w = .literal v) :
    atom fin (⟨.word w, s⟩ :: ts) = .ok (v, ts) := by
  rw [atom.eq_def]
  simp only [h]

theorem atom_named {first : String} (h : lead w = .name first) :
    atom fin (⟨.word w, s⟩ :: ts) =
      (wholeName fin first ts).bind fun p => nameEnd fin p.1 p.2 := by
  rw [atom.eq_def]
  simp only [h]
  cases read : wholeName fin first ts with
  | error fault => rfl
  | ok p =>
    obtain ⟨name, rest⟩ := p
    have shorter := ((lawful.wholeName_sound fin first ts).of_ok read).length_le
    cases rest with
    | nil => rfl
    | cons t args =>
      obtain ⟨k, _⟩ := t
      cases k with
      | opening b =>
        cases b with
        | round =>
          simp only [bind, Except.bind, nameEnd]
          rw [if_pos (by exact shorter)]
          cases sequence fin .round args <;> rfl
        | _ => rfl
      | _ => rfl

omit lawful in
theorem atom_list : atom fin (⟨.opening .square, s⟩ :: rest) =
    (sequence fin .square rest).map fun p => (.list p.1, p.2) := by
  rw [atom.eq_def]
  dsimp only
  cases sequence fin .square rest <;> rfl

omit lawful in
theorem atom_unit : atom fin (⟨.opening .round, s⟩ :: ⟨.closing .round, s'⟩ :: rest) =
    .ok (.tuple [], rest) := by
  rw [atom.eq_def]

theorem atom_group (h : headKind rest ≠ some (.closing .round)) :
    atom fin (⟨.opening .round, s⟩ :: rest) =
      (atom fin rest).bind fun p => groupEnd fin p.1 p.2 := by
  rw [atom]
  · cases read : atom fin rest with
    | error fault => rfl
    | ok p =>
      obtain ⟨first, behind⟩ := p
      have shorter := length_lt_of_atom read
      cases ha : afterComma? behind with
      | none =>
        simp only [bind, Except.bind, groupEnd, ha]
        cases behind with
        | nil => rfl
        | cons t _ =>
          obtain ⟨k, _⟩ := t
          cases k with
          | closing b => cases b <;> rfl
          | _ => rfl
      | some items =>
        obtain ⟨_, rfl⟩ := afterComma?_eq_some ha
        rw [length_cons] at shorter
        simp only [bind, Except.bind, groupEnd, ha]
        rw [if_pos (by omega)]
        cases sequence fin .round items <;> rfl
  · rintro span rest' rfl
    exact h rfl

omit lawful in
theorem atom_refused {t : Token ω} (h : startsValue t.kind = false) :
    atom fin (t :: rest) = .error (unexpected fin
      (if atLineEnd (t :: rest) then missing ω else .value) (t :: rest)) := by
  obtain ⟨k, s⟩ := t
  rw [atom.eq_def]
  cases k with
  | word w =>
    dsimp only [startsValue] at h ⊢
    split
    next eq => simp [eq] at h
    next eq => simp [eq] at h
    next => rfl
  | opening b =>
    cases b with
    | round | square => cases h
    | curly => rfl
  | _ => rfl

omit lawful in
theorem sequence_close : sequence fin b (⟨.closing b, s⟩ :: rest) = .ok ([], rest) := by
  rw [sequence.eq_def]
  exact if_pos rfl

omit lawful in
theorem sequence_mismatch {b' : Bracket} (h : b' ≠ b) : sequence fin b (⟨.closing b', s⟩ :: rest) =
      .error (unexpected fin .value (⟨.closing b', s⟩ :: rest)) := by
  rw [sequence.eq_def]
  exact if_neg h

theorem sequence_items (h : ∀ b', headKind ts ≠ some (.closing b')) :
    sequence fin b ts = (atom fin ts).bind fun p => sequenceEnd fin b p.1 p.2 := by
  rw [sequence]
  · cases read : atom fin ts with
    | error fault => rfl
    | ok p =>
      obtain ⟨first, behind⟩ := p
      have shorter := length_lt_of_atom read
      cases ha : afterComma? behind with
      | none =>
        simp only [bind, Except.bind, sequenceEnd, ha]
        cases behind with
        | nil => rfl
        | cons t _ =>
          obtain ⟨k, _⟩ := t
          cases k with
          | closing b => rfl
          | _ => rfl
      | some items =>
        obtain ⟨_, rfl⟩ := afterComma?_eq_some ha
        rw [length_cons] at shorter
        simp only [bind, Except.bind, sequenceEnd, ha]
        rw [if_pos (by omega)]
        cases sequence fin b items <;> rfl
  · rintro b' span rest' rfl
    exact h b' rfl

theorem moreItems_comma : moreItems item fin (⟨.word comma, s⟩ :: rest) =
      if atLineEnd rest then .ok ([], rest)
      else (item rest).bind fun p =>
        if p.2.length ≤ rest.length then (moreItems item fin p.2).map fun q => (p.1 :: q.1, q.2)
        else .error (unexpected fin .value p.2) := by
  rw [moreItems.eq_def]
  dsimp only
  rw [if_pos ((lawful.comma_iff _).mpr rfl)]
  split
  · rfl
  · cases item rest with
    | error fault => rfl
    | ok p =>
      simp only [bind, Except.bind]
      split
      · cases moreItems item fin p.2 <;> rfl
      · rfl

theorem moreItems_end (h : headKind ts ≠ some (.word comma)) :
    moreItems item fin ts = .ok ([], ts) := by
  rw [moreItems.eq_def]
  split
  next w _ _ => exact if_neg fun hw => h (by rw [(lawful.comma_iff w).mp hw]; rfl)
  next => rfl

omit lawful in
theorem bareTuple_eq : bareTuple item fin ts = (item ts).bind fun p => bareEnd item fin p.1 p.2 := by
  unfold bareTuple
  cases item ts with
  | error fault => rfl
  | ok p =>
    obtain ⟨first, rest⟩ := p
    cases ha : afterComma? rest with
    | none =>
      simp only [bind, Except.bind, bareEnd, ha]
      rfl
    | some =>
      simp only [bind, Except.bind, bareEnd, ha]
      cases moreItems item fin rest <;> rfl

end Equations

section Lockstep

variable {fin' : Span} {ts' : List (Token ω)} {m n : Nat} {R : TokenRel ω}
  {F : Fault → Fault → Prop} {name : String} {first : Literal}

omit lawful

/-- Readers of a line that leave related tokens: what they start from is related, and so are the faults
and the names that they find there. -/
structure NamesAgree (m n : Nat) (F : Fault → Fault → Prop) (R : TokenRel ω)
    (fin fin' : Span) : Prop extends Lockstep m n R where
  fault (expected : Expected) {ts ts' : _} : R ts ts' → F (unexpected fin expected ts) (unexpected fin' expected ts')
  name {first ts ts' : _} : R ts ts' →
    Agree F (Leaves Eq R) (wholeName fin first ts) (wholeName fin' first ts')

/-- Values and sequences of less than so many tokens are read the same. -/
structure ValuesAgree (F : Fault → Fault → Prop) (R : TokenRel ω)
    (fin fin' : Span) (size : Nat) : Prop where
  atom {ts ts' : _} : ts.length < size → R ts ts' →
    Agree F (Leaves Eq R) (atom fin ts) (atom fin' ts')
  sequence {b ts ts' : _} : ts.length < size → R ts ts' →
    Agree F (Leaves Eq R) (sequence fin b ts) (sequence fin' b ts')

include lawful

variable (hR : NamesAgree m n F R fin fin') {size : Nat}

include hR

theorem afterComma?_lockstep (h : R ts ts') :
    (∃ rest rest', afterComma? ts = some rest ∧ afterComma? ts' = some rest' ∧
      rest.length < ts.length ∧ R rest rest') ∨ afterComma? ts = none ∧ afterComma? ts' = none := by
  have heads := headKind_lockstep hR.toLockstep h
  by_cases hc : headKind ts = some (.word comma)
  · cases hR.heads h with
    | nil => cases hc
    | cons next =>
      cases hc
      exact .inl ⟨_, _, afterComma?_comma, afterComma?_comma, Nat.lt_succ_self _, next (by simp)⟩
  · exact .inr ⟨afterComma?_eq_none hc, afterComma?_eq_none (heads ▸ hc)⟩

omit lawful in
theorem nameEnd_lockstep (below : ValuesAgree F R fin fin' size) (hn : ts.length ≤ size)
    (h : R ts ts') : Agree F (Leaves Eq R) (nameEnd fin name ts) (nameEnd fin' name ts') := by
  cases hR.heads h with
  | nil => exact .ok ⟨rfl, h⟩
  | @cons k s s' rest rest' next =>
    cases k with
    | opening b =>
      cases b with
      | round => exact (below.sequence hn (next (by simp))).map_leaves fun _ _ _ hr => ⟨rfl, hr⟩
      | _ => exact .ok ⟨rfl, h⟩
    | _ => exact .ok ⟨rfl, h⟩

theorem groupEnd_lockstep (below : ValuesAgree F R fin fin' size) (hn : ts.length ≤ size)
    (h : R ts ts') : Agree F (Leaves Eq R) (groupEnd fin first ts) (groupEnd fin' first ts') := by
  unfold groupEnd
  rcases afterComma?_lockstep hR h with ⟨rest, rest', eq, eq', shorter, hr⟩ | ⟨eq, eq'⟩
  · rw [eq, eq']
    exact (below.sequence (by omega) hr).map_leaves fun _ _ _ hr => ⟨rfl, hr⟩
  · rw [eq, eq']
    have fault := hR.fault .commaOrCloseParen h
    cases hR.heads h with
    | nil => exact .error fault
    | @cons k _ _ _ _ next =>
      cases k with
      | closing b =>
        cases b with
        | round => exact .ok ⟨rfl, next (by simp)⟩
        | _ => exact .error fault
      | _ => exact .error fault

theorem sequenceEnd_lockstep (below : ValuesAgree F R fin fin' size) (hn : ts.length ≤ size)
    (h : R ts ts') : Agree F (Leaves Eq R) (sequenceEnd fin b first ts) (sequenceEnd fin' b first ts') := by
  unfold sequenceEnd
  rcases afterComma?_lockstep hR h with ⟨rest, rest', eq, eq', shorter, hr⟩ | ⟨eq, eq'⟩
  · rw [eq, eq']
    exact (below.sequence (by omega) hr).map_leaves fun _ _ _ hr => ⟨rfl, hr⟩
  · rw [eq, eq']
    have fault := hR.fault .commaOrClosingBracket h
    cases hR.heads h with
    | nil => exact .error fault
    | @cons k _ _ _ _ next =>
      cases k with
      | closing b' =>
        dsimp only
        split
        · exact .ok ⟨rfl, next (by simp)⟩
        · exact .error fault
      | _ => exact .error fault

theorem atom_step_lockstep (below : ValuesAgree F R fin fin' size) (hn : ts.length ≤ size)
    (h : R ts ts') : Agree F (Leaves Eq R) (atom fin ts) (atom fin' ts') := by
  have fault {expected} := hR.fault expected h
  have lines := atLineEnd_lockstep hR.toLockstep h
  cases hR.heads h with
  | nil =>
    rw [atom.eq_def fin, atom.eq_def fin']
    exact .error fault
  | @cons k s s' rest rest' next =>
    rw [length_cons] at hn
    have refused (hk : startsValue k = false) :
        Agree F (Leaves Eq R) (atom fin (⟨k, s⟩ :: rest)) (atom fin' (⟨k, s'⟩ :: rest')) := by
      rw [atom_refused hk, atom_refused hk, lines]
      exact .error fault
    cases k with
    | word w =>
      have hr := next (by simp)
      cases hw : lead w with
      | literal v =>
        rw [atom_literal hw, atom_literal hw]
        exact .ok ⟨rfl, hr⟩
      | name text =>
        rw [atom_named hw, atom_named hw]
        refine (hR.name hr).bind ?_
        rintro ⟨name, behind⟩ ⟨_, behind'⟩ read ⟨rfl, hb⟩
        have shorter := ((lawful.wholeName_sound fin text rest).of_ok read).length_le
        exact nameEnd_lockstep hR below (by dsimp only at shorter ⊢; omega) hb
      | other => exact refused (by simp [startsValue, hw])
    | opening b =>
      have hr := next (by simp)
      cases b with
      | square =>
        rw [atom_list, atom_list]
        exact (below.sequence (by omega) hr).map_leaves fun _ _ _ hr => ⟨rfl, hr⟩
      | curly => exact refused rfl
      | round =>
        by_cases hc : headKind rest = some (.closing .round)
        · cases hR.heads hr with
          | nil => cases hc
          | cons inner =>
            cases hc
            rw [atom_unit, atom_unit]
            exact .ok ⟨rfl, inner (by simp)⟩
        · rw [atom_group hc, atom_group (headKind_lockstep hR.toLockstep hr ▸ hc)]
          refine (below.atom (by omega) hr).bind ?_
          rintro ⟨first, behind⟩ ⟨_, behind'⟩ read ⟨rfl, hb⟩
          have shorter := length_lt_of_atom read
          exact groupEnd_lockstep hR below (by dsimp only; omega) hb
    | _ => exact refused rfl

theorem sequence_step_lockstep (below : ValuesAgree F R fin fin' size) (hn : ts.length ≤ size)
    (h : R ts ts') : Agree F (Leaves Eq R) (sequence fin b ts) (sequence fin' b ts') := by
  by_cases hc : ∃ b', headKind ts = some (.closing b')
  · obtain ⟨b', hc⟩ := hc
    have fault := hR.fault .value h
    cases hR.heads h with
    | nil => cases hc
    | cons next =>
      cases hc
      by_cases hb : b' = b
      · subst hb
        rw [sequence_close, sequence_close]
        exact .ok ⟨rfl, next (by simp)⟩
      · rw [sequence_mismatch hb, sequence_mismatch hb]
        exact .error fault
  · have other : ∀ b', headKind ts ≠ some (.closing b') := fun b' hk => hc ⟨b', hk⟩
    rw [sequence_items other, sequence_items (headKind_lockstep hR.toLockstep h ▸ other)]
    refine (atom_step_lockstep hR below hn h).bind ?_
    rintro ⟨first, behind⟩ ⟨_, behind'⟩ read ⟨rfl, hb⟩
    have shorter := length_lt_of_atom read
    exact sequenceEnd_lockstep hR below (by dsimp only; omega) hb

theorem valuesAgree (size : Nat) : ValuesAgree F R fin fin' size := by
  induction size with
  | zero => constructor <;> simp
  | succ size ih =>
    exact ⟨fun hn => atom_step_lockstep hR ih (Nat.le_of_lt_succ hn),
      fun hn => sequence_step_lockstep hR ih (Nat.le_of_lt_succ hn)⟩

theorem atom_lockstep (h : R ts ts') : Agree F (Leaves Eq R) (atom fin ts) (atom fin' ts') :=
  (valuesAgree hR (ts.length + 1)).atom (Nat.lt_succ_self _) h

variable {item item' : List (Token ω) → Except Fault (Literal × List (Token ω))}

theorem moreItems_lockstep
    (items : ∀ {ts ts'}, R ts ts' → Agree F (Leaves Eq R) (item ts) (item' ts')) (h : R ts ts') :
    Agree F (Leaves Eq R) (moreItems item fin ts) (moreItems item' fin' ts') := by
  induction hn : ts.length using Nat.strongRecOn generalizing ts ts' with
  | ind size ih =>
    by_cases hc : headKind ts = some (.word comma)
    · cases hR.heads h with
      | nil => cases hc
      | cons next =>
        cases hc
        have hr := next (by simp)
        rw [moreItems_comma, moreItems_comma, atLineEnd_lockstep hR.toLockstep hr]
        split
        · exact .ok ⟨rfl, hr⟩
        · refine (items hr).bind_leaves fun first behind behind' hb => ?_
          refine .guard (hR.le_iff hr hb) (hR.fault _ hb) fun shorter => ?_
          rw [length_cons] at hn
          exact (ih behind.length (by dsimp only at shorter; omega) hb rfl).map_leaves
            fun _ _ _ hr => ⟨rfl, hr⟩
    · rw [moreItems_end hc, moreItems_end (headKind_lockstep hR.toLockstep h ▸ hc)]
      exact .ok ⟨rfl, h⟩

theorem bareTuple_lockstep
    (items : ∀ {ts ts'}, R ts ts' → Agree F (Leaves Eq R) (item ts) (item' ts')) (h : R ts ts') :
    Agree F (Leaves Eq R) (bareTuple item fin ts) (bareTuple item' fin' ts') := by
  rw [bareTuple_eq, bareTuple_eq]
  refine (items h).bind_leaves fun first rest rest' hr => ?_
  unfold bareEnd
  rcases afterComma?_lockstep hR hr with ⟨_, _, eq, eq', _⟩ | ⟨eq, eq'⟩
  · simp only [eq, eq']
    exact (moreItems_lockstep hR items hr).map_leaves fun _ _ _ hr => ⟨rfl, hr⟩
  · simp only [eq, eq']
    exact .ok ⟨rfl, hr⟩

end Lockstep

end ViewBridge
