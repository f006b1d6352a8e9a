import ViewBridge.Proofs.Source.Faults
import ViewBridge.Proofs.Source.Lockstep

namespace ViewBridge

open List

/-- What stops a reader that keeps a position in its tokens: a fault of the tokens, an access beyond
them, or a count below zero. -/
inductive Halt where
  | fault (fault : Fault)
  | outOfRange
  | belowZero

/-- What becomes of a reader: an answer, a halt, or nothing where it never ends. -/
abbrev Run := ExceptT Halt Option

/-- The run that ends with an answer or a fault. -/
def Run.of {α : Type} : Except Fault α → Run α
  | .ok a => pure a
  | .error fault => throw (.fault fault)

/-- Goes on behind a fault. -/
def Run.attempt {α : Type} (run : Run α) : Run (Except Fault α) :=
  (match run with
  | none => none
  | some (.ok a) => some (.ok (.ok a))
  | some (.error (.fault fault)) => some (.ok (.error fault))
  | some (.error halt) => some (.error halt) : Option (Except Halt (Except Fault α)))

namespace Cursor

variable {ω α β γ δ : Type} {kind : TokenKind ω} {expected : Expected}

/-- A kind of token that comparing tells from all others. -/
class Mark [BEq ω] (kind : TokenKind ω) : Prop where
  beq_iff (k : TokenKind ω) : (k == kind) = true ↔ k = kind
  ne_eof : kind ≠ .eof

section Access

variable [BEq ω] [Describable ω] (all : List (Token ω)) (p : Nat)

def tokenAt : Run (Token ω) :=
  match all[p]? with
  | some t => pure t
  | none => throw .outOfRange

/-- One less. -/
def lower : Nat → Run Nat
  | 0 => throw .belowZero
  | n + 1 => pure n

/-- The kind of the token some places ahead, or of the last one. -/
def kindAhead (offset : Nat) : Run (TokenKind ω) := do
  let last ← lower all.length
  return (← tokenAt all (min (p + offset) last)).kind

/-- The token at a position and the position behind it; the last token is not left. -/
def advance : Run (Token ω × Nat) := do
  let t ← tokenAt all p
  let last ← lower all.length
  return (t, if p < last then p + 1 else p)

def accept (kind : TokenKind ω) : Run (Bool × Nat) := do
  if (← tokenAt all p).kind == kind then
    let (_, q) ← advance all p
    return (true, q)
  else return (false, p)

def refuse (expected : Expected) : Run α := do
  let t ← tokenAt all p
  throw (.fault (unexpected t.span expected [t]))

def consume (kind : TokenKind ω) (expected : Expected) : Run (Token ω × Nat) := do
  if (← tokenAt all p).kind == kind then advance all p else refuse all p expected

def atLineBreak : Run Bool := do
  match (← tokenAt all p).kind with
  | .newline | .eof => return true
  | _ => return false

/-- Passes the end of a line; the end of the tokens is one too. -/
def passLineBreak : Run Nat := do
  match (← tokenAt all p).kind with
  | .newline =>
    let (_, q) ← advance all p
    return q
  | .eof => return p
  | _ => refuse all p .endOfLine

def slice (q : Nat) : Run (List (Token ω)) :=
  if p ≤ q ∧ q ≤ all.length then pure ((all.take q).drop p) else throw .outOfRange

end Access

/-- The tokens that a reader keeps: an end stands last, and where there was none it has the place of
the last token. -/
def closed (place : Span) (ts : List (Token ω)) : List (Token ω) :=
  match ts.getLast? with
  | some ⟨.eof, _⟩ => ts
  | some t => ts ++ [⟨.eof, t.span⟩]
  | none => [⟨.eof, place⟩]

instance [BEq ω] : Mark (ω := ω) .newline where
  beq_iff k := by
    cases k with
    | newline => exact ⟨fun _ => rfl, fun _ => rfl⟩
    | _ => exact ⟨nofun, nofun⟩
  ne_eof := nofun

instance [BEq ω] : Mark (ω := ω) .indent where
  beq_iff k := by
    cases k with
    | indent => exact ⟨fun _ => rfl, fun _ => rfl⟩
    | _ => exact ⟨nofun, nofun⟩
  ne_eof := nofun

instance [BEq ω] (b : Bracket) : Mark (ω := ω) (.opening b) where
  beq_iff k := by
    cases k with
    | opening c => exact (beq_iff_eq (a := c) (b := b)).trans ⟨congrArg _, TokenKind.opening.inj⟩
    | _ => exact ⟨nofun, nofun⟩
  ne_eof := nofun

instance [BEq ω] (b : Bracket) : Mark (ω := ω) (.closing b) where
  beq_iff k := by
    cases k with
    | closing c => exact (beq_iff_eq (a := c) (b := b)).trans ⟨congrArg _, TokenKind.closing.inj⟩
    | _ => exact ⟨nofun, nofun⟩
  ne_eof := nofun

theorem mark_word [BEq ω] {w : ω} (h : ∀ v, (v == w) = true ↔ v = w) : Mark (.word w) where
  beq_iff k := by
    cases k with
    | word v => exact (h v).trans ⟨congrArg _, TokenKind.word.inj⟩
    | _ => exact ⟨nofun, nofun⟩
  ne_eof := nofun

/-- A run and a reading of a list that end with matching answers, or with the same fault. -/
inductive Matches (R : α → β → Prop) : Run α → Except Fault β → Prop
  | ok {a b} : R a b → Matches R (pure a) (.ok b)
  | error {fault} : Matches R (throw (.fault fault)) (.error fault)

/-- A run that ends with a fault, or with an answer as told. -/
inductive Finishes (G : α → Prop) : Run α → Prop
  | ok {a} : G a → Finishes G (pure a)
  | error {fault} : Finishes G (throw (.fault fault))

section Runs

variable {R : α → β → Prop} {S : γ → δ → Prop} {run : Run α} {x : Except Fault β}

theorem Matches.bind {k : α → Run γ} {f : β → Except Fault δ} (h : Matches R run x)
    (hk : ∀ a b, x = .ok b → R a b → Matches S (k a) (f b)) : Matches S (run >>= k) (x.bind f) := by
  cases h with
  | ok hr => exact hk _ _ rfl hr
  | error => exact .error

theorem Matches.error_bind {k : α → Run γ} {fault : Fault} (h : Matches R run (.error fault)) :
    Matches S (run >>= k) (.error fault) := by
  cases h
  exact .error

theorem Matches.map {k : α → γ} {f : β → δ} (h : Matches R run x)
    (hk : ∀ a b, x = .ok b → R a b → S (k a) (f b)) :
    Matches S (run >>= fun a => pure (k a)) (x.map f) := by
  cases h with
  | ok hr => exact .ok (hk _ _ rfl hr)
  | error => exact .error

theorem Matches.run_eq {x : Except Fault α} (h : Matches Eq run x) : run = Run.of x := by
  cases h with
  | ok hr =>
    subst hr
    rfl
  | error => rfl

theorem Matches.exists_eq (h : Matches R run x) :
    (∃ a b, run = pure a ∧ x = .ok b ∧ R a b) ∨
      ∃ fault, run = throw (.fault fault) ∧ x = .error fault := by
  cases h with
  | ok hr => exact .inl ⟨_, _, rfl, rfl, hr⟩
  | error => exact .inr ⟨_, rfl, rfl⟩

theorem Matches.attempt (h : Matches R run x) :
    (∃ a b, run.attempt = pure (.ok a) ∧ x = .ok b ∧ R a b) ∨
      ∃ fault, run.attempt = pure (.error fault) ∧ x = .error fault := by
  cases h with
  | ok hr => exact .inl ⟨_, _, rfl, rfl, hr⟩
  | error => exact .inr ⟨_, rfl, rfl⟩

variable {G : α → Prop} {H : γ → Prop}

theorem Finishes.bind {k : α → Run γ} (h : Finishes G run) (hk : ∀ a, G a → Finishes H (k a)) :
    Finishes H (run >>= k) := by
  cases h with
  | ok hg => exact hk _ hg
  | error => exact .error

theorem Finishes.imp {G' : α → Prop} (h : Finishes G run) (hg : ∀ a, G a → G' a) :
    Finishes G' run := by
  cases h with
  | ok ha => exact .ok (hg _ ha)
  | error => exact .error

theorem Finishes.exists_eq (h : Finishes G run) : ∃ x, run = Run.of x := by
  cases h with
  | @ok a => exact ⟨.ok a, rfl⟩
  | @error fault => exact ⟨.error fault, rfl⟩

end Runs

section Access

variable {all : List (Token ω)} {p : Nat} {t : Token ω}

theorem tokenAt_eq (h : all[p]? = some t) : tokenAt all p = pure t := by
  unfold tokenAt
  rw [h]

theorem lower_length (h : all[p]? = some t) : lower all.length = pure (all.length - 1) := by
  have bound := (List.getElem?_eq_some_iff.mp h).1
  obtain ⟨n, hn⟩ : ∃ n, all.length = n + 1 := ⟨all.length - 1, by omega⟩
  rw [hn]
  rfl

theorem kindAhead_eq (offset : Nat) (h : all[p + offset]? = some t) :
    kindAhead all p offset = pure t.kind := by
  have bound := (List.getElem?_eq_some_iff.mp h).1
  have here : min (p + offset) (all.length - 1) = p + offset := by omega
  unfold kindAhead
  rw [lower_length h, pure_bind, here, tokenAt_eq h, pure_bind]

theorem advance_eq (h : all[p]? = some t) (hp : p + 1 < all.length) :
    advance all p = pure (t, p + 1) := by
  unfold advance
  rw [tokenAt_eq h, pure_bind, lower_length h, pure_bind, if_pos (by omega)]

theorem slice_eq {q : Nat} (h : p ≤ q) (hq : q ≤ all.length) :
    slice all p q = pure ((all.take q).drop p) := if_pos ⟨h, hq⟩

theorem refuse_eq [Describable ω] (h : all[p]? = some t) (expected : Expected) :
    refuse (α := α) all p expected = throw (.fault (unexpected t.span expected [t])) := by
  unfold refuse
  rw [tokenAt_eq h, pure_bind]

variable [BEq ω]

theorem accept_eq [mark : Mark kind] {s : Span} (h : all[p]? = some ⟨kind, s⟩)
    (hp : p + 1 < all.length) : accept all p kind = pure (true, p + 1) := by
  unfold accept
  rw [tokenAt_eq h, pure_bind, if_pos ((mark.beq_iff _).mpr rfl), advance_eq h hp, pure_bind]

theorem accept_eq_of_ne [mark : Mark kind] (h : all[p]? = some t) (hk : t.kind ≠ kind) :
    accept all p kind = pure (false, p) := by
  unfold accept
  rw [tokenAt_eq h, pure_bind, if_neg (mt (mark.beq_iff _).mp hk)]

theorem consume_eq [Describable ω] [mark : Mark kind] {s : Span} (h : all[p]? = some ⟨kind, s⟩)
    (hp : p + 1 < all.length) : consume all p kind expected = pure (⟨kind, s⟩, p + 1) := by
  unfold consume
  rw [tokenAt_eq h, pure_bind, if_pos ((mark.beq_iff _).mpr rfl), advance_eq h hp]

theorem consume_eq_of_ne [Describable ω] [mark : Mark kind] (h : all[p]? = some t) (hk : t.kind ≠ kind) :
    consume all p kind expected = refuse all p expected := by
  unfold consume
  rw [tokenAt_eq h, pure_bind, if_neg (mt (mark.beq_iff _).mp hk)]

end Access

/-- What stands at a position: the tokens before the next end, the place of that end, and the tokens
behind it. -/
structure Sees (all : List (Token ω)) (fin : Span) (tail : List (Token ω)) (p : Nat)
    (rest : List (Token ω)) : Prop where
  drop_eq : all.drop p = rest ++ ⟨.eof, fin⟩ :: tail
  plain : ∀ t ∈ rest, t.kind ≠ .eof

/-- The same answer, at a position that sees the tokens left. -/
inductive Stands (all : List (Token ω)) (fin : Span) (tail : List (Token ω)) :
    α × Nat → α × List (Token ω) → Prop
  | at {a p rest} : Sees all fin tail p rest → Stands all fin tail (a, p) (a, rest)

section Build

variable {all : List (Token ω)} {fin : Span} {tail : List (Token ω)} {run : Run (α × Nat)}
  {x : Except Fault (α × List (Token ω))} {k : α × Nat → Run (β × Nat)}

/-- What is made of an answer, where it stands. -/
theorem Matches.stands {k : α × Nat → Run γ} {f : α × List (Token ω) → Except Fault δ}
    (h : Matches (Stands all fin tail) run x)
    (hk : ∀ a p rest, x = .ok (a, rest) → Sees all fin tail p rest →
      Matches S (k (a, p)) (f (a, rest))) : Matches S (run >>= k) (x.bind f) := by
  refine h.bind ?_
  rintro ⟨a, p⟩ ⟨_, rest⟩ eq ⟨sees⟩
  exact hk a p rest eq sees

theorem Matches.build {g : α × List (Token ω) → Except Fault (β × List (Token ω))}
    (h : Matches (Stands all fin tail) run x)
    (same : ∀ a p rest, ∃ b, k (a, p) = pure (b, p) ∧ g (a, rest) = .ok (b, rest)) :
    Matches (Stands all fin tail) (run >>= k) (x.bind g) := by
  refine h.stands fun a p rest _ sees => ?_
  obtain ⟨b, hk, hg⟩ := same a p rest
  rw [hk, hg]
  exact .ok (.at sees)

theorem Matches.build_map {g : α × List (Token ω) → β × List (Token ω)}
    (h : Matches (Stands all fin tail) run x)
    (same : ∀ a p rest, ∃ b, k (a, p) = pure (b, p) ∧ g (a, rest) = (b, rest)) :
    Matches (Stands all fin tail) (run >>= k) (x.map g) := by
  have mapped : x.map g = x.bind (.ok ∘ g) := by cases x <;> rfl
  rw [mapped]
  refine h.build fun a p rest => ?_
  obtain ⟨b, hk, hg⟩ := same a p rest
  exact ⟨b, hk, congrArg Except.ok hg⟩

end Build

/-- A run that ends at a position which sees certain tokens. -/
def Lands (all : List (Token ω)) (fin : Span) (tail : List (Token ω)) (run : Run Nat)
    (rest : List (Token ω)) : Prop :=
  ∃ p, run = pure p ∧ Sees all fin tail p rest

namespace Sees

variable {all : List (Token ω)} {fin : Span}
  {tail rest : List (Token ω)} {p : Nat} {t : Token ω}

theorem head (h : Sees all fin tail p (t :: rest)) : all[p]? = some t := by
  rw [← head?_drop, h.drop_eq]
  rfl

theorem finish (h : Sees all fin tail p []) : all[p]? = some ⟨.eof, fin⟩ := by
  rw [← head?_drop, h.drop_eq]
  rfl

theorem length (h : Sees all fin tail p rest) :
    all.length = p + rest.length + 1 + tail.length := by
  have length := congrArg List.length h.drop_eq
  rw [length_drop, length_append, length_cons] at length
  omega

theorem next (h : Sees all fin tail p (t :: rest)) : Sees all fin tail (p + 1) rest :=
  ⟨by rw [← tail_drop, h.drop_eq]; rfl, fun u hu => h.plain u (mem_cons_of_mem t hu)⟩

theorem bound (h : Sees all fin tail p (t :: rest)) : p + 1 < all.length := by
  have length := h.length
  rw [length_cons] at length
  omega

theorem tokenAt (h : Sees all fin tail p (t :: rest)) : tokenAt all p = pure t :=
  tokenAt_eq h.head

theorem tokenAt_finish (h : Sees all fin tail p []) : Cursor.tokenAt all p = pure ⟨.eof, fin⟩ :=
  tokenAt_eq h.finish

theorem advance (h : Sees all fin tail p (t :: rest)) : advance all p = pure (t, p + 1) :=
  advance_eq h.head h.bound

theorem advance_finish (h : Sees all fin [] p []) :
    Cursor.advance all p = pure (⟨.eof, fin⟩, p) := by
  have length := h.length
  simp only [length_nil] at length
  unfold Cursor.advance
  rw [h.tokenAt_finish, pure_bind, lower_length h.finish, pure_bind, if_neg (by omega)]

/-- What stands at a position is the end of a line or not. -/
theorem line_cases [Describable ω] (h : Sees all fin tail p rest) :
    (rest = [] ∧ atLineBreak all p = pure true ∧ passLineBreak all p = pure p) ∨
      (∃ s left, rest = ⟨.newline, s⟩ :: left ∧ atLineBreak all p = pure true ∧
        passLineBreak all p = pure (p + 1)) ∨
      ∃ t left, rest = t :: left ∧ t.kind ≠ .newline ∧ atLineBreak all p = pure false ∧
        passLineBreak all p = refuse all p .endOfLine := by
  unfold atLineBreak passLineBreak
  cases rest with
  | nil =>
    rw [h.tokenAt_finish, pure_bind, pure_bind]
    exact .inl ⟨rfl, rfl, rfl⟩
  | cons t left =>
    obtain ⟨k, s⟩ := t
    rw [h.tokenAt, pure_bind, pure_bind]
    cases k with
    | newline =>
      dsimp only
      rw [h.advance, pure_bind]
      exact .inr (.inl ⟨s, left, rfl, rfl, rfl⟩)
    | eof => exact absurd rfl (h.plain _ mem_cons_self)
    | _ => exact .inr (.inr ⟨_, left, rfl, nofun, rfl, rfl⟩)

theorem skip {front left : List (Token ω)} (h : Sees all fin tail p (front ++ left)) :
    Sees all fin tail (p + front.length) left := by
  refine ⟨?_, fun t ht => h.plain t (mem_append_right front ht)⟩
  rw [← drop_drop, h.drop_eq, append_assoc, drop_left]

theorem slice {front left : List (Token ω)} (h : Sees all fin tail p (front ++ left)) :
    slice all p (p + front.length) = pure front := by
  have length := h.length
  rw [length_append] at length
  rw [slice_eq (Nat.le_add_right p _) (by omega), drop_take, h.drop_eq, append_assoc,
    Nat.add_sub_cancel_left, take_left]

variable [BEq ω]

theorem head_cases (h : Sees all fin tail p rest) (kind : TokenKind ω) [mark : Mark kind] :
    (∃ s left, rest = ⟨kind, s⟩ :: left) ∨
      rest.head?.map (·.kind) ≠ some kind ∧ ∃ t, all[p]? = some t ∧ t.kind ≠ kind := by
  cases rest with
  | nil => exact .inr ⟨nofun, _, h.finish, mark.ne_eof.symm⟩
  | cons t left =>
    obtain ⟨k, s⟩ := t
    by_cases hk : k = kind
    · subst hk
      exact .inl ⟨s, left, rfl⟩
    · exact .inr ⟨fun eq => hk (Option.some.inj eq), _, h.head, hk⟩

theorem accept (h : Sees all fin tail p rest) (kind : TokenKind ω) [mark : Mark kind] :
    (∃ s left, rest = ⟨kind, s⟩ :: left ∧ accept all p kind = pure (true, p + 1)) ∨
      rest.head?.map (·.kind) ≠ some kind ∧ accept all p kind = pure (false, p) := by
  rcases h.head_cases kind with ⟨s, left, rfl⟩ | ⟨other, t, ht, hk⟩
  · exact .inl ⟨s, left, rfl, accept_eq h.head h.bound⟩
  · exact .inr ⟨other, accept_eq_of_ne ht hk⟩

theorem consume [Describable ω] (h : Sees all fin tail p rest)
    (kind : TokenKind ω) [mark : Mark kind] (expected : Expected) :
    (∃ s left, rest = ⟨kind, s⟩ :: left ∧
        consume all p kind expected = pure (⟨kind, s⟩, p + 1)) ∨
      rest.head?.map (·.kind) ≠ some kind ∧
        consume all p kind expected = refuse all p expected := by
  rcases h.head_cases kind with ⟨s, left, rfl⟩ | ⟨other, t, ht, hk⟩
  · exact .inl ⟨s, left, rfl, consume_eq h.head h.bound⟩
  · exact .inr ⟨other, consume_eq_of_ne ht hk⟩

end Sees

theorem exists_closed_cons (place : Span) (t : Token ω) (ts : List (Token ω)) :
    ∃ tail, closed place (t :: ts) = t :: tail := by
  unfold closed
  split
  next => exact ⟨ts, rfl⟩
  next last _ _ => exact ⟨ts ++ [⟨.eof, last.span⟩], rfl⟩
  next none => simp at none

theorem closed_cons (place : Span) {t : Token ω} (ht : t.kind ≠ .eof) (ts : List (Token ω)) :
    closed place (t :: ts) = t :: closed t.span ts := by
  obtain ⟨k, s⟩ := t
  cases ts with
  | nil =>
    cases k with
    | eof => exact absurd rfl ht
    | _ => rfl
  | cons u ts =>
    unfold closed
    rw [getLast?_cons_cons]
    split
    next => rfl
    next => rfl
    next none => simp at none

/-- A reader that starts sees the tokens up to the first end. -/
theorem exists_sees_closed (place : Span) (ts : List (Token ω)) :
    ∃ tail, Sees (closed place ts) (untilEnd place ts).2 tail 0 (untilEnd place ts).1 := by
  induction ts generalizing place with
  | nil => exact ⟨[], rfl, nofun⟩
  | cons t ts ih =>
    by_cases ht : t.kind = .eof
    · obtain ⟨k, s⟩ := t
      cases ht
      obtain ⟨tail, eq⟩ := exists_closed_cons place ⟨.eof, s⟩ ts
      exact ⟨tail, eq, nofun⟩
    · obtain ⟨tail, sees⟩ := ih t.span
      have until_cons : untilEnd place (t :: ts) =
          (t :: (untilEnd t.span ts).1, (untilEnd t.span ts).2) := by
        obtain ⟨k, s⟩ := t
        cases k with
        | eof => exact absurd rfl ht
        | _ => rfl
      rw [closed_cons place ht, until_cons]
      refine ⟨tail, ?_, ?_⟩
      · rw [drop_zero, cons_append, ← sees.drop_eq, drop_zero]
      · intro u hu
        rcases mem_cons.mp hu with rfl | hu
        · exact ht
        · exact sees.plain u hu

/-- A list of tokens up to its first end, which is added where there is none. -/
def upToEnd (ts : List (Token ω)) : List (Token ω) :=
  (untilEnd .origin ts).1 ++ [⟨.eof, (untilEnd .origin ts).2⟩]

theorem closed_upToEnd (place : Span) (ts : List (Token ω)) :
    closed place (upToEnd ts) = upToEnd ts := by
  unfold closed upToEnd
  rw [getLast?_concat]

theorem sees_upToEnd (ts : List (Token ω)) :
    Sees (upToEnd ts) (untilEnd .origin ts).2 [] 0 (untilEnd .origin ts).1 := by
  obtain ⟨_, sees⟩ := exists_sees_closed .origin ts
  exact ⟨rfl, sees.plain⟩

/-- The tokens of a text have one end, which stands last. -/
theorem upToEnd_of_tokensOf {read : Lexicon ω} {source : String} {ts : List (Token ω)}
    (h : tokensOf read source = .ok ts) : upToEnd ts = ts := by
  obtain ⟨before, eq, once⟩ := (skeleton_of_tokensOf h).eof_last
  obtain ⟨front, fin, more, rfl, rfl, hm⟩ := exists_kinds_append eq
  obtain rfl := map_eq_nil_iff.mp hm
  unfold upToEnd
  rw [untilEnd_eof once]

end Cursor

end ViewBridge
