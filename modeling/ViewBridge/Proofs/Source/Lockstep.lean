import ViewBridge.Proofs.Source.Statements

namespace ViewBridge

open List

variable {ω : Type}

abbrev TokenRel (ω : Type) := List (Token ω) → List (Token ω) → Prop

/-- A fault without its place. -/
def Fault.unplaced : Fault → Fault
  | .lex fault _ => .lex fault .origin
  | .parse expected found _ => .parse expected found .origin

/-- Two runs with the same outcome: both fail, with faults that are related, or their results are
related. -/
inductive Agree (F : Fault → Fault → Prop) {α β : Type} (S : α → β → Prop) :
    Except Fault α → Except Fault β → Prop
  | error {fault fault'} : F fault fault' → Agree F S (.error fault) (.error fault')
  | ok {a b} : S a b → Agree F S (.ok a) (.ok b)

variable {ts ts' l l' : List (Token ω)} {depth : Nat} {s t : Span}
  {R : TokenRel ω} {line : List (TokenKind ω)}
  {B : Nat → TokenRel ω}

theorem exists_kinds_cons {k : TokenKind ω} (h : ts.map (·.kind) = k :: line) :
    ∃ s rest, ts = ⟨k, s⟩ :: rest ∧ rest.map (·.kind) = line := by
  obtain ⟨⟨k, s⟩, rest, rfl, rfl, hr⟩ := map_eq_cons_iff.mp h
  exact ⟨s, rest, rfl, hr⟩

theorem exists_kinds_append {k : TokenKind ω} {ks : List (TokenKind ω)}
    (h : ts.map (·.kind) = line ++ k :: ks) : ∃ front s rest, ts = front ++ ⟨k, s⟩ :: rest ∧
      front.map (·.kind) = line ∧ rest.map (·.kind) = ks := by
  obtain ⟨front, back, rfl, hf, hb⟩ := map_eq_append_iff.mp h
  obtain ⟨s, rest, rfl, hr⟩ := exists_kinds_cons hb
  exact ⟨front, s, rest, rfl, hf, hr⟩

section Agree

variable {α β γ δ : Type} {F : Fault → Fault → Prop} {S : α → β → Prop} {T : γ → δ → Prop}
  {x : Except Fault α} {y : Except Fault β}

theorem Agree.bind {f : α → Except Fault γ} {g : β → Except Fault δ} (h : Agree F S x y)
    (hk : ∀ a b, x = .ok a → S a b → Agree F T (f a) (g b)) : Agree F T (x.bind f) (y.bind g) := by
  cases h with
  | error hf => exact .error hf
  | ok hs => exact hk _ _ rfl hs

theorem Agree.map {f : α → γ} {g : β → δ} (h : Agree F S x y) (hk : ∀ a b, S a b → T (f a) (g b)) :
    Agree F T (x.map f) (y.map g) := by
  cases h with
  | error hf => exact .error hf
  | ok hs => exact .ok (hk _ _ hs)

theorem Agree.imp {T : α → β → Prop} (h : Agree F S x y) (hk : ∀ a b, S a b → T a b) :
    Agree F T x y := by
  cases h with
  | error hf => exact .error hf
  | ok hs => exact .ok (hk _ _ hs)

theorem Agree.guard {p q : Prop} [Decidable p] [Decidable q] {fault fault' : Fault} (h : p ↔ q)
    (hf : F fault fault') (hp : p → Agree F S x y) :
    Agree F S (if p then x else .error fault) (if q then y else .error fault') := by
  simp only [← h]
  split
  next holds => exact hp holds
  next => exact .error hf

theorem Agree.map_toOption {g : α → γ} {y : Except Fault α} (h : Agree F (InvImage Eq g) x y) :
    x.toOption.map g = y.toOption.map g := by
  cases h with
  | error => rfl
  | ok same => exact congrArg some same

theorem Agree.exists_ok {a : α} (h : Agree F S x y) (hx : x = .ok a) : ∃ b, y = .ok b ∧ S a b := by
  cases h with
  | error => cases hx
  | ok hs =>
    cases hx
    exact ⟨_, rfl, hs⟩

/-- What two readers give: values that are related, and the tokens behind them. -/
def Leaves (S : α → α → Prop) (R : TokenRel ω)
    (p q : α × List (Token ω)) : Prop :=
  S p.1 q.1 ∧ R p.2 q.2

section Leaves

variable {x y : Except Fault (α × List (Token ω))}

theorem Agree.bind_leaves {f : α × List (Token ω) → Except Fault γ}
    {g : α × List (Token ω) → Except Fault δ} (h : Agree F (Leaves Eq R) x y)
    (hk : ∀ a r r', R r r' → Agree F T (f (a, r)) (g (a, r'))) :
    Agree F T (x.bind f) (y.bind g) := by
  refine h.bind ?_
  rintro ⟨a, r⟩ ⟨_, r'⟩ _ ⟨rfl, hr⟩
  exact hk a r r' hr

theorem Agree.map_leaves {f : α × List (Token ω) → γ} {g : α × List (Token ω) → δ}
    (h : Agree F (Leaves Eq R) x y) (hk : ∀ a r r', R r r' → T (f (a, r)) (g (a, r'))) :
    Agree F T (x.map f) (y.map g) := by
  refine h.map ?_
  rintro ⟨a, r⟩ ⟨_, r'⟩ ⟨rfl, hr⟩
  exact hk a r r' hr

end Leaves

end Agree

/-- Two lists of tokens that start alike. -/
inductive Heads (R : TokenRel ω) :
    List (Token ω) → List (Token ω) → Prop
  | nil : Heads R [] []
  | cons {k s s' ts ts' : _} : (k ≠ .newline → R ts ts') → Heads R (⟨k, s⟩ :: ts) (⟨k, s'⟩ :: ts')

/-- Relations of token lists that readers of a line keep: the tokens are alike up to the end of the
line. The numbers are how far the lists differ in length. -/
structure Lockstep (m n : Nat) (R : TokenRel ω) : Prop where
  heads {ts ts' : _} : R ts ts' → Heads R ts ts'
  length {ts ts' : _} : R ts ts' → ts.length + n = ts'.length + m
  group {b s s' ts ts' : _} : R (⟨.opening b, s⟩ :: ts) (⟨.opening b, s'⟩ :: ts') →
    R (behindGroup 0 ts) (behindGroup 0 ts')

theorem Lockstep.tail {m n : Nat}
    (hR : Lockstep m n R) {t t' : Token ω} (h : R (t :: ts) (t' :: ts'))
    (hk : t.kind ≠ .newline) : R ts ts' := by
  cases hR.heads h with
  | cons next => exact next hk

theorem Lockstep.le_iff {m n : Nat}
    (hR : Lockstep m n R) {rest rest' : List (Token ω)} (h : R ts ts') (hr : R rest rest') :
    rest.length ≤ ts.length ↔ rest'.length ≤ ts'.length := by
  have length := hR.length h
  have length' := hR.length hr
  omega

def startsBlock : List (Token ω) → Bool
  | ⟨.indent, _⟩ :: _ => true
  | _ => false

theorem startsBlock_eq_false : startsBlock ts = false ↔ (ts.map (·.kind)).head? ≠ some .indent := by
  cases ts with
  | nil => simp [startsBlock]
  | cons t ts =>
    obtain ⟨k, s⟩ := t
    cases k <;> simp [startsBlock]

/-- Two lists of tokens behind the end of a line: a block follows in both, or in none. -/
inductive Behind (B : Nat → TokenRel ω) (depth : Nat) :
    List (Token ω) → List (Token ω) → Prop
  | line {ts ts' : _} : startsBlock ts = false → startsBlock ts' = false → B depth ts ts' →
      Behind B depth ts ts'
  | block {s s' ts ts' : _} : B (depth + 1) ts ts' →
      Behind B depth (⟨.indent, s⟩ :: ts) (⟨.indent, s'⟩ :: ts')

/-- The ends of lines under a relation: what stands behind them is read in a block again. -/
structure LineEnds (R : TokenRel ω)
    (B : Nat → TokenRel ω) (depth : Nat) : Prop where
  nil : R [] [] → B depth [] []
  newline {s s' ts ts' : _} : R (⟨.newline, s⟩ :: ts) (⟨.newline, s'⟩ :: ts') → Behind B depth ts ts'

/-- Two lists of tokens whose first lines are read in lockstep. -/
def OnLine (B : Nat → TokenRel ω) (m n depth : Nat)
    (ts ts' : List (Token ω)) : Prop :=
  ∃ R, Lockstep m n R ∧ LineEnds R B depth ∧ R ts ts'

/-- Two lists of tokens in a block: it ends in both, or a line follows in both. -/
inductive InBlock (B : Nat → TokenRel ω) (m n depth : Nat) :
    List (Token ω) → List (Token ω) → Prop
  | nil : B depth [] [] → InBlock B m n depth [] []
  | dedent {s s' ts ts' : _} : B depth ts ts' →
      InBlock B m n depth (⟨.dedent, s⟩ :: ts) (⟨.dedent, s'⟩ :: ts')
  | line {k s s' ts ts' : _} : k ≠ .dedent →
      OnLine B m n (depth + 1) (⟨k, s⟩ :: ts) (⟨k, s'⟩ :: ts') →
      InBlock B m n depth (⟨k, s⟩ :: ts) (⟨k, s'⟩ :: ts')

/-- Relations of token lists that readers of blocks keep, by the number of blocks that are open. -/
structure Frame (m n : Nat) (B : Nat → TokenRel ω) : Prop where
  inBlock {depth ts ts' : _} : B (depth + 1) ts ts' → InBlock B m n depth ts ts'
  block {depth ts ts' : _} : B (depth + 1) ts ts' → B depth (behindBlock 0 ts) (behindBlock 0 ts')
  length {depth ts ts' : _} : B depth ts ts' → ts.length + n = ts'.length + m

theorem Behind.length {m n depth : Nat} {B : Nat → TokenRel ω}
    (hB : Frame m n B) {ts ts' : List (Token ω)} (h : Behind B depth ts ts') :
    ts.length + n = ts'.length + m := by
  cases h with
  | line _ _ hb => exact hB.length hb
  | block hb =>
    have length := hB.length hb
    rw [length_cons, length_cons]
    omega

section Same

/-- Tokens of the same kinds, wherever they stand. -/
def Alike (ts ts' : List (Token ω)) : Prop := ts.map (·.kind) = ts'.map (·.kind)

theorem Alike.length (h : Alike ts ts') : ts.length = ts'.length := by
  simpa using congrArg List.length h

theorem Alike.heads (h : Alike ts ts') : Heads Alike ts ts' := by
  cases ts with
  | nil =>
    obtain rfl := map_eq_nil_iff.mp h.symm
    exact .nil
  | cons t ts =>
    obtain ⟨t', ts', rfl, hk, ht⟩ := map_eq_cons_iff.mp h.symm
    obtain ⟨k, s⟩ := t
    obtain ⟨k', s'⟩ := t'
    cases hk
    exact .cons fun _ => ht.symm

theorem Alike.behindClosing (h : Alike ts ts') (opens closes : TokenKind ω → Bool) (depth : Nat) :
    Alike (behindClosing opens closes depth ts) (behindClosing opens closes depth ts') := by
  induction ts generalizing ts' depth with
  | nil =>
    cases h.heads
    rfl
  | cons t ts ih =>
    obtain ⟨t', ts', rfl, hk, ht⟩ := map_eq_cons_iff.mp h.symm
    have rest : Alike ts ts' := ht.symm
    simp only [ViewBridge.behindClosing, hk]
    split
    · exact ih rest (depth + 1)
    · split
      · cases depth with
        | zero => exact rest
        | succ depth => exact ih rest depth
      · exact ih rest depth

theorem lockstep_alike : Lockstep (ω := ω) 0 0 Alike where
  heads := Alike.heads
  length h := by simpa using congrArg List.length h
  group h := Alike.behindClosing (List.cons.inj h).2 _ _ 0

theorem Alike.behind (h : Alike ts ts') (depth : Nat) : Behind (fun _ => Alike) depth ts ts' := by
  cases h.heads with
  | nil => exact .line rfl rfl rfl
  | @cons k s s' ts ts' =>
    have rest : Alike ts ts' := (List.cons.inj h).2
    cases k with
    | indent => exact .block rest
    | _ => exact .line rfl rfl h

theorem lineEnds_alike (depth : Nat) : LineEnds (ω := ω) Alike (fun _ => Alike) depth where
  nil := id
  newline h := Alike.behind (List.cons.inj h).2 depth

theorem Alike.onLine (h : Alike ts ts') (depth : Nat) : OnLine (fun _ => Alike) 0 0 depth ts ts' :=
  ⟨Alike, lockstep_alike, lineEnds_alike depth, h⟩

theorem Behind.alike (h : Behind (fun _ => Alike) depth ts ts') : Alike ts ts' := by
  cases h with
  | line _ _ h => exact h
  | block h => exact congrArg (.indent :: ·) h

theorem frame_alike : Frame (ω := ω) 0 0 fun _ => Alike where
  inBlock {depth ts ts'} h := by
    cases hh : h.heads with
    | nil => exact .nil rfl
    | @cons k s s' ts ts' =>
      have rest : Alike ts ts' := (List.cons.inj h).2
      cases k with
      | dedent => exact .dedent rest
      | _ => exact .line nofun (h.onLine (depth + 1))
  block h := h.behindClosing _ _ 0
  length h := lockstep_alike.length h

end Same

/-- Every bracket that is opened is closed further on. -/
def Matched (ks : List (TokenKind ω)) : Prop :=
  ∀ before b after, ks = before ++ .opening b :: after →
    ∃ inner rest, after = inner ++ .closing b :: rest ∧ Enclosed inner

section Matched

variable {k : TokenKind ω} {ks ls inner : List (TokenKind ω)} {b : Bracket}

theorem Matched.tail (h : Matched (k :: ks)) : Matched ks :=
  fun before b after eq => h (k :: before) b after (by rw [eq]; rfl)

theorem Matched.of_append (h : Matched (ks ++ ls)) : Matched ls := by
  induction ks with
  | nil => exact h
  | cons k ks ih => exact ih h.tail

theorem Matched.cons (h : Matched ks) (hk : ∀ b, k ≠ .opening b) : Matched (k :: ks) := by
  intro before b after eq
  cases before with
  | nil => exact absurd (List.cons.inj eq).1 (hk b)
  | cons k' before => exact h before b after (List.cons.inj eq).2

theorem Matched.append (h : Matched ks) (hl : Matched ls) : Matched (ks ++ ls) := by
  induction ks with
  | nil => exact hl
  | cons k ks ih =>
    intro before b after eq
    cases before with
    | nil =>
      obtain ⟨rfl, rfl⟩ := List.cons.inj eq
      obtain ⟨inner, rest, rfl, he⟩ := h [] b ks rfl
      exact ⟨inner, rest ++ ls, by simp, he⟩
    | cons k' before => exact ih h.tail before b after (List.cons.inj eq).2

theorem Matched.group (hi : Enclosed inner) (hm : Matched inner) (h : Matched ks) :
    Matched (.opening b :: (inner ++ .closing b :: ks)) := by
  intro before b' after eq
  cases before with
  | nil =>
    obtain ⟨hb, rfl⟩ := List.cons.inj eq
    cases hb
    exact ⟨inner, ks, rfl, hi⟩
  | cons k before =>
    have inside : Matched (inner ++ .closing b :: ks) := hm.append (h.cons fun _ => nofun)
    exact inside before b' after (List.cons.inj eq).2

theorem matched_nil : Matched ([] : List (TokenKind ω)) := by
  intro before b after eq
  simp at eq

theorem Enclosed.matched (h : Enclosed ks) : Matched ks := by
  induction h with
  | nil => exact matched_nil
  | word w _ ih => exact ih.cons fun _ => nofun
  | group b hi _ ihi ih => exact .group hi ihi ih

theorem Nested.matched (h : Nested ks) : Matched ks := by
  induction h with
  | nil => exact matched_nil
  | word w _ ih => exact ih.cons fun _ => nofun
  | layout hk _ ih =>
    refine ih.cons fun b eq => ?_
    rw [eq] at hk
    cases hk
  | group b hi _ ih => exact .group hi hi.matched ih

theorem Enclosed.behindGroup (h : Enclosed ks) (hk : ts.map (·.kind) = ks)
    (more : List (Token ω)) (depth : Nat) :
    behindGroup depth (ts ++ more) = behindGroup depth more := by
  induction h generalizing ts more depth with
  | nil =>
    obtain rfl := map_eq_nil_iff.mp hk
    rfl
  | word w _ ih =>
    obtain ⟨s, ts, rfl, ht⟩ := exists_kinds_cons hk
    exact ih ht more depth
  | group b _ _ ihi ih =>
    obtain ⟨s, us, rfl, hu⟩ := exists_kinds_cons hk
    obtain ⟨inner, s', ts, rfl, hi, ht⟩ := exists_kinds_append hu
    have closed := ihi hi (⟨.closing b, s'⟩ :: (ts ++ more)) (depth + 1)
    calc ViewBridge.behindGroup depth (⟨.opening b, s⟩ :: (inner ++ ⟨.closing b, s'⟩ :: ts) ++ more)
        = ViewBridge.behindGroup (depth + 1) (inner ++ ⟨.closing b, s'⟩ :: (ts ++ more)) := by
          rw [cons_append, append_assoc]
          rfl
      _ = ViewBridge.behindGroup depth (ts ++ more) := closed
      _ = ViewBridge.behindGroup depth more := ih ht more depth

end Matched

section Upto

variable {m n : Nat} {rest rest' : List (Token ω)}

/-- Token lists that are alike up to the end of the line and go on from there as given. -/
def LineTo (rest rest' ts ts' : List (Token ω)) : Prop :=
  ∃ l l' s s', ts = l ++ ⟨.newline, s⟩ :: rest ∧ ts' = l' ++ ⟨.newline, s'⟩ :: rest' ∧ Alike l l' ∧
    (∀ t ∈ l, t.kind.isText = true) ∧ Matched (l.map (·.kind))

theorem LineTo.heads (h : LineTo rest rest' ts ts') : Heads (LineTo rest rest') ts ts' := by
  obtain ⟨l, l', s, s', rfl, rfl, alike, text, matched⟩ := h
  cases alike.heads with
  | nil => exact .cons fun hn => absurd rfl hn
  | cons =>
    refine .cons fun _ => ⟨_, _, s, s', rfl, rfl, (List.cons.inj alike).2, ?_, matched.tail⟩
    exact (forall_mem_cons.mp text).2

theorem LineTo.eq_newline
    (h : LineTo rest rest' (⟨.newline, s⟩ :: rest) ts') : ∃ s', ts' = ⟨.newline, s'⟩ :: rest' := by
  obtain ⟨l, l', t, t', eq, rfl, alike, text, _⟩ := h
  cases alike.heads with
  | nil => exact ⟨t', rfl⟩
  | cons =>
    rw [cons_append] at eq
    cases (List.cons.inj eq).1
    cases text _ mem_cons_self

theorem LineTo.group {b : Bracket} {t' : Span}
    (h : LineTo rest rest' (⟨.opening b, t⟩ :: ts) (⟨.opening b, t'⟩ :: ts')) :
    LineTo rest rest' (behindGroup 0 ts) (behindGroup 0 ts') := by
  obtain ⟨l, l', s, s', eq, eq', alike, text, matched⟩ := h
  cases alike.heads with
  | nil => cases eq
  | @cons k u u' l l' =>
    rw [cons_append] at eq eq'
    obtain ⟨first, rfl⟩ := List.cons.inj eq
    obtain ⟨-, rfl⟩ := List.cons.inj eq'
    cases first
    have alike : l.map (·.kind) = l'.map (·.kind) := (List.cons.inj alike).2
    obtain ⟨inner, outer, hk, enclosed⟩ := matched [] b _ rfl
    have hk' : l'.map (·.kind) = inner ++ .closing b :: outer := alike.symm.trans hk
    obtain ⟨i, c, l, rfl, hi, ho⟩ := exists_kinds_append hk
    obtain ⟨i', c', l', rfl, hi', ho'⟩ := exists_kinds_append hk'
    rw [append_assoc, append_assoc, enclosed.behindGroup hi, enclosed.behindGroup hi']
    refine ⟨l, l', s, s', rfl, rfl, ho.trans ho'.symm, ?_, ?_⟩
    · exact fun t ht => text t (by simp [ht])
    · have tail := matched.tail
      rw [map_append] at tail
      exact tail.of_append.tail

theorem lockstep_lineTo (h : rest.length + n = rest'.length + m) :
    Lockstep m n (LineTo rest rest') where
  heads := LineTo.heads
  length := by
    rintro _ _ ⟨l, l', s, s', rfl, rfl, alike, _⟩
    have same := Alike.length alike
    simp only [length_append, length_cons]
    omega
  group := LineTo.group

/-- Token lists that are alike up to the end of so many blocks and go on from there as given. -/
def Upto (rest rest' : List (Token ω)) (depth : Nat) (ts ts' : List (Token ω)) : Prop :=
  ∃ v v', ts = v ++ rest ∧ ts' = v' ++ rest' ∧ Alike v v' ∧ Ends depth (v.map (·.kind))

theorem Upto.length (h : Upto rest rest' depth ts ts') :
    ts.length + rest'.length = ts'.length + rest.length := by
  obtain ⟨v, v', rfl, rfl, alike, _⟩ := h
  have same := Alike.length alike
  simp only [length_append]
  omega

theorem Upto.eq_of_zero (h : Upto rest rest' 0 ts ts') : ts = rest ∧ ts' = rest' := by
  obtain ⟨v, v', rfl, rfl, alike, ends⟩ := h
  generalize hk : v.map (·.kind) = ks at ends
  cases ends
  obtain rfl := map_eq_nil_iff.mp hk
  obtain rfl := map_eq_nil_iff.mp (alike.symm.trans hk)
  exact ⟨rfl, rfl⟩

/-- No block starts where a line does. -/
theorem IsLine.startsBlock {ks : List (TokenKind ω)} (h : IsLine line)
    (hk : ts.map (·.kind) = line ++ ks) (more : List (Token ω)) :
    startsBlock (ts ++ more) = false := by
  cases line with
  | nil => exact absurd rfl h.nonempty
  | cons k line =>
    obtain ⟨s, ts, rfl, _⟩ := exists_kinds_cons hk
    have text := h.text _ mem_cons_self
    cases k with
    | indent => cases text
    | _ => rfl

theorem Ends.startsBlock
    (h : Ends (depth + 1) (ts.map (·.kind))) (more : List (Token ω)) :
    startsBlock (ts ++ more) = false := by
  generalize hk : ts.map (·.kind) = ks at h
  cases h with
  | dedent =>
    obtain ⟨s, ts, rfl, _⟩ := exists_kinds_cons hk
    rfl
  | line isLine => exact isLine.startsBlock hk more
  | block isLine => exact isLine.startsBlock hk more

theorem Upto.startsBlock (h : Upto rest rest' (depth + 1) ts ts') :
    startsBlock ts = false ∧ startsBlock ts' = false := by
  obtain ⟨v, v', rfl, rfl, alike, ends⟩ := h
  have ends' : Ends (depth + 1) (v'.map (·.kind)) := alike ▸ ends
  exact ⟨ends.startsBlock rest, ends'.startsBlock rest'⟩

theorem onLine_cons (alike : Alike l l') (isLine : IsLine (l.map (·.kind)))
    (h : Behind B depth rest rest') (length : rest.length + n = rest'.length + m) :
    OnLine B m n depth (l ++ ⟨.newline, s⟩ :: rest) (l' ++ ⟨.newline, t⟩ :: rest') := by
  refine ⟨LineTo rest rest', lockstep_lineTo length, ⟨?_, ?_⟩, ?_⟩
  · rintro ⟨l, l', s, s', eq, _⟩
    simp at eq
  · rintro _ _ r r' ⟨l, l', s, s', eq, eq', alike, text, _⟩
    cases alike.heads with
    | nil =>
      cases eq
      cases eq'
      exact h
    | cons =>
      cases eq
      cases text _ mem_cons_self
  · refine ⟨l, l', s, t, rfl, rfl, alike, ?_, isLine.nested.matched⟩
    exact fun t ht => isLine.text _ (mem_map_of_mem ht)

theorem inBlock_cons {s' : Span} (alike : Alike l l') (isLine : IsLine (l.map (·.kind)))
    (h : Behind B (depth + 1) rest rest') (length : rest.length + n = rest'.length + m) :
    InBlock B m n depth (l ++ ⟨.newline, s⟩ :: rest) (l' ++ ⟨.newline, s'⟩ :: rest') := by
  have onLine := onLine_cons (s := s) (t := s') alike isLine h length
  cases alike.heads with
  | nil => exact absurd rfl isLine.nonempty
  | @cons k =>
    have text := isLine.text k mem_cons_self
    refine .line ?_ onLine
    rintro rfl
    cases text

theorem Upto.inBlock (h : Upto rest rest' (depth + 1) ts ts') :
    InBlock (Upto rest rest') rest.length rest'.length depth ts ts' := by
  obtain ⟨v, v', rfl, rfl, alike, ends⟩ := h
  have alike' : v'.map (·.kind) = v.map (·.kind) := alike.symm
  generalize hk : v.map (·.kind) = ks at alike' ends
  cases ends with
  | dedent ends =>
    obtain ⟨s, v, rfl, hv⟩ := exists_kinds_cons hk
    obtain ⟨s', v', rfl, hv'⟩ := exists_kinds_cons alike'
    exact .dedent ⟨v, v', rfl, rfl, hv.trans hv'.symm, hv ▸ ends⟩
  | line isLine ends =>
    obtain ⟨l, s, v, rfl, rfl, hv⟩ := exists_kinds_append hk
    obtain ⟨l', s', v', rfl, hl', hv'⟩ := exists_kinds_append alike'
    have below : Upto rest rest' (depth + 1) (v ++ rest) (v' ++ rest') :=
      ⟨v, v', rfl, rfl, hv.trans hv'.symm, hv ▸ ends⟩
    rw [append_assoc, append_assoc]
    exact inBlock_cons hl'.symm isLine (.line below.startsBlock.1 below.startsBlock.2 below)
      below.length
  | block isLine ends =>
    obtain ⟨l, s, v, rfl, rfl, hi⟩ := exists_kinds_append hk
    obtain ⟨t, v, rfl, hv⟩ := exists_kinds_cons hi
    obtain ⟨l', s', v', rfl, hl', hi'⟩ := exists_kinds_append alike'
    obtain ⟨t', v', rfl, hv'⟩ := exists_kinds_cons hi'
    have below : Upto rest rest' (depth + 2) (v ++ rest) (v' ++ rest') :=
      ⟨v, v', rfl, rfl, hv.trans hv'.symm, hv ▸ ends⟩
    have length := below.length
    simp only [append_assoc, cons_append]
    refine inBlock_cons hl'.symm isLine (.block below) ?_
    rw [length_cons, length_cons]
    omega

theorem behindBlock_line (h : IsLine line)
    (hl : l.map (·.kind) = line) (depth : Nat) (more : List (Token ω)) :
    behindBlock depth (l ++ more) = behindBlock depth more := by
  have text : ∀ t ∈ l, t.kind.isText = true := fun t ht => h.text _ (hl ▸ mem_map_of_mem ht)
  clear hl
  induction l with
  | nil => rfl
  | cons t l ih =>
    obtain ⟨k, s⟩ := t
    obtain ⟨hk, text⟩ := forall_mem_cons.mp text
    have rest := ih text
    cases k with
    | indent | dedent => cases hk
    | _ => exact rest

/-- The end of a block inside others is found before the end of the outermost of them. -/
theorem Ends.behindBlock {n : Nat} {ks : List (TokenKind ω)} (h : Ends n ks) (inner : Nat)
    (hn : n = depth + inner + 1) {v : List (Token ω)} (hv : v.map (·.kind) = ks)
    (more : List (Token ω)) :
    behindBlock inner (v ++ more) = behindBlock inner v ++ more ∧
      Ends depth ((behindBlock inner v).map (·.kind)) := by
  induction h generalizing inner v with
  | nil => cases hn
  | @dedent n ks ends ih =>
    obtain ⟨s, w, rfl, hw⟩ := exists_kinds_cons hv
    cases inner with
    | zero =>
      obtain rfl : n = depth := by omega
      subst hw
      exact ⟨rfl, ends⟩
    | succ inner => exact ih inner (by omega) hw
  | line isLine _ ih =>
    obtain ⟨l, s, w, rfl, hl, below⟩ := exists_kinds_append hv
    rw [append_assoc, behindBlock_line isLine hl, behindBlock_line isLine hl]
    exact (ih inner hn below :)
  | block isLine _ ih =>
    obtain ⟨l, s, w, rfl, hl, hi⟩ := exists_kinds_append hv
    obtain ⟨t, w, rfl, below⟩ := exists_kinds_cons hi
    rw [append_assoc, behindBlock_line isLine hl, behindBlock_line isLine hl]
    exact ih (inner + 1) (by omega) below

theorem Upto.block (h : Upto rest rest' (depth + 1) ts ts') :
    Upto rest rest' depth (behindBlock 0 ts) (behindBlock 0 ts') := by
  obtain ⟨v, v', rfl, rfl, alike, ends⟩ := h
  have ends' : Ends (depth + 1) (v'.map (·.kind)) := alike ▸ ends
  obtain ⟨eq, inner⟩ := ends.behindBlock 0 rfl rfl rest
  obtain ⟨eq', _⟩ := ends'.behindBlock 0 rfl rfl rest'
  exact ⟨_, _, eq, eq', alike.behindClosing _ _ 0, inner⟩

theorem frame_upto (rest rest' : List (Token ω)) :
    Frame rest.length rest'.length (Upto rest rest') where
  inBlock := Upto.inBlock
  block := Upto.block
  length := Upto.length

theorem Statements.startsBlock {more : List (Token ω)} (h : Statements (ts.map (·.kind)))
    (hm : startsBlock more = false) : startsBlock (ts ++ more) = false := by
  generalize hk : ts.map (·.kind) = ks at h
  cases h with
  | nil =>
    obtain rfl := map_eq_nil_iff.mp hk
    exact hm
  | line isLine => exact isLine.startsBlock hk more
  | block isLine => exact isLine.startsBlock hk more

/-- Two lists of tokens made of the same statements up to the given ends. Listed are the first lines
of the statements; what stands behind such a line is its block, if it has one, and the other
statements. -/
inductive Statementwise (tail tail' : List (Token ω)) :
    List (List (TokenKind ω)) → List (Token ω) → List (Token ω) → Prop
  | nil : Statementwise tail tail' [] tail tail'
  | cons {l l' s s' next next' rest rest' lines : _} : Alike l l' → IsLine (l.map (·.kind)) →
      Behind (Upto rest rest') 0 next next' → Statementwise tail tail' lines rest rest' →
      Statementwise tail tail' (l.map (·.kind) :: lines) (l ++ ⟨.newline, s⟩ :: next)
        (l' ++ ⟨.newline, s'⟩ :: next')

theorem Behind.onLine {next next' : List (Token ω)}
    (h : Behind (Upto rest rest') 0 next next') (alike : Alike l l')
    (isLine : IsLine (l.map (·.kind))) :
    OnLine (Upto rest rest') rest.length rest'.length 0 (l ++ ⟨.newline, s⟩ :: next)
      (l' ++ ⟨.newline, t⟩ :: next') :=
  onLine_cons alike isLine h (h.length (frame_upto rest rest'))

theorem statementwise {tail tail' : List (Token ω)} (h : Statements (ts.map (·.kind)))
    (alike : Alike ts ts') (ht : startsBlock tail = false) (ht' : startsBlock tail' = false) :
    Statementwise tail tail' (outerLines (ts.map (·.kind) ++ [.eof])) (ts ++ tail)
      (ts' ++ tail') := by
  have alike' : ts'.map (·.kind) = ts.map (·.kind) := alike.symm
  generalize hk : ts.map (·.kind) = ks at alike' h
  induction h generalizing ts ts' with
  | nil =>
    obtain rfl := map_eq_nil_iff.mp hk
    obtain rfl := map_eq_nil_iff.mp alike'
    exact .nil
  | @line line ks isLine statements ih =>
    obtain ⟨l, s, v, rfl, rfl, hv⟩ := exists_kinds_append hk
    obtain ⟨l', s', v', rfl, hl', hv'⟩ := exists_kinds_append alike'
    have below : Upto (v ++ tail) (v' ++ tail') 0 (v ++ tail) (v' ++ tail') :=
      ⟨[], [], rfl, rfl, rfl, .nil⟩
    have first := Statements.startsBlock (hv.symm ▸ statements) ht
    have first' := Statements.startsBlock (hv'.symm ▸ statements) ht'
    simp only [append_assoc, cons_append, outerLines_line isLine]
    exact .cons hl'.symm isLine (.line first first' below) (ih (hv.trans hv'.symm) hv hv')
  | @block line inner ks isLine ends statements ih =>
    obtain ⟨l, s, v, rfl, rfl, hi⟩ := exists_kinds_append hk
    obtain ⟨t, v, rfl, hb⟩ := exists_kinds_cons hi
    obtain ⟨i, v, rfl, rfl, hv⟩ := map_eq_append_iff.mp hb
    obtain ⟨l', s', v', rfl, hl', hi'⟩ := exists_kinds_append alike'
    obtain ⟨t', v', rfl, hb'⟩ := exists_kinds_cons hi'
    obtain ⟨i', v', rfl, hi', hv'⟩ := map_eq_append_iff.mp hb'
    have below : Upto (v ++ tail) (v' ++ tail') 1 (i ++ (v ++ tail)) (i' ++ (v' ++ tail')) :=
      ⟨i, i', rfl, rfl, hi'.symm, ends⟩
    simp only [append_assoc, cons_append, outerLines_line isLine, outerLines_block ends]
    exact .cons hl'.symm isLine (.block below) (ih (hv.trans hv'.symm) hv hv')

end Upto

theorem untilEnd_eof (h : .eof ∉ ts.map (·.kind)) (place fin : Span) :
    untilEnd place (ts ++ [⟨.eof, fin⟩]) = (ts, fin) := by
  induction ts generalizing place with
  | nil => rfl
  | cons t ts ih =>
    rw [map_cons, mem_cons, not_or] at h
    obtain ⟨k, s⟩ := t
    cases k with
    | eof => exact absurd rfl h.1
    | _ => simp only [cons_append, untilEnd, ih h.2]

/-- The tokens of a text up to its end, and where that is. -/
theorem exists_untilEnd {read : Lexicon ω} {source : String} {ks : List (TokenKind ω)}
    (ht : tokensOf read source = .ok ts) (hk : ts.map (·.kind) = ks ++ [.eof]) :
    ∃ v fin, v.map (·.kind) = ks ∧ ts = v ++ [⟨.eof, fin⟩] ∧
      ∀ place, untilEnd place ts = (v, fin) := by
  obtain ⟨before, eq, once⟩ := (skeleton_of_tokensOf ht).eof_last
  obtain rfl : before = ks := append_inj_left' (eq.symm.trans hk) rfl
  obtain ⟨v, fin, more, rfl, rfl, hm⟩ := exists_kinds_append hk
  obtain rfl := map_eq_nil_iff.mp hm
  exact ⟨v, fin, rfl, rfl, fun place => untilEnd_eof once place fin⟩

end ViewBridge
