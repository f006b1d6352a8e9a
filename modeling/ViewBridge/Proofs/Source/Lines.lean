import ViewBridge.Proofs.Source.Lockstep

namespace ViewBridge

open List

/-- A line of a text with the lines of the block below it. -/
inductive SourceLine (ω : Type) where
  | mk (tokens : List (Token ω)) (block : List (SourceLine ω))

variable {ω : Type}

namespace SourceLine

def tokens : SourceLine ω → List (Token ω)
  | ⟨tokens, _⟩ => tokens

def block : SourceLine ω → List (SourceLine ω)
  | ⟨_, block⟩ => block

/-- The number of lines from this one to the end of its block. -/
def count : SourceLine ω → Nat
  | ⟨_, block⟩ => 1 + countAll block
where
  countAll : List (SourceLine ω) → Nat
    | [] => 0
    | l :: ls => l.count + countAll ls

/-- Whether a line is one of these or of the blocks below them. -/
inductive Among (line : SourceLine ω) : List (SourceLine ω) → Prop
  | head {lines} : Among line (line :: lines)
  | inside {first lines} : Among line first.block → Among line (first :: lines)
  | tail {first lines} : Among line lines → Among line (first :: lines)

end SourceLine

/-- Tokens that spell lines one after the other, each with its block. -/
inductive SpellsLines : List (Token ω) → List (SourceLine ω) → Prop
  | nil : SpellsLines [] []
  | line {l s ts lines} : IsLine (l.map (·.kind)) → SpellsLines ts lines →
      SpellsLines (l ++ ⟨.newline, s⟩ :: ts) (⟨l, []⟩ :: lines)
  | block {l s s₁ s₂ inner block ts lines} : IsLine (l.map (·.kind)) → SpellsLines inner block →
      SpellsLines ts lines →
      SpellsLines (l ++ ⟨.newline, s⟩ :: ⟨.indent, s₁⟩ :: (inner ++ ⟨.dedent, s₂⟩ :: ts))
        (⟨l, block⟩ :: lines)

theorem SpellsLines.startsBlock {ts more : List (Token ω)} {lines : List (SourceLine ω)}
    (h : SpellsLines ts lines) (hm : startsBlock more = false) : startsBlock (ts ++ more) = false := by
  cases h with
  | nil => exact hm
  | line isLine => exact isLine.startsBlock (map_append ..) more
  | block isLine => exact isLine.startsBlock (map_append ..) more

/-- Each line at any depth stands among the tokens, behind the end of another one. -/
theorem SpellsLines.exists_of_among {ts : List (Token ω)} {lines : List (SourceLine ω)}
    {line : SourceLine ω} (h : SpellsLines ts lines) (hm : line.Among lines) :
    IsLine (line.tokens.map (·.kind)) ∧ ∃ before s after,
      ts = before ++ (line.tokens ++ ⟨.newline, s⟩ :: after) ∧
        ∀ k ∈ (before.map (·.kind)).getLast?, k.isText = false := by
  have behind : ∀ {l before : List (Token ω)} {t : Token ω}, t.kind.isText = false →
      (∀ k ∈ (before.map (·.kind)).getLast?, k.isText = false) →
      ∀ k ∈ ((l ++ t :: before).map (·.kind)).getLast?, k.isText = false := by
    intro l before t mark start k hk
    rw [map_append, map_cons, getLast?_append, getLast?_cons] at hk
    cases hl : (before.map (·.kind)).getLast? <;> rw [hl] at hk <;> cases hk
    · exact mark
    · exact start _ hl
  induction h with
  | nil => cases hm
  | @line l s ts lines isLine spelled ih =>
    cases hm with
    | head => exact ⟨isLine, [], s, ts, rfl, by simp⟩
    | inside hm => cases hm
    | tail hm =>
      obtain ⟨isLine', before, s', after, rfl, start⟩ := ih hm
      exact ⟨isLine', l ++ ⟨.newline, s⟩ :: before, s', after, by simp, behind rfl start⟩
  | @block l s s₁ s₂ inner block ts lines isLine _ _ ihi ih =>
    cases hm with
    | head => exact ⟨isLine, [], s, _, rfl, by simp⟩
    | inside hm =>
      obtain ⟨isLine', before, s', after, rfl, start⟩ := ihi hm
      exact ⟨isLine', l ++ [⟨.newline, s⟩] ++ ⟨.indent, s₁⟩ :: before, s',
        after ++ ⟨.dedent, s₂⟩ :: ts, by simp, behind rfl start⟩
    | tail hm =>
      obtain ⟨isLine', before, s', after, rfl, start⟩ := ih hm
      exact ⟨isLine', l ++ ⟨.newline, s⟩ :: ⟨.indent, s₁⟩ :: inner ++ ⟨.dedent, s₂⟩ :: before, s',
        after, by simp, behind rfl start⟩

/-- The lines up to the end of the innermost of the open blocks. -/
theorem Ends.exists_spellsLines {n : Nat} {ts : List (Token ω)} (h : Ends (n + 1) (ts.map (·.kind))) :
    ∃ inner s rest lines, ts = inner ++ ⟨.dedent, s⟩ :: rest ∧ SpellsLines inner lines ∧
      Ends n (rest.map (·.kind)) := by
  induction hl : ts.length using Nat.strongRecOn generalizing ts n with
  | ind size ih =>
    generalize hk : ts.map (·.kind) = ks at h
    cases h with
    | dedent ends =>
      obtain ⟨s, rest, rfl, hr⟩ := exists_kinds_cons hk
      exact ⟨[], s, rest, [], rfl, .nil, hr ▸ ends⟩
    | line isLine ends =>
      obtain ⟨l, s, v, rfl, rfl, hv⟩ := exists_kinds_append hk
      rw [length_append, length_cons] at hl
      obtain ⟨inner, s', rest, lines, rfl, spelled, behind⟩ :=
        ih v.length (by omega) (hv ▸ ends) rfl
      exact ⟨l ++ ⟨.newline, s⟩ :: inner, s', rest, _, by simp, .line isLine spelled, behind⟩
    | block isLine ends =>
      obtain ⟨l, s, v, rfl, rfl, hi⟩ := exists_kinds_append hk
      obtain ⟨s₁, v, rfl, hv⟩ := exists_kinds_cons hi
      rw [length_append, length_cons, length_cons] at hl
      obtain ⟨block, s₂, others, lines, rfl, first, behind⟩ :=
        ih v.length (by omega) (hv ▸ ends) rfl
      rw [length_append, length_cons] at hl
      obtain ⟨inner, s', rest, more, rfl, second, behind⟩ := ih others.length (by omega) behind rfl
      refine ⟨l ++ ⟨.newline, s⟩ :: ⟨.indent, s₁⟩ :: (block ++ ⟨.dedent, s₂⟩ :: inner), s', rest, _,
        by simp, .block isLine first second, behind⟩

theorem Statements.exists_spellsLines {ts : List (Token ω)} (h : Statements (ts.map (·.kind))) :
    ∃ lines, SpellsLines ts lines := by
  generalize hk : ts.map (·.kind) = ks at h
  induction h generalizing ts with
  | nil =>
    obtain rfl := map_eq_nil_iff.mp hk
    exact ⟨[], .nil⟩
  | line isLine _ ih =>
    obtain ⟨l, s, v, rfl, rfl, hv⟩ := exists_kinds_append hk
    obtain ⟨lines, spelled⟩ := ih hv
    exact ⟨_, .line isLine spelled⟩
  | block isLine ends _ ih =>
    obtain ⟨l, s, v, rfl, rfl, hi⟩ := exists_kinds_append hk
    obtain ⟨s₁, v, rfl, hb⟩ := exists_kinds_cons hi
    obtain ⟨i, v, rfl, rfl, hv⟩ := map_eq_append_iff.mp hb
    obtain ⟨inner, s₂, rest, block, rfl, first, behind⟩ := ends.exists_spellsLines
    have none : rest = [] := by
      generalize hr : rest.map (·.kind) = ks at behind
      cases behind
      exact map_eq_nil_iff.mp hr
    obtain ⟨lines, second⟩ := ih hv
    rw [none, append_assoc]
    exact ⟨⟨l, block⟩ :: lines, .block isLine first second⟩

end ViewBridge
