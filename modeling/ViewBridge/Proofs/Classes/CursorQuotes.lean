import ViewBridge.Proofs.Classes.CursorMatches

namespace ViewBridge

open List

namespace Classes

theorem length_lt_of_string {source text : String} {ts : List Token} {t : Token}
    (h : tokens source = .ok ts) (ht : t ∈ ts) (hk : t.kind = .word (.string text)) :
    text.length < source.length := by
  obtain ⟨previous, c, cs, n, read, within⟩ := Scanner.word_within_of_tokensOf h t ht _ hk
  obtain ⟨front, body, raw, quote, opening, rfl, string⟩ := readWord_opensString read
  obtain ⟨inner, rest, rfl, _, _, _, shorter⟩ := exists_of_readString opening.ne_slash string
  have shorter := shorter text rfl
  simp only [length_append] at within
  omega

theorem length_trim_le (text : String) : (Text.trim text).length ≤ text.length := by
  have start := (dropWhile_suffix Text.isBlank (l := text.toList)).length_le
  have stop := (dropWhile_suffix Text.isBlank
    (l := (text.toList.dropWhile Text.isBlank).reverse)).length_le
  rw [length_reverse] at stop
  unfold Text.trim Text.trimEnd Text.trimStart
  rw [String.length_ofList, length_reverse]
  exact stop.trans (start.trans (Nat.le_of_eq String.length_toList))

namespace Cursor

open ViewBridge.Cursor

variable {reads : String → TypeHint} {all ts : List Token} {fin : Span} {text : String}

/-- The tokens of a quoted text are read to their end, or something is wrong with them. -/
theorem wholeType_eq (quotes : Quotes reads all) (h : Sees all fin [] 0 ts) :
    ∃ x, wholeType all 0 = Run.of x ∧
      x.toOption =
        match Classes.typeExpression reads fin ts with
        | .ok (type, rest) =>
          match endOfLine fin rest with
          | .ok [] => some type
          | _ => none
        | .error _ => none := by
  rw [wholeType]
  rcases (typeExpression_matches quotes h).exists_eq with ⟨_, _, eq, read, ⟨hb⟩⟩ | ⟨fault, eq, read⟩
  · rw [eq, read, pure_bind]
    dsimp only
    rcases (passLineBreak_matches hb).exists_eq with ⟨q, rest, eq, read, hr⟩ | ⟨fault, eq, read⟩
    · rw [eq, read, pure_bind]
      cases rest with
      | nil =>
        rw [hr.tokenAt_finish, pure_bind]
        exact ⟨.ok _, rfl, rfl⟩
      | cons t rest =>
        have plain := hr.plain t mem_cons_self
        obtain ⟨k, s⟩ := t
        rw [hr.tokenAt, pure_bind]
        cases k with
        | eof => exact absurd rfl plain
        | _ =>
          dsimp only
          rw [refuse_eq hr.head]
          exact ⟨.error _, rfl, rfl⟩
    · rw [eq, read]
      exact ⟨.error fault, rfl, rfl⟩
  · rw [eq, read]
    exact ⟨.error fault, rfl, rfl⟩

/-- What a quoted text stands for, given what the strings in it do. -/
theorem quoted_eq_wholeType (quotes : ∀ ts, tokens (Text.trim text) = .ok ts → Quotes reads ts) :
    Quote.type text =
      pure ((wholeType? reads (Text.trim text)).getD (.forward (Text.trim text))) := by
  rw [Quote.type]
  cases read : tokens (Text.trim text) with
  | error fault =>
    rw [wholeType?, read]
    rfl
  | ok ts =>
    have whole := upToEnd_of_tokensOf read
    have sees := sees_upToEnd ts
    rw [whole] at sees
    have kept : closed .origin ts = ts := by
      rw [← whole]
      exact closed_upToEnd .origin ts
    obtain ⟨x, eq, hx⟩ := wholeType_eq (quotes ts read) sees
    have spelled : wholeType? reads (Text.trim text) = x.toOption := by
      rw [wholeType?, read]
      exact hx.symm
    rw [spelled]
    dsimp only
    rw [kept, eq]
    cases x <;> rfl

/-- Quotes inside quotes are as deep as the text is long, at most. -/
theorem quoted_eq_quotedType {n : Nat} (h : text.length ≤ n) :
    Quote.type text = pure (quotedType n text) := by
  induction n generalizing text with
  | zero =>
    obtain rfl : text = "" := String.length_eq_zero_iff.mp (Nat.le_zero.mp h)
    have none : wholeType? .forward (Text.trim "") = none := by cbv
    have stands : ∀ ts, tokens (Text.trim "") = .ok ts → Quotes .forward ts := by
      intro ts read t ht inner hk
      exact absurd (length_lt_of_string read ht hk) (Nat.not_lt_zero _)
    rw [quoted_eq_wholeType stands, none]
    rfl
  | succ n ih =>
    refine quoted_eq_wholeType fun ts read t ht inner hk => ih ?_
    have shorter := length_lt_of_string read ht hk
    have trimmed := length_trim_le text
    omega

theorem quotes_quotedHint (all : List Token) : Quotes quotedHint all :=
  fun _ _ _ _ => quoted_eq_quotedType (Nat.le_refl _)

theorem parseType_upToEnd (ts : List Token) :
    parseType (upToEnd ts) = Run.of (TypeHint.ofTokens ts) := by
  unfold parseType TypeHint.ofTokens hint
  rw [closed_upToEnd]
  refine Matches.run_eq ((typeExpression_matches (quotes_quotedHint _) (sees_upToEnd ts)).map ?_)
  rintro _ _ _ ⟨_⟩
  rfl

end Cursor

end Classes

end ViewBridge
