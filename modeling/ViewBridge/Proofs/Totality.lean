import ViewBridge.Proofs.Classes.CursorEnds
import ViewBridge.Proofs.Markup.Cursor

namespace ViewBridge

open ViewBridge.Cursor

theorem Classes.Cursor.parse_of_tokens (source : String) :
    (Run.of (Classes.tokens source) >>= Classes.Cursor.parse) = Run.of (Classes.parse source) := by
  unfold Classes.parse
  cases read : Classes.tokens source with
  | error fault => rfl
  | ok ts =>
    have same := Classes.Cursor.parse_upToEnd ts
    rw [upToEnd_of_tokensOf read] at same
    exact same

/-- Readers that keep a position in their tokens end with an answer or a fault on every list of
tokens. They never run on forever, read or cut beyond the tokens, take the first of no parameters, or
count below zero. What they end with is what the list itself is read as: for a document always, and
for classes and types where nothing stands behind the first end, as with the tokens of a text. -/
theorem readers_finish :
    (∀ ts : List Markup.Token, Markup.Cursor.parse ts = Run.of (Markup.Module.ofTokens ts)) ∧
      (∀ ts : List Classes.Token,
        (∃ x, Classes.Cursor.parse ts = Run.of x) ∧
          (∃ x, Classes.Cursor.parseType ts = Run.of x) ∧
          Classes.Cursor.parse (upToEnd ts) = Run.of (Classes.Module.ofTokens ts) ∧
          Classes.Cursor.parseType (upToEnd ts) = Run.of (Classes.TypeHint.ofTokens ts)) ∧
      ∀ source : String,
        (Run.of (Classes.tokens source) >>= Classes.Cursor.parse) =
          Run.of (Classes.parse source) := by
  refine ⟨Markup.Cursor.parse_eq, fun ts => ⟨?_, ?_, ?_, ?_⟩, Classes.Cursor.parse_of_tokens⟩
  · exact (Classes.Cursor.parse_finishes ts).exists_eq
  · exact (Classes.Cursor.parseType_finishes ts).exists_eq
  · exact Classes.Cursor.parse_upToEnd ts
  · exact Classes.Cursor.parseType_upToEnd ts

end ViewBridge
