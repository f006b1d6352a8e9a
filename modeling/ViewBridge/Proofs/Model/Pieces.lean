import ViewBridge.Proofs.Classes.Hushed
import ViewBridge.Proofs.Source.Cut
import ViewBridge.Proofs.Source.Layout

namespace ViewBridge.Model

open Scanner List
open Classes (Kind Word readWord hushed)

theorem isIndent_hushed (k : Kind) : (hushed k).isIndent = k.isIndent := by
  cases k <;> rfl

theorem isDedent_hushed (k : Kind) : (hushed k).isDedent = k.isDedent := by
  cases k <;> rfl

/-- The kinds of the tokens of a line, which may have blocks below it, with the ends of the line and
of the blocks that are still open. -/
def closedLine (ks : List Kind) : List Kind :=
  ks ++ .newline :: dedents (ks.countP TokenKind.isIndent - ks.countP TokenKind.isDedent)

/-- A text that is a line of a class body, perhaps with blocks below it, and has tokens of these
kinds up to what its strings say. -/
structure Piece (width : Nat) (text : List Char) (ks : List Kind) : Prop where
  starts : ∃ c cs, text = c :: cs ∧ isLayoutChar c = false
  writes : ∀ previous rest, (∀ k ∈ previous, TokenKind.isText k = false) →
    ∃ ks' inner last, Writes readWord ⟨.inside, ⟨[width]⟩, [], previous⟩ text ('\n' :: rest) ks'
        ⟨.inside, ⟨inner ++ [width]⟩, [], last⟩ ∧
      (∀ x ∈ inner, width < x) ∧ ks'.map hushed = ks.map hushed

variable {v v' : View Word} {text rest : List Char} {ks : List Kind}

theorem depth_of_writes (h : Writes readWord v text rest ks v') :
    v'.blocks.depth + ks.countP TokenKind.isDedent =
      v.blocks.depth + ks.countP TokenKind.isIndent := by
  obtain ⟨mode, blocks, opened, previous⟩ := v
  have start : (⟨mode, { blocks, opened := opened.map fun b => (b, .origin), previous },
      text ++ rest⟩ : Stage Word).view = ⟨mode, blocks, opened, previous⟩ := by
    simp [Stage.view, Function.comp_def]
  obtain ⟨out, b, steps, rfl, _, rfl⟩ := h _ start rfl
  exact steps.at_depth

theorem countP_of_hushed {ks ls : List Kind} (h : ks.map hushed = ls.map hushed) :
    ks.countP TokenKind.isIndent = ls.countP TokenKind.isIndent ∧
      ks.countP TokenKind.isDedent = ls.countP TokenKind.isDedent := by
  have indents := congrArg (List.countP TokenKind.isIndent) h
  have dedents := congrArg (List.countP TokenKind.isDedent) h
  simp only [countP_map, Function.comp_def, isIndent_hushed, isDedent_hushed] at indents dedents
  exact ⟨indents, dedents⟩

/-- A piece behind the blanks of its first line, with the ends of the blocks that it leaves open. -/
theorem Piece.begins {width : Nat} {text : List Char} {ks : List Kind}
    (h : Piece width text ks) :
    Begins readWord hushed [width] (replicate width ' ' ++ text ++ ['\n']) (closedLine ks) := by
  intro blocks change hu last rest hl
  obtain ⟨ks', inner, last', writes, hi, hush⟩ :=
    h.writes ((layoutKinds change).getLast?.or last) rest (isText_getLast?_or hl.isText)
  have line := (writes_margin hu h.starts writes).trans (writes_newline rest)
  refine ⟨_, inner, some .newline, hi, .inr rfl, line, ?_⟩
  have depth := depth_of_writes writes
  obtain ⟨indents, closes⟩ := countP_of_hushed hush
  have unclosed : inner.length = ks.countP TokenKind.isIndent - ks.countP TokenKind.isDedent := by
    simp only [Indentation.depth, length_append, length_singleton] at depth
    omega
  simp only [map_append, hush, closedLine, unclosed, append_assoc, map_cons, singleton_append]

end ViewBridge.Model
