import ViewBridge.Proofs.Classes.Reading
import ViewBridge.Proofs.Markup.Reading
import ViewBridge.Proofs.Source.Skeleton

namespace ViewBridge

/-- The tokens of both languages have one form: the end of the text once and last, blocks opened
and closed in balance and only at the start of a line, brackets nested with no line end inside, and
a line end behind the last line. -/
theorem tokens_skeleton :
    (∀ (source : String) (ts : List Markup.Token), Markup.tokens source = .ok ts →
      Skeleton (ts.map (·.kind))) ∧
    (∀ (source : String) (ts : List Classes.Token), Classes.tokens source = .ok ts →
      Skeleton (ts.map (·.kind))) :=
  ⟨fun _ _ h => skeleton_of_tokensOf h, fun _ _ h => skeleton_of_tokensOf h⟩

theorem tokens_skeleton_nested_blocks :
    ∃ ts us,
      Markup.tokens "A:\n  B:\n    c: (1,\n[2])\nD:" = .ok ts ∧ Skeleton (ts.map (·.kind)) ∧
      Classes.tokens "class A:\n  b = \x7b\n\x7d\n  \\\n" = .ok us ∧ Skeleton (us.map (·.kind)) := by
  have markup : (Markup.tokens "A:\n  B:\n    c: (1,\n[2])\nD:").isOk = true := by
    decide +kernel
  have classes : (Classes.tokens "class A:\n  b = \x7b\n\x7d\n  \\\n").isOk = true := by
    decide +kernel
  obtain ⟨ts, ht⟩ := exists_ok_of_isOk markup
  obtain ⟨us, hu⟩ := exists_ok_of_isOk classes
  exact ⟨ts, us, ht, tokens_skeleton.1 _ ts ht, hu, tokens_skeleton.2 _ us hu⟩

/-- The tokens of both languages tile their text: every token is placed by the line and column of
its start, the tokens stand in order with nothing but gaps around them, and names, operators and
format strings are the text under their spans. A fault is placed in the same way. -/
theorem tokens_tile :
    (∀ (source : String) (ts : List Markup.Token), Markup.tokens source = .ok ts →
      Tiles false Markup.Word.spelling? source ts) ∧
    (∀ (source : String) (fault : Fault), Markup.tokens source = .error fault →
      fault.span.IsPlaced source.toList) ∧
    (∀ (source : String) (ts : List Classes.Token), Classes.tokens source = .ok ts →
      Tiles true Classes.Word.spelling? source ts) ∧
    (∀ (source : String) (fault : Fault), Classes.tokens source = .error fault →
      fault.span.IsPlaced source.toList) :=
  ⟨fun _ _ h => tiles_of_tokensOf Markup.readWord_faithful h,
    fun _ _ h => fault_placed_of_tokensOf h,
    fun _ _ h => tiles_of_tokensOf Classes.readWord_faithful h,
    fun _ _ h => fault_placed_of_tokensOf h⟩

theorem tokens_tile_comments_and_joins :
    (∃ ts, Markup.tokens "A: # a\n\tb: f'c' >= -d\r\n" = .ok ts ∧
      Tiles false Markup.Word.spelling? "A: # a\n\tb: f'c' >= -d\r\n" ts) ∧
    (∃ fault, Markup.tokens "A:\n  b: 'c" = .error fault ∧
      fault.span.IsPlaced "A:\n  b: 'c".toList) ∧
    (∃ ts, Classes.tokens "class A: # a\n  b = \\\n   c != d" = .ok ts ∧
      Tiles true Classes.Word.spelling? "class A: # a\n  b = \\\n   c != d" ts) ∧
    (∃ fault, Classes.tokens "class A:\n  b = (1" = .error fault ∧
      fault.span.IsPlaced "class A:\n  b = (1".toList) := by
  have markup : (Markup.tokens "A: # a\n\tb: f'c' >= -d\r\n").isOk = true := by decide +kernel
  have classes : (Classes.tokens "class A: # a\n  b = \\\n   c != d").isOk = true := by
    decide +kernel
  have string : (Markup.tokens "A:\n  b: 'c").isOk = false := by decide +kernel
  have bracket : (Classes.tokens "class A:\n  b = (1").isOk = false := by decide +kernel
  obtain ⟨ts, ht⟩ := exists_ok_of_isOk markup
  obtain ⟨us, hu⟩ := exists_ok_of_isOk classes
  obtain ⟨e, he⟩ := exists_error_of_isOk string
  obtain ⟨f, hf⟩ := exists_error_of_isOk bracket
  exact ⟨⟨ts, ht, tokens_tile.1 _ ts ht⟩, ⟨e, he, tokens_tile.2.1 _ e he⟩,
    ⟨us, hu, tokens_tile.2.2.1 _ us hu⟩, ⟨f, hf, tokens_tile.2.2.2 _ f hf⟩⟩

end ViewBridge
