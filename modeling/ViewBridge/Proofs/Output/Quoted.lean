import ViewBridge.Output.Expr
import ViewBridge.View.Interpolation

namespace ViewBridge.Output

open List

/-- A piece of the text between the quotes of a string: a character that stands for itself, or the mark
behind a backslash. -/
inductive Piece where
  | plain (c : Char)
  | escape (mark : Char)

/-- The pieces of a text, unless it ends inside an escape. -/
def pieces? : List Char → Option (List Piece)
  | [] => some []
  | ['\\'] => none
  | '\\' :: mark :: rest => (pieces? rest).map (.escape mark :: ·)
  | c :: rest => (pieces? rest).map (.plain c :: ·)

/-- The marks of the known escapes, with the characters they stand for. -/
def escapeMarks : List (Char × Char) :=
  [('"', '"'), ('\\', '\\'), ('n', '\n'), ('t', '\t'), ('r', '\r')]

/-- The character that a piece stands for, unless its mark is unknown. -/
def Piece.char? : Piece → Option Char
  | plain c => some c
  | escape mark => escapeMarks.lookup mark

/-- Whether a piece has a known mark, or is a character that needs none. -/
def Piece.Sealed : Piece → Prop
  | plain c => c ∉ escapeMarks.map (·.2)
  | escape mark => mark ∈ escapeMarks.map (·.1)

/-- A text is closed early where the quote is one of its pieces. -/
theorem closesEarly_iff_of_pieces? {quote : Char} {cs : List Char} {ps : List Piece}
    (h : pieces? cs = some ps) : View.closesEarly quote cs = true ↔ .plain quote ∈ ps := by
  fun_induction pieces? cs generalizing ps with
  | case1 =>
    cases h
    simp [View.closesEarly]
  | case2 => cases h
  | case3 mark rest ih =>
    obtain ⟨more, read, rfl⟩ := Option.map_eq_some_iff.mp h
    rw [View.closesEarly, ih read]
    simp
  | case4 c rest single slash ih =>
    obtain ⟨more, read, rfl⟩ := Option.map_eq_some_iff.mp h
    rw [View.closesEarly.eq_4 _ _ _ single slash, Bool.or_eq_true, ih read, beq_iff_eq,
      mem_cons, Piece.plain.injEq, eq_comm]

theorem not_mem_escapeChar {c : Char} (hc : c ∈ ['\n', '\r', '\t']) (d : Char) :
    c ∉ escapeChar d := by
  unfold escapeChar
  grind

/-- Each character is written as one piece, whatever follows it. -/
theorem exists_piece (c : Char) : ∃ p : Piece, p.Sealed ∧ p.char? = some c ∧
    ∀ rest, pieces? (escapeChar c ++ rest) = (pieces? rest).map (p :: ·) := by
  by_cases special : c ∈ escapeMarks.map (·.2)
  · have table : ∀ e ∈ escapeMarks,
        escapeMarks.lookup e.1 = some e.2 ∧ escapeChar e.2 = ['\\', e.1] := by
      decide
    obtain ⟨e, known, rfl⟩ := mem_map.mp special
    obtain ⟨meaning, written⟩ := table e known
    refine ⟨.escape e.1, mem_map_of_mem known, meaning, fun rest => ?_⟩
    rw [written]
    rfl
  · have others := special
    simp only [escapeMarks, map_cons, map_nil, mem_cons, not_mem_nil, or_false,
      not_or] at others
    have written : escapeChar c = [c] := by simp [escapeChar, others]
    refine ⟨.plain c, special, rfl, fun rest => ?_⟩
    rw [written, singleton_append, pieces?.eq_4]
    · exact fun slash => absurd slash others.2.1
    · exact fun _ _ slash => absurd slash others.2.1

theorem exists_pieces (cs : List Char) : ∃ ps : List Piece, (∀ p ∈ ps, p.Sealed) ∧
    ps.mapM Piece.char? = some cs ∧ pieces? (cs.flatMap escapeChar) = some ps := by
  induction cs with
  | nil => exact ⟨[], forall_mem_nil _, rfl, rfl⟩
  | cons c cs ih =>
    obtain ⟨p, hp, char, front⟩ := exists_piece c
    obtain ⟨ps, others, chars, read⟩ := ih
    refine ⟨p :: ps, forall_mem_cons.mpr ⟨hp, others⟩, ?_, ?_⟩
    · rw [mapM_cons, char, chars]
      rfl
    · rw [flatMap_cons, front, read, Option.map_some]

theorem flatMap_escapeChar_inj {cs ds : List Char}
    (h : cs.flatMap escapeChar = ds.flatMap escapeChar) : cs = ds := by
  obtain ⟨ps, _, chars, read⟩ := exists_pieces cs
  obtain ⟨qs, _, others, same⟩ := exists_pieces ds
  rw [← h, read, Option.some.injEq] at same
  rw [← same, chars, Option.some.injEq] at others
  exact others

theorem toList_text_code (s : String) :
    (Expr.text s).code.toList = '"' :: (s.toList.flatMap escapeChar ++ ['"']) := by
  simp [Expr.code, quote]

/-- What stands between the quotes of a string neither ends it nor leaves it: each quote, line end and
tab is escaped, each escape is whole and known, and together the pieces stand for the string. -/
theorem text_code_sealed (s : String) :
    ∃ inner, (Expr.text s).code.toList = '"' :: (inner ++ ['"']) ∧
      View.closesEarly '"' inner = false ∧ (∀ c ∈ ['\n', '\r', '\t'], c ∉ inner) ∧
      (∃ ps, pieces? inner = some ps ∧
        (∀ mark, .escape mark ∈ ps → mark ∈ ['"', '\\', 'n', 't', 'r']) ∧ .escape '(' ∉ ps ∧
        ps.mapM Piece.char? = some s.toList) ∧
      ∀ other, other ≠ s → (Expr.text other).code ≠ (Expr.text s).code := by
  obtain ⟨ps, sealed, chars, read⟩ := exists_pieces s.toList
  have marks : ∀ mark, .escape mark ∈ ps → mark ∈ ['"', '\\', 'n', 't', 'r'] :=
    fun _ hm => sealed _ hm
  have field : .escape '(' ∉ ps := fun interpolated => absurd (marks _ interpolated) (by decide)
  refine ⟨_, toList_text_code s, ?_, ?_, ⟨ps, read, marks, field, chars⟩, ?_⟩
  · rw [Bool.eq_false_iff, Ne, closesEarly_iff_of_pieces? read]
    exact fun closing => sealed _ closing (by decide)
  · intro c hc inside
    obtain ⟨d, _, hd⟩ := mem_flatMap.mp inside
    exact not_mem_escapeChar hc d hd
  · intro other ne eq
    have texts := congrArg String.toList eq
    rw [toList_text_code, toList_text_code, List.cons.injEq, append_left_inj] at texts
    exact ne (String.toList_inj.mp (flatMap_escapeChar_inj texts.2))

end ViewBridge.Output
