import ViewBridge.Proofs.Classes.Bodies
import ViewBridge.Proofs.Model.CopiedPieces
import ViewBridge.Proofs.Model.Lines

namespace ViewBridge

theorem SpellsLines.head_isText {ω : Type} {ts : List (Token ω)} {lines : List (SourceLine ω)}
    (h : SpellsLines ts lines) : ∀ t ∈ ts.head?, t.kind.isText = true := by
  have first {l rest : List (Token ω)} (isLine : IsLine (l.map (·.kind))) :
      ∀ t ∈ (l ++ rest).head?, t.kind.isText = true := by
    cases l with
    | nil => exact absurd rfl isLine.nonempty
    | cons t l =>
      rintro _ ⟨⟩
      exact isLine.text _ List.mem_cons_self
  cases h with
  | nil => nofun
  | line isLine => exact first isLine
  | block isLine => exact first isLine

end ViewBridge

namespace ViewBridge.Model

open Scanner List
open Classes
open Text (Outline)

variable {width : Nat} {source : String} {whole : List Classes.Token} {shown : Interface}
  {extent : Span}

theorem countP_dedents (n : Nat) :
    (dedents (ω := Word) n).countP TokenKind.isDedent = n ∧
      (dedents (ω := Word) n).countP TokenKind.isIndent = 0 := by
  constructor
  · simp [dedents, countP_replicate, TokenKind.isDedent]
  · simp [dedents, countP_replicate, TokenKind.isIndent]

theorem closedLine_of_balanced {ks : List Kind} {n : Nat}
    (h : BlocksBalanced (ks ++ .newline :: dedents n)) :
    closedLine ks = ks ++ .newline :: dedents n := by
  have closed := h.closed
  obtain ⟨dedent, indent⟩ := countP_dedents n
  simp only [countP_append, countP_cons, dedent, indent, TokenKind.isDedent,
    TokenKind.isIndent] at closed
  have count : ks.countP TokenKind.isIndent - ks.countP TokenKind.isDedent = n := by
    simp at closed
    omega
  rw [closedLine, count]

theorem isText_of_ends {ends : List Classes.Token} {n : Nat}
    (h : ends.map (·.kind) = .newline :: dedents n) : ∀ e ∈ ends, e.kind.isText = false := by
  intro e he
  have mem : e.kind ∈ ends.map (·.kind) := mem_map_of_mem he
  rw [h] at mem
  rcases mem_cons.mp mem with eq | mem
  · rw [eq]
    rfl
  · rw [eq_of_mem_replicate mem]
    rfl

theorem exists_last_of_chunk {pre chunk post : List Classes.Token}
    (h : Chunk whole pre chunk post extent shown) (filled : Filled (chunk.map (·.kind))) :
    ∃ seg u ends n, chunk = seg ++ u :: ends ∧ u.kind.isText = true ∧
      ends.map (·.kind) = .newline :: dedents n ∧ extent.stop = u.span.stop ∧
      BlocksBalanced ((seg ++ [u]).map (·.kind) ++ .newline :: dedents n) := by
  obtain ⟨lines, spelled⟩ := h.lines
  obtain ⟨_, last, _, hlast, rfl⟩ := h.spanned
  have ne : chunk ≠ [] := by
    rintro rfl
    cases hlast
  obtain ⟨seg, u, ends, n, rfl, text, hends⟩ := spelled.exists_last ne filled
  obtain rfl : u = last := by
    have none : ends.filter (·.kind.isText) = [] :=
      filter_eq_nil_iff.mpr fun e he => by simp [isText_of_ends hends e he]
    rw [filter_append, filter_cons, if_pos text, none, getLast?_concat] at hlast
    exact Option.some.inj hlast
  refine ⟨seg, u, ends, n, rfl, text, hends, rfl, ?_⟩
  have balanced := spelled.balanced
  rwa [append_cons, map_append, hends] at balanced

/-- The lines of a member that are copied from the source. -/
theorem writtenAs_source {t : Classes.Token} (plain : ∀ c ∈ source.toList, c ≠ '\t' ∧ c ≠ '\r')
    (ht : tokensOf readWord.firmStarts source = .ok (whole ++ [t])) (h : HeldAt whole extent shown)
    : WrittenAs width (Member.source (sourceLines source extent)).outline shown := by
  obtain ⟨pre, chunk, post, c⟩ := h
  obtain ⟨lines, spelled⟩ := c.lines
  obtain ⟨t₀, _, head, _, extent⟩ := c.spanned
  have first := spelled.head_isText t₀ head
  have filled : Filled (chunk.map (·.kind)) := by
    refine (skeleton_of_tokensOf ht).filled.part ?_
    rw [c.whole]
    exact ⟨pre.map (·.kind), (post ++ [t]).map (·.kind), by simp⟩
  obtain ⟨seg, u, ends, n, rfl, text, hends, stop, balanced⟩ := exists_last_of_chunk c filled
  have tokens : tokensOf readWord.firmStarts source =
      .ok (pre ++ (seg ++ u :: (ends ++ post ++ [t]))) := by
    rw [ht, c.whole]
    simp
  have front : (seg ++ [u]).head? = some t₀ := by
    cases seg with
    | nil => exact head
    | cons s seg => exact head
  have inside : ∀ before after, (seg ++ [u]).map (·.kind) = before ++ after →
      before.countP TokenKind.isDedent ≤ before.countP TokenKind.isIndent := by
    intro before after eq
    refine balanced.opened before (after ++ .newline :: dedents n) ?_
    rw [eq, append_assoc]
  have next : ∀ v ∈ (ends ++ post ++ [t]).head?, v.kind.isText = false := by
    obtain ⟨e, ends, rfl, he, -⟩ := map_eq_cons_iff.mp hends
    rintro _ ⟨⟩
    rw [he]
    rfl
  obtain ⟨copy, render, piece⟩ :=
    exists_copied_piece width plain tokens front first text c.start c.deep inside next
      (by rw [extent]) stop (by rw [extent])
  -- the copy leaves out the ends of the blocks, and the line that follows brings them back
  have whole := c.reads
  rw [append_cons, map_append, hends, ← closedLine_of_balanced balanced] at whole
  exact ⟨_, render ▸ piece.begins, whole⟩

theorem exists_valueText_default (kind : PropertyKind) (type : Descriptor) :
    ∃ ks, ValueText (kind.defaultText type).toList ks := by
  have name {text : String} (h : isName text = true) : ∃ ks, ValueText text.toList ks :=
    ⟨_, valueText_name (dotted_of_isName h)⟩
  have zero : Decimal.IsDigits ['0'] := ⟨nofun, by decide⟩
  unfold PropertyKind.defaultText
  split
  case h_1 | h_8 => exact name (by decide)
  case h_2 => exact ⟨_, valueText_string ""⟩
  case h_3 => exact ⟨_, valueText_digits (.inl rfl) zero (rfl : Decimal.readInt64? _ = some 0)⟩
  case h_4 =>
    exact ⟨_, valueText_pointed (.inl rfl) zero zero (Decimal.readFloat?_pointed (.inl rfl) zero zero)⟩
  case h_5 => exact name (by decide)
  case h_6 => exact ⟨_, valueText_group .square valueText_nil⟩
  case h_7 => exact ⟨_, valueText_group .curly valueText_nil⟩

theorem hint_of_propertyType? {f : Field} (h : propertyType? f = none) : f.hint = none := by
  unfold propertyType? at h
  split at h
  next => cases h
  next eq _ => exact eq
  next eq _ => exact eq

/-- The member that a field becomes shows the name of the field. -/
theorem writtenAs_field {f : Field} (hf : NamedField f)
    (held : f.hint = none →
      WrittenAs width (Member.source (sourceLines source f.extent)).outline ⟨[f.name], []⟩) :
    WrittenAs width (fieldMember source f).outline ⟨[f.name], []⟩ := by
  unfold fieldMember
  split
  next none => exact held (hint_of_propertyType? none)
  next type _ =>
    obtain ⟨ks, value⟩ : ∃ ks, ValueText ((f.default.map literalText).getD
        ((PropertyKind.ofType type).defaultText type)).toList ks := by
      cases default : f.default with
      | none => exact exists_valueText_default _ type
      | some v =>
        rw [Option.map_some, Option.getD_some, literalText_eq_spelled]
        exact exists_valueText (hf.default v default)
    exact writtenAs_property hf.name hf.reserved _ _ value

end ViewBridge.Model
