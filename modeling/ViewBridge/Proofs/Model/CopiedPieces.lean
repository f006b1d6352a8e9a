import ViewBridge.Proofs.Model.CopiedTokens
import ViewBridge.Proofs.Model.Pieces

namespace ViewBridge.Model

open Scanner List
open Classes (Kind Word readWord hushed endsOperand Parted)

variable {a b c : Stage Word} {t u : Token Word} {ts front seg : List (Token Word)} {margin : Nat}

theorem endsOperand_of_isText {k : Kind} (h : k.isText = false) :
    endsOperand k = false := by
  cases k with
  | closing => cases h
  | word => cases h
  | _ => rfl

theorem any_endsOperand_of_isText {previous : Option Kind}
    (h : ∀ k ∈ previous, k.isText = false) : previous.any endsOperand = false := by
  cases previous with
  | none => rfl
  | some k => exact endsOperand_of_isText (h k rfl)

/-- The text of a token does not end with a blank. -/
theorem exists_word_of_step (h : Step readWord b [u] c) (hu : u.kind.isText = true) :
    ∃ word, b.rest = word ++ c.rest ∧ word ≠ [] ∧ ∀ d ∈ word.getLast?, Text.isBlank d = false := by
  have single {d : Char} (hd : Text.isBlank d = false) : ∀ e ∈ [d].getLast?, Text.isBlank e = false := by
    intro e he
    cases he
    exact hd
  generalize eq : [u] = out at h
  cases h with
  | emptyLine | commentLine | blank | joinedLine | comment | gap => cases eq
  | layout =>
    obtain ⟨k, hk, rfl⟩ := mem_map.mp (eq ▸ mem_singleton_self u)
    rw [show (Scanner.token _ k []).kind.isText = k.isText from rfl,
      (layoutKinds_isText k hk).1] at hu
    cases hu
  | lineEnd =>
    obtain rfl := singleton_inj.mp eq
    cases hu
  | opening bracket =>
    exact ⟨[bracket.openChar], rfl, nofun, single (by cases bracket <;> decide)⟩
  | @closing s rest bracket =>
    exact ⟨[bracket.closeChar], rfl, nofun, single (by cases bracket <;> decide)⟩
  | @word s d rest w n hd hr =>
    refine ⟨d :: rest.take n, by simp, nofun, fun e he => ?_⟩
    rw [getLast?_cons] at he
    cases hl : (rest.take n).getLast? with
    | none =>
      rw [hl] at he
      cases he
      exact Classes.isBlank_of_readWord hr
    | some d =>
      rw [hl] at he
      cases he
      exact isBlank_of_readWord_last hr d hl

theorem parted_of_scan (hc : c.mode = .inside) (h : scan readWord c = .ok ts)
    (next : ∀ v ∈ ts.head?, v.kind.isText = false) : Parted c.rest := by
  intro d hd
  obtain ⟨rest, hr⟩ := head?_eq_some_iff.mp hd
  rcases next_of_scan hc h next hr with layout | ⟨n, gap⟩
  · simp only [isLayoutChar, Bool.or_eq_true, beq_iff_eq] at layout
    rcases layout with (((rfl | rfl) | rfl) | rfl) | rfl <;> decide
  · obtain ⟨rfl, _⟩ := Classes.exists_of_gap gap
    decide

theorem Within.nil {width : Nat} {cs' : List Char} (h : Within margin width [] cs') : cs' = [] := by
  generalize eq : ([] : List Char) = text at h
  cases h with
  | line copied =>
    subst eq
    exact copied.nil
  | lead => simp at eq

/-- The whole run over a text makes the same tokens of its copy. -/
theorem exists_writes_of_steps {width : Nat} {outer : List Nat} {v : View Word}
    {text text' : List Char} (steps : Steps readWord a seg b) (last : Step readWord b [u] c)
    (hu : u.kind.isText = true) (h : Mirrors margin width outer c.rest a text v text')
    (plain : ∀ d ∈ text, d ≠ '\t' ∧ d ≠ '\r')
    (stays : Stays (outer.length + 1) a.scanner.blocks.depth ((seg ++ [u]).map (·.kind)))
    (behind : scan readWord c = .ok ts) (next : ∀ v ∈ ts.head?, v.kind.isText = false)
    (rest : List Char) : ∃ ks inner previous, Writes readWord v text' ('\n' :: rest) ks
        ⟨.inside, ⟨inner ++ [width]⟩, [], previous⟩ ∧
      (∀ x ∈ inner, width < x) ∧ ks.map hushed = ((seg ++ [u]).map (·.kind)).map hushed := by
  obtain ⟨word, hw, ne, _⟩ := exists_word_of_step last hu
  have inside := last.inside hu
  have parted := parted_of_scan inside behind next
  have accepted : scan readWord b = .ok (u :: ts) := by
    rw [last.scan_eq, behind]
    rfl
  have deep : outer.length < c.scanner.blocks.depth := by
    have depth := (steps.trans (.step last .refl)).at_depth
    have bound := stays _ [] (append_nil _).symm
    rw [append_nil] at depth
    omega
  have stays' : Stays (outer.length + 1) a.scanner.blocks.depth (seg.map (·.kind)) := by
    intro before after eq
    exact stays before (after ++ [u.kind]) (by rw [map_append, eq, append_assoc]; rfl)
  have run := repeated_of_steps steps h hw ne plain stays' accepted parted rest
  obtain ⟨mid, hm, _⟩ := steps.exists_text
  have part : text = mid ++ word := by
    rw [h.rest, hw, ← append_assoc] at hm
    exact append_cancel_right hm
  obtain ⟨front, left, ks, v', rfl, mirrors, writes, hush⟩ := run.trans fun v' cs' mirrors =>
    repeated_of_step last mirrors (nil_append _).symm (fun _ => ⟨u, by simp, hu⟩)
      (fun d hd => plain d (by rw [part]; exact mem_append_right _ hd)) deep behind parted rest
  have within := mirrors.text
  rw [inside] at within
  obtain rfl := Within.nil within
  obtain ⟨inner, _, wide, blocks⟩ := mirrors.blocks
  have closed : v'.opened = [] := by
    rw [mirrors.opened, opened_of_scan c inside behind next]
    rfl
  refine ⟨ks, inner.map (Indentation.shifted margin width), v'.previous, ?_, ?_, ?_⟩
  · rw [append_nil, ← blocks, ← closed, ← inside, ← mirrors.mode]
    exact writes
  · intro x hx
    obtain ⟨y, hy, rfl⟩ := mem_map.mp hx
    have above := wide y hy
    unfold Indentation.shifted
    omega
  · rw [hush, ← map_append]

/-- A place at which the first token of a line in a block stands. -/
structure AtMargin (a : Stage Word) (margin : Nat) (outer : List Nat) : Prop where
  quiet : ∀ k ∈ a.scanner.previous, k.isText = false
  blocks : a.scanner.blocks = ⟨margin :: outer⟩
  column : a.scanner.place.column = margin + 1
  closed : a.scanner.opened = []
  code : ∃ d rest, a.rest = d :: rest ∧ isLayoutChar d = false

theorem exists_atMargin {source : List Char} (plain : ∀ c ∈ source, c ≠ '\t' ∧ c ≠ '\r')
    (before : Steps readWord.firmStarts ⟨.line, {}, source⟩ front a) (mode : a.mode = .inside)
    (start : ∀ v ∈ front.getLast?, v.kind.isText = false)
    (deep : (front.map (·.kind)).countP TokenKind.isDedent <
      (front.map (·.kind)).countP TokenKind.isIndent) :
    ∃ margin outer, AtMargin a margin outer := by
  have reached := before.reached (Lexicon.gapsInside_firmStarts readWord) plain
    (reached_start source)
  have quiet : ∀ k ∈ a.scanner.previous, k.isText = false := by
    intro k hk
    rw [before.previous, Option.or_none, getLast?_map] at hk
    obtain ⟨v, hv, rfl⟩ := Option.map_eq_some_iff.mp hk
    exact start v hv
  have flush := reached.flush
  unfold Flush at flush
  rw [mode] at flush
  obtain ⟨column, closed⟩ := flush quiet
  have code := (reached.started mode).resolve_left fun ⟨k, hk, text⟩ => by
    rw [quiet k hk] at text
    cases text
  have depth := before.at_depth
  have none : (Stage.scanner (ω := Word) ⟨.line, {}, source⟩).blocks.depth = 0 := rfl
  cases hb : a.scanner.blocks with
  | mk widths =>
    rw [hb] at column
    cases widths with
    | nil =>
      have zero : a.scanner.blocks.depth = 0 := by rw [hb]; rfl
      omega
    | cons margin outer => exact ⟨margin, outer, quiet, hb, column, closed, code⟩

/-- A member that is copied from the source: the tokens from its first to its last one, which stand
in a class body. -/
theorem exists_copied_piece {source : String} {back : List (Token Word)} {extent : Span}
    (width : Nat) (plain : ∀ c ∈ source.toList, c ≠ '\t' ∧ c ≠ '\r')
    (h : tokensOf readWord.firmStarts source = .ok (front ++ (seg ++ u :: back)))
    (first : (seg ++ [u]).head? = some t) (ht : t.kind.isText = true) (hu : u.kind.isText = true)
    (start : ∀ v ∈ front.getLast?, v.kind.isText = false)
    (deep : (front.map (·.kind)).countP TokenKind.isDedent <
      (front.map (·.kind)).countP TokenKind.isIndent)
    (balanced : ∀ before after, (seg ++ [u]).map (·.kind) = before ++ after →
      before.countP TokenKind.isDedent ≤ before.countP TokenKind.isIndent)
    (next : ∀ v ∈ back.head?, v.kind.isText = false) (hs : extent.start = t.span.start)
    (he : extent.stop = u.span.stop) (hc : extent.column = t.span.column) :
    ∃ text, (Text.Outline.render width (Member.source (sourceLines source extent)).outline).toList =
        List.replicate width ' ' ++ text ++ ['\n'] ∧
      Piece width text ((seg ++ [u]).map (·.kind)) := by
  obtain ⟨a, b, c, text, stretch⟩ := exists_stretch h first ht hu
  -- the margin of the copied lines is the indentation of the block in which the first one stands
  obtain ⟨margin, outer, quiet, blocks, column, closed, d, rest, hr, code⟩ :=
    exists_atMargin plain stretch.before stretch.mode start deep
  have top : extent.column - 1 = margin := by
    rw [hc, stretch.column t first, column, Nat.add_sub_cancel]
  have ext := Lexicon.extends_firmStarts readWord
  have steps := stretch.steps.mono ext
  have last := stretch.last.mono ext
  have behind := scan_mono ext c stretch.behind
  obtain ⟨mid, hm, _⟩ := steps.exists_text
  obtain ⟨word, hw, ne, ends⟩ := exists_word_of_step last hu
  have part : text = mid ++ word := by
    have whole := stretch.rest
    rw [hm, hw, ← append_assoc] at whole
    exact (append_cancel_right whole).symm
  have final : text.getLast? = word.getLast? := by
    rw [part, getLast?_append, getLast?_eq_some_getLast ne]
    rfl
  obtain ⟨cs, rfl⟩ : ∃ cs, text = d :: cs := by
    have whole := stretch.rest
    rw [hr] at whole
    cases text with
    | nil => exact absurd (append_eq_nil_iff.mp part.symm).2 ne
    | cons e cs => exact ⟨cs, by rw [(List.cons.inj whole).1]⟩
  have inside : ∀ e ∈ d :: cs, e ≠ '\t' ∧ e ≠ '\r' := by
    obtain ⟨pre, eq, _⟩ := stretch.before.exists_text
    have split : source.toList = pre ++ ((d :: cs) ++ c.rest) := by rw [← stretch.rest]; exact eq
    intro e hm
    exact plain e (by rw [split]; exact mem_append_right _ (mem_append_left _ hm))
  have accepted : scan readWord a = .ok (seg ++ u :: back) := by
    rw [steps.scan_eq, last.scan_eq, behind]
    rfl
  have blank : Text.isBlank d = false := by
    obtain ⟨mode, s, text⟩ := a
    obtain rfl : mode = .inside := stretch.mode
    obtain rfl : text = d :: rest := hr
    exact isBlank_of_scan code accepted
  have shown : (extent.text source).toList = d :: cs := by
    rw [Span.text, String.toList_ofList, hs, he]
    exact stretch.text t first
  have ended : ∀ e ∈ cs.getLast?, Text.isBlank e = false := by
    intro e hm
    rw [getLast?_cons, Option.mem_def.mp hm] at final
    exact ends e final.symm
  obtain ⟨cs', copied, render⟩ := exists_copied_source width shown
    (fun hm => (inside '\r' hm).2 rfl) blank ended
  rw [top] at copied
  refine ⟨d :: cs', by rw [render]; simp, ⟨d, cs', rfl, code⟩, fun previous rest hp => ?_⟩
  have mirrors : Mirrors margin width outer c.rest a (d :: cs)
      ⟨.inside, ⟨[width]⟩, [], previous⟩ (d :: cs') := by
    refine ⟨stretch.rest, ?_, stretch.mode.symm, ⟨[], blocks, by simp, rfl⟩, ?_, ?_⟩
    · rw [stretch.mode]
      exact .line (.char (ne_newline_of_code blank) copied)
    · rw [closed]
      rfl
    · rw [any_endsOperand_of_isText quiet]
      exact any_endsOperand_of_isText hp
  refine exists_writes_of_steps steps last hu mirrors inside ?_ behind next rest
  intro before after eq
  have bound := balanced before after eq
  have depth : a.scanner.blocks.depth = outer.length + 1 := by rw [blocks]; rfl
  omega

end ViewBridge.Model
