import ViewBridge.Proofs.Model.CopiedWords
import ViewBridge.Proofs.Source.Cut
import ViewBridge.Proofs.Source.Shift

namespace ViewBridge.Model

open Scanner List
open Classes (Kind Word readWord hushed endsOperand Parted)

/-- A text from inside a line on and its copy, where the spaces before the next code may differ. -/
inductive Within (margin width : Nat) : List Char → List Char → Prop
  | line {cs cs'} : Copied margin width cs cs' → Within margin width cs cs'
  | lead {spaces spaces' c cs cs'} : (∀ b ∈ spaces, b = ' ') → (∀ b ∈ spaces', b = ' ') →
      Text.isBlank c = false → Copied margin width cs cs' →
      Within margin width (spaces ++ c :: cs) (spaces' ++ c :: cs')

/-- A text and its copy, from the start of a line or from inside one on. -/
def Matches (margin width : Nat) : Mode → List Char → List Char → Prop
  | .line => Begun margin width
  | .inside => Within margin width

/-- A stage of the scan of a text, up to what stands behind the copied part of it, and what the scan
of the copy depends on at the same place: the blocks inside the one of the copied lines are moved
with its margin. -/
structure Mirrors (margin width : Nat) (outer : List Nat) (behind : List Char) (a : Stage Word)
    (cs : List Char) (v : View Word) (cs' : List Char) : Prop where
  rest : a.rest = cs ++ behind
  text : Matches margin width a.mode cs cs'
  mode : v.mode = a.mode
  blocks : ∃ inner, a.scanner.blocks = ⟨inner ++ margin :: outer⟩ ∧ (∀ x ∈ inner, margin < x) ∧
    v.blocks = ⟨inner.map (Indentation.shifted margin width) ++ [width]⟩
  opened : v.opened = a.scanner.opened.map (·.1)
  previous : v.previous.any endsOperand = a.scanner.previous.any endsOperand

variable {margin width : Nat} {outer : List Nat} {a b : Stage Word} {v : View Word}
  {cs cs' behind : List Char} {c : Char}

namespace Within

theorem code (h : Within margin width (c :: cs) cs') (hc : Text.isBlank c = false) :
    ∃ spaces cs'', (∀ b ∈ spaces, b = ' ') ∧ cs' = spaces ++ c :: cs'' ∧
      Copied margin width cs cs'' := by
  generalize eq : c :: cs = text at h
  cases h with
  | line copied =>
    rw [← eq] at copied
    obtain ⟨cs'', rfl, rest⟩ := copied.code hc
    exact ⟨[], cs'', nofun, rfl, rest⟩
  | @lead spaces spaces' d cs cs' hs hs' hd copied =>
    cases spaces with
    | nil =>
      cases eq
      exact ⟨spaces', cs', hs', rfl, copied⟩
    | cons b spaces =>
      cases eq
      rw [hs c mem_cons_self] at hc
      cases hc

theorem newline (h : Within margin width ('\n' :: cs) cs') :
    ∃ cs'', cs' = '\n' :: cs'' ∧ Begun margin width cs cs'' := by
  generalize eq : '\n' :: cs = text at h
  cases h with
  | line copied =>
    rw [← eq] at copied
    exact copied.newline
  | @lead spaces spaces' d cs cs' hs hs' hd copied =>
    cases spaces with
    | nil =>
      cases eq
      rw [isBlank_newline] at hd
      cases hd
    | cons b spaces =>
      cases eq
      cases hs '\n' mem_cons_self

theorem blank (h : Within margin width (' ' :: cs) cs') :
    Within margin width cs cs' ∨ ∃ cs'', cs' = ' ' :: cs'' ∧ Within margin width cs cs'' := by
  generalize eq : ' ' :: cs = text at h
  cases h with
  | line copied =>
    rw [← eq] at copied
    rcases copied.blank with rest | ⟨cs'', rfl, rest⟩
    · exact .inl (.line rest)
    · exact .inr ⟨cs'', rfl, .line rest⟩
  | @lead spaces spaces' d cs cs' hs hs' hd copied =>
    cases spaces with
    | nil =>
      cases eq
      cases hd
    | cons b spaces =>
      cases eq
      exact .inl (.lead (forall_mem_cons.mp hs).2 hs' hd copied)

end Within

variable {gone blanks rest words : List Char} {ks : List Kind}

section Accepted

theorem isBlank_of_scan {s : Scanner Word} {ts : List (Token Word)}
    (hc : isLayoutChar c = false) (h : scan readWord ⟨.inside, s, c :: rest⟩ = .ok ts) :
    Text.isBlank c = false := by
  generalize ha : (⟨.inside, s, c :: rest⟩ : Stage Word) = a at h
  rcases exists_move readWord a with ⟨r, hs⟩ | ⟨out, b, hs, _⟩
  · have eq := hs.scan_eq.symm.trans h
    cases hs with
    | lineFinish | dedent | finish => cases ha
    | unmatched | misread => cases eq
  · cases hs with
    | emptyLine | commentLine | layout => cases ha
    | blank hc' =>
      cases ha
      rcases hc' with rfl | rfl | rfl <;> cases hc
    | lineEnd | joinedLine | comment =>
      cases ha
      cases hc
    | opening bracket =>
      cases ha
      cases bracket <;> decide
    | @closing s rest bracket =>
      cases ha
      cases bracket <;> decide
    | gap _ hr | word _ hr =>
      cases ha
      exact Classes.isBlank_of_readWord hr

theorem spaces_of_scan {s : Scanner Word} {lead : List Char} {ts : List (Token Word)}
    (hl : Blanks lead) (plain : ∀ c ∈ lead, c ≠ '\t' ∧ c ≠ '\r')
    (h : scan readWord ⟨.inside, s, lead ++ rest⟩ = .ok ts) : ∀ b ∈ lead, b = ' ' := by
  induction lead generalizing s ts with
  | nil => exact nofun
  | cons b lead ih =>
    obtain ⟨hb, others⟩ := forall_mem_cons.mp hl
    obtain ⟨hp, further⟩ := forall_mem_cons.mp plain
    have layout : isLayoutChar b = true := by
      cases layout : isLayoutChar b with
      | true => rfl
      | false =>
        rw [isBlank_of_scan layout h] at hb
        cases hb.1
    have first : b = ' ' := by
      simp only [isLayoutChar, Bool.or_eq_true, beq_iff_eq] at layout
      rcases layout with (((rfl | rfl) | rfl) | rfl) | rfl
      · rfl
      · exact absurd rfl hp.1
      · exact absurd rfl hp.2
      · exact absurd rfl hb.2
      · exact absurd hb.1 (by decide)
    subst first
    have step : Step readWord ⟨.inside, s, ' ' :: (lead ++ rest)⟩ [] _ := .blank (.inl rfl)
    rw [cons_append, step.scan_eq] at h
    obtain ⟨ts', h, _⟩ := exists_of_map h
    exact forall_mem_cons.mpr ⟨rfl, ih others further h⟩

/-- A line that goes on inside another one. -/
theorem Begun.within {s : Scanner Word} {ts : List (Token Word)} (h : Begun margin width cs cs')
    (plain : ∀ c ∈ cs, c ≠ '\t' ∧ c ≠ '\r')
    (scanned : scan readWord ⟨.inside, s, cs ++ behind⟩ = .ok ts) : Within margin width cs cs' := by
  cases h with
  | empty hb begun => exact .line (.lineEnd hb begun)
  | @code lead c cs cs' hl hc copied =>
    rw [append_assoc] at scanned
    have spaces := spaces_of_scan hl (fun c hm => plain c (by simp [hm])) scanned
    refine .lead spaces (fun b hm => ?_) hc copied
    rcases mem_append.mp hm with hm | hm
    · exact eq_of_mem_replicate hm
    · exact spaces b (mem_of_mem_drop hm)

end Accepted

/-- What a move in a text, behind which `cs` is left of the copied part, is in the copy. -/
def Repeated (margin width : Nat) (outer : List Nat) (behind more : List Char)
    (ks : List Kind) (b : Stage Word) (cs : List Char) (v : View Word)
    (text' : List Char) : Prop :=
  ∃ front cs' ks' v', text' = front ++ cs' ∧ Mirrors margin width outer behind b cs v' cs' ∧
    Writes readWord v front (cs' ++ '\n' :: more) ks' v' ∧ ks'.map hushed = ks.map hushed

section Moves

variable {s : Scanner Word} {text text' more : List Char}

theorem spaces_of_isIndent (hb : ∀ b ∈ blanks, isIndent b = true)
    (plain : ∀ c ∈ blanks, c ≠ '\t' ∧ c ≠ '\r') : ∀ b ∈ blanks, b = ' ' := by
  intro b hm
  have mark := hb b hm
  simp only [isIndent, Bool.or_eq_true, beq_iff_eq] at mark
  exact mark.resolve_right (plain b hm).1

theorem blanks_of_spaces (h : ∀ b ∈ blanks, b = ' ') : Blanks blanks := by
  intro b hm
  rw [h b hm]
  decide

theorem atLineEnd_left (h : AtLineEnd (cs ++ behind)) : AtLineEnd cs := by
  cases cs with
  | nil => exact nofun
  | cons c cs => exact h

theorem Mirrors.passed (h : Mirrors margin width outer behind ⟨.inside, s, text⟩ cs v text')
    {cs₁ front cs' : List Char} (eq : text' = front ++ cs')
    (hw : Writes readWord v front (cs' ++ '\n' :: more) [] v)
    (hc : Within margin width cs₁ cs') :
    Repeated margin width outer behind more [] ⟨.inside, s.pass gone, cs₁ ++ behind⟩ cs₁ v text' :=
  ⟨front, cs', [], v, eq, ⟨rfl, hc, h.mode, h.blocks, h.opened, h.previous⟩, hw, rfl⟩

theorem Mirrors.eq_inside (h : Mirrors margin width outer behind ⟨.inside, s, text⟩ cs v text') :
    v = ⟨.inside, v.blocks, v.opened, v.previous⟩ := by
  obtain ⟨mode, blocks, opened, previous⟩ := v
  obtain rfl : mode = .inside := h.mode
  rfl

theorem Mirrors.eq_line (h : Mirrors margin width outer behind ⟨.line, s, text⟩ cs v text') :
    v = ⟨.line, v.blocks, v.opened, v.previous⟩ := by
  obtain ⟨mode, blocks, opened, previous⟩ := v
  obtain rfl : mode = .line := h.mode
  rfl

theorem Mirrors.layout {blanks : List Char} {c : Char} {change : IndentChange}
    {blocks : Indentation}
    (h : Mirrors margin width outer behind ⟨.line, s, text⟩ (blanks ++ c :: cs) v text')
    (hb : ∀ b ∈ blanks, b = ' ') (layout : isLayoutChar c = false) (hc : Text.isBlank c = false)
    (hu : s.blocks.update (indentWidth blanks) = .ok (change, blocks))
    (hd : outer.length < blocks.depth) :
    Repeated margin width outer behind more (layoutKinds change)
      ⟨.inside, { s.pass blanks with
        blocks, previous := (layoutKinds change).getLast?.or s.previous }, c :: cs ++ behind⟩
      (c :: cs) v text' := by
  obtain ⟨inner, here, deeper, there⟩ := h.blocks
  obtain ⟨cs', rfl, copied⟩ := Begun.line h.text (blanks_of_spaces hb) rfl hc
  rw [show s.blocks = _ from here, indentWidth_spaces hb] at hu
  have le := Indentation.le_of_update deeper hu hd
  obtain ⟨rest, rfl, kept, moved⟩ := Indentation.update_shifted width deeper le hu
  have spaces : ∀ b ∈ List.replicate width ' ' ++ blanks.drop margin, b = ' ' := by
    intro b hm
    rcases mem_append.mp hm with hm | hm
    · exact eq_of_mem_replicate hm
    · exact hb b (mem_of_mem_drop hm)
  have columns : indentWidth (List.replicate width ' ' ++ blanks.drop margin) =
      Indentation.shifted margin width blanks.length := by
    rw [indentWidth_spaces spaces, length_append, length_replicate, length_drop,
      Indentation.shifted, Nat.add_comm]
  have indents : ∀ b ∈ List.replicate width ' ' ++ blanks.drop margin, isIndent b = true := by
    intro b hm
    rw [spaces b hm]
    rfl
  refine ⟨_, c :: cs', layoutKinds change,
    ⟨.inside, ⟨rest.map (Indentation.shifted margin width) ++ [width]⟩, v.opened,
      (layoutKinds change).getLast?.or v.previous⟩, rfl, ?_, ?_, rfl⟩
  · refine ⟨rfl, .line (.char (ne_newline_of_code hc) copied), rfl, ⟨rest, rfl, kept, rfl⟩,
      h.opened, ?_⟩
    have before := h.previous
    cases (layoutKinds change : List Kind).getLast? with
    | none => exact before
    | some k => rfl
  · rw [h.eq_line, there]
    exact writes_layout indents layout (columns ▸ moved)

theorem Mirrors.bracket {k : Kind} {opened : List (Bracket × Span)}
    {opened' : List Bracket}
    (h : Mirrors margin width outer behind ⟨.inside, s, text⟩ (c :: cs) v text')
    (hc : Text.isBlank c = false) (ho : opened' = opened.map (·.1))
    (hw : ∀ rest, Writes readWord v [c] rest [k] ⟨.inside, v.blocks, opened', some k⟩) :
    Repeated margin width outer behind more [k]
      ⟨.inside, { s.emit k [c] with opened }, cs ++ behind⟩ cs v text' := by
  obtain ⟨spaces, cs', blanks, rfl, copied⟩ := Within.code h.text hc
  refine ⟨spaces ++ [c], cs', [k], ⟨.inside, v.blocks, opened', some k⟩, by simp,
    ⟨rfl, .line copied, rfl, h.blocks, ho, rfl⟩, ?_, rfl⟩
  have lead : Writes readWord v spaces ([c] ++ (cs' ++ '\n' :: more)) [] v := by
    rw [h.eq_inside]
    exact writes_blanks _ blanks
  exact lead.trans (hw _)

theorem Mirrors.word {w : Word} {word : List Char}
    (h : Mirrors margin width outer behind ⟨.inside, s, text⟩ (c :: word ++ cs) v text')
    (hc : StartsWord c)
    (hr : readWord s.previous c (word ++ (cs ++ behind)) = .ok (.word w word.length))
    (hb : Parted behind) :
    Repeated margin width outer behind more [.word w]
      ⟨.inside, s.emit (.word w) (c :: word), cs ++ behind⟩ cs v text' := by
  obtain ⟨spaces, cs', blanks, rfl, copied⟩ :=
    Within.code h.text (Classes.isBlank_of_readWord hr)
  obtain ⟨word', cs'', w', rfl, rest, read', hush⟩ := copied.word hr hb h.previous.symm more
  have ends : endsOperand (.word w') = endsOperand (.word w) := by
    rw [← Classes.endsOperand_hushed (.word w'), ← Classes.endsOperand_hushed (.word w)]
    show endsOperand (.word w'.hushed) = endsOperand (.word w.hushed)
    rw [hush]
  refine ⟨spaces ++ c :: word', cs'', [.word w'], ⟨.inside, v.blocks, v.opened, some (.word w')⟩,
    by simp, ⟨rfl, .line rest, rfl, h.blocks, h.opened, ends⟩, ?_, ?_⟩
  · have lead : Writes readWord v spaces (c :: word' ++ (cs'' ++ '\n' :: more)) [] v := by
      rw [h.eq_inside]
      exact writes_blanks _ blanks
    refine lead.trans ?_
    rw [h.eq_inside]
    exact writes_word hc read'
  · show [TokenKind.word w'.hushed] = [TokenKind.word w.hushed]
    rw [hush]

theorem Mirrors.emptyLine
    (h : Mirrors margin width outer behind ⟨.line, s, text⟩ (blanks ++ '\n' :: cs) v text')
    (hb : ∀ b ∈ blanks, b = ' ') :
    Repeated margin width outer behind more [] ⟨.line, s.pass gone, cs ++ behind⟩ cs v text' := by
  obtain ⟨cs', rfl, begun⟩ := Begun.emptyLine h.text (blanks_of_spaces hb) rfl
  refine ⟨['\n'], cs', [], v, rfl, ⟨rfl, begun, h.mode, h.blocks, h.opened, h.previous⟩, ?_, rfl⟩
  rw [h.eq_line]
  exact writes_emptyLine _

theorem Mirrors.commentLine
    (h : Mirrors margin width outer behind ⟨.line, s, text⟩ (blanks ++ '#' :: (words ++ cs)) v text')
    (hb : ∀ b ∈ blanks, b = ' ') (hw : '\n' ∉ words) (hl : AtLineEnd (cs ++ behind))
    (ne : cs ≠ []) :
    Repeated margin width outer behind more [] ⟨.line, s.pass gone, cs ++ behind⟩ cs v text' := by
  obtain ⟨cs', rfl, copied⟩ := Begun.line h.text (blanks_of_spaces hb) rfl (by decide)
  obtain ⟨words', rest', rfl, hw', copied', hl'⟩ := copied.words hw (atLineEnd_left hl)
  -- the line end behind the comment is an empty line from there on
  obtain ⟨d, cs, rfl⟩ := exists_cons_of_ne_nil ne
  obtain rfl : d = '\n' := hl d rfl
  obtain ⟨rest, rfl, begun⟩ := copied'.newline
  have empty : Begun margin width ([] ++ '\n' :: cs) ('\n' :: rest) := .empty nofun begun
  have indents : ∀ b ∈ List.replicate width ' ' ++ blanks.drop margin, isIndent b = true := by
    intro b hm
    rcases mem_append.mp hm with hm | hm
    · rw [eq_of_mem_replicate hm]
      rfl
    · rw [hb b (mem_of_mem_drop hm)]
      rfl
  refine ⟨_, '\n' :: rest, [], v, (append_assoc _ ('#' :: words') _).symm,
    ⟨rfl, empty, h.mode, h.blocks, h.opened, h.previous⟩, ?_, rfl⟩
  rw [h.eq_line]
  exact writes_commentLine indents hw' fun d hd => (Option.some.inj hd).symm

theorem Mirrors.comment
    (h : Mirrors margin width outer behind ⟨.inside, s, text⟩ ('#' :: (words ++ cs)) v text')
    (hw : '\n' ∉ words) (hl : AtLineEnd (cs ++ behind)) :
    Repeated margin width outer behind more [] ⟨.inside, s.pass gone, cs ++ behind⟩ cs v text' := by
  obtain ⟨spaces, cs', blanks, rfl, copied⟩ := Within.code h.text (by decide)
  obtain ⟨words', rest', rfl, hw', copied', hl'⟩ := copied.words hw (atLineEnd_left hl)
  have ended : AtLineEnd (rest' ++ '\n' :: more) := by
    cases rest' with
    | nil => exact fun d hd => (Option.some.inj hd).symm
    | cons d rest => exact hl'
  refine h.passed (append_assoc spaces ('#' :: words') rest').symm ?_ (.line copied')
  rw [h.eq_inside]
  exact (writes_blanks _ blanks).trans (writes_comment hw' ended)

theorem Mirrors.blank
    (h : Mirrors margin width outer behind ⟨.inside, s, text⟩ (' ' :: cs) v text') :
    Repeated margin width outer behind more [] ⟨.inside, s.pass gone, cs ++ behind⟩ cs v text' := by
  rcases Within.blank h.text with rest | ⟨cs', rfl, rest⟩
  · exact h.passed (nil_append text').symm (.refl v _) rest
  · refine h.passed (singleton_append).symm ?_ rest
    rw [h.eq_inside]
    exact writes_blank _ (.inl rfl)

theorem Mirrors.lineEnd
    (h : Mirrors margin width outer behind ⟨.inside, s, text⟩ ('\n' :: cs) v text')
    (ho : s.opened = []) :
    Repeated margin width outer behind more [.newline]
      ⟨.line, s.emit .newline ['\n'], cs ++ behind⟩ cs v text' := by
  obtain ⟨cs', rfl, begun⟩ := Within.newline h.text
  have closed : v.opened = [] := by
    rw [h.opened]
    exact map_eq_nil_iff.mpr ho
  refine ⟨['\n'], cs', [.newline], ⟨.line, v.blocks, [], some .newline⟩, rfl,
    ⟨rfl, begun, rfl, h.blocks, closed ▸ h.opened, rfl⟩, ?_, rfl⟩
  rw [h.eq_inside, closed]
  exact writes_newline _

theorem Mirrors.joinedLine {ts : List (Token Word)}
    (h : Mirrors margin width outer behind ⟨.inside, s, text⟩ ('\n' :: cs) v text')
    (ho : s.opened ≠ []) (plain : ∀ c ∈ cs, c ≠ '\t' ∧ c ≠ '\r')
    (scanned : scan readWord ⟨.inside, s.pass ['\n'], cs ++ behind⟩ = .ok ts) :
    Repeated margin width outer behind more [] ⟨.inside, s.pass ['\n'], cs ++ behind⟩ cs v
      text' := by
  obtain ⟨cs', rfl, begun⟩ := Within.newline h.text
  obtain ⟨entry, opened, eq⟩ := exists_cons_of_ne_nil ho
  have inside : v.opened = entry.1 :: opened.map (·.1) := by
    rw [h.opened]
    exact congrArg (List.map (·.1)) eq
  refine h.passed singleton_append.symm ?_ (begun.within plain scanned)
  rw [h.eq_inside, inside]
  exact writes_joinedLine _ _

theorem Mirrors.gap {ts : List (Token Word)}
    (h : Mirrors margin width outer behind ⟨.inside, s, text⟩ ('\\' :: '\n' :: cs) v text')
    (plain : ∀ c ∈ cs, c ≠ '\t' ∧ c ≠ '\r')
    (scanned : scan readWord ⟨.inside, s.pass ['\\', '\n'], cs ++ behind⟩ = .ok ts) :
    Repeated margin width outer behind more [] ⟨.inside, s.pass ['\\', '\n'], cs ++ behind⟩ cs v
      text' := by
  obtain ⟨spaces, cs', blanks, rfl, copied⟩ := Within.code h.text (by decide)
  obtain ⟨cs'', rfl, begun⟩ := copied.newline
  refine h.passed (append_assoc spaces ['\\', '\n'] cs'').symm ?_
    (begun.within plain scanned)
  rw [h.eq_inside]
  refine (writes_blanks _ blanks).trans ?_
  have start : StartsWord '\\' := ⟨rfl, rfl, rfl⟩
  exact writes_gap start rfl

/-- What one move makes of a text it makes of the copy of that text. -/
theorem repeated_of_step {out ts : List (Token Word)} {left : List Char}
    (hs : Step readWord a out b) (h : Mirrors margin width outer behind a cs v cs')
    (hr : b.rest = left ++ behind) (ne : left = [] → ∃ t ∈ out, t.kind.isText = true)
    (plain : ∀ c ∈ cs, c ≠ '\t' ∧ c ≠ '\r') (hd : outer.length < b.scanner.blocks.depth)
    (scanned : scan readWord b = .ok ts) (hb : Parted behind) (more : List Char) :
    Repeated margin width outer behind more (out.map (·.kind)) b left v cs' := by
  have whole (text : List Char) (eq : a.rest = text ++ b.rest) : cs = text ++ left := by
    rw [h.rest, hr, ← append_assoc] at eq
    exact append_cancel_right eq
  cases hs with
  | @emptyLine s blanks c rest hi hc =>
    obtain rfl : rest = left ++ behind := hr
    obtain rfl : cs = blanks ++ c :: left := by simpa using whole (blanks ++ [c])
    obtain rfl : c = '\n' := hc.resolve_right (plain c (by simp)).2
    exact h.emptyLine (spaces_of_isIndent hi fun b hm => plain b (by simp [hm]))
  | @commentLine s blanks words rest hi hw hl =>
    obtain rfl : rest = left ++ behind := hr
    obtain rfl : cs = blanks ++ '#' :: (words ++ left) := by
      simpa using whole (blanks ++ '#' :: words)
    have some : left ≠ [] := fun none => by simpa using ne none
    exact h.commentLine (spaces_of_isIndent hi fun b hm => plain b (by simp [hm])) hw hl some
  | @layout s blanks c rest change blocks hi hc hu =>
    obtain rfl : cs = blanks ++ left := whole blanks rfl
    have some : left ≠ [] := by
      intro none
      obtain ⟨t, ht, text⟩ := ne none
      obtain ⟨k, hk, rfl⟩ := mem_map.mp ht
      rw [show (Scanner.token _ k []).kind.isText = k.isText from rfl,
        (layoutKinds_isText k hk).1] at text
      cases text
    obtain ⟨d, left, rfl⟩ := exists_cons_of_ne_nil some
    obtain ⟨rfl, rfl⟩ := List.cons.inj hr
    rw [map_kind_token]
    exact h.layout (spaces_of_isIndent hi fun b hm => plain b (by simp [hm])) hc
      (isBlank_of_scan hc scanned) hu hd
  | @blank s c rest hc =>
    obtain rfl : rest = left ++ behind := hr
    obtain rfl : cs = c :: left := whole [c] rfl
    have tab := plain c mem_cons_self
    obtain rfl : c = ' ' := hc.resolve_right fun other => other.elim tab.1 tab.2
    exact h.blank
  | @lineEnd s rest ho =>
    obtain rfl : rest = left ++ behind := hr
    obtain rfl : cs = '\n' :: left := whole ['\n'] rfl
    exact h.lineEnd ho
  | @joinedLine s rest ho =>
    obtain rfl : rest = left ++ behind := hr
    obtain rfl : cs = '\n' :: left := whole ['\n'] rfl
    exact h.joinedLine ho (forall_mem_cons.mp plain).2 scanned
  | @comment s words rest hw hl =>
    obtain rfl : rest = left ++ behind := hr
    obtain rfl : cs = '#' :: (words ++ left) := whole ('#' :: words) rfl
    exact h.comment hw hl
  | @opening s rest bracket =>
    obtain rfl : rest = left ++ behind := hr
    obtain rfl : cs = bracket.openChar :: left := whole [bracket.openChar] rfl
    refine h.bracket (by cases bracket <;> decide) rfl fun rest => ?_
    rw [h.eq_inside]
    exact (h.opened ▸ writes_opening bracket rest)
  | @closing s rest bracket span opened ho =>
    obtain rfl : rest = left ++ behind := hr
    obtain rfl : cs = bracket.closeChar :: left := whole [bracket.closeChar] rfl
    have inside : v.opened = bracket :: opened.map (·.1) := by
      rw [h.opened]
      exact congrArg (List.map (·.1)) ho
    refine h.bracket (by cases bracket <;> decide) rfl fun rest => ?_
    rw [h.eq_inside, inside]
    exact writes_closing bracket rest
  | @gap s c rest n hc hn =>
    have eq : cs = c :: rest.take n ++ left := whole (c :: rest.take n) (by simp)
    have none : '\r' ∉ rest.take n := fun hm => (plain '\r' (by simp [eq, hm])).2 rfl
    obtain ⟨rfl, _, rest, rfl, rfl, rfl | rfl⟩ := Classes.exists_of_gap hn
    swap
    · exact absurd mem_cons_self none
    obtain rfl : rest = left ++ behind := hr
    obtain rfl : cs = '\\' :: '\n' :: left := eq
    exact h.gap (fun c hm => plain c (by simp [hm])) scanned
  | @word s c rest w n hc hn =>
    obtain rfl : cs = c :: rest.take n ++ left := whole (c :: rest.take n) (by simp)
    have tail : rest.drop n = left ++ behind := hr
    have length : (rest.take n).length = n :=
      length_take_of_le (Classes.readWord_length_le hn)
    have read : readWord s.previous c (rest.take n ++ (left ++ behind)) =
        .ok (.word w (rest.take n).length) := by
      rw [← tail, take_append_drop, length]
      exact hn
    rw [tail]
    exact h.word hc read hb

end Moves

section Run

variable {text' more left : List Char} {out ts : List (Token Word)}

/-- Tokens that leave so many blocks open. -/
def Stays (base depth : Nat) (ks : List Kind) : Prop :=
  ∀ before after, ks = before ++ after →
    base + before.countP TokenKind.isDedent ≤ depth + before.countP TokenKind.isIndent

theorem Stays.step {base : Nat} (hs : Step readWord a out b)
    (h : Stays base a.scanner.blocks.depth (out.map (·.kind) ++ ks)) :
    base ≤ b.scanner.blocks.depth ∧ Stays base b.scanner.blocks.depth ks := by
  have depth := hs.at_depth
  constructor
  · have bound := h (out.map (·.kind)) ks rfl
    omega
  · intro before after eq
    have bound := h (out.map (·.kind) ++ before) after (by rw [eq, append_assoc])
    simp only [countP_append] at bound
    omega

theorem Repeated.trans {ls : List Kind} {d : Stage Word}
    (h : Repeated margin width outer behind more ks b cs v text')
    (hs : ∀ v' cs', Mirrors margin width outer behind b cs v' cs' →
      Repeated margin width outer behind more ls d left v' cs') :
    Repeated margin width outer behind more (ks ++ ls) d left v text' := by
  obtain ⟨front, cs₁, ks₁, v₁, rfl, mirrors, writes, hush⟩ := h
  obtain ⟨front', cs₂, ks₂, v₂, rfl, mirrors', writes', hush'⟩ := hs v₁ cs₁ mirrors
  rw [append_assoc] at writes
  exact ⟨front ++ front', cs₂, ks₁ ++ ks₂, v₂, (append_assoc ..).symm, mirrors',
    writes.trans writes', by rw [map_append, map_append, hush, hush']⟩

/-- What a run makes of a text it makes of the copy of that text. -/
theorem repeated_of_steps (hs : Steps readWord a out b)
    (h : Mirrors margin width outer behind a cs v cs') (hr : b.rest = left ++ behind)
    (ne : left ≠ []) (plain : ∀ c ∈ cs, c ≠ '\t' ∧ c ≠ '\r')
    (stays : Stays (outer.length + 1) a.scanner.blocks.depth (out.map (·.kind)))
    (scanned : scan readWord b = .ok ts) (hb : Parted behind) (more : List Char) :
    Repeated margin width outer behind more (out.map (·.kind)) b left v cs' := by
  induction hs generalizing cs v cs' with
  | refl =>
    obtain rfl : cs = left := append_cancel_right (h.rest.symm.trans hr)
    exact ⟨[], cs', [], v, rfl, h, .refl v _, rfl⟩
  | @step a b d out out' move steps ih =>
    obtain ⟨gone, eq, _⟩ := move.exists_text
    obtain ⟨mid, rest, _⟩ := steps.exists_text
    rw [hr, ← append_assoc] at rest
    have part : cs = gone ++ (mid ++ left) := by
      rw [h.rest, rest, ← append_assoc] at eq
      exact append_cancel_right eq
    have accepted : scan readWord b = .ok (out' ++ ts) := by
      rw [steps.scan_eq, scanned]
      rfl
    have some : mid ++ left ≠ [] := fun none => ne (append_eq_nil_iff.mp none).2
    rw [map_append] at stays ⊢
    obtain ⟨deep, stays'⟩ := stays.step move
    have first := repeated_of_step move h rest (fun none => absurd none some) plain deep accepted hb
      more
    exact first.trans fun v' cs' mirrors =>
      ih mirrors hr (fun c hm => plain c (by rw [part]; exact mem_append_right _ hm)) stays'
        scanned

end Run

end ViewBridge.Model
