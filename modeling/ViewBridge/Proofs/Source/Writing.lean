import ViewBridge.Proofs.Source.Run

namespace ViewBridge.Scanner

open List

variable {ω : Type} {read : Lexicon ω} {ks : List (TokenKind ω)}
  {blanks rest text words : List Char}

/-- What the kinds of further tokens depend on. -/
structure View (ω : Type) where
  mode : Mode
  blocks : Indentation
  opened : List Bracket
  previous : Option (TokenKind ω)

def Stage.view (a : Stage ω) : View ω :=
  ⟨a.mode, a.scanner.blocks, a.scanner.opened.map (·.1), a.scanner.previous⟩

/-- Moves one after the other, with all the tokens they make. -/
inductive Steps (read : Lexicon ω) : Stage ω → List (Token ω) → Stage ω → Prop
  | refl {a} : Steps read a [] a
  | step {a b c out more} : Step read a out b → Steps read b more c → Steps read a (out ++ more) c

variable {c : Char} {v : View ω} {a b : Stage ω} {out : List (Token ω)} {more : List Char}

theorem Steps.trans {c : Stage ω} {more : List (Token ω)} (h : Steps read a out b)
    (hc : Steps read b more c) : Steps read a (out ++ more) c := by
  induction h with
  | refl => exact hc
  | step hs _ ih =>
    rw [append_assoc]
    exact .step hs (ih hc)

theorem Steps.scan_eq (h : Steps read a out b) : scan read a = (scan read b).map (out ++ ·) := by
  induction h with
  | @refl a => cases scan read a <;> rfl
  | @step a b c out more hs _ ih =>
    rw [hs.scan_eq, ih]
    cases scan read c with
    | error fault => rfl
    | ok ts => simp [Except.map]

theorem Steps.mono {read' : Lexicon ω} (hr : read'.Extends read) (h : Steps read a out b) :
    Steps read' a out b := by
  induction h with
  | refl => exact .refl
  | step hs _ ih => exact .step (hs.mono hr) ih

/-- A text that makes tokens of these kinds in front of another text, from one view to the next,
wherever it stands. -/
def Writes (read : Lexicon ω) (v : View ω) (text rest : List Char) (ks : List (TokenKind ω))
    (v' : View ω) : Prop :=
  ∀ a : Stage ω, a.view = v → a.rest = text ++ rest →
    ∃ out b, Steps read a out b ∧ b.view = v' ∧ b.rest = rest ∧ out.map (·.kind) = ks

theorem Writes.refl (v : View ω) (rest : List Char) : Writes read v [] rest [] v :=
  fun a hv hr => ⟨[], a, .refl, hv, hr, rfl⟩

theorem Writes.trans {u w : View ω} {first second : List Char} {ls : List (TokenKind ω)}
    (h : Writes read u first (second ++ rest) ks v) (hs : Writes read v second rest ls w) :
    Writes read u (first ++ second) rest (ks ++ ls) w := by
  intro a hv hr
  obtain ⟨out, b, ha, hb, hrest, rfl⟩ := h a hv (by simpa using hr)
  obtain ⟨more, c, hm, hc, hend, rfl⟩ := hs b hb hrest
  exact ⟨out ++ more, c, ha.trans hm, hc, hend, by simp⟩

theorem Writes.of_step {mode : Mode} {blocks : Indentation} {opened : List Bracket}
    {previous : Option (TokenKind ω)}
    (h : ∀ s : Scanner ω, s.blocks = blocks → s.opened.map (·.1) = opened →
      s.previous = previous → ∃ out b, Step read ⟨mode, s, text ++ rest⟩ out b ∧ b.view = v ∧
        b.rest = rest ∧ out.map (·.kind) = ks) :
    Writes read ⟨mode, blocks, opened, previous⟩ text rest ks v := by
  rintro ⟨mode', s, cs⟩ hv hr
  simp only [Stage.view, View.mk.injEq] at hv
  obtain ⟨rfl, hb, ho, hp⟩ := hv
  obtain rfl : cs = text ++ rest := hr
  obtain ⟨out, b, hs, hview, hrest, hk⟩ := h s hb ho hp
  exact ⟨out ++ [], b, .step hs .refl, hview, hrest, by simpa using hk⟩

variable {blocks : Indentation} {opened : List Bracket} {previous : Option (TokenKind ω)}

theorem writes_blank (rest : List Char) (hc : c = ' ' ∨ c = '\t' ∨ c = '\r') :
    Writes read ⟨.inside, blocks, opened, previous⟩ [c] rest []
      ⟨.inside, blocks, opened, previous⟩ := by
  refine .of_step fun s hb ho hp => ⟨_, _, .blank hc, ?_, rfl, rfl⟩
  simp [Stage.view, pass, hb, ho, hp]

theorem writes_newline (rest : List Char) :
    Writes read ⟨.inside, blocks, [], previous⟩ ['\n'] rest [.newline]
      ⟨.line, blocks, [], some .newline⟩ := by
  refine .of_step fun s hb ho hp => ?_
  have closed : s.opened = [] := map_eq_nil_iff.mp ho
  refine ⟨_, _, .lineEnd closed, ?_, rfl, rfl⟩
  simp [Stage.view, emit, pass, hb, closed]

theorem writes_opening (b : Bracket) (rest : List Char) :
    Writes read ⟨.inside, blocks, opened, previous⟩ [b.openChar] rest [.opening b]
      ⟨.inside, blocks, b :: opened, some (.opening b)⟩ := by
  refine .of_step fun s hb ho hp => ⟨_, _, .opening b, ?_, rfl, rfl⟩
  simp [Stage.view, emit, pass, hb, ho]

theorem writes_closing (b : Bracket) (rest : List Char) :
    Writes read ⟨.inside, blocks, b :: opened, previous⟩ [b.closeChar] rest [.closing b]
      ⟨.inside, blocks, opened, some (.closing b)⟩ := by
  refine .of_step fun s hb ho hp => ?_
  obtain ⟨⟨b', span⟩, inner, hs, rfl, hi⟩ := map_eq_cons_iff.mp ho
  refine ⟨_, _, .closing hs, ?_, rfl, rfl⟩
  simp [Stage.view, emit, pass, hb, hi]

theorem writes_word {w : ω} (hc : StartsWord c)
    (hr : read previous c (more ++ rest) = .ok (.word w more.length)) :
    Writes read ⟨.inside, blocks, opened, previous⟩ (c :: more) rest [.word w]
      ⟨.inside, blocks, opened, some (.word w)⟩ := by
  refine .of_step fun s hb ho hp => ?_
  rw [← hp] at hr
  refine ⟨_, _, .word hc hr, ?_, ?_, rfl⟩
  · simp [Stage.view, emit, pass, hb, ho]
  · simp

theorem writes_blanks (rest : List Char) (hb : ∀ b ∈ blanks, b = ' ') :
    Writes read ⟨.inside, blocks, opened, previous⟩ blanks rest []
      ⟨.inside, blocks, opened, previous⟩ := by
  induction blanks with
  | nil => exact .refl _ rest
  | cons b blanks ih =>
    obtain ⟨hb, others⟩ := forall_mem_cons.mp hb
    exact (writes_blank (blanks ++ rest) (.inl hb)).trans (ih others)

theorem writes_joinedLine (b : Bracket) (rest : List Char) :
    Writes read ⟨.inside, blocks, b :: opened, previous⟩ ['\n'] rest []
      ⟨.inside, blocks, b :: opened, previous⟩ := by
  refine .of_step fun s hb ho hp => ?_
  have inside : s.opened ≠ [] := by
    intro none
    rw [none] at ho
    cases ho
  refine ⟨_, _, .joinedLine inside, ?_, rfl, rfl⟩
  simp [Stage.view, pass, hb, ho, hp]

theorem writes_comment (hw : '\n' ∉ words) (hr : AtLineEnd rest) :
    Writes read ⟨.inside, blocks, opened, previous⟩ ('#' :: words) rest []
      ⟨.inside, blocks, opened, previous⟩ := by
  refine .of_step fun s hb ho hp => ⟨_, _, .comment hw hr, ?_, rfl, rfl⟩
  simp [Stage.view, pass, hb, ho, hp]

theorem writes_commentLine (hi : ∀ b ∈ blanks, isIndent b = true) (hw : '\n' ∉ words)
    (hr : AtLineEnd rest) :
    Writes read ⟨.line, blocks, opened, previous⟩ (blanks ++ '#' :: words) rest []
      ⟨.line, blocks, opened, previous⟩ := by
  refine .of_step fun s hb ho hp => ?_
  rw [append_assoc, cons_append]
  refine ⟨_, _, .commentLine hi hw hr, ?_, rfl, rfl⟩
  simp [Stage.view, pass, hb, ho, hp]

theorem writes_gap (hc : StartsWord c)
    (hr : read previous c (more ++ rest) = .ok (.gap more.length)) :
    Writes read ⟨.inside, blocks, opened, previous⟩ (c :: more) rest []
      ⟨.inside, blocks, opened, previous⟩ := by
  refine .of_step fun s hb ho hp => ?_
  rw [← hp] at hr
  refine ⟨_, _, .gap hc hr, ?_, ?_, rfl⟩
  · simp [Stage.view, pass, hb, ho, hp]
  · simp

theorem writes_emptyLine (rest : List Char) :
    Writes read ⟨.line, blocks, opened, previous⟩ ['\n'] rest []
      ⟨.line, blocks, opened, previous⟩ := by
  refine .of_step fun s hb ho hp => ?_
  refine ⟨_, _, .emptyLine (by simp : ∀ b ∈ [], isIndent b = true) (.inl rfl), ?_, rfl, rfl⟩
  simp [Stage.view, pass, hb, ho, hp]

theorem writes_layout {change : IndentChange} {blocks' : Indentation}
    (hi : ∀ b ∈ blanks, isIndent b = true) (hc : isLayoutChar c = false)
    (hu : blocks.update (indentWidth blanks) = .ok (change, blocks')) :
    Writes read ⟨.line, blocks, opened, previous⟩ blanks (c :: rest) (layoutKinds change)
      ⟨.inside, blocks', opened, (layoutKinds change).getLast?.or previous⟩ := by
  refine .of_step fun s hb ho hp => ?_
  rw [← hb] at hu
  refine ⟨_, _, .layout hi hc hu, ?_, rfl, ?_⟩
  · simp [Stage.view, pass, ho, hp]
  · rw [map_map]
    exact map_id _

/-- A text that is written to its end, with the tokens that close it. -/
theorem tokensOf_of_writes (h : Writes read ⟨.line, {}, [], none⟩ text [] ks v)
    (hv : v.opened = []) : ∃ ts, tokensOf read (String.ofList text) = .ok ts ∧
      ts.map (·.kind) = ks ++ closingKinds { blocks := v.blocks, previous := v.previous } := by
  obtain ⟨out, ⟨mode, s, cs⟩, hs, rfl, hr, rfl⟩ := h ⟨.line, {}, text⟩ rfl (by simp)
  obtain rfl : cs = [] := hr
  have closed : s.opened = [] := map_eq_nil_iff.mp hv
  have stop : scan read ⟨mode, s, []⟩ = s.finish := by
    cases mode with
    | line => exact Stop.scan_eq (.lineFinish (by simp))
    | inside => exact Stop.scan_eq .finish
  refine ⟨out ++ s.closingKinds.map (s.token · []), ?_, ?_⟩
  · rw [tokensOf_eq_scan, String.toList_ofList, hs.scan_eq, stop, finish, closed]
    rfl
  · rw [map_append, map_map]
    exact congrArg (_ ++ ·) (map_id _)

end ViewBridge.Scanner
