import ViewBridge.Proofs.Source.Step

namespace ViewBridge

open List

/-- Whatever the one lexicon reads, the other one reads too. -/
def Lexicon.Extends {ω : Type} (read' read : Lexicon ω) : Prop :=
  ∀ previous c cs lexeme, read previous c cs = .ok lexeme → read' previous c cs = .ok lexeme

namespace Scanner

variable {ω : Type} {read : Lexicon ω} {out ts : List (Token ω)} {a b : Stage ω} {source : String}

/-- Moves at the start of a line come after those inside the same text. -/
def Stage.size (a : Stage ω) : Nat :=
  2 * a.rest.length + if a.mode = .line then 1 else 0

theorem line_moves (s : Scanner ω) (cs : List Char) :
    (∃ r, Stop read ⟨.line, s, cs⟩ r) ∨
      ∃ out b, Step read ⟨.line, s, cs⟩ out b ∧ b.size < (⟨.line, s, cs⟩ : Stage ω).size := by
  have split : cs = leadingBlanks cs ++ cs.dropWhile isIndent :=
    takeWhile_append_dropWhile.symm
  have hb : ∀ b ∈ leadingBlanks cs, isIndent b = true := fun b hm => mem_takeWhile_imp hm
  have hd := head?_dropWhile_not isIndent cs
  generalize leadingBlanks cs = blanks at split hb
  generalize cs.dropWhile isIndent = code at split hd
  subst split
  cases code with
  | nil => exact .inl ⟨_, by simpa using Stop.lineFinish hb⟩
  | cons c rest =>
    have hi : isIndent c = false := by simpa using hd
    by_cases hn : c = '\n' ∨ c = '\r'
    · exact .inr ⟨_, _, .emptyLine hb hn, by simp [Stage.size]; omega⟩
    by_cases hh : c = '#'
    · subst hh
      obtain ⟨eq, hw, hr⟩ := comment_cases rest
      have hle := length_afterComment_le rest
      have hs : Step read ⟨.line, s, blanks ++ '#' :: (comment rest ++ afterComment rest)⟩ [] _ :=
        .commentLine hb hw hr
      rw [← eq] at hs
      exact .inr ⟨_, _, hs, by simp [Stage.size]; omega⟩
    have hl : isLayoutChar c = false := by
      simp only [isIndent, Bool.or_eq_false_iff, beq_eq_false_iff_ne] at hi
      simp only [not_or] at hn
      simp [isLayoutChar, hi, hn, hh]
    cases hu : s.blocks.update (indentWidth blanks) with
    | error left => exact .inl ⟨_, .dedent hb hl hu⟩
    | ok result =>
      refine .inr ⟨_, _, .layout hb hl hu, ?_⟩
      simp only [Stage.size, length_append, reduceCtorEq, if_true, if_false]
      omega

theorem inside_moves (s : Scanner ω) (cs : List Char) :
    (∃ r, Stop read ⟨.inside, s, cs⟩ r) ∨
      ∃ out b, Step read ⟨.inside, s, cs⟩ out b ∧ b.size < (⟨.inside, s, cs⟩ : Stage ω).size := by
  cases cs with
  | nil => exact .inl ⟨_, .finish⟩
  | cons c rest =>
    by_cases hs : c = ' ' ∨ c = '\t' ∨ c = '\r'
    · exact .inr ⟨_, _, .blank hs, by simp [Stage.size]⟩
    by_cases hn : c = '\n'
    · subst hn
      by_cases ho : s.opened = []
      · exact .inr ⟨_, _, .lineEnd ho, by simp [Stage.size]; omega⟩
      · exact .inr ⟨_, _, .joinedLine ho, by simp [Stage.size]⟩
    by_cases hh : c = '#'
    · subst hh
      obtain ⟨eq, hw, hr⟩ := comment_cases rest
      have hle := length_afterComment_le rest
      have hm : Step read ⟨.inside, s, '#' :: (comment rest ++ afterComment rest)⟩ [] _ :=
        .comment hw hr
      rw [← eq] at hm
      exact .inr ⟨_, _, hm, by simp [Stage.size]; omega⟩
    cases hopen : Bracket.ofOpenChar? c with
    | some b =>
      obtain rfl := Bracket.ofOpenChar?_eq_some_iff.mp hopen
      exact .inr ⟨_, _, .opening b, by simp [Stage.size]⟩
    | none =>
      cases hclose : Bracket.ofCloseChar? c with
      | some b =>
        obtain rfl := Bracket.ofCloseChar?_eq_some_iff.mp hclose
        by_cases hm : ∀ entry ∈ s.opened.head?, entry.1 ≠ b
        · exact .inl ⟨_, .unmatched b hm⟩
        · simp only [ne_eq, not_forall, not_not] at hm
          obtain ⟨⟨b', span⟩, he, rfl⟩ := hm
          obtain ⟨opened, ho⟩ := head?_eq_some_iff.mp he
          exact .inr ⟨_, _, .closing ho, by simp [Stage.size]⟩
      | none =>
        have hl : isLayoutChar c = false := by
          simp only [not_or] at hs
          simp [isLayoutChar, hs, hn, hh]
        have hw : StartsWord c := ⟨hl, hopen, hclose⟩
        cases hr : read s.previous c rest with
        | error misread => exact .inl ⟨_, .misread hw hr⟩
        | ok lexeme =>
          cases lexeme with
          | gap more =>
            refine .inr ⟨_, _, .gap hw hr, ?_⟩
            simp only [Stage.size, length_drop, length_cons]
            omega
          | word w more =>
            refine .inr ⟨_, _, .word hw hr, ?_⟩
            simp only [Stage.size, length_drop, length_cons]
            omega

/-- A scanner that has not stopped moves, and comes nearer to the end. -/
theorem exists_move (read : Lexicon ω) (a : Stage ω) :
    (∃ r, Stop read a r) ∨ ∃ out b, Step read a out b ∧ b.size < a.size := by
  obtain ⟨mode, s, cs⟩ := a
  cases mode with
  | line => exact line_moves s cs
  | inside => exact inside_moves s cs

/-- What holds where a scanner stops, and before a move whenever it holds after it, holds of every
stage and its tokens. -/
theorem scan_induction (read : Lexicon ω)
    {motive : Stage ω → Except Fault (List (Token ω)) → Prop}
    (stop : ∀ a r, Stop read a r → motive a r)
    (step : ∀ a out b r, Step read a out b → motive b r → motive a (r.map (out ++ ·)))
    (a : Stage ω) : motive a (scan read a) := by
  induction hn : a.size using Nat.strong_induction_on generalizing a with
  | _ n ih =>
    rcases exists_move read a with ⟨r, hs⟩ | ⟨out, b, hs, hlt⟩
    · rw [hs.scan_eq]
      exact stop a r hs
    · rw [hs.scan_eq]
      exact step a out b _ hs (ih b.size (hn ▸ hlt) b rfl)

theorem Step.mono {read' : Lexicon ω} (hr : read'.Extends read) (h : Step read a out b) :
    Step read' a out b := by
  cases h with
  | emptyLine hb hc => exact .emptyLine hb hc
  | commentLine hb hw hr => exact .commentLine hb hw hr
  | layout hb hc hu => exact .layout hb hc hu
  | blank hc => exact .blank hc
  | lineEnd ho => exact .lineEnd ho
  | joinedLine ho => exact .joinedLine ho
  | comment hw hr => exact .comment hw hr
  | opening b => exact .opening b
  | closing ho => exact .closing ho
  | gap hc lexeme => exact .gap hc (hr _ _ _ _ lexeme)
  | word hc lexeme => exact .word hc (hr _ _ _ _ lexeme)

theorem scan_mono {read' : Lexicon ω} (hr : read'.Extends read) (a : Stage ω)
    (h : scan read a = .ok ts) : scan read' a = .ok ts := by
  have run := scan_induction read
    (motive := fun a r => ∀ ts, r = .ok ts → scan read' a = .ok ts)
    (fun a r hs ts eq => by
      subst eq
      generalize eq : Except.ok ts = r at hs
      cases hs with
      | lineFinish hb => exact Stop.scan_eq (.lineFinish hb)
      | finish => exact Stop.scan_eq .finish
      | dedent | unmatched | misread => cases eq)
    (fun a out b r hs ih ts eq => by
      obtain ⟨rest, rfl, rfl⟩ := exists_of_map eq
      rw [(hs.mono hr).scan_eq, ih rest rfl]
      rfl)
  exact run a ts h

theorem tokensOf_eq_scan (source : String) :
    tokensOf read source = scan read ⟨.line, {}, source.toList⟩ := rfl

theorem layoutKinds_isText {change : IndentChange} :
    ∀ k ∈ layoutKinds (ω := ω) change, k.isText = false ∧ k ≠ .eof := by
  intro k hk
  cases change with
  | same => simp [layoutKinds] at hk
  | indent =>
    simp only [layoutKinds, mem_singleton] at hk
    subst hk
    exact ⟨rfl, nofun⟩
  | dedent n =>
    obtain rfl := eq_of_mem_replicate hk
    exact ⟨rfl, nofun⟩

theorem closingKinds_isText {s : Scanner ω} : ∀ k ∈ s.closingKinds, k.isText = false := by
  intro k hk
  simp only [closingKinds, mem_append, mem_singleton] at hk
  rcases hk with (hk | hk) | rfl
  · split at hk
    · simp at hk
    · simp at hk
    · simp only [mem_singleton] at hk
      subst hk
      rfl
  · rw [eq_of_mem_replicate hk]
    rfl
  · rfl

theorem Step.length_rest_le (h : Step read a out b) : b.rest.length ≤ a.rest.length := by
  cases h <;> simp <;> omega

theorem word_of_step (h : Step read a out b) : ∀ t ∈ out, ∀ w, t.kind = .word w →
      ∃ previous c cs n, read previous c cs = .ok (.word w n) ∧ cs.length < a.rest.length := by
  have none {s : Scanner ω} {text : List Char} {k : TokenKind ω} {t : Token ω} {w : ω}
      (ht : t ∈ [s.token k text]) (hk : k ≠ .word w) : t.kind ≠ .word w := by
    obtain rfl := mem_singleton.mp ht
    exact hk
  cases h with
  | emptyLine | commentLine | blank | joinedLine | comment | gap => exact fun t ht => nomatch ht
  | layout =>
    intro t ht w hw
    obtain ⟨k, hk, rfl⟩ := mem_map.mp ht
    have mark := (layoutKinds_isText k hk).1
    rw [show k = .word w from hw] at mark
    cases mark
  | lineEnd | opening | closing => exact fun t ht w hw => absurd hw (none ht nofun)
  | word _ hr =>
    intro t ht w hw
    obtain rfl := mem_singleton.mp ht
    cases hw
    exact ⟨_, _, _, _, hr, Nat.lt_succ_self _⟩

/-- Every word among the tokens of a text was read somewhere in it. -/
theorem word_within_of_tokensOf (h : tokensOf read source = .ok ts) :
    ∀ t ∈ ts, ∀ w, t.kind = .word w →
      ∃ previous c cs n, read previous c cs = .ok (.word w n) ∧ cs.length < source.length := by
  have finished : ∀ {s : Scanner ω} {ts}, s.finish = .ok ts → ∀ t ∈ ts, ∀ w, t.kind ≠ .word w := by
    intro s ts h t ht w hw
    unfold finish at h
    split at h
    next => cases h
    next =>
      cases h
      obtain ⟨k, hk, rfl⟩ := mem_map.mp ht
      have mark := closingKinds_isText k hk
      rw [show k = .word w from hw] at mark
      cases mark
  have run := scan_induction read
    (motive := fun a r => ∀ ts, r = .ok ts → ∀ t ∈ ts, ∀ w, t.kind = .word w →
      ∃ previous c cs n, read previous c cs = .ok (.word w n) ∧ cs.length < a.rest.length)
    (fun a r hs ts hr t ht w hw => by
      subst hr
      generalize eq : Except.ok ts = r at hs
      cases hs with
      | lineFinish | finish => exact absurd hw (finished eq.symm t ht w)
      | dedent | unmatched | misread => cases eq)
    (fun a out b r hs ih ts hr t ht w hw => by
      obtain ⟨rest, hrest, rfl⟩ := exists_of_map hr
      rcases mem_append.mp ht with ht | ht
      · exact word_of_step hs t ht w hw
      · obtain ⟨previous, c, cs, n, hread, within⟩ := ih rest hrest t ht w hw
        exact ⟨previous, c, cs, n, hread, Nat.lt_of_lt_of_le within hs.length_rest_le⟩)
    ⟨.line, {}, source.toList⟩
  rw [← String.length_toList]
  exact run ts h

theorem word_of_tokensOf (h : tokensOf read source = .ok ts) :
    ∀ t ∈ ts, ∀ w, t.kind = .word w → ∃ previous c cs n, read previous c cs = .ok (.word w n) := by
  intro t ht w hw
  obtain ⟨previous, c, cs, n, hr, _⟩ := word_within_of_tokensOf h t ht w hw
  exact ⟨previous, c, cs, n, hr⟩

end Scanner

theorem tokensOf_mono {ω : Type} {read read' : Lexicon ω} {source : String} {ts : List (Token ω)}
    (hr : read'.Extends read) (h : tokensOf read source = .ok ts) : tokensOf read' source = .ok ts :=
  Scanner.scan_mono hr ⟨.line, {}, source.toList⟩ h

end ViewBridge
