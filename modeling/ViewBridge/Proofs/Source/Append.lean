import ViewBridge.Proofs.Source.Skeleton
import ViewBridge.Proofs.Source.Writing

namespace ViewBridge

open List

variable {ω : Type} {s s' : Scanner ω} {a b a' : Scanner.Stage ω} {ts out : List (Token ω)}
  {rest front blanks cs : List Char} {c : Char} {mode : Scanner.Mode} {i : Indentation}
  {source : String}

namespace Lexicon

/-- Words that stand before the end of a line are read the same whatever comes behind it. -/
def Local (read : Lexicon ω) : Prop :=
  ∀ previous c cs w n, read previous c (cs ++ ['\n']) = .ok (.word w n) →
    n ≤ cs.length ∧ ∀ more, read previous c (cs ++ '\n' :: more) = .ok (.word w n)

/-- Only words are read inside a line, and never text that makes no token. -/
def Gapless (read : Lexicon ω) : Prop := ∀ previous c cs n, read previous c cs ≠ .ok (.gap n)

/-- The words at the start of a line do not depend on the marks of the layout before them. -/
def LayoutBlind (read : Lexicon ω) : Prop :=
  ∀ p q : Option (TokenKind ω), (∀ k ∈ p, k.isText = false) → (∀ k ∈ q, k.isText = false) →
    read p = read q

/-- The same words, with all text that makes no token refused. -/
def withoutGaps (read : Lexicon ω) : Lexicon ω := fun previous c cs =>
  match read previous c cs with
  | .ok (.gap _) => .error ⟨.afterContinuation, 0, 1⟩
  | r => r

variable {read : Lexicon ω}

theorem withoutGaps_eq_word {previous : Option (TokenKind ω)} {w : ω}
    {n : Nat} : read.withoutGaps previous c cs = .ok (.word w n) ↔
      read previous c cs = .ok (.word w n) := by
  unfold withoutGaps
  split <;> simp_all

theorem extends_withoutGaps (read : Lexicon ω) : read.Extends read.withoutGaps := by
  intro previous c cs lexeme h
  unfold withoutGaps at h
  split at h
  next => cases h
  next => exact h

theorem gapless_withoutGaps (read : Lexicon ω) : read.withoutGaps.Gapless := by
  intro previous c cs n h
  unfold withoutGaps at h
  split at h
  next => cases h
  next hn => exact hn n h

theorem Gapless.withoutGaps_eq (h : read.Gapless) : read.withoutGaps = read := by
  funext previous c cs
  unfold withoutGaps
  split
  next n hr => exact absurd hr (h previous c cs n)
  next => rfl

theorem Local.withoutGaps (h : read.Local) : read.withoutGaps.Local := by
  intro previous c cs w n hr
  obtain ⟨hn, hm⟩ := h _ _ _ _ _ (withoutGaps_eq_word.mp hr)
  exact ⟨hn, fun more => withoutGaps_eq_word.mpr (hm more)⟩

end Lexicon

namespace Scanner

theorem getLast?_rest (h : (front ++ rest).getLast? = some '\n')
    (hf : '\n' ∉ front) : rest.getLast? = some '\n' := by
  cases hr : rest.getLast? with
  | none =>
    rw [getLast?_eq_none_iff.mp hr, append_nil] at h
    exact absurd (mem_of_getLast? h) hf
  | some c =>
    rw [getLast?_append, hr] at h
    exact h

theorem getLast?_rest_or_nil
    (h : (front ++ rest).getLast? = some '\n') : rest = [] ∨ rest.getLast? = some '\n' := by
  cases hr : rest.getLast? with
  | none => exact .inl (getLast?_eq_none_iff.mp hr)
  | some c =>
    rw [getLast?_append, hr] at h
    exact .inr h

theorem atLineEnd_append (h : AtLineEnd rest) (hr : rest.getLast? = some '\n')
    (more : List Char) : AtLineEnd (rest ++ more) := by
  cases rest with
  | nil => cases hr
  | cons c rest => exact h

def Stage.append (a : Stage ω) (more : List Char) : Stage ω := { a with rest := a.rest ++ more }

/-- A text of whole lines. Its end is met at the start of a line, or with brackets open. -/
def Whole (a : Stage ω) : Prop :=
  a.rest.getLast? = some '\n' ∨ a.rest = [] ∧ (a.mode = .inside → a.scanner.opened ≠ [])

theorem Whole.last (h : Whole ⟨mode, s, front ++ rest⟩) (hf : '\n' ∉ front) (hne : front ++ rest ≠ []) :
    rest.getLast? = some '\n' := by
  rcases h with h | h
  · exact getLast?_rest h hf
  · exact absurd h.1 hne

theorem Whole.lines (h : Whole ⟨mode, s, front ++ rest⟩) (hne : front ++ rest ≠ []) :
    rest.getLast? = some '\n' ∨ rest = [] := by
  rcases h with h | h
  · exact (getLast?_rest_or_nil h).symm
  · exact absurd h.1 hne

theorem newline_notMem_blanks (h : ∀ b ∈ blanks, isIndent b = true) : '\n' ∉ blanks :=
  fun hm => absurd (h _ hm) (by decide)

theorem StartsWord.newline_notMem (h : StartsWord c) : '\n' ∉ [c] := by
  intro hm
  exact h.ne.2.1 (mem_singleton.mp hm).symm

variable {read : Lexicon ω}

/-- Text that makes no token is passed over here whatever comes behind it, and something does. -/
def FirmGap (read : Lexicon ω) (a : Stage ω) : Prop :=
  a.mode = .inside → ∀ c rest n, a.rest = c :: rest → read a.scanner.previous c rest = .ok (.gap n) →
    n < rest.length ∧ ∀ more, read a.scanner.previous c (rest ++ more) = .ok (.gap n)

/-- A move in a text of whole lines does not depend on what comes behind the text. -/
theorem Step.append (hl : read.Local) (hg : FirmGap read a) (h : Step read a out b) (ha : Whole a) :
    Whole b ∧ ∀ more, Step read (a.append more) out (b.append more) := by
  cases h with
  | @emptyLine s blanks c rest hb hc =>
    have ha : Whole ⟨.line, s, (blanks ++ [c]) ++ rest⟩ := by simpa using ha
    refine ⟨(ha.lines (by simp)).imp_right fun hr => ⟨hr, nofun⟩, fun more => ?_⟩
    have step : Step read ⟨.line, s, blanks ++ c :: (rest ++ more)⟩ [] _ := .emptyLine hb hc
    simpa [Stage.append] using step
  | @commentLine s blanks words rest hb hw hr =>
    have ha : Whole ⟨.line, s, (blanks ++ '#' :: words) ++ rest⟩ := by simpa using ha
    have last := ha.last (by simp [newline_notMem_blanks hb, hw]) (by simp)
    refine ⟨.inl last, fun more => ?_⟩
    have step : Step read ⟨.line, s, blanks ++ '#' :: (words ++ (rest ++ more))⟩ [] _ :=
      .commentLine hb hw (atLineEnd_append hr last more)
    simpa [Stage.append] using step
  | @layout s blanks c rest change blocks hb hc hu =>
    refine ⟨.inl (ha.last (newline_notMem_blanks hb) (by simp)), fun more => ?_⟩
    have step : Step read ⟨.line, s, blanks ++ c :: (rest ++ more)⟩ _ _ := .layout hb hc hu
    simpa [Stage.append] using step
  | @blank s c rest hc =>
    have front : '\n' ∉ [c] := by rcases hc with rfl | rfl | rfl <;> decide
    exact ⟨.inl (ha.last front (by simp)), fun more => .blank hc⟩
  | @lineEnd s rest ho =>
    have ha : Whole ⟨.inside, s, ['\n'] ++ rest⟩ := ha
    exact ⟨(ha.lines (by simp)).imp_right fun hr => ⟨hr, nofun⟩, fun more => .lineEnd ho⟩
  | @joinedLine s rest ho =>
    have ha : Whole ⟨.inside, s, ['\n'] ++ rest⟩ := ha
    exact ⟨(ha.lines (by simp)).imp_right fun hr => ⟨hr, fun _ => ho⟩, fun more => .joinedLine ho⟩
  | @comment s words rest hw hr =>
    have ha : Whole ⟨.inside, s, ('#' :: words) ++ rest⟩ := by simpa using ha
    have last := ha.last (by simp [hw]) (by simp)
    refine ⟨.inl last, fun more => ?_⟩
    have step : Step read ⟨.inside, s, '#' :: (words ++ (rest ++ more))⟩ [] _ :=
      .comment hw (atLineEnd_append hr last more)
    simpa [Stage.append] using step
  | @opening s rest b =>
    have front : '\n' ∉ [b.openChar] := by cases b <;> decide
    exact ⟨.inl (ha.last front (by simp)), fun more => .opening b⟩
  | @closing s rest b span opened ho =>
    have front : '\n' ∉ [b.closeChar] := by cases b <;> decide
    exact ⟨.inl (ha.last front (by simp)), fun more => .closing ho⟩
  | @gap s c rest n hc hr =>
    obtain ⟨hn, stable⟩ := hg rfl c rest n rfl hr
    have ha : Whole ⟨.inside, s, (c :: rest.take n) ++ rest.drop n⟩ := by simpa using ha
    refine ⟨.inl ((ha.lines (by simp)).resolve_right (by simp [hn])), fun more => ?_⟩
    have step : Step read ⟨.inside, s, c :: (rest ++ more)⟩ [] _ := .gap hc (stable more)
    rw [take_append_of_le_length hn.le, drop_append_of_le_length hn.le] at step
    exact step
  | @word s c rest w n hc hr =>
    have last := ha.last hc.newline_notMem (by simp)
    obtain ⟨front, rfl⟩ := getLast?_eq_some_iff.mp last
    obtain ⟨hn, hm⟩ := hl _ _ _ _ _ hr
    have taken (more : List Char) : (front ++ '\n' :: more).take n = (front ++ ['\n']).take n := by
      rw [take_append_of_le_length hn, take_append_of_le_length hn]
    have dropped (more : List Char) :
        (front ++ '\n' :: more).drop n = (front ++ ['\n']).drop n ++ more := by
      rw [drop_append_of_le_length hn, drop_append_of_le_length hn]
      simp
    constructor
    · left
      rw [drop_append_of_le_length hn]
      simp
    · intro more
      have step : Step read ⟨.inside, s, c :: (front ++ '\n' :: more)⟩ _ _ := .word hc (hm more)
      rw [taken, dropped] at step
      simpa [Stage.append] using step

/-- A text of whole lines is read to its end, and the scanner is at the start of a line there,
whatever comes behind the text. -/
theorem exists_steps_append (hl : read.Local) (a : Stage ω) (hv : Valid a) (ha : Whole a)
    (hg : ∀ out b, Steps read a out b → FirmGap read b) (h : scan read a = .ok ts) :
    ∃ out s, (∀ more, Steps read (a.append more) out ⟨.line, s, more⟩) ∧
      Valid (⟨.line, s, []⟩ : Stage ω) ∧ ts = out ++ s.closingKinds.map (s.token · []) := by
  have run := scan_induction read
    (motive := fun a r => Valid a → Whole a → (∀ out b, Steps read a out b → FirmGap read b) →
      ∀ ts, r = .ok ts → ∃ out s, (∀ more, Steps read (a.append more) out ⟨.line, s, more⟩) ∧
        Valid (⟨.line, s, []⟩ : Stage ω) ∧ ts = out ++ s.closingKinds.map (s.token · []))
    (fun a r hs hv ha _ ts hr => by
      subst hr
      generalize hr : Except.ok ts = r at hs
      cases hs with
      | @lineFinish s blanks hb =>
        have empty : blanks = [] := by
          rcases ha with ha | ha
          · exact absurd (mem_of_getLast? ha) (newline_notMem_blanks hb)
          · exact ha.1
        subst empty
        rw [finish, show (s.pass []).opened = [] from hv.line_opened rfl] at hr
        cases hr
        exact ⟨[], s, fun more => .refl, ⟨hv.line_opened, hv.line_previous, hv.first⟩, rfl⟩
      | @finish s =>
        rcases ha with ha | ha
        · cases ha
        · cases ho : s.opened with
          | nil => exact absurd ho (ha.2 rfl)
          | cons entry opened =>
            rw [finish, ho] at hr
            cases hr
      | dedent | unmatched | misread => cases hr)
    (fun a out b r hs ih hv ha hg ts hr => by
      obtain ⟨rest, rfl, rfl⟩ := exists_of_map hr
      obtain ⟨hb, step⟩ := hs.append hl (hg [] a .refl) ha
      obtain ⟨more, s, steps, hv', rfl⟩ :=
        ih (hs.valid hv) hb (fun _ c behind => hg _ c (.step hs behind)) rest rfl
      exact ⟨out ++ more, s, fun behind => .step (step behind) (steps behind), hv', by simp⟩)
  exact run a hv ha hg ts h

/-- No open block is as wide as the lines outside all blocks. -/
def Indented (i : Indentation) : Prop := ∀ w ∈ i.widths, 0 < w

theorem Indented.update {blocks : Indentation} (h : Indented i) {width : Nat}
    {change : IndentChange} (hu : i.update width = .ok (change, blocks)) : Indented blocks := by
  unfold Indentation.update at hu
  split at hu
  next hlt =>
    cases hu
    exact forall_mem_cons.mpr ⟨by omega, h⟩
  next =>
    split at hu
    next =>
      cases hu
      exact h
    next =>
      dsimp only at hu
      split at hu
      next =>
        cases hu
        exact fun w hw => h w ((dropWhile_sublist _).subset hw)
      next => cases hu

theorem Step.indented (h : Step read a out b)
    (ha : Indented a.scanner.blocks) : Indented b.scanner.blocks := by
  cases h with
  | layout _ _ hu => exact ha.update hu
  | _ => exact ha

theorem Steps.indented (h : Steps read a out b)
    (ha : Indented a.scanner.blocks) : Indented b.scanner.blocks := by
  induction h with
  | refl => exact ha
  | step hs _ ih => exact ih (hs.indented ha)

theorem Indented.update_zero (h : Indented i) : ∃ change, i.update 0 = .ok (change, {}) ∧
      layoutKinds (ω := ω) change = List.replicate i.depth .dedent := by
  obtain ⟨widths⟩ := i
  cases widths with
  | nil => exact ⟨.same, rfl, rfl⟩
  | cons w widths =>
    have positive : 0 < w := h w mem_cons_self
    have closed : (w :: widths).dropWhile (0 < ·) = [] := by
      rw [dropWhile_eq_nil_iff]
      intro v hv
      simpa using h v hv
    refine ⟨.dedent (widths.length + 1), ?_, rfl⟩
    have top : (Indentation.mk (w :: widths)).top = w := rfl
    rw [Indentation.update, top, if_neg (Nat.not_lt_zero _), if_neg (by omega)]
    simp only [Indentation.closeTo, closed]
    rfl

theorem update_empty (width : Nat) : ({} : Indentation).update width =
    if width = 0 then .ok (.same, {}) else .ok (.indent, ⟨[width]⟩) := by
  have top : ({} : Indentation).top = 0 := rfl
  unfold Indentation.update
  rw [top]
  by_cases hw : width = 0
  · simp [hw]
  · rw [if_pos (Nat.pos_of_ne_zero hw), if_neg hw]

/-- Two stages before the same text that differ in their places. Before the first token of the one
the other may have marks of the layout. -/
structure Near (a b : Stage ω) : Prop where
  mode : a.mode = b.mode
  rest : a.rest = b.rest
  blocks : a.scanner.blocks = b.scanner.blocks
  opened : a.scanner.opened.map (·.1) = b.scanner.opened.map (·.1)
  previous : a.scanner.previous = b.scanner.previous ∨
    a.scanner.previous = none ∧ ∀ k ∈ b.scanner.previous, k.isText = false

theorem Near.read_eq (hb : read.LayoutBlind) (h : Near a b) :
    read a.scanner.previous = read b.scanner.previous := by
  rcases h.previous with hp | ⟨hp, hk⟩
  · rw [hp]
  · exact hb _ _ (by rw [hp]; nofun) hk

/-- Stages that are near each other move alike. -/
theorem Step.near (hb : read.LayoutBlind) (h : Step read a out b) (ha : Near a a') :
    ∃ out' b', Step read a' out' b' ∧ out'.map (·.kind) = out.map (·.kind) ∧ Near b b' := by
  have hread := ha.read_eq hb
  obtain ⟨mode', s', cs'⟩ := a'
  obtain ⟨rfl, rfl, hblocks, hopened, hprevious⟩ := ha
  cases h with
  | emptyLine hi hc => exact ⟨[], _, .emptyLine hi hc, rfl, rfl, rfl, hblocks, hopened, hprevious⟩
  | commentLine hi hw hr => exact ⟨[], _, .commentLine hi hw hr, rfl, rfl, rfl, hblocks, hopened, hprevious⟩
  | @layout s blanks c rest change blocks hi hc hu =>
    dsimp only at hblocks hprevious
    rw [hblocks] at hu
    refine ⟨_, _, .layout hi hc hu, by simp [token], rfl, rfl, rfl, hopened, ?_⟩
    cases hk : (layoutKinds (ω := ω) change).getLast? with
    | none => simpa [hk] using hprevious
    | some k => exact .inl rfl
  | blank hc => exact ⟨[], _, .blank hc, rfl, rfl, rfl, hblocks, hopened, hprevious⟩
  | @lineEnd s rest ho =>
    have ho' : s'.opened = [] := map_eq_nil_iff.mp (hopened.symm.trans (by rw [ho]; rfl))
    exact ⟨_, _, .lineEnd ho', rfl, rfl, rfl, hblocks, hopened, .inl rfl⟩
  | @joinedLine s rest ho =>
    have ho' : s'.opened ≠ [] := by
      intro hn
      rw [hn] at hopened
      exact ho (map_eq_nil_iff.mp hopened)
    exact ⟨[], _, .joinedLine ho', rfl, rfl, rfl, hblocks, hopened, hprevious⟩
  | comment hw hr => exact ⟨[], _, .comment hw hr, rfl, rfl, rfl, hblocks, hopened, hprevious⟩
  | opening b => exact ⟨_, _, .opening b, rfl, rfl, rfl, hblocks, by simpa using hopened, .inl rfl⟩
  | @closing s rest b span opened ho =>
    dsimp only at hopened
    rw [ho] at hopened
    obtain ⟨⟨b', span'⟩, opened', hs, rfl, hi⟩ := map_eq_cons_iff.mp hopened.symm
    exact ⟨_, _, .closing hs, rfl, rfl, rfl, hblocks, hi.symm, .inl rfl⟩
  | gap hc hr =>
    rw [hread] at hr
    exact ⟨[], _, .gap hc hr, rfl, rfl, rfl, hblocks, hopened, hprevious⟩
  | word hc hr =>
    rw [hread] at hr
    exact ⟨_, _, .word hc hr, rfl, rfl, rfl, hblocks, hopened, .inl rfl⟩

theorem map_kind_token (s : Scanner ω) (ks : List (TokenKind ω)) :
    (ks.map (s.token · [])).map (·.kind) = ks := by
  rw [map_map]
  exact map_id ks

theorem closingKinds_first (hp : s.previous = none) (hd : s.blocks.depth = 0) :
    s.closingKinds = [.eof] := by
  simp [closingKinds, hp, hd]

/-- What can be told of the tokens of two stages that are near each other. They have the same kinds,
but a text without a token of its own may be a line of its own behind the marks of the layout. -/
def SameKinds (previous : Option (TokenKind ω)) (ts ts' : List (Token ω)) : Prop :=
  ts'.map (·.kind) = ts.map (·.kind) ∨
    previous = none ∧ ts.map (·.kind) = [.eof] ∧ ts'.map (·.kind) = [.newline, .eof]

theorem finish_near {t : Scanner ω} (hblocks : s.blocks = t.blocks)
    (hopened : s.opened.map (·.1) = t.opened.map (·.1))
    (hprevious : s.previous = t.previous ∨
      s.previous = none ∧ ∀ k ∈ t.previous, k.isText = false)
    (hfirst : s.previous = none → s.blocks.depth = 0)
    (h : s.finish = .ok ts) :
    ∃ tt, t.finish = .ok tt ∧ SameKinds s.previous ts tt := by
  unfold finish at h
  split at h
  next => cases h
  next ho =>
    cases h
    have ho' : t.opened = [] := map_eq_nil_iff.mp (hopened.symm.trans (by rw [ho]; rfl))
    refine ⟨t.closingKinds.map (t.token · []), by rw [finish, ho'], ?_⟩
    unfold SameKinds
    rw [map_kind_token, map_kind_token]
    rcases hprevious with hp | ⟨hp, hk⟩
    · left
      rw [closingKinds, closingKinds, hp, hblocks]
    · have hd := hfirst hp
      rw [closingKinds_first hp hd]
      rw [hblocks] at hd
      rw [closingKinds, Indentation.closeAll_fst, hd]
      split
      next => exact .inl rfl
      next => exact .inl rfl
      next => exact .inr ⟨hp, rfl, rfl⟩

theorem Stop.near (h : Stop read a (.ok ts)) (hv : Valid a) (ha : Near a a') :
    ∃ ts', Stop read a' (.ok ts') ∧ SameKinds a.scanner.previous ts ts' := by
  obtain ⟨mode', s', cs'⟩ := a'
  obtain ⟨rfl, rfl, hblocks, hopened, hprevious⟩ := ha
  generalize hr : Except.ok ts = r at h
  cases h with
  | lineFinish hb =>
    obtain ⟨ts', hf, hk⟩ := finish_near (s := pass _ _) (t := s'.pass _) hblocks hopened
      hprevious hv.first hr.symm
    exact ⟨ts', hf ▸ .lineFinish hb, hk⟩
  | finish =>
    obtain ⟨ts', hf, hk⟩ := finish_near hblocks hopened hprevious hv.first hr.symm
    exact ⟨ts', hf ▸ .finish, hk⟩
  | dedent | unmatched | misread => cases hr

theorem Step.out_of_first (h : Step read a out b)
    (hb : b.scanner.previous = none) : out = [] ∧ a.scanner.previous = none := by
  cases h with
  | layout =>
    simp only [Option.or_eq_none_iff, getLast?_eq_none_iff] at hb
    exact ⟨by rw [hb.1]; rfl, hb.2⟩
  | lineEnd | opening | closing | word => cases hb
  | _ => exact ⟨rfl, hb⟩

theorem scan_near (hb : read.LayoutBlind) (a : Stage ω) (hv : Valid a)
    (ha : Near a a') (h : scan read a = .ok ts) :
    ∃ ts', scan read a' = .ok ts' ∧ SameKinds a.scanner.previous ts ts' := by
  have run := scan_induction read
    (motive := fun a r => Valid a → ∀ a', Near a a' → ∀ ts, r = .ok ts →
      ∃ ts', scan read a' = .ok ts' ∧ SameKinds a.scanner.previous ts ts')
    (fun a r hs hv a' ha ts hr => by
      subst hr
      obtain ⟨ts', hs', hk⟩ := hs.near hv ha
      exact ⟨ts', hs'.scan_eq, hk⟩)
    (fun a out b r hs ih hv a' ha ts hr => by
      cases r with
      | error fault => cases hr
      | ok rest =>
        cases hr
        obtain ⟨out', b', hs', hout, hnear⟩ := hs.near hb ha
        obtain ⟨rest', hrest, hk⟩ := ih (hs.valid hv) b' hnear rest rfl
        refine ⟨out' ++ rest', by rw [hs'.scan_eq, hrest]; rfl, ?_⟩
        rcases hk with hk | ⟨hp, hk⟩
        · left
          rw [map_append, map_append, hout, hk]
        · obtain ⟨rfl, hp⟩ := hs.out_of_first hp
          obtain rfl := map_eq_nil_iff.mp hout
          exact .inr ⟨hp, hk⟩)
  exact run a hv a' ha ts h

theorem scan_code_ne (hg : read.Gapless) (hc : isLayoutChar c = false)
    (h : scan read ⟨.inside, s, c :: rest⟩ = .ok ts) : ts.map (·.kind) ≠ [.eof] := by
  have layout : (((c ≠ ' ' ∧ c ≠ '\t') ∧ c ≠ '\r') ∧ c ≠ '\n') ∧ c ≠ '#' := by
    simpa [isLayoutChar] using hc
  rcases exists_move read ⟨.inside, s, c :: rest⟩ with ⟨r, stop⟩ | ⟨out, b, move, _⟩
  · rw [stop.scan_eq] at h
    cases stop <;> cases h
  · rw [move.scan_eq] at h
    obtain ⟨ts', _, rfl⟩ := exists_of_map h
    generalize hcs : c :: rest = cs at move
    cases move with
    | opening | closing | word => simp [token]
    | gap _ hr => exact absurd hr (hg _ _ _ _)
    | blank hb => cases hcs; simp_all
    | lineEnd | joinedLine | comment => cases hcs; simp_all

/-- A scanner that has met no token. -/
structure Fresh (s : Scanner ω) : Prop where
  blocks : s.blocks = {}
  opened : s.opened = []
  previous : s.previous = none

/-- A scanner at the start of a line. -/
structure Resting (s : Scanner ω) : Prop where
  indented : Indented s.blocks
  opened : s.opened = []
  previous : s.previous = none ∨ s.previous = some .newline

/-- The text is read behind other text with the tokens it has alone, once all blocks are closed. A
text of nothing but gaps may be a line of its own there. -/
def Resumes (read : Lexicon ω) (s : Scanner ω) (cs : List Char) (ks : List (TokenKind ω)) : Prop :=
  ∃ ts rest, scan read ⟨.line, s, cs⟩ = .ok ts ∧
    ts.map (·.kind) = List.replicate s.blocks.depth .dedent ++ rest ∧
    (rest = ks ∨ ¬read.Gapless ∧ ks = [.eof] ∧ rest = [.newline, .eof])

theorem resumes_blanks (hs : Resting s)
    (hb : ∀ b ∈ blanks, isIndent b = true) : Resumes read s blanks [.eof] := by
  refine ⟨(s.pass blanks).closingKinds.map ((s.pass blanks).token · []), [.eof], ?_, ?_, .inl rfl⟩
  · have closed : (s.pass blanks).opened = [] := hs.opened
    rw [Stop.scan_eq (.lineFinish hb), finish, closed]
  · rw [map_kind_token, closingKinds]
    rcases hs.previous with hp | hp <;> simp [pass, hp]

theorem Resumes.step {ks : List (TokenKind ω)}
    (h : Resumes read s' rest ks) (hs : Step read ⟨.line, s, cs⟩ [] ⟨.line, s', rest⟩)
    (hd : s'.blocks = s.blocks) : Resumes read s cs ks := by
  obtain ⟨ts, rest', hscan, hk⟩ := h
  refine ⟨ts, rest', ?_, hd ▸ hk⟩
  rw [hs.scan_eq, hscan]
  rfl

/-- The first code of a text stands behind the ends of all blocks. -/
theorem resumes_code (hb : read.LayoutBlind) (hs : Fresh s) (hs' : Resting s')
    (hi : ∀ b ∈ blanks, isIndent b = true) (hw : indentWidth blanks = 0) (hc : isLayoutChar c = false)
    (h : scan read ⟨.inside, s.pass blanks, c :: rest⟩ = .ok ts) :
    Resumes read s' (blanks ++ c :: rest) (ts.map (·.kind)) := by
  obtain ⟨closing, hu, hkinds⟩ := hs'.indented.update_zero (ω := ω)
  rw [← hw] at hu
  have move : Step read ⟨.line, s', blanks ++ c :: rest⟩ _ _ := .layout hi hc hu
  have marks : ∀ k ∈ (layoutKinds closing).getLast?.or s'.previous, k.isText = false := by
    intro k hm
    cases hl : (layoutKinds (ω := ω) closing).getLast? with
    | some k' =>
      rw [hl] at hm
      cases hm
      exact (layoutKinds_isText k (mem_of_getLast? hl)).1
    | none =>
      rw [hl, Option.none_or] at hm
      rcases hs'.previous with hp | hp <;> rw [hp] at hm <;> cases hm
      rfl
  have near : Near (⟨.inside, s.pass blanks, c :: rest⟩ : Stage ω) ⟨.inside, { s'.pass blanks with
      blocks := {}, previous := (layoutKinds closing).getLast?.or s'.previous }, c :: rest⟩ :=
    ⟨rfl, rfl, hs.blocks, by simp [pass, hs.opened, hs'.opened], .inr ⟨hs.previous, marks⟩⟩
  have first : (s.pass blanks).blocks.depth = 0 := congrArg Indentation.depth hs.blocks
  have valid : Valid (⟨.inside, s.pass blanks, c :: rest⟩ : Stage ω) :=
    ⟨by simp, by simp, fun _ => first⟩
  obtain ⟨ts', hscan, same⟩ := scan_near hb _ valid near h
  refine ⟨_, ts'.map (·.kind), by rw [move.scan_eq, hscan]; rfl, ?_, ?_⟩
  · rw [map_append, map_kind_token, hkinds]
  · rcases same with same | ⟨_, eof, line⟩
    · exact .inl same
    · exact .inr ⟨fun hg => scan_code_ne hg hc h eof, eof, line⟩

/-- A text whose first line is not indented goes on where another text has ended. -/
theorem scan_resumes (hb : read.LayoutBlind) (a : Stage ω) (ha : a.mode = .line)
    (hs : Fresh a.scanner) (hs' : Resting s')
    (h : scan read a = .ok ts) (hi : (ts.map (·.kind)).head? ≠ some .indent) :
    Resumes read s' a.rest (ts.map (·.kind)) := by
  have run := scan_induction read
    (motive := fun a _ => a.mode = .line → Fresh a.scanner → ∀ s', Resting s' →
      ∀ ts, scan read a = .ok ts → (ts.map (·.kind)).head? ≠ some .indent →
        Resumes read s' a.rest (ts.map (·.kind)))
    (fun a r stop ha hs s' hs' ts hr hi => by
      rw [stop.scan_eq] at hr
      cases stop with
      | @lineFinish s blanks hblank =>
        have closed : (s.pass blanks).opened = [] := hs.opened
        have depth : (s.pass blanks).blocks.depth = 0 := congrArg Indentation.depth hs.blocks
        have closing : (s.pass blanks).closingKinds = [.eof] := closingKinds_first hs.previous depth
        rw [finish, closed] at hr
        cases hr
        rw [map_kind_token, closing]
        exact resumes_blanks hs' hblank
      | dedent => cases hr
      | finish | unmatched | misread => cases ha)
    (fun a out b r move ih ha hs s' hs' ts hr hi => by
      rw [move.scan_eq] at hr
      obtain ⟨rest, hrest, rfl⟩ := exists_of_map hr
      cases move with
      | @emptyLine s blanks c _ hblank hc =>
        have next := ih rfl ⟨hs.blocks, hs.opened, hs.previous⟩ (s'.pass (blanks ++ [c]))
          ⟨hs'.indented, hs'.opened, hs'.previous⟩ rest hrest hi
        exact next.step (.emptyLine hblank hc) rfl
      | @commentLine s blanks words _ hblank hw hend =>
        have next := ih rfl ⟨hs.blocks, hs.opened, hs.previous⟩ (s'.pass (blanks ++ '#' :: words))
          ⟨hs'.indented, hs'.opened, hs'.previous⟩ rest hrest hi
        exact next.step (.commentLine hblank hw hend) rfl
      | @layout s blanks c _ change blocks hblank hc hu =>
        have empty : s.blocks = {} := hs.blocks
        rw [empty, update_empty] at hu
        split at hu
        next hw =>
          cases hu
          have same : { s.pass blanks with
              blocks := {}, previous := (layoutKinds .same).getLast?.or s.previous } =
              s.pass blanks := by
            simp [pass, empty, layoutKinds]
          rw [same] at hrest
          exact resumes_code hb hs hs' hblank hw hc hrest
        next =>
          cases hu
          exact absurd rfl hi
      | _ => cases ha)
  exact run a ha hs s' hs' ts h hi

end Scanner

variable {read : Lexicon ω}

theorem valid_start (cs : List Char) : Scanner.Valid (⟨.line, {}, cs⟩ : Scanner.Stage ω) :=
  ⟨fun _ => rfl, fun _ => .inl rfl, fun _ => rfl⟩

theorem exists_steps_of_tokensOf (hl : read.Local)
    (hs : source.toList = [] ∨ source.toList.getLast? = some '\n')
    (h : tokensOf read.withoutGaps source = .ok ts) :
    ∃ out s, (∀ more, Scanner.Steps read ⟨.line, {}, source.toList ++ more⟩ out ⟨.line, s, more⟩) ∧
      Scanner.Resting s ∧ ts = out ++ s.closingKinds.map (s.token · []) := by
  rw [Scanner.tokensOf_eq_scan] at h
  have whole : Scanner.Whole (⟨.line, {}, source.toList⟩ : Scanner.Stage ω) :=
    hs.symm.imp_right fun hn => ⟨hn, nofun⟩
  obtain ⟨out, s, steps, valid, rfl⟩ :=
    Scanner.exists_steps_append hl.withoutGaps _ (valid_start _) whole
      (fun _ _ _ _ _ _ _ _ gap => absurd gap (Lexicon.gapless_withoutGaps read _ _ _ _)) h
  have steps' (more : List Char) :
      Scanner.Steps read ⟨.line, {}, source.toList ++ more⟩ out ⟨.line, s, more⟩ :=
    (steps more).mono (Lexicon.extends_withoutGaps read)
  have indented : Scanner.Indented s.blocks := (steps' []).indented (fun _ hw => by cases hw)
  exact ⟨out, s, steps', ⟨indented, valid.line_opened rfl, valid.line_previous rfl⟩, rfl⟩

theorem Scanner.Resting.closingKinds_eq (h : s.Resting) :
    s.closingKinds = List.replicate s.blocks.depth .dedent ++ [.eof] := by
  rcases h.previous with hp | hp <;> simp [closingKinds, hp]

/-- The tokens of two texts of which the first consists of whole lines and the second starts without
indentation: those of the first, its end apart, and then those of the second. -/
theorem exists_tokensOf_append (hl : read.Local) (hb : read.LayoutBlind) {a b : String}
    (ha : a.toList = [] ∨ a.toList.getLast? = some '\n') {ta tb : List (Token ω)}
    (hta : tokensOf read.withoutGaps a = .ok ta) (htb : tokensOf read b = .ok tb)
    (hi : (tb.map (·.kind)).head? ≠ some .indent) :
    ∃ ts before rest, tokensOf read (a ++ b) = .ok ts ∧ ta.map (·.kind) = before ++ [.eof] ∧
      ts.map (·.kind) = before ++ rest ∧
      (rest = tb.map (·.kind) ∨
        ¬read.Gapless ∧ tb.map (·.kind) = [.eof] ∧ rest = [.newline, .eof]) := by
  obtain ⟨out, s, steps, resting, rfl⟩ := exists_steps_of_tokensOf hl ha hta
  obtain ⟨ts, rest, hscan, hk, hrest⟩ :=
    Scanner.scan_resumes hb ⟨.line, {}, b.toList⟩ rfl ⟨rfl, rfl, rfl⟩ resting htb hi
  refine ⟨out ++ ts, out.map (·.kind) ++ List.replicate s.blocks.depth .dedent, rest, ?_, ?_, ?_,
    hrest⟩
  · rw [Scanner.tokensOf_eq_scan, String.toList_append, (steps b.toList).scan_eq, hscan]
    rfl
  · rw [map_append, Scanner.map_kind_token, resting.closingKinds_eq, append_assoc]
  · rw [map_append, hk, append_assoc]

end ViewBridge
