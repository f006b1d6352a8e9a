import ViewBridge.Proofs.Source.Append

namespace ViewBridge

open List

variable {ω : Type} {ts out : List (Token ω)} {a b : Scanner.Stage ω} {source : String}

namespace Lexicon

/-- Text that makes no token is read behind the first token of a line only. -/
def GapsInside (read : Lexicon ω) : Prop :=
  ∀ previous c cs n, read previous c cs = .ok (.gap n) → ∃ k, previous = some k ∧ k.isText = true

theorem Gapless.gapsInside {read : Lexicon ω} (h : read.Gapless) : read.GapsInside :=
  fun previous c cs n hr => absurd hr (h previous c cs n)

end Lexicon

/-- The tokens of a line: there are some, none is of the layout, and brackets are nested. -/
structure IsLine (line : List (TokenKind ω)) : Prop where
  nonempty : line ≠ []
  text : ∀ k ∈ line, k.isText = true
  nested : Nested line

/-- Lines from the start of one up to the end of the outermost of so many open blocks. -/
inductive Ends : Nat → List (TokenKind ω) → Prop
  | nil : Ends 0 []
  | dedent {n ks} : Ends n ks → Ends (n + 1) (.dedent :: ks)
  | line {n line ks} : IsLine line → Ends (n + 1) ks → Ends (n + 1) (line ++ .newline :: ks)
  | block {n line ks} : IsLine line → Ends (n + 2) ks →
      Ends (n + 1) (line ++ .newline :: .indent :: ks)

/-- Statements one after the other: each is a line, with the block behind it if there is one. -/
inductive Statements : List (TokenKind ω) → Prop
  | nil : Statements []
  | line {line ks} : IsLine line → Statements ks → Statements (line ++ .newline :: ks)
  | block {line inner ks} : IsLine line → Ends 1 inner → Statements ks →
      Statements (line ++ .newline :: .indent :: (inner ++ ks))

/-- The tokens from the start of a line on, with so many blocks open there. -/
def FromLine (n : Nat) (ks : List (TokenKind ω)) : Prop :=
  ∃ inner more, ks = inner ++ more ∧ Ends n inner ∧ Statements more

/-- The tokens behind a line, where a block may start. -/
def BehindLine (n : Nat) (ks : List (TokenKind ω)) : Prop :=
  FromLine n ks ∨ ∃ inner, ks = .indent :: inner ∧ FromLine (n + 1) inner

variable {n : Nat} {line ks : List (TokenKind ω)}

theorem FromLine.dedents (h : FromLine n ks) (d : Nat) :
    FromLine (n + d) (List.replicate d .dedent ++ ks) := by
  induction d with
  | zero => exact h
  | succ d ih =>
    obtain ⟨inner, more, eq, he, hs⟩ := ih
    exact ⟨.dedent :: inner, more, by rw [replicate_succ, cons_append, eq]; rfl,
      .dedent he, hs⟩

/-- A line in front of what may stand behind a line. -/
theorem FromLine.cons (hl : IsLine line) (h : BehindLine n ks) :
    FromLine n (line ++ .newline :: ks) := by
  rcases h with ⟨inner, more, rfl, he, hs⟩ | ⟨_, rfl, inner, more, rfl, he, hs⟩
  · cases n with
    | zero =>
      cases he
      exact ⟨[], _, rfl, .nil, .line hl hs⟩
    | succ n => exact ⟨line ++ .newline :: inner, more, by simp, .line hl he, hs⟩
  · cases n with
    | zero => exact ⟨[], _, rfl, .nil, .block hl he hs⟩
    | succ n => exact ⟨line ++ .newline :: .indent :: inner, more, by simp, .block hl he, hs⟩

/-- The marks of a change of indentation in front of a line. -/
theorem BehindLine.layout {i blocks : Indentation} {width : Nat} {change : IndentChange}
    (hu : i.update width = .ok (change, blocks)) (h : FromLine blocks.depth ks) :
    BehindLine i.depth (Scanner.layoutKinds change ++ ks) := by
  have hd := Scanner.update_depth (ω := ω) hu
  cases change with
  | same =>
    have hd : blocks.depth = i.depth := by simpa [Scanner.layoutKinds] using hd
    exact .inl (hd ▸ h)
  | indent =>
    have hd : blocks.depth = i.depth + 1 := by
      simpa [Scanner.layoutKinds, TokenKind.isIndent, TokenKind.isDedent] using hd
    exact .inr ⟨ks, rfl, hd ▸ h⟩
  | dedent d =>
    have hd : blocks.depth + d = i.depth := by
      simpa [Scanner.layoutKinds, TokenKind.isIndent, TokenKind.isDedent, countP_replicate]
        using hd
    exact .inl (hd ▸ h.dedents d)

namespace Scanner

/-- Inside a line there is a token before this place or code at it. -/
def Started (a : Stage ω) : Prop :=
  a.mode = .inside → (∃ k, a.scanner.previous = some k ∧ k.isText = true) ∨
    ∃ c rest, a.rest = c :: rest ∧ isLayoutChar c = false

/-- How the tokens behind a stage are made up of lines. Those inside a line close its brackets
first, and there are some if the line has none before this place. -/
def Lined (a : Stage ω) (ks : List (TokenKind ω)) : Prop :=
  match a.mode with
  | .line => BehindLine a.scanner.blocks.depth ks
  | .inside => ∃ line rest, ks = line ++ .newline :: rest ∧ (∀ k ∈ line, k.isText = true) ∧
      Closes (a.scanner.opened.map (·.1)) line ∧ BehindLine a.scanner.blocks.depth rest ∧
      ((∀ k ∈ a.scanner.previous, k.isText = false) → line ≠ [])

variable {read : Lexicon ω}

theorem Started.exists_text {s : Scanner ω} {c : Char} {rest : List Char}
    (h : Started ⟨.inside, s, c :: rest⟩) (hc : isLayoutChar c = true) :
    ∃ k, s.previous = some k ∧ k.isText = true := by
  rcases h rfl with hp | ⟨_, _, eq, hn⟩
  · exact hp
  · cases eq
    rw [hc] at hn
    cases hn

theorem Step.started (hg : read.GapsInside) (h : Step read a out b) (ha : Started a) : Started b := by
  cases h with
  | emptyLine | commentLine | lineEnd => exact nofun
  | layout _ hc => exact fun _ => .inr ⟨_, _, rfl, hc⟩
  | blank hc => exact fun _ => .inl (ha.exists_text (by rcases hc with rfl | rfl | rfl <;> rfl))
  | joinedLine => exact fun _ => .inl (ha.exists_text rfl)
  | comment => exact fun _ => .inl (ha.exists_text rfl)
  | opening | closing | word => exact fun _ => .inl ⟨_, rfl, rfl⟩
  | gap _ hr => exact fun _ => .inl (hg _ _ _ _ hr)

theorem Step.lined (hg : read.GapsInside)
    (h : Step read a out b) (hv : Valid a) (ha : Started a) {ks : List (TokenKind ω)}
    (hb : Lined b ks) : Lined a (out.map (·.kind) ++ ks) := by
  have behind {s : Scanner ω} {line : List (TokenKind ω)}
      (h : ∃ k, s.previous = some k ∧ k.isText = true) :
      (∀ k ∈ s.previous, k.isText = false) → line ≠ [] := by
    obtain ⟨k, hp, hk⟩ := h
    intro none
    rw [none k hp] at hk
    cases hk
  cases h with
  | emptyLine | commentLine => exact hb
  | @layout s blanks c rest change blocks hi hc hu =>
    obtain ⟨line, rest, rfl, text, closes, behind, nonempty⟩ := hb
    have opened := hv.line_opened rfl
    dsimp only [pass] at opened closes
    rw [opened] at closes
    have first : ∀ k ∈ (layoutKinds change).getLast?.or s.previous, TokenKind.isText k = false := by
      intro k hk
      rcases Option.or_eq_some_iff.mp hk with hk | ⟨_, hk⟩
      · exact (layoutKinds_isText k (mem_of_getLast? hk)).1
      · have before : s.previous = none ∨ s.previous = some .newline := hv.line_previous rfl
        rcases before with hp | hp <;> rw [hp] at hk <;> cases hk
        rfl
    cases closes with
    | done nested =>
      have isLine : IsLine line := ⟨nonempty first, text, nested⟩
      rw [map_kind_token]
      exact .layout hu (.cons isLine behind)
  | blank hc =>
    obtain ⟨line, rest, rfl, text, closes, lines, _⟩ := hb
    have before := ha.exists_text (by rcases hc with rfl | rfl | rfl <;> rfl)
    exact ⟨line, rest, rfl, text, closes, lines, behind before⟩
  | lineEnd ho =>
    refine ⟨[], ks, rfl, nofun, ?_, hb, behind (ha.exists_text rfl)⟩
    rw [ho]
    exact .done .nil
  | joinedLine | comment =>
    obtain ⟨line, rest, rfl, text, closes, lines, _⟩ := hb
    exact ⟨line, rest, rfl, text, closes, lines, behind (ha.exists_text rfl)⟩
  | opening b =>
    obtain ⟨line, rest, rfl, text, closes, behind, _⟩ := hb
    exact ⟨.opening b :: line, rest, rfl, forall_mem_cons.mpr ⟨rfl, text⟩, closes.opening,
      behind, nofun⟩
  | @closing s _ b span opened ho =>
    obtain ⟨line, rest, rfl, text, closes, behind, _⟩ := hb
    refine ⟨.closing b :: line, rest, rfl, forall_mem_cons.mpr ⟨rfl, text⟩, ?_, behind, nofun⟩
    rw [ho]
    exact closes.closing
  | gap _ hr =>
    obtain ⟨line, rest, rfl, text, closes, lines, _⟩ := hb
    exact ⟨line, rest, rfl, text, closes, lines, behind (hg _ _ _ _ hr)⟩
  | @word s c _ w n hc hr =>
    obtain ⟨line, rest, rfl, text, closes, behind, _⟩ := hb
    exact ⟨.word w :: line, rest, rfl, forall_mem_cons.mpr ⟨rfl, text⟩, closes.word w,
      behind, nofun⟩

theorem fromLine_dedents (n : Nat) : FromLine n (List.replicate n (.dedent : TokenKind ω)) := by
  have none : FromLine 0 ([] : List (TokenKind ω)) := ⟨[], [], rfl, .nil, .nil⟩
  have h := none.dedents n
  rwa [Nat.zero_add, append_nil] at h

theorem Stop.lined (h : Stop read a (.ok ts)) (hv : Valid a)
    (ha : Started a) : ∃ ks, ts.map (·.kind) = ks ++ [.eof] ∧ Lined a ks := by
  generalize hr : Except.ok ts = r at h
  cases h with
  | @lineFinish s blanks hb =>
    have resting : (s.pass blanks).closingKinds =
        List.replicate s.blocks.depth .dedent ++ [.eof] := by
      have previous : s.previous = none ∨ s.previous = some .newline := hv.line_previous rfl
      rcases previous with hp | hp <;> simp [closingKinds, pass, hp]
    have closed : (s.pass blanks).opened = [] := hv.line_opened rfl
    rw [Scanner.finish, closed] at hr
    cases hr
    rw [map_kind_token, resting]
    exact ⟨_, rfl, .inl (fromLine_dedents _)⟩
  | @finish s =>
    rcases ha rfl with ⟨k, hp, hk⟩ | ⟨_, _, eq, _⟩
    · unfold Scanner.finish at hr
      split at hr
      next => cases hr
      next closed =>
        cases hr
        have closing : s.closingKinds =
            .newline :: List.replicate s.blocks.depth .dedent ++ [.eof] := by
          rw [closingKinds, hp]
          cases k <;> first | rfl | cases hk
        rw [map_kind_token, closing]
        refine ⟨_, rfl, [], _, rfl, by simp, ?_, .inl (fromLine_dedents _), fun none => ?_⟩
        · rw [closed]
          exact .done .nil
        · rw [none k hp] at hk
          cases hk
    · cases eq
  | dedent | unmatched | misread => cases hr

theorem scan_lined (hg : read.GapsInside) (a : Stage ω) (hv : Valid a) (ha : Started a)
    (h : scan read a = .ok ts) : ∃ ks, ts.map (·.kind) = ks ++ [.eof] ∧ Lined a ks := by
  have run := scan_induction read
    (motive := fun a r => Valid a → Started a → ∀ ts, r = .ok ts →
      ∃ ks, ts.map (·.kind) = ks ++ [.eof] ∧ Lined a ks)
    (fun a r hs hv ha ts hr => (hr ▸ hs).lined hv ha)
    (fun a out b r hs ih hv ha ts hr => by
      obtain ⟨rest, rfl, rfl⟩ := exists_of_map hr
      obtain ⟨ks, hk, lined⟩ := ih (hs.valid hv) (hs.started hg ha) rest rfl
      exact ⟨out.map (·.kind) ++ ks, by rw [map_append, hk, append_assoc],
        hs.lined hg hv ha lined⟩)
  exact run a hv ha ts h

end Scanner

theorem behindLine_of_tokensOf {read : Lexicon ω} (hg : read.GapsInside)
    (h : tokensOf read source = .ok ts) : ∃ ks, ts.map (·.kind) = ks ++ [.eof] ∧ BehindLine 0 ks :=
  Scanner.scan_lined hg ⟨.line, {}, source.toList⟩ (valid_start _) nofun h

/-- A text without gaps whose first line is not indented is made up of statements. -/
theorem statements_of_tokensOf {read : Lexicon ω} (hg : read.Gapless) (h : tokensOf read source = .ok ts)
    (hi : (ts.map (·.kind)).head? ≠ some .indent) :
    ∃ ks, ts.map (·.kind) = ks ++ [.eof] ∧ Statements ks := by
  obtain ⟨ks, hk, lined⟩ := behindLine_of_tokensOf hg.gapsInside h
  refine ⟨ks, hk, ?_⟩
  rcases lined with ⟨inner, more, rfl, he, hs⟩ | ⟨inner, rfl, _⟩
  · have none : inner = [] := by
      cases he
      rfl
    rwa [none, nil_append]
  · exact absurd (by rw [hk]; rfl) hi

/-- The tokens that stand outside all blocks, `depth` of which are open. -/
def outside (depth : Nat) : List (TokenKind ω) → List (TokenKind ω)
  | [] => []
  | .indent :: ks => outside (depth + 1) ks
  | .dedent :: ks => outside (depth - 1) ks
  | k :: ks => if depth = 0 then k :: outside depth ks else outside depth ks

/-- The lines of a text that are not indented, without their ends. -/
def outerLines (ks : List (TokenKind ω)) : List (List (TokenKind ω)) :=
  ((outside 0 ks).splitOnP fun | .newline => true | _ => false).dropLast

section Outer

theorem outside_cons {k : TokenKind ω} (hk : k.isText = true ∨ k = .newline) (depth : Nat)
    (ks : List (TokenKind ω)) :
    outside depth (k :: ks) = if depth = 0 then k :: outside depth ks else outside depth ks := by
  cases k with
  | indent | dedent => simp [TokenKind.isText] at hk
  | _ => rfl

theorem outside_line (text : ∀ k ∈ line, k.isText = true) (ks : List (TokenKind ω)) :
    outside 0 (line ++ .newline :: ks) = line ++ .newline :: outside 0 ks := by
  induction line with
  | nil => exact outside_cons (.inr rfl) 0 ks
  | cons k line ih =>
    obtain ⟨hk, text⟩ := forall_mem_cons.mp text
    rw [cons_append, outside_cons (.inl hk), if_pos rfl, ih text]
    rfl

theorem outside_nested (text : ∀ k ∈ line, k.isText = true) (depth : Nat)
    (ks : List (TokenKind ω)) :
    outside (depth + 1) (line ++ .newline :: ks) = outside (depth + 1) ks := by
  induction line with
  | nil => exact outside_cons (.inr rfl) (depth + 1) ks
  | cons k line ih =>
    obtain ⟨hk, text⟩ := forall_mem_cons.mp text
    rw [cons_append, outside_cons (.inl hk), if_neg (Nat.succ_ne_zero _), ih text]

theorem Ends.outside (h : Ends n ks) (more : List (TokenKind ω)) :
    outside n (ks ++ more) = outside 0 more := by
  induction h with
  | nil => rfl
  | dedent _ ih => exact ih
  | line isLine _ ih =>
    rw [append_assoc, cons_append, outside_nested isLine.text, ih]
  | block isLine _ ih =>
    rw [append_assoc, cons_append, outside_nested isLine.text]
    exact ih

theorem outerLines_line (h : IsLine line) (ks : List (TokenKind ω)) :
    outerLines (line ++ .newline :: ks) = line :: outerLines ks := by
  have inside : ∀ k ∈ line, (match k with | .newline => true | _ => false) = false := by
    intro k hk
    have text := h.text k hk
    cases k with
    | newline => cases text
    | _ => rfl
  rw [outerLines, outside_line h.text, splitOnP_append_cons_of_forall_mem inside _ rfl,
    dropLast_cons_of_ne_nil (splitOnP_ne_nil _ _)]
  rfl

theorem outerLines_block (h : Ends 1 ks) (more : List (TokenKind ω)) :
    outerLines (.indent :: (ks ++ more)) = outerLines more := by
  rw [outerLines, ViewBridge.outside, h.outside]
  rfl

end Outer

end ViewBridge
