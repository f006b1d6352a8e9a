import ViewBridge.Proofs.Source.Run

namespace ViewBridge

open List

variable {ω : Type}

/-- Tokens between two brackets of a kind: words and groups in brackets, nothing of the layout. -/
inductive Enclosed : List (TokenKind ω) → Prop
  | nil : Enclosed []
  | word {ks} (w : ω) : Enclosed ks → Enclosed (.word w :: ks)
  | group {inner ks} (b : Bracket) : Enclosed inner → Enclosed ks →
      Enclosed (.opening b :: (inner ++ .closing b :: ks))

theorem Enclosed.append {ks ls : List (TokenKind ω)} (h : Enclosed ks) (hl : Enclosed ls) :
    Enclosed (ks ++ ls) := by
  induction h with
  | nil => exact hl
  | word w _ ih => exact .word w ih
  | group b hi _ _ ih =>
    rw [cons_append, append_assoc, cons_append]
    exact .group b hi ih

theorem Enclosed.isText {ks : List (TokenKind ω)} (h : Enclosed ks) :
    ∀ k ∈ ks, k.isText = true := by
  induction h with
  | nil => exact forall_mem_nil _
  | word w _ ih => exact forall_mem_cons.mpr ⟨rfl, ih⟩
  | group b _ _ ihi ih =>
    refine forall_mem_cons.mpr ⟨rfl, ?_⟩
    exact forall_mem_append.mpr ⟨ihi, forall_mem_cons.mpr ⟨rfl, ih⟩⟩

/-- Tokens whose brackets are nested and matched in kind, with no layout inside them. -/
inductive Nested : List (TokenKind ω) → Prop
  | nil : Nested []
  | word {ks} (w : ω) : Nested ks → Nested (.word w :: ks)
  | layout {k ks} : k.isText = false → Nested ks → Nested (k :: ks)
  | group {inner ks} (b : Bracket) : Enclosed inner → Nested ks →
      Nested (.opening b :: (inner ++ .closing b :: ks))

/-- Blocks that are opened before they are closed, and are all closed at the end. -/
structure BlocksBalanced (ks : List (TokenKind ω)) : Prop where
  opened : ∀ before after, ks = before ++ after →
    before.countP TokenKind.isDedent ≤ before.countP TokenKind.isIndent
  closed : ks.countP TokenKind.isDedent = ks.countP TokenKind.isIndent

/-- A last line end, with nothing but the ends of blocks between it and the end of the text. -/
def EndsLine (ks : List (TokenKind ω)) : Prop :=
  ∃ before n, ks = before ++ .newline :: (List.replicate n .dedent ++ [.eof])

/-- The form of every list of tokens that a text can have. -/
structure Skeleton (ks : List (TokenKind ω)) : Prop where
  eof_last : ∃ before, ks = before ++ [.eof] ∧ .eof ∉ before
  blocks : BlocksBalanced ks
  indent_place : ∀ before after, ks = before ++ .indent :: after →
    before = [] ∨ before.getLast? = some .newline
  dedent_place : ∀ before after, ks = before ++ .dedent :: after →
    before.getLast? = some .newline ∨ before.getLast? = some .dedent
  brackets : Nested ks
  ending : ks ≠ [.eof] → EndsLine ks

/-- Indentation and its ends stand where they may, behind a given token. -/
def Placed : Option (TokenKind ω) → List (TokenKind ω) → Prop
  | _, [] => True
  | previous, k :: ks =>
    (k = .indent → previous = none ∨ previous = some .newline) ∧
      (k = .dedent → previous = some .newline ∨ previous = some .dedent) ∧ Placed (some k) ks

variable {ks os : List (TokenKind ω)} {s s' : Scanner ω} {read : Lexicon ω} {a : Scanner.Stage ω}
  {ts out : List (Token ω)} {previous : Option (TokenKind ω)} {bs : List Bracket} {b : Bracket}
  {k : TokenKind ω}

theorem Placed.append {before after : List (TokenKind ω)}
    (h : Placed previous (before ++ after)) : Placed (before.getLast?.or previous) after := by
  induction before generalizing previous with
  | nil => exact h
  | cons k before ih =>
    have hrest := ih h.2.2
    simpa [getLast?_cons] using hrest

theorem Placed.concat (ho : Placed previous os) (hk : Placed (os.getLast?.or previous) ks) :
    Placed previous (os ++ ks) := by
  induction os generalizing previous with
  | nil => exact hk
  | cons k os ih =>
    refine ⟨ho.1, ho.2.1, ih ho.2.2 ?_⟩
    simpa [getLast?_cons] using hk

/-- Tokens that close the brackets of a list, the innermost first. -/
inductive Closes : List Bracket → List (TokenKind ω) → Prop
  | done {ks : _} : Nested ks → Closes [] ks
  | close {b bs inner ks : _} : Enclosed inner → Closes bs ks →
      Closes (b :: bs) (inner ++ .closing b :: ks)

theorem Closes.word (w : ω) (h : Closes bs ks) : Closes bs (.word w :: ks) := by
  cases h with
  | done hn => exact .done (.word w hn)
  | close hi hc => exact .close (.word w hi) hc

theorem Closes.opening (h : Closes (b :: bs) ks) : Closes bs (.opening b :: ks) := by
  cases h with
  | close hi hc =>
    cases hc with
    | done hn => exact .done (.group b hi hn)
    | @close b' bs' inner' ks' hi' hc' =>
      have hg := Closes.close (b := b') (Enclosed.group b hi hi') hc'
      simpa using hg

theorem Closes.closing (h : Closes bs ks) : Closes (b :: bs) (.closing b :: ks) :=
  .close .nil h

theorem Closes.layout (hk : k.isText = false) (h : Closes [] ks) : Closes [] (k :: ks) := by
  cases h with
  | done hn => exact .done (.layout hk hn)

theorem Closes.layouts {kinds : List (TokenKind ω)} (hk : ∀ k ∈ kinds, k.isText = false)
    (h : Closes [] ks) : Closes [] (kinds ++ ks) := by
  induction kinds with
  | nil => exact h
  | cons k kinds ih =>
    exact .layout (hk k (by simp)) (ih fun k' hm => hk k' (by simp [hm]))

theorem EndsLine.append (before : List (TokenKind ω)) (h : EndsLine ks) : EndsLine (before ++ ks) := by
  obtain ⟨before', n, rfl⟩ := h
  exact ⟨before ++ before', n, by simp⟩

namespace Scanner

variable {blocks : Indentation} {width : Nat} {change : IndentChange} {i : Indentation}

/-- What every move keeps: a line starts outside brackets and behind a line end, and blocks are
open only behind some token. -/
structure Valid (a : Stage ω) : Prop where
  line_opened : a.mode = .line → a.scanner.opened = []
  line_previous : a.mode = .line →
    a.scanner.previous = none ∨ a.scanner.previous = some .newline
  first : a.scanner.previous = none → a.scanner.blocks.depth = 0

/-- How the tokens behind a stage fit what is open there. -/
structure Follows (s : Scanner ω) (ks : List (TokenKind ω)) : Prop where
  eof_last : ∃ before, ks = before ++ [.eof] ∧ .eof ∉ before
  opened : ∀ before after, ks = before ++ after →
    before.countP TokenKind.isDedent ≤ s.blocks.depth + before.countP TokenKind.isIndent
  closed : ks.countP TokenKind.isDedent = s.blocks.depth + ks.countP TokenKind.isIndent
  placed : Placed s.previous ks
  brackets : Closes (s.opened.map (·.1)) ks
  ending : EndsLine (s.previous.toList ++ ks) ∨ s.previous = none ∧ ks = [.eof]

theorem update_depth (h : i.update width = .ok (change, blocks)) :
    blocks.depth + (layoutKinds (ω := ω) change).countP TokenKind.isDedent =
      i.depth + (layoutKinds (ω := ω) change).countP TokenKind.isIndent := by
  unfold Indentation.update at h
  split at h
  next =>
    cases h
    simp [layoutKinds, Indentation.depth, TokenKind.isIndent, TokenKind.isDedent]
  next =>
    split at h
    next =>
      cases h
      rfl
    next =>
      simp only at h
      split at h
      next =>
        cases h
        have hle : (i.closeTo width).depth ≤ i.depth := (dropWhile_sublist _).length_le
        simp [layoutKinds, TokenKind.isIndent, TokenKind.isDedent, countP_replicate]
        omega
      next => cases h

theorem update_closed_pos {closed : Nat} (h : i.update width = .ok (.dedent closed, blocks))
    (hc : closed ≠ 0) : i.depth ≠ 0 := by
  have hd := update_depth (ω := Unit) h
  simp [layoutKinds, TokenKind.isIndent, TokenKind.isDedent, countP_replicate] at hd
  omega

/-- Tokens in front of those that fit the next stage fit the stage before. -/
theorem Follows.prepend (h : Follows s' ks)
    (previous : s'.previous = os.getLast?.or s.previous) (text : .eof ∉ os)
    (opened : ∀ before after, os = before ++ after →
      before.countP TokenKind.isDedent ≤ s.blocks.depth + before.countP TokenKind.isIndent)
    (depth : s'.blocks.depth + os.countP TokenKind.isDedent =
      s.blocks.depth + os.countP TokenKind.isIndent)
    (placed : Placed s.previous os) (brackets : Closes (s.opened.map (·.1)) (os ++ ks)) :
    Follows s (os ++ ks) where
  eof_last := by
    obtain ⟨before, rfl, hn⟩ := h.eof_last
    exact ⟨os ++ before, by simp, by simp [text, hn]⟩
  opened := by
    intro before after eq
    rcases append_eq_append_iff.mp eq with ⟨more, rfl, rest⟩ | ⟨more, rfl, rest⟩
    · have hb := h.opened more after rest
      simp only [countP_append]
      omega
    · exact opened before more rfl
  closed := by
    have hc := h.closed
    simp only [countP_append]
    omega
  placed := placed.concat (previous ▸ h.placed)
  brackets := brackets
  ending := by
    cases hl : os.getLast? with
    | none =>
      obtain rfl := getLast?_eq_none_iff.mp hl
      simpa [previous] using h.ending
    | some k =>
      obtain ⟨front, rfl⟩ := getLast?_eq_some_iff.mp hl
      rcases h.ending with he | he
      · left
        simp only [previous, hl, Option.some_or, Option.toList_some] at he
        simpa using he.append (s.previous.toList ++ front)
      · simp [previous] at he

theorem Step.valid {b : Stage ω} (h : Step read a out b) (hv : Valid a) : Valid b := by
  have hline := hv.line_opened
  have hprevious := hv.line_previous
  have hfirst := hv.first
  cases h with
  | emptyLine | commentLine => exact ⟨hline, hprevious, hfirst⟩
  | @layout s blanks c rest change blocks _ _ hu =>
    refine ⟨nofun, nofun, ?_⟩
    intro hn
    simp only [Option.or_eq_none_iff, getLast?_eq_none_iff] at hn
    have hd := update_depth (ω := ω) hu
    have h0 := hfirst hn.2
    simp only at h0 hd ⊢
    rw [hn.1] at hd
    simpa [h0] using hd
  | blank | joinedLine | comment | gap => exact ⟨nofun, nofun, hfirst⟩
  | lineEnd ho => exact ⟨fun _ => ho, fun _ => .inr rfl, nofun⟩
  | opening | closing | word => exact ⟨nofun, nofun, nofun⟩

theorem placed_replicate_dedent (n : Nat)
    (h : n ≠ 0 → previous = some .newline ∨ previous = some .dedent) :
    Placed previous (List.replicate n .dedent) := by
  induction n generalizing previous with
  | zero => trivial
  | succ n ih => exact ⟨nofun, fun _ => h n.succ_ne_zero, ih fun _ => .inr rfl⟩

/-- The marks of a change of indentation fit the start of a line. -/
theorem layout_follows {place : Position}
    (hline : s.opened = []) (hprevious : s.previous = none ∨ s.previous = some .newline)
    (hfirst : s.previous = none → s.blocks.depth = 0)
    (hu : s.blocks.update width = .ok (change, blocks))
    (hf : Follows ⟨place, blocks, s.opened, (layoutKinds change).getLast?.or s.previous⟩ ks) :
    Follows s (layoutKinds change ++ ks) := by
  have hd := update_depth (ω := ω) hu
  refine hf.prepend rfl (fun hm => (layoutKinds_isText _ hm).2 rfl) ?_ hd ?_ ?_
  · intro before after eq
    have hc := congrArg (List.countP TokenKind.isDedent) eq
    rw [countP_append] at hc
    cases change with
    | same | indent =>
      simp [layoutKinds, TokenKind.isDedent] at hc
      omega
    | dedent n =>
      simp [layoutKinds, TokenKind.isDedent, TokenKind.isIndent, countP_replicate] at hc hd
      omega
  · cases change with
    | same => trivial
    | indent => exact ⟨fun _ => hprevious, by simp, trivial⟩
    | dedent n =>
      apply placed_replicate_dedent
      intro hn
      have hpos := update_closed_pos hu hn
      rcases hprevious with hp | hp
      · exact absurd (hfirst hp) hpos
      · exact .inl hp
  · have hb := hf.brackets
    simp only [hline, map_nil] at hb ⊢
    exact hb.layouts fun k hk => (layoutKinds_isText k hk).1

theorem Follows.prepend_one
    (h : Follows s' ks) (previous : s'.previous = some k) (blocks : s'.blocks = s.blocks)
    (hk : k ≠ .eof ∧ k ≠ .indent ∧ k ≠ .dedent)
    (brackets : Closes (s.opened.map (·.1)) (k :: ks)) : Follows s (k :: ks) := by
  have hi : TokenKind.isIndent k = false := by
    cases k <;> simp_all [TokenKind.isIndent]
  have hd : TokenKind.isDedent k = false := by
    cases k <;> simp_all [TokenKind.isDedent]
  change Follows s ([k] ++ ks)
  refine h.prepend (by simp [previous]) (by simp [hk.1.symm]) ?_ ?_ ?_ brackets
  · intro before after eq
    have hc := congrArg (List.countP TokenKind.isDedent) eq
    simp [countP_append, hd] at hc
    omega
  · simp [blocks, hi, hd]
  · exact ⟨fun e => absurd e hk.2.1, fun e => absurd e hk.2.2, trivial⟩

theorem Step.follows {b : Stage ω} (h : Step read a out b) (hv : Valid a)
    (hf : Follows b.scanner ks) : Follows a.scanner (out.map (·.kind) ++ ks) := by
  have hbrackets := hf.brackets
  cases h with
  | emptyLine | commentLine | blank | joinedLine | comment | gap =>
    exact ⟨hf.eof_last, hf.opened, hf.closed, hf.placed, hf.brackets, hf.ending⟩
  | layout _ _ hu =>
    have hm := layout_follows (hv.line_opened rfl) (hv.line_previous rfl) hv.first hu hf
    simpa [Function.comp_def, token] using hm
  | lineEnd ho =>
    refine hf.prepend_one rfl rfl (by simp [token]) ?_
    simp only [emit, pass, ho, map_nil] at hbrackets ⊢
    exact hbrackets.layout rfl
  | opening b => exact hf.prepend_one rfl rfl (by simp [token]) hbrackets.opening
  | closing ho =>
    refine hf.prepend_one rfl rfl (by simp [token]) ?_
    rw [ho]
    exact hbrackets.closing
  | word => exact hf.prepend_one rfl rfl (by simp [token]) (hbrackets.word _)

theorem dedents_follow (ho : s.opened = [])
    (hp : s.previous = some .newline ∨ s.previous = none ∧ s.blocks.depth = 0) :
    Follows s (List.replicate s.blocks.depth .dedent ++ [.eof]) where
  eof_last := ⟨_, rfl, by simp⟩
  opened := by
    intro before after eq
    have hc := congrArg (List.countP TokenKind.isDedent) eq
    simp [countP_append, countP_replicate, TokenKind.isDedent] at hc
    omega
  closed := by simp [countP_replicate, TokenKind.isDedent, TokenKind.isIndent]
  placed := by
    refine (placed_replicate_dedent _ ?_).concat ⟨nofun, nofun, trivial⟩
    intro hn
    rcases hp with hp | hp
    · exact .inl hp
    · exact absurd hp.2 hn
  brackets := by
    rw [ho]
    refine Closes.layouts ?_ (.layout rfl (.done .nil))
    intro k hk
    rw [eq_of_mem_replicate hk]
    rfl
  ending := by
    rcases hp with hp | hp
    · exact .inl ⟨[], s.blocks.depth, by simp [hp]⟩
    · exact .inr ⟨hp.1, by simp [hp.2]⟩

theorem finish_follows (hfirst : s.previous = none → s.blocks.depth = 0) (h : s.finish = .ok ts) :
    Follows s (ts.map (·.kind)) := by
  unfold finish at h
  split at h
  next => cases h
  next ho =>
    cases h
    have hkinds : (s.closingKinds.map (s.token · [])).map (·.kind) = s.closingKinds := by
      simp [Function.comp_def, token]
    rw [hkinds, closingKinds]
    split
    next hp => exact dedents_follow ho (.inr ⟨hp, hfirst hp⟩)
    next hp => exact dedents_follow ho (.inl hp)
    next k hk hp =>
      have hf := dedents_follow (s := s.emit .newline []) ho (.inl rfl)
      refine hf.prepend_one rfl rfl (by simp) ?_
      have hb := hf.brackets
      simp only [emit, pass, ho, map_nil] at hb ⊢
      exact hb.layout rfl

theorem Stop.follows (h : Stop read a (.ok ts)) (hv : Valid a) : Follows a.scanner (ts.map (·.kind)) := by
  generalize hr : Except.ok ts = r at h
  cases h with
  | lineFinish hb =>
    have hf := finish_follows (s := Scanner.pass _ _) hv.first hr.symm
    exact ⟨hf.eof_last, hf.opened, hf.closed, hf.placed, hf.brackets, hf.ending⟩
  | finish => exact finish_follows hv.first hr.symm
  | dedent | unmatched | misread => cases hr

theorem scan_follows (hv : Valid a) (h : scan read a = .ok ts) : Follows a.scanner (ts.map (·.kind)) := by
  have hrun := scan_induction read
    (motive := fun a r => Valid a → ∀ ts, r = .ok ts → Follows a.scanner (ts.map (·.kind)))
    (fun a r hs hv ts hr => (hr ▸ hs).follows hv)
    (fun a out b r hs ih hv ts hr => by
      cases r with
      | error fault => cases hr
      | ok rest =>
        cases hr
        rw [map_append]
        exact hs.follows hv (ih (hs.valid hv) rest rfl))
  exact hrun a hv ts h

end Scanner

/-- The tokens of a text have their form whatever words its language has. -/
theorem skeleton_of_tokensOf {source : String}
    (h : tokensOf read source = .ok ts) : Skeleton (ts.map (·.kind)) := by
  have hv : Scanner.Valid (ω := ω) ⟨.line, {}, source.toList⟩ :=
    ⟨fun _ => rfl, fun _ => .inl rfl, fun _ => rfl⟩
  have hf := Scanner.scan_follows hv h
  refine ⟨hf.eof_last, ⟨?_, ?_⟩, ?_, ?_, ?_, ?_⟩
  · intro before after eq
    simpa [Indentation.depth] using hf.opened before after eq
  · simpa [Indentation.depth] using hf.closed
  · intro before after eq
    have hp := ((eq ▸ hf.placed).append).1 rfl
    simpa using hp
  · intro before after eq
    have hp := ((eq ▸ hf.placed).append).2.1 rfl
    simpa using hp
  · cases hf.brackets with
    | done hn => exact hn
  · intro hne
    rcases hf.ending with he | he
    · exact he
    · exact absurd he.2 hne

end ViewBridge
