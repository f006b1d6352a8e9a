import ViewBridge.Proofs.Source.Writing
import ViewBridge.Text.Outline

namespace ViewBridge.Scanner

/-- The ends of so many blocks. -/
def dedents {ω : Type} (n : Nat) : List (TokenKind ω) := List.replicate n .dedent

end ViewBridge.Scanner

namespace ViewBridge.Indentation

open List

variable {base inner : List Nat}

theorem update_deeper {width : Nat} (h : base.headD 0 < width) :
    (Indentation.mk base).update width = .ok (.indent, ⟨width :: base⟩) := by
  have deeper : (Indentation.mk base).top < width := h
  unfold update
  rw [if_pos deeper]

/-- A line as wide as one of the blocks closes those inside it. -/
theorem exists_update_inner {ω : Type} (hi : ∀ x ∈ inner, base.headD 0 < x) :
    ∃ change, (Indentation.mk (inner ++ base)).update (base.headD 0) = .ok (change, ⟨base⟩) ∧
      Scanner.layoutKinds (ω := ω) change = Scanner.dedents inner.length := by
  cases inner with
  | nil =>
    refine ⟨.same, ?_, rfl⟩
    have top : (Indentation.mk ([] ++ base)).top = base.headD 0 := rfl
    unfold update
    rw [top, if_neg (Nat.lt_irrefl _), if_pos rfl]
    rfl
  | cons x inner =>
    have top : (Indentation.mk (x :: inner ++ base)).top = x := rfl
    have above := hi x mem_cons_self
    have close : (Indentation.mk (x :: inner ++ base)).closeTo (base.headD 0) = ⟨base⟩ := by
      have wider : ∀ y ∈ x :: inner, decide (base.headD 0 < y) = true :=
        fun y hy => decide_eq_true (hi y hy)
      unfold closeTo
      rw [dropWhile_append_of_pos wider]
      cases base with
      | nil => rfl
      | cons y base => rw [dropWhile_cons, if_neg (by simp)]
    refine ⟨.dedent (x :: inner).length, ?_, rfl⟩
    unfold update
    rw [top, if_neg (by omega), if_neg (by omega), close]
    have level : base.headD 0 = (Indentation.mk base).top := rfl
    have closed : (Indentation.mk (x :: inner ++ base)).depth - (Indentation.mk base).depth =
        (x :: inner).length := by
      simp only [depth, length_append]
      omega
    simp only [closed]
    rw [if_pos level]

end ViewBridge.Indentation

namespace ViewBridge.Scanner

open List
open Text (Outline OutlineLine)

variable {ω : Type} {read : Lexicon ω} {shape : TokenKind ω → TokenKind ω} {base : List Nat}
  {blocks blocks' : Indentation} {change : IndentChange} {last : Option (TokenKind ω)}
  {text second rest : List Char} {before ks ls : List (TokenKind ω)} {line : String}

/-- Whether a text is a line of code by itself, with tokens of these kinds. -/
structure LineReads (read : Lexicon ω) (text : String) (ks : List (TokenKind ω)) : Prop where
  starts : ∃ c cs, text.toList = c :: cs ∧ isLayoutChar c = false
  writes : ∀ blocks previous rest, (∀ k ∈ previous, TokenKind.isText k = false) →
    ∃ last, Writes read ⟨.inside, blocks, [], previous⟩ text.toList ('\n' :: rest) ks
      ⟨.inside, blocks, [], last⟩

theorem isText_getLast?_or {change : IndentChange} {previous : Option (TokenKind ω)}
    (hp : ∀ k ∈ previous, TokenKind.isText k = false) :
    ∀ k ∈ (layoutKinds change).getLast?.or previous, TokenKind.isText k = false := by
  intro k hk
  rcases Option.or_eq_some_iff.mp hk with h | ⟨_, h⟩
  · exact (layoutKinds_isText k (List.mem_of_getLast? h)).1
  · exact hp k h

theorem indentWidth_replicate (n : Nat) : indentWidth (List.replicate n ' ') = n := by
  have columns : indentWidth (List.replicate n ' ') = (List.replicate n (indentColumns ' ')).sum := by
    rw [indentWidth, List.map_replicate, List.sum_eq_foldr]
  rw [columns, List.sum_replicate_nat]
  exact Nat.mul_one n

def AtLineStart (previous : Option (TokenKind ω)) : Prop :=
  previous = none ∨ previous = some .newline

theorem AtLineStart.isText {previous : Option (TokenKind ω)} (h : AtLineStart previous) :
    ∀ k ∈ previous, TokenKind.isText k = false := by
  rcases h with rfl | rfl <;> simp [TokenKind.isText]

/-- The blanks of a line in front of the text that is written behind them. -/
theorem writes_margin {width : Nat} {v : View ω}
    (hu : blocks.update width = .ok (change, blocks'))
    (starts : ∃ c cs, text = c :: cs ∧ isLayoutChar c = false)
    (h : Writes read ⟨.inside, blocks', [], (layoutKinds change).getLast?.or last⟩ text rest ks
      v) :
    Writes read ⟨.line, blocks, [], last⟩ (List.replicate width ' ' ++ text) rest
      (layoutKinds change ++ ks) v := by
  obtain ⟨c, cs, rfl, hc⟩ := starts
  have blanks : ∀ b ∈ List.replicate width ' ', isIndent b = true := by
    intro b hb
    rw [eq_of_mem_replicate hb]
    rfl
  rw [← indentWidth_replicate width] at hu
  exact (writes_layout blanks hc hu).trans h

/-- Lines at the level of the innermost of some blocks. The blocks that they leave open are closed by
the line that comes next, and their kinds are those of `ks` up to what `shape` leaves out. -/
def Lays (read : Lexicon ω) (shape : TokenKind ω → TokenKind ω) (blocks : Indentation)
    (before : List (TokenKind ω)) (base : List Nat) (text : List Char) (ks : List (TokenKind ω)) :
    Prop :=
  ∀ last rest, AtLineStart last → ∃ out inner last', (∀ x ∈ inner, base.headD 0 < x) ∧
    AtLineStart last' ∧
    Writes read ⟨.line, blocks, [], last⟩ text rest out ⟨.line, ⟨inner ++ base⟩, [], last'⟩ ∧
    (out ++ dedents inner.length).map shape = (before ++ ks).map shape

/-- Such lines behind others that may be deeper. -/
def Stands (read : Lexicon ω) (shape : TokenKind ω → TokenKind ω) (base : List Nat)
    (text : List Char) (ks : List (TokenKind ω)) : Prop :=
  ∀ inner, (∀ x ∈ inner, base.headD 0 < x) →
    Lays read shape ⟨inner ++ base⟩ (dedents inner.length) base text ks

/-- Such lines behind any that they can follow; the first of them may open a block. -/
def Begins (read : Lexicon ω) (shape : TokenKind ω → TokenKind ω) (base : List Nat)
    (text : List Char) (ks : List (TokenKind ω)) : Prop :=
  ∀ blocks change, blocks.update (base.headD 0) = .ok (change, ⟨base⟩) →
    Lays read shape blocks (layoutKinds change) base text ks

theorem stands_nil : Stands read shape base [] [] :=
  fun inner hi last rest hl => ⟨[], inner, last, hi, hl, .refl _ rest, by rw [append_nil]; rfl⟩

theorem stands_emptyLine (base : List Nat) : Stands read shape base ['\n'] [] :=
  fun inner hi last rest hl =>
    ⟨[], inner, last, hi, hl, writes_emptyLine rest, by rw [append_nil]; rfl⟩

theorem Lays.append (h : Lays read shape blocks before base text ks)
    (hs : Stands read shape base second ls) :
    Lays read shape blocks before base (text ++ second) (ks ++ ls) := by
  intro last rest hl
  obtain ⟨out, inner, last', hi, hl', writes, eq⟩ := h last (second ++ rest) hl
  obtain ⟨more, inner', last'', hi', hl'', writes', eq'⟩ := hs inner hi last' rest hl'
  refine ⟨out ++ more, inner', last'', hi', hl'', writes.trans writes', ?_⟩
  calc (out ++ more ++ dedents inner'.length).map shape
      = out.map shape ++ (more ++ dedents inner'.length).map shape := by
        rw [append_assoc, map_append]
    _ = (out ++ dedents inner.length).map shape ++ ls.map shape := by
        rw [eq', map_append, map_append, append_assoc]
    _ = (before ++ (ks ++ ls)).map shape := by
        rw [eq, ← map_append, append_assoc]

theorem Stands.append (h : Stands read shape base text ks) (hs : Stands read shape base second ls) :
    Stands read shape base (text ++ second) (ks ++ ls) :=
  fun inner hi => (h inner hi).append hs

theorem Begins.append (h : Begins read shape base text ks) (hs : Stands read shape base second ls) :
    Begins read shape base (text ++ second) (ks ++ ls) :=
  fun blocks change hu => (h blocks change hu).append hs

theorem Begins.stands (h : Begins read shape base text ks) : Stands read shape base text ks := by
  intro inner hi
  obtain ⟨change, hu, hk⟩ := Indentation.exists_update_inner (ω := ω) hi
  exact hk ▸ h _ change hu

/-- A text that is written behind the blanks of its first line, with the end of its last one. -/
theorem exists_writes_line (hu : blocks.update (base.headD 0) = .ok (change, ⟨base⟩))
    (hl : AtLineStart last) (h : LineReads read line ks) (rest : List Char) :
    Writes read ⟨.line, blocks, [], last⟩
      (replicate (base.headD 0) ' ' ++ line.toList ++ ['\n']) rest
      (layoutKinds change ++ ks ++ [.newline]) ⟨.line, ⟨base⟩, [], some .newline⟩ := by
  obtain ⟨stop, writes⟩ := h.writes ⟨base⟩ ((layoutKinds change).getLast?.or last) rest
    (isText_getLast?_or hl.isText)
  exact (writes_margin hu h.starts writes).trans (writes_newline rest)

theorem begins_line (h : LineReads read line ks) :
    Begins read shape base (replicate (base.headD 0) ' ' ++ line.toList ++ ['\n'])
      (ks ++ [.newline]) := by
  intro blocks change hu last rest hl
  refine ⟨_, [], some .newline, nofun, .inr rfl, exists_writes_line hu hl h rest, ?_⟩
  rw [← append_assoc]
  exact congrArg (List.map shape) (append_nil _)

/-- A line with a block below it, perhaps behind a gap. -/
theorem Begins.block {width : Nat} {gap body : List Char} (header : LineReads read line ks)
    (deeper : base.headD 0 < width)
    (hg : ∀ rest, Writes read ⟨.line, ⟨base⟩, [], some .newline⟩ gap rest []
      ⟨.line, ⟨base⟩, [], some .newline⟩) (h : Begins read shape (width :: base) body ls) :
    Begins read shape base
      (replicate (base.headD 0) ' ' ++ line.toList ++ ['\n'] ++ (gap ++ body))
      (ks ++ [.newline] ++ .indent :: (ls ++ [.dedent])) := by
  intro blocks change hu last rest hl
  have first := exists_writes_line hu hl header (gap ++ body ++ rest)
  obtain ⟨out, inner, last', hi, hl', writes, eq⟩ :=
    h _ _ (Indentation.update_deeper deeper) (some .newline) rest (.inr rfl)
  have lines := (hg (body ++ rest)).trans writes
  refine ⟨layoutKinds change ++ ks ++ [.newline] ++ ([] ++ out), inner ++ [width], last', ?_, hl', ?_,
    ?_⟩
  · exact forall_mem_append.mpr
      ⟨fun x hx => Nat.lt_trans deeper (hi x hx), forall_mem_singleton.mpr deeper⟩
  · rw [append_assoc inner]
    exact first.trans lines
  · have closed := congrArg (· ++ [shape .dedent]) eq
    simp only [dedents, length_append, length_singleton, replicate_succ'] at closed ⊢
    simpa [layoutKinds] using closed

/-- A line of text with the kinds of its tokens, and the block below it. -/
inductive Branch (ω : Type) where
  | node (text : String) (kinds : List (TokenKind ω)) (inner : List (Branch ω))

mutual

def Branch.outline (depth : Nat) : Branch ω → Outline
  | .node text _ inner => .line depth text :: branchesOutline (depth + 1) inner

def branchesOutline (depth : Nat) : List (Branch ω) → Outline
  | [] => []
  | b :: bs => b.outline depth ++ branchesOutline depth bs

end

mutual

/-- The kinds of the tokens of a branch, with marks around the block below its line. -/
def Branch.kinds : Branch ω → List (TokenKind ω)
  | .node _ ks [] => ks ++ [.newline]
  | .node _ ks (b :: bs) => ks ++ .newline :: .indent :: (b.kinds ++ branchesKinds bs ++ [.dedent])

def branchesKinds : List (Branch ω) → List (TokenKind ω)
  | [] => []
  | b :: bs => b.kinds ++ branchesKinds bs

end

inductive Branch.Legible (read : Lexicon ω) : Branch ω → Prop
  | node {text ks inner} : LineReads read text ks → (∀ b ∈ inner, Legible read b) →
      Legible read (.node text ks inner)

theorem render_cons (width : Nat) (line : OutlineLine) (lines : Outline) :
    (Outline.render width (line :: lines)).toList =
      (line.render width).toList ++ (Outline.render width lines).toList := by
  simp [Outline.render]

theorem render_append (width : Nat) (first second : Outline) :
    (Outline.render width (first ++ second)).toList =
      (Outline.render width first).toList ++ (Outline.render width second).toList := by
  simp [Outline.render]

theorem render_line (width depth : Nat) (line : String) :
    ((OutlineLine.line depth line).render width).toList =
      replicate (depth * width) ' ' ++ line.toList ++ ['\n'] := by
  simp [OutlineLine.render]

mutual

theorem Branch.begins {width : Nat} (hw : 0 < width) (b : Branch ω) (hb : b.Legible read)
    {depth : Nat} {base : List Nat} (level : base.headD 0 = depth * width) :
    Begins read shape base (Outline.render width (b.outline depth)).toList b.kinds := by
  match b, hb with
  | .node text ks [], .node hr _ =>
    have line : Begins read shape base _ _ := begins_line hr
    rw [level] at line
    simpa [Branch.outline, branchesOutline, Outline.render, render_line, Branch.kinds] using line
  | .node text ks (b :: bs), .node hr hi =>
    have deeper : base.headD 0 < (depth + 1) * width := by
      rw [level]
      exact Nat.mul_lt_mul_of_pos_right (Nat.lt_succ_self depth) hw
    have first := b.begins hw (hi b (by simp)) (rfl : (_ :: base).headD 0 = (depth + 1) * width)
    have inner := first.append (branches_stand hw bs (fun b hm => hi b (by simp [hm])) rfl)
    have block := Begins.block hr deeper (fun rest => .refl _ rest) inner
    rw [level, ← render_append] at block
    simpa [Branch.outline, branchesOutline, render_cons, render_line, Branch.kinds] using block

theorem branches_stand {width : Nat} (hw : 0 < width) (bs : List (Branch ω))
    (hb : ∀ b ∈ bs, b.Legible read) {depth : Nat} {base : List Nat}
    (level : base.headD 0 = depth * width) :
    Stands read shape base (Outline.render width (branchesOutline depth bs)).toList
      (branchesKinds bs) := by
  match bs with
  | [] => exact stands_nil
  | b :: bs =>
    have first := (b.begins hw (hb b (by simp)) level).stands
    have lines := first.append (branches_stand hw bs (fun b hm => hb b (by simp [hm])) level)
    rw [← render_append] at lines
    exact lines

end

theorem separated_stand {width : Nat} (hw : 0 < width) (bs : List (Branch ω))
    (hb : ∀ b ∈ bs, b.Legible read) :
    Stands read shape []
      (Outline.render width (Outline.separated (bs.map (·.outline 0)))).toList (branchesKinds bs) := by
  have outermost : ([] : List Nat).headD 0 = 0 * width := (Nat.zero_mul width).symm
  induction bs with
  | nil => exact stands_nil
  | cons b bs ih =>
    have first : Stands read shape [] _ _ := (b.begins hw (hb b (by simp)) outermost).stands
    cases bs with
    | nil => simpa [Outline.separated, branchesKinds] using first
    | cons b' bs =>
      have others := (stands_emptyLine []).append (ih fun b hm => hb b (by simp [hm]))
      simpa [Outline.separated, branchesKinds, render_append, render_cons, OutlineLine.render]
        using first.append others

/-- The tokens of a text that is made of lines outside all blocks. -/
theorem tokensOf_of_stands {source : String} (h : Stands read shape [] source.toList ks) :
    ∃ ts, tokensOf read source = .ok ts ∧
      (ts.map (·.kind)).map shape = (ks ++ [TokenKind.eof]).map shape := by
  obtain ⟨out, inner, last, _, hl, writes, eq⟩ := h [] nofun none [] (.inl rfl)
  obtain ⟨ts, ht, hk⟩ := tokensOf_of_writes writes rfl
  rw [String.ofList_toList] at ht
  have closing : closingKinds { blocks := ⟨inner ++ []⟩, previous := last } =
      dedents inner.length ++ [.eof] := by
    rcases hl with rfl | rfl <;> simp [closingKinds, dedents, Indentation.depth]
  refine ⟨ts, ht, ?_⟩
  rw [hk, closing, ← append_assoc, map_append, eq, ← map_append]
  rfl

theorem tokensOf_separated {width : Nat} (hw : 0 < width) (bs : List (Branch ω))
    (hb : ∀ b ∈ bs, b.Legible read) :
    ∃ ts, tokensOf read (Outline.render width (Outline.separated (bs.map (·.outline 0)))) = .ok ts ∧
      ts.map (·.kind) = branchesKinds bs ++ [.eof] := by
  have stands : Stands read id [] _ _ := separated_stand hw bs hb
  obtain ⟨ts, ht, hk⟩ := tokensOf_of_stands stands
  exact ⟨ts, ht, by rwa [map_id, map_id] at hk⟩

end ViewBridge.Scanner
