import ViewBridge.Proofs.Locality

namespace ViewBridge

open List

variable {ω : Type}

/-- Text that makes no token joins two lines, whatever follows it. -/
def Lexicon.JoinsLines (read : Lexicon ω) : Prop :=
  ∀ previous c cs n, read previous c cs = .ok (.gap n) →
    c = '\\' ∧ ∃ join rest, cs = join ++ rest ∧ n = join.length ∧
      (join = ['\n'] ∨ join = ['\r', '\n']) ∧
      ∀ more, read previous c (join ++ more) = .ok (.gap n)

/-- Two scans with tokens of the same kinds, or with the same fault at places of their own. -/
inductive SameScan : Except Fault (List (Token ω)) → Except Fault (List (Token ω)) → Prop
  | ok {ts us} : ts.map (·.kind) = us.map (·.kind) → SameScan (.ok ts) (.ok us)
  | error {f s t} : SameScan (.error (.lex f s)) (.error (.lex f t))

/-- A line of blanks, which may end in a comment. -/
def IsBlankLine (line : String) : Prop :=
  ∃ blanks remark : List Char, (∀ c ∈ blanks, c = ' ' ∨ c = '\t') ∧
    (remark = [] ∨ ∃ words, remark = '#' :: words ∧ '\n' ∉ words) ∧
    line.toList = blanks ++ remark ++ ['\n']

variable {a b a' : Scanner.Stage ω} {out : List (Token ω)} {r : Except Fault (List (Token ω))}
  {line : String}

theorem SameScan.map {r' : Except Fault (List (Token ω))} (h : SameScan r r')
    {out' : List (Token ω)} (ho : out.map (·.kind) = out'.map (·.kind)) :
    SameScan (r.map (out ++ ·)) (r'.map (out' ++ ·)) := by
  cases h with
  | ok hk => exact .ok (by rw [map_append, map_append, ho, hk])
  | error => exact .error

namespace Scanner

variable {read : Lexicon ω}

/-- Two stages before the same text that differ in nothing but places. -/
structure Aligned (a b : Stage ω) : Prop extends Near a b where
  behind : a.scanner.previous = b.scanner.previous

theorem Step.previous_eq (h : Step read a out b) :
    b.scanner.previous = (out.map (·.kind)).getLast?.or a.scanner.previous := by
  cases h with
  | layout => rw [map_kind_token]
  | _ => rfl

theorem Step.aligned (hb : read.LayoutBlind) (h : Step read a out b) (ha : Aligned a a') :
    ∃ out' b', Step read a' out' b' ∧ out.map (·.kind) = out'.map (·.kind) ∧ Aligned b b' := by
  obtain ⟨out', b', step, kinds, near⟩ := h.near hb ha.toNear
  refine ⟨out', b', step, kinds.symm, near, ?_⟩
  rw [h.previous_eq, step.previous_eq, kinds, ha.behind]

theorem finish_same {s t : Scanner ω} (blocks : s.blocks = t.blocks)
    (opened : s.opened.map (·.1) = t.opened.map (·.1)) (previous : s.previous = t.previous) :
    SameScan s.finish t.finish := by
  unfold finish
  cases hs : s.opened with
  | nil =>
    rw [hs] at opened
    rw [map_eq_nil_iff.mp opened.symm]
    refine .ok ?_
    rw [map_kind_token, map_kind_token, closingKinds, closingKinds, blocks, previous]
  | cons entry rest =>
    rw [hs] at opened
    obtain ⟨entry', rest', ht, same, _⟩ := map_eq_cons_iff.mp opened.symm
    rw [ht]
    dsimp only
    rw [same]
    exact .error

theorem Stop.aligned (h : Stop read a r) (ha : Aligned a a') : ∃ r', Stop read a' r' ∧ SameScan r r' := by
  obtain ⟨mode', s', cs'⟩ := a'
  obtain ⟨⟨rfl, rfl, hblocks, hopened, _⟩, hprevious⟩ := ha
  cases h with
  | lineFinish hi => exact ⟨_, .lineFinish hi, finish_same hblocks hopened hprevious⟩
  | finish => exact ⟨_, .finish, finish_same hblocks hopened hprevious⟩
  | dedent hi hc hu =>
    dsimp only at hblocks
    rw [hblocks] at hu
    exact ⟨_, .dedent hi hc hu, .error⟩
  | @unmatched s rest b hm =>
    refine ⟨_, .unmatched b fun entry he => ?_, .error⟩
    have heads := congrArg List.head? hopened
    dsimp only at heads
    rw [head?_map, head?_map, Option.mem_def.mp he] at heads
    obtain ⟨entry', he', same⟩ := Option.map_eq_some_iff.mp heads
    have kept := hm entry' he'
    rwa [same] at kept
  | misread hc hr =>
    dsimp only at hprevious
    rw [hprevious] at hr
    exact ⟨_, .misread hc hr, .error⟩

/-- Stages that differ in nothing but places lead to the same tokens, or to the same fault. -/
theorem scan_aligned (hb : read.LayoutBlind) (ha : Aligned a a') :
    SameScan (scan read a) (scan read a') := by
  have run := scan_induction read
    (motive := fun a r => ∀ a', Aligned a a' → SameScan r (scan read a'))
    (fun a r stop a' ha => by
      obtain ⟨r', stop', same⟩ := stop.aligned ha
      rw [stop'.scan_eq]
      exact same)
    (fun a out b r step ih a' ha => by
      obtain ⟨out', b', step', kinds, hb'⟩ := step.aligned hb ha
      rw [step'.scan_eq]
      exact (ih b' hb').map kinds)
  exact run a a' ha

/-- A scanner inside a line with nothing left but a join with a next line that is missing. -/
def BeforeLastJoin (read : Lexicon ω) (a : Stage ω) : Prop :=
  a.mode = .inside ∧ ∃ c rest, a.rest = c :: rest ∧
    read a.scanner.previous c rest = .ok (.gap rest.length)

theorem firmGap_of_joinsLines (hj : read.JoinsLines) (hu : ¬BeforeLastJoin read a) : FirmGap read a := by
  intro inside c rest n eq gap
  obtain ⟨rfl, join, behind, rfl, rfl, _, stable⟩ := hj _ _ _ _ gap
  refine ⟨?_, fun more => by rw [append_assoc, stable]⟩
  cases behind with
  | nil =>
    rw [append_nil] at eq
    exact absurd ⟨inside, _, join, eq, by simpa using stable []⟩ hu
  | cons => simp

theorem steps_blankLine (h : IsBlankLine line) (s : Scanner ω) (more : List Char) :
    Steps read ⟨.line, s, line.toList ++ more⟩ [] ⟨.line, s.pass line.toList, more⟩ := by
  obtain ⟨blanks, remark, hb, hr, eq⟩ := h
  have indent : ∀ b ∈ blanks, isIndent b = true := by
    intro b hm
    rcases hb b hm with rfl | rfl <;> rfl
  rw [eq]
  rcases hr with rfl | ⟨words, rfl, hw⟩
  · have move : Step read ⟨.line, s, blanks ++ '\n' :: more⟩ [] _ := .emptyLine indent (.inl rfl)
    simpa using Steps.step move .refl
  · have remark : Step read ⟨.line, s, blanks ++ '#' :: (words ++ '\n' :: more)⟩ [] _ :=
      .commentLine indent hw fun c hc => (Option.some.inj hc).symm
    have lineEnd : Step read ⟨.line, s.pass (blanks ++ '#' :: words), [] ++ '\n' :: more⟩ [] _ :=
      .emptyLine nofun (.inl rfl)
    have both := Steps.step remark (.step lineEnd .refl)
    rw [← pass_append] at both
    simpa using both

theorem Steps.at {source : List Char} (h : Steps read a out b) (ha : At source a) : At source b := by
  induction h with
  | refl => exact ha
  | step hs _ ih => exact ih (hs.at ha)

end Scanner

/-- A text that ends in a join of lines: a backslash in the code of a line, a line end, and no line
to join. -/
def EndsInJoin (read : Lexicon ω) (source : String) : Prop :=
  ∃ out a, Scanner.Steps read ⟨.line, {}, source.toList⟩ out a ∧ Scanner.BeforeLastJoin read a

variable {read : Lexicon ω}

theorem Lexicon.Gapless.not_endsInJoin (h : read.Gapless) (source : String) :
    ¬EndsInJoin read source := by
  rintro ⟨out, a, steps, inside, c, rest, eq, gap⟩
  exact h _ _ _ _ gap

theorem Lexicon.JoinsLines.not_endsInJoin (hj : read.JoinsLines) {source : String}
    (line : ¬['\\', '\n'] <:+ source.toList) (returned : ¬['\\', '\r', '\n'] <:+ source.toList) :
    ¬EndsInJoin read source := by
  rintro ⟨out, a, steps, inside, c, rest, eq, gap⟩
  obtain ⟨rfl, join, behind, rfl, length, ends, _⟩ := hj _ _ _ _ gap
  have empty : behind = [] := by
    rw [length_append] at length
    exact eq_nil_of_length_eq_zero (by omega)
  subst empty
  obtain ⟨front, split, _⟩ := (steps.at ⟨⟨[], rfl, rfl⟩, by simp⟩).place
  rw [eq, append_nil] at split
  have suffix : '\\' :: join <:+ source.toList := ⟨front, split.symm⟩
  rcases ends with rfl | rfl
  · exact line suffix
  · exact returned suffix

/-- A line of blanks and comments between two texts makes no difference to the tokens. -/
theorem tokensOf_blankLine (hl : read.Local) (hj : read.JoinsLines) (hb : read.LayoutBlind)
    {a b : String} (whole : a = "" ∨ a.toList.getLast? = some '\n')
    (unjoined : ¬EndsInJoin read a) (fine : (tokensOf read a).isOk = true)
    (blank : IsBlankLine line) :
    SameScan (tokensOf read (a ++ line ++ b)) (tokensOf read (a ++ b)) := by
  obtain ⟨ts, ht⟩ := exists_ok_of_isOk fine
  rw [Scanner.tokensOf_eq_scan] at ht
  have lines : Scanner.Whole (⟨.line, {}, a.toList⟩ : Scanner.Stage ω) :=
    whole.symm.imp_right fun h => ⟨by rw [h]; rfl, nofun⟩
  obtain ⟨out, s, steps, _⟩ := Scanner.exists_steps_append hl _ (valid_start _) lines
    (fun out c hs => Scanner.firmGap_of_joinsLines hj fun hc => unjoined ⟨out, c, hs, hc⟩) ht
  have first := (steps (line.toList ++ b.toList)).trans
    (Scanner.steps_blankLine blank s b.toList)
  rw [append_nil] at first
  have aligned : Scanner.Aligned (⟨.line, s.pass line.toList, b.toList⟩ : Scanner.Stage ω)
      ⟨.line, s, b.toList⟩ := ⟨⟨rfl, rfl, rfl, rfl, .inl rfl⟩, rfl⟩
  have same := Scanner.scan_aligned hb aligned
  have left : tokensOf read (a ++ line ++ b) =
      (Scanner.scan read ⟨.line, s.pass line.toList, b.toList⟩).map (out ++ ·) := by
    rw [Scanner.tokensOf_eq_scan, String.toList_append, String.toList_append, append_assoc]
    exact first.scan_eq
  have right : tokensOf read (a ++ b) =
      (Scanner.scan read ⟨.line, s, b.toList⟩).map (out ++ ·) := by
    rw [Scanner.tokensOf_eq_scan, String.toList_append]
    exact (steps b.toList).scan_eq
  rw [left, right]
  exact same.map rfl

theorem Lexicon.Gapless.joinsLines (h : read.Gapless) : read.JoinsLines :=
  fun previous c cs n hr => absurd hr (h previous c cs n)

namespace Classes

theorem readWord_joinsLines : readWord.JoinsLines := by
  intro previous c cs n h
  obtain ⟨rfl, join, rest, rfl, rfl, hj⟩ := exists_of_gap h
  refine ⟨rfl, join, rest, rfl, rfl, hj, fun more => ?_⟩
  rcases hj with rfl | rfl <;> rfl

end Classes

/-- Lines without code are invisible between two texts: the tokens are those of the two texts alone,
or the fault is, in markup and, where the first text does not end in a join of lines, in class
declarations. -/
theorem tokens_blankLine (a b line : String) (whole : a = "" ∨ a.toList.getLast? = some '\n')
    (blank : IsBlankLine line) :
    ((Markup.tokens a).isOk = true →
      SameScan (Markup.tokens (a ++ line ++ b)) (Markup.tokens (a ++ b))) ∧
    ((Classes.tokens a).isOk = true → ¬EndsInJoin Classes.readWord a →
      SameScan (Classes.tokens (a ++ line ++ b)) (Classes.tokens (a ++ b))) := by
  refine ⟨fun fine => ?_, fun fine unjoined => ?_⟩
  · have gapless := Markup.readWord_gapless
    exact tokensOf_blankLine Markup.readWord_local gapless.joinsLines Markup.readWord_layoutBlind whole
      (gapless.not_endsInJoin a) fine blank
  · exact tokensOf_blankLine Classes.readWord_local Classes.readWord_joinsLines
      Classes.readWord_layoutBlind whole unjoined fine blank

theorem tokens_blankLine_before_dedent :
    SameScan (Markup.tokens ("A:\n  b: c\n" ++ " \t# -\n" ++ "  d: -2\n"))
      (Markup.tokens ("A:\n  b: c\n" ++ "  d: -2\n")) ∧
    SameScan (Classes.tokens ("class A:\n  b = \\\n 1\n" ++ " \t# -\n" ++ " c = 2\n"))
      (Classes.tokens ("class A:\n  b = \\\n 1\n" ++ " c = 2\n")) := by
  have blank : IsBlankLine " \t# -\n" :=
    ⟨[' ', '\t'], "# -".toList, by decide, .inr ⟨" -".toList, rfl, by decide⟩, by decide⟩
  have unjoined : ¬EndsInJoin Classes.readWord "class A:\n  b = \\\n 1\n" :=
    Classes.readWord_joinsLines.not_endsInJoin (by decide) (by decide)
  exact ⟨(tokens_blankLine "A:\n  b: c\n" "  d: -2\n" _ (.inr (by decide)) blank).1
      (by decide +kernel),
    (tokens_blankLine "class A:\n  b = \\\n 1\n" " c = 2\n" _ (.inr (by decide)) blank).2
      (by decide +kernel) unjoined⟩

end ViewBridge
