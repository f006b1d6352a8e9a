import ViewBridge.Proofs.BlankLines
import ViewBridge.Proofs.Markup.Concat

namespace ViewBridge

open List

/-- The same text with a carriage return before every line feed. -/
def withReturns (cs : List Char) : List Char :=
  cs.flatMap fun c => if c = '\n' then ['\r', '\n'] else [c]

@[simp] theorem withReturns_nil : withReturns [] = [] := rfl

@[simp] theorem withReturns_newline (cs : List Char) :
    withReturns ('\n' :: cs) = '\r' :: '\n' :: withReturns cs := rfl

theorem withReturns_cons {c : Char} (h : c ≠ '\n') (cs : List Char) :
    withReturns (c :: cs) = c :: withReturns cs := by
  simp [withReturns, h]

theorem withReturns_append {front : List Char} (h : '\n' ∉ front) (cs : List Char) :
    withReturns (front ++ cs) = front ++ withReturns cs := by
  induction front with
  | nil => rfl
  | cons c front ih =>
    rw [mem_cons, not_or] at h
    rw [cons_append, withReturns_cons (Ne.symm h.1), ih h.2, cons_append]

/-- Texts that start with the end of a line, of either kind. -/
inductive AtReturn : List Char → Prop
  | feed {rest} : AtReturn ('\n' :: rest)
  | both {rest} : AtReturn ('\r' :: '\n' :: rest)

variable {cs tail : List Char} {quote : Char}

theorem AtReturn.exists_cons (h : AtReturn tail) :
    ∃ d rest, tail = d :: rest ∧ (d = '\n' ∨ d = '\r') := by
  cases h with
  | feed => exact ⟨_, _, rfl, .inl rfl⟩
  | both => exact ⟨_, _, rfl, .inr rfl⟩

/-- Text without a line feed ends before the line does, unless it ends with the carriage return. -/
theorem AtReturn.exists_rest {body more : List Char} (ht : AtReturn tail)
    (eq : cs ++ tail = body ++ more) (line : '\n' ∉ body) (last : body.getLast? = some quote)
    (hq : quote ≠ '\r') : ∃ rest, cs = body ++ rest := by
  rcases append_eq_append_iff.mp eq with ⟨behind, rfl, tail⟩ | ⟨rest, rfl, _⟩
  · rcases behind with _ | ⟨d, _ | ⟨e, behind⟩⟩
    · exact ⟨[], by simp⟩
    · cases ht <;> cases tail
      · simp at line
      · simp [hq.symm] at last
    · cases ht <;> cases tail <;> simp at line
  · exact ⟨rest, rfl⟩

/-- Words that stand before the end of a line are read the same whichever kind that is, unless a
backslash stands before it. -/
def Lexicon.ReturnBlind {ω : Type} (read : Lexicon ω) : Prop :=
  ∀ previous c cs tail, AtReturn tail → (c :: cs).getLast? ≠ some '\\' →
    read previous c (cs ++ tail) = read previous c cs

theorem getLast?_of_cons {c d : Char} (h : (c :: cs).getLast? ≠ some d) : cs.getLast? ≠ some d := by
  cases cs with
  | nil => simp
  | cons e cs => rwa [getLast?_cons_cons] at h

theorem getLast?_dropWhile {p : Char → Bool} {d : Char} (h : cs.getLast? ≠ some d) :
    (cs.dropWhile p).getLast? ≠ some d := by
  induction cs with
  | nil => exact h
  | cons c cs ih =>
    rw [dropWhile_cons]
    split
    · exact ih (getLast?_of_cons h)
    · exact h

theorem SameScan.trans {ω : Type} {r r' r'' : Except Fault (List (Token ω))} (h : SameScan r r')
    (h' : SameScan r' r'') : SameScan r r'' := by
  cases h with
  | ok hk =>
    cases h' with
    | ok hk' => exact .ok (hk.trans hk')
  | error =>
    cases h' with
    | error => exact .error

theorem Literal.quotedText?_append_return {escape : Char → List Char} (hq : quote = '\'' ∨ quote = '"')
    (ht : AtReturn tail) (hl : cs.getLast? ≠ some '\\') :
    quotedText? escape quote (cs ++ tail) = quotedText? escape quote cs := by
  have unclosed : quotedText? escape quote tail = none := by
    cases ht <;> rcases hq with rfl | rfl <;> rename_i rest <;> cases rest <;> simp [quotedText?]
  obtain ⟨d, more, rfl, _⟩ := ht.exists_cons
  fun_induction quotedText? escape quote cs with
  | case1 => exact unclosed
  | case2 => simp [quotedText?]
  | case3 c hc =>
    have hb : c ≠ '\\' := by simpa using hl
    simp [quotedText?, hc, hb, unclosed]
  | case4 e rest => simp [quotedText?]
  | case5 e rest hc => simp [quotedText?, hc]
  | case6 e rest hc hn ih =>
    simp [quotedText?, hc, ih (getLast?_of_cons (getLast?_of_cons hl))]
  | case7 c e rest hc hn hb ih =>
    have behind := ih (getLast?_of_cons hl)
    rw [cons_append] at behind
    simp [quotedText?, hc, hn, hb, behind]

namespace Markup

theorem formatStringLength?_append_return (hq : quote = '\'' ∨ quote = '"') (ht : AtReturn tail) :
    formatStringLength? quote (cs ++ tail) = formatStringLength? quote cs := by
  cases h : formatStringLength? quote cs with
  | some n =>
    obtain ⟨body, more, rfl, rfl, _, _, read⟩ := exists_of_formatStringLength? hq h
    rw [append_assoc, read]
  | none =>
    by_contra closed
    obtain ⟨n, some⟩ := Option.ne_none_iff_exists'.mp closed
    obtain ⟨body, more, eq, _, line, last, read⟩ := exists_of_formatStringLength? hq some
    obtain ⟨rest, rfl⟩ := ht.exists_rest eq line last (by rcases hq with rfl | rfl <;> decide)
    rw [read] at h
    cases h

variable {c : Char}

theorem readIdentifier_append_return (ht : AtReturn tail) (hl : cs.getLast? ≠ some '\\') :
    readIdentifier c (cs ++ tail) = readIdentifier c cs := by
  obtain ⟨d, more, rfl, hd⟩ := ht.exists_cons
  have stop : isIdentifierPart d = false := by rcases hd with rfl | rfl <;> decide
  have bare : ¬(d = '\'' ∨ d = '"') := by rcases hd with rfl | rfl <;> decide
  have last := getLast?_dropWhile (p := isIdentifierPart) hl
  unfold readIdentifier
  simp only [takeWhile_append_stop _ _ stop, dropWhile_append_stop _ _ stop]
  cases hw : cs.dropWhile isIdentifierPart with
  | nil => simp [bare]
  | cons quote rest =>
    rw [hw] at last
    simp only [cons_append]
    split
    next hm =>
      have length : formatStringLength? quote (rest ++ d :: more) = formatStringLength? quote rest :=
        formatStringLength?_append_return hm.1 ht
      have text (escape : Char → List Char) : Literal.quotedText? escape quote (rest ++ d :: more) =
          Literal.quotedText? escape quote rest :=
        Literal.quotedText?_append_return hm.1 ht (getLast?_of_cons last)
      split
      next =>
        rw [length]
        cases hn : formatStringLength? quote rest with
        | none => rfl
        | some n =>
          obtain ⟨body, behind, rfl, rfl, _⟩ := exists_of_formatStringLength? hm.1 hn
          simp only [append_assoc, take_left]
      next => simp only [readString, text]
    next => rfl

theorem readWord_returnBlind : readWord.ReturnBlind := by
  intro previous c cs tail ht hl
  have last := getLast?_of_cons hl
  have next (p : Char → Bool) (feed : p '\n' = false) (back : p '\r' = false) :
      (cs ++ tail).head?.any p = cs.head?.any p := by
    obtain ⟨d, more, rfl, rfl | rfl⟩ := ht.exists_cons <;> cases cs <;> simp [feed, back]
  have number : readNumber c (cs ++ tail) = readNumber c cs := by
    obtain ⟨d, more, rfl, hd⟩ := ht.exists_cons
    exact readNumber_append_stop hd more
  have operator : readOperator c (cs ++ tail) = readOperator c cs := by
    obtain ⟨d, more, rfl, hd⟩ := ht.exists_cons
    exact readOperator_append_stop hd more
  unfold readWord
  simp only [next Text.isDigit (by decide) (by decide), next Text.isNameStart (by decide) (by decide),
    next (['=', '<', '>'].contains ·) (by decide) (by decide), number,
    readIdentifier_append_return ht last, operator]
  split
  next hq => simp only [readString, Literal.quotedText?_append_return hq ht last]
  next => rfl

end Markup

namespace Scanner

variable {ω : Type} {read : Lexicon ω} {c : Char} {rest : List Char}

/-- The same place in the text with carriage returns. -/
def Stage.returned (a : Stage ω) : Stage ω := { a with rest := withReturns a.rest }

theorem read_withReturns (hl : read.Local) (hr : read.ReturnBlind) (previous : Option (TokenKind ω))
    (hj : ¬['\\', '\n'] <:+: c :: rest) :
    read previous c (withReturns rest) = read previous c rest ∧
      ∀ w n, read previous c rest = .ok (.word w n) →
        (withReturns rest).drop n = withReturns (rest.drop n) := by
  obtain ⟨split, front, ends⟩ := comment_cases rest
  generalize comment rest = line at split front
  generalize afterComment rest = behind at split ends
  subst split
  rw [withReturns_append front]
  cases behind with
  | nil =>
    refine ⟨rfl, fun w n _ => ?_⟩
    rw [withReturns_nil, append_nil, ← append_nil (line.drop n), withReturns_append]
    · rfl
    · exact fun hm => front (mem_of_mem_drop hm)
  | cons d behind =>
    obtain rfl : d = '\n' := ends d rfl
    have last : (c :: line).getLast? ≠ some '\\' := by
      intro h
      obtain ⟨before, eq⟩ := getLast?_eq_some_iff.mp h
      exact hj ⟨before, behind, by rw [← cons_append, eq]; simp⟩
    rw [withReturns_newline, hr _ _ _ _ .both last, hr _ _ _ _ .feed last]
    refine ⟨rfl, fun w n h => ?_⟩
    have inside := (hl _ _ _ _ _ ((hr _ _ _ _ .feed last).trans h)).1
    rw [drop_append_of_le_length inside, drop_append_of_le_length inside, withReturns_append]
    · rfl
    · exact fun hm => front (mem_of_mem_drop hm)

theorem Step.scan_eq_of_nil {a b : Stage ω} (h : Step read a [] b) : scan read a = scan read b := by
  rw [h.scan_eq]
  cases scan read b <;> rfl

theorem step_return (read : Lexicon ω) (mode : Mode) (s : Scanner ω) (cs : List Char) :
    Step read ⟨mode, s, '\r' :: cs⟩ [] ⟨mode, s.pass ['\r'], cs⟩ := by
  cases mode with
  | line =>
    have none : ∀ b ∈ ([] : List Char), isIndent b = true := forall_mem_nil _
    exact .emptyLine none (.inr rfl)
  | inside => exact .blank (.inr (.inr rfl))

theorem scan_comment_withReturns (read : Lexicon ω) {mode : Mode} (s : Scanner ω)
    (front : List Char) {words : List Char}
    (moves : ∀ words rest, '\n' ∉ words → AtLineEnd rest →
      Step read ⟨mode, s, front ++ (words ++ rest)⟩ [] ⟨mode, s.pass (front ++ words), rest⟩)
    (hw : '\n' ∉ words) (he : AtLineEnd rest) :
    scan read ⟨mode, s, front ++ (words ++ withReturns rest)⟩ =
      scan read ⟨mode, s.pass (front ++ words), withReturns rest⟩ := by
  cases rest with
  | nil => exact (moves words [] hw he).scan_eq_of_nil
  | cons d rest =>
    obtain rfl : d = '\n' := he d rfl
    have remark := moves (words ++ ['\r']) ('\n' :: withReturns rest) (by simp [hw]) he
    have back := step_return read mode (s.pass (front ++ words)) ('\n' :: withReturns rest)
    rw [← pass_append, append_assoc] at back
    rw [append_assoc] at remark
    rw [withReturns_newline, back.scan_eq_of_nil]
    exact remark.scan_eq_of_nil

/-- A move has its like in the text with carriage returns, which are passed on the way. -/
theorem Step.returned (hl : read.Local) (hg : read.Gapless) (hr : read.ReturnBlind) {a b : Stage ω}
    {out : List (Token ω)} (h : Step read a out b) (hj : ¬['\\', '\n'] <:+: a.rest) :
    ∃ out' b', scan read a.returned = (scan read b').map (out' ++ ·) ∧
      out.map (·.kind) = out'.map (·.kind) ∧ Aligned b.returned b' := by
  have same : Aligned b.returned b.returned := ⟨⟨rfl, rfl, rfl, rfl, .inl rfl⟩, rfl⟩
  have unchanged (r : Except Fault (List (Token ω))) : r = r.map ([] ++ ·) := by cases r <;> rfl
  cases h with
  | @emptyLine s blanks c rest hb hc =>
    have front := newline_notMem_blanks hb
    unfold Stage.returned
    rcases hc with rfl | rfl
    · have feed : Step read ⟨.line, s.pass (blanks ++ ['\r']), [] ++ '\n' :: withReturns rest⟩ [] _ :=
        .emptyLine (by simp) (.inl rfl)
      rw [withReturns_append front, withReturns_newline]
      exact ⟨_, _, (Step.scan_eq_of_nil (.emptyLine hb (.inr rfl))).trans feed.scan_eq, rfl,
        ⟨rfl, rfl, rfl, rfl, .inl rfl⟩, rfl⟩
    · rw [withReturns_append front, withReturns_cons (by decide)]
      exact ⟨_, _, Step.scan_eq (.emptyLine hb (.inr rfl)), rfl, ⟨rfl, rfl, rfl, rfl, .inl rfl⟩, rfl⟩
  | @commentLine s blanks words rest hb hw he =>
    have eq := scan_comment_withReturns read s (blanks ++ ['#'])
      (fun words rest hw he => by simpa using Step.commentLine hb hw he) hw he
    refine ⟨[], _, ?_, rfl, same⟩
    rw [← unchanged]
    unfold Stage.returned
    rw [withReturns_append (newline_notMem_blanks hb), withReturns_cons (by decide), withReturns_append hw]
    simpa using eq
  | @layout s blanks c rest change blocks hb hc hu =>
    have hn : c ≠ '\n' := by
      rintro rfl
      cases hc
    unfold Stage.returned
    rw [withReturns_append (newline_notMem_blanks hb), withReturns_cons hn]
    exact ⟨_, _, Step.scan_eq (.layout hb hc hu), rfl, ⟨rfl, rfl, rfl, rfl, .inl rfl⟩, rfl⟩
  | @blank s c rest hc =>
    have hn : c ≠ '\n' := by rcases hc with rfl | rfl | rfl <;> decide
    unfold Stage.returned
    rw [withReturns_cons hn]
    exact ⟨_, _, Step.scan_eq (.blank hc), rfl, same⟩
  | @lineEnd s rest ho =>
    have feed : Step read ⟨.inside, s.pass ['\r'], '\n' :: withReturns rest⟩ _ _ := .lineEnd ho
    exact ⟨_, _, (step_return read .inside s _).scan_eq_of_nil.trans feed.scan_eq, rfl,
      ⟨rfl, rfl, rfl, rfl, .inl rfl⟩, rfl⟩
  | @joinedLine s rest ho =>
    have feed : Step read ⟨.inside, s.pass ['\r'], '\n' :: withReturns rest⟩ _ _ := .joinedLine ho
    exact ⟨_, _, (step_return read .inside s _).scan_eq_of_nil.trans feed.scan_eq, rfl,
      ⟨rfl, rfl, rfl, rfl, .inl rfl⟩, rfl⟩
  | @comment s words rest hw he =>
    have eq := scan_comment_withReturns read s ['#']
      (fun words rest hw he => .comment hw he) hw he
    refine ⟨[], _, ?_, rfl, same⟩
    rw [← unchanged]
    unfold Stage.returned
    rw [withReturns_cons (by decide), withReturns_append hw]
    exact eq
  | @opening s rest b =>
    unfold Stage.returned
    rw [withReturns_cons (openChar_layout b).2.1]
    exact ⟨_, _, Step.scan_eq (.opening b), rfl, same⟩
  | @closing s rest b span opened ho =>
    unfold Stage.returned
    rw [withReturns_cons (closeChar_layout b).2.1]
    exact ⟨_, _, Step.scan_eq (.closing ho), rfl, same⟩
  | gap hc hread => exact absurd hread (hg _ _ _ _)
  | @word s c rest w n hc hread =>
    obtain ⟨eq, behind⟩ := read_withReturns hl hr s.previous hj
    unfold Stage.returned
    rw [withReturns_cons hc.ne.2.1]
    exact ⟨_, _, Step.scan_eq (.word hc (eq.trans hread)), rfl,
      ⟨rfl, (behind w n hread).symm, rfl, rfl, .inl rfl⟩, rfl⟩

theorem Stop.returned (hl : read.Local) (hr : read.ReturnBlind) {a : Stage ω}
    {r : Except Fault (List (Token ω))} (h : Stop read a r) (hj : ¬['\\', '\n'] <:+: a.rest) :
    SameScan r (scan read a.returned) := by
  cases h with
  | @lineFinish s blanks hb =>
    have eq := withReturns_append (newline_notMem_blanks hb) []
    rw [withReturns_nil, append_nil] at eq
    unfold Stage.returned
    rw [eq, (Stop.lineFinish hb).scan_eq]
    exact finish_same rfl rfl rfl
  | @finish s =>
    have stop : Stop read ⟨.inside, s, []⟩ _ := .finish
    rw [Stage.returned, withReturns_nil, stop.scan_eq]
    exact finish_same rfl rfl rfl
  | @dedent s blanks c rest left hb hc hu =>
    have hn : c ≠ '\n' := by
      rintro rfl
      cases hc
    unfold Stage.returned
    rw [withReturns_append (newline_notMem_blanks hb), withReturns_cons hn, (Stop.dedent hb hc hu).scan_eq]
    exact .error
  | @unmatched s rest b hm =>
    unfold Stage.returned
    rw [withReturns_cons (closeChar_layout b).2.1, (Stop.unmatched b hm).scan_eq]
    exact .error
  | @misread s c rest misread hc hread =>
    have eq := (read_withReturns hl hr s.previous hj).1
    unfold Stage.returned
    rw [withReturns_cons hc.ne.2.1, (Stop.misread hc (eq.trans hread)).scan_eq]
    exact .error

theorem scan_returned (hl : read.Local) (hg : read.Gapless) (hb : read.LayoutBlind)
    (hr : read.ReturnBlind) {source : List Char} (hj : ¬['\\', '\n'] <:+: source) {a : Stage ω}
    (ha : At source a) : SameScan (scan read a) (scan read a.returned) := by
  have unjoined {a : Stage ω} (ha : At source a) : ¬['\\', '\n'] <:+: a.rest := by
    obtain ⟨front, rfl, _⟩ := ha.place
    exact fun inner => hj (inner.trans (suffix_append _ _).isInfix)
  have run := scan_induction read
    (motive := fun a r => At source a → SameScan r (scan read a.returned))
    (fun a r stop ha => stop.returned hl hr (unjoined ha))
    (fun a out b r step ih ha => by
      obtain ⟨out', b', eq, kinds, near⟩ := step.returned hl hg hr (unjoined ha)
      rw [eq]
      exact ((ih (step.at ha)).trans (scan_aligned hb near)).map kinds)
  exact run a ha

end Scanner

namespace Markup

/-- Line ends of two characters are read as those of one: the tokens are the same, and the modules
that they are read as, or the fault is. -/
theorem parse_withReturns (source : String) (unjoined : ¬['\\', '\n'] <:+: source.toList) :
    SameScan (tokens source) (tokens (.ofList (withReturns source.toList))) ∧
      ((∃ m n, parse source = .ok m ∧ parse (.ofList (withReturns source.toList)) = .ok n ∧
          m.structureEq n = true) ∨
        ∃ fault fault', parse source = .error fault ∧
          parse (.ofList (withReturns source.toList)) = .error fault' ∧
          fault.unplaced = fault'.unplaced) := by
  have scans : SameScan (tokens source) (tokens (.ofList (withReturns source.toList))) := by
    have start : Scanner.At source.toList (⟨.line, {}, source.toList⟩ : Scanner.Stage Word) :=
      ⟨⟨[], rfl, rfl⟩, forall_mem_nil _⟩
    rw [tokens, tokens, Scanner.tokensOf_eq_scan, Scanner.tokensOf_eq_scan, String.toList_ofList]
    exact Scanner.scan_returned readWord_local readWord_gapless readWord_layoutBlind
      readWord_returnBlind unjoined start
  refine ⟨scans, ?_⟩
  generalize withReturns source.toList = text at scans
  generalize hs : tokens source = r at scans
  generalize ht : tokens (.ofList text) = r' at scans
  cases scans with
  | @error fault span span' =>
    refine .inr ⟨.lex fault span, .lex fault span', ?_, ?_, rfl⟩
    · rw [parse, hs]
      rfl
    · rw [parse, ht]
      rfl
  | @ok ts us kinds =>
    obtain ⟨before, ends, _⟩ := (skeleton_of_tokensOf hs).eof_last
    obtain ⟨v, fin, hv, parsed⟩ := exists_until_end hs ends
    obtain ⟨v', fin', hv', parsed'⟩ := exists_until_end ht (kinds.symm.trans ends)
    have agree : Agree (InvImage Eq (Module.place nowhere)) (moduleFrom fin none v)
      (moduleFrom fin' none v') := moduleFrom_alike (hv.trans hv'.symm) rfl
    rw [← parsed, ← parsed'] at agree
    generalize hm : parse source = x at agree
    generalize hn : parse (.ofList text) = y at agree
    cases agree with
    | @error fault fault' same => exact .inr ⟨fault, fault', rfl, rfl, same⟩
    | @ok m n same => exact .inl ⟨m, n, rfl, rfl, structureEq_of_place same (values_same_self hn)⟩

/-- A rule of three lines, one of them with a comment, with line ends of either kind. -/
theorem parse_withReturns_comment :
    SameScan (tokens "<A>:  # b\n    c: 'd', -1\n\n    E:\n")
      (tokens "<A>:  # b\r\n    c: 'd', -1\r\n\r\n    E:\r\n") := by
  have text : String.ofList (withReturns "<A>:  # b\n    c: 'd', -1\n\n    E:\n".toList) =
      "<A>:  # b\r\n    c: 'd', -1\r\n\r\n    E:\r\n" := by decide +kernel
  have same := (parse_withReturns "<A>:  # b\n    c: 'd', -1\n\n    E:\n" (by decide +kernel)).1
  rwa [text] at same

end Markup

end ViewBridge
