import Mathlib.Data.List.TakeWhile
import ViewBridge.Source.Scan

namespace ViewBridge

variable {α ε : Type} {x : Except ε α}

theorem exists_ok_of_isOk (h : x.isOk = true) : ∃ a, x = .ok a := by
  cases x with
  | error e => cases h
  | ok a => exact ⟨a, rfl⟩

theorem exists_error_of_isOk (h : x.isOk = false) : ∃ e, x = .error e := by
  cases x with
  | error e => exact ⟨e, rfl⟩
  | ok a => cases h

theorem eq_ok_of_toOption {a : α} (h : x.toOption = some a) : x = .ok a := by
  cases x with
  | error e => cases h
  | ok b => exact congrArg Except.ok (Option.some.inj h)

theorem exists_of_bind {β : Type} {k : α → Except ε β} {b : β} (h : (x >>= k) = .ok b) :
    ∃ a, x = .ok a ∧ k a = .ok b := by
  cases x with
  | error e => cases h
  | ok a => exact ⟨a, rfl, h⟩

theorem exists_of_map {β : Type} {g : α → β} {b : β} (h : x.map g = .ok b) :
    ∃ a, x = .ok a ∧ g a = b := by
  cases x with
  | error e => cases h
  | ok a => exact ⟨a, rfl, Except.ok.inj h⟩

end ViewBridge

namespace ViewBridge.Scanner

open List

variable {ω : Type}

/-- Where a scanner stands in a line: at its start, where blanks are indentation, or behind that. -/
inductive Mode where
  | line
  | inside
  deriving DecidableEq

/-- A scanner with the text that is still before it. -/
structure Stage (ω : Type) where
  mode : Mode
  scanner : Scanner ω
  rest : List Char

def scan (read : Lexicon ω) : Stage ω → Except Fault (List (Token ω))
  | ⟨.line, s, cs⟩ => lineTokens read s cs
  | ⟨.inside, s, cs⟩ => restTokens read s cs

/-- Characters that are no part of the code of a line. -/
def isLayoutChar (c : Char) : Bool :=
  c == ' ' || c == '\t' || c == '\r' || c == '\n' || c == '#'

def AtLineEnd (cs : List Char) : Prop := ∀ c ∈ cs.head?, c = '\n'

/-- Characters at which the words of a language are read. -/
structure StartsWord (c : Char) : Prop where
  layout : isLayoutChar c = false
  opening : Bracket.ofOpenChar? c = none
  closing : Bracket.ofCloseChar? c = none

/-- One move of a scanner, with the tokens it makes. -/
inductive Step (read : Lexicon ω) : Stage ω → List (Token ω) → Stage ω → Prop
  | emptyLine {s blanks c rest} : (∀ b ∈ blanks, isIndent b = true) → c = '\n' ∨ c = '\r' →
      Step read ⟨.line, s, blanks ++ c :: rest⟩ [] ⟨.line, s.pass (blanks ++ [c]), rest⟩
  | commentLine {s blanks words rest} : (∀ b ∈ blanks, isIndent b = true) → '\n' ∉ words →
      AtLineEnd rest →
      Step read ⟨.line, s, blanks ++ '#' :: (words ++ rest)⟩ []
        ⟨.line, s.pass (blanks ++ '#' :: words), rest⟩
  | layout {s blanks c rest change blocks} : (∀ b ∈ blanks, isIndent b = true) →
      isLayoutChar c = false → s.blocks.update (indentWidth blanks) = .ok (change, blocks) →
      Step read ⟨.line, s, blanks ++ c :: rest⟩
        ((layoutKinds change).map ((s.pass blanks).token · []))
        ⟨.inside, { s.pass blanks with
          blocks, previous := (layoutKinds change).getLast?.or s.previous }, c :: rest⟩
  | blank {s c rest} : c = ' ' ∨ c = '\t' ∨ c = '\r' →
      Step read ⟨.inside, s, c :: rest⟩ [] ⟨.inside, s.pass [c], rest⟩
  | lineEnd {s rest} : s.opened = [] →
      Step read ⟨.inside, s, '\n' :: rest⟩ [s.token .newline ['\n']]
        ⟨.line, s.emit .newline ['\n'], rest⟩
  | joinedLine {s rest} : s.opened ≠ [] →
      Step read ⟨.inside, s, '\n' :: rest⟩ [] ⟨.inside, s.pass ['\n'], rest⟩
  | comment {s words rest} : '\n' ∉ words → AtLineEnd rest →
      Step read ⟨.inside, s, '#' :: (words ++ rest)⟩ [] ⟨.inside, s.pass ('#' :: words), rest⟩
  | opening {s rest} (b : Bracket) :
      Step read ⟨.inside, s, b.openChar :: rest⟩ [s.token (.opening b) [b.openChar]]
        ⟨.inside, { s.emit (.opening b) [b.openChar] with
          opened := (b, .ofPosition s.place 1) :: s.opened }, rest⟩
  | closing {s rest b span opened} : s.opened = (b, span) :: opened →
      Step read ⟨.inside, s, b.closeChar :: rest⟩ [s.token (.closing b) [b.closeChar]]
        ⟨.inside, { s.emit (.closing b) [b.closeChar] with opened }, rest⟩
  | gap {s c rest more} : StartsWord c → read s.previous c rest = .ok (.gap more) →
      Step read ⟨.inside, s, c :: rest⟩ []
        ⟨.inside, s.pass (c :: rest.take more), rest.drop more⟩
  | word {s c rest w more} : StartsWord c → read s.previous c rest = .ok (.word w more) →
      Step read ⟨.inside, s, c :: rest⟩ [s.token (.word w) (c :: rest.take more)]
        ⟨.inside, s.emit (.word w) (c :: rest.take more), rest.drop more⟩

/-- The last move of a scanner: the text is at its end, or at a fault. -/
inductive Stop (read : Lexicon ω) : Stage ω → Except Fault (List (Token ω)) → Prop
  | lineFinish {s blanks} : (∀ b ∈ blanks, isIndent b = true) →
      Stop read ⟨.line, s, blanks⟩ (s.pass blanks).finish
  | finish {s} : Stop read ⟨.inside, s, []⟩ s.finish
  | dedent {s blanks c rest left} : (∀ b ∈ blanks, isIndent b = true) →
      isLayoutChar c = false → s.blocks.update (indentWidth blanks) = .error left →
      Stop read ⟨.line, s, blanks ++ c :: rest⟩
        (.error (.lex (.inconsistentIndentation (indentWidth blanks) left.top)
          (.ofPosition (s.pass blanks).place 0)))
  | unmatched {s rest} (b : Bracket) : (∀ entry ∈ s.opened.head?, entry.1 ≠ b) →
      Stop read ⟨.inside, s, b.closeChar :: rest⟩
        (.error (.lex (.unmatched b.closeChar) (.ofPosition s.place 1)))
  | misread {s c rest misread} : StartsWord c → read s.previous c rest = .error misread →
      Stop read ⟨.inside, s, c :: rest⟩
        (.error (.lex misread.fault
          (.ofPosition (s.place.after ((c :: rest).take misread.skipped)) misread.width)))

variable {read : Lexicon ω} {c : Char} {rest blanks : List Char} {s : Scanner ω} {a : Stage ω}

theorem leadingBlanks_append (hb : ∀ b ∈ blanks, isIndent b = true) (hc : isIndent c = false) :
    leadingBlanks (blanks ++ c :: rest) = blanks := by
  simp [leadingBlanks, takeWhile_append_of_pos hb, hc]

theorem dropWhile_isIndent_append (hb : ∀ b ∈ blanks, isIndent b = true) (hc : isIndent c = false) :
    (blanks ++ c :: rest).dropWhile isIndent = c :: rest := by
  simp [dropWhile_append_of_pos hb, hc]

theorem lineTokens_blanks (hb : ∀ b ∈ blanks, isIndent b = true) :
    lineTokens read s blanks = (s.pass blanks).finish := by
  have taken : leadingBlanks blanks = blanks := takeWhile_eq_self_iff.mpr hb
  have dropped : blanks.dropWhile isIndent = [] := dropWhile_eq_nil_iff.mpr hb
  unfold lineTokens
  split
  next => rw [taken]
  next c rest eq => simp [dropped] at eq

theorem lineTokens_append (hb : ∀ b ∈ blanks, isIndent b = true) (hc : isIndent c = false) :
    lineTokens read s (blanks ++ c :: rest) =
      if c = '\n' ∨ c = '\r' then lineTokens read ((s.pass blanks).pass [c]) rest
      else if c = '#' then
        lineTokens read ((s.pass blanks).pass (c :: comment rest)) (afterComment rest)
      else
        match s.blocks.update (indentWidth blanks) with
        | .error left =>
          .error (.lex (.inconsistentIndentation (indentWidth blanks) left.top)
            (.ofPosition (s.pass blanks).place 0))
        | .ok (change, blocks) =>
          (restTokens read { s.pass blanks with
              blocks, previous := (layoutKinds change).getLast?.or s.previous } (c :: rest)).map
            ((layoutKinds change).map ((s.pass blanks).token · []) ++ ·) := by
  have taken : leadingBlanks (blanks ++ c :: rest) = blanks := leadingBlanks_append hb hc
  have dropped : (blanks ++ c :: rest).dropWhile isIndent = c :: rest :=
    dropWhile_isIndent_append hb hc
  rw [lineTokens]
  split
  next eq => simp [dropped] at eq
  next c' rest' eq =>
    rw [dropped] at eq
    cases eq
    rw [taken]
    rfl

theorem pass_append (s : Scanner ω) (first second : List Char) :
    s.pass (first ++ second) = (s.pass first).pass second := by
  simp [pass, Position.after_append]

theorem comment_append {words : List Char} (hw : '\n' ∉ words) (hr : AtLineEnd rest) :
    comment (words ++ rest) = words ∧ afterComment (words ++ rest) = rest := by
  have hall : ∀ c ∈ words, decide (c ≠ '\n') = true := by
    intro c hc
    have : c ≠ '\n' := fun eq => hw (eq ▸ hc)
    simp [this]
  unfold comment afterComment
  rw [takeWhile_append_of_pos hall, dropWhile_append_of_pos hall]
  cases rest with
  | nil => simp
  | cons c rest =>
    have eq : c = '\n' := hr c (by simp)
    simp [eq]

theorem comment_cases (cs : List Char) :
    cs = comment cs ++ afterComment cs ∧ '\n' ∉ comment cs ∧ AtLineEnd (afterComment cs) := by
  refine ⟨takeWhile_append_dropWhile.symm, ?_, ?_⟩
  · intro hm
    simpa using mem_takeWhile_imp hm
  · intro c hc
    have := head?_dropWhile_not (fun c => decide (c ≠ '\n')) cs
    unfold afterComment at hc
    rw [Option.mem_def.mp hc] at this
    simpa using this

theorem isIndent_of_isLayoutChar (h : isLayoutChar c = false) : isIndent c = false := by
  simp_all [isLayoutChar, isIndent]

theorem StartsWord.ne (h : StartsWord c) : ¬(c = ' ' ∨ c = '\t' ∨ c = '\r') ∧ c ≠ '\n' ∧ c ≠ '#' := by
  have := h.layout
  simp_all [isLayoutChar]

theorem restTokens_read (h : StartsWord c) : restTokens read s (c :: rest) =
      match read s.previous c rest with
      | .error misread =>
        .error (.lex misread.fault
          (.ofPosition (s.place.after ((c :: rest).take misread.skipped)) misread.width))
      | .ok (.gap more) =>
        restTokens read (s.pass (c :: rest.take more)) (rest.drop more)
      | .ok (.word w more) =>
        (restTokens read (s.emit (.word w) (c :: rest.take more)) (rest.drop more)).map
          (s.token (.word w) (c :: rest.take more) :: ·) := by
  rw [restTokens]
  cases read s.previous c rest with
  | error misread => simp only [h.ne, if_false, h.opening, h.closing]
  | ok reading =>
    cases reading <;> simp only [h.ne, if_false, h.opening, h.closing]

theorem openChar_layout (b : Bracket) :
    ¬(b.openChar = ' ' ∨ b.openChar = '\t' ∨ b.openChar = '\r') ∧ b.openChar ≠ '\n' ∧
      b.openChar ≠ '#' := by
  cases b <;> decide

theorem closeChar_layout (b : Bracket) :
    ¬(b.closeChar = ' ' ∨ b.closeChar = '\t' ∨ b.closeChar = '\r') ∧ b.closeChar ≠ '\n' ∧
      b.closeChar ≠ '#' ∧ Bracket.ofOpenChar? b.closeChar = none := by
  cases b <;> decide

/-- What a move leads to, behind the tokens it makes. -/
theorem Step.scan_eq {b : Stage ω} {out : List (Token ω)} (h : Step read a out b) :
    scan read a = (scan read b).map (out ++ ·) := by
  have unchanged : ∀ r : Except Fault (List (Token ω)), r = r.map ([] ++ ·) := by
    intro r
    cases r <;> rfl
  cases h with
  | @emptyLine s blanks c rest hb hc =>
    have hi : isIndent c = false := by rcases hc with rfl | rfl <;> rfl
    simp only [scan, lineTokens_append hb hi, if_pos hc, pass_append]
    exact unchanged _
  | @commentLine s blanks words rest hb hw hr =>
    have hi : isIndent '#' = false := rfl
    obtain ⟨hc, ha⟩ := comment_append hw hr
    simp only [scan, lineTokens_append hb hi, pass_append, hc, ha]
    exact unchanged _
  | @layout s blanks c rest change blocks hb hc hu =>
    have hi := isIndent_of_isLayoutChar hc
    simp only [isLayoutChar, Bool.or_eq_false_iff, beq_eq_false_iff_ne] at hc
    simp only [scan, lineTokens_append hb hi, hc, false_or, if_false, hu]
  | blank hc =>
    simp only [scan]
    rw [restTokens, if_pos hc]
    exact unchanged _
  | lineEnd ho =>
    simp only [scan]
    rw [restTokens]
    simp [ho]
  | joinedLine ho =>
    simp only [scan]
    rw [restTokens]
    simp [ho]
    exact unchanged _
  | comment hw hr =>
    obtain ⟨hc, ha⟩ := comment_append hw hr
    simp only [scan]
    rw [restTokens]
    simp [hc, ha]
    exact unchanged _
  | opening b =>
    have hb := Bracket.ofOpenChar?_eq_some_iff.mpr (rfl : b.openChar = b.openChar)
    simp only [scan]
    rw [restTokens]
    simp only [openChar_layout b, if_false, hb]
    rfl
  | @closing s rest b span opened ho =>
    have hb := Bracket.ofCloseChar?_eq_some_iff.mpr (rfl : b.closeChar = b.closeChar)
    simp only [scan]
    rw [restTokens]
    simp only [closeChar_layout b, if_false, hb, ho, if_true]
    rfl
  | gap hc hr =>
    simp only [scan, restTokens_read hc, hr]
    exact unchanged _
  | word hc hr =>
    simp only [scan, restTokens_read hc, hr]
    rfl

theorem Stop.scan_eq {r : Except Fault (List (Token ω))} (h : Stop read a r) : scan read a = r := by
  cases h with
  | lineFinish hb => exact lineTokens_blanks hb
  | finish => simp only [scan, restTokens]
  | @dedent s blanks c rest left hb hc hu =>
    have hi := isIndent_of_isLayoutChar hc
    simp only [isLayoutChar, Bool.or_eq_false_iff, beq_eq_false_iff_ne] at hc
    simp only [scan, lineTokens_append hb hi, hc, false_or, if_false, hu]
  | @unmatched s rest b ho =>
    have hb := Bracket.ofCloseChar?_eq_some_iff.mpr (rfl : b.closeChar = b.closeChar)
    simp only [scan]
    rw [restTokens]
    simp only [closeChar_layout b, if_false, hb]
    cases eq : s.opened with
    | nil => rfl
    | cons entry opened =>
      have hne := ho entry (by simp [eq])
      simp only [hne, if_false]
  | misread hc hr => simp only [scan, restTokens_read hc, hr]

end ViewBridge.Scanner
