import ViewBridge.Model.Build
import ViewBridge.Proofs.Classes.Parting
import ViewBridge.Proofs.Source.Layout

namespace ViewBridge

open List

variable {lead blanks word more : List Char}

theorem append_cons_inj {α : Type} {p : α → Prop} {l l' r r' : List α} {c c' : α}
    (h : l ++ c :: r = l' ++ c' :: r') (hl : ∀ x ∈ l, p x) (hl' : ∀ x ∈ l', p x) (hc : ¬p c)
    (hc' : ¬p c') : l = l' ∧ c = c' ∧ r = r' := by
  induction l generalizing l' with
  | nil =>
    cases l' with
    | nil => exact ⟨rfl, List.cons.inj h⟩
    | cons x l' =>
      obtain ⟨rfl, _⟩ := List.cons.inj h
      exact absurd (hl' c mem_cons_self) hc
  | cons x l ih =>
    cases l' with
    | nil =>
      obtain ⟨rfl, _⟩ := List.cons.inj h
      exact absurd (hl x mem_cons_self) hc'
    | cons y l' =>
      obtain ⟨rfl, rest⟩ := List.cons.inj h
      obtain ⟨rfl, tail⟩ := ih rest (forall_mem_cons.mp hl).2 (forall_mem_cons.mp hl').2
      exact ⟨rfl, tail⟩

namespace Text

variable {cs line : List Char}

theorem trimEnd_append {c : Char} (hc : isBlank c = false) (front rest : List Char) :
    trimEnd (front ++ c :: rest) = front ++ c :: trimEnd rest := by
  have kept : (c :: front.reverse).dropWhile isBlank = c :: front.reverse := by
    rw [dropWhile_cons, hc]
    rfl
  unfold trimEnd
  rw [reverse_append, reverse_cons, append_assoc, singleton_append,
    dropWhile_append, kept]
  split
  next none =>
    rw [List.isEmpty_iff.mp none]
    simp
  next => simp

theorem trimEnd_blanks (h : ∀ c ∈ cs, isBlank c = true) : trimEnd cs = [] := by
  unfold trimEnd
  rw [dropWhile_eq_nil_iff.mpr fun c hc => h c (mem_reverse.mp hc)]
  rfl

theorem trimEnd_of_last (h : ∀ d ∈ cs.getLast?, isBlank d = false) : trimEnd cs = cs := by
  rw [← head?_reverse] at h
  unfold trimEnd
  cases hr : cs.reverse with
  | nil => rw [reverse_eq_nil_iff.mp hr]; rfl
  | cons d rest =>
    rw [dropWhile_cons, h d (by rw [hr]; rfl), ← hr]
    simp

theorem exists_trimEnd (cs : List Char) :
    ∃ blanks, cs = trimEnd cs ++ blanks ∧ ∀ b ∈ blanks, isBlank b = true := by
  have split := takeWhile_append_dropWhile (p := isBlank) (l := cs.reverse)
  refine ⟨(cs.reverse.takeWhile isBlank).reverse, ?_, fun b hb => ?_⟩
  · rw [trimEnd, ← reverse_append, split, reverse_reverse]
  · exact mem_takeWhile_imp (mem_reverse.mp hb)

theorem lines_append (hn : '\n' ∉ line) (hr : '\r' ∉ line) (rest : List Char) :
    lines (line ++ '\n' :: rest) = line :: lines rest := by
  have collect : ∀ (line done : List Char), '\n' ∉ line → '\r' ∉ line → '\r' ∉ done →
      linesFrom done (line ++ '\n' :: rest) = (done.reverse ++ line) :: lines rest := by
    intro line
    induction line with
    | nil =>
      intro done _ _ hd
      have finished : finishLine done = done.reverse := by
        unfold finishLine
        split
        next => simp at hd
        next => rfl
      rw [nil_append, linesFrom, if_pos rfl, finished, append_nil]
      rfl
    | cons c line ih =>
      intro done hn hr hd
      rw [mem_cons, not_or] at hn hr
      rw [cons_append, linesFrom, if_neg (fun eq => hn.1 eq.symm),
        ih (c :: done) hn.2 hr.2 (by simp [hr.1, hd])]
      simp
  exact collect line [] hn hr nofun

theorem lines_last (hn : '\n' ∉ line) (ne : line ≠ []) : lines line = [line] := by
  have collect : ∀ (line done : List Char), '\n' ∉ line → done ++ line ≠ [] →
      linesFrom done line = [done.reverse ++ line] := by
    intro line
    induction line with
    | nil =>
      intro done _ ne
      rw [append_nil] at ne
      simp [linesFrom, ne]
    | cons c line ih =>
      intro done hn _
      rw [mem_cons, not_or] at hn
      rw [linesFrom, if_neg (fun eq => hn.1 eq.symm), ih (c :: done) hn.2 (by simp)]
      simp
  exact collect line [] hn (by simpa using ne)

/-- The first line of a text, with what stands behind its end. -/
theorem exists_line (cs : List Char) : ∃ line rest, cs = line ++ rest ∧ '\n' ∉ line ∧
    (rest = [] ∨ ∃ more, rest = '\n' :: more) := by
  refine ⟨cs.takeWhile (· ≠ '\n'), cs.dropWhile (· ≠ '\n'),
    takeWhile_append_dropWhile.symm, fun h => ?_, ?_⟩
  · simpa using mem_takeWhile_imp h
  · have first := head?_dropWhile_not (fun c => decide (c ≠ '\n')) cs
    cases hd : cs.dropWhile (· ≠ '\n') with
    | nil => exact .inl rfl
    | cons c rest =>
      rw [hd] at first
      have newline : c = '\n' := by simpa using first
      exact .inr ⟨rest, by rw [newline]⟩

end Text

namespace Model

/-- Blanks that stand in one line. -/
def Blanks (cs : List Char) : Prop := ∀ c ∈ cs, Text.isBlank c = true ∧ c ≠ '\n'

section Relation

variable (margin width : Nat)

mutual

/-- A text from a place in a line on, and its copy: blanks before the end of a line are lost. -/
inductive Copied : List Char → List Char → Prop
  | done : Copied [] []
  | char {c cs cs'} : c ≠ '\n' → Copied cs cs' → Copied (c :: cs) (c :: cs')
  | lineEnd {blanks cs cs' : _} : Blanks blanks → Begun cs cs' →
      Copied (blanks ++ '\n' :: cs) ('\n' :: cs')

/-- A text from the start of a line on, and its copy: of the blanks before the code `margin` are
lost and `width` are added. -/
inductive Begun : List Char → List Char → Prop
  | empty {blanks cs cs' : _} : Blanks blanks → Begun cs cs' → Begun (blanks ++ '\n' :: cs) ('\n' :: cs')
  | code {lead c cs cs' : _} : Blanks lead → Text.isBlank c = false → Copied cs cs' →
      Begun (lead ++ c :: cs) (List.replicate width ' ' ++ lead.drop margin ++ c :: cs')

end

end Relation

variable {margin width : Nat} {cs cs' : List Char} {c : Char}

theorem not_blanks_newline : ¬(Text.isBlank '\n' = true ∧ '\n' ≠ '\n') := fun h => h.2 rfl

theorem isBlank_newline : Text.isBlank '\n' = true := by decide

theorem ne_newline_of_code (h : Text.isBlank c = false) : c ≠ '\n' := by
  rintro rfl
  rw [isBlank_newline] at h
  cases h

namespace Copied

theorem code (h : Copied margin width (c :: cs) cs') (hc : Text.isBlank c = false) :
    ∃ cs'', cs' = c :: cs'' ∧ Copied margin width cs cs'' := by
  generalize eq : c :: cs = text at h
  cases h with
  | done => cases eq
  | char _ rest =>
    cases eq
    exact ⟨_, rfl, rest⟩
  | @lineEnd blanks cs cs' hb =>
    cases blanks with
    | nil =>
      cases eq
      rw [isBlank_newline] at hc
      cases hc
    | cons b blanks =>
      cases eq
      rw [(hb c mem_cons_self).1] at hc
      cases hc

theorem codes (h : Copied margin width (word ++ cs) cs') (hw : ∀ c ∈ word, Text.isBlank c = false) :
    ∃ cs'', cs' = word ++ cs'' ∧ Copied margin width cs cs'' := by
  induction word generalizing cs' with
  | nil => exact ⟨cs', rfl, h⟩
  | cons c word ih =>
    obtain ⟨hc, hw⟩ := forall_mem_cons.mp hw
    obtain ⟨cs'', rfl, rest⟩ := h.code hc
    obtain ⟨more, rfl, behind⟩ := ih rest hw
    exact ⟨more, rfl, behind⟩

theorem newline (h : Copied margin width ('\n' :: cs) cs') :
    ∃ cs'', cs' = '\n' :: cs'' ∧ Begun margin width cs cs'' := by
  generalize eq : '\n' :: cs = text at h
  cases h with
  | done => cases eq
  | char hc =>
    cases eq
    exact absurd rfl hc
  | @lineEnd blanks cs cs' hb begun =>
    obtain ⟨rfl, _, rfl⟩ := append_cons_inj (l := []) eq nofun hb not_blanks_newline
      not_blanks_newline
    exact ⟨cs', rfl, begun⟩

theorem blank (h : Copied margin width (' ' :: cs) cs') :
    Copied margin width cs cs' ∨ ∃ cs'', cs' = ' ' :: cs'' ∧ Copied margin width cs cs'' := by
  generalize eq : ' ' :: cs = text at h
  cases h with
  | done => cases eq
  | char _ rest =>
    cases eq
    exact .inr ⟨_, rfl, rest⟩
  | @lineEnd blanks cs cs' hb begun =>
    cases blanks with
    | nil => cases eq
    | cons b blanks =>
      cases eq
      exact .inl (.lineEnd (forall_mem_cons.mp hb).2 begun)

/-- Text up to the end of its line, such as a comment. -/
theorem words {words : List Char} (h : Copied margin width (words ++ cs) cs') (hw : '\n' ∉ words)
    (hl : Scanner.AtLineEnd cs) :
    ∃ words' cs'', cs' = words' ++ cs'' ∧ '\n' ∉ words' ∧ Copied margin width cs cs'' ∧
      Scanner.AtLineEnd cs'' := by
  induction words generalizing cs' with
  | nil =>
    refine ⟨[], cs', rfl, nofun, h, ?_⟩
    cases cs with
    | nil =>
      generalize eq : ([] : List Char) ++ [] = text at h
      cases h with
      | done => exact nofun
      | char => cases eq
      | lineEnd => simp at eq
    | cons c cs =>
      obtain rfl : c = '\n' := hl c rfl
      obtain ⟨cs'', rfl, _⟩ := h.newline
      exact fun d hd => (Option.some.inj hd).symm
  | cons c words ih =>
    rw [mem_cons, not_or] at hw
    generalize eq : c :: words ++ cs = text at h
    cases h with
    | done => cases eq
    | char hc rest =>
      cases eq
      obtain ⟨words', cs'', rfl, hn, copied, ended⟩ := ih rest hw.2
      exact ⟨c :: words', cs'', rfl, by simp [hc.symm, hn], copied, ended⟩
    | @lineEnd blanks more cs' hb begun =>
      have tail : cs = '\n' :: more := by
        have whole : ∀ b ∈ c :: words, b ≠ '\n' := by
          intro b hm
          rintro rfl
          exact (mem_cons.mp hm).elim hw.1 hw.2
        cases cs with
        | nil =>
          have mem : '\n' ∈ c :: words := by
            rw [append_nil] at eq
            simp [eq]
          exact absurd rfl (whole _ mem)
        | cons d cs =>
          obtain rfl : d = '\n' := hl d rfl
          have cut := append_cons_inj (p := (· ≠ '\n')) eq whole (fun b hm => (hb b hm).2)
            (fun h => h rfl) (fun h => h rfl)
          rw [cut.2.2]
      subst tail
      have start : Copied margin width ([] ++ '\n' :: more) ('\n' :: cs') := .lineEnd nofun begun
      exact ⟨[], '\n' :: cs', rfl, nofun, start, fun d hd => (Option.some.inj hd).symm⟩

theorem nil (h : Copied margin width [] cs') : cs' = [] := by
  generalize eq : ([] : List Char) = text at h
  cases h with
  | done => rfl
  | char => cases eq
  | lineEnd => simp at eq

/-- A text and its copy are the same up to the first character at which words end. -/
theorem exists_parted (h : Copied margin width cs cs') {behind : List Char}
    (hb : Classes.Parted behind) (more : List Char) :
    ∃ word rest rest', cs ++ behind = word ++ rest ∧ cs' ++ '\n' :: more = word ++ rest' ∧
      (∀ c ∈ word, Classes.isParting c = false) ∧ Classes.Parted rest ∧ Classes.Parted rest' := by
  have blank {b : Char} (h : Text.isBlank b = true) : Classes.goesOn b = false :=
    Classes.goesOn_of_isParting (by simp [Classes.isParting, h])
  induction cs generalizing cs' with
  | nil =>
    obtain rfl := h.nil
    exact ⟨[], behind, _, rfl, rfl, by simp, hb, Classes.parted_newline more⟩
  | cons c cs ih =>
    generalize eq : c :: cs = text at h
    cases h with
    | done => cases eq
    | @char c cs cs' _ copied =>
      cases eq
      by_cases hp : Classes.isParting c = true
      · have first (rest : List Char) : Classes.Parted (c :: rest) := by
          intro d hd
          cases hd
          exact Classes.goesOn_of_isParting hp
        exact ⟨[], _, _, rfl, rfl, by simp, first _, first _⟩
      · obtain ⟨word, rest, rest', hw, hw', plain, parted, parted'⟩ := ih copied
        refine ⟨c :: word, rest, rest', by simp [hw], by simp [hw'], ?_, parted, parted'⟩
        exact forall_mem_cons.mpr ⟨by simpa using hp, plain⟩
    | @lineEnd blanks more' cs' hs begun =>
      have first : Classes.Parted (c :: cs ++ behind) := by
        intro d hd
        cases hd
        cases blanks with
        | nil =>
          cases eq
          exact blank isBlank_newline
        | cons b blanks =>
          cases eq
          exact blank (hs c mem_cons_self).1
      exact ⟨[], c :: cs ++ behind, _, by rw [← eq]; rfl, rfl, by simp, first,
        Classes.parted_newline _⟩

end Copied

namespace Begun

variable {rest : List Char}

theorem line (h : Begun margin width cs cs') (hl : Blanks lead)
    (eq : cs = lead ++ c :: rest) (hc : Text.isBlank c = false) :
    ∃ cs'', cs' = List.replicate width ' ' ++ lead.drop margin ++ c :: cs'' ∧
      Copied margin width rest cs'' := by
  have code {c : Char} (hc : Text.isBlank c = false) : ¬(Text.isBlank c = true ∧ c ≠ '\n') := by
    rintro ⟨blank, _⟩
    rw [blank] at hc
    cases hc
  cases h with
  | empty hb =>
    have cut := append_cons_inj eq hb hl not_blanks_newline (code hc)
    exact absurd cut.2.1.symm (ne_newline_of_code hc)
  | code hb hd copied =>
    obtain ⟨rfl, rfl, rfl⟩ := append_cons_inj eq hb hl (code hd) (code hc)
    exact ⟨_, rfl, copied⟩

theorem emptyLine (h : Begun margin width cs cs') (hb : Blanks blanks)
    (eq : cs = blanks ++ '\n' :: rest) :
    ∃ cs'', cs' = '\n' :: cs'' ∧ Begun margin width rest cs'' := by
  cases h with
  | empty hb' begun =>
    obtain ⟨_, _, rfl⟩ := append_cons_inj eq hb' hb not_blanks_newline not_blanks_newline
    exact ⟨_, rfl, begun⟩
  | code hl hc =>
    have cut := append_cons_inj eq.symm hb hl not_blanks_newline (by simp [hc])
    exact absurd cut.2.1.symm (ne_newline_of_code hc)

end Begun

section Lines

theorem Copied.append (hw : '\n' ∉ word) (h : Copied margin width cs cs') :
    Copied margin width (word ++ cs) (word ++ cs') := by
  induction word with
  | nil => exact h
  | cons c word ih =>
    rw [mem_cons, not_or] at hw
    exact .char (fun eq => hw.1 eq.symm) (ih hw.2)

/-- A copied line with its end and, unless it is empty, its indentation. -/
def shownLine (width : Nat) (line : List Char) : List Char :=
  if line.isEmpty then ['\n'] else List.replicate width ' ' ++ line ++ ['\n']

/-- Lines copied below the first one, with their ends. -/
def shownLines (margin width : Nat) (lines : List (List Char)) : List Char :=
  (lines.map (dedentLine margin)).flatMap (shownLine width)

theorem render_source (lines : List String) :
    (Text.Outline.render width (Member.source lines).outline).toList =
      lines.flatMap fun line => shownLine width line.toList := by
  induction lines with
  | nil => rfl
  | cons line lines ih =>
    have first : (Text.OutlineLine.render width
        (if line.isEmpty then .empty else .line 1 line)).toList = shownLine width line.toList := by
      have empty : line.toList.isEmpty = line.isEmpty := by
        rw [Bool.eq_iff_iff, List.isEmpty_iff, String.isEmpty_iff, String.toList_eq_nil_iff]
      unfold shownLine
      rw [empty]
      split
      next => simp [Text.OutlineLine.render]
      next => simp [Text.OutlineLine.render]
    have split : (Member.source (line :: lines)).outline =
        (if line.isEmpty then .empty else .line 1 line) :: (Member.source lines).outline := rfl
    rw [split, Scanner.render_cons, first, ih, flatMap_cons]

theorem dedentLine_blanks (h : Blanks blanks) : dedentLine margin blanks = [] :=
  Text.trimEnd_blanks fun c hc => (h c (mem_of_mem_drop hc)).1

theorem dedentLine_code {rest : List Char} (hl : Blanks lead) (hc : Text.isBlank c = false) :
    dedentLine margin (lead ++ c :: rest) = lead.drop margin ++ c :: Text.trimEnd rest := by
  have leading : (lead ++ c :: rest).takeWhile Text.isBlank = lead := by
    rw [takeWhile_append_of_pos fun b hb => (hl b hb).1, takeWhile_cons, hc]
    simp
  have cut : (lead ++ c :: rest).drop (min lead.length margin) = lead.drop margin ++ c :: rest := by
    rw [drop_append_of_le_length (Nat.min_le_left ..)]
    by_cases h : margin ≤ lead.length
    · rw [Nat.min_eq_right h]
    · rw [Nat.min_eq_left (by omega), drop_length, drop_of_length_le (by omega)]
  show Text.trimEnd ((lead ++ c :: rest).drop
    (min ((lead ++ c :: rest).takeWhile Text.isBlank).length margin)) = _
  rw [leading, cut, Text.trimEnd_append hc]

theorem lines_lead {first : List Char} {others : List (List Char)} (hn : '\n' ∉ lead)
    (hr : '\r' ∉ lead ++ cs) (h : Text.lines cs = first :: others) :
    Text.lines (lead ++ cs) = (lead ++ first) :: others := by
  obtain ⟨line, rest, rfl, hl, rfl | ⟨more, rfl⟩⟩ := Text.exists_line cs
  · have some : line ≠ [] := by
      rintro rfl
      cases h
    rw [append_nil] at h ⊢
    rw [Text.lines_last hl some] at h
    cases h
    rw [Text.lines_last (by simp [hn, hl]) (by simp [some])]
  · simp only [mem_append, not_or] at hr
    rw [Text.lines_append hl hr.2.1] at h
    cases h
    rw [← append_assoc, Text.lines_append (by simp [hn, hl]) (by simp [hr])]

theorem exists_first (cs : List Char) : Blanks cs ∨
    ∃ lead c rest, cs = lead ++ c :: rest ∧ Blanks lead ∧ (c = '\n' ∨ Text.isBlank c = false) := by
  induction cs with
  | nil => exact .inl nofun
  | cons c cs ih =>
    by_cases hc : c = '\n' ∨ Text.isBlank c = false
    · exact .inr ⟨[], c, cs, rfl, nofun, hc⟩
    · simp only [not_or, Bool.not_eq_false] at hc
      have first : Text.isBlank c = true ∧ c ≠ '\n' := ⟨hc.2, hc.1⟩
      rcases ih with blanks | ⟨lead, d, rest, rfl, blanks, hd⟩
      · exact .inl (forall_mem_cons.mpr ⟨first, blanks⟩)
      · exact .inr ⟨c :: lead, d, rest, rfl, forall_mem_cons.mpr ⟨first, blanks⟩, hd⟩

/-- A text from inside a line on has a copy, which is spelled by the rest of the line and the lines
below it. -/
def HasCopy (margin width : Nat) (cs : List Char) : Prop :=
  ∃ cs' first others, Copied margin width cs cs' ∧
    (∀ c, Text.isBlank c = false → c ≠ '\r' → Text.lines (c :: cs) = (c :: first) :: others) ∧
    Text.trimEnd first ++ '\n' :: shownLines margin width others = cs' ++ ['\n']

/-- The same for a text from the start of a line on. -/
def HasCopiedLines (margin width : Nat) (cs : List Char) : Prop :=
  ∃ cs', Begun margin width cs cs' ∧ shownLines margin width (Text.lines cs) = cs' ++ ['\n']

theorem hasCopy_line (margin width : Nat) {line : List Char} (hn : '\n' ∉ line)
    (last : ∀ d ∈ line.getLast?, Text.isBlank d = false) : HasCopy margin width line := by
  refine ⟨line, line, [], ?_, fun c hc _ => ?_, ?_⟩
  · have copied : Copied margin width (line ++ []) (line ++ []) := .append hn .done
    rwa [append_nil] at copied
  · refine Text.lines_last ?_ nofun
    rw [mem_cons, not_or]
    exact ⟨fun eq => ne_newline_of_code hc eq.symm, hn⟩
  · rw [Text.trimEnd_of_last last]
    rfl

theorem HasCopiedLines.behind {line : List Char} (h : HasCopiedLines margin width more)
    (hn : '\n' ∉ line) (hr : '\r' ∉ line) : HasCopy margin width (line ++ '\n' :: more) := by
  obtain ⟨more', begun, shown⟩ := h
  obtain ⟨blanks, split, blank⟩ := Text.exists_trimEnd line
  have kept : '\n' ∉ Text.trimEnd line := fun hm => hn (by rw [split]; simp [hm])
  have dropped : Blanks blanks := by
    intro b hb
    refine ⟨blank b hb, ?_⟩
    rintro rfl
    exact hn (by rw [split]; simp [hb])
  refine ⟨Text.trimEnd line ++ '\n' :: more', line, Text.lines more, ?_, fun c hc hr' => ?_, ?_⟩
  · have copied := Copied.append kept (.lineEnd dropped begun)
    rwa [← append_assoc, ← split] at copied
  · have whole : c :: (line ++ '\n' :: more) = (c :: line) ++ '\n' :: more := rfl
    rw [whole, Text.lines_append]
    · rw [mem_cons, not_or]
      exact ⟨fun eq => ne_newline_of_code hc eq.symm, hn⟩
    · rw [mem_cons, not_or]
      exact ⟨fun eq => hr' eq.symm, hr⟩
  · rw [shown]
    simp

theorem HasCopiedLines.empty (h : HasCopiedLines margin width more)
    (hb : Blanks blanks) (hr : '\r' ∉ blanks) :
    HasCopiedLines margin width (blanks ++ '\n' :: more) := by
  obtain ⟨more', begun, shown⟩ := h
  refine ⟨'\n' :: more', .empty hb begun, ?_⟩
  have line : shownLine width (dedentLine margin blanks) = ['\n'] := by
    rw [dedentLine_blanks hb]
    rfl
  rw [Text.lines_append (fun hm => (hb _ hm).2 rfl) hr, shownLines, map_cons, flatMap_cons,
    line]
  exact congrArg ('\n' :: ·) shown

theorem HasCopy.code {rest : List Char} (h : HasCopy margin width rest) (hl : Blanks lead)
    (hc : Text.isBlank c = false) (hr : '\r' ∉ lead ++ c :: rest) :
    HasCopiedLines margin width (lead ++ c :: rest) := by
  obtain ⟨rest', first, others, copied, lines, shown⟩ := h
  refine ⟨List.replicate width ' ' ++ lead.drop margin ++ c :: rest', .code hl hc copied, ?_⟩
  have return_free : c ≠ '\r' := fun eq => hr (by simp [eq])
  have line : shownLine width (dedentLine margin (lead ++ c :: first)) =
      List.replicate width ' ' ++ lead.drop margin ++ c :: (Text.trimEnd first ++ ['\n']) := by
    rw [dedentLine_code hl hc]
    simp [shownLine]
  have all := lines_lead (fun hm => (hl _ hm).2 rfl) hr (lines c hc return_free)
  have split : Text.trimEnd first ++ ['\n'] ++ shownLines margin width others = rest' ++ ['\n'] := by
    rw [append_assoc]
    exact shown
  rw [all, shownLines, map_cons, flatMap_cons, line, append_assoc, cons_append,
    show (others.map (dedentLine margin)).flatMap (shownLine width) =
      shownLines margin width others from rfl, split]
  simp

/-- Every text that ends with code has its copy. -/
theorem exists_copy (margin width : Nat) (cs : List Char) (hr : '\r' ∉ cs)
    (last : ∀ d ∈ cs.getLast?, Text.isBlank d = false) :
    HasCopy margin width cs ∧ (cs ≠ [] → HasCopiedLines margin width cs) := by
  induction hn : cs.length using Nat.strong_induction_on generalizing cs with
  | _ n ih =>
    have below {front more : List Char} {c : Char} (eq : cs = front ++ c :: more) :
        HasCopy margin width more ∧ (more ≠ [] → HasCopiedLines margin width more) := by
      subst eq
      rw [length_append, length_cons] at hn
      refine ih more.length (by omega) more (fun hm => hr (by simp [hm])) (fun d hd => ?_) rfl
      refine last d ?_
      rw [getLast?_append, getLast?_cons, Option.mem_def.mp hd]
      rfl
    have ended {front more : List Char} (eq : cs = front ++ '\n' :: more) : more ≠ [] := by
      rintro rfl
      have blank := last '\n' (by simp [eq])
      rw [isBlank_newline] at blank
      cases blank
    refine ⟨?_, fun ne => ?_⟩
    · obtain ⟨line, rest, eq, hl, rfl | ⟨more, rfl⟩⟩ := Text.exists_line cs
      · rw [append_nil] at eq
        subst eq
        exact hasCopy_line margin width hl last
      · have free : '\r' ∉ line := fun hm => hr (by simp [eq, hm])
        rw [eq]
        exact ((below eq).2 (ended eq)).behind hl free
    · rcases exists_first cs with blanks | ⟨lead, c, rest, eq, blanks, rfl | hc⟩
      · have blank := (blanks _ (getLast_mem ne)).1
        rw [last _ (getLast?_eq_some_getLast ne)] at blank
        cases blank
      · have free : '\r' ∉ lead := fun hm => hr (by simp [eq, hm])
        rw [eq]
        exact ((below eq).2 (ended eq)).empty blanks free
      · rw [eq] at hr ⊢
        exact (below eq).1.code blanks hc hr

/-- The lines copied for a stretch of a source, as they are rendered. -/
theorem exists_copied_source {source : String} {extent : Span} (width : Nat)
    (text : (extent.text source).toList = c :: cs) (hr : '\r' ∉ c :: cs)
    (hc : Text.isBlank c = false) (last : ∀ d ∈ cs.getLast?, Text.isBlank d = false) :
    ∃ cs', Copied (extent.column - 1) width cs cs' ∧
      (Text.Outline.render width (Member.source (sourceLines source extent)).outline).toList =
        List.replicate width ' ' ++ c :: (cs' ++ ['\n']) := by
  rw [mem_cons, not_or] at hr
  obtain ⟨cs', first, others, copied, lines, shown⟩ :=
    (exists_copy (extent.column - 1) width cs hr.2 last).1
  refine ⟨cs', copied, ?_⟩
  have all := lines c hc (fun eq => hr.1 eq.symm)
  have trimmed : Text.trimEnd (c :: first) = c :: Text.trimEnd first := Text.trimEnd_append hc [] first
  rw [render_source, sourceLines, text, all]
  simp only [flatMap_cons, String.toList_ofList, trimmed, flatMap_map]
  have line : shownLine width (c :: Text.trimEnd first) =
      List.replicate width ' ' ++ c :: (Text.trimEnd first ++ ['\n']) := by
    simp [shownLine]
  have rest : (others.flatMap fun line => shownLine width (dedentLine (extent.column - 1) line)) =
      shownLines (extent.column - 1) width others := (flatMap_map ..).symm
  rw [line, rest, append_assoc, cons_append, append_assoc, ← shown]
  rfl

end Lines

end Model

end ViewBridge
