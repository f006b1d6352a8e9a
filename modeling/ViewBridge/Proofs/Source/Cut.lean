import ViewBridge.Proofs.Source.Statements
import ViewBridge.Proofs.Source.Tiling

namespace ViewBridge

open List

variable {ω : Type}

namespace Lexicon

/-- The same words, with text that makes no token refused at the start of a line. -/
def firmStarts (read : Lexicon ω) : Lexicon ω := fun previous c cs =>
  match read previous c cs with
  | .ok (.gap n) =>
    if previous.any (·.isText) then .ok (.gap n) else .error ⟨.afterContinuation, 0, 1⟩
  | r => r

theorem extends_firmStarts (read : Lexicon ω) : read.Extends read.firmStarts := by
  intro previous c cs lexeme h
  unfold firmStarts at h
  split at h
  next n hr =>
    split at h
    next => rw [hr, h]
    next => cases h
  next => exact h

theorem gapsInside_firmStarts (read : Lexicon ω) : read.firmStarts.GapsInside := by
  intro previous c cs n h
  unfold firmStarts at h
  split at h
  next m hr =>
    split at h
    next before =>
      cases previous with
      | none => cases before
      | some k => exact ⟨k, rfl, before⟩
    next => cases h
  next other => exact absurd h (other n)

end Lexicon

variable {ts back : List (Token ω)} {t : Token ω}

namespace Scanner

variable {read : Lexicon ω} {a b : Stage ω} {out : List (Token ω)} {blanks source : List Char}

theorem Step.out_cases (h : Step read a out b) :
    (∀ t ∈ out, t.kind.isText = false) ∨ ∃ t, out = [t] ∧ t.kind.isText = true := by
  cases h with
  | emptyLine | commentLine | blank | joinedLine | comment | gap => exact .inl nofun
  | layout =>
    refine .inl fun t ht => ?_
    obtain ⟨k, hk, rfl⟩ := mem_map.mp ht
    exact (layoutKinds_isText k hk).1
  | lineEnd => exact .inl fun t ht => mem_singleton.mp ht ▸ rfl
  | opening | closing | word => exact .inr ⟨_, rfl, rfl⟩

theorem Stop.isText (h : Stop read a (.ok ts)) : ∀ t ∈ ts, t.kind.isText = false := by
  have finished {s : Scanner ω} {ts : List (Token ω)} (h : s.finish = .ok ts) :
      ∀ t ∈ ts, t.kind.isText = false := by
    unfold Scanner.finish at h
    split at h
    next => cases h
    next =>
      cases h
      intro t ht
      obtain ⟨k, hk, rfl⟩ := mem_map.mp ht
      exact closingKinds_isText k hk
  generalize eq : Except.ok ts = r at h
  cases h with
  | lineFinish | finish => exact finished eq.symm
  | dedent | unmatched | misread => cases eq

/-- A run can be cut before and behind each token of the text. -/
theorem exists_steps_of_scan (a : Stage ω) (front : List (Token ω))
    (h : scan read a = .ok (front ++ t :: back)) (ht : t.kind.isText = true) :
    ∃ b c, Steps read a front b ∧ Step read b [t] c ∧ scan read c = .ok back := by
  induction hn : a.size using Nat.strong_induction_on generalizing a front with
  | _ n ih =>
    rcases exists_move read a with ⟨r, hs⟩ | ⟨out, b, hs, lt⟩
    · rw [hs.scan_eq] at h
      subst h
      have mark := hs.isText t (by simp)
      rw [mark] at ht
      cases ht
    · rw [hs.scan_eq] at h
      obtain ⟨rest, scanned, eq⟩ := exists_of_map h
      rcases append_eq_append_iff.mp eq with ⟨more, rfl, tail⟩ | ⟨more, rfl, tail⟩
      · obtain ⟨c, d, steps, step, left⟩ := ih b.size (hn ▸ lt) b more (by rw [scanned, tail]) rfl
        exact ⟨c, d, .step hs steps, step, left⟩
      · cases more with
        | nil =>
          obtain ⟨c, d, steps, step, left⟩ := ih b.size (hn ▸ lt) b []
            (by rw [scanned, tail]; rfl) rfl
          have whole := Steps.step hs steps
          simp only [append_nil] at whole
          exact ⟨c, d, whole, step, left⟩
        | cons u more =>
          obtain ⟨rfl, rfl⟩ := List.cons.inj tail
          rcases hs.out_cases with marks | ⟨u, one, _⟩
          · have mark := marks t (by simp)
            rw [mark] at ht
            cases ht
          · obtain ⟨rfl, rest⟩ := (append_eq_singleton_iff.mp one).resolve_right (by simp)
            cases rest
            exact ⟨a, b, .refl, hs, scanned⟩

/-- The span of a token of the text, and where its line is indented to if it is the first one. -/
theorem Step.span (h : Step read a [t] b) (ht : t.kind.isText = true) :
    a.mode = .inside ∧ t.span.start = a.scanner.place.offset ∧
      t.span.column = a.scanner.place.column ∧ t.span.stop = b.scanner.place.offset := by
  generalize eq : [t] = out at h
  have layout {s : Scanner ω} {k : TokenKind ω} {text : List Char} (h : [t] = [s.token k text])
      (hk : k.isText = false) : False := by
    obtain rfl := singleton_inj.mp h
    rw [show (s.token k text).kind.isText = k.isText from rfl, hk] at ht
    cases ht
  have text {s : Scanner ω} {k : TokenKind ω} {text : List Char} (h : [t] = [s.token k text]) :
      t.span.start = s.place.offset ∧ t.span.column = s.place.column ∧
        t.span.stop = (s.place.after text).offset := by
    obtain rfl := singleton_inj.mp h
    exact ⟨rfl, rfl, (Position.offset_after ..).symm⟩
  cases h with
  | emptyLine | commentLine | blank | joinedLine | comment | gap => cases eq
  | layout =>
    obtain ⟨k, hk, rfl⟩ := mem_map.mp (eq ▸ mem_singleton_self t)
    rw [show (Scanner.token _ k []).kind.isText = k.isText from rfl,
      (layoutKinds_isText k hk).1] at ht
    cases ht
  | lineEnd => exact (layout eq rfl).elim
  | opening | closing | word => exact ⟨rfl, text eq⟩

theorem Step.inside (h : Step read a [t] b) (ht : t.kind.isText = true) : b.mode = .inside := by
  generalize eq : [t] = out at h
  cases h with
  | lineEnd =>
    obtain rfl := singleton_inj.mp eq
    cases ht
  | emptyLine | commentLine => cases eq
  | _ => rfl

theorem Step.previous (h : Step read a out b) :
    b.scanner.previous = (out.map (·.kind)).getLast?.or a.scanner.previous := by
  cases h with
  | layout => rw [map_kind_token]
  | _ => rfl

theorem Steps.previous (h : Steps read a out b) :
    b.scanner.previous = (out.map (·.kind)).getLast?.or a.scanner.previous := by
  induction h with
  | refl => rfl
  | step hs _ ih =>
    rw [ih, hs.previous, map_append, getLast?_append, Option.or_assoc]

theorem Step.at_depth (h : Step read a out b) :
    b.scanner.blocks.depth + (out.map (·.kind)).countP TokenKind.isDedent =
      a.scanner.blocks.depth + (out.map (·.kind)).countP TokenKind.isIndent := by
  cases h with
  | layout _ _ hu =>
    rw [map_kind_token]
    exact update_depth hu
  | _ => rfl

theorem Steps.at_depth (h : Steps read a out b) :
    b.scanner.blocks.depth + (out.map (·.kind)).countP TokenKind.isDedent =
      a.scanner.blocks.depth + (out.map (·.kind)).countP TokenKind.isIndent := by
  induction h with
  | refl => rfl
  | step hs _ ih =>
    have first := hs.at_depth
    simp only [map_append, countP_append]
    omega

theorem update_top {i blocks : Indentation} {width : Nat} {change : IndentChange}
    (h : i.update width = .ok (change, blocks)) : blocks.top = width := by
  unfold Indentation.update at h
  split at h
  next =>
    cases h
    rfl
  next =>
    split at h
    next same =>
      cases h
      exact same.symm
    next =>
      dsimp only at h
      split at h
      next same =>
        cases h
        exact same.symm
      next => cases h

theorem column_after_blanks (p : Position) (h : ∀ b ∈ blanks, b = ' ') :
    (p.after blanks).column = p.column + blanks.length := by
  induction blanks generalizing p with
  | nil => rfl
  | cons b blanks ih =>
    obtain ⟨rfl, rest⟩ := forall_mem_cons.mp h
    have step : (p.step ' ').column = p.column + 1 := rfl
    rw [Position.after_cons, ih _ rest, step, length_cons]
    omega

theorem indentWidth_spaces (h : ∀ b ∈ blanks, b = ' ') : indentWidth blanks = blanks.length := by
  induction blanks with
  | nil => rfl
  | cons b blanks ih =>
    obtain ⟨rfl, rest⟩ := forall_mem_cons.mp h
    have width : indentWidth (' ' :: blanks) = 1 + indentWidth blanks := rfl
    rw [width, ih rest, length_cons, Nat.add_comm]

theorem column_after_newline (p : Position) (text : List Char) :
    (p.after (text ++ ['\n'])).column = 1 := by
  rw [Position.after_append]
  rfl

/-- Lines start in the first column, and the first token of a line stands behind its indentation and
outside brackets. -/
def Flush (a : Stage ω) : Prop :=
  match a.mode with
  | .line => a.scanner.place.column = 1 ∨ a.rest.head? = some '\n' ∨ a.rest = []
  | .inside => (∀ k ∈ a.scanner.previous, k.isText = false) →
      a.scanner.place.column = a.scanner.blocks.top + 1 ∧ a.scanner.opened = []

/-- What holds of every place of a text in which a column is a character and each line starts with
its first token. -/
structure Reached (source : List Char) (a : Stage ω) : Prop where
  placed : At source a
  valid : Valid a
  started : Started a
  flush : Flush a

theorem Step.flush (hg : read.GapsInside) (h : Step read a out b)
    (plain : ∀ c ∈ a.rest, c ≠ '\t' ∧ c ≠ '\r') (valid : Valid a) (started : Started a)
    (ha : Flush a) : Flush b := by
  have spaces {blanks : List Char} (hb : ∀ b ∈ blanks, isIndent b = true)
      (hp : ∀ c ∈ blanks, c ≠ '\t' ∧ c ≠ '\r') : ∀ b ∈ blanks, b = ' ' := by
    intro b hm
    have mark := hb b hm
    simp only [isIndent, Bool.or_eq_true, beq_iff_eq] at mark
    exact mark.resolve_right (hp b hm).1
  have behind {s : Scanner ω} (h : ∃ k, s.previous = some k ∧ k.isText = true) {P : Prop} :
      (∀ k ∈ s.previous, k.isText = false) → P := by
    obtain ⟨k, hp, hk⟩ := h
    intro none
    rw [none k hp] at hk
    cases hk
  cases h with
  | @emptyLine s blanks c rest hb hc =>
    have newline : c = '\n' := hc.resolve_right (plain c (by simp)).2
    subst newline
    exact .inl (column_after_newline _ blanks)
  | @commentLine s blanks words rest hb hw hr =>
    cases rest with
    | nil => exact .inr (.inr rfl)
    | cons c rest => exact .inr (.inl (congrArg some (hr c rfl)))
  | @layout s blanks c rest change blocks hb hc hu =>
    have hp : ∀ c ∈ blanks, c ≠ '\t' ∧ c ≠ '\r' := fun c hm => plain c (by simp [hm])
    have only := spaces hb hp
    have first : s.place.column = 1 := by
      rcases ha with first | ended | ended
      · exact first
      · cases blanks with
        | nil =>
          cases ended
          cases hc
        | cons b blanks =>
          cases ended
          cases only '\n' (by simp)
      · simp at ended
    intro _
    have column := column_after_blanks s.place only
    have top := update_top hu
    rw [indentWidth_spaces only] at top
    refine ⟨?_, valid.line_opened rfl⟩
    show (s.place.after blanks).column = blocks.top + 1
    omega
  | blank hc => exact behind (started.exists_text (by rcases hc with rfl | rfl | rfl <;> rfl))
  | lineEnd => exact .inl (column_after_newline _ [])
  | joinedLine | comment => exact behind (started.exists_text rfl)
  | opening | closing | word => exact behind ⟨_, rfl, rfl⟩
  | gap _ hr => exact behind (hg _ _ _ _ hr)

theorem Steps.reached (hg : read.GapsInside) (plain : ∀ c ∈ source, c ≠ '\t' ∧ c ≠ '\r')
    (h : Steps read a out b) (ha : Reached source a) : Reached source b := by
  induction h with
  | refl => exact ha
  | step hs _ ih =>
    obtain ⟨front, rfl, _⟩ := ha.placed.place
    exact ih ⟨hs.at ha.placed, hs.valid ha.valid, hs.started hg ha.started,
      hs.flush hg (fun c hc => plain c (by simp [hc])) ha.valid ha.started ha.flush⟩

theorem reached_start (source : List Char) : Reached source (⟨.line, {}, source⟩ : Stage ω) where
  placed := ⟨⟨[], rfl, rfl⟩, nofun⟩
  valid := valid_start source
  started := nofun
  flush := .inl rfl

theorem not_text_of_scan (h : scan read a = .ok ts)
    (ht : ∀ t ∈ ts.head?, t.kind.isText = false) (hk : t.kind.isText = true)
    (hs : scan read a = (scan read b).map ([t] ++ ·)) : False := by
  rw [h] at hs
  obtain ⟨more, _, rfl⟩ := exists_of_map hs.symm
  rw [ht t rfl] at hk
  cases hk

/-- Where no token of the text follows on the line, there is nothing but layout and gaps. -/
theorem next_of_scan (ha : a.mode = .inside) (h : scan read a = .ok ts)
    (ht : ∀ t ∈ ts.head?, t.kind.isText = false) {c : Char} {rest : List Char}
    (hr : a.rest = c :: rest) :
    isLayoutChar c = true ∨ ∃ n, read a.scanner.previous c rest = .ok (.gap n) := by
  rcases exists_move read a with ⟨r, hs⟩ | ⟨out, b, hs, _⟩
  · have eq := hs.scan_eq.symm.trans h
    cases hs with
    | lineFinish | dedent => cases ha
    | finish => cases hr
    | unmatched | misread => cases eq
  · have eq := hs.scan_eq
    cases hs with
    | emptyLine | commentLine | layout => cases ha
    | blank hc =>
      cases hr
      exact .inl (by rcases hc with rfl | rfl | rfl <;> rfl)
    | lineEnd | joinedLine | comment =>
      cases hr
      exact .inl rfl
    | opening | closing | word => exact (not_text_of_scan h ht rfl eq).elim
    | gap _ hn =>
      cases hr
      exact .inr ⟨_, hn⟩

/-- Where no token of the text follows, all brackets are closed. -/
theorem opened_of_scan (a : Stage ω) (ha : a.mode = .inside)
    (h : scan read a = .ok ts) (ht : ∀ t ∈ ts.head?, t.kind.isText = false) :
    a.scanner.opened = [] := by
  induction hn : a.size using Nat.strong_induction_on generalizing a with
  | _ n ih =>
    rcases exists_move read a with ⟨r, hs⟩ | ⟨out, b, hs, lt⟩
    · have eq := hs.scan_eq.symm.trans h
      cases hs with
      | lineFinish | dedent => cases ha
      | finish =>
        unfold Scanner.finish at eq
        split at eq
        next => cases eq
        next none => exact none
      | unmatched | misread => cases eq
    · have eq := hs.scan_eq
      have silent (inside : b.mode = .inside) (none : out = []) : b.scanner.opened = [] := by
        rw [h, none] at eq
        obtain ⟨more, scanned, rfl⟩ := exists_of_map eq.symm
        exact ih b.size (hn ▸ lt) b inside scanned rfl
      cases hs with
      | emptyLine | commentLine | layout => cases ha
      | lineEnd ho => exact ho
      | blank | joinedLine | comment | gap => exact silent rfl rfl
      | opening | closing | word => exact (not_text_of_scan h ht rfl eq).elim

theorem Step.exists_text (h : Step read a out b) :
    ∃ text, a.rest = text ++ b.rest ∧ b.scanner.place = a.scanner.place.after text := by
  cases h with
  | @emptyLine s blanks c => exact ⟨blanks ++ [c], by simp, rfl⟩
  | @commentLine s blanks words => exact ⟨blanks ++ '#' :: words, by simp, rfl⟩
  | @layout s blanks => exact ⟨blanks, rfl, rfl⟩
  | @blank s c => exact ⟨[c], rfl, rfl⟩
  | lineEnd | joinedLine => exact ⟨['\n'], rfl, rfl⟩
  | @comment s words => exact ⟨'#' :: words, rfl, rfl⟩
  | opening b => exact ⟨[b.openChar], rfl, rfl⟩
  | @closing s rest b => exact ⟨[b.closeChar], rfl, rfl⟩
  | @gap s c rest more | @word s c rest w more => exact ⟨c :: rest.take more, by simp, rfl⟩

theorem Steps.exists_text (h : Steps read a out b) :
    ∃ text, a.rest = text ++ b.rest ∧ b.scanner.place = a.scanner.place.after text := by
  induction h with
  | refl => exact ⟨[], rfl, rfl⟩
  | step hs _ ih =>
    obtain ⟨text, hr, hp⟩ := hs.exists_text
    obtain ⟨more, hr', hp'⟩ := ih
    exact ⟨text ++ more, by rw [hr, hr', append_assoc], by rw [hp', hp, Position.after_append]⟩

/-- The part of a run that makes some of its tokens, the last of them by itself, from the start of
their text to its end. -/
structure Stretch (read : Lexicon ω) (source : List Char) (front seg : List (Token ω))
    (u : Token ω) (back : List (Token ω)) (a b c : Stage ω) (text : List Char) : Prop where
  before : Steps read ⟨.line, {}, source⟩ front a
  steps : Steps read a seg b
  last : Step read b [u] c
  behind : scan read c = .ok back
  mode : a.mode = .inside
  rest : a.rest = text ++ c.rest
  column : ∀ t ∈ (seg ++ [u]).head?, t.span.column = a.scanner.place.column
  text : ∀ t ∈ (seg ++ [u]).head?,
    (source.drop t.span.start).take (u.span.stop - t.span.start) = text

theorem exists_stretch {front seg : List (Token ω)} {u : Token ω}
    (h : scan read ⟨.line, {}, source⟩ = .ok (front ++ (seg ++ u :: back)))
    (first : (seg ++ [u]).head? = some t) (ht : t.kind.isText = true) (hu : u.kind.isText = true) :
    ∃ a b c text, Stretch read source front seg u back a b c text := by
  obtain ⟨more, eq⟩ := head?_eq_some_iff.mp first
  have list : seg ++ u :: back = t :: (more ++ back) := by
    rw [← cons_append, ← eq, append_assoc]
    rfl
  rw [list] at h
  obtain ⟨a, a', before, step, left⟩ := exists_steps_of_scan _ front h ht
  obtain ⟨inside, start, column, _⟩ := step.span ht
  have whole : scan read a = .ok (seg ++ u :: back) := by
    rw [list, step.scan_eq, left]
    rfl
  obtain ⟨b, c, steps, last, behind⟩ := exists_steps_of_scan a seg whole hu
  have stop := (last.span hu).2.2.2
  obtain ⟨pre, hs, hp⟩ := before.exists_text
  obtain ⟨text, hr, hp'⟩ := (steps.trans (.step last .refl)).exists_text
  have from_start : t.span.start = pre.length := by
    rw [start, hp, Position.offset_after]
    exact Nat.zero_add _
  have to_stop : u.span.stop = pre.length + text.length := by
    rw [stop, hp', Position.offset_after, ← start, from_start]
  refine ⟨a, b, c, text, before, steps, last, behind, inside, hr, ?_, ?_⟩
  · intro t' ht'
    obtain rfl := Option.some.inj (first.symm.trans ht')
    exact column
  · intro t' ht'
    obtain rfl := Option.some.inj (first.symm.trans ht')
    have eq : source = pre ++ (text ++ c.rest) := by rw [← hr]; exact hs
    rw [from_start, to_stop, eq, drop_left, Nat.add_sub_cancel_left, take_left]

end Scanner

end ViewBridge
