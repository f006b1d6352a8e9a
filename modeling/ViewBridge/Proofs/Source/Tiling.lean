import Mathlib.Data.List.Induction
import ViewBridge.Proofs.Source.Run

namespace ViewBridge

open List

variable {ω : Type} {joins : Bool} {spelling : ω → Option String} {cs : List Char}

/-- A span whose line and column are those of its start, which lies in the text. -/
structure Span.IsPlaced (source : List Char) (s : Span) : Prop where
  within : s.start ≤ source.length
  line : s.line = 1 + (source.take s.start).count '\n'
  column : s.column = 1 + ((source.take s.start).reverse.takeWhile (· ≠ '\n')).length

/-- Text between tokens, with what follows it: blanks, line ends, comments up to the end of their
line, and joins of two lines where a language has them. -/
inductive Gap (joins : Bool) : List Char → List Char → Prop
  | nil {after} : Gap joins [] after
  | blank {c text after} : c = ' ' ∨ c = '\t' ∨ c = '\r' ∨ c = '\n' → Gap joins text after →
      Gap joins (c :: text) after
  | comment {words text after} : '\n' ∉ words → Scanner.AtLineEnd (text ++ after) →
      Gap joins text after → Gap joins ('#' :: (words ++ text)) after
  | join {text after} : joins = true → Gap joins text after →
      Gap joins ('\\' :: '\n' :: text) after
  | returnJoin {text after} : joins = true → Gap joins text after →
      Gap joins ('\\' :: '\r' :: '\n' :: text) after

/-- The stretches of a text of length `n` between the tokens, from an offset on. -/
def gapsFrom (n : Nat) : Nat → List (Token ω) → List (Nat × Nat)
  | start, [] => [(start, n)]
  | start, t :: ts => (start, t.span.start) :: gapsFrom n t.span.stop ts

/-- Tokens that stand in order in a text, with nothing but gaps around them, and whose words are
spelled as the text under their spans wherever they have a spelling. -/
structure Tiles (joins : Bool) (spelling : ω → Option String) (source : String)
    (ts : List (Token ω)) : Prop where
  placed : ∀ t ∈ ts, t.span.IsPlaced source.toList
  within : ∀ t ∈ ts, t.span.start ≤ t.span.stop ∧ t.span.stop ≤ source.toList.length
  ordered : ts.Pairwise (fun t u => t.span.stop ≤ u.span.start)
  gaps : ∀ g ∈ gapsFrom source.toList.length 0 ts,
    g.1 ≤ g.2 ∧ Gap joins ((source.toList.drop g.1).take (g.2 - g.1)) (source.toList.drop g.2)
  spelled : ∀ t ∈ ts, ∀ w text, t.kind = .word w → spelling w = some text →
    t.span.text source = text

variable {ts out : List (Token ω)} {a b : Scanner.Stage ω} {after rest : List Char} {p : Position}
  {s : Scanner ω}

theorem Gap.append {first second : List Char} (h : Gap joins first (second ++ after))
    (hs : Gap joins second after) : Gap joins (first ++ second) after := by
  generalize he : second ++ after = rest at h
  induction h with
  | nil => exact hs
  | blank hc _ ih => exact .blank hc (ih he)
  | @comment words text rest hw hl _ ih =>
    have hg := Gap.comment hw (by simpa [← he] using hl) (ih he)
    simpa using hg
  | join hj _ ih => exact .join hj (ih he)
  | returnJoin hj _ ih => exact .returnJoin hj (ih he)

theorem Gap.of_blanks {blanks : List Char} (h : ∀ b ∈ blanks, isIndent b = true) :
    Gap joins blanks after := by
  induction blanks with
  | nil => exact .nil
  | cons b blanks ih =>
    have hb := h b (by simp)
    simp only [isIndent, Bool.or_eq_true, beq_iff_eq] at hb
    refine .blank ?_ (ih fun c hc => h c (by simp [hc]))
    rcases hb with hb | hb <;> simp [hb]

theorem Gap.of_comment {words : List Char} (hw : '\n' ∉ words) (hl : Scanner.AtLineEnd after)
    : Gap joins ('#' :: words) after := by
  have hg : Gap joins ('#' :: (words ++ [])) after := .comment hw hl .nil
  simpa using hg

theorem Position.after_start (text : List Char) :
    Position.start.after text =
      ⟨text.length, 1 + text.count '\n', 1 + (text.reverse.takeWhile (· ≠ '\n')).length⟩ := by
  induction text using List.reverseRecOn with
  | nil => rfl
  | append_singleton text c ih =>
    rw [Position.after_append, ih]
    by_cases hc : c = '\n'
    · simp [Position.step, hc]
      omega
    · simp [Position.step, hc]
      omega

theorem Span.isPlaced_ofPosition (front rest : List Char) (width : Nat) :
    (Span.ofPosition (Position.start.after front) width).IsPlaced (front ++ rest) := by
  rw [Position.after_start]
  exact ⟨by simp [Span.ofPosition], by simp [Span.ofPosition], by simp [Span.ofPosition]⟩

/-- A text from a place on, cut into gaps and the texts of tokens. -/
inductive Tiled (joins : Bool) (spelling : ω → Option String) :
    Position → List Char → List (Token ω) → Prop
  | done {p gap : _} : Gap joins gap [] → Tiled joins spelling p gap []
  | token {p gap text rest t ts : _} : Gap joins gap (text ++ rest) →
      t.span = .ofPosition (p.after gap) text.length →
      (∀ w s, t.kind = .word w → spelling w = some s → String.ofList text = s) →
      Tiled joins spelling (p.after (gap ++ text)) rest ts →
      Tiled joins spelling p (gap ++ (text ++ rest)) (t :: ts)

theorem Tiled.skip {gap : List Char}
    (hg : Gap joins gap rest) (h : Tiled joins spelling (p.after gap) rest ts) :
    Tiled joins spelling p (gap ++ rest) ts := by
  cases h with
  | done hd =>
    rw [← append_nil rest] at hg
    exact .done (hg.append hd)
  | @token _ gap' text rest' t ts hg' hspan hspelled hrest =>
    have hjoined := hg.append hg'
    rw [← append_assoc]
    refine .token hjoined ?_ hspelled ?_
    · rw [hspan, Position.after_append]
    · rw [append_assoc, Position.after_append]
      exact hrest

theorem Tiled.starts_after (h : Tiled joins spelling p cs ts) : ∀ t ∈ ts, p.offset ≤ t.span.start := by
  induction h with
  | done => simp
  | @token p gap text rest t ts _ hspan _ _ ih =>
    intro u hu
    rcases mem_cons.mp hu with rfl | hu
    · rw [hspan]
      simp [Span.ofPosition, Position.offset_after]
    · have hlater := ih u hu
      rw [Position.offset_after] at hlater
      omega

theorem slice_append (front middle rest : List Char) :
    ((front ++ middle ++ rest).drop front.length).take ((front ++ middle).length - front.length) =
      middle := by
  simp [append_assoc]

/-- A text cut into gaps and tokens is tiled by the tokens, behind any other text. -/
theorem Tiled.tiles_from (h : Tiled joins spelling p cs ts)
    (front : List Char) (hp : p = Position.start.after front) :
    (∀ t ∈ ts, t.span.IsPlaced (front ++ cs) ∧ t.span.start ≤ t.span.stop ∧
      t.span.stop ≤ (front ++ cs).length) ∧
    ts.Pairwise (fun t u => t.span.stop ≤ u.span.start) ∧
    (∀ g ∈ gapsFrom (front ++ cs).length front.length ts, g.1 ≤ g.2 ∧
      Gap joins (((front ++ cs).drop g.1).take (g.2 - g.1)) ((front ++ cs).drop g.2)) ∧
    (∀ t ∈ ts, ∀ w s, t.kind = .word w → spelling w = some s →
      t.span.text (String.ofList (front ++ cs)) = s) := by
  induction h generalizing front with
  | @done p gap hg => simpa [gapsFrom] using hg
  | @token p gap text rest t ts hg hspan hspelled hrest ih =>
    have hplace : p.after (gap ++ text) = Position.start.after (front ++ gap ++ text) := by
      simp [hp, Position.after_append]
    have hsource : front ++ (gap ++ (text ++ rest)) = (front ++ gap ++ text) ++ rest := by simp
    obtain ⟨hwithin, hordered, hgaps, htexts⟩ := ih (front ++ gap ++ text) hplace
    have hstart : t.span.start = (front ++ gap).length := by
      simp [hspan, hp, Span.ofPosition, Position.offset_after, Position.start]
    have hstop : t.span.stop = (front ++ gap ++ text).length := by
      simp [hspan, hp, Span.ofPosition, Position.offset_after, Position.start]
      omega
    have hlater := hrest.starts_after
    rw [hsource]
    refine ⟨?_, ?_, ?_, ?_⟩
    · intro u hu
      rcases mem_cons.mp hu with rfl | hu
      · refine ⟨?_, by rw [hstart, hstop]; simp, by rw [hstop]; simp⟩
        rw [hspan, hp, ← Position.after_append, append_assoc]
        exact Span.isPlaced_ofPosition _ _ _
      · exact hwithin u hu
    · refine pairwise_cons.mpr ⟨?_, hordered⟩
      intro u hu
      have hl := hlater u hu
      rw [hplace, Position.offset_after] at hl
      simpa [hstop, Position.start] using hl
    · intro g hm
      rcases mem_cons.mp hm with rfl | hm
      · simp only [hstart]
        refine ⟨by simp, ?_⟩
        rw [append_assoc, slice_append, drop_left]
        exact hg
      · exact hgaps g (by rw [hstop] at hm; exact hm)
    · intro u hu w s hkind hs
      rcases mem_cons.mp hu with rfl | hu
      · have htext := hspelled w s hkind hs
        rw [Span.text, hstart, hstop, String.toList_ofList, slice_append, htext]
      · exact htexts u hu w s hkind hs

theorem take_takeWhile_length {p : Char → Bool} (cs : List Char) :
    cs.take (cs.takeWhile p).length = cs.takeWhile p :=
  prefix_iff_eq_take.mp ( takeWhile_prefix p) |>.symm

/-- A lexeme that passes over a gap, or is a word spelled as the text it stands for. -/
def Lexeme.Fits (joins : Bool) (spelling : ω → Option String) (c : Char) (cs : List Char) :
    Lexeme ω → Prop
  | .gap more => Gap joins (c :: cs.take more) (cs.drop more)
  | .word w more => ∀ s, spelling w = some s → String.ofList (c :: cs.take more) = s

/-- A lexicon whose lexemes fit the text they are read from. -/
def Lexicon.Faithful (joins : Bool) (spelling : ω → Option String) (read : Lexicon ω) : Prop :=
  ∀ previous c cs lexeme, read previous c cs = .ok lexeme → lexeme.Fits joins spelling c cs

namespace Scanner

variable {joins : Bool} {spelling : ω → Option String} {read : Lexicon ω} {fault : Fault}
  {source : List Char}

theorem tiled_marks {kinds : List (TokenKind ω)} (hk : ∀ k ∈ kinds, k.isText = false)
    (h : Tiled joins spelling s.place rest ts) :
    Tiled joins spelling s.place rest (kinds.map (s.token · []) ++ ts) := by
  induction kinds with
  | nil => exact h
  | cons k kinds ih =>
    have hrest := ih fun k' hm => hk k' (by simp [hm])
    have hp : s.place = s.place.after ([] ++ []) := rfl
    rw [hp] at hrest
    refine Tiled.token .nil rfl ?_ hrest
    intro w s hw
    have hn := hk k (by simp)
    rw [show k = .word w from hw] at hn
    cases hn

theorem finish_tiled (h : s.finish = .ok ts) : Tiled joins spelling s.place [] ts := by
  unfold finish at h
  split at h
  next => cases h
  next =>
    cases h
    have hm : Tiled joins spelling s.place [] (s.closingKinds.map (s.token · []) ++ []) :=
      tiled_marks closingKinds_isText (.done .nil)
    simpa using hm

theorem Step.tiled (hf : Lexicon.Faithful joins spelling read) (h : Step read a out b)
    (ht : Tiled joins spelling b.scanner.place b.rest ts) :
    Tiled joins spelling a.scanner.place a.rest (out ++ ts) := by
  have one : ∀ {s : Scanner ω} {k : TokenKind ω} {text rest : List Char},
      (∀ w t, k = .word w → spelling w = some t → String.ofList text = t) →
      Tiled joins spelling (s.place.after text) rest ts →
      Tiled joins spelling s.place (text ++ rest) (s.token k text :: ts) := by
    intro s k text rest hs hr
    have hg : Gap joins [] (text ++ rest) := .nil
    exact .token hg rfl hs hr
  cases h with
  | @emptyLine s blanks c rest hb hc =>
    have hg : Gap joins [c] rest := .blank (by tauto) .nil
    have hs := Tiled.skip ((Gap.of_blanks hb).append hg) ht
    simpa using hs
  | @commentLine s blanks words rest hb hw hr =>
    have hs := Tiled.skip ((Gap.of_blanks hb).append (Gap.of_comment hw hr)) ht
    simpa using hs
  | @layout s blanks c rest change blocks hb hc hu =>
    have hk : ∀ k ∈ layoutKinds (ω := ω) change, k.isText = false :=
      fun k hm => (layoutKinds_isText k hm).1
    exact Tiled.skip (Gap.of_blanks hb) (tiled_marks (s := s.pass blanks) hk ht)
  | blank hc => exact Tiled.skip (.blank (by tauto) .nil) ht
  | lineEnd => exact one (fun _ _ h => by cases h) ht
  | joinedLine => exact Tiled.skip (.blank (by tauto) .nil) ht
  | comment hw hr => exact Tiled.skip (Gap.of_comment hw hr) ht
  | opening b => exact one (fun _ _ h => by cases h) ht
  | closing => exact one (fun _ _ h => by cases h) ht
  | @gap s c rest more hc hr =>
    have hs := Tiled.skip (hf _ _ _ _ hr) ht
    simpa using hs
  | @word s c rest w more hc hr =>
    have hspelled := hf _ _ _ _ hr
    have hs := one (k := .word w) (fun _ t hw => by cases hw; exact hspelled t) ht
    simpa using hs

theorem Stop.tiled (h : Stop read a (.ok ts)) : Tiled joins spelling a.scanner.place a.rest ts := by
  generalize hr : Except.ok ts = r at h
  cases h with
  | lineFinish hb =>
    have hs : Tiled joins spelling _ (_ ++ []) ts :=
      .skip (Gap.of_blanks hb) (finish_tiled hr.symm)
    simpa using hs
  | finish => exact finish_tiled hr.symm
  | dedent | unmatched | misread => cases hr

theorem scan_tiled (hf : Lexicon.Faithful joins spelling read) (h : scan read a = .ok ts) :
    Tiled joins spelling a.scanner.place a.rest ts := by
  have hrun := scan_induction read
    (motive := fun a r => ∀ ts, r = .ok ts → Tiled joins spelling a.scanner.place a.rest ts)
    (fun a r hs ts hr => (hr ▸ hs).tiled)
    (fun a out b r hs ih ts hr => by
      cases r with
      | error fault => cases hr
      | ok rest =>
        cases hr
        exact hs.tiled hf (ih rest rfl))
  exact hrun a ts h

/-- What every move keeps of the places in a text. -/
structure At (source : List Char) (a : Stage ω) : Prop where
  place : ∃ front, source = front ++ a.rest ∧ a.scanner.place = Position.start.after front
  opened : ∀ entry ∈ a.scanner.opened, entry.2.IsPlaced source

theorem At.isPlaced (h : At source a) (text rest : List Char)
    (he : a.rest = text ++ rest) (width : Nat) :
    (Span.ofPosition (a.scanner.place.after text) width).IsPlaced source := by
  obtain ⟨front, rfl, hp⟩ := h.place
  rw [hp, he, ← Position.after_append, ← append_assoc]
  exact Span.isPlaced_ofPosition _ _ _

theorem At.move (h : At source a) (text : List Char) (hr : a.rest = text ++ b.rest)
    (hp : b.scanner.place = a.scanner.place.after text)
    (ho : ∀ entry ∈ b.scanner.opened, entry.2.IsPlaced source) : At source b := by
  obtain ⟨front, rfl, hf⟩ := h.place
  exact ⟨⟨front ++ text, by simp [hr], by rw [hp, hf, Position.after_append]⟩, ho⟩

theorem Step.at (h : Step read a out b) (ha : At source a) : At source b := by
  have ho := ha.opened
  cases h with
  | @emptyLine s blanks c => exact ha.move (blanks ++ [c]) (by simp) rfl ho
  | @commentLine s blanks words => exact ha.move (blanks ++ '#' :: words) (by simp) rfl ho
  | @layout s blanks => exact ha.move blanks rfl rfl ho
  | @blank s c => exact ha.move [c] rfl rfl ho
  | lineEnd | joinedLine => exact ha.move ['\n'] rfl rfl ho
  | @comment s words => exact ha.move ('#' :: words) rfl rfl ho
  | opening b =>
    refine ha.move [b.openChar] rfl rfl ?_
    intro entry hm
    rcases mem_cons.mp hm with rfl | hm
    · exact ha.isPlaced [] _ rfl 1
    · exact ho entry hm
  | @closing s rest b span opened hopened =>
    refine ha.move [b.closeChar] rfl rfl ?_
    intro entry hm
    exact ho entry (by rw [hopened]; exact mem_cons_of_mem _ hm)
  | @gap s c rest more | @word s c rest w more =>
    exact ha.move (c :: rest.take more) (by simp) rfl ho

theorem finish_fault_placed (ho : ∀ entry ∈ s.opened, entry.2.IsPlaced source)
    (h : s.finish = .error fault) : fault.span.IsPlaced source := by
  unfold finish at h
  split at h
  next bracket span opened eq =>
    cases h
    exact ho (bracket, span) (by simp [eq])
  next => cases h

theorem Stop.fault_placed (h : Stop read a (.error fault)) (ha : At source a) :
    fault.span.IsPlaced source := by
  have ho := ha.opened
  generalize hr : Except.error fault = r at h
  cases h with
  | lineFinish => exact finish_fault_placed (s := Scanner.pass _ _) ho hr.symm
  | finish => exact finish_fault_placed ho hr.symm
  | @dedent s blanks =>
    cases hr
    exact ha.isPlaced blanks _ rfl 0
  | unmatched b =>
    cases hr
    exact ha.isPlaced [] _ rfl 1
  | @misread s c rest misread =>
    cases hr
    exact ha.isPlaced _ _ (take_append_drop misread.skipped (c :: rest)).symm misread.width

theorem scan_fault_placed (ha : At source a) (h : scan read a = .error fault) :
    fault.span.IsPlaced source := by
  have hrun := scan_induction read
    (motive := fun a r => At source a → ∀ fault, r = .error fault → fault.span.IsPlaced source)
    (fun a r hs ha fault hr => (hr ▸ hs).fault_placed ha)
    (fun a out b r hs ih ha fault hr => by
      cases r with
      | ok rest => cases hr
      | error fault' =>
        cases hr
        exact ih (hs.at ha) fault rfl)
  exact hrun a ha fault h

end Scanner

theorem tiles_of_tokensOf {read : Lexicon ω}
    (hf : Lexicon.Faithful joins spelling read) {source : String}
    (h : tokensOf read source = .ok ts) : Tiles joins spelling source ts := by
  rw [Scanner.tokensOf_eq_scan] at h
  have ht := Scanner.scan_tiled hf h
  obtain ⟨hwithin, hordered, hgaps, hspelled⟩ := ht.tiles_from [] rfl
  simp only [nil_append, String.ofList_toList] at hspelled
  exact ⟨fun t hm => (hwithin t hm).1, fun t hm => (hwithin t hm).2, hordered, hgaps, hspelled⟩

theorem fault_placed_of_tokensOf {read : Lexicon ω} {source : String} {fault : Fault}
    (h : tokensOf read source = .error fault) : fault.span.IsPlaced source.toList := by
  rw [Scanner.tokensOf_eq_scan] at h
  exact Scanner.scan_fault_placed ⟨⟨[], rfl, rfl⟩, by simp⟩ h

end ViewBridge
