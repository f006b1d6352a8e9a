import ViewBridge.Generate
import ViewBridge.Proofs.Classes.Faults
import ViewBridge.Proofs.Markup.Faults
import ViewBridge.Proofs.Report.Messages

namespace ViewBridge

open List

variable {fault : Fault} {source : String}

/-- Whether a source can be read for a target: it has tokens, and these spell a module. -/
def Target.read (source : String) : Target → Except Fault Unit
  | .views => (Markup.parse source).map fun _ => ()
  | .declarations _ | .models => (Classes.parse source).map fun _ => ()

theorem Config.generate?_eq_error_iff (config : Config) (target : Target) (source : String) :
    config.generate? source target = .error fault ↔
      target.read source = .error fault := by
  cases target with
  | views =>
    unfold generate? Target.read Markup.parse
    cases Markup.tokens source with
    | error f => simp [bind, Except.bind, Except.map]
    | ok ts =>
      simp only [bind, Except.bind]
      cases Markup.Module.ofTokens ts <;> simp [Except.map, pure, Except.pure]
  | declarations | models =>
    unfold generate? Target.read Classes.parse
    cases Classes.tokens source with
    | error f => simp [bind, Except.bind, Except.map]
    | ok ts =>
      simp only [bind, Except.bind]
      cases Classes.Module.ofTokens ts <;> simp [Except.map, pure, Except.pure]

theorem untilEnd_subset {ω : Type} (place : Span) (ts : List (Token ω)) :
    (untilEnd place ts).1 ⊆ ts := by
  induction ts generalizing place with
  | nil => exact List.Subset.refl _
  | cons t ts ih =>
    unfold untilEnd
    split
    · exact nil_subset _
    · exact cons_subset_cons t (ih t.span)

theorem oneLine_message_lex {ω : Type} {read : Lexicon ω} (quotes : read.QuotesLine)
    (h : tokensOf read source = .error fault) : OneLine fault.message := by
  obtain ⟨f, span, rfl, arises⟩ := Scanner.arises_of_tokensOf h
  show OneLine ("lex error: " ++ f.reason)
  rw [oneLine_append]
  exact ⟨by simp [OneLine], arises.oneLine quotes⟩

theorem oneLine_message_parse {expected : Expected} {found : Found} {span : Span} :
    OneLine (Fault.parse expected found span).message ↔ OneLine found.describe := by
  show OneLine ("parse error: expected " ++ expected.describe ++ ", found " ++ found.describe) ↔ _
  rw [oneLine_append, oneLine_append, oneLine_append]
  constructor
  · exact fun h => h.2
  · exact fun h => ⟨⟨⟨by simp [OneLine], oneLine_expected expected⟩, by simp [OneLine]⟩, h⟩

theorem Blames.oneLine_message {ω : Type} [Describable ω] {fin : Span} {ts : List (Token ω)}
    (h : Blames fin ts fault) (tokens : ∀ t ∈ ts, ∀ expected, fault = unexpected fin expected [t] →
      OneLine (t.kind.describe Describable.describe)) : OneLine fault.message := by
  cases h with
  | finish =>
    refine oneLine_message_parse.mpr ?_
    show OneLine "end of input"
    simp [OneLine]
  | @token expected t hm => exact oneLine_message_parse.mpr (tokens t hm expected rfl)

/-- A fault that tells of a string of a markup source in which a line ends. -/
def QuotesBrokenString (source : String) (fault : Fault) : Prop :=
  ∃ ts t text expected, Markup.tokens source = .ok ts ∧ t ∈ ts ∧ t.kind = .word (.string text) ∧
    ¬OneLine text ∧ fault = .parse expected (.token (Markup.describe t.kind)) t.span

theorem QuotesBrokenString.not_oneLine (h : QuotesBrokenString source fault) :
    ¬OneLine fault.message := by
  obtain ⟨ts, ⟨k, span⟩, text, expected, _, _, rfl, broken, rfl⟩ := h
  rw [oneLine_message_parse]
  intro line
  apply broken
  have parts : OneLine ("string '" ++ text ++ "'") := line
  rw [oneLine_append, oneLine_append] at parts
  exact parts.1.2

/-- The message of a markup fault keeps to one line unless it quotes a string that does not. -/
theorem Markup.oneLine_message_iff (h : Markup.parse source = .error fault) :
    OneLine fault.message ↔ ¬QuotesBrokenString source fault := by
  constructor
  · exact fun line quotes => quotes.not_oneLine line
  intro unbroken
  unfold Markup.parse at h
  cases ht : Markup.tokens source with
  | error f =>
    rw [ht] at h
    cases h
    exact oneLine_message_lex Markup.readWord_quotesLine ht
  | ok ts =>
    rw [ht] at h
    have blames := Markup.ofTokens_blames h
    have named {name : String} {span : Span}
        (hm : ⟨.word (.identifier name), span⟩ ∈ (untilEnd .origin ts).1) : OneLine name := by
      obtain ⟨previous, c, cs, n, read⟩ :=
        Scanner.word_of_tokensOf ht _ (untilEnd_subset _ _ hm) (.identifier name) rfl
      exact Markup.spelling_oneLine read rfl
    cases blames with
    | token blames =>
      refine blames.oneLine_message fun t hm expected eq => ?_
      have hm := untilEnd_subset _ _ hm
      refine (Markup.oneLine_describe_iff ht hm).mpr fun text hk => ?_
      by_contra broken
      exact unbroken ⟨ts, t, text, expected, ht, hm, hk, broken, eq⟩
    | @property _ name _ hm =>
      rw [oneLine_message_parse]
      show OneLine ("property '" ++ name ++ "'")
      rw [oneLine_append, oneLine_append]
      exact ⟨⟨by simp [OneLine], named hm⟩, by simp [OneLine]⟩
    | @secondRoot _ name _ hm =>
      rw [oneLine_message_parse]
      show OneLine ("second root widget '" ++ name ++ "'")
      rw [oneLine_append, oneLine_append]
      exact ⟨⟨by simp [OneLine], named hm⟩, by simp [OneLine]⟩
    | endOfLine =>
      rw [oneLine_message_parse]
      show OneLine "end of line"
      simp [OneLine]

theorem Classes.oneLine_message (h : Classes.parse source = .error fault) :
    OneLine fault.message := by
  unfold Classes.parse at h
  cases ht : Classes.tokens source with
  | error f =>
    rw [ht] at h
    cases h
    exact oneLine_message_lex Classes.readWord_quotesLine ht
  | ok ts =>
    rw [ht] at h
    exact (Classes.ofTokens_blames h).oneLine_message fun t hm _ _ =>
      Classes.oneLine_describe ht (untilEnd_subset _ _ hm)

theorem Target.oneLine_message_iff {target : Target} (h : target.read source = .error fault) :
    OneLine fault.message ↔ ¬(target = .views ∧ QuotesBrokenString source fault) := by
  have classes (h : (Classes.parse source).map (fun _ => ()) = .error fault) :
      OneLine fault.message := by
    cases hp : Classes.parse source with
    | error f =>
      rw [hp] at h
      cases h
      exact Classes.oneLine_message hp
    | ok m =>
      rw [hp] at h
      cases h
  cases target with
  | views =>
    cases hp : Markup.parse source with
    | error f =>
      rw [Target.read, hp] at h
      cases h
      simp [Markup.oneLine_message_iff hp]
    | ok m =>
      rw [Target.read, hp] at h
      cases h
  | declarations style => simp [classes h]
  | models => simp [classes h]

theorem Text.length_linesFrom_concat (line cs : List Char) :
    (Text.linesFrom line (cs ++ ['\n'])).length = cs.count '\n' + 1 := by
  induction cs generalizing line with
  | nil => simp [Text.linesFrom]
  | cons c cs ih =>
    rw [cons_append, Text.linesFrom]
    by_cases hc : c = '\n'
    · simp [hc, ih]
    · simp [hc, ih]

def faultComment (fault : Fault) : String :=
  fault.message ++ " (line " ++ toString fault.span.line ++ ", column " ++
    toString fault.span.column ++ ")"

theorem oneLine_faultComment : OneLine (faultComment fault) ↔ OneLine fault.message := by
  simp only [faultComment, oneLine_append, oneLine_toString_nat, and_true]
  constructor
  · exact fun h => h.1.1.1
  · exact fun h => ⟨⟨⟨h, by simp [OneLine]⟩, by simp [OneLine]⟩, by simp [OneLine]⟩

theorem ofFault_code (marker : String) (fault : Fault) :
    (Generated.ofFault marker fault).code = marker ++ " error: " ++ faultComment fault ++ "\n" := by
  have comment : (Generated.ofFault marker fault).code = marker ++ " " ++ "error" ++ ": " ++
      fault.message ++ (" (line " ++ toString fault.span.line ++ ", column " ++
        toString fault.span.column ++ ")") ++ "\n" := rfl
  have severity : marker ++ " error: " = marker ++ (" " ++ "error" ++ ": ") := rfl
  rw [comment, severity, faultComment]
  simp only [String.append_assoc]

/-- A run that fails gives a comment that starts with the marker of the target and the word
`error`, and counts it as one line. It is one line exactly if the fault quotes no string in which a
line ends; for class declarations it always is. -/
theorem failed_run_one_line_iff (config : Config) (target : Target) (source : String)
    {fault : Fault} (failed : target.read source = .error fault) :
    ∃ comment, (config.generate target source).code =
        target.commentMarker ++ " error: " ++ comment ++ "\n" ∧
      (config.generate target source).stats.lines = 1 ∧
      (OneLine comment ↔ ¬(target = .views ∧ QuotesBrokenString source fault)) ∧
      ((Text.lines (config.generate target source).code.toList).length = 1 ↔
        ¬(target = .views ∧ QuotesBrokenString source fault)) := by
  have run : config.generate target source = .ofFault target.commentMarker fault := by
    rw [Config.generate, (config.generate?_eq_error_iff target source).mpr failed]
  have comment : OneLine (faultComment fault) ↔
      ¬(target = .views ∧ QuotesBrokenString source fault) := by
    rw [oneLine_faultComment, Target.oneLine_message_iff failed]
  have head : '\n' ∉ (target.commentMarker ++ " error: ").toList := by
    cases target <;> simp [Target.commentMarker]
  refine ⟨faultComment fault, by rw [run, ofFault_code], by rw [run]; rfl, comment, ?_⟩
  rw [run, ofFault_code, String.toList_append, Text.lines]
  show (Text.linesFrom [] (_ ++ ['\n'])).length = 1 ↔ _
  rw [Text.length_linesFrom_concat, ← comment, String.toList_append, count_append,
    count_eq_zero_of_not_mem head, OneLine, ← count_eq_zero]
  omega

/-- A class without a name is told of in one line. -/
theorem failed_run_one_line_iff_class :
    let fault : Fault := .parse .className (.token "':'") ⟨6, 7, 1, 7⟩
    Target.models.read "class :\n" = .error fault ∧
      ((Text.lines (({} : Config).generate .models "class :\n").code.toList).length = 1 ↔
        ¬(Target.models = .views ∧ QuotesBrokenString "class :\n" fault)) := by
  intro fault
  have failed : Target.models.read "class :\n" = .error fault := by decide +kernel
  obtain ⟨_, _, _, _, lines⟩ := failed_run_one_line_iff {} .models "class :\n" failed
  exact ⟨failed, lines⟩

/-- A string with an escaped line end in the place of a header is quoted with its two lines. -/
theorem failed_run_two_lines :
    (Target.views.read "'a\\nb':\n").isOk = false ∧
      (({} : Config).generate .views "'a\\nb':\n").stats.lines = 1 ∧
      (Text.lines (({} : Config).generate .views "'a\\nb':\n").code.toList).length = 2 := by
  decide +kernel

end ViewBridge
