import ViewBridge.Proofs.Output.Printer
import ViewBridge.Proofs.Report.FailedRun
import ViewBridge.Proofs.Tokens

namespace ViewBridge

open List

variable {fault : Fault} {source : String} {target : Target} {ω : Type} {config : Config}
  {g : Generated}

/-- The line and column of the place behind some characters of a text, counted from one. -/
def Location.ofOffset (source : String) (offset : Nat) : Location :=
  let before := source.toList.take offset
  ⟨1 + before.count '\n', 1 + (before.reverse.takeWhile (· ≠ '\n')).length⟩

def Target.tokenCount (source : String) : Target → Except Fault Nat
  | .views => (Markup.tokens source).map List.length
  | .declarations _ | .models => (Classes.tokens source).map List.length

/-- The code of a fault of a source that has tokens, or has none. -/
def stageCode (hasTokens : Bool) : String := if hasTokens then "E0002" else "E0001"

/-- What a run tells that fails: one error at a place of the source, and nothing read. -/
structure Generated.TellsFault (target : Target) (source : String) (g : Generated) : Prop where
  diagnostic : ∃ message offset, offset ≤ source.length ∧ g.diagnostics =
    [{ code := stageCode (target.tokenCount source).isOk, severity := .error, message
       location := some (.ofOffset source offset) }]
  tokens : g.stats.tokens = 0
  nodes : g.stats.nodes = 0

/-- What a run tells that does not fail: warnings, and the numbers of tokens and lines. -/
structure Generated.TellsResult (target : Target) (source : String) (g : Generated) : Prop where
  warnings : ∀ d ∈ g.diagnostics, d.severity = .warning
  tokens : target.tokenCount source = .ok g.stats.tokens
  lines : g.stats.lines = (Text.lines g.code.toList).length

theorem Span.IsPlaced.location {span : Span} (h : span.IsPlaced source.toList) :
    span.start ≤ source.length ∧ Location.ofSpan span = .ofOffset source span.start := by
  refine ⟨?_, ?_⟩
  · rw [← String.length_toList]
    exact h.within
  · rw [Location.ofSpan, Location.ofOffset, h.line, h.column]

theorem Span.origin_isPlaced (source : List Char) : Span.origin.IsPlaced source :=
  ⟨Nat.zero_le _, rfl, rfl⟩

theorem untilEnd_place (place : Span) (ts : List (Token ω)) :
    (untilEnd place ts).2 = place ∨ ∃ t ∈ ts, (untilEnd place ts).2 = t.span := by
  induction ts generalizing place with
  | nil => exact .inl rfl
  | cons t ts ih =>
    refine .inr ?_
    unfold untilEnd
    split
    next => exact ⟨t, mem_cons_self, rfl⟩
    next =>
      rcases ih t.span with last | ⟨u, hu, later⟩
      · exact ⟨t, mem_cons_self, last⟩
      · exact ⟨u, mem_cons_of_mem _ hu, later⟩

theorem Blames.span_eq {ω : Type} [Describable ω] {fin : Span} {ts : List (Token ω)}
    (h : Blames fin ts fault) : fault.span = fin ∨ ∃ t ∈ ts, fault.span = t.span := by
  cases h with
  | finish => exact .inl rfl
  | token hm => exact .inr ⟨_, hm, rfl⟩

theorem Markup.BlamesLine.span_eq {fin : Span} {ts : List Markup.Token} (h : BlamesLine fin ts fault) :
    fault.span = fin ∨ ∃ t ∈ ts, fault.span = t.span := by
  cases h with
  | token blames => exact blames.span_eq
  | property hm => exact .inr ⟨_, hm, rfl⟩
  | secondRoot hm => exact .inr ⟨_, hm, rfl⟩
  | endOfLine hm =>
    rcases hm with rfl | hm
    · exact .inl rfl
    · exact .inr ⟨_, hm, rfl⟩

theorem eq_error_of_map {α β : Type} {x : Except Fault α} {g : α → β} (h : x.map g = .error fault) :
    x = .error fault := by
  cases x with
  | error f => exact congrArg Except.error (Except.error.inj h)
  | ok a => cases h

theorem isPlaced_of_untilEnd {source : List Char} {ts : List (Token ω)} {span : Span}
    (placed : ∀ t ∈ ts, t.span.IsPlaced source)
    (h : span = (untilEnd .origin ts).2 ∨ ∃ t ∈ (untilEnd .origin ts).1, span = t.span) :
    span.IsPlaced source := by
  rcases h with rfl | ⟨t, hm, rfl⟩
  · rcases untilEnd_place .origin ts with start | ⟨t, hm, stop⟩
    · rw [start]
      exact Span.origin_isPlaced source
    · rw [stop]
      exact placed t hm
  · exact placed t (untilEnd_subset _ _ hm)

theorem eq_error_of_bind {α β : Type} {x : Except Fault α} {k : α → Except Fault β}
    (h : (x >>= k) = .error fault) : x = .error fault ∨ ∃ a, x = .ok a ∧ k a = .error fault := by
  cases x with
  | error f =>
    cases h
    exact .inl rfl
  | ok a => exact .inr ⟨a, rfl, h⟩

theorem lexFault_placed {read : Lexicon ω} (h : tokensOf read source = .error fault) :
    fault.span.IsPlaced source.toList ∧ (Diagnostic.ofFault fault).code = stageCode false := by
  refine ⟨fault_placed_of_tokensOf h, ?_⟩
  obtain ⟨f, span, rfl, _⟩ := Scanner.arises_of_tokensOf h
  rfl

theorem Markup.fault_placed (h : Markup.parse source = .error fault) :
    fault.span.IsPlaced source.toList ∧
      (Diagnostic.ofFault fault).code = stageCode (Markup.tokens source).isOk := by
  rcases eq_error_of_bind h with ht | ⟨ts, ht, hp⟩
  · rw [ht]
    exact lexFault_placed ht
  · have blames := Markup.ofTokens_blames hp
    have tiles := tiles_of_tokensOf Markup.readWord_faithful ht
    refine ⟨isPlaced_of_untilEnd tiles.placed blames.span_eq, ?_⟩
    rw [ht]
    cases blames with
    | token blames => cases blames <;> rfl
    | _ => rfl

theorem Classes.fault_placed (h : Classes.parse source = .error fault) :
    fault.span.IsPlaced source.toList ∧
      (Diagnostic.ofFault fault).code = stageCode (Classes.tokens source).isOk := by
  rcases eq_error_of_bind h with ht | ⟨ts, ht, hp⟩
  · rw [ht]
    exact lexFault_placed ht
  · have blames := Classes.ofTokens_blames hp
    have tiles := tiles_of_tokensOf Classes.readWord_faithful ht
    refine ⟨isPlaced_of_untilEnd tiles.placed blames.span_eq, ?_⟩
    rw [ht]
    cases blames <;> rfl

theorem Target.fault_placed (h : target.read source = .error fault) :
    fault.span.IsPlaced source.toList ∧
      (Diagnostic.ofFault fault).code = stageCode (target.tokenCount source).isOk := by
  have counted {α : Type} (x : Except Fault (List α)) : (x.map List.length).isOk = x.isOk := by
    cases x <;> rfl
  cases target with
  | views =>
    rw [tokenCount, counted]
    exact Markup.fault_placed (eq_error_of_map h)
  | declarations | models =>
    rw [tokenCount, counted]
    exact Classes.fault_placed (eq_error_of_map h)

theorem Generated.tellsFault_ofFault (h : target.read source = .error fault) :
    (Generated.ofFault target.commentMarker fault).TellsFault target source := by
  obtain ⟨placed, code⟩ := Target.fault_placed h
  obtain ⟨within, location⟩ := placed.location
  refine ⟨⟨fault.message, fault.span.start, within, ?_⟩, rfl, rfl⟩
  rw [← code, ← location]
  rfl

mutual

theorem View.Builder.warnings_severity (b : View.Builder) (w : Markup.Widget) :
    ∀ d ∈ b.warnings w, d.severity = .warning := by
  match w with
  | ⟨name, properties, children, canvas, span⟩ =>
    intro d hd
    rw [warnings] at hd
    rcases mem_append.mp hd with hd | hd
    · split at hd
      next =>
        cases mem_singleton.mp hd
        rfl
      next => cases hd
    · exact forestWarnings_severity b children d hd

theorem View.Builder.forestWarnings_severity (b : View.Builder) (ws : List Markup.Widget) :
    ∀ d ∈ warnings.forestWarnings b ws, d.severity = .warning := by
  match ws with
  | [] => exact fun _ hd => nomatch hd
  | w :: ws =>
    intro d hd
    rw [warnings.forestWarnings] at hd
    rcases mem_append.mp hd with hd | hd
    · exact warnings_severity b w d hd
    · exact forestWarnings_severity b ws d hd

end

theorem View.diagnostics_severity (config : Config) (table : WidgetTable) (m : Markup.Module) :
    ∀ d ∈ View.diagnostics config table m, d.severity = .warning := by
  intro d hd
  rcases List.mem_append.mp hd with hd | hd
  · obtain ⟨r, _, hr⟩ := List.mem_flatMap.mp hd
    exact Builder.forestWarnings_severity _ _ d hr
  · cases hm : m.root with
    | none =>
      rw [hm] at hd
      cases hd
    | some w =>
      rw [hm] at hd
      exact Builder.warnings_severity _ w d hd

theorem Wrapper.diagnostics_severity (t : TypeTable) (m : Classes.Module) :
    ∀ d ∈ Wrapper.diagnostics t m, d.severity = .warning := by
  intro d hd
  obtain ⟨c, _, hc⟩ := List.mem_flatMap.mp hd
  obtain ⟨f, _, hf⟩ := List.mem_flatMap.mp hc
  unfold fieldWarnings at hf
  split at hf
  next =>
    dsimp only at hf
    split at hf
    next => cases hf
    next =>
      cases List.mem_singleton.mp hf
      rfl
  next => cases hf

theorem Config.tellsResult_of_generate? (h : config.generate? source target = .ok g) :
    g.TellsResult target source := by
  cases target with
  | views =>
    obtain ⟨ts, ht, h⟩ := exists_of_bind h
    obtain ⟨m, _, h⟩ := exists_of_bind h
    cases h
    rw [View.translate_run]
    exact ⟨View.diagnostics_severity config _ m, by rw [Target.tokenCount, ht]; rfl, rfl⟩
  | declarations style =>
    obtain ⟨ts, ht, h⟩ := exists_of_bind h
    obtain ⟨m, _, h⟩ := exists_of_bind h
    cases h
    exact ⟨Wrapper.diagnostics_severity _ m, by rw [Target.tokenCount, ht]; rfl, rfl⟩
  | models =>
    obtain ⟨ts, ht, h⟩ := exists_of_bind h
    obtain ⟨m, _, h⟩ := exists_of_bind h
    cases h
    exact ⟨List.forall_mem_nil _, by rw [Target.tokenCount, ht]; rfl, rfl⟩

theorem Text.Outline.head?_render {width : Nat} {content : String} {c : Char}
    {outline rest : Text.Outline} (ho : outline = .line 0 content :: rest)
    (hc : content.toList.head? = some c) : (outline.render width).toList.head? = some c := by
  obtain ⟨cs, hcs⟩ := List.head?_eq_some_iff.mp hc
  rw [ho, Scanner.render_cons]
  simp [OutlineLine.render, hcs]

/-- The text of a file starts with the first of its imports. -/
theorem Output.File.print_import {name : String} {imports : List String} {items : List Item}
    (width : Nat) :
    ((⟨name :: imports, items⟩ : File).print width).toList.head? = some 'i' := by
  have outline : ∃ rest, (⟨name :: imports, items⟩ : File).outline =
      .line 0 ("import " ++ name) :: rest := by
    cases items with
    | nil => exact ⟨_, rfl⟩
    | cons item items => exact ⟨_, rfl⟩
  obtain ⟨rest, outline⟩ := outline
  rw [File.print_eq]
  exact Text.Outline.head?_render outline (by simp)

theorem Wrapper.print_head (style : ClassStyle) (t : TypeTable) (m : Classes.Module) (width : Nat) :
    ∀ c ∈ ((Wrapper.file style t m).print width).toList.head?, c ≠ '/' := by
  intro c hc
  cases style with
  | wrapper =>
    unfold Wrapper.file at hc
    rw [Output.File.print_import] at hc
    cases hc
    decide
  | container =>
    cases hm : m.classes with
    | nil =>
      rw [Wrapper.file, hm] at hc
      cases hc
    | cons first others =>
      have outline : ∃ rest, (Wrapper.file .container t m).outline =
          .line 0 "@PyContainer" :: rest := by
        rw [Wrapper.file, hm]
        cases others with
        | nil => exact ⟨_, rfl⟩
        | cons second others => exact ⟨_, rfl⟩
      obtain ⟨rest, outline⟩ := outline
      rw [Output.File.print_eq, Text.Outline.head?_render outline rfl] at hc
      cases hc
      decide

theorem Model.render_head (source : String) (m : Classes.Module) (width : Nat) :
    ∀ c ∈ ((Model.ofModule source m).render width).toList.head?, c ≠ '#' := by
  intro c hc
  cases hm : m.classes with
  | nil =>
    rw [Model.ofModule, hm] at hc
    cases hc
  | cons first others =>
    have outline : ∃ rest, (Model.ofModule source m).outline =
        .line 0 "from kivy.event import EventDispatcher" :: rest := by
      rw [Model.ofModule, hm]
      exact ⟨_, rfl⟩
    obtain ⟨rest, outline⟩ := outline
    rw [Module.render, Text.Outline.head?_render outline rfl] at hc
    cases hc
    decide

theorem Target.head?_commentMarker (target : Target) :
    target.commentMarker.toList.head? = some (if target = .models then '#' else '/') := by
  cases target with
  | views | models => rfl
  | declarations style => cases style <;> rfl

theorem Config.code_head_of_generate? (h : config.generate? source target = .ok g) :
    ∀ c ∈ g.code.toList.head?, some c ≠ target.commentMarker.toList.head? := by
  cases target with
  | views =>
    obtain ⟨ts, _, h⟩ := exists_of_bind h
    obtain ⟨m, _, h⟩ := exists_of_bind h
    cases h
    intro c hc
    rw [Generated.ofCode, View.translate_run, View.file, Output.File.print_import] at hc
    cases hc
    decide
  | declarations style =>
    obtain ⟨ts, _, h⟩ := exists_of_bind h
    obtain ⟨m, _, h⟩ := exists_of_bind h
    cases h
    intro c hc eq
    rw [Target.head?_commentMarker] at eq
    exact Wrapper.print_head style _ m _ c hc (Option.some.inj eq)
  | models =>
    obtain ⟨ts, _, h⟩ := exists_of_bind h
    obtain ⟨m, _, h⟩ := exists_of_bind h
    cases h
    intro c hc eq
    rw [Target.head?_commentMarker] at eq
    exact Model.render_head source m _ c hc (Option.some.inj eq)

def Target.StartsAsFault (target : Target) (code : String) : Prop :=
  (target.commentMarker ++ " error:").toList <+: code.toList

theorem Target.startsAsFault_ofFault (target : Target) (fault : Fault) :
    target.StartsAsFault (Generated.ofFault target.commentMarker fault).code := by
  have split : target.commentMarker ++ " error: " = target.commentMarker ++ " error:" ++ " " := by
    rw [String.append_assoc]
    rfl
  rw [ofFault_code, StartsAsFault, split]
  simp only [String.toList_append, List.append_assoc]
  exact ⟨_, List.append_assoc _ _ _⟩

theorem Target.not_startsAsFault {code : String}
    (h : ∀ c ∈ code.toList.head?, some c ≠ target.commentMarker.toList.head?) :
    ¬target.StartsAsFault code := by
  rintro ⟨rest, eq⟩
  have marker := target.head?_commentMarker
  refine h _ ?_ marker.symm
  obtain ⟨more, start⟩ := List.head?_eq_some_iff.mp marker
  rw [← eq, String.toList_append, start]
  rfl

/-- A run tells of an error exactly if its source cannot be read, and its code starts as the comment
on a fault exactly then. What it tells is one error at a place of the source, under the code of the
stage that failed, or else warnings and the sizes of what was read and written. -/
theorem run_reports_outcome (config : Config) (target : Target) (source : String) :
    ((config.generate target source).hasErrors = true ↔ (target.read source).isOk = false) ∧
    (target.StartsAsFault (config.generate target source).code ↔
      (target.read source).isOk = false) ∧
    if (target.read source).isOk then (config.generate target source).TellsResult target source
    else (config.generate target source).TellsFault target source := by
  cases hr : target.read source with
  | error fault =>
    have run : config.generate target source = .ofFault target.commentMarker fault := by
      rw [Config.generate, (config.generate?_eq_error_iff target source).mpr hr]
    rw [run]
    exact ⟨by simp [Except.isOk, Except.toBool]; rfl,
      by simpa [Except.isOk, Except.toBool] using target.startsAsFault_ofFault fault,
      Generated.tellsFault_ofFault hr⟩
  | ok _ =>
    cases hg : config.generate? source target with
    | error fault =>
      rw [(config.generate?_eq_error_iff target source).mp hg] at hr
      cases hr
    | ok g =>
      have run : config.generate target source = g := by rw [Config.generate, hg]
      have tells := config.tellsResult_of_generate? hg
      have calm : g.hasErrors = false := by
        rw [Generated.hasErrors, List.any_eq_false]
        intro d hd
        rw [Diagnostic.isError, tells.warnings d hd]
        decide
      rw [run, calm]
      exact ⟨by simp [Except.isOk, Except.toBool],
        by simpa [Except.isOk, Except.toBool] using
          Target.not_startsAsFault (config.code_head_of_generate? hg), tells⟩

end ViewBridge
