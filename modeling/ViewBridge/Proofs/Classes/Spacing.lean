import ViewBridge.Proofs.BlankLines
import ViewBridge.Proofs.Classes.Concat
import ViewBridge.Proofs.Classes.Interface
import ViewBridge.Proofs.Classes.Spelling

namespace ViewBridge.Scanner

variable {ω : Type} {read : Lexicon ω} {v : View ω} {first second rest : List Char}
  {ks : List (TokenKind ω)}

theorem Aligned.of_view {a b : Stage ω} (view : a.view = b.view) (rest : a.rest = b.rest) :
    Aligned a b := by
  simp only [Stage.view, View.mk.injEq] at view
  obtain ⟨mode, blocks, opened, previous⟩ := view
  exact ⟨⟨mode, rest, blocks, opened, .inl previous⟩, previous⟩

theorem sameScan_of_writes (hb : read.LayoutBlind)
    (h : Writes read ⟨.line, {}, [], none⟩ first rest ks v)
    (h' : Writes read ⟨.line, {}, [], none⟩ second rest ks v) :
    SameScan (tokensOf read (String.ofList (first ++ rest)))
      (tokensOf read (String.ofList (second ++ rest))) := by
  obtain ⟨out, a, steps, view, left, kinds⟩ := h ⟨.line, {}, first ++ rest⟩ rfl rfl
  obtain ⟨out', a', steps', view', left', kinds'⟩ := h' ⟨.line, {}, second ++ rest⟩ rfl rfl
  have aligned : Aligned a a' := .of_view (view.trans view'.symm) (left.trans left'.symm)
  rw [tokensOf_eq_scan, tokensOf_eq_scan, String.toList_ofList, String.toList_ofList,
    steps.scan_eq, steps'.scan_eq]
  exact (scan_aligned hb aligned).map (kinds.trans kinds'.symm)

theorem exists_kinds_of_writes {ts : List (Token ω)}
    (h : Writes read ⟨.line, {}, [], none⟩ first rest ks v)
    (ht : tokensOf read (String.ofList (first ++ rest)) = .ok ts) :
    ∃ more, ts.map (·.kind) = ks ++ more := by
  obtain ⟨out, a, steps, _, _, rfl⟩ := h ⟨.line, {}, first ++ rest⟩ rfl rfl
  rw [tokensOf_eq_scan, String.toList_ofList, steps.scan_eq] at ht
  obtain ⟨more, _, rfl⟩ := exists_of_map ht
  exact ⟨more.map (·.kind), List.map_append⟩

end ViewBridge.Scanner

namespace ViewBridge.Classes

open Scanner List

theorem exists_parse_of_sameScan {a b : String} {m : Module} (h : SameScan (tokens a) (tokens b))
    (ha : parse a = .ok m) :
    ∃ m', parse b = .ok m' ∧
      m'.classes.map ClassDef.unplaced = m.classes.map ClassDef.unplaced := by
  generalize hta : tokens a = x at h
  generalize htb : tokens b = y at h
  cases h with
  | error =>
    rw [parse, hta] at ha
    cases ha
  | @ok ts us kinds =>
    obtain ⟨v, fin, rfl, read⟩ := exists_parse_eq hta
    obtain ⟨v', fin', rfl, read'⟩ := exists_parse_eq htb
    rw [map_append, map_append] at kinds
    have alike : Alike v v' := append_inj_left' kinds rfl
    obtain ⟨cs, hcs, rfl⟩ := exists_of_map (read.symm.trans ha)
    obtain ⟨cs', hcs', same⟩ := (classesFrom_alike alike rfl).exists_ok hcs
    exact ⟨⟨cs'⟩, by rw [read', hcs']; rfl, Eq.symm same⟩

/-- Whether a text is read as one operator with an equals sign directly before it: it starts with an
operator character, other than that of an arrow. -/
def joinsEquals (value : String) : Bool :=
  match value.toList with
  | [] => false
  | c :: rest => operatorChars.contains c ∧ ¬(c = '-' ∧ rest.head? = some '>')

/-- The declarations in which a default may stand. -/
inductive DefaultSite where
  | field
  | annotatedField
  | parameter

namespace DefaultSite

variable (site : DefaultSite) (name : String)

/-- A declaration up to its default. -/
def before : String :=
  match site with
  | .field => name
  | .annotatedField => name ++ ": int"
  | .parameter => "def f(self, " ++ name

/-- A declaration behind its default. -/
def behind : String :=
  match site with
  | .field | .annotatedField => "\n"
  | .parameter => "): pass\n"

/-- A class with one declaration that has a default behind this equals sign. -/
def text (equals value : String) : String :=
  "class A:\n    " ++ site.before name ++ equals ++ value ++ site.behind

def kinds : List Kind :=
  match site with
  | .field => [.word (.identifier name)]
  | .annotatedField => [.word (.identifier name), .word .colon, .word (.identifier "int")]
  | .parameter => [.word .defKeyword, .word (.identifier "f"), .opening .round,
      .word (.identifier "self"), .word .comma, .word (.identifier name)]

def opened : List Bracket :=
  match site with
  | .field | .annotatedField => []
  | .parameter => [.round]

end DefaultSite

section Writes

variable {name : String} {rest : List Char} {blocks : Indentation} {opened : List Bracket}
  {previous : Option Kind}

theorem readWord_equals (previous : Option Kind) (cs : List Char) :
    readWord previous '=' cs = .ok (.word (operatorWord (String.ofList ('=' :: operatorRun cs)))
      (operatorRun cs).length) := rfl

theorem startsWord_equals : StartsWord '=' := startsWord_of_class (p := (· == '=')) rfl (by decide)

theorem writes_equals (h : operatorRun rest = []) :
    Writes readWord ⟨.inside, blocks, opened, previous⟩ ['='] rest [.word .equals]
      ⟨.inside, blocks, opened, some (.word .equals)⟩ := by
  refine writes_word startsWord_equals ?_
  rw [nil_append, readWord_equals, h]
  rfl

theorem writes_spacedEquals (rest : List Char) :
    Writes readWord ⟨.inside, blocks, opened, previous⟩ " = ".toList rest [.word .equals]
      ⟨.inside, blocks, opened, some (.word .equals)⟩ := by
  have equals : Writes readWord ⟨.inside, blocks, opened, previous⟩ ['='] (' ' :: rest) _ _ :=
    writes_equals rfl
  have front := (writes_blank ('=' :: ' ' :: rest) (.inl rfl)).trans equals
  exact front.trans (writes_blank rest (.inl rfl))

theorem operatorWord_joined {run : List Char} (h : run ≠ []) :
    operatorWord (String.ofList ('=' :: run)) = .operator (String.ofList ('=' :: run)) := by
  obtain ⟨d, ds, eq⟩ := exists_cons_of_ne_nil h
  have ne (text : String) (ht : text.toList.tail = [] ∨ text.toList.head? ≠ some '=') :
      String.ofList ('=' :: run) ≠ text := by
    rintro rfl
    simp [eq] at ht
  rw [operatorWord, if_neg (ne "=" (.inl rfl)), if_neg (ne "*" (.inl rfl)),
    if_neg (ne "**" (.inr (by decide)))]

theorem writes_joinedEquals {cs : List Char} (h : operatorRun cs ≠ [])
    (eq : operatorRun cs ++ rest = cs) :
    ∃ op, Writes readWord ⟨.inside, blocks, opened, previous⟩ ('=' :: operatorRun cs) rest
      [.word (.operator op)] ⟨.inside, blocks, opened, some (.word (.operator op))⟩ := by
  refine ⟨String.ofList ('=' :: operatorRun cs), writes_word startsWord_equals ?_⟩
  rw [eq, readWord_equals, operatorWord_joined h]

def headerKinds : List Kind :=
  [.word .classKeyword, .word (.identifier "A"), .word .colon, .newline, .indent]

theorem writes_header {c : Char} (hc : isLayoutChar c = false) (rest : List Char) :
    Writes readWord ⟨.line, {}, [], none⟩ "class A:\n    ".toList (c :: rest) headerKinds
      ⟨.inside, ⟨[4]⟩, [], some .indent⟩ := by
  have chars : "class A:\n    ".toList =
      [] ++ ("class".toList ++ ' ' :: ("A".toList ++ [':'])) ++ ['\n'] ++ "    ".toList := rfl
  have line (more : List Char) : Spells ("class".toList ++ ' ' :: ("A".toList ++ [':']))
      [.word .classKeyword, .word (.identifier "A"), .word .colon] ('\n' :: more) := by
    have keyword : Spells "class".toList [.word .classKeyword]
        (' ' :: ("A".toList ++ [':']) ++ '\n' :: more) :=
      spells_fixed ⟨'c', _, rfl, by decide, by decide⟩ rfl (endsName_mark rfl _)
    have name : Spells "A".toList [.word (.identifier "A")] ([':'] ++ '\n' :: more) :=
      spells_name (by decide) (endsName_mark rfl _)
    exact keyword.append (spells_blank (name.append (spells_colon (by decide) more)))
  obtain ⟨last, header⟩ := line ("    ".toList ++ c :: rest) {} [] none
  have start (more : List Char) :
      Writes readWord ⟨.line, {}, [], none⟩ [] ('c' :: more) (layoutKinds .same) _ :=
    writes_layout (forall_mem_nil _) rfl rfl
  have indent : Writes readWord ⟨.line, {}, [], some .newline⟩ "    ".toList (c :: rest)
      (layoutKinds .indent) ⟨.inside, ⟨[4]⟩, [], some .indent⟩ := writes_layout (by decide) hc rfl
  rw [chars]
  exact (((start _).trans header).trans (writes_newline _)).trans indent

theorem writes_before (site : DefaultSite) (hn : isName name = true) (hr : EndsName rest)
    (blocks : Indentation) (previous : Option Kind) :
    ∃ last, Writes readWord ⟨.inside, blocks, [], previous⟩ (site.before name).toList rest
      (site.kinds name) ⟨.inside, blocks, site.opened, last⟩ := by
  cases site with
  | field => exact spells_name hn hr blocks [] previous
  | annotatedField =>
    have chars : (name ++ ": int").toList = name.toList ++ ':' :: ' ' :: "int".toList :=
      String.toList_append
    rw [DefaultSite.before, chars]
    exact spells_hint hn (by decide) hr blocks [] previous
  | parameter =>
    have chars : ("def f(self, " ++ name).toList = "def".toList ++ ' ' :: "f".toList ++
        (['('] ++ ("self".toList ++ ',' :: ' ' :: name.toList)) := String.toList_append
    rw [DefaultSite.before, chars]
    have start (more : List Char) : Spells ("def".toList ++ ' ' :: "f".toList)
        [.word .defKeyword, .word (.identifier "f")] ('(' :: more) := by
      have keyword : Spells "def".toList [.word .defKeyword] (' ' :: "f".toList ++ '(' :: more) :=
        spells_fixed ⟨'d', _, rfl, by decide, by decide⟩ rfl (endsName_mark rfl _)
      have method : Spells "f".toList [.word (.identifier "f")] ('(' :: more) :=
        spells_name (by decide) (endsName_mark rfl _)
      exact keyword.append (spells_blank method)
    have receiver : Spells "self".toList [.word (.identifier "self")]
        (',' :: ' ' :: name.toList ++ rest) := spells_name (by decide) (endsName_mark rfl _)
    obtain ⟨mid, signature⟩ := start _ blocks [] previous
    obtain ⟨last, names⟩ := receiver.append (spells_comma (spells_name hn hr).value) blocks
      [.round] (some (.opening .round))
    exact ⟨last, signature.trans ((writes_opening .round _).trans names)⟩

end Writes

section Texts

variable (site : DefaultSite) {name value : String}

theorem exists_head_before (hn : isName name = true) :
    ∃ c cs, (site.before name).toList = c :: cs ∧ isLayoutChar c = false := by
  obtain ⟨c, cs, eq, hc⟩ := starts_of_isName hn
  cases site with
  | field => exact ⟨c, cs, eq, layout_of_isNameStart hc⟩
  | annotatedField =>
    refine ⟨c, cs ++ ": int".toList, ?_, layout_of_isNameStart hc⟩
    rw [DefaultSite.before, String.toList_append, eq]
    rfl
  | parameter => exact ⟨'d', _, String.toList_append, rfl⟩

theorem writes_declaration {rest : List Char} (hn : isName name = true) (hr : EndsName rest) :
    ∃ last, Writes readWord ⟨.line, {}, [], none⟩
      ("class A:\n    ".toList ++ (site.before name).toList) rest (headerKinds ++ site.kinds name)
      ⟨.inside, ⟨[4]⟩, site.opened, last⟩ := by
  obtain ⟨last, declaration⟩ := writes_before site hn hr ⟨[4]⟩ (some .indent)
  obtain ⟨c, cs, eq, hc⟩ := exists_head_before site hn
  refine ⟨last, Writes.trans ?_ declaration⟩
  rw [eq]
  exact writes_header hc (cs ++ rest)

theorem operatorRun_eq_nil_iff :
    operatorRun (value.toList ++ site.behind.toList) = [] ↔ joinsEquals value = false := by
  unfold joinsEquals
  cases value.toList with
  | nil => cases site <;> decide
  | cons c rest =>
    have next : (rest ++ site.behind.toList).head? = some '>' ↔ rest.head? = some '>' := by
      cases rest with
      | nil => cases site <;> decide
      | cons => rfl
    rw [cons_append, operatorRun]
    simp only [next, decide_eq_false_iff_not]
    exact ite_eq_right_iff.trans (imp_congr_right fun _ => iff_false_intro (cons_ne_nil _ _))

theorem text_eq (name equals value : String) :
    site.text name equals value = String.ofList
      ("class A:\n    ".toList ++ (site.before name).toList ++ equals.toList ++
        (value.toList ++ site.behind.toList)) := by
  unfold DefaultSite.text
  generalize "class A:\n    " = header
  rw [String.ofList_append, String.ofList_append, String.ofList_append, String.ofList_append]
  simp only [String.ofList_toList, String.append_assoc]

theorem endsName_equals (cs : List Char) : EndsName ('=' :: cs) := by
  rintro _ ⟨⟩
  exact ⟨by decide, by decide, by decide⟩

theorem sameScan_spacing (hn : isName name = true) (h : joinsEquals value = false) :
    SameScan (tokens (site.text name " = " value)) (tokens (site.text name "=" value)) := by
  obtain ⟨last, spaced⟩ : ∃ last, Writes readWord ⟨.line, {}, [], none⟩ _
      (" = ".toList ++ (value.toList ++ site.behind.toList)) _ _ :=
    writes_declaration site hn (endsName_mark rfl _)
  obtain ⟨last', tight⟩ : ∃ last, Writes readWord ⟨.line, {}, [], none⟩ _
      ("=".toList ++ (value.toList ++ site.behind.toList)) _ _ :=
    writes_declaration site hn (endsName_equals _)
  rw [text_eq, text_eq]
  exact sameScan_of_writes readWord_layoutBlind (spaced.trans (writes_spacedEquals _))
    (tight.trans (writes_equals ((operatorRun_eq_nil_iff site).mpr h)))

theorem exists_kinds_joined {ts : List Token} (hn : isName name = true)
    (h : joinsEquals value = true) (ht : tokens (site.text name "=" value) = .ok ts) :
    ∃ op more,
      ts.map (·.kind) = headerKinds ++ site.kinds name ++ .word (.operator op) :: more := by
  have run : operatorRun (value.toList ++ site.behind.toList) ≠ [] := by
    rw [ne_eq, operatorRun_eq_nil_iff site, h]
    nofun
  obtain ⟨rest, eq⟩ := operatorRun_isPrefix (value.toList ++ site.behind.toList)
  obtain ⟨last, declaration⟩ : ∃ last, Writes readWord ⟨.line, {}, [], none⟩ _
      ('=' :: operatorRun (value.toList ++ site.behind.toList) ++ rest) _ _ :=
    writes_declaration site hn (endsName_equals _)
  obtain ⟨op, joined⟩ := writes_joinedEquals run eq
  have writes := declaration.trans joined
  rw [text_eq] at ht
  have chars : ∀ front, front ++ "=".toList ++ (value.toList ++ site.behind.toList) =
      front ++ '=' :: operatorRun (value.toList ++ site.behind.toList) ++ rest := by
    intro front
    rw [append_assoc, append_assoc, cons_append, eq]
    rfl
  rw [chars] at ht
  obtain ⟨more, kinds⟩ := exists_kinds_of_writes writes ht
  exact ⟨op, more, by rw [kinds, append_assoc, append_assoc]; rfl⟩

end Texts

section Refused

variable {site : DefaultSite} {fin s : Span} {name op : String} {ts rest : List Token}
  {more : List Kind}

theorem member_field_refused {hint : Option TypeHint}
    (other : startsField (.word (.identifier name) :: ts.map (·.kind)) = true)
    (ht : typeBehind fin isColon ts = .ok (hint, ⟨.word (.operator op), s⟩ :: rest)) (s' : Span) :
    ∃ fault, member fin [] (⟨.word (.identifier name), s'⟩ :: ts) = .error fault := by
  rw [member_eq_field other, field_eq, ht]
  cases hint <;> exact ⟨_, rfl⟩

theorem params_refused (s₁ s₂ s₃ : Span) :
    ∃ fault, params fin (⟨.word (.identifier "self"), s₁⟩ :: ⟨.word .comma, s₂⟩ ::
      ⟨.word (.identifier name), s₃⟩ :: ⟨.word (.operator op), s⟩ :: rest) = .error fault := by
  have entries := entries_params fin
  obtain ⟨fault, last⟩ : ∃ fault, params fin (⟨.word (.identifier name), s₃⟩ ::
      ⟨.word (.operator op), s⟩ :: rest) = .error fault := by
    rw [entries.more (by nofun)]
    exact ⟨_, rfl⟩
  have first : paramEntry fin (⟨.word (.identifier "self"), s₁⟩ :: ⟨.word .comma, s₂⟩ ::
      ⟨.word (.identifier name), s₃⟩ :: ⟨.word (.operator op), s⟩ :: rest) = .ok (_, _) := rfl
  rw [entries.more (by nofun), first]
  simp [Except.bind, Except.map, entryEnd, last]

theorem member_method_refused {fault : Fault} (h : params fin ts = .error fault)
    (s₁ s₂ s₃ : Span) :
    member fin [] (⟨.word .defKeyword, s₁⟩ :: ⟨.word (.identifier name), s₂⟩ ::
      ⟨.opening .round, s₃⟩ :: ts) = .error fault := by
  have read : method fin [] s₁ (⟨.word (.identifier name), s₂⟩ :: ⟨.opening .round, s₃⟩ :: ts) =
      .error fault := by
    simp only [method, h]
    rfl
  show (method fin [] s₁ _).bind _ = _
  rw [read]
  rfl

theorem exists_token {k : Kind} {ks : List Kind}
    (h : ts.map (·.kind) = k :: ks) : ∃ s us, ts = ⟨k, s⟩ :: us ∧ us.map (·.kind) = ks := by
  obtain ⟨s, us, rfl, behind⟩ := exists_kinds_cons h
  exact ⟨s, us, rfl, behind⟩

theorem member_refused (h : ts.map (·.kind) = site.kinds name ++ .word (.operator op) :: more) :
    ∃ fault, member fin [] ts = .error fault := by
  cases site with
  | field =>
    obtain ⟨s₁, ts₁, rfl, h₁⟩ := exists_token h
    obtain ⟨s₂, ts₂, rfl, _⟩ := exists_token h₁
    exact member_field_refused rfl rfl s₁
  | annotatedField =>
    obtain ⟨s₁, ts₁, rfl, h₁⟩ := exists_token h
    obtain ⟨s₂, ts₂, rfl, h₂⟩ := exists_token h₁
    obtain ⟨s₃, ts₃, rfl, h₃⟩ := exists_token h₂
    obtain ⟨s₄, ts₄, rfl, _⟩ := exists_token h₃
    obtain ⟨hint, ht⟩ := exists_typeBehind_name (.operator op) fin s₂ s₃ s₄ "int" ts₄
    exact member_field_refused rfl ht s₁
  | parameter =>
    obtain ⟨s₁, ts₁, rfl, h₁⟩ := exists_token h
    obtain ⟨s₂, ts₂, rfl, h₂⟩ := exists_token h₁
    obtain ⟨s₃, ts₃, rfl, h₃⟩ := exists_token h₂
    obtain ⟨s₄, ts₄, rfl, h₄⟩ := exists_token h₃
    obtain ⟨s₅, ts₅, rfl, h₅⟩ := exists_token h₄
    obtain ⟨s₆, ts₆, rfl, h₆⟩ := exists_token h₅
    obtain ⟨s₇, ts₇, rfl, _⟩ := exists_token h₆
    obtain ⟨fault, refused⟩ : ∃ fault, params fin (⟨.word (.identifier "self"), s₄⟩ ::
        ⟨.word .comma, s₅⟩ :: ⟨.word (.identifier name), s₆⟩ :: ⟨.word (.operator op), s₇⟩ :: ts₇) =
          .error fault := params_refused s₄ s₅ s₆
    exact ⟨fault, member_method_refused refused s₁ s₂ s₃⟩

/-- The class is read from its body. -/
theorem exists_classesFrom_header {header : List Token} (hk : header.map (·.kind) = headerKinds)
    (body : List Token) :
    ∃ s, classesFrom fin [] (header ++ body) = (classBody fin [] body).bind fun q =>
      (classesFrom fin [] q.2).map (⟨"A", [], [], q.1.fields, q.1.methods, s⟩ :: ·) := by
  obtain ⟨s₁, ts₁, rfl, h₁⟩ := exists_token hk
  obtain ⟨s₂, ts₂, rfl, h₂⟩ := exists_token h₁
  obtain ⟨s₃, ts₃, rfl, h₃⟩ := exists_token h₂
  obtain ⟨s₄, ts₄, rfl, h₄⟩ := exists_token h₃
  obtain ⟨s₅, ts₅, rfl, h₅⟩ := exists_token h₄
  obtain rfl := map_eq_nil_iff.mp h₅
  refine ⟨s₁, ?_⟩
  have read : classDef fin [] s₁ (⟨.word (.identifier "A"), s₂⟩ :: ⟨.word .colon, s₃⟩ ::
      ⟨.newline, s₄⟩ :: ⟨.indent, s₅⟩ :: body) = (classBody fin [] body).map fun q =>
        (⟨"A", [], [], q.1.fields, q.1.methods, s₁⟩, q.2) := by
    rw [classDef_eq]
    rfl
  show classesFrom fin [] (⟨.word .classKeyword, s₁⟩ :: _) = _
  rw [classesFrom_class]
  show (classDef fin [] s₁ (⟨.word (.identifier "A"), s₂⟩ :: ⟨.word .colon, s₃⟩ ::
      ⟨.newline, s₄⟩ :: ⟨.indent, s₅⟩ :: body)).bind _ = _
  rw [read]
  cases result : classBody fin [] body with
  | error fault => rfl
  | ok q =>
    have shorter : q.2.length ≤ body.length := ((classBody_gives [] body).of_ok result).1.length_le
    show (if q.2.length ≤ body.length + 4 then _ else _) = _
    rw [if_pos (by omega)]
    rfl

theorem classesFrom_refused {w : Word} {fault : Fault}
    (h : member fin [] (⟨.word w, s⟩ :: rest) = .error fault) {header : List Token}
    (hk : header.map (·.kind) = headerKinds) :
    classesFrom fin [] (header ++ ⟨.word w, s⟩ :: rest) = .error fault := by
  have body : classBody fin [] (⟨.word w, s⟩ :: rest) = .error fault := by
    rw [classBody.eq_def]
    simp only [h]
    rfl
  obtain ⟨_, read⟩ := exists_classesFrom_header hk (⟨.word w, s⟩ :: rest)
  rw [read, body]
  rfl

theorem exists_fault_joined {value : String} (hn : isName name = true)
    (h : joinsEquals value = true) :
    ∃ fault, parse (site.text name "=" value) = .error fault := by
  cases ht : tokens (site.text name "=" value) with
  | error fault => exact ⟨fault, by rw [parse, ht]; rfl⟩
  | ok ts =>
    obtain ⟨op, more, kinds⟩ := exists_kinds_joined site hn h ht
    obtain ⟨v, fin, rfl, read⟩ := exists_parse_eq ht
    rw [map_append, append_assoc] at kinds
    obtain ⟨before, split⟩ : ∃ before, v.map (·.kind) =
        headerKinds ++ (site.kinds name ++ .word (.operator op) :: before) := by
      rcases eq_nil_or_concat more with rfl | ⟨before, last, rfl⟩
      · have ends := congrArg List.getLast? kinds
        simp at ends
      · have whole : v.map (·.kind) ++ [.eof] =
            headerKinds ++ (site.kinds name ++ .word (.operator op) :: before) ++ [last] := by
          simpa using kinds
        exact ⟨before, append_inj_left' whole rfl⟩
    obtain ⟨header, body, rfl, headed, declared⟩ := map_eq_append_iff.mp split
    obtain ⟨fault, refused⟩ : ∃ fault, member fin [] body = .error fault := member_refused declared
    obtain ⟨w, ks, starts⟩ : ∃ w ks, site.kinds name = .word w :: ks := by
      cases site <;> exact ⟨_, _, rfl⟩
    rw [starts] at declared
    obtain ⟨s, rest, rfl, _⟩ := exists_token declared
    refine ⟨fault, ?_⟩
    rw [read, classesFrom_refused refused headed]
    rfl

end Refused

/-- Blanks around the equals sign of a default make no difference to what is declared, unless the
default starts with an operator. Without them such a declaration is refused. -/
theorem equals_spacing (site : DefaultSite) {name value : String} {m : Module}
    (hn : isName name = true) (h : parse (site.text name " = " value) = .ok m) :
    (joinsEquals value = false → ∃ m', parse (site.text name "=" value) = .ok m' ∧
      m'.classes.map ClassDef.unplaced = m.classes.map ClassDef.unplaced) ∧
    (joinsEquals value = true → ∃ fault, parse (site.text name "=" value) = .error fault) :=
  ⟨fun apart => exists_parse_of_sameScan (sameScan_spacing site hn apart) h,
    fun joined => exists_fault_joined hn joined⟩

/-- A default in brackets, and one that starts with a minus. -/
theorem equals_spacing_minus :
    isName "n" = true ∧
    (∃ m m', parse (DefaultSite.annotatedField.text "n" " = " "[-1, 2]") = .ok m ∧
      parse (DefaultSite.annotatedField.text "n" "=" "[-1, 2]") = .ok m' ∧
      m'.classes.map ClassDef.unplaced = m.classes.map ClassDef.unplaced) ∧
    ∃ m fault, parse (DefaultSite.parameter.text "n" " = " "-1") = .ok m ∧
      parse (DefaultSite.parameter.text "n" "=" "-1") = .error fault := by
  have name : isName "n" = true := by decide
  have bracketed : (parse (DefaultSite.annotatedField.text "n" " = " "[-1, 2]")).isOk = true := by
    decide +kernel
  have negative : (parse (DefaultSite.parameter.text "n" " = " "-1")).isOk = true := by
    decide +kernel
  obtain ⟨m, hm⟩ := exists_ok_of_isOk bracketed
  obtain ⟨l, hl⟩ := exists_ok_of_isOk negative
  obtain ⟨m', hm', same⟩ := (equals_spacing .annotatedField name hm).1 (by decide)
  obtain ⟨fault, refused⟩ := (equals_spacing .parameter name hl).2 (by decide)
  exact ⟨name, ⟨m, m', hm, hm', same⟩, l, fault, hl, refused⟩

/-- The same declarations with and without blanks: all three are read with them, none without. -/
theorem equals_spacing_lost :
    (parse "class A:\n    n = -1\n").isOk = true ∧ (parse "class A:\n    n=-1\n").isOk = false ∧
    (parse "class A:\n    n: int = -1\n").isOk = true ∧
    (parse "class A:\n    n: int=-1\n").isOk = false ∧
    (parse "class A:\n    def f(self, n = -1): pass\n").isOk = true ∧
    (parse "class A:\n    def f(self, n=-1): pass\n").isOk = false := by
  decide +kernel

end ViewBridge.Classes
