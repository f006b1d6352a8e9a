import Mathlib.Data.List.Forall2
import Mathlib.Data.List.Infix
import ViewBridge.Proofs.Model.Members

namespace ViewBridge.Classes

open List

variable {source : String} {ts : List Token} {m : Module}

/-- The class stands in the tokens with its body on the lines behind its header. -/
def BodyBelow (ts : List Token) (c : ClassDef) : Prop :=
  ∀ front rest, ts = front ++ ⟨.word .classKeyword, c.span⟩ :: rest →
    behindColon 0 (lineKinds rest) = []

theorem lineKinds_concat {front rest : List Token} {t u : Token}
    (h : Skeleton ((front ++ t :: rest).map (·.kind) ++ [.eof])) (ht : t.kind.isText = true) :
    lineKinds (rest ++ [u]) = lineKinds rest := by
  obtain ⟨l, s, next, rfl, -, -⟩ := exists_line h ht
  clear h
  have cut (more : List Token) :
      (l ++ ⟨.newline, s⟩ :: more).takeWhile isOnLine = l.takeWhile isOnLine := by
    induction l with
    | nil => rfl
    | cons v l ih => simp only [cons_append, takeWhile_cons, ih]
  rw [lineKinds, lineKinds, append_assoc, cons_append, cut, cut]

theorem exists_held (ht : tokensOf readWord.firmStarts source = .ok ts)
    (hm : parse source = .ok m) :
    ∃ whole t, ts = whole ++ [t] ∧ ∀ c ∈ m.classes, NamedClass c ∧
      (BodyBelow ts c → (∀ f ∈ c.fields, f.hint = none → HeldAt whole f.extent ⟨[f.name], []⟩) ∧
        ∀ d ∈ c.methods, HeldAt whole d.extent ⟨[], [d.signature]⟩) := by
  have tokens := tokensOf_mono (Lexicon.extends_firmStarts readWord) ht
  obtain ⟨whole, fin, rfl, hparse⟩ := exists_parse_eq tokens
  obtain ⟨cs, run, rfl⟩ := exists_of_map (hparse.symm.trans hm)
  obtain ⟨ks, kinds, lined⟩ := behindLine_of_tokensOf (Lexicon.gapsInside_firmStarts readWord) ht
  have lexed := lexed_of_tokens tokens
  rw [map_append] at kinds
  obtain rfl : whole.map (·.kind) = ks := append_inj_left' kinds rfl
  refine ⟨whole, _, rfl, fun c hc => ?_⟩
  -- every class is read behind its keyword, and what is read there is all that is needed of it
  obtain ⟨ds, rest, left, ⟨front, eq⟩, read⟩ := exists_classDef run hc
  constructor
  · have named : Named rest := fun t ht =>
      named_of_tokens tokens t (by rw [← eq]; simp [ht])
    exact ((classDef_gives ds rest).of_ok read).2 named
  · intro below
    refine heldAt_of_classDef lexed lined eq.symm ?_ read
    rw [← lineKinds_concat (eq ▸ lexed.skeleton) rfl]
    exact below front _ (by rw [← eq, append_assoc, cons_append])

end ViewBridge.Classes

namespace ViewBridge.Model

open Scanner List
open Classes
open Text (Outline)

variable {width : Nat} {source : String} {ts : List Classes.Token} {shapes : List Shape}

/-- Lines outside all blocks that are read again as classes of these shapes. -/
def ReadBack (text : List Char) (shapes : List Shape) : Prop :=
  ∃ ks, Stands readWord hushed [] text ks ∧ ReadsShapes ks shapes

theorem readBack_nil : ReadBack [] [] := ⟨[], stands_nil, readsShapes_nil⟩

theorem ReadBack.append {text text' : List Char} {shapes' : List Shape} (h : ReadBack text shapes)
    (h' : ReadBack text' shapes') : ReadBack (text ++ text') (shapes ++ shapes') := by
  obtain ⟨ks, stands, reads⟩ := h
  obtain ⟨ls, stands', reads'⟩ := h'
  exact ⟨ks ++ ls, stands.append stands', reads.append reads'⟩

theorem readBack_flatMap {α : Type} {xs : List α} {f : α → Outline} {g : α → List Shape}
    (h : ∀ x ∈ xs, ReadBack (Outline.render width (f x)).toList (g x)) :
    ReadBack (Outline.render width (xs.flatMap f)).toList (xs.flatMap g) := by
  induction xs with
  | nil => exact readBack_nil
  | cons x xs ih =>
    rw [flatMap_cons, flatMap_cons, render_append]
    exact (h x mem_cons_self).append (ih fun y hy => h y (mem_cons_of_mem _ hy))

theorem parse_of_readBack (h : ReadBack source.toList shapes) :
    ∃ m, Classes.parse source = .ok m ∧ m.classes.map ClassDef.shape = shapes := by
  obtain ⟨ks, stands, reads⟩ := h
  obtain ⟨ts, tokens, kinds⟩ := tokensOf_of_stands stands
  obtain ⟨v, fin, rfl, parse⟩ := exists_parse_eq tokens
  rw [map_append, map_append, map_append] at kinds
  have same : Classes.SameKinds v ks := append_inj_left' kinds rfl
  have done : classesFrom fin [] [] = .ok [] := by rw [classesFrom.eq_def]
  obtain ⟨cs, shapes, run⟩ := reads.read fin same rfl done
  rw [append_nil, append_nil] at run
  exact ⟨⟨cs⟩, by rw [parse, run]; rfl, shapes⟩

section Members

variable {members : List Member} {shown : List Interface}

theorem render_empty (width : Nat) :
    (Text.OutlineLine.render width .empty).toList = ['\n'] := by
  simp [Text.OutlineLine.render]

theorem render_members_cons (width : Nat) (m : Member) (members : List Member) :
    (Outline.render width ((m :: members).flatMap (.empty :: ·.outline))).toList = ['\n'] ++
      ((Outline.render width m.outline).toList ++
        (Outline.render width (members.flatMap (.empty :: ·.outline))).toList) := by
  rw [flatMap_cons, cons_append, render_cons, render_append, render_empty]

/-- What members show one after the other. -/
def together (shown : List Interface) : Interface := shown.foldr Interface.append {}

theorem exists_stands_members
    (h : List.Forall₂ (fun m i => WrittenAs width m.outline i) members shown) :
    ∃ ks, Stands readWord hushed [width]
        (Outline.render width (members.flatMap (.empty :: ·.outline))).toList ks ∧
      Reads [] ks (together shown) [] := by
  induction h with
  | nil => exact ⟨[], stands_nil, reads_nil []⟩
  | @cons m i members shown first _ ih =>
    obtain ⟨ks, begins, reads⟩ := first
    obtain ⟨ls, stands, behind⟩ := ih
    refine ⟨ks ++ ls, ?_, reads.append behind⟩
    have lines := ((stands_emptyLine [width]).append begins.stands).append stands
    rw [render_members_cons, ← append_assoc]
    exact lines

/-- The text of a generated class stands by itself, and is read as a class of its shape. -/
theorem readBack_class (hw : 0 < width) {c : ModelClass} {base : List Kind}
    (hn : isName c.name = true) (hb : Dotted c.base base)
    (h : List.Forall₂ (fun m i => WrittenAs width m.outline i) c.members shown) :
    ReadBack (Outline.render width c.outline).toList [⟨c.name, [c.base], together shown⟩] := by
  have header := lineReads_header hn hb
  have start (lines : Outline) : (Outline.render width (.empty :: .empty :: .line 0
      ("class " ++ c.name ++ "(" ++ c.base ++ "):") :: lines)).toList = ['\n'] ++ ['\n'] ++
        (("class " ++ c.name ++ "(" ++ c.base ++ "):").toList ++ ['\n'] ++
          (Outline.render width lines).toList) := by
    simp [render_cons, render_empty, render_line]
  have apart : Stands readWord hushed [] _ _ := (stands_emptyLine []).append (stands_emptyLine [])
  unfold ModelClass.outline
  rw [start]
  generalize c.members = members at h
  cases h with
  | nil =>
    obtain ⟨ks, begins, reads⟩ : WrittenAs width _ _ := writtenAs_pass
    have lines := (Begins.block header hw (fun rest => .refl _ rest) begins).stands
    rw [isEmpty_nil, if_pos rfl]
    exact ⟨_, apart.append lines, readsShapes_class hb reads⟩
  | @cons m i members shown first others =>
    obtain ⟨ks, begins, reads⟩ := first
    obtain ⟨ls, stands, behind⟩ := exists_stands_members others
    have lines := (Begins.block header hw writes_emptyLine (begins.append stands)).stands
    rw [isEmpty_cons, if_neg Bool.false_ne_true, render_members_cons]
    exact ⟨_, apart.append lines, readsShapes_class hb (reads.append behind)⟩

end Members

section Imports

theorem readBack_import {path : String} {ls : List Kind} (hp : Dotted path ls)
    {names : List String} (hn : ∀ n ∈ names, isName n = true) :
    ReadBack (Outline.render width
      [.line 0 ("from " ++ path ++ " import " ++ ", ".intercalate names)]).toList [] := by
  obtain ⟨ks, text, reads⟩ := lineReads_import hp hn
  have start : ∀ j ∈ TokenKind.word (.identifier "from") :: ks, TokenKind.isText j = true := by
    simpa using ⟨rfl, text⟩
  refine ⟨_, ?_, readsShapes_line rfl (by nofun) start⟩
  have stands : Stands readWord hushed [] _ _ := (begins_line reads).stands
  rw [render_cons, render_line, Nat.zero_mul]
  simpa [Outline.render] using stands

theorem readBack_importLine {m : Module} {line : String} (h : line ∈ m.importLines) :
    ReadBack (Outline.render width [.line 0 line]).toList [] := by
  have below {name more : String} {ks : List Kind} (hn : isName name = true)
      (tail : DottedTail more ks) : Dotted ("kivy" ++ ("." ++ name ++ more)) _ :=
    .name (by decide) (.dot hn tail)
  have event : Dotted "kivy.event" _ := @below "event" "" _ (by decide) .nil
  have properties : Dotted "kivy.properties" _ := @below "properties" "" _ (by decide) .nil
  have widget : Dotted "kivy.uix.widget" _ :=
    @below "uix" ".widget" _ (by decide)
      (@DottedTail.dot "widget" _ _ (by decide) .nil)
  simp only [Module.importLines, mem_append, mem_ite_nil_left, mem_ite_nil_right,
    mem_singleton, or_assoc] at h
  rcases h with ⟨-, rfl⟩ | ⟨-, rfl⟩ | ⟨-, rfl⟩
  · have name : ∀ n ∈ ["EventDispatcher"], isName n = true := by decide
    have line : "from " ++ "kivy.event" ++ " import " ++ ", ".intercalate ["EventDispatcher"] =
        "from kivy.event import EventDispatcher" := by decide
    exact line ▸ readBack_import event name
  · have names : ∀ n ∈ m.propertyKinds.map (·.className), isName n = true := by
      intro n hn
      obtain ⟨kind, -, rfl⟩ := mem_map.mp hn
      exact isName_className kind
    have start : "from " ++ "kivy.properties" ++ " import " = "from kivy.properties import " := by
      decide
    exact start ▸ readBack_import properties names
  · have name : ∀ n ∈ ["Widget"], isName n = true := by decide
    have line : "from " ++ "kivy.uix.widget" ++ " import " ++ ", ".intercalate ["Widget"] =
        "from kivy.uix.widget import Widget" := by decide
    exact line ▸ readBack_import widget name

theorem readBack_importLines (m : Module) :
    ReadBack (Outline.render width (m.importLines.map (.line 0))).toList [] := by
  have lines : ∀ line ∈ m.importLines, ReadBack (Outline.render width [.line 0 line]).toList [] :=
    fun line hl => readBack_importLine hl
  have all := readBack_flatMap lines
  rwa [← map_eq_flatMap, flatMap_eq_nil_iff.mpr fun _ _ => rfl] at all

end Imports

section Classes

variable {c : ClassDef}

/-- The shape of the class that holds the data of another one: it has its fields, and its methods
apart from those that read or write a property. -/
def dataShape (c : ClassDef) : Shape :=
  ⟨c.name ++ "Data", ["EventDispatcher"],
    ⟨c.fields.map (·.name), (c.methods.filter fun m => !m.isAccessor).map Method.signature⟩⟩

def widgetShape (c : ClassDef) : Shape :=
  ⟨c.name, [(c.bases.find? (· != "object")).getD "Widget"], ⟨["data"], [constructorSignature]⟩⟩

theorem together_members (fields : List Field) (methods : List Method) :
    together (fields.map (fun f => ⟨[f.name], []⟩) ++ methods.map fun m => ⟨[], [m.signature]⟩) =
      ⟨fields.map (·.name), methods.map Method.signature⟩ := by
  induction fields with
  | nil =>
    induction methods with
    | nil => rfl
    | cons m methods ih =>
      rw [map_nil, nil_append] at ih ⊢
      rw [map_cons, together, foldr_cons, ← together, ih]
      rfl
  | cons f fields ih =>
    rw [map_cons, cons_append, together, foldr_cons, ← together, ih]
    rfl

theorem readBack_dataClass (hw : 0 < width) (named : NamedClass c)
    (fields : ∀ f ∈ c.fields, WrittenAs width (fieldMember source f).outline ⟨[f.name], []⟩)
    (methods : ∀ m ∈ c.methods,
      WrittenAs width (Member.source (sourceLines source m.extent)).outline ⟨[], [m.signature]⟩) :
    ReadBack (Outline.render width (dataClass source c).outline).toList [dataShape c] := by
  have members : List.Forall₂ (fun m i => WrittenAs width m.outline i) (dataClass source c).members
      (c.fields.map (fun f => ⟨[f.name], []⟩) ++
        (c.methods.filter fun m => !m.isAccessor).map fun m => ⟨[], [m.signature]⟩) := by
    apply rel_append
    · rw [List.forall₂_map_left_iff, List.forall₂_map_right_iff, List.forall₂_same]
      exact fields
    · rw [List.forall₂_map_left_iff, List.forall₂_map_right_iff, List.forall₂_same]
      exact fun m hm => methods m (mem_of_mem_filter hm)
  have name : isName (dataClass source c).name = true := isName_append_data named.name
  have dispatcher : isName "EventDispatcher" = true := by decide
  have base : Dotted (dataClass source c).base _ := dotted_of_isName dispatcher
  have read := readBack_class hw name base members
  rwa [together_members] at read

theorem readBack_widgetClass (hw : 0 < width) (named : NamedClass c) :
    ReadBack (Outline.render width (widgetClass c).outline).toList [widgetShape c] := by
  have name : isName (widgetClass c).name = true := named.name
  obtain ⟨ks, base⟩ : ∃ ks, Dotted (widgetClass c).base ks := by
    rw [widgetClass]
    cases found : c.bases.find? (· != "object") with
    | none =>
      have widget : isName "Widget" = true := by decide
      exact ⟨_, dotted_of_isName widget⟩
    | some b => exact named.bases b (mem_of_find?_eq_some found)
  have data : isName (dataName c) = true := isName_append_data named.name
  have members : List.Forall₂ (fun m i => WrittenAs width m.outline i) (widgetClass c).members
      [⟨["data"], []⟩, ⟨[], [constructorSignature]⟩] :=
    .cons (writtenAs_hint (by decide) (by decide) data)
      (.cons (writtenAs_constructor hw data) .nil)
  exact readBack_class hw name base members

end Classes

/-- The module that is generated from the classes of a text reads back as a class with the data and
a widget for each of them. -/
theorem readBack_ofModule {m : Classes.Module} (hw : 0 < width)
    (plain : ∀ c ∈ source.toList, c ≠ '\t' ∧ c ≠ '\r')
    (ht : tokensOf readWord.firmStarts source = .ok ts) (hm : Classes.parse source = .ok m)
    (below : ∀ c ∈ m.classes, BodyBelow ts c) : ReadBack ((ofModule source m).render width).toList
      (m.classes.flatMap fun c => [dataShape c, widgetShape c]) := by
  obtain ⟨whole, t, rfl, held⟩ := exists_held ht hm
  have pair : ∀ c ∈ m.classes, ReadBack (Outline.render width
      ((dataClass source c).outline ++ (widgetClass c).outline)).toList
      [dataShape c, widgetShape c] := by
    intro c hc
    obtain ⟨named, members⟩ := held c hc
    obtain ⟨fields, methods⟩ := members (below c hc)
    rw [render_append]
    refine (readBack_dataClass hw named ?_ ?_).append (readBack_widgetClass hw named)
    · exact fun f hf => writtenAs_field (named.fields f hf) fun hint =>
        writtenAs_source plain ht (fields f hf hint)
    · exact fun d hd => writtenAs_source plain ht (methods d hd)
  rw [Module.render, Module.outline]
  split
  next none =>
    -- without classes nothing is imported either
    have empty : m.classes = [] := by
      cases hc : m.classes with
      | nil => rfl
      | cons c classes => simp [ofModule, hc] at none
    rw [empty]
    exact readBack_nil
  next =>
    have classes : (ofModule source m).classes.flatMap (·.outline) = m.classes.flatMap fun c =>
        (dataClass source c).outline ++ (widgetClass c).outline := by
      simp [ofModule, flatMap_assoc]
    rw [render_append, classes]
    exact (readBack_importLines _).append (readBack_flatMap pair)

/-- The module that is generated from a text without tabs and returns is read again as two classes
for each class of the text, if the bodies stand on the lines behind the headers: one with its fields
and its methods apart from those that read or write a property, and the widget that carries it. No
line may start with a join, since a copied member is moved by the column of its first token. -/
theorem parse_render_ofModule {ts : List Classes.Token} {m : Classes.Module} (hw : 0 < width)
    (plain : ∀ c ∈ source.toList, c ≠ '\t' ∧ c ≠ '\r')
    (ht : tokensOf readWord.firmStarts source = .ok ts) (hm : Classes.parse source = .ok m)
    (below : ∀ c ∈ m.classes, BodyBelow ts c) :
    ∃ m', Classes.parse ((ofModule source m).render width) = .ok m' ∧
      m'.classes.map ClassDef.shape = m.classes.flatMap (fun c => [dataShape c, widgetShape c]) ∧
      m'.classes.length = 2 * m.classes.length := by
  obtain ⟨m', parse, shapes⟩ := parse_of_readBack (readBack_ofModule hw plain ht hm below)
  refine ⟨m', parse, shapes, ?_⟩
  have count := congrArg List.length shapes
  simp only [length_map, length_flatMap, length_cons, length_nil,
    map_const', sum_replicate_nat] at count
  omega

/-- Whether no class of the tokens has anything behind the colon of its header. -/
def allBelow (ts : List Classes.Token) : Bool :=
  ts.tails.all fun
    | ⟨.word .classKeyword, _⟩ :: rest => (behindColon 0 (lineKinds rest)).isEmpty
    | _ => true

theorem bodyBelow_of_allBelow (h : allBelow ts = true) (c : ClassDef) : BodyBelow ts c := by
  intro front rest eq
  have tail := all_eq_true.mp h _ ((mem_tails _ _).mpr ⟨front, eq.symm⟩)
  simpa using tail

/-- Two classes. The first one has a method with decorators, a list over two lines, a block inside
it, a string over two lines, a joined line and a comment. -/
def tallyLines : List String :=
  ["@final\n", "class Tally(object, w.Panel):\n", "    step: int = 1\n",
    "    hook = os.getcwd()  # a\n", "    @property\n", "    def last(self):\n",
    "        return self.hook\n\n", "    @staticmethod\n", "    @cached(n=2)\n",
    "    def fold(items, start=[0,\n", "  1]):\n", "        '''Adds\n", " all.'''\n",
    "        for i in items:\n", "            start = start + \\\n", " i\n", "      # b\n",
    "        return start\n", "class Plain:\n", "    pass\n"]

def tallyShapes : List Shape :=
  [⟨"TallyData", ["EventDispatcher"],
      ⟨["step", "hook"], [⟨"fold", ["items", "start"], [("staticmethod", false), ("cached", true)],
        true, false⟩]⟩⟩,
    ⟨"Tally", ["w.Panel"], ⟨["data"], [constructorSignature]⟩⟩,
    ⟨"PlainData", ["EventDispatcher"], {}⟩,
    ⟨"Plain", ["Widget"], ⟨["data"], [constructorSignature]⟩⟩]

theorem parse_render_ofModule_tally :
    ∃ m m', Classes.parse (String.join tallyLines) = .ok m ∧
      Classes.parse ((ofModule (String.join tallyLines) m).render 2) = .ok m' ∧
      m'.classes.map ClassDef.shape = tallyShapes := by
  have plain : ∀ c ∈ (String.join tallyLines).toList, c ≠ '\t' ∧ c ≠ '\r' := by
    rw [String.toList_join]
    decide +kernel
  have check : (tokensOf readWord.firmStarts (String.join tallyLines)).toOption.any (fun ts =>
      allBelow ts && (Module.ofTokens ts).toOption.any fun m =>
        m.classes.flatMap (fun c => [dataShape c, widgetShape c]) == tallyShapes) = true := by
    rw [tokensOf_eq_scan, String.toList_join]
    decide +kernel
  obtain ⟨ts, ht, check⟩ := (Option.any_eq_true _ _).mp check
  rw [Bool.and_eq_true] at check
  obtain ⟨m, hm, shapes⟩ := (Option.any_eq_true _ _).mp check.2
  have ht := eq_ok_of_toOption ht
  have hm : Classes.parse (String.join tallyLines) = .ok m := by
    rw [Classes.parse, Classes.tokens, tokensOf_mono (Lexicon.extends_firmStarts readWord) ht]
    exact eq_ok_of_toOption hm
  obtain ⟨m', hm', same, -⟩ := parse_render_ofModule Nat.two_pos plain ht hm
    fun c _ => bodyBelow_of_allBelow check.1 c
  exact ⟨m, m', hm, hm', same.trans (beq_iff_eq.mp shapes)⟩

/-- A method on a line that is joined to an empty one. Its body is as deep as its name. -/
def joinedSource : String := "class A:\n    \\\n        def f(self):\n        return 1\n"

theorem parse_render_ofModule_joined :
    ∃ ts m, tokens joinedSource = .ok ts ∧ Classes.parse joinedSource = .ok m ∧
      (∀ c ∈ joinedSource.toList, c ≠ '\t' ∧ c ≠ '\r') ∧ (∀ c ∈ m.classes, BodyBelow ts c) ∧
      (Classes.parse ((ofModule joinedSource m).render 4)).isOk = false := by
  have plain : ∀ c ∈ joinedSource.toList, c ≠ '\t' ∧ c ≠ '\r' := by decide
  have text (m : Classes.Module) : Classes.parse ((ofModule joinedSource m).render 4) =
      scan readWord ⟨.line, {}, (ofModule joinedSource m).outline.flatMap
        fun line => (line.render 4).toList⟩ >>= Module.ofTokens := by
    rw [Classes.parse, tokens, tokensOf_eq_scan, Module.render, Outline.render, String.toList_join,
      flatMap_map]
  have check : (tokens joinedSource).toOption.any (fun ts =>
      allBelow ts && (Module.ofTokens ts).toOption.any fun m =>
        !(Classes.parse ((ofModule joinedSource m).render 4)).isOk) = true := by
    simp only [text]
    decide +kernel
  obtain ⟨ts, ht, check⟩ := (Option.any_eq_true _ _).mp check
  rw [Bool.and_eq_true] at check
  obtain ⟨m, hm, refused⟩ := (Option.any_eq_true _ _).mp check.2
  have ht := eq_ok_of_toOption ht
  have hm : Classes.parse joinedSource = .ok m := by
    rw [Classes.parse, ht]
    exact eq_ok_of_toOption hm
  exact ⟨ts, m, ht, hm, plain, fun c _ => bodyBelow_of_allBelow check.1 c, by simpa using refused⟩

end ViewBridge.Model
