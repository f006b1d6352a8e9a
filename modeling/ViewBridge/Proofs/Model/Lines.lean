import ViewBridge.Model.Build
import ViewBridge.Proofs.Classes.Reread
import ViewBridge.Proofs.Classes.Spelling
import ViewBridge.Proofs.Model.Pieces

namespace ViewBridge.Classes

/-- The name of the class that holds the data of another one. -/
theorem isName_append_data {name : String} (h : isName name = true) :
    isName (name ++ "Data") = true := by
  obtain ⟨_, c, cs, eq, hc, hs⟩ := isName_iff.mp h
  have chars : (name ++ "Data").toList = c :: (cs ++ "Data".toList) := by
    rw [String.toList_append, eq, List.cons_append]
  have parts : ∀ d ∈ cs ++ "Data".toList, Text.isNamePart d = true :=
    List.forall_mem_append.mpr ⟨hs, by decide⟩
  refine isName_iff.mpr ⟨?_, c, _, chars, hc, parts⟩
  have last : (name ++ "Data").toList.getLast? = some 'a' := by
    rw [String.toList_append, List.getLast?_append]
    rfl
  have ne {text : String} (other : text.toList.getLast? ≠ some 'a') : name ++ "Data" ≠ text := by
    rintro rfl
    exact other last
  unfold keyword?
  rw [if_neg (ne (by decide)), if_neg (ne (by decide)), if_neg (ne (by decide))]

end ViewBridge.Classes

namespace ViewBridge.Model

open Scanner List
open Classes
open Text (Outline)

variable {type line : String} {text : List Char} {names : List String}

section Lines

variable {width : Nat} {name base : String} {ks ls : List Kind}

theorem lineReads_of_spells (chars : line.toList = text)
    (start : ∃ c cs, text = c :: cs ∧ isLayoutChar c = false)
    (h : ∀ rest, Spells text ks ('\n' :: rest)) : LineReads readWord line ks := by
  subst chars
  exact ⟨start, fun blocks previous rest _ => h rest blocks [] previous⟩

/-- The header of a class with one base. -/
theorem lineReads_header (hn : isName name = true) (hb : Dotted base ls) :
    LineReads readWord ("class " ++ name ++ "(" ++ base ++ "):") (classHeader name ls) := by
  have chars : ("class " ++ name ++ "(" ++ base ++ "):").toList =
      "class".toList ++ ' ' :: (name.toList ++ '(' :: (base.toList ++ [')']) ++ [':']) := by simp
  refine lineReads_of_spells chars ⟨'c', _, rfl, rfl⟩ fun rest => ?_
  have keyword : Spells "class".toList [.word .classKeyword]
      (' ' :: (name.toList ++ '(' :: (base.toList ++ [')']) ++ [':']) ++ '\n' :: rest) :=
    spells_fixed ⟨'c', _, rfl, by decide, by decide⟩ rfl (endsName_mark rfl _)
  have call := spells_call (dotted_of_isName hn) (valueText_name hb) (':' :: '\n' :: rest)
  have line := keyword.append (spells_blank (call.append (spells_colon (by decide) rest)))
  simpa [classHeader] using line

/-- Lines of a class body, one level inside it, that are read again as members which show this
much. -/
def WrittenAs (width : Nat) (outline : Outline) (shown : Interface) : Prop :=
  ∃ ks, Begins readWord hushed [width] (outline.render width).toList ks ∧ Reads [] ks shown []

theorem writtenAs_line {shown : Interface} (reads : LineReads readWord line ks)
    (h : Reads [] (ks ++ [.newline]) shown []) : WrittenAs width [.line 1 line] shown := by
  refine ⟨_, ?_, h⟩
  have rendered : (Outline.render width [.line 1 line]).toList =
      List.replicate width ' ' ++ line.toList ++ ['\n'] := by
    rw [render_cons, render_line, Nat.one_mul]
    exact append_nil _
  rw [rendered]
  exact begins_line reads

theorem writtenAs_pass : WrittenAs width [.line 1 "pass"] {} := by
  have line : LineReads readWord "pass" [.word .passKeyword] :=
    lineReads_of_spells rfl ⟨'p', _, rfl, rfl⟩ fun rest =>
      spells_fixed ⟨'p', _, rfl, by decide, by decide⟩ rfl (endsName_mark rfl _)
  exact writtenAs_line line reads_pass

theorem writtenAs_hint (hn : isName name = true) (reserved : isReservedName name = false)
    (ht : isName type = true) : WrittenAs width (Member.hint name type).outline ⟨[name], []⟩ := by
  have line : LineReads readWord (name ++ ": " ++ type)
      [.word (.identifier name), .word .colon, .word (.identifier type)] := by
    obtain ⟨c, cs, eq, hc⟩ := starts_of_isName hn
    have chars : (name ++ ": " ++ type).toList = name.toList ++ ':' :: ' ' :: type.toList := by simp
    refine lineReads_of_spells chars ⟨c, _, by rw [eq]; rfl, layout_of_isNameStart hc⟩ fun rest => ?_
    exact spells_hint hn ht (endsName_mark rfl rest)
  exact writtenAs_line line (reads_hint reserved type)

theorem valueText_extra (h : ValueText text ks) (extra : Bool) :
    ∃ ls, ValueText (text ++ (if extra then ", allownone=True" else "").toList) ls := by
  cases extra with
  | false =>
    have none : (if false then ", allownone=True" else "").toList = [] := rfl
    rw [none, append_nil]
    exact ⟨ks, h⟩
  | true =>
    refine ⟨ks ++ [.word .comma, .word (.identifier "allownone"), .word .equals,
      .word (.identifier "True")], h.1.append (.word _ (.word _ (.word _ (.word _ .nil)))),
      fun rest hr => ?_⟩
    have name : Spells "allownone".toList [.word (.identifier "allownone")]
        ('=' :: "True".toList ++ rest) := spells_name (by decide) (by
      rintro _ ⟨⟩
      exact ⟨rfl, by decide, by decide⟩)
    have equals := spells_equals (by decide : operatorChars.contains 'T' = false)
      ("rue".toList ++ rest)
    have value : Spells "True".toList [.word (.identifier "True")] rest :=
      spells_name (by decide) (endsName_of_parted hr)
    have given := spells_comma (name.append (equals.append value)).value
    exact (h.2 _ (parted_mark rfl _)).append given

theorem isName_className (kind : PropertyKind) : isName kind.className = true := by
  cases kind <;> decide

/-- A name with a property as its value, whose first value is a text that is read as words and
groups. -/
theorem writtenAs_property {default : String} (hn : isName name = true)
    (reserved : isReservedName name = false) (kind : PropertyKind) (allowNone : Bool)
    (hd : ValueText default.toList ks) :
    WrittenAs width (Member.property name kind default allowNone).outline ⟨[name], []⟩ := by
  obtain ⟨c, cs, eq, hc⟩ := starts_of_isName hn
  have callee : Dotted kind.className [.word (.identifier kind.className)] :=
    dotted_of_isName (isName_className kind)
  obtain ⟨ls, inner⟩ := valueText_extra hd (allowNone && kind != .object)
  generalize extra : (if allowNone && kind != .object then ", allownone=True" else "") = said at inner
  have line : LineReads readWord (name ++ " = " ++ kind.className ++ "(" ++ default ++ said ++ ")")
      (.word (.identifier name) :: .word .equals :: .word (.identifier kind.className) ::
        .opening .round :: (ls ++ [.closing .round])) := by
    have chars : (name ++ " = " ++ kind.className ++ "(" ++ default ++ said ++ ")").toList =
        name.toList ++ ' ' :: '=' :: ' ' :: (kind.className.toList ++
          '(' :: (default.toList ++ said.toList ++ [')'])) := by simp
    refine lineReads_of_spells chars ⟨c, _, by rw [eq]; rfl, layout_of_isNameStart hc⟩ fun rest => ?_
    have value := spells_blank (spells_call callee inner ('\n' :: rest))
    have equals (more : List Char) : Spells ['='] [.word .equals] (' ' :: more) :=
      spells_equals rfl more
    have first (more : List Char) : Spells name.toList [.word (.identifier name)] (' ' :: more) :=
      spells_name hn (endsName_mark rfl more)
    exact (first _).append (spells_blank ((equals _).append value))
  have text : ∀ k ∈ .word (.identifier kind.className) :: .opening .round ::
      (ls ++ [.closing .round]), TokenKind.isText k = true :=
    ((valueText_call callee inner).1.isText)
  have shown : Reads [] _ ⟨[name], []⟩ [] :=
    reads_equals reserved text (valueText_call callee inner).1.nested
  have outline : (Member.property name kind default allowNone).outline = [.line 1
      (name ++ " = " ++ kind.className ++ "(" ++ default ++ said ++ ")")] := by
    rw [Member.outline, extra]
  rw [outline]
  exact writtenAs_line line shown

theorem exists_spells_names (h : ∀ n ∈ names, isName n = true) : ∃ ks, Enclosed ks ∧
      ∀ rest, EndsName rest → Spells (", ".intercalate names).toList ks rest := by
  induction names with
  | nil => exact ⟨[], .nil, fun rest _ => spells_nil rest⟩
  | cons n names ih =>
    obtain ⟨hn, others⟩ := forall_mem_cons.mp h
    cases names with
    | nil =>
      rw [String.intercalate_singleton]
      exact ⟨_, .word _ .nil, fun rest hr => spells_name hn hr⟩
    | cons m names =>
      obtain ⟨ks, enclosed, behind⟩ := ih others
      refine ⟨.word (.identifier n) :: .word .comma :: ks, .word _ (.word _ enclosed),
        fun rest hr => ?_⟩
      have first (more : List Char) : Spells n.toList [.word (.identifier n)] (',' :: more) :=
        spells_name hn (endsName_mark rfl more)
      rw [String.intercalate_cons_cons, String.toList_append, String.toList_append,
        append_assoc]
      exact (first _).append (spells_comma (behind rest hr).value)

/-- A line that imports names from a module. -/
theorem lineReads_import {path : String} (hp : Dotted path ls) (hn : ∀ n ∈ names, isName n = true) :
    ∃ ks, (∀ k ∈ ks, TokenKind.isText k = true) ∧
      LineReads readWord ("from " ++ path ++ " import " ++ ", ".intercalate names)
        (.word (.identifier "from") :: ks) := by
  obtain ⟨ks, enclosed, spells⟩ := exists_spells_names hn
  refine ⟨ls ++ .word (.identifier "import") :: ks, ?_, ?_⟩
  · exact ((valueText_name hp).1.append (.word (.identifier "import") enclosed)).isText
  · have chars : ("from " ++ path ++ " import " ++ ", ".intercalate names).toList =
        "from".toList ++ ' ' :: (path.toList ++ ' ' :: ("import".toList ++
          ' ' :: (", ".intercalate names).toList)) := by simp [-String.toList_intercalate]
    refine lineReads_of_spells chars ⟨'f', _, rfl, rfl⟩ fun rest => ?_
    have fixed (text : String) (ht : isName text = true) (more : List Char) :
        Spells text.toList [.word (.identifier text)] (' ' :: more) :=
      spells_name ht (endsName_mark rfl more)
    have named := spells_blank (spells ('\n' :: rest) (endsName_mark rfl rest))
    have imported := spells_blank ((fixed "import" (by decide) _).append named)
    have behind := spells_blank ((spells_dotted hp (endsName_mark rfl _)).append imported)
    exact (fixed "from" (by decide) _).append behind

theorem valueText_starred : ValueText "**kwargs".toList
    [.word .doubleStar, .word (.identifier "kwargs")] := by
  refine ⟨.word _ (.word _ .nil), fun rest hr => ?_⟩
  have stars : Spells ['*', '*'] [.word .doubleStar] ("kwargs".toList ++ rest) :=
    spells_word (startsWord_of_class (p := (· == '*')) rfl (by decide)) fun _ => rfl
  have name : Spells "kwargs".toList [.word (.identifier "kwargs")] rest :=
    spells_name (by decide) (endsName_of_parted hr)
  exact (stars.append name).value

theorem lineReads_constructor (ht : isName type = true) :
    LineReads readWord ("def __init__(self, data: " ++ type ++ ", **kwargs):")
      (constructorLine type) := by
  have chars : ("def __init__(self, data: " ++ type ++ ", **kwargs):").toList =
      "def".toList ++ ' ' :: ("__init__".toList ++ '(' :: ("self".toList ++ ',' :: ' ' ::
        ("data".toList ++ ':' :: ' ' :: type.toList ++ ',' :: ' ' :: "**kwargs".toList) ++ [')']) ++
          [':']) := by simp
  refine lineReads_of_spells chars ⟨'d', _, rfl, rfl⟩ fun rest => ?_
  have keyword (more : List Char) : Spells "def".toList [.word .defKeyword] (' ' :: more) :=
    spells_fixed ⟨'d', _, rfl, by decide, by decide⟩ rfl (endsName_mark rfl more)
  have receiver := valueText_name (dotted_of_isName (by decide : isName "self" = true))
  have data : ValueText ("data".toList ++ ':' :: ' ' :: type.toList) _ :=
    ⟨.word _ (.word _ (.word _ .nil)), fun rest hr =>
      (spells_hint (by decide) ht (endsName_of_parted hr)).value⟩
  have params := valueText_comma receiver (valueText_comma data valueText_starred)
  have call := spells_call (dotted_of_isName (by decide : isName "__init__" = true)) params
    (':' :: '\n' :: rest)
  exact (keyword _).append (spells_blank (call.append (spells_colon (by decide) rest)))

def superLine : List Kind :=
  [.word (.identifier "super"), .opening .round, .closing .round, .word .dot,
    .word (.identifier "__init__"), .opening .round, .word .doubleStar, .word (.identifier "kwargs"),
    .closing .round]

theorem isLine_superLine : IsLine superLine where
  nonempty := nofun
  text := by simp [superLine, TokenKind.isText]
  nested :=
    .word _ (.group .round .nil (.word _ (.word _ (.group .round (.word _ (.word _ .nil)) .nil))))

theorem lineReads_super : LineReads readWord "super().__init__(**kwargs)" superLine := by
  have chars : "super().__init__(**kwargs)".toList = "super".toList ++ '(' :: ([] ++ [')']) ++
      (['.'] ++ ("__init__".toList ++ '(' :: ("**kwargs".toList ++ [')']))) := rfl
  refine lineReads_of_spells chars ⟨'s', _, rfl, rfl⟩ fun rest => ?_
  have made := spells_call (dotted_of_isName (by decide : isName "super" = true)) valueText_nil
    ('.' :: ("__init__".toList ++ '(' :: ("**kwargs".toList ++ [')'])) ++ '\n' :: rest)
  have called := spells_call (dotted_of_isName (by decide : isName "__init__" = true))
    valueText_starred ('\n' :: rest)
  have dot := spells_dot (by decide : Text.isNameStart '_' = true)
    ("_init__".toList ++ '(' :: ("**kwargs".toList ++ [')']) ++ '\n' :: rest)
  exact made.append (dot.append called)

def assignmentLine : List Kind :=
  [.word (.identifier "self"), .word .dot, .word (.identifier "data"), .word .equals,
    .word (.identifier "data")]

theorem isLine_assignmentLine : IsLine assignmentLine where
  nonempty := nofun
  text := by simp [assignmentLine, TokenKind.isText]
  nested := .word _ (.word _ (.word _ (.word _ (.word _ .nil))))

theorem lineReads_assignment : LineReads readWord "self.data = data" assignmentLine := by
  have path : Dotted "self.data" _ :=
    .name (by decide : isName "self" = true) (.dot (by decide : isName "data" = true) .nil)
  have chars : "self.data = data".toList =
      "self.data".toList ++ ' ' :: (['='] ++ ' ' :: "data".toList) := rfl
  refine lineReads_of_spells chars ⟨'s', _, rfl, rfl⟩ fun rest => ?_
  have value : Spells "data".toList [.word (.identifier "data")] ('\n' :: rest) :=
    spells_name (by decide) (endsName_mark rfl rest)
  have equals : Spells ['='] [.word .equals] (' ' :: ("data".toList ++ '\n' :: rest)) :=
    spells_equals rfl _
  exact (spells_dotted path (endsName_mark rfl _)).append
    (spells_blank (equals.append (spells_blank value)))

/-- The constructor of a widget. -/
theorem writtenAs_constructor (hw : 0 < width) (ht : isName type = true) :
    WrittenAs width (Member.method ("def __init__(self, data: " ++ type ++ ", **kwargs):")
      ["super().__init__(**kwargs)", "self.data = data"]).outline ⟨[], [constructorSignature]⟩ := by
  have deeper : [width].headD 0 < 2 * width := by
    show width < 2 * width
    omega
  have second : Begins readWord hushed [2 * width, width] _ _ := begins_line lineReads_assignment
  have lines := (begins_line lineReads_super).append second.stands
  have block := Begins.block (lineReads_constructor ht) deeper (fun rest => .refl _ rest) lines
  refine ⟨_, ?_, reads_constructor type isLine_superLine isLine_assignmentLine⟩
  have done : (Outline.render width []).toList = [] := rfl
  simpa [Member.outline, render_cons, render_line, done] using block

end Lines

end ViewBridge.Model
