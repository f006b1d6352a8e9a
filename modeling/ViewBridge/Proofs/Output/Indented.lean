import ViewBridge.Proofs.Output.Printer
import ViewBridge.Proofs.Output.Quoted
import ViewBridge.Proofs.Report.Messages

namespace ViewBridge

open List

def OneLines (texts : List String) : Prop := ∀ text ∈ texts, OneLine text

instance (texts : List String) : Decidable (OneLines texts) :=
  inferInstanceAs (Decidable (∀ text ∈ texts, OneLine text))

@[simp] theorem oneLines_nil : OneLines [] := forall_mem_nil _

@[simp] theorem oneLines_cons {text : String} {texts : List String} :
    OneLines (text :: texts) ↔ OneLine text ∧ OneLines texts := forall_mem_cons

@[simp] theorem oneLines_append {texts others : List String} :
    OneLines (texts ++ others) ↔ OneLines texts ∧ OneLines others := forall_mem_append

@[simp] theorem oneLines_flatMap {α : Type} {xs : List α} {f : α → List String} :
    OneLines (xs.flatMap f) ↔ ∀ x ∈ xs, OneLines (f x) := forall_mem_flatMap

namespace Text

namespace OutlineLine

/-- What stands on a line, without its indentation. -/
@[simp] def content : OutlineLine → String
  | .empty => ""
  | .line _ content => content

/-- The characters of a line, `width` spaces to a level. -/
def columns (width : Nat) : OutlineLine → List Char
  | .empty => []
  | .line depth content => List.replicate (depth * width) ' ' ++ content.toList

end OutlineLine

namespace Outline

/-- The texts on the lines of an outline. -/
def contents (outline : Outline) : List String := outline.map OutlineLine.content

@[simp] theorem contents_nil : Outline.contents [] = [] := rfl

@[simp] theorem contents_cons (line : OutlineLine) (lines : Outline) :
    Outline.contents (line :: lines) = line.content :: lines.contents := rfl

@[simp] theorem contents_append (first second : Outline) :
    Outline.contents (first ++ second) = first.contents ++ second.contents := map_append

theorem splitOn_render (width : Nat) {outline : Outline} (h : OneLines outline.contents) :
    (outline.render width).toList.splitOn '\n' = outline.map (·.columns width) ++ [[]] := by
  induction outline with
  | nil => simp [render]
  | cons line lines ih =>
    obtain ⟨first, others⟩ := forall_mem_cons.mp h
    have text : (Outline.render width (line :: lines)).toList =
        line.columns width ++ '\n' :: (Outline.render width lines).toList := by
      cases line <;> simp [render, OutlineLine.render, OutlineLine.columns]
    have closed : '\n' ∉ line.columns width := by
      cases line with
      | empty => exact not_mem_nil
      | line depth content => simpa [OutlineLine.columns] using! first
    rw [text, splitOn_append_cons_self_of_not_mem closed, ih others]
    rfl

theorem oneLines_separated {parts : List Outline} (h : ∀ part ∈ parts, OneLines part.contents) :
    OneLines (Outline.separated parts).contents := by
  match parts with
  | [] => exact oneLines_nil
  | [part] => exact h part mem_cons_self
  | part :: next :: parts =>
    obtain ⟨first, others⟩ := forall_mem_cons.mp h
    rw [Outline.separated, contents_append, oneLines_append]
    · exact ⟨first, oneLines_cons.mpr ⟨by decide, oneLines_separated others⟩⟩
    · simp

end Outline

end Text

theorem oneLine_intercalate {separator : String} (hs : OneLine separator) {texts : List String}
    (h : OneLines texts) : OneLine (separator.intercalate texts) := by
  match texts, h with
  | [], _ => simp [OneLine]
  | [text], h => simpa using h
  | text :: next :: texts, h =>
    obtain ⟨first, others⟩ := oneLines_cons.mp h
    simp only [String.intercalate_cons_cons, oneLine_append]
    exact ⟨⟨first, hs⟩, oneLine_intercalate hs others⟩

def Descriptor.names : Descriptor → List String
  | .scalar name => [name]
  | .list inner | .set inner | .optional inner => inner.names
  | .dict key value => key.names ++ value.names
  | .tuple items => all items
  | .generic name args => name :: all args
  | .unknown => []
where
  all : List Descriptor → List String
    | [] => []
    | item :: items => item.names ++ all items

mutual

theorem Descriptor.oneLine_spelled (type : Descriptor) (h : OneLines type.names) :
    OneLine type.spelled := by
  match type with
  | .scalar name | .generic name [] => exact h name mem_cons_self
  | .list inner | .set inner | .optional inner =>
    simp +decide only [spelled, oneLine_append, oneLine_spelled inner h]
  | .dict key value =>
    obtain ⟨hk, hv⟩ := oneLines_append.mp h
    simp +decide only [spelled, oneLine_append, oneLine_spelled key hk, oneLine_spelled value hv]
  | .tuple items => simp +decide only [spelled, oneLine_append, oneLine_joined items h]
  | .generic name (arg :: args) =>
    obtain ⟨hn, ha⟩ := oneLines_cons.mp h
    simp +decide only [spelled, oneLine_append, hn, oneLine_joined (arg :: args) ha]
  | .unknown => decide

theorem Descriptor.oneLine_joined (types : List Descriptor) (h : OneLines (names.all types)) :
    OneLine (spelled.joined types) := by
  match types with
  | [] => decide
  | [type] => exact oneLine_spelled type (oneLines_append.mp h).1
  | type :: next :: types =>
    obtain ⟨first, others⟩ := oneLines_append.mp h
    simp +decide only [spelled.joined, oneLine_append, oneLine_spelled type first,
      oneLine_joined (next :: types) others]

end

namespace Output

open Text (Outline OutlineLine)

/-- The texts that an expression is made of, but for those between quotes, where a line end is
written as an escape. -/
def Expr.texts : Expr → List String
  | .text _ | .int _ | .float _ | .bool _ => []
  | .member name => [name]
  | .raw code => [code]
  | .array items | .tuple items => all items
  | .call callee none => [callee]
  | .call callee (some args) => callee :: arguments args
where
  all : List Expr → List String
    | [] => []
    | item :: items => item.texts ++ all items
  arguments : List (Argument Expr) → List String
    | [] => []
    | ⟨label, value⟩ :: args => label.toList ++ value.texts ++ arguments args

theorem oneLine_quote (text : String) : OneLine (quote text) := by
  have escaped := not_mem_escapeChar (c := '\n') (by decide)
  simp [OneLine, quote, escaped]

theorem oneLine_labelText {label : Option String} (h : OneLines label.toList) :
    OneLine (labelText label) := by
  cases label with
  | none => decide
  | some label => exact oneLine_append.mpr ⟨h label List.mem_cons_self, by decide⟩

mutual

theorem Expr.oneLine_code (e : Expr) (h : OneLines e.texts) : OneLine e.code := by
  match e with
  | .text content => exact oneLine_quote content
  | .int i => exact oneLine_toString_toInt i
  | .float f => exact oneLine_write (by decide) (fun _ => rfl) f
  | .bool true | .bool false => decide
  | .member name => exact oneLine_append.mpr ⟨by decide, h name List.mem_cons_self⟩
  | .raw name | .call name none => exact h name List.mem_cons_self
  | .array items | .tuple items => simp +decide only [code, oneLine_append, oneLine_joined items h]
  | .call callee (some args) =>
    obtain ⟨hc, ha⟩ := oneLines_cons.mp h
    simp +decide only [code, oneLine_append, hc, oneLine_arguments args ha]

theorem Expr.oneLine_joined (es : List Expr) (h : OneLines (texts.all es)) :
    OneLine (code.joined es) := by
  match es with
  | [] => decide
  | [e] => exact oneLine_code e (oneLines_append.mp h).1
  | e :: next :: es =>
    obtain ⟨first, others⟩ := oneLines_append.mp h
    simp +decide only [code.joined, oneLine_append, oneLine_code e first,
      oneLine_joined (next :: es) others]

theorem Expr.oneLine_arguments (args : List (Argument Expr)) (h : OneLines (texts.arguments args)) :
    OneLine (code.arguments args) := by
  match args with
  | [] => decide
  | [⟨label, value⟩] =>
    obtain ⟨hl, hv⟩ := oneLines_append.mp (oneLines_append.mp h).1
    exact oneLine_append.mpr ⟨oneLine_labelText hl, oneLine_code value hv⟩
  | ⟨label, value⟩ :: next :: args =>
    obtain ⟨first, others⟩ := oneLines_append.mp h
    obtain ⟨hl, hv⟩ := oneLines_append.mp first
    simp +decide only [code.arguments, oneLine_append, oneLine_labelText hl, oneLine_code value hv,
      oneLine_arguments (next :: args) others]

end

def Call.texts (c : Call) : List String := (Expr.call c.callee c.args).texts

theorem Call.oneLine_code {c : Call} (h : OneLines c.texts) : OneLine c.code :=
  Expr.oneLine_code _ h

/-- The texts of a modifier, but for those of the views in it. -/
def Modifier.texts {ν : Type} : Modifier ν → List String
  | .call c => c.texts
  | .comment text => [text]
  | .block name _ => [name]

def PrintedLine.OneLine (l : PrintedLine) : Prop := ViewBridge.OneLine l.line.content

namespace View

open List

/-- The texts of a view, but for those of the views below it. -/
def ownTexts (v : View) : List String :=
  v.comment.toList ++ v.call.texts ++ v.action.getD [] ++ v.modifiers.flatMap Modifier.texts

def texts (v : View) : List String := (v.nodes 0).flatMap fun n => n.2.ownTexts

theorem oneLine_headText {comment : Option String} {call : Call} (hc : OneLines comment.toList)
    (h : OneLines call.texts) : OneLine (headText comment call) := by
  cases comment with
  | none => exact call.oneLine_code h
  | some comment =>
    simp +decide only [headText, oneLine_append, call.oneLine_code h, hc comment mem_cons_self]

theorem oneLine_printedBlock {head : Head} (hh : OneLine (headText head.comment head.call))
    {inner : List PrintedLine} (h : ∀ l ∈ inner, l.OneLine) : ∀ l ∈ printedBlock head inner, l.OneLine := by
  have start (ending : String) (he : OneLine ending) : PrintedLine.OneLine (.head head ending) :=
    oneLine_append.mpr ⟨hh, he⟩
  unfold printedBlock
  split
  · simpa using start _ (by decide)
  · simp only [forall_mem_append, forall_mem_cons, cons_append]
    exact ⟨start _ (by decide), h, by simp +decide [PrintedLine.OneLine, PrintedLine.line]⟩

mutual

theorem oneLine_printed {level : Nat} (depth : Nat) (v : View)
    (h : ∀ n ∈ v.nodes level, OneLines n.2.ownTexts) : ∀ l ∈ v.printed depth, l.OneLine := by
  rw [nodes_eq] at h
  obtain ⟨own, below⟩ := forall_mem_cons.mp h
  obtain ⟨inner, behind⟩ := forall_mem_append.mp below
  simp only [ownTexts, oneLines_append] at own
  obtain ⟨⟨⟨hc, hcall⟩, ha⟩, hm⟩ := own
  have head := oneLine_headText hc hcall
  match v with
  | ⟨comment, call, some lines, children, modifiers⟩ =>
    rw [printed, forall_mem_append]
    exact ⟨oneLine_printedBlock head (forall_mem_map.mpr ha), oneLine_modifiers _ modifiers hm behind⟩
  | ⟨comment, call, none, some children, modifiers⟩ =>
    rw [printed, forall_mem_append]
    exact ⟨oneLine_printedBlock head (oneLine_printedAll _ children inner),
      oneLine_modifiers _ modifiers hm behind⟩
  | ⟨comment, call, none, none, modifiers⟩ =>
    exact forall_mem_cons.mpr ⟨oneLine_append.mpr ⟨head, by decide⟩, oneLine_modifiers _ modifiers hm behind⟩

theorem oneLine_printedAll {level : Nat} (depth : Nat) (vs : List View)
    (h : ∀ n ∈ allNodes level vs, OneLines n.2.ownTexts) : ∀ l ∈ printedAll depth vs, l.OneLine := by
  match vs with
  | [] => exact forall_mem_nil _
  | v :: vs =>
    obtain ⟨first, others⟩ := forall_mem_append.mp h
    rw [printedAll, forall_mem_append]
    exact ⟨oneLine_printed depth v first, oneLine_printedAll depth vs others⟩

theorem oneLine_modifiers {level : Nat} (depth : Nat) (ms : List (Modifier View))
    (own : OneLines (ms.flatMap Modifier.texts))
    (h : ∀ n ∈ modifierNodes level ms, OneLines n.2.ownTexts) :
    ∀ l ∈ printedModifiers depth ms, l.OneLine := by
  match ms with
  | [] => exact forall_mem_nil _
  | .call call :: ms =>
    obtain ⟨first, others⟩ := oneLines_append.mp own
    exact forall_mem_cons.mpr ⟨oneLine_append.mpr ⟨by decide, call.oneLine_code first⟩,
      oneLine_modifiers depth ms others h⟩
  | .comment text :: ms =>
    obtain ⟨first, others⟩ := oneLines_cons.mp own
    exact forall_mem_cons.mpr ⟨oneLine_append.mpr ⟨by decide, first⟩, oneLine_modifiers depth ms others h⟩
  | .block name children :: ms =>
    obtain ⟨first, others⟩ := oneLines_cons.mp own
    obtain ⟨inner, behind⟩ := forall_mem_append.mp h
    have start : PrintedLine.OneLine (.blockStart depth name) := by
      simp +decide [PrintedLine.OneLine, PrintedLine.line, oneLine_append, first]
    have finish : PrintedLine.OneLine (.blockEnd depth) := by simp +decide [PrintedLine.OneLine, PrintedLine.line]
    simp only [printedModifiers, cons_append, forall_mem_cons, forall_mem_append]
    exact ⟨start, oneLine_printedAll _ children inner, finish, oneLine_modifiers depth ms others behind⟩

end

theorem oneLines_outline (depth : Nat) (v : View) (h : OneLines v.texts) :
    OneLines (v.outline depth).contents := by
  rw [outline, Outline.contents, List.map_map]
  exact List.forall_mem_map.mpr (oneLine_printed depth v (oneLines_flatMap.mp h))

theorem deeper_printedBlock (levels : Nat) (head : Head) (inner : List PrintedLine) :
    (printedBlock head inner).map (·.deeper levels) =
      printedBlock { head with depth := head.depth + levels } (inner.map (·.deeper levels)) := by
  cases inner with
  | nil => rfl
  | cons line inner => simp [printedBlock, PrintedLine.deeper]

mutual

theorem printed_deeper (depth levels : Nat) (v : View) :
    v.printed (depth + levels) = (v.printed depth).map (·.deeper levels) := by
  match v with
  | ⟨comment, call, some lines, children, modifiers⟩ =>
    have inner : lines.map (PrintedLine.action (depth + 1 + levels)) =
        (lines.map (PrintedLine.action (depth + 1))).map (·.deeper levels) := by
      rw [List.map_map]
      rfl
    rw [printed, printed, List.map_append, deeper_printedBlock, ← inner,
      ← printedModifiers_deeper (depth + 1) levels modifiers, Nat.add_right_comm]
  | ⟨comment, call, none, some children, modifiers⟩ =>
    rw [printed, printed, List.map_append, deeper_printedBlock, ← printedAll_deeper (depth + 1) levels children,
      ← printedModifiers_deeper (depth + 1) levels modifiers, Nat.add_right_comm]
  | ⟨comment, call, none, none, modifiers⟩ =>
    rw [printed, printed, List.map_cons, ← printedModifiers_deeper (depth + 1) levels modifiers,
      Nat.add_right_comm]
    rfl

theorem printedAll_deeper (depth levels : Nat) (vs : List View) :
    printedAll (depth + levels) vs = (printedAll depth vs).map (·.deeper levels) := by
  match vs with
  | [] => rfl
  | v :: vs =>
    rw [printedAll, printedAll, printed_deeper depth levels v, printedAll_deeper depth levels vs, List.map_append]

theorem printedModifiers_deeper (depth levels : Nat) (ms : List (Modifier View)) :
    printedModifiers (depth + levels) ms = (printedModifiers depth ms).map (·.deeper levels) := by
  match ms with
  | [] => rfl
  | .call call :: ms | .comment text :: ms =>
    rw [printedModifiers, printedModifiers, printedModifiers_deeper depth levels ms]
    rfl
  | .block name children :: ms =>
    have inner := printedAll_deeper (depth + 1) levels children
    rw [Nat.add_right_comm] at inner
    rw [printedModifiers, printedModifiers, printedModifiers_deeper depth levels ms, inner]
    simp [PrintedLine.deeper]

end

theorem outline_deeper (depth levels : Nat) (v : View) :
    v.outline (depth + levels) = (v.outline depth).deeper levels := by
  have line (l : PrintedLine) : (l.deeper levels).line = l.line.deeper levels := by cases l <;> rfl
  simp [outline, printed_deeper, Outline.deeper, line]

/-- A view that stands in the tree of another one, as many levels below its top as told. -/
inductive Within : Nat → View → View → Prop
  | top {v : View} : Within 0 v v
  | child {levels : Nat} {comment : Option String} {call : Call} {u v : View} {children : List View}
      {modifiers : List (Modifier View)} : v ∈ children → Within levels u v →
      Within (levels + 1) u ⟨comment, call, none, some children, modifiers⟩
  | block {levels : Nat} {name : String} {u v w : View} {children : List View} :
      .block name children ∈ w.modifiers → v ∈ children → Within levels u v →
      Within (levels + 2) u w

theorem printedAll_isInfix {v : View} {vs : List View} (h : v ∈ vs) (depth : Nat) :
    v.printed depth <:+: printedAll depth vs := by
  induction vs with
  | nil => cases h
  | cons w vs ih =>
    rcases List.mem_cons.mp h with rfl | h
    · exact (List.prefix_append _ _).isInfix
    · exact (ih h).trans (List.suffix_append _ _).isInfix

theorem printedModifiers_isInfix {name : String} {children : List View} {ms : List (Modifier View)}
    (h : .block name children ∈ ms) (depth : Nat) :
    printedAll (depth + 1) children <:+: printedModifiers depth ms := by
  induction ms with
  | nil => cases h
  | cons m ms ih =>
    rcases List.mem_cons.mp h with rfl | h
    · exact ⟨[_], _, rfl⟩
    · refine (ih h).trans ?_
      cases m with
      | block => exact ((List.suffix_cons _ _).trans (List.suffix_append _ _)).isInfix
      | _ => exact (List.suffix_cons _ _).isInfix

theorem printedBlock_isInfix (head : Head) (inner : List PrintedLine) :
    inner <:+: printedBlock head inner := by
  cases inner with
  | nil => exact List.nil_infix
  | cons line inner => exact ⟨[_], [_], rfl⟩

theorem Within.printed_isInfix {levels : Nat} {u v : View} (h : Within levels u v) (depth : Nat) :
    u.printed (depth + levels) <:+: v.printed depth := by
  induction h generalizing depth with
  | top => exact List.infix_rfl
  | @child levels comment call u v children modifiers hv _ ih =>
    have inner := (ih (depth + 1)).trans (printedAll_isInfix hv (depth + 1))
    rw [Nat.add_assoc, Nat.add_comm 1] at inner
    exact (inner.trans (printedBlock_isInfix _ _)).trans (List.prefix_append _ _).isInfix
  | @block levels name u v w children hb hv _ ih =>
    have inner := ((ih (depth + 2)).trans (printedAll_isInfix hv _)).trans
      (printedModifiers_isInfix hb (depth + 1))
    rw [Nat.add_assoc, Nat.add_comm 2] at inner
    refine inner.trans ?_
    match w with
    | ⟨_, _, some _, _, _⟩ | ⟨_, _, none, some _, _⟩ => exact (List.suffix_append _ _).isInfix
    | ⟨_, _, none, none, _⟩ => exact (List.suffix_cons _ _).isInfix

end View

theorem oneLine_escapeName {name : String} (h : OneLine name) : OneLine (escapeName name) := by
  unfold escapeName
  split
  · exact oneLine_append.mpr ⟨oneLine_append.mpr ⟨by decide, h⟩, by decide⟩
  · exact h

theorem oneLine_accessText (access : List Access) : OneLine (accessText access) := by
  have each (a : Access) : '\n' ∉ a.code.toList := by cases a <;> decide
  simp [OneLine, accessText, each]

theorem oneLines_attributes (depth : Nat) (attributes : List Attribute) :
    OneLines (attributesOutline depth attributes).contents := by
  have each (a : Attribute) : OneLine a.code := by cases a <;> decide
  simp [attributesOutline, Outline.contents, OneLines, each]

def Param.texts (p : Param) : List String := p.name :: p.type.names

theorem oneLine_paramsText {params : List Param} (h : OneLines (params.flatMap Param.texts)) :
    OneLine (paramsText params) := by
  refine oneLine_intercalate (by decide) (List.forall_mem_map.mpr fun p hp => ?_)
  obtain ⟨name, type⟩ := oneLines_cons.mp (oneLines_flatMap.mp h p hp)
  simp +decide only [oneLine_append, oneLine_escapeName name, p.type.oneLine_spelled type]

def Member.texts : Member → List String
  | .property _ _ name type => name :: type.names
  | .initializer _ _ params => params.flatMap Param.texts
  | .method _ _ name params returns _ =>
    name :: (params.flatMap Param.texts ++ (returns.map (·.names)).getD [])

theorem Member.oneLines_outline (depth : Nat) (m : Member) (h : OneLines m.texts) :
    OneLines (m.outline depth).contents := by
  cases m with
  | property attributes access name type =>
    obtain ⟨hn, ht⟩ := oneLines_cons.mp h
    simp +decide [outline, oneLines_attributes, oneLine_append, oneLine_accessText,
      oneLine_escapeName hn, type.oneLine_spelled ht]
  | initializer attributes access params =>
    simp +decide [outline, oneLines_attributes, oneLine_append, oneLine_accessText,
      oneLine_paramsText h]
  | method attributes access name params returns hasBody =>
    obtain ⟨hn, ho⟩ := oneLines_cons.mp h
    obtain ⟨hp, hr⟩ := oneLines_append.mp ho
    have result : OneLine (resultText returns) := by
      cases returns with
      | none => decide
      | some type => exact oneLine_append.mpr ⟨by decide, type.oneLine_spelled hr⟩
    cases hasBody <;> simp +decide [outline, oneLines_attributes, oneLine_append, oneLine_accessText,
      oneLine_escapeName hn, oneLine_paramsText hp, result]

/-- The texts of an item: names, types, comments, expressions and lines of actions. -/
def Item.texts : Item → List String
  | .classDecl decl => decl.name :: decl.members.flatMap Member.texts
  | .viewStruct decl => decl.comment.toList ++ decl.name ::
      (decl.state.flatMap fun v => v.name :: v.type :: v.value.texts) ++ decl.body.texts
  | .view v => v.texts
  | .comment text => [text]

theorem Item.oneLines_outline (depth : Nat) (item : Item) (h : OneLines item.texts) :
    OneLines (item.outline depth).contents := by
  cases item with
  | classDecl decl =>
    obtain ⟨hn, hm⟩ := oneLines_cons.mp h
    have members : OneLines (Outline.contents (decl.members.flatMap (.empty :: ·.outline (depth + 1)))) := by
      simp only [Outline.contents, List.map_flatMap, oneLines_flatMap, List.map_cons, oneLines_cons]
      exact fun m mem => ⟨(by decide : OneLine ""), m.oneLines_outline _ (oneLines_flatMap.mp hm m mem)⟩
    simp +decide [outline, ClassDecl.outline, oneLines_attributes, oneLine_append, oneLine_accessText,
      oneLine_escapeName hn, members]
  | viewStruct decl =>
    simp only [texts, oneLines_append, oneLines_cons, oneLines_flatMap] at h
    obtain ⟨⟨hc, hn, hs⟩, hb⟩ := h
    have body := View.oneLines_outline (depth + 2) decl.body hb
    have remark : OneLines (Outline.contents
        (decl.comment.toList.map fun text => .line depth ("// " ++ text))) := by
      cases hd : decl.comment with
      | none => exact oneLines_nil
      | some text => simpa +decide [oneLine_append, hd] using hc
    have state : ∀ v ∈ decl.state, OneLine v.code := by
      intro v hv
      obtain ⟨name, type, value⟩ := hs v hv
      unfold StateVar.code
      simp only [oneLine_append]
      exact ⟨⟨⟨⟨⟨by decide, name⟩, by decide⟩, type⟩, by decide⟩, v.value.oneLine_code value⟩
    simp +decide [outline, ViewStruct.outline, oneLine_append, hn, remark, body]
    split <;> simp +decide [Outline.contents, OneLines]
    exact state
  | view v => exact View.oneLines_outline depth v h
  | comment text => simpa +decide [outline, texts, oneLine_append] using h

theorem Item.exists_outline_eq_cons (depth : Nat) (item : Item) :
    ∃ content rest, item.outline depth = .line depth content :: rest := by
  cases item with
  | classDecl decl =>
    cases ha : decl.attributes with
    | nil => exact ⟨_, _, by rw [outline, ClassDecl.outline, ha]; rfl⟩
    | cons a as => exact ⟨_, _, by rw [outline, ClassDecl.outline, ha]; rfl⟩
  | viewStruct decl =>
    cases hc : decl.comment with
    | none => exact ⟨_, _, by rw [outline, ViewStruct.outline, hc]; rfl⟩
    | some text => exact ⟨_, _, by rw [outline, ViewStruct.outline, hc]; rfl⟩
  | view v =>
    obtain ⟨ending, rest, eq⟩ := v.exists_printed_eq_cons depth
    exact ⟨_, _, by rw [outline, View.outline, eq]; rfl⟩
  | comment text => exact ⟨_, _, rfl⟩

namespace File

open List

def texts (f : File) : List String := f.imports ++ f.items.flatMap Item.texts

theorem oneLines_outline {f : File} (h : OneLines f.texts) : OneLines f.outline.contents := by
  obtain ⟨imports, items⟩ := oneLines_append.mp h
  apply Outline.oneLines_separated
  rw [forall_mem_append, forall_mem_map]
  refine ⟨?_, fun item mem => item.oneLines_outline 0 (oneLines_flatMap.mp items item mem)⟩
  unfold importOutline
  split
  · exact forall_mem_nil _
  · rw [forall_mem_singleton, importLines, Outline.contents, map_map]
    exact forall_mem_map.mpr fun name mem => oneLine_append.mpr ⟨by decide, imports name mem⟩

open Printer in
/-- The width of a level has a part in the indentation of a printed file and in nothing else. Its
lines are the same for all widths, each with its own depth. At every item the printer is again at
level zero, and the item adds the lines that it has alone in a file, the first of them at the left
edge. A view leaves every printer at the level where it found it. It adds the lines that it has at
level zero, each as many levels deeper, and so does a view in the tree of another one. -/
theorem print_lines (f : File) (h : OneLines f.texts) :
    (∃ lines : Outline, (∀ width, (f.print width).toList.splitOn '\n' =
        lines.map (·.columns (max 1 width)) ++ [[]]) ∧
      lines = .separated (f.importOutline ++ f.items.map fun item => outline ⟨[], [item]⟩)) ∧
    (∀ before item rest, f.items = before ++ item :: rest → ∀ width, ∃ p : Printer,
      p = after (printUpTo f before) (.new width) ∧ p.level = 0 ∧
      after (printItem item) p = { p with
        output := p.output ++ (outline ⟨[], [item]⟩).render (max 1 width) } ∧
      (∃ content lines, outline ⟨[], [item]⟩ = .line 0 content :: lines) ∧
      f.print width = (after (do printItem item; printItems false rest) p).output) ∧
    (∀ (v : View) (output : String) (level width : Nat),
      after (printView v) ⟨output, level, spaces width⟩ =
        ⟨output ++ ((v.outline 0).deeper level).render width, level, spaces width⟩) ∧
    ∀ levels u v, View.Within levels u v → (u.outline 0).deeper levels <:+: v.outline 0 := by
  refine ⟨⟨f.outline, fun width => ?_, rfl⟩, fun before item rest eq width => ?_,
    fun v output level width => ?_, fun levels u v within => ?_⟩
  · rw [f.print_eq]
    exact Outline.splitOn_render _ (oneLines_outline h)
  · obtain ⟨level, unit⟩ := level_printUpTo f before width
    refine ⟨_, rfl, level, ?_, item.exists_outline_eq_cons 0, ?_⟩
    · rw [prints_item item _ _ unit, level]
      rfl
    · exact congrArg Printer.output (after_printFile eq _)
  · rw [prints_view v _ width rfl, ← v.outline_deeper, Nat.zero_add]
  · rw [← u.outline_deeper 0 levels]
    exact (within.printed_isInfix 0).map PrintedLine.line

/-- A comment and a view with a block of modifiers, at width zero, which counts as one. -/
theorem print_lines_overlay :
    (File.print ⟨["SwiftUI"], [.comment "a", .view { View.ofCall (.bare "ZStack") with
      modifiers := [.block "overlay" [.ofCall (.withArgs "Text" [⟨none, .text "a\n"⟩])]] }, .comment "b"]⟩
        0).toList.splitOn '\n' =
      [.line 0 "import SwiftUI", .empty, .line 0 "// a", .empty, .line 0 "ZStack", .line 1 ".overlay \x7b",
        .line 2 "Text(\"a\\n\")", .line 1 "\x7d", .empty, .line 0 "// b"].map (OutlineLine.columns 1) ++ [[]] := by
  obtain ⟨⟨lines, printed, eq⟩, _⟩ := print_lines ⟨["SwiftUI"], [.comment "a",
    .view { View.ofCall (.bare "ZStack") with
      modifiers := [.block "overlay" [.ofCall (.withArgs "Text" [⟨none, .text "a\n"⟩])]] }, .comment "b"]⟩
    (by decide)
  subst eq
  exact printed 0

end File

end Output

end ViewBridge
