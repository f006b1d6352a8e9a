import ViewBridge.Proofs.Output.Printed

namespace ViewBridge

open List

namespace Text.Outline

theorem render_append (width : Nat) (first second : Outline) :
    Outline.render width (first ++ second) = first.render width ++ second.render width := by
  simp [render]

end Text.Outline

namespace Output

open Text (Outline OutlineLine)

def attributesOutline (depth : Nat) (attributes : List Attribute) : Outline :=
  attributes.map (.line depth ·.code)

def Member.outline (depth : Nat) : Member → Outline
  | .property attributes access name type =>
    attributesOutline depth attributes ++
      [.line depth (accessText access ++ "var " ++ escapeName name ++ ": " ++ type.spelled)]
  | .initializer attributes access params =>
    attributesOutline depth attributes ++
      [.line depth (accessText access ++ "init(" ++ paramsText params ++ ") \x7b"), .line depth "\x7d"]
  | .method attributes access name params returns hasBody =>
    let signature := accessText access ++ "func " ++ escapeName name ++ "(" ++ paramsText params ++
      ")" ++ resultText returns
    attributesOutline depth attributes ++
      if hasBody then [.line depth (signature ++ " \x7b"), .line depth "\x7d"]
      else [.line depth signature]

def ClassDecl.outline (depth : Nat) (c : ClassDecl) : Outline :=
  attributesOutline depth c.attributes ++
    .line depth (accessText c.access ++ "class " ++ escapeName c.name ++ " \x7b") ::
    (c.members.flatMap (.empty :: ·.outline (depth + 1)) ++ [.line depth "\x7d"])

def ViewStruct.outline (depth : Nat) (s : ViewStruct) : Outline :=
  (s.comment.toList.map fun text => .line depth ("// " ++ text)) ++
    .line depth ("struct " ++ s.name ++ ": View \x7b") ::
    ((if s.state.isEmpty then [] else .empty :: s.state.map fun v => .line (depth + 1) v.code) ++
    .empty :: .line (depth + 1) "var body: some View \x7b" :: (s.body.outline (depth + 2) ++
    [.line (depth + 1) "\x7d", .line depth "\x7d"]))

def Item.outline (depth : Nat) : Item → Outline
  | .classDecl decl => decl.outline depth
  | .viewStruct decl => decl.outline depth
  | .view v => v.outline depth
  | .comment text => [.line depth ("// " ++ text)]

namespace File

def importLines (f : File) : Outline := f.imports.map fun name => .line 0 ("import " ++ name)

def importOutline (f : File) : List Outline := if f.imports.isEmpty then [] else [f.importLines]

/-- The lines of a file, with an empty line before each item but one that stands first. -/
def outline (f : File) : Outline := .separated (f.importOutline ++ f.items.map (·.outline 0))

end File

namespace Printer

/-- A step that adds the lines of an outline at the level it finds, and changes nothing else: it
leaves the level as it was. -/
def Prints (step : Step) (lines : Nat → Outline) : Prop :=
  ∀ p width, p.unit = spaces width →
    after step p = { p with output := p.output ++ (lines p.level).render width }

section Steps

variable {step second : Step} {lines others : Nat → Outline} {text : String}

theorem after_bind (p : Printer) : after (do step; second) p = after second (after step p) := rfl

theorem after_push (p : Printer) : after (push text) p = { p with output := p.output ++ text } := rfl

theorem prints_nothing : Prints (pure ()) fun _ => [] := by
  intro p width _
  show p = { p with output := p.output ++ "" }
  rw [String.append_empty]

/-- Steps print their lines one after the other. -/
theorem Prints.next (h : Prints step lines) (hs : Prints second others) :
    Prints (do step; second) fun depth => lines depth ++ others depth := by
  intro p width unit
  have behind := hs { p with output := p.output ++ (lines p.level).render width } width unit
  rw [after_bind, h p width unit, behind, Outline.render_append, String.append_assoc]

theorem Prints.of_eq (h : Prints step lines) (eq : ∀ depth, lines depth = others depth) :
    Prints step others := funext eq ▸ h

/-- What is printed between two changes of the level stands one level deeper, and the level is again
what it was. -/
theorem Prints.deeper (h : Prints step lines) :
    Prints (do indent; step; outdent) fun depth => lines (depth + 1) := by
  intro p width unit
  have inner := h { p with level := p.level + 1 } width unit
  calc after (do indent; step; outdent) p
      = after outdent (after step { p with level := p.level + 1 }) := rfl
    _ = _ := by rw [inner]; rfl

theorem Prints.indented (h : Prints step lines) (hs : Prints second others) :
    Prints (do indent; step; outdent; second) fun depth => lines (depth + 1) ++ others depth :=
  h.deeper.next hs

theorem prints_push : Prints (push "\n") fun _ => [.empty] := by
  intro p width _
  rfl

theorem after_push_all (texts : List String) (p : Printer) :
    after (texts.forM push) p = { p with output := p.output ++ String.join texts } := by
  induction texts generalizing p with
  | nil =>
    show p = { p with output := p.output ++ "" }
    rw [String.append_empty]
  | cons text texts ih =>
    show after (texts.forM push) (after (push text) p) = _
    rw [after_push, ih, String.join_cons, String.append_assoc]

theorem join_replicate_spaces (level width : Nat) :
    String.join (List.replicate level (spaces width)) = spaces (level * width) := by
  induction level with
  | zero => simp [spaces]
  | succ level ih =>
    rw [replicate_succ, String.join_cons, ih, spaces, spaces, ← String.ofList_append,
      replicate_append_replicate, spaces, Nat.succ_mul, Nat.add_comm width]

theorem prints_line (text : String) : Prints (emitLine text) fun depth => [.line depth text] := by
  intro p width unit
  have indentation : after emitIndent p = { p with output := p.output ++ spaces (p.level * width) } := by
    rw [← join_replicate_spaces, ← unit]
    exact after_push_all _ p
  rw [emitLine, after_bind, indentation, after_bind, after_push, after_push]
  simp [Outline.render, OutlineLine.render, spaces, String.append_assoc]

theorem prints_each {α : Type} {step : α → Step} {lines : α → Nat → Outline}
    (h : ∀ a, Prints (step a) (lines a)) (as : List α) :
    Prints (as.forM step) fun depth => as.flatMap (lines · depth) := by
  induction as with
  | nil => exact prints_nothing
  | cons a as ih => exact (h a).next ih

theorem prints_lines {α : Type} (text : α → String) (as : List α) :
    Prints (as.forM fun a => emitLine (text a)) fun depth => as.map fun a => .line depth (text a) :=
  (prints_each (fun _ => prints_line _) as).of_eq fun _ => map_eq_flatMap.symm

end Steps

theorem prints_attributes (attributes : List Attribute) :
    Prints (printAttributes attributes) (attributesOutline · attributes) :=
  prints_lines Attribute.code attributes

theorem prints_member (m : Member) : Prints (printMember m) (m.outline ·) := by
  cases m with
  | property attributes access name type => exact (prints_attributes attributes).next (prints_line _)
  | initializer attributes access params =>
    exact (prints_attributes attributes).next ((prints_line _).next (prints_line _))
  | method attributes access name params returns hasBody =>
    cases hasBody with
    | true => exact (prints_attributes attributes).next ((prints_line _).next (prints_line _))
    | false => exact (prints_attributes attributes).next (prints_line _)

theorem prints_class (c : ClassDecl) : Prints (printClass c) (c.outline ·) := by
  have members := prints_each (fun m => prints_push.next (prints_member m)) c.members
  exact (prints_attributes c.attributes).next ((prints_line _).next (members.indented (prints_line _)))

theorem prints_block {comment : Option String} {call : Call} {content : Step} {isEmpty : Bool}
    {inner : Nat → List PrintedLine} (empty : ∀ depth, (inner depth).isEmpty = isEmpty)
    (h : Prints content fun depth => (inner depth).map PrintedLine.line) :
    Prints (printBlock (View.headText comment call) isEmpty content) fun depth =>
      (View.printedBlock ⟨depth, comment, call⟩ (inner (depth + 1))).map PrintedLine.line := by
  cases isEmpty with
  | true => exact (prints_line _).of_eq fun depth => by rw [View.printedBlock, if_pos (empty _)]; rfl
  | false =>
    refine ((prints_line _).next (h.indented (prints_line _))).of_eq fun depth => ?_
    rw [View.printedBlock, if_neg (by simp [empty])]
    simp [PrintedLine.line]

mutual

theorem prints_view (v : View) : Prints (printView v) (v.outline ·) := by
  match v with
  | ⟨comment, call, some lines, children, modifiers⟩ =>
    have action : Prints (lines.forM emitLine) fun depth =>
        (lines.map (PrintedLine.action depth)).map PrintedLine.line :=
      (prints_lines id lines).of_eq fun depth => by rw [map_map]; rfl
    refine ((prints_block (by simp) action).next (prints_modifiers modifiers).deeper).of_eq ?_
    exact fun depth => by rw [View.outline, View.printed, map_append]
  | ⟨comment, call, none, some children, modifiers⟩ =>
    refine ((prints_block (View.isEmpty_printedAll · children) (prints_views children)).next
      (prints_modifiers modifiers).deeper).of_eq ?_
    exact fun depth => by rw [View.outline, View.printed, map_append]
  | ⟨comment, call, none, none, modifiers⟩ =>
    refine ((prints_line _).next (prints_modifiers modifiers).deeper).of_eq ?_
    exact fun depth => by simp [View.outline, View.printed, PrintedLine.line]

theorem prints_views (vs : List View) :
    Prints (printViews vs) fun depth => (View.printedAll depth vs).map PrintedLine.line := by
  match vs with
  | [] => exact prints_nothing
  | v :: vs =>
    exact ((prints_view v).next (prints_views vs)).of_eq fun depth => map_append.symm

theorem prints_modifiers (ms : List (Modifier View)) :
    Prints (printModifiers ms) fun depth => (View.printedModifiers depth ms).map PrintedLine.line := by
  match ms with
  | [] => exact prints_nothing
  | .call call :: ms => exact (prints_line _).next (prints_modifiers ms)
  | .comment text :: ms => exact (prints_line _).next (prints_modifiers ms)
  | .block name children :: ms =>
    refine ((prints_line _).next ((prints_views children).indented
      ((prints_line _).next (prints_modifiers ms)))).of_eq fun depth => ?_
    simp [View.printedModifiers, PrintedLine.line]

end

theorem prints_viewStruct (s : ViewStruct) : Prints (printViewStruct s) (s.outline ·) := by
  have remark := prints_lines (fun text => "// " ++ text) s.comment.toList
  have state : Prints (printState s.state) fun depth =>
      if s.state.isEmpty then [] else .empty :: s.state.map fun v => .line depth v.code := by
    unfold printState
    split
    · exact prints_nothing
    · exact prints_push.next (prints_lines StateVar.code s.state)
  have body := prints_push.next ((prints_line "var body: some View \x7b").next
    ((prints_view s.body).indented (prints_line "\x7d")))
  have struct := remark.next ((prints_line ("struct " ++ s.name ++ ": View \x7b")).next
    ((state.next body).indented (prints_line "\x7d")))
  simp only [bind_assoc] at struct
  exact struct.of_eq fun depth => by simp [ViewStruct.outline]

theorem prints_item (item : Item) : Prints (printItem item) (item.outline ·) := by
  cases item with
  | classDecl decl => exact prints_class decl
  | viewStruct decl => exact prints_viewStruct decl
  | view v => exact prints_view v
  | comment text => exact prints_line _

end Printer

end Output

namespace Text.Outline

theorem separated_cons (part : Outline) (parts : List Outline) :
    Outline.separated (part :: parts) = part ++ parts.flatMap (.empty :: ·) := by
  induction parts generalizing part with
  | nil => simp [Outline.separated]
  | cons next parts ih => simp [Outline.separated, ih]

end Text.Outline

namespace Output

open Text (Outline OutlineLine)

namespace Printer

/-- The lines of items, with an empty line before each but one that stands first. -/
def itemLines (first : Bool) (items : List Item) (depth : Nat) : Outline :=
  if first then .separated (items.map (·.outline depth))
  else items.flatMap (.empty :: ·.outline depth)

theorem prints_separate (needed : Bool) :
    Prints (separate needed) fun _ => if needed then [.empty] else [] := by
  cases needed with
  | true => exact prints_push
  | false => exact prints_nothing

theorem prints_items (first : Bool) (items : List Item) :
    Prints (printItems first items) (itemLines first items) := by
  induction items generalizing first with
  | nil => cases first <;> exact prints_nothing
  | cons item items ih =>
    refine ((prints_separate !first).next ((prints_item item).next (ih false))).of_eq fun depth => ?_
    cases first <;> simp [itemLines, Outline.separated_cons, List.flatMap_map]

theorem prints_imports (imports : List String) : Prints (printImports imports) fun depth =>
    imports.map fun name => .line depth ("import " ++ name) :=
  prints_lines _ imports

/-- Printing a file up to an item: what stands before it, and the empty line between. -/
def printUpTo (f : File) (before : List Item) : Step := do
  printImports f.imports
  printItems f.imports.isEmpty before
  separate !(f.imports.isEmpty && before.isEmpty)

theorem after_printItems (first : Bool) (before : List Item) (item : Item) (rest : List Item) (p : Printer) :
    after (printItems first (before ++ item :: rest)) p =
      after (do printItem item; printItems false rest)
        (after (do printItems first before; separate !(first && before.isEmpty)) p) := by
  induction before generalizing first p with
  | nil => cases first <;> rfl
  | cons b before ih =>
    have behind := ih false (after (do separate !first; printItem b) p)
    rw [Bool.false_and] at behind
    rw [List.isEmpty_cons, Bool.and_false]
    exact behind

/-- Printing a file goes on from where it is at an item. -/
theorem after_printFile {f : File} {before rest : List Item} {item : Item}
    (h : f.items = before ++ item :: rest) (p : Printer) : after (printFile f) p =
      after (do printItem item; printItems false rest) (after (printUpTo f before) p) := by
  show after (printItems _ f.items) (after (printImports f.imports) p) = _
  rw [h]
  exact after_printItems _ before item rest _

theorem level_printUpTo (f : File) (before : List Item) (width : Nat) :
    (after (printUpTo f before) (.new width)).level = 0 ∧
      (after (printUpTo f before) (.new width)).unit = spaces (max 1 width) := by
  have prints := (prints_imports f.imports).next ((prints_items f.imports.isEmpty before).next
    (prints_separate !(f.imports.isEmpty && before.isEmpty)))
  have eq := prints (.new width) (max 1 width) rfl
  exact ⟨congrArg level eq, congrArg unit eq⟩

end Printer

open Printer in
/-- A file is printed with the lines of its outline. -/
theorem File.print_eq (f : File) (width : Nat) : f.print width = f.outline.render (max 1 width) := by
  have eq := (prints_imports f.imports).next (prints_items f.imports.isEmpty f.items) (.new width) _ rfl
  have lines : f.importLines ++ itemLines f.imports.isEmpty f.items 0 = f.outline := by
    unfold File.outline File.importOutline
    cases he : f.imports.isEmpty with
    | true => simp [itemLines, File.importLines, List.isEmpty_iff.mp he]
    | false => simp [itemLines, Outline.separated_cons, List.flatMap_map]
  calc f.print width = "" ++ Outline.render _ (f.importLines ++ itemLines f.imports.isEmpty f.items 0) :=
        congrArg Printer.output eq
    _ = f.outline.render (max 1 width) := by rw [lines, String.empty_append]

end Output

end ViewBridge
