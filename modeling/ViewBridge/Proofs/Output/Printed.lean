import ViewBridge.Output.Printer
import ViewBridge.Proofs.Source.Layout

namespace ViewBridge.Output

open Text (Outline OutlineLine)

/-- The line that a view starts with: how deep it stands, and what it shows. -/
structure Head where
  depth : Nat
  comment : Option String
  call : Call

/-- A line of a printed view, by the part it plays. -/
inductive PrintedLine where
  | head (head : Head) (ending : String)
  | action (depth : Nat) (text : String)
  | modifier (depth : Nat) (call : Call)
  | remark (depth : Nat) (text : String)
  | blockStart (depth : Nat) (name : String)
  | blockEnd (depth : Nat)

namespace PrintedLine

def line : PrintedLine → OutlineLine
  | .head h ending => .line h.depth (View.headText h.comment h.call ++ ending)
  | .action depth text => .line depth text
  | .modifier depth call => .line depth ("." ++ call.code)
  | .remark depth text => .line depth ("// " ++ text)
  | .blockStart depth name => .line depth ("." ++ name ++ " \x7b")
  | .blockEnd depth => .line depth "\x7d"

def deeper (levels : Nat) : PrintedLine → PrintedLine
  | .head h ending => .head { h with depth := h.depth + levels } ending
  | .action depth text => .action (depth + levels) text
  | .modifier depth call => .modifier (depth + levels) call
  | .remark depth text => .remark (depth + levels) text
  | .blockStart depth name => .blockStart (depth + levels) name
  | .blockEnd depth => .blockEnd (depth + levels)

def head? : PrintedLine → Option Head
  | .head h _ => some h
  | _ => none

end PrintedLine

namespace View

def head (depth : Nat) (v : View) : Head := ⟨depth, v.comment, v.call⟩

def printedBlock (head : Head) (inner : List PrintedLine) : List PrintedLine :=
  if inner.isEmpty then [.head head " \x7b\x7d"]
  else .head head " \x7b" :: inner ++ [.blockEnd head.depth]

mutual

def printed (depth : Nat) : View → List PrintedLine
  | ⟨comment, call, some lines, _, modifiers⟩ =>
    printedBlock ⟨depth, comment, call⟩ (lines.map (.action (depth + 1))) ++
      printedModifiers (depth + 1) modifiers
  | ⟨comment, call, none, some children, modifiers⟩ =>
    printedBlock ⟨depth, comment, call⟩ (printedAll (depth + 1) children) ++
      printedModifiers (depth + 1) modifiers
  | ⟨comment, call, none, none, modifiers⟩ =>
    .head ⟨depth, comment, call⟩ "" :: printedModifiers (depth + 1) modifiers

def printedAll (depth : Nat) : List View → List PrintedLine
  | [] => []
  | v :: vs => v.printed depth ++ printedAll depth vs

def printedModifiers (depth : Nat) : List (Modifier View) → List PrintedLine
  | [] => []
  | .call call :: ms => .modifier depth call :: printedModifiers depth ms
  | .comment text :: ms => .remark depth text :: printedModifiers depth ms
  | .block name children :: ms =>
    .blockStart depth name :: printedAll (depth + 1) children ++
      .blockEnd depth :: printedModifiers depth ms

end

theorem exists_printed_eq_cons (depth : Nat) (v : View) :
    ∃ ending rest, v.printed depth = .head (v.head depth) ending :: rest := by
  have block (head : Head) (inner : List PrintedLine) :
      ∃ ending rest, printedBlock head inner = .head head ending :: rest := by
    cases inner with
    | nil => exact ⟨_, _, rfl⟩
    | cons line inner => exact ⟨_, _, rfl⟩
  match v with
  | ⟨comment, call, some lines, children, modifiers⟩ =>
    obtain ⟨ending, rest, eq⟩ := block ⟨depth, comment, call⟩ (lines.map (.action (depth + 1)))
    exact ⟨ending, _, by rw [printed, eq]; rfl⟩
  | ⟨comment, call, none, some children, modifiers⟩ =>
    obtain ⟨ending, rest, eq⟩ := block ⟨depth, comment, call⟩ (printedAll (depth + 1) children)
    exact ⟨ending, _, by rw [printed, eq]; rfl⟩
  | ⟨comment, call, none, none, modifiers⟩ => exact ⟨_, _, rfl⟩

theorem isEmpty_printedAll (depth : Nat) (vs : List View) :
    (printedAll depth vs).isEmpty = vs.isEmpty := by
  cases vs with
  | nil => rfl
  | cons v vs =>
    obtain ⟨ending, rest, eq⟩ := v.exists_printed_eq_cons depth
    rw [printedAll, eq]
    rfl

/-- The lines of a view that is printed at a depth. -/
def outline (depth : Nat) (v : View) : Outline := (v.printed depth).map PrintedLine.line

mutual

/-- The views of a tree, each before those below it, with the depths of their heads. -/
def nodes (depth : Nat) : View → List (Nat × View)
  | ⟨comment, call, action, none, modifiers⟩ =>
    (depth, ⟨comment, call, action, none, modifiers⟩) :: modifierNodes (depth + 2) modifiers
  | ⟨comment, call, action, some children, modifiers⟩ =>
    (depth, ⟨comment, call, action, some children, modifiers⟩) ::
      (allNodes (depth + 1) children ++ modifierNodes (depth + 2) modifiers)

def allNodes (depth : Nat) : List View → List (Nat × View)
  | [] => []
  | v :: vs => v.nodes depth ++ allNodes depth vs

def modifierNodes (depth : Nat) : List (Modifier View) → List (Nat × View)
  | [] => []
  | .block _ children :: ms => allNodes depth children ++ modifierNodes depth ms
  | .call _ :: ms | .comment _ :: ms => modifierNodes depth ms

end

mutual

theorem length_nodes (depth : Nat) (v : View) : (v.nodes depth).length = v.count := by
  match v with
  | ⟨comment, call, action, none, modifiers⟩ =>
    rw [nodes, count, List.length_cons, length_modifierNodes _ modifiers, Nat.add_comm]
  | ⟨comment, call, action, some children, modifiers⟩ =>
    rw [nodes, count, List.length_cons, List.length_append, length_allNodes _ children,
      length_modifierNodes _ modifiers]
    omega

theorem length_allNodes (depth : Nat) (vs : List View) :
    (allNodes depth vs).length = countAll vs := by
  match vs with
  | [] => rfl
  | v :: vs =>
    rw [allNodes, countAll, List.length_append, length_nodes depth v, length_allNodes depth vs]

theorem length_modifierNodes (depth : Nat) (ms : List (Modifier View)) :
    (modifierNodes depth ms).length = countModifiers ms := by
  match ms with
  | [] => rfl
  | .block name children :: ms =>
    rw [modifierNodes, countModifiers, List.length_append, length_allNodes depth children,
      length_modifierNodes depth ms]
  | .call call :: ms => rw [modifierNodes, countModifiers, length_modifierNodes depth ms]
  | .comment text :: ms => rw [modifierNodes, countModifiers, length_modifierNodes depth ms]

end

/-- Whether a view has at most one of the two blocks that can follow its constructor. -/
def HasOneBlock (v : View) : Prop := v.action = none ∨ v.children = none

theorem printedBlock_heads (head : Head) (inner : List PrintedLine) :
    (printedBlock head inner).filterMap PrintedLine.head? =
      head :: inner.filterMap PrintedLine.head? := by
  unfold printedBlock
  cases inner with
  | nil => rfl
  | cons line inner =>
    have closing : [PrintedLine.blockEnd head.depth].filterMap PrintedLine.head? = [] := rfl
    rw [if_neg (by simp), List.cons_append, List.filterMap_cons_some (by rfl),
      List.filterMap_append, closing, List.append_nil]

mutual

/-- A tree in which no view has two blocks is printed with one head for each of its views. -/
theorem printed_heads (depth : Nat) (v : View)
    (blocks : ∀ n ∈ v.nodes depth, n.2.HasOneBlock) :
    (v.printed depth).filterMap PrintedLine.head? =
      (v.nodes depth).map fun n => n.2.head n.1 := by
  match v with
  | ⟨comment, call, some lines, none, modifiers⟩ =>
    rw [nodes] at blocks ⊢
    have actions : (lines.map (PrintedLine.action (depth + 1))).filterMap PrintedLine.head? = [] := by
      simp [PrintedLine.head?]
    rw [printed, List.filterMap_append, printedBlock_heads, actions,
      printedModifiers_heads (depth + 1) modifiers (List.forall_mem_cons.mp blocks).2]
    rfl
  | ⟨comment, call, some lines, some children, modifiers⟩ =>
    rw [nodes] at blocks
    rcases (List.forall_mem_cons.mp blocks).1 with h | h <;> cases h
  | ⟨comment, call, none, some children, modifiers⟩ =>
    rw [nodes] at blocks ⊢
    obtain ⟨_, below⟩ := List.forall_mem_cons.mp blocks
    obtain ⟨inner, behind⟩ := List.forall_mem_append.mp below
    rw [printed, List.filterMap_append, printedBlock_heads, printedAll_heads (depth + 1) children inner,
      printedModifiers_heads (depth + 1) modifiers behind, List.map_cons, List.map_append]
    rfl
  | ⟨comment, call, none, none, modifiers⟩ =>
    rw [nodes] at blocks ⊢
    rw [printed, List.filterMap_cons_some (by rfl),
      printedModifiers_heads (depth + 1) modifiers (List.forall_mem_cons.mp blocks).2]
    rfl

theorem printedAll_heads (depth : Nat) (vs : List View)
    (blocks : ∀ n ∈ allNodes depth vs, n.2.HasOneBlock) :
    (printedAll depth vs).filterMap PrintedLine.head? =
      (allNodes depth vs).map fun n => n.2.head n.1 := by
  match vs with
  | [] => rfl
  | v :: vs =>
    obtain ⟨first, others⟩ := List.forall_mem_append.mp blocks
    rw [printedAll, allNodes, List.filterMap_append, List.map_append, printed_heads depth v first,
      printedAll_heads depth vs others]

theorem printedModifiers_heads (depth : Nat) (ms : List (Modifier View))
    (blocks : ∀ n ∈ modifierNodes (depth + 1) ms, n.2.HasOneBlock) :
    (printedModifiers depth ms).filterMap PrintedLine.head? =
      (modifierNodes (depth + 1) ms).map fun n => n.2.head n.1 := by
  match ms with
  | [] => rfl
  | .call call :: ms =>
    rw [printedModifiers, List.filterMap_cons_none (by rfl)]
    exact printedModifiers_heads depth ms blocks
  | .comment text :: ms =>
    rw [printedModifiers, List.filterMap_cons_none (by rfl)]
    exact printedModifiers_heads depth ms blocks
  | .block name children :: ms =>
    obtain ⟨inner, behind⟩ := List.forall_mem_append.mp blocks
    rw [printedModifiers, modifierNodes, List.cons_append, List.filterMap_cons_none (by rfl),
      List.filterMap_append, List.filterMap_cons_none (by rfl), List.map_append,
      printedAll_heads (depth + 1) children inner, printedModifiers_heads depth ms behind]

end

theorem nodes_eq (depth : Nat) (v : View) :
    v.nodes depth = (depth, v) ::
      (allNodes (depth + 1) (v.children.getD []) ++ modifierNodes (depth + 2) v.modifiers) := by
  match v with
  | ⟨comment, call, action, none, modifiers⟩ => rfl
  | ⟨comment, call, action, some children, modifiers⟩ => rfl

theorem modifierNodes_append (depth : Nat) (ms ns : List (Modifier View)) :
    modifierNodes depth (ms ++ ns) = modifierNodes depth ms ++ modifierNodes depth ns := by
  induction ms with
  | nil => rfl
  | cons m ms ih =>
    cases m with
    | block name children => simp [modifierNodes, ih]
    | call call => exact ih
    | comment text => exact ih

theorem mem_allNodes {depth : Nat} {vs : List View} {v : View} (hv : v ∈ vs) {n : Nat × View}
    (hn : n ∈ v.nodes depth) : n ∈ allNodes depth vs := by
  induction vs with
  | nil => cases hv
  | cons u vs ih =>
    rw [allNodes]
    rcases List.mem_cons.mp hv with rfl | hv
    · exact List.mem_append_left _ hn
    · exact List.mem_append_right _ (ih hv)

/-- The views of the content of a view, or else those that are laid over it. -/
def subviews (v : View) : List View := v.children.getD (v.modifiers.flatMap overlaid)
where
  overlaid : Modifier View → List View
    | .block name views => if name = "overlay" then views else []
    | .call _ | .comment _ => []

end View

def Modifier.IsFlat {ν : Type} : Modifier ν → Prop
  | .block _ _ => False
  | .call _ | .comment _ => True

theorem View.modifierNodes_flat {ms : List (Modifier View)} (flat : ∀ m ∈ ms, m.IsFlat)
    (depth : Nat) : View.modifierNodes depth ms = [] := by
  induction ms with
  | nil => rfl
  | cons m ms ih =>
    obtain ⟨first, others⟩ := List.forall_mem_cons.mp flat
    cases m with
    | block name children => exact first.elim
    | call call => exact ih others
    | comment text => exact ih others

theorem View.nodes_append_flat (v : View) {ms : List (Modifier View)} (flat : ∀ m ∈ ms, m.IsFlat)
    (depth : Nat) : View.nodes depth { v with modifiers := v.modifiers ++ ms } =
      (depth, { v with modifiers := v.modifiers ++ ms }) :: (v.nodes depth).tail := by
  rw [View.nodes_eq, View.nodes_eq depth v]
  simp only [View.modifierNodes_append, View.modifierNodes_flat flat, List.append_nil,
    List.tail_cons]

theorem View.overlaid_flat {ms : List (Modifier View)} (flat : ∀ m ∈ ms, m.IsFlat) :
    ms.flatMap View.subviews.overlaid = [] := by
  rw [List.flatMap_eq_nil_iff]
  intro m hm
  cases m with
  | block name children => exact (flat _ hm).elim
  | call call => rfl
  | comment text => rfl

def Item.view? : Item → Option View
  | .view v => some v
  | .viewStruct decl => some decl.body
  | .classDecl _ | .comment _ => none

end ViewBridge.Output
