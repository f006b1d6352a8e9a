import ViewBridge.Output.Expr

namespace ViewBridge.Output

/-- What stands in the chain behind a view. -/
inductive Modifier (ν : Type) where
  | call (call : Call)
  | comment (text : String)
  /-- A modifier with a block of views. -/
  | block (name : String) (children : List ν)

/-- A view with its blocks and its chain of modifiers. -/
structure View where
  /-- A comment behind the constructor. -/
  comment : Option String
  call : Call
  /-- The lines of an action. -/
  action : Option (List String)
  /-- The views of the content. -/
  children : Option (List View)
  modifiers : List (Modifier View)

namespace View

/-- A view that is nothing but a constructor call. -/
def ofCall (call : Call) : View :=
  { comment := none, call, action := none, children := none, modifiers := [] }

mutual

/-- The number of views in a tree, those in blocks of modifiers included. -/
def count : View → Nat
  | ⟨_, _, _, none, modifiers⟩ => 1 + countModifiers modifiers
  | ⟨_, _, _, some children, modifiers⟩ => 1 + countAll children + countModifiers modifiers

def countAll : List View → Nat
  | [] => 0
  | v :: vs => v.count + countAll vs

def countModifiers : List (Modifier View) → Nat
  | [] => 0
  | .block _ children :: ms => countAll children + countModifiers ms
  | .call _ :: ms | .comment _ :: ms => countModifiers ms

end

/-- The constructor of a view and the comment behind it. -/
def headText (comment : Option String) (call : Call) : String :=
  match comment with
  | some text => call.code ++ " /* " ++ text ++ " */"
  | none => call.code

end View

/-- A variable that a view keeps between two drawings. -/
structure StateVar where
  name : String
  type : String
  value : Expr

structure ViewStruct where
  comment : Option String
  name : String
  state : List StateVar
  body : View

def StateVar.code (v : StateVar) : String :=
  "@State private var " ++ v.name ++ ": " ++ v.type ++ " = " ++ v.value.code

end ViewBridge.Output
