import ViewBridge.Classes.Token

namespace ViewBridge.Classes

def lineEnd : List Token → List Token
  | [] => []
  | ⟨.newline, span⟩ :: ts => ⟨.newline, span⟩ :: ts
  | _ :: ts => lineEnd ts

/-- What remains behind the line. -/
def skipLine (ts : List Token) : List Token := (lineEnd ts).tail

theorem lineEnd_suffix (ts : List Token) : lineEnd ts <:+ ts := by
  fun_induction lineEnd ts with
  | case1 | case2 => exact List.suffix_refl _
  | case3 t ts _ ih => exact ih.trans (List.suffix_cons _ _)

/-- What remains behind an indented block, if there is one. -/
def skipBlock : List Token → List Token
  | ⟨.indent, _⟩ :: ts => behindBlock 0 ts
  | ts => ts

/-- What remains behind a statement and the block that belongs to it. -/
def skipStatement (ts : List Token) : List Token := skipBlock (skipLine ts)

/-- What remains at the comma or bracket that ends an argument, or at the end of the line. -/
def skipArgument (depth : Nat) : List Token → List Token
  | [] => []
  | t :: ts =>
    match t.kind with
    | .newline => t :: ts
    | .opening _ => skipArgument (depth + 1) ts
    | .closing _ =>
      match depth with
      | 0 => t :: ts
      | depth + 1 => skipArgument depth ts
    | .word .comma => if depth = 0 then t :: ts else skipArgument depth ts
    | _ => skipArgument depth ts

end ViewBridge.Classes
