namespace ViewBridge

/-- A type of the generated declarations, however it was written in the source. -/
inductive Descriptor where
  | scalar (name : String)
  | list (element : Descriptor)
  | dict (key value : Descriptor)
  | set (element : Descriptor)
  | tuple (items : List Descriptor)
  | optional (inner : Descriptor)
  | generic (name : String) (args : List Descriptor)
  | unknown
  deriving Inhabited

namespace Descriptor

mutual

def same : Descriptor → Descriptor → Bool
  | .scalar a, .scalar b => a == b
  | .list a, .list b | .set a, .set b | .optional a, .optional b => same a b
  | .dict a c, .dict b d => same a b && same c d
  | .tuple a, .tuple b => sameAll a b
  | .generic a c, .generic b d => a == b && sameAll c d
  | .unknown, .unknown => true
  | _, _ => false

def sameAll : List Descriptor → List Descriptor → Bool
  | [], [] => true
  | a :: as, b :: bs => same a b && sameAll as bs
  | _, _ => false

end

mutual

theorem same_iff (a b : Descriptor) : same a b = true ↔ a = b := by
  cases a <;> cases b <;> simp [same, same_iff, sameAll_iff]

theorem sameAll_iff (as bs : List Descriptor) : sameAll as bs = true ↔ as = bs := by
  cases as <;> cases bs <;> simp [sameAll, same_iff, sameAll_iff]

end

instance : DecidableEq Descriptor := fun a b => decidable_of_iff _ (same_iff a b)

/-- The optional of a type; what is optional already stays as it is. -/
def makeOptional : Descriptor → Descriptor
  | .optional inner => .optional inner
  | type => .optional type

def isUnknown : Descriptor → Bool
  | .unknown => true
  | _ => false

/-- The spelling of a type in the generated declarations. -/
def spelled : Descriptor → String
  | .scalar name => name
  | .list element => "[" ++ element.spelled ++ "]"
  | .dict key value => "[" ++ key.spelled ++ ": " ++ value.spelled ++ "]"
  | .set element => "Set<" ++ element.spelled ++ ">"
  | .tuple items => "(" ++ joined items ++ ")"
  | .optional inner => inner.spelled ++ "?"
  | .generic name [] => name
  | .generic name args => name ++ "<" ++ joined args ++ ">"
  | .unknown => "Any"
where
  joined : List Descriptor → String
    | [] => ""
    | [item] => item.spelled
    | item :: items => item.spelled ++ ", " ++ joined items

end Descriptor

end ViewBridge
