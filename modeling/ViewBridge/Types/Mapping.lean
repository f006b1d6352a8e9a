import ViewBridge.Classes.Tree
import ViewBridge.Types.Descriptor
import ViewBridge.Types.Table

namespace ViewBridge

open Classes (TypeHint lastSegment)

/-- The sorts of generic types that hints may name. -/
inductive Container where
  | list
  | dict
  | set
  | tuple
  | optional
  | union
  /-- A wrapper whose first argument is the type. -/
  | transparent
  deriving DecidableEq

def Container.ofName? (name : String) : Option Container :=
  match name with
  | "list" | "List" | "Sequence" => some .list
  | "dict" | "Dict" | "Mapping" => some .dict
  | "set" | "Set" | "frozenset" | "FrozenSet" => some .set
  | "tuple" | "Tuple" => some .tuple
  | "Optional" => some .optional
  | "Union" => some .union
  | "ClassVar" | "Final" | "Annotated" => some .transparent
  | _ => none

def isDottedName (text : String) : Bool :=
  (Text.runs (· ≠ '.') text.toList).all fun
    | [] => false
    | c :: rest => Text.isNameStart c && rest.all Text.isNamePart

namespace TypeTable

def scalar (t : TypeTable) (name : String) : Descriptor := .scalar (t.resolve name)

/-- The type of a name alone: a bare container holds values of unknown type. -/
def ofName (t : TypeTable) (name : String) : Descriptor :=
  if name = "Any" then .unknown
  else
    match Container.ofName? name with
    | some .list | some .tuple => .list .unknown
    | some .dict => .dict (t.scalar "str") .unknown
    | some .set => .set .unknown
    | _ => t.scalar name

/-- The type of a union whose members other than `None` have these types: the only one of them, if
there is one, which is optional when `None` is a member. -/
def ofMembers (t : TypeTable) (types : List Descriptor) (hasNone : Bool) : Descriptor :=
  match types.eraseDups with
  | [] => t.scalar "None"
  | [type] => if hasNone then type.makeOptional else type
  | _ => .unknown

/-- The members of a union that are not unions themselves, each with its type; `None` has none. -/
abbrev Members := List (Option Descriptor)

def ofUnion (t : TypeTable) (members : Members) : Descriptor :=
  t.ofMembers (members.filterMap id) (members.any (·.isNone))

/-- Whether arguments are a type and dots. -/
def isVariadic : List TypeHint → Bool
  | [_, .ellipsis] => true
  | _ => false

/-- The type of a name with arguments of these types, by the container that it stands for. -/
def ofContainer (t : TypeTable) (name : String) (variadic : Bool) :
    Option Container → List Descriptor → Descriptor
  | some .list, [element] => .list element
  | some .list, _ => .list .unknown
  | some .dict, [key, value] => .dict key value
  | some .dict, _ => .dict (t.scalar "str") .unknown
  | some .set, [element] => .set element
  | some .set, _ => .set .unknown
  | some .tuple, types => if variadic then .list (types.headD .unknown) else .tuple types
  | some .optional, [inner] => inner.makeOptional
  | some .transparent, first :: _ => first
  | _, types => .generic (t.resolve name) types

mutual

def map (t : TypeTable) : TypeHint → Descriptor
  | .name text => t.ofName (lastSegment text)
  | .subscript base args =>
    match Container.ofName? (lastSegment base) with
    | some .union => t.ofUnion (t.members args)
    | container => t.ofContainer (lastSegment base) (isVariadic args) container (t.mapAll args)
  | .listOf [element] => .list (t.map element)
  | .listOf _ => .list .unknown
  | .union members => t.ofUnion (t.members members)
  | .none => t.scalar "None"
  | .forward text => if isDottedName text then t.ofName (lastSegment text) else .unknown
  | .ellipsis => .unknown

def mapAll (t : TypeTable) : List TypeHint → List Descriptor
  | [] => []
  | a :: as => t.map a :: t.mapAll as

/-- The types of the members of a union, with unions and optionals inside it laid open. -/
def members (t : TypeTable) : List TypeHint → Members
  | [] => []
  | .union inner :: as => t.members inner ++ t.members as
  | .subscript base args :: as =>
    if lastSegment base = "Optional" then t.members args ++ none :: t.members as
    else some (t.map (.subscript base args)) :: t.members as
  | .none :: as => none :: t.members as
  | a :: as => some (t.map a) :: t.members as

end

/-- The type of a hint; where there is none any object will do. -/
def mapOrObject (t : TypeTable) : Option TypeHint → Descriptor
  | some a => t.map a
  | none => t.scalar "object"

mutual

/-- The type that a default value shows. -/
def infer (t : TypeTable) : Literal → Descriptor
  | .string _ => t.scalar "str"
  | .integer _ => t.scalar "int"
  | .float _ => t.scalar "float"
  | .bool _ => t.scalar "bool"
  | .list [] => .list .unknown
  | .list (first :: items) =>
    if Literal.isHomogeneous (first :: items) then
      if (first :: items).any (·.kind == .float) then .list (t.scalar "float")
      else .list (t.infer first)
    else .list .unknown
  | .tuple items => .tuple (t.inferAll items)
  | .name _ | .call _ _ | .expression _ => .unknown

def inferAll (t : TypeTable) : List Literal → List Descriptor
  | [] => []
  | v :: vs => t.infer v :: t.inferAll vs

end

end TypeTable

end ViewBridge
