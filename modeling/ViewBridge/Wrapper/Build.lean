import ViewBridge.Config.Basic
import ViewBridge.Output.File
import ViewBridge.Report.Diagnostic
import ViewBridge.Types.Mapping

namespace ViewBridge.Wrapper

open Classes (ClassDef Field Method TypeHint)
open Output

def constructedType? (t : TypeTable) (c : ClassDef) (f : Field) : Option Descriptor := do
  let init ← c.constructor?
  let param ← init.params.find? (·.name == f.name)
  let hint ← param.hint
  return t.map hint

/-- The type of a field: as annotated, else as constructed, else as its default shows. -/
def fieldType (t : TypeTable) (c : ClassDef) (f : Field) : Descriptor :=
  match f.hint, constructedType? t c f with
  | some hint, _ => t.map hint
  | none, some constructed => constructed
  | none, none => (f.default.map t.infer).getD .unknown

/-- A warning if a field is annotated with one type and constructed with another. -/
def fieldWarnings (t : TypeTable) (c : ClassDef) (f : Field) : List Diagnostic :=
  match f.hint, constructedType? t c f with
  | some hint, some constructed =>
    let declared := t.map hint
    if constructed = declared then []
    else [.typeConflict f.name declared.spelled constructed.spelled f.span]
  | _, _ => []

def paramsOf (t : TypeTable) (m : Method) : List Output.Param :=
  m.params.map fun p => { name := p.name, type := t.mapOrObject p.hint }

/-- The type of a method's answer; one that answers nothing has none. -/
def returnType? (t : TypeTable) (m : Method) : Option Descriptor :=
  match m.returns with
  | none | some .none => none
  | some hint => some (t.map hint)

def methodOf (t : TypeTable) (mark : Attribute) (access : List Access) (hasBody : Bool)
    (m : Method) : Member :=
  .method [mark] (access ++ if m.isStatic || m.isClassMethod then [.isStatic] else []) m.name
    (paramsOf t m) (returnType? t m) hasBody

/-- The methods that are declared as such: neither constructors nor accessors. -/
def ordinaryMethods (c : ClassDef) : List Method :=
  c.methods.filter fun m => !m.isConstructor && !m.isAccessor

def propertyOf (name : String) (type : Descriptor) : Member :=
  .property [.pyProperty] [.isPublic] name type

/-- The getters of a class that no field of the same name hides. -/
def getters (c : ClassDef) : List Method :=
  c.methods.filter fun m => m.isProperty && (c.field? m.name).isNone

/-- A class whose members are looked up in a foreign object. -/
def containerDecl (t : TypeTable) (c : ClassDef) : ClassDecl :=
  { attributes := .pyContainer :: if c.fields.isEmpty then [] else [.dynamicMemberLookup]
    access := []
    name := c.name
    members := (ordinaryMethods c).map (methodOf t .pyCall [] false) }

def wrapperDecl (t : TypeTable) (c : ClassDef) : ClassDecl :=
  { attributes := [.pyClass]
    access := [.isPublic]
    name := c.name
    members :=
      c.fields.map (fun f => propertyOf f.name (fieldType t c f)) ++
      (getters c).map (fun m => propertyOf m.name (t.mapOrObject m.returns)) ++
      (c.constructor?.map fun m => .initializer [.pyInit] [.isPublic] (paramsOf t m)).toList ++
      (ordinaryMethods c).map (methodOf t .pyMethod [.isPublic] true) }

def classDecl (style : ClassStyle) (t : TypeTable) (c : ClassDef) : ClassDecl :=
  match style with
  | .container => containerDecl t c
  | .wrapper => wrapperDecl t c

def file (style : ClassStyle) (t : TypeTable) (m : Classes.Module) : File :=
  { imports := match style with
      | .container => []
      | .wrapper => ["PySwiftKit"]
    items := m.classes.map (.classDecl <| classDecl style t ·) }

def diagnostics (t : TypeTable) (m : Classes.Module) : List Diagnostic :=
  m.classes.flatMap fun c => c.fields.flatMap (fieldWarnings t c)

end ViewBridge.Wrapper
