import Mathlib.Data.List.Nodup
import ViewBridge.Classes.Parse
import ViewBridge.Proofs.Source.Step
import ViewBridge.Wrapper.Build

namespace ViewBridge.Output

def Member.markedName? (mark : Attribute) : Member → Option String
  | .property marks _ name _ | .method marks _ name _ _ _ =>
    if marks.contains mark then some name else none
  | .initializer _ _ _ => none

def ClassDecl.markedNames (mark : Attribute) (d : ClassDecl) : List String :=
  d.members.filterMap (·.markedName? mark)

end ViewBridge.Output

namespace ViewBridge.Wrapper

open List

open Classes (ClassDef Field Method)
open Output

def fieldsNamed (c : ClassDef) (name : String) : List Field := c.fields.filter (·.name == name)

def gettersNamed (c : ClassDef) (name : String) : List Method :=
  c.methods.filter fun m => m.isProperty && m.name == name

/-- Whether the declarations of an attribute fold into one: it is assigned once, or has one getter and
no field, and what else has its name is the constructor, a getter or a setter. -/
structure FoldsTo (c : ClassDef) (name : String) : Prop where
  fields : (fieldsNamed c name).length ≤ 1
  getters : fieldsNamed c name = [] → (gettersNamed c name).length ≤ 1
  others : fieldsNamed c name ≠ [] ∨ gettersNamed c name ≠ [] → ∀ m ∈ c.methods, m.name = name →
    m.isConstructor = true ∨ m.isAccessor = true

variable {t : TypeTable} {c : ClassDef} {name : String}

theorem wrapper_names :
    (classDecl .wrapper t c).markedNames .pyProperty =
        c.fields.map (·.name) ++ (getters c).map (·.name) ∧
      (classDecl .wrapper t c).markedNames .pyMethod = (ordinaryMethods c).map (·.name) := by
  have unmarked {α : Type} (l : List α) : l.filterMap (fun _ => (none : Option String)) = [] :=
    filterMap_eq_nil_iff.mpr fun _ _ => rfl
  unfold ClassDecl.markedNames classDecl wrapperDecl
  cases c.constructor? <;>
    simp [filterMap_append, filterMap_map, propertyOf, methodOf, Member.markedName?,
      Function.comp_def, unmarked]

theorem count_properties (t : TypeTable) (c : ClassDef) (name : String) :
    ((classDecl .wrapper t c).markedNames .pyProperty).count name =
      if fieldsNamed c name = [] then (gettersNamed c name).length
      else (fieldsNamed c name).length := by
  have hidden : c.field? name = none ↔ fieldsNamed c name = [] := by
    simp [ClassDef.field?, fieldsNamed]
  have fields : (c.fields.map (·.name)).count name = (fieldsNamed c name).length := by
    rw [List.count, countP_map, countP_eq_length_filter]
    rfl
  have getters : ((getters c).map (·.name)).count name =
      if fieldsNamed c name = [] then (gettersNamed c name).length else 0 := by
    rw [List.count, countP_map, countP_eq_length_filter, getters, filter_filter]
    split
    next none =>
      refine congrArg List.length (filter_congr fun m _ => ?_)
      by_cases named : m.name = name
      · simp [named, hidden.mpr none]
      · simp [beq_eq_false_iff_ne.mpr named]
    next some =>
      rw [length_eq_zero_iff, filter_eq_nil_iff]
      intro m _
      by_cases named : m.name = name
      · simp [named, mt hidden.mp some]
      · simp [named]
  rw [wrapper_names.1, count_append, fields, getters]
  split
  next none => rw [none, length_nil, Nat.zero_add]
  next => rfl

/-- The properties of a class have different names, which no method has, exactly if the declarations
of each attribute fold into one. -/
theorem wrapper_properties_distinct_iff (t : TypeTable) (c : ClassDef) :
    ((classDecl .wrapper t c).markedNames .pyProperty).Nodup ∧
      (∀ name ∈ (classDecl .wrapper t c).markedNames .pyMethod,
        name ∉ (classDecl .wrapper t c).markedNames .pyProperty) ↔
      ∀ name, FoldsTo c name := by
  have declared (name : String) : name ∈ (classDecl .wrapper t c).markedNames .pyProperty ↔
      fieldsNamed c name ≠ [] ∨ gettersNamed c name ≠ [] := by
    rw [← count_pos_iff, count_properties]
    split
    next none => simp [none, length_pos_iff]
    next some => simp [some, length_pos_iff]
  have ordinary (name : String) : name ∈ (classDecl .wrapper t c).markedNames .pyMethod ↔
      ∃ m ∈ c.methods, m.name = name ∧ ¬(m.isConstructor = true ∨ m.isAccessor = true) := by
    rw [wrapper_names.2, mem_map]
    simp [ordinaryMethods, and_left_comm, and_comm]
  rw [nodup_iff_count_le_one]
  constructor
  · rintro ⟨distinct, apart⟩ name
    have once := distinct name
    rw [count_properties] at once
    refine ⟨?_, fun none => ?_, fun known m hm named => ?_⟩
    · split at once
      next none => simp [none]
      next => exact once
    · rwa [if_pos none] at once
    · by_contra other
      exact apart name ((ordinary name).mpr ⟨m, hm, named, other⟩) ((declared name).mpr known)
  · intro folds
    refine ⟨fun name => ?_, fun name method property => ?_⟩
    · rw [count_properties]
      split
      next none => exact (folds name).getters none
      next => exact (folds name).fields
    · obtain ⟨m, hm, named, other⟩ := (ordinary name).mp method
      exact other ((folds name).others ((declared name).mp property) m hm named)

/-- A deleter is declared as a method with the name of the property that it belongs to. -/
theorem wrapper_deleter_is_method :
    ∃ m, Classes.parse ("class A:\n    @property\n    def x(self): ...\n" ++
      "    @x.deleter\n    def x(self): ...\n") = .ok m ∧
      ∃ c ∈ m.classes, "x" ∈ (classDecl .wrapper .builtin c).markedNames .pyProperty ∧
        "x" ∈ (classDecl .wrapper .builtin c).markedNames .pyMethod := by
  have names : (Classes.parse ("class A:\n    @property\n    def x(self): ...\n" ++
      "    @x.deleter\n    def x(self): ...\n")).toOption.any (fun m => m.classes.any fun c =>
        decide ("x" ∈ (classDecl .wrapper .builtin c).markedNames .pyProperty ∧
          "x" ∈ (classDecl .wrapper .builtin c).markedNames .pyMethod)) = true := by
    decide +kernel
  obtain ⟨m, hm, names⟩ := (Option.any_eq_true _ _).mp names
  obtain ⟨c, hc, names⟩ := any_eq_true.mp names
  exact ⟨m, eq_ok_of_toOption hm, c, hc, of_decide_eq_true names⟩

end ViewBridge.Wrapper
