import Mathlib.Data.List.Forall2
import ViewBridge.Proofs.Types.Unions

namespace ViewBridge.Text

theorem runs_ne_nil (keep : Char → Bool) (cs : List Char) : runs keep cs ≠ [] := by
  cases cs with
  | nil => exact List.cons_ne_nil _ _
  | cons c cs =>
    unfold runs
    repeat' split
    all_goals exact List.cons_ne_nil _ _

theorem exists_runs_append (keep : Char → Bool) {c : Char} (hc : keep c = false)
    (before after : List Char) :
    ∃ run others, runs keep (before ++ c :: after) = run :: (others ++ runs keep after) := by
  induction before with
  | nil => exact ⟨[], [], by simp [runs, hc]⟩
  | cons d before ih =>
    obtain ⟨run, others, eq⟩ := ih
    rw [List.cons_append, runs, eq]
    cases keep d with
    | true => exact ⟨d :: run, others, rfl⟩
    | false => exact ⟨[], run :: others, rfl⟩

end ViewBridge.Text

namespace ViewBridge.Classes

theorem lastSegment_qualified (modules name : String) :
    lastSegment (modules ++ "." ++ name) = lastSegment name := by
  have chars : (modules ++ "." ++ name).toList = modules.toList ++ '.' :: name.toList := by simp
  obtain ⟨run, others, eq⟩ :=
    Text.exists_runs_append (· ≠ '.') (c := '.') rfl modules.toList name.toList
  have last := List.getLast?_eq_some_getLast (Text.runs_ne_nil (· ≠ '.') name.toList)
  rw [lastSegment, lastSegment, chars, eq, ← List.cons_append, List.getLast?_append, last]
  rfl

namespace TypeHint

/-- Names of one type: with the modules that it is in and without them, and the names that a
dictionary and a set have. -/
inductive SameName : String → String → Prop
  | qualified (modules name : String) : SameName name (modules ++ "." ++ name)
  | dict {name} : name ∈ ["Dict", "Mapping"] → SameName name "dict"
  | set {name} : name ∈ ["Set", "frozenset", "FrozenSet"] → SameName name "set"

/-- Hints that differ in how some of their parts are spelled, at any depth. -/
inductive Respelled : TypeHint → TypeHint → Prop
  | list {name} (a) : name ∈ ["list", "List", "Sequence"] →
      Respelled (.listOf [a]) (.subscript name [a])
  | name {m n} : SameName m n → Respelled (.name m) (.name n)
  | base {m n} (args) : SameName m n → Respelled (.subscript m args) (.subscript n args)
  | argument (base front rest) {a b} : Respelled a b →
      Respelled (.subscript base (front ++ a :: rest)) (.subscript base (front ++ b :: rest))
  | item (front rest) {a b} : Respelled a b →
      Respelled (.listOf (front ++ a :: rest)) (.listOf (front ++ b :: rest))
  | member (front rest) {a b} : Respelled a b →
      Respelled (.union (front ++ a :: rest)) (.union (front ++ b :: rest))
  | refl (a) : Respelled a a
  | symm {a b} : Respelled a b → Respelled b a
  | trans {a b c} : Respelled a b → Respelled b c → Respelled a c

theorem SameName.cases_segment {m n : String} (h : SameName m n) :
    lastSegment m = lastSegment n ∨ ∃ c, (c = .dict ∨ c = .set) ∧
      Container.ofName? (lastSegment m) = some c ∧ Container.ofName? (lastSegment n) = some c := by
  cases h with
  | qualified modules name => exact .inl (lastSegment_qualified modules m).symm
  | dict hm =>
    have names : ∀ name ∈ ["Dict", "Mapping"],
        Container.ofName? (lastSegment name) = some .dict := by decide
    exact .inr ⟨.dict, .inl rfl, names m hm, by decide⟩
  | set hm =>
    have names : ∀ name ∈ ["Set", "frozenset", "FrozenSet"],
        Container.ofName? (lastSegment name) = some .set := by decide
    exact .inr ⟨.set, .inr rfl, names m hm, by decide⟩

end TypeHint

end ViewBridge.Classes

namespace ViewBridge.TypeTable

open Classes (TypeHint lastSegment)
open Classes.TypeHint

variable {t : TypeTable} {a b c : TypeHint} {as bs : List TypeHint}

/-- Hints that the mapping cannot tell apart, alone, as members of a union or at the end of a
tuple. -/
structure Interchangeable (t : TypeTable) (a b : TypeHint) : Prop where
  map : t.map a = t.map b
  members : t.members [a] = t.members [b]
  ellipsis : a = .ellipsis ↔ b = .ellipsis

namespace Interchangeable

theorem refl (a : TypeHint) : Interchangeable t a a := ⟨rfl, rfl, Iff.rfl⟩

theorem symm (h : Interchangeable t a b) : Interchangeable t b a :=
  ⟨h.map.symm, h.members.symm, h.ellipsis.symm⟩

theorem trans (h : Interchangeable t a b) (h' : Interchangeable t b c) : Interchangeable t a c :=
  ⟨h.map.trans h'.map, h.members.trans h'.members, h.ellipsis.trans h'.ellipsis⟩

theorem of_map (h : t.map a = t.map b) (ha : ¬a.IsOpen) (hb : ¬b.IsOpen)
    (none : a = .none ↔ b = .none) (ellipsis : a = .ellipsis ↔ b = .ellipsis) :
    Interchangeable t a b := by
  refine ⟨h, ?_, ellipsis⟩
  rw [members_self ha, members_self hb]
  by_cases hn : a = .none
  · rw [hn, none.mp hn]
  · have type : t.memberType a = some (t.map b) := memberType_eq_some.mpr ⟨hn, h⟩
    have type' : t.memberType b = some (t.map b) := memberType_eq_some.mpr ⟨mt none.mpr hn, rfl⟩
    rw [type, type']

theorem inside (h : Interchangeable t a b) (front rest : List TypeHint) :
    List.Forall₂ (Interchangeable t) (front ++ a :: rest) (front ++ b :: rest) := by
  induction front with
  | nil => exact .cons h (List.forall₂_same.mpr fun c _ => .refl c)
  | cons c front ih => exact .cons (.refl c) ih

end Interchangeable

section Lists

variable (h : List.Forall₂ (Interchangeable t) as bs)

include h

theorem mapAll_interchangeable : t.mapAll as = t.mapAll bs := by
  induction h with
  | nil => rfl
  | cons first _ ih => rw [mapAll, mapAll, first.map, ih]

theorem members_interchangeable : t.members as = t.members bs := by
  induction h with
  | nil => rfl
  | @cons a b as bs first _ ih => rw [members_cons a as, members_cons b bs, first.members, ih]

theorem isVariadic_interchangeable : isVariadic as = isVariadic bs := by
  rcases h with _ | ⟨_, _ | ⟨second, _ | _⟩⟩
  · rfl
  · rfl
  · have same := second.ellipsis
    unfold isVariadic
    split <;> split <;> simp_all
  · simp [isVariadic]

theorem interchangeable_subscript (base : String) :
    Interchangeable t (.subscript base as) (.subscript base bs) := by
  have map : t.map (.subscript base as) = t.map (.subscript base bs) := by
    rw [map, map, members_interchangeable h, mapAll_interchangeable h, isVariadic_interchangeable h]
  refine ⟨map, ?_, by simp⟩
  simp only [members, map, members_interchangeable h]

theorem interchangeable_listOf : Interchangeable t (.listOf as) (.listOf bs) := by
  refine .of_map ?_ id id (by simp) (by simp)
  rcases h with _ | ⟨first, _ | _⟩
  · rfl
  · exact congrArg Descriptor.list first.map
  · rfl

theorem interchangeable_union : Interchangeable t (.union as) (.union bs) := by
  have inside := members_interchangeable h
  refine ⟨?_, ?_, by simp⟩
  · rw [map_union, map_union, inside]
  · simp only [members, inside]

end Lists

section Names

variable {m n : String}

theorem not_isOpen_of_container {c : Container} {name : String} {args : List TypeHint}
    (h : Container.ofName? (lastSegment name) = some c) (hc : c ≠ .optional) :
    ¬(TypeHint.subscript name args).IsOpen := by
  intro opt
  rw [show lastSegment name = "Optional" from opt] at h
  exact hc (Option.some.inj h).symm

theorem interchangeable_name (h : SameName m n) : Interchangeable t (.name m) (.name n) := by
  refine .of_map ?_ id id (by simp) (by simp)
  rw [map.eq_def, map.eq_def]
  rcases h.cases_segment with same | ⟨c, hc, hm, hn⟩
  · simp only [same]
  · have bare {name : String} (h : Container.ofName? name = some c) : name ≠ "Any" := by
      rintro rfl
      cases h
    simp only [ofName, if_neg (bare hm), if_neg (bare hn), hm, hn]
    rcases hc with rfl | rfl <;> rfl

theorem interchangeable_base (h : SameName m n) (args : List TypeHint) :
    Interchangeable t (.subscript m args) (.subscript n args) := by
  rcases h.cases_segment with same | ⟨c, hc, hm, hn⟩
  · have map : t.map (.subscript m args) = t.map (.subscript n args) := by
      rw [map, map, same]
    refine ⟨map, ?_, by simp⟩
    simp only [members, same, map]
  · have plain : c ≠ .optional := by rcases hc with rfl | rfl <;> decide
    refine .of_map ?_ (not_isOpen_of_container hm plain) (not_isOpen_of_container hn plain)
      (by simp) (by simp)
    rw [map, map, hm, hn]
    -- the name of a dictionary or a set is not looked at any more
    rcases hc with rfl | rfl <;> rcases args with _ | ⟨_, _ | ⟨_, _ | _⟩⟩ <;> rfl

end Names

/-- Spellings are exchanged wherever a hint stands. -/
theorem interchangeable_of_respelled (h : Respelled a b) : Interchangeable t a b := by
  induction h with
  | @list name a hn =>
    have names : ∀ name ∈ ["list", "List", "Sequence"],
        Container.ofName? (lastSegment name) = some .list := by decide
    have list := names name hn
    refine .of_map ?_ id (not_isOpen_of_container list (by decide)) (by simp) (by simp)
    rw [map, map, list]
    rfl
  | name same => exact interchangeable_name same
  | base args same => exact interchangeable_base same args
  | argument base front rest _ ih => exact interchangeable_subscript (ih.inside front rest) base
  | item front rest _ ih => exact interchangeable_listOf (ih.inside front rest)
  | member front rest _ ih => exact interchangeable_union (ih.inside front rest)
  | refl a => exact .refl a
  | symm _ ih => exact ih.symm
  | trans _ _ ih ih' => exact ih.trans ih'

/-- However a hint is spelled, at any number of places, it stands for one type. -/
theorem map_respelled (t : TypeTable) {a b : TypeHint} (h : Respelled a b) :
    t.map a = t.map b ∧ (t.map a).spelled = (t.map b).spelled := by
  have map : t.map a = t.map b := (interchangeable_of_respelled h).map
  exact ⟨map, congrArg Descriptor.spelled map⟩

/-- A dictionary of lists of optional sets, respelled at each of its names but one. -/
theorem map_respelled_nested :
    let a : TypeHint := .subscript "typing.Mapping"
      [.name "str", .listOf [.subscript "Optional" [.subscript "FrozenSet" [.name "int"]]]]
    let b : TypeHint := .subscript "dict"
      [.name "builtins.str", .subscript "List" [.subscript "t.Optional" [.subscript "set" [.name "int"]]]]
    Respelled a b ∧ builtin.map a = builtin.map b ∧
      (builtin.map a).spelled = "[String: [Set<Int>?]]" ∧
      (builtin.map b).spelled = "[String: [Set<Int>?]]" := by
  intro a b
  have mapping : SameName "Mapping" "typing.Mapping" := .qualified "typing" "Mapping"
  have optional : SameName "Optional" "t.Optional" := .qualified "t" "Optional"
  have str : SameName "str" "builtins.str" := .qualified "builtins" "str"
  have set : Respelled (.subscript "FrozenSet" [.name "int"]) (.subscript "set" [.name "int"]) :=
    .base _ (.set (by simp))
  have inner : Respelled (.subscript "Optional" [.subscript "FrozenSet" [.name "int"]])
      (.subscript "t.Optional" [.subscript "set" [.name "int"]]) :=
    .trans (.argument _ [] [] set) (.base _ optional)
  have list : Respelled (.listOf [.subscript "Optional" [.subscript "FrozenSet" [.name "int"]]])
      (.subscript "List" [.subscript "t.Optional" [.subscript "set" [.name "int"]]]) :=
    .trans (.item [] [] inner) (.list _ (by simp))
  have same : Respelled a b :=
    .trans (.symm (.base _ mapping)) (.trans (.base _ (.dict (by simp)))
      (.trans (.argument _ [] [_] (.name str)) (.argument _ [_] [] list)))
  obtain ⟨map, spelled⟩ := map_respelled builtin same
  have text : (builtin.map a).spelled = "[String: [Set<Int>?]]" := by decide +kernel
  exact ⟨same, map, text, spelled ▸ text⟩

end ViewBridge.TypeTable
