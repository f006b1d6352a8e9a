import ViewBridge.Proofs.Types.Unions

namespace ViewBridge.Classes.TypeHint

/-- Hints that start with an optional of none or of several hints, perhaps inside optionals. -/
inductive Misspelled : TypeHint → Prop
  | here {base args} : lastSegment base = "Optional" → args.length ≠ 1 →
      Misspelled (.subscript base args)
  | inside {base a} : lastSegment base = "Optional" → Misspelled a →
      Misspelled (.subscript base [a])

end ViewBridge.Classes.TypeHint

namespace ViewBridge.Descriptor

variable {d e : Descriptor}

theorem Part.makeOptional (h : Part d e) : Part d e.makeOptional := by
  cases e with
  | optional => exact h
  | _ => exact .optional h

theorem Part.sizeOf_le (h : Part d e) : sizeOf d ≤ sizeOf e := by
  induction h with
  | self => exact Nat.le_refl _
  | item hm _ ih =>
    have inside := List.sizeOf_lt_of_mem hm
    simp only [Descriptor.tuple.sizeOf_spec]
    omega
  | arg hm _ ih =>
    have inside := List.sizeOf_lt_of_mem hm
    simp only [Descriptor.generic.sizeOf_spec]
    omega
  | _ =>
    simp only [Descriptor.list.sizeOf_spec, Descriptor.dict.sizeOf_spec,
      Descriptor.set.sizeOf_spec, Descriptor.optional.sizeOf_spec]
    omega

theorem makeOptional_makeOptional (d : Descriptor) :
    d.makeOptional.makeOptional = d.makeOptional := by
  cases d <;> rfl

theorem exists_makeOptional (d : Descriptor) :
    ∃ e, d.makeOptional = .optional e ∧ sizeOf e ≤ sizeOf d := by
  cases d with
  | optional inner => exact ⟨inner, rfl, by simp⟩
  | _ => exact ⟨_, rfl, Nat.le_refl _⟩

end ViewBridge.Descriptor

namespace ViewBridge.TypeTable

open List

open Classes (TypeHint lastSegment)
open Classes.TypeHint

variable {t : TypeTable} {a : TypeHint} {base : String} {as args : List TypeHint} {d : Descriptor}

section Names

theorem map_unionName (h : lastSegment base = "Union") :
    t.map (.subscript base args) = t.ofUnion (t.members args) := by
  rw [map, h]
  rfl

theorem map_optional (h : lastSegment base = "Optional") (a : TypeHint) :
    t.map (.subscript base [a]) = (t.map a).makeOptional := by
  rw [map, h]
  rfl

theorem map_optional_of_length (h : lastSegment base = "Optional") (hl : args.length ≠ 1) :
    t.map (.subscript base args) = .generic (t.resolve "Optional") (t.mapAll args) := by
  rw [map, h]
  obtain _ | ⟨_, _ | _⟩ := args
  · rfl
  · exact absurd rfl hl
  · rfl

end Names

section MemberTypes

theorem memberTypes_self (h : ¬a.IsOpen) (hn : a ≠ .none) : t.memberTypes a = {t.map a} := by
  ext d
  simp [memberTypes, member_self h, hn, eq_comm]

theorem memberTypes_none : t.memberTypes .none = ∅ := by
  ext d
  simp [memberTypes, member_self (a := .none) id]

theorem mem_memberTypes_union : d ∈ t.memberTypes (.union as) ↔ ∃ a ∈ as, d ∈ t.memberTypes a := by
  constructor
  · rintro ⟨b, hb, found⟩
    obtain ⟨a, ha, hb⟩ := member_union.mp hb
    exact ⟨a, ha, b, hb, found⟩
  · rintro ⟨a, ha, b, hb, found⟩
    exact ⟨b, .union ha hb, found⟩

theorem memberTypes_optional (h : lastSegment base = "Optional") :
    t.memberTypes (.subscript base args) = t.memberTypes (.union args) := by
  ext d
  constructor
  · rintro ⟨b, hb, hn, found⟩
    rcases (member_optional h).mp hb with rfl | inner
    · exact absurd rfl hn
    · exact ⟨b, member_union.mpr inner, hn, found⟩
  · rintro ⟨b, hb, hn, found⟩
    exact ⟨b, (member_optional h).mpr (.inr (member_union.mp hb)), hn, found⟩

theorem memberTypes_singleton : t.memberTypes (.union [a]) = t.memberTypes a := by
  ext d
  simp [mem_memberTypes_union]

theorem memberTypes_withNone : t.memberTypes (.union [a, .none]) = t.memberTypes a := by
  ext d
  simp [mem_memberTypes_union, memberTypes_none]

theorem exists_memberTypes_eq (h : t.memberTypes (.union as) = {d}) :
    ∃ a ∈ as, t.memberTypes a = {d} := by
  have hd : d ∈ t.memberTypes (.union as) := h ▸ rfl
  obtain ⟨a, ha, hd⟩ := mem_memberTypes_union.mp hd
  refine ⟨a, ha, Set.eq_singleton_iff_unique_mem.mpr ⟨hd, fun e he => ?_⟩⟩
  have inside : e ∈ t.memberTypes (.union as) := mem_memberTypes_union.mpr ⟨a, ha, he⟩
  rw [h] at inside
  exact inside

end MemberTypes

section OneType

theorem NormalForm.eq_makeOptional {types : Set Descriptor} {hasNone : Prop}
    (h : NormalForm t types hasNone d.makeOptional) (holds : hasNone) :
    ∃ e, types = {e} ∧ d.makeOptional = e.makeOptional := by
  obtain ⟨inner, eq, _⟩ := d.exists_makeOptional
  generalize d.makeOptional = r at h eq
  cases h with
  | nothing => exact absurd eq nofun
  | single _ absent => exact absurd holds absent
  | @optional e one => exact ⟨e, one, rfl⟩
  | several => exact absurd eq nofun

theorem map_of_memberTypes (closed : ¬a.IsOpen) (h : t.memberTypes a = {d}) : t.map a = d := by
  have hn : a ≠ .none := by
    rintro rfl
    rw [memberTypes_none] at h
    exact Set.singleton_ne_empty d h.symm
  rw [memberTypes_self closed hn] at h
  exact Set.singleton_injective h

theorem map_union_of_memberTypes (h : t.memberTypes (.union as) = {d}) :
    t.map (.union as) = d ∨ t.map (.union as) = d.makeOptional := by
  have normal := normalForm_ofUnion t as
  rw [h] at normal
  rw [map_union]
  by_cases none : Member (.union as) .none
  · exact .inr (normal.unique (.optional rfl none))
  · exact .inl (normal.unique (.single rfl none))

theorem part_map (h : t.memberTypes a = {d}) : Descriptor.Part d (t.map a) := by
  have closed : ∀ a : TypeHint, ¬a.IsOpen → t.memberTypes a = {d} →
      Descriptor.Part d (t.map a) := by
    intro a ha h
    rw [map_of_memberTypes ha h]
    exact .self
  induction a using TypeHint.induction with
  | union as ih =>
    rcases map_union_of_memberTypes h with eq | eq
    · rw [eq]
      exact .self
    · rw [eq]
      exact Descriptor.Part.self.makeOptional
  | subscript base args ih =>
    by_cases opt : lastSegment base = "Optional"
    · rw [memberTypes_optional opt] at h
      obtain ⟨a, ha, one⟩ := exists_memberTypes_eq h
      have inner := ih a ha one
      by_cases length : args.length = 1
      · obtain ⟨b, rfl⟩ := length_eq_one_iff.mp length
        rw [mem_singleton.mp ha] at inner
        rw [map_optional opt]
        exact inner.makeOptional
      · rw [map_optional_of_length opt length]
        exact .arg (mem_mapAll.mpr ⟨a, ha, rfl⟩) inner
    · exact closed _ opt h
  | _ => exact closed _ id h

theorem makeOptional_map (h : t.memberTypes a = {d}) (spelled : ¬a.Misspelled) :
    (t.map a).makeOptional = d.makeOptional := by
  have closed : ∀ a : TypeHint, ¬a.IsOpen → t.memberTypes a = {d} →
      (t.map a).makeOptional = d.makeOptional := by
    intro a ha h
    rw [map_of_memberTypes ha h]
  induction a using TypeHint.induction with
  | union as ih =>
    rcases map_union_of_memberTypes h with eq | eq
    · rw [eq]
    · rw [eq, Descriptor.makeOptional_makeOptional]
  | subscript base args ih =>
    by_cases opt : lastSegment base = "Optional"
    · by_cases length : args.length = 1
      · obtain ⟨b, rfl⟩ := length_eq_one_iff.mp length
        rw [memberTypes_optional opt, memberTypes_singleton] at h
        rw [map_optional opt, Descriptor.makeOptional_makeOptional]
        exact ih b mem_cons_self h fun inner => spelled (.inside opt inner)
      · exact absurd (.here opt length) spelled
    · exact closed _ opt h
  | _ => exact closed _ id h

theorem makeOptional_map_ne (misspelled : a.Misspelled) (h : t.memberTypes a = {d}) :
    (t.map a).makeOptional ≠ d.makeOptional := by
  induction misspelled with
  | @here base args opt length =>
    rw [memberTypes_optional opt] at h
    obtain ⟨b, hb, one⟩ := exists_memberTypes_eq h
    have inside : t.map b ∈ t.mapAll args := mem_mapAll.mpr ⟨b, hb, rfl⟩
    have small := sizeOf_lt_of_mem inside
    have part := (part_map one).sizeOf_le
    obtain ⟨e, eq, bound⟩ := d.exists_makeOptional
    rw [map_optional_of_length opt length, eq]
    intro same
    have whole : Descriptor.generic (t.resolve "Optional") (t.mapAll args) = e :=
      Descriptor.optional.inj same
    have size : sizeOf (Descriptor.generic (t.resolve "Optional") (t.mapAll args)) = sizeOf e :=
      congrArg sizeOf whole
    simp only [Descriptor.generic.sizeOf_spec] at size
    omega
  | inside opt _ ih =>
    rw [memberTypes_optional opt, memberTypes_singleton] at h
    rw [map_optional opt, Descriptor.makeOptional_makeOptional]
    exact ih h

end OneType

/-- The spellings of an optional. Both unions with `None` and the name of a union have one type,
whatever the hint is. The optional by name has that type too exactly where the members of the hint
have one type among them and the hint is no misspelled optional. -/
theorem optional_spellings (t : TypeTable) (a : TypeHint) {optional union : String}
    (ho : lastSegment optional = "Optional") (hu : lastSegment union = "Union") :
    t.map (.subscript union [a, .none]) = t.map (.union [a, .none]) ∧
    t.map (.union [.none, a]) = t.map (.union [a, .none]) ∧
    (t.map (.subscript optional [a]) = t.map (.union [a, .none]) ↔
      (∃ d, t.memberTypes a = {d}) ∧ ¬a.Misspelled) := by
  have none : Member (.union [a, .none]) .none := .union (by simp) (.self id)
  have normal := normalForm_ofUnion t [a, .none]
  rw [memberTypes_withNone, ← map_union] at normal
  have swapped : Rearranged [.none, a] [a, .none] := .permuted (.swap ..)
  refine ⟨map_unionName hu, ?_, ?_⟩
  · exact map_union_congr (memberTypes_rearranged swapped) (swapped.member_iff .none)
  · rw [map_optional ho]
    constructor
    · intro same
      rw [← same] at normal
      obtain ⟨d, one, eq⟩ := normal.eq_makeOptional none
      exact ⟨⟨d, one⟩, fun misspelled => makeOptional_map_ne misspelled one eq⟩
    · rintro ⟨⟨d, one⟩, spelled⟩
      rw [makeOptional_map one spelled]
      exact (normal.unique (.optional one none)).symm

/-- An optional of a union of one type, in all its spellings. -/
theorem optional_spellings_doubled :
    let a : TypeHint := .union [.name "int", .subscript "Optional" [.name "int"]]
    lastSegment "typing.Optional" = "Optional" ∧ lastSegment "t.Union" = "Union" ∧
      builtin.memberTypes a = {.scalar "Int"} ∧ ¬a.Misspelled ∧
      builtin.map (.union [a, .none]) = .optional (.scalar "Int") ∧
      builtin.map (.subscript "t.Union" [a, .none]) = .optional (.scalar "Int") ∧
      builtin.map (.union [.none, a]) = .optional (.scalar "Int") ∧
      builtin.map (.subscript "typing.Optional" [a]) = .optional (.scalar "Int") := by
  intro a
  have optional : lastSegment "typing.Optional" = "Optional" := by decide
  have union : lastSegment "t.Union" = "Union" := by decide
  have int : builtin.memberTypes (.name "int") = {.scalar "Int"} := memberTypes_self id nofun
  have inner : builtin.memberTypes (.subscript "Optional" [.name "int"]) = {.scalar "Int"} := by
    rw [memberTypes_optional (by decide), memberTypes_singleton, int]
  have types : builtin.memberTypes a = {.scalar "Int"} := by
    ext d
    rw [mem_memberTypes_union]
    simp [int, inner]
  have spelled : ¬Misspelled (.union [.name "int", .subscript "Optional" [.name "int"]]) := nofun
  have type : builtin.map (.union [a, .none]) = .optional (.scalar "Int") := by decide
  obtain ⟨named, swapped, same⟩ := optional_spellings builtin a optional union
  have byName := same.mpr ⟨⟨_, types⟩, spelled⟩
  exact ⟨optional, union, types, spelled, type, named.trans type, swapped.trans type,
    byName.trans type⟩

/-- The optional of a union of two types, and the optional of `None`, have another type by name than
as a union with `None`. -/
theorem optional_spellings_differ :
    let several : TypeHint := .union [.name "int", .name "str"]
    builtin.map (.subscript "Optional" [several]) = .optional .unknown ∧
      builtin.map (.union [several, .none]) = .unknown ∧
      builtin.map (.subscript "Optional" [.none]) = .optional (.scalar "Void") ∧
      builtin.map (.union [.none, .none]) = .scalar "Void" := by
  decide +kernel

end ViewBridge.TypeTable
