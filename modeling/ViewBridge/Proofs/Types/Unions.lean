import Mathlib.Data.Set.Insert
import ViewBridge.Types.Mapping

namespace ViewBridge.Classes.TypeHint

open List

variable {P : TypeHint → Prop}

/-- What holds of a hint whenever it holds of all hints inside it holds of every hint. -/
@[elab_as_elim]
theorem induction (name : ∀ text, P (.name text))
    (subscript : ∀ base args, (∀ a ∈ args, P a) → P (.subscript base args))
    (listOf : ∀ items, (∀ a ∈ items, P a) → P (.listOf items))
    (union : ∀ members, (∀ a ∈ members, P a) → P (.union members)) (none : P .none)
    (forward : ∀ text, P (.forward text)) (ellipsis : P .ellipsis) (a : TypeHint) : P a :=
  @TypeHint.rec P (fun as => ∀ a ∈ as, P a) name subscript listOf union none forward ellipsis
    nofun (fun _ _ first others => forall_mem_cons.mpr ⟨first, others⟩) a

/-- Whether a hint is a union or an optional, which is a union with `None`. -/
def IsOpen : TypeHint → Prop
  | .union _ => True
  | .subscript base _ => lastSegment base = "Optional"
  | _ => False

/-- The members of a hint, which is a union of itself alone if it is no other union: unions and
optionals inside it are laid open. -/
inductive Member : TypeHint → TypeHint → Prop
  | self {a} : ¬a.IsOpen → Member a a
  | union {members a b} : a ∈ members → Member a b → Member (.union members) b
  | optional {base args a b} : lastSegment base = "Optional" → a ∈ args → Member a b →
      Member (.subscript base args) b
  | absent {base args} : lastSegment base = "Optional" → Member (.subscript base args) .none

/-- Two lists of members of a union that differ in their order, in how often a member stands there,
in how members are grouped into unions inside the union, or in the spelling of an optional. -/
inductive Rearranged : List TypeHint → List TypeHint → Prop
  | permuted {as bs} : as.Perm bs → Rearranged as bs
  | doubled {a as} : a ∈ as → Rearranged as (a :: as)
  | grouped (front inner rest) :
      Rearranged (front ++ inner ++ rest) (front ++ .union inner :: rest)
  | respelled (front) {base} (a) (rest) : lastSegment base = "Optional" →
      Rearranged (front ++ .subscript base [a] :: rest) (front ++ .union [a, .none] :: rest)
  | inside (front rest) {as bs} : Rearranged as bs →
      Rearranged (front ++ .union as :: rest) (front ++ .union bs :: rest)
  | symm {as bs} : Rearranged as bs → Rearranged bs as
  | trans {as bs cs} : Rearranged as bs → Rearranged bs cs → Rearranged as cs

variable {a b : TypeHint} {base : String} {as args : List TypeHint}

theorem member_union : Member (.union as) b ↔ ∃ a ∈ as, Member a b := by
  constructor
  · intro h
    cases h with
    | self closed => exact absurd trivial closed
    | union ha hb => exact ⟨_, ha, hb⟩
  · rintro ⟨a, ha, hb⟩
    exact .union ha hb

theorem member_optional (h : lastSegment base = "Optional") :
    Member (.subscript base args) b ↔ b = .none ∨ ∃ a ∈ args, Member a b := by
  constructor
  · intro hb
    cases hb with
    | self closed => exact absurd h closed
    | optional _ ha hb => exact .inr ⟨_, ha, hb⟩
    | absent => exact .inl rfl
  · rintro (rfl | ⟨a, ha, hb⟩)
    · exact .absent h
    · exact .optional h ha hb

theorem member_self (h : ¬a.IsOpen) : Member a b ↔ b = a := by
  constructor
  · intro hb
    cases hb with
    | self => rfl
    | union => exact absurd trivial h
    | optional opt => exact absurd opt h
    | absent opt => exact absurd opt h
  · rintro rfl
    exact .self h

theorem exists_mem_append_cons {front rest : List TypeHint} :
    (∃ x ∈ front ++ a :: rest, P x) ↔ (∃ x ∈ front, P x) ∨ P a ∨ ∃ x ∈ rest, P x := by
  simp only [mem_append, mem_cons, or_and_right, exists_or, exists_eq_left]

theorem Rearranged.member_iff {as bs : List TypeHint} (h : Rearranged as bs) (b : TypeHint) :
    Member (.union as) b ↔ Member (.union bs) b := by
  induction h with
  | permuted perm => simp only [member_union, perm.mem_iff]
  | @doubled a as ha =>
    rw [member_union, member_union]
    constructor
    · rintro ⟨x, hx, hb⟩
      exact ⟨x, mem_cons_of_mem a hx, hb⟩
    · rintro ⟨x, hx, hb⟩
      rcases mem_cons.mp hx with rfl | hx
      · exact ⟨x, ha, hb⟩
      · exact ⟨x, hx, hb⟩
  | grouped front inner rest =>
    rw [member_union, member_union, exists_mem_append_cons, member_union]
    simp only [mem_append, or_and_right, exists_or, or_assoc]
  | @respelled front base a rest opt =>
    have spelling : Member (.subscript base [a]) b ↔ Member (.union [a, .none]) b := by
      have none : Member .none b ↔ b = .none := member_self id
      rw [member_optional opt, member_union]
      simp [none, or_comm]
    rw [member_union, member_union, exists_mem_append_cons, exists_mem_append_cons, spelling]
  | inside front rest _ ih =>
    rw [member_union, member_union, exists_mem_append_cons, exists_mem_append_cons, ih]
  | symm _ ih => exact ih.symm
  | trans _ _ ih ih' => exact ih.trans ih'

end ViewBridge.Classes.TypeHint

namespace ViewBridge.Descriptor

/-- The types that occur in a type, at any depth. -/
inductive Part (d : Descriptor) : Descriptor → Prop
  | self : Part d d
  | list {e} : Part d e → Part d (.list e)
  | key {k v} : Part d k → Part d (.dict k v)
  | value {k v} : Part d v → Part d (.dict k v)
  | set {e} : Part d e → Part d (.set e)
  | item {e items} : e ∈ items → Part d e → Part d (.tuple items)
  | optional {e} : Part d e → Part d (.optional e)
  | arg {name e args} : e ∈ args → Part d e → Part d (.generic name args)

/-- No optional stands directly in an optional. -/
def OptionalOnce (d : Descriptor) : Prop := ∀ e, ¬Part (.optional (.optional e)) d

variable {d e : Descriptor}

theorem optionalOnce_scalar (name : String) : OptionalOnce (.scalar name) := nofun

theorem optionalOnce_unknown : OptionalOnce .unknown := nofun

theorem OptionalOnce.list (h : OptionalOnce d) : OptionalOnce (.list d) := by
  intro e part
  cases part with
  | list part => exact h e part

theorem OptionalOnce.set (h : OptionalOnce d) : OptionalOnce (.set d) := by
  intro e part
  cases part with
  | set part => exact h e part

theorem OptionalOnce.dict (h : OptionalOnce d) (h' : OptionalOnce e) :
    OptionalOnce (.dict d e) := by
  intro inner part
  cases part with
  | key part => exact h inner part
  | value part => exact h' inner part

theorem optionalOnce_tuple {items : List Descriptor} (h : ∀ d ∈ items, OptionalOnce d) :
    OptionalOnce (.tuple items) := by
  intro e part
  cases part with
  | item hm part => exact h _ hm e part

theorem optionalOnce_generic {args : List Descriptor} (h : ∀ d ∈ args, OptionalOnce d)
    (name : String) : OptionalOnce (.generic name args) := by
  intro e part
  cases part with
  | arg hm part => exact h _ hm e part

theorem OptionalOnce.makeOptional (h : OptionalOnce d) : OptionalOnce d.makeOptional := by
  have wrapped : (∀ e, d ≠ .optional e) → OptionalOnce (.optional d) := by
    intro plain e part
    cases part with
    | self => exact plain _ rfl
    | optional part => exact h e part
  cases d with
  | optional => exact h
  | _ => exact wrapped nofun

end ViewBridge.Descriptor

namespace ViewBridge.TypeTable

open List

open Classes (TypeHint lastSegment)
open Classes.TypeHint (Member IsOpen Rearranged member_union member_optional member_self)

variable {t : TypeTable} {a : TypeHint} {base : String} {as args bs : List TypeHint}
  {d : Descriptor} {x : Option Descriptor} {hasNone : Prop} {types : Set Descriptor}

theorem map_union (as : List TypeHint) : t.map (.union as) = t.ofUnion (t.members as) := rfl

def memberTypes (t : TypeTable) (a : TypeHint) : Set Descriptor :=
  {d | ∃ b, Member a b ∧ b ≠ .none ∧ t.map b = d}

section Members

/-- The type of a member of a union; `None` has none. -/
def memberType (t : TypeTable) : TypeHint → Option Descriptor
  | .none => none
  | b => some (t.map b)

theorem memberType_eq_none {b : TypeHint} : t.memberType b = none ↔ b = .none := by
  cases b <;> simp [memberType]

theorem memberType_eq_some {b : TypeHint} : t.memberType b = some d ↔ b ≠ .none ∧ t.map b = d := by
  cases b <;> simp [memberType]

theorem members_cons (a : TypeHint) (as : List TypeHint) :
    t.members (a :: as) = t.members [a] ++ t.members as := by
  cases a with
  | subscript base args =>
    simp only [members]
    split <;> simp
  | _ => simp [members]

theorem mem_members : x ∈ t.members as ↔ ∃ a ∈ as, x ∈ t.members [a] := by
  induction as with
  | nil => simp [members]
  | cons a as ih =>
    rw [members_cons, mem_append, ih]
    simp

theorem members_self (h : ¬a.IsOpen) : t.members [a] = [t.memberType a] := by
  cases a with
  | union => exact absurd trivial h
  | subscript base args =>
    have closed : lastSegment base ≠ "Optional" := h
    simp [members, memberType, closed]
  | _ => rfl

/-- The members of a union that the mapping collects are those of its hints, laid open. -/
theorem mem_members_singleton : x ∈ t.members [a] ↔ ∃ b, Member a b ∧ t.memberType b = x := by
  have closed : ∀ a : TypeHint, ¬a.IsOpen →
      (x ∈ t.members [a] ↔ ∃ b, Member a b ∧ t.memberType b = x) := by
    intro a h
    simp [members_self h, member_self h, eq_comm]
  induction a using TypeHint.induction with
  | union as ih =>
    have inner : t.members [.union as] = t.members as := by simp [members]
    rw [inner, mem_members]
    simp only [member_union]
    constructor
    · rintro ⟨a, ha, hx⟩
      obtain ⟨b, hb, eq⟩ := (ih a ha).mp hx
      exact ⟨b, ⟨a, ha, hb⟩, eq⟩
    · rintro ⟨b, ⟨a, ha, hb⟩, eq⟩
      exact ⟨a, ha, (ih a ha).mpr ⟨b, hb, eq⟩⟩
  | subscript base args ih =>
    by_cases h : lastSegment base = "Optional"
    · have inner : t.members [.subscript base args] = t.members args ++ [none] := by
        simp [members, h]
      rw [inner, mem_append, mem_singleton, mem_members]
      simp only [member_optional h]
      constructor
      · rintro (⟨a, ha, hx⟩ | rfl)
        · obtain ⟨b, hb, eq⟩ := (ih a ha).mp hx
          exact ⟨b, .inr ⟨a, ha, hb⟩, eq⟩
        · exact ⟨.none, .inl rfl, rfl⟩
      · rintro ⟨b, rfl | ⟨a, ha, hb⟩, eq⟩
        · exact .inr eq.symm
        · exact .inl ⟨a, ha, (ih a ha).mpr ⟨b, hb, eq⟩⟩
    · exact closed _ h
  | _ => exact closed _ id

theorem mem_members_iff : x ∈ t.members as ↔ ∃ b, Member (.union as) b ∧ t.memberType b = x := by
  have inner : t.members [.union as] = t.members as := by simp [members]
  rw [← inner, mem_members_singleton]

theorem mem_filterMap_members :
    d ∈ (t.members as).filterMap id ↔ d ∈ t.memberTypes (.union as) := by
  simp [mem_members_iff, memberType_eq_some, memberTypes]

theorem any_isNone_members : (t.members as).any (·.isNone) = true ↔ Member (.union as) .none := by
  simp [mem_members_iff, memberType_eq_none]

end Members

section NormalForm

theorem ne_of_eraseDups {types rest : List Descriptor} {e : Descriptor}
    (h : types.eraseDups = d :: e :: rest) : e ≠ d := by
  cases types with
  | nil => cases h
  | cons c types =>
    rw [eraseDups_cons, List.cons.injEq] at h
    obtain ⟨rfl, later⟩ := h
    -- Behind the first type only types other than it are left.
    have mem : e ∈ types.filter (fun b => !b == c) :=
      mem_eraseDups.mp (later ▸ mem_cons_self)
    simpa using (mem_filter.mp mem).2

/-- The type of a union by the set of the types of its members and by whether `None` is one. -/
inductive NormalForm (t : TypeTable) (types : Set Descriptor) (hasNone : Prop) : Descriptor → Prop
  | nothing : types = ∅ → NormalForm t types hasNone (t.scalar "None")
  | single {d : Descriptor} : types = {d} → ¬hasNone → NormalForm t types hasNone d
  | optional {d : Descriptor} : types = {d} → hasNone → NormalForm t types hasNone d.makeOptional
  | several {d e : Descriptor} : d ∈ types → e ∈ types → d ≠ e → NormalForm t types hasNone .unknown

theorem NormalForm.unique {e : Descriptor} (h : NormalForm t types hasNone d)
    (h' : NormalForm t types hasNone e) : d = e := by
  cases h with
  | nothing empty =>
    subst empty
    cases h' with
    | nothing => rfl
    | single one | optional one => exact absurd one.symm (Set.singleton_ne_empty _)
    | several hd => exact absurd hd (Set.notMem_empty _)
  | single one plain =>
    subst one
    cases h' with
    | nothing empty => exact absurd empty (Set.singleton_ne_empty _)
    | single one => exact Set.singleton_injective one
    | optional _ holds => exact absurd holds plain
    | several hd he ne => exact absurd (hd.trans he.symm) ne
  | optional one holds =>
    subst one
    cases h' with
    | nothing empty => exact absurd empty (Set.singleton_ne_empty _)
    | single _ plain => exact absurd holds plain
    | optional one => rw [Set.singleton_injective one]
    | several hd he ne => exact absurd (hd.trans he.symm) ne
  | several hd he ne =>
    cases h' with
    | nothing empty => exact absurd (empty ▸ hd) (Set.notMem_empty _)
    | single one | optional one =>
      rw [one] at hd he
      exact absurd (hd.trans he.symm) ne
    | several => rfl

theorem normalForm_ofMembers (t : TypeTable) (types : List Descriptor) (hasNone : Bool) :
    NormalForm t {d | d ∈ types} (hasNone = true) (t.ofMembers types hasNone) := by
  have same : ∀ d, d ∈ types.eraseDups ↔ d ∈ types := fun d => mem_eraseDups
  unfold ofMembers
  split
  next eq =>
    rw [eq] at same
    refine .nothing (Set.eq_empty_iff_forall_notMem.mpr fun d hd => ?_)
    exact not_mem_nil ((same d).mpr hd)
  next d eq =>
    rw [eq] at same
    have one : {e | e ∈ types} = {d} := Set.ext fun e => (same e).symm.trans mem_singleton
    split
    next holds => exact .optional one holds
    next plain => exact .single one plain
  next notNil notOne =>
    cases eq : types.eraseDups with
    | nil => exact absurd eq notNil
    | cons d rest =>
      cases rest with
      | nil => exact absurd eq (notOne d)
      | cons e rest =>
        rw [eq] at same
        exact .several ((same d).mp (by simp)) ((same e).mp (by simp)) (ne_of_eraseDups eq).symm

theorem normalForm_ofUnion (t : TypeTable) (as : List TypeHint) :
    NormalForm t (t.memberTypes (.union as)) (Member (.union as) .none)
      (t.ofUnion (t.members as)) := by
  have types : {d | d ∈ (t.members as).filterMap id} = t.memberTypes (.union as) :=
    Set.ext fun d => mem_filterMap_members
  have normal :=
    normalForm_ofMembers t ((t.members as).filterMap id) ((t.members as).any (·.isNone))
  rw [types, propext any_isNone_members] at normal
  exact normal

theorem map_union_congr (types : t.memberTypes (.union as) = t.memberTypes (.union bs))
    (none : Member (.union as) .none ↔ Member (.union bs) .none) :
    t.map (.union as) = t.map (.union bs) := by
  have first := normalForm_ofUnion t as
  have second := normalForm_ofUnion t bs
  rw [types, propext none] at first
  rw [map_union, map_union]
  exact first.unique second

end NormalForm

section OptionalOnce

open Descriptor

theorem mem_mapAll : d ∈ t.mapAll as ↔ ∃ a ∈ as, t.map a = d := by
  induction as with
  | nil => simp [mapAll]
  | cons a as ih => simp [mapAll, ih, eq_comm]

theorem optionalOnce_ofName (t : TypeTable) (name : String) : OptionalOnce (t.ofName name) := by
  unfold ofName
  split
  · exact optionalOnce_unknown
  · split
    · exact optionalOnce_unknown.list
    · exact optionalOnce_unknown.list
    · exact (optionalOnce_scalar _).dict optionalOnce_unknown
    · exact optionalOnce_unknown.set
    · exact optionalOnce_scalar _

theorem NormalForm.optionalOnce (h : NormalForm t types hasNone d)
    (inner : ∀ e ∈ types, OptionalOnce e) : OptionalOnce d := by
  cases h with
  | nothing => exact optionalOnce_scalar _
  | single one => exact inner _ (one ▸ rfl)
  | optional one => exact (inner _ (one ▸ rfl)).makeOptional
  | several => exact optionalOnce_unknown

theorem optionalOnce_ofContainer {name : String} {variadic : Bool} {container : Option Container}
    {types : List Descriptor} (all : ∀ d ∈ types, OptionalOnce d) :
    OptionalOnce (t.ofContainer name variadic container types) := by
  unfold ofContainer
  split
  · exact (all _ mem_cons_self).list
  · exact optionalOnce_unknown.list
  · exact (all _ mem_cons_self).dict (all _ (by simp))
  · exact (optionalOnce_scalar _).dict optionalOnce_unknown
  · exact (all _ mem_cons_self).set
  · exact optionalOnce_unknown.set
  · split
    · cases types with
      | nil => exact optionalOnce_unknown.list
      | cons => exact (all _ mem_cons_self).list
    · exact optionalOnce_tuple all
  · exact (all _ mem_cons_self).makeOptional
  · exact all _ mem_cons_self
  · exact optionalOnce_generic all _

theorem optionalOnce_subscript (ih : ∀ a ∈ args, OptionalOnce (t.map a))
    (members : ∀ d ∈ t.memberTypes (.union args), OptionalOnce d) :
    OptionalOnce (t.map (.subscript base args)) := by
  have all : ∀ d ∈ t.mapAll args, OptionalOnce d := by
    intro d hd
    obtain ⟨a, ha, rfl⟩ := mem_mapAll.mp hd
    exact ih a ha
  rw [map]
  split
  · exact (normalForm_ofUnion t _).optionalOnce members
  · exact optionalOnce_ofContainer all

/-- The mapping makes no optional of an optional, however deep. -/
theorem optionalOnce_map (t : TypeTable) (a : TypeHint) : OptionalOnce (t.map a) := by
  -- the members of a union lie deeper than the hints in it, so both are treated at once
  suffices both : OptionalOnce (t.map a) ∧ ∀ b, Member a b → OptionalOnce (t.map b) from both.1
  have closed : ∀ a, ¬IsOpen a → OptionalOnce (t.map a) →
      OptionalOnce (t.map a) ∧ ∀ b, Member a b → OptionalOnce (t.map b) := by
    intro a h once
    refine ⟨once, fun b hb => ?_⟩
    rwa [(member_self h).mp hb]
  have below : ∀ as : List TypeHint, (∀ a ∈ as, ∀ b, Member a b → OptionalOnce (t.map b)) →
      ∀ d ∈ t.memberTypes (.union as), OptionalOnce d := by
    rintro as ih d ⟨b, hb, _, rfl⟩
    obtain ⟨a, ha, hb⟩ := member_union.mp hb
    exact ih a ha b hb
  induction a using TypeHint.induction with
  | name text => exact closed _ id (optionalOnce_ofName t _)
  | subscript base args ih =>
    have once : OptionalOnce (t.map (.subscript base args)) :=
      optionalOnce_subscript (fun a ha => (ih a ha).1) (below args fun a ha => (ih a ha).2)
    by_cases h : lastSegment base = "Optional"
    · refine ⟨once, fun b hb => ?_⟩
      rcases (member_optional h).mp hb with rfl | ⟨a, ha, hb⟩
      · exact optionalOnce_scalar _
      · exact (ih a ha).2 b hb
    · exact closed _ h once
  | listOf items ih =>
    refine closed _ id ?_
    match items with
    | [a] => exact (ih a mem_cons_self).1.list
    | [] => exact optionalOnce_unknown.list
    | _ :: _ :: _ => exact optionalOnce_unknown.list
  | union members ih =>
    refine ⟨?_, fun b hb => ?_⟩
    · rw [map_union]
      exact (normalForm_ofUnion t members).optionalOnce (below members fun a ha => (ih a ha).2)
    · obtain ⟨a, ha, hb⟩ := member_union.mp hb
      exact (ih a ha).2 b hb
  | none => exact closed _ id (optionalOnce_scalar _)
  | forward text =>
    refine closed _ id ?_
    show OptionalOnce (if isDottedName text then t.ofName (lastSegment text) else .unknown)
    split
    · exact optionalOnce_ofName t _
    · exact optionalOnce_unknown
  | ellipsis => exact closed _ id optionalOnce_unknown

end OptionalOnce

theorem memberTypes_rearranged (h : Rearranged as bs) :
    t.memberTypes (.union as) = t.memberTypes (.union bs) := by
  simp only [memberTypes, h.member_iff]

/-- Every union has the normal form of the set of the types of its members. So it depends on this
set and on whether `None` is a member alone, and members may be permuted, doubled, grouped into
unions inside the union, or spelled as optionals. And no hint has a type in which an optional
stands directly in an optional. -/
theorem map_union_normal (t : TypeTable) :
    (∀ as, NormalForm t (t.memberTypes (.union as)) (Member (.union as) .none)
      (t.map (.union as))) ∧
    (∀ as bs, t.memberTypes (.union as) = t.memberTypes (.union bs) →
      (Member (.union as) .none ↔ Member (.union bs) .none) →
      t.map (.union as) = t.map (.union bs)) ∧
    (∀ as bs, Rearranged as bs → t.map (.union as) = t.map (.union bs)) ∧
    ∀ a d, ¬Descriptor.Part (.optional (.optional d)) (t.map a) := by
  refine ⟨fun as => ?_, fun as bs => map_union_congr, fun as bs h => ?_, optionalOnce_map t⟩
  · rw [map_union]
    exact normalForm_ofUnion t as
  · exact map_union_congr (memberTypes_rearranged h) (h.member_iff .none)

/-- A union with an optional, the same with the optional spelled as a union behind the rest, and the
same again with a member twice. -/
theorem map_union_normal_respelled :
    let first : List TypeHint := [.subscript "t.Optional" [.name "int"], .subscript "list" []]
    let second : List TypeHint := [.subscript "list" [], .union [.name "int", .none]]
    let third : List TypeHint := .subscript "list" [] :: second
    Rearranged first second ∧
      builtin.memberTypes (.union first) = builtin.memberTypes (.union second) ∧
      (Member (.union first) .none ↔ Member (.union second) .none) ∧
      builtin.map (.union first) = builtin.map (.union second) ∧
      Rearranged second third ∧ builtin.map (.union second) = builtin.map (.union third) := by
  intro first second third
  have optional : lastSegment "t.Optional" = "Optional" := by decide
  have respelled : Rearranged first [.union [.name "int", .none], .subscript "list" []] :=
    .respelled [] _ _ optional
  have rearranged : Rearranged first second := respelled.trans (.permuted (.swap ..))
  have types : builtin.memberTypes _ = _ := memberTypes_rearranged rearranged
  have absent := rearranged.member_iff .none
  have doubled : Rearranged second third := .doubled mem_cons_self
  obtain ⟨_, sameTypes, sameMembers, _⟩ := map_union_normal builtin
  exact ⟨rearranged, types, absent, sameTypes first second types absent, doubled,
    sameMembers second third doubled⟩

end ViewBridge.TypeTable
