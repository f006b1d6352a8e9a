import Mathlib.Data.List.Forall2
import Mathlib.Data.List.Nodup
import ViewBridge.Types.Mapping

namespace ViewBridge.Literal

open List

/-- What holds of a value whenever it holds of all values inside it holds of every value. -/
@[elab_as_elim]
theorem induction {P : Literal → Prop} (string : ∀ text, P (.string text))
    (integer : ∀ i, P (.integer i)) (float : ∀ f, P (.float f)) (bool : ∀ b, P (.bool b))
    (name : ∀ text, P (.name text)) (list : ∀ items, (∀ v ∈ items, P v) → P (.list items))
    (tuple : ∀ items, (∀ v ∈ items, P v) → P (.tuple items))
    (call : ∀ callee args, (∀ v ∈ args, P v) → P (.call callee args))
    (expression : ∀ text, P (.expression text)) (v : Literal) : P v :=
  @Literal.rec P (fun vs => ∀ v ∈ vs, P v) string integer float bool name list tuple call expression
    (forall_mem_nil P) (fun _ _ first others => forall_mem_cons.mpr ⟨first, others⟩) v

def scalarName? : Literal → Option String
  | .string _ => some "str"
  | .integer _ => some "int"
  | .float _ => some "float"
  | .bool _ => some "bool"
  | _ => none

/-- The item of a list that stands for all of them in its type: a double if there is one among
numbers, or else the first. Mixed items have none. -/
def sample? (items : List Literal) : Option Literal :=
  if isHomogeneous items then (items.find? (·.kind == .float)).or items.head? else none

/-- Whether a value may stand where a sample of its type stands: a scalar of the same sort, or an
integer for a double, a list whose items fit the sample of the other's, or a tuple whose items fit
one by one. A name, a call or an expression tells nothing of its type. -/
inductive Fits : Literal → Literal → Prop
  | untyped {sample v} : sample.scalarName? = none → sample.items? = none → Fits sample v
  | scalar {sample v name} : sample.scalarName? = some name → v.scalarName? = some name →
      Fits sample v
  | widened (f i) : Fits (.float f) (.integer i)
  | list {samples items} : (∀ s ∈ sample? samples, ∀ v ∈ items, Fits s v) →
      Fits (.list samples) (.list items)
  | tuple {samples items} : List.Forall₂ Fits samples items → Fits (.tuple samples) (.tuple items)

/-- Whether the lists of a value that hold lists or tuples are even: each item has the form of the
one that stands for all of them. -/
inductive Even : Literal → Prop
  | single {v} : v.items? = none → Even v
  | list {items} : (∀ s ∈ sample? items, s.items?.isSome → ∀ v ∈ items, Fits s v) →
      Even (.list items)
  | tuple {items} : (∀ v ∈ items, Even v) → Even (.tuple items)

section Samples

variable {items : List Literal} {s v : Literal}

theorem sequenceKind_eq_of_isHomogeneous (h : isHomogeneous items = true) (hs : s ∈ items)
    (hv : v ∈ items) : v.sequenceKind = s.sequenceKind := by
  cases items with
  | nil => cases hs
  | cons first others =>
    have same : ∀ u ∈ first :: others, u.sequenceKind = first.sequenceKind := by
      intro u hu
      rcases mem_cons.mp hu with rfl | hu
      · rfl
      · exact eq_of_beq (all_eq_true.mp h u hu)
    exact (same v hv).trans (same s hs).symm

theorem isHomogeneous_of_sample (h : s ∈ sample? items) : isHomogeneous items = true := by
  unfold sample? at h
  split at h
  next homogeneous => exact homogeneous
  next => cases h

theorem sample_cases (h : s ∈ sample? items) :
    s ∈ items ∧ (s.kind = .float ∨ ∀ v ∈ items, v.kind ≠ .float) := by
  rw [sample?, if_pos (isHomogeneous_of_sample h), Option.mem_def] at h
  rcases Option.or_eq_some_iff.mp h with found | ⟨none, first⟩
  · have float := find?_some found
    exact ⟨mem_of_find?_eq_some found, .inl (eq_of_beq float)⟩
  · refine ⟨mem_of_mem_head? first, .inr fun v hv float => ?_⟩
    have absent := find?_eq_none.mp none v hv
    rw [float] at absent
    exact absent rfl

/-- A sample that holds no items is fitted by every item of its list. -/
theorem fits_sample (h : s ∈ sample? items) (single : s.items? = none) (hv : v ∈ items) :
    Fits s v := by
  obtain ⟨hs, float⟩ := sample_cases h
  have kinds := sequenceKind_eq_of_isHomogeneous (isHomogeneous_of_sample h) hs hv
  cases s with
  | string =>
    cases v with
    | string => exact .scalar rfl rfl
    | _ => cases kinds
  | bool =>
    cases v with
    | bool => exact .scalar rfl rfl
    | _ => cases kinds
  | integer =>
    cases v with
    | integer => exact .scalar rfl rfl
    | float =>
      rcases float with float | absent
      · cases float
      · exact absurd rfl (absent _ hv)
    | _ => cases kinds
  | float =>
    cases v with
    | integer => exact .widened _ _
    | float => exact .scalar rfl rfl
    | _ => cases kinds
  | name => exact .untyped rfl rfl
  | call => exact .untyped rfl rfl
  | expression => exact .untyped rfl rfl
  | list => cases single
  | tuple => cases single

end Samples

theorem fits_list {samples items : List Literal} :
    Fits (.list samples) (.list items) ↔ ∀ s ∈ sample? samples, ∀ v ∈ items, Fits s v := by
  constructor
  · intro h
    cases h with
    | untyped _ single => cases single
    | scalar name => cases name
    | list h => exact h
  · exact .list

theorem fits_tuple {samples items : List Literal} :
    Fits (.tuple samples) (.tuple items) ↔ List.Forall₂ Fits samples items := by
  constructor
  · intro h
    cases h with
    | untyped _ single => cases single
    | scalar name => cases name
    | tuple h => exact h
  · exact .tuple

theorem fits_self_single {v : Literal} (h : v.items? = none) : Fits v v := by
  cases name : v.scalarName? with
  | none => exact .untyped name h
  | some => exact .scalar name name

theorem fits_self_iff (v : Literal) : Fits v v ↔ Even v := by
  induction v using Literal.induction with
  | string | integer | float | bool | name | call | expression =>
    exact iff_of_true (fits_self_single rfl) (.single rfl)
  | list items =>
    rw [fits_list]
    constructor
    · exact fun h => .list fun s hs _ => h s hs
    · intro h s hs v hv
      cases h with
      | single single => cases single
      | list even =>
        cases single : s.items? with
        | none => exact fits_sample hs single hv
        | some => exact even s hs (by rw [single]; rfl) v hv
  | tuple items ih =>
    rw [fits_tuple, List.forall₂_same]
    constructor
    · exact fun h => .tuple fun v hv => (ih v hv).mp (h v hv)
    · intro h v hv
      cases h with
      | single single => cases single
      | tuple even => exact (ih v hv).mpr (even v hv)

end ViewBridge.Literal

namespace ViewBridge.TypeTable

open List

open Literal (Fits sample?)

/-- Whether a value is of a type: every value is of the unknown type, a scalar of the type that it
shows by itself, an integer of the type of doubles too, and lists and tuples item by item. -/
inductive Conforms (t : TypeTable) : Literal → Descriptor → Prop
  | unknown (v) : Conforms t v .unknown
  | scalar {v name} : t.infer v = .scalar name → Conforms t v (.scalar name)
  | widened (i) {name} : name = t.resolve "float" → Conforms t (.integer i) (.scalar name)
  | list {items d} : (∀ v ∈ items, Conforms t v d) → Conforms t (.list items) (.list d)
  | tuple {items ds} : List.Forall₂ (Conforms t) items ds → Conforms t (.tuple items) (.tuple ds)

def scalarNames : List String := ["str", "int", "float", "bool"]

/-- Whether the table tells the types of scalar values apart. -/
def Distinguishes (t : TypeTable) : Prop := (scalarNames.map t.resolve).Nodup

instance (t : TypeTable) : Decidable t.Distinguishes := inferInstanceAs (Decidable (List.Nodup _))

variable {t : TypeTable} {v sample : Literal} {name : String}

theorem infer_scalar (h : v.scalarName? = some name) : t.infer v = .scalar (t.resolve name) := by
  cases v <;> cases h <;> simp only [infer, scalar]

theorem infer_untyped (h : v.scalarName? = none) (single : v.items? = none) :
    t.infer v = .unknown := by
  cases v with
  | name | call | expression => simp only [infer]
  | string | integer | float | bool => cases h
  | list | tuple => cases single

theorem infer_list (items : List Literal) :
    t.infer (.list items) = .list (((sample? items).map t.infer).getD .unknown) := by
  cases items with
  | nil => simp [infer, sample?, Literal.isHomogeneous]
  | cons first others =>
    rw [infer, sample?]
    split
    next =>
      cases found : (first :: others).find? (·.kind == .float) with
      | none =>
        rw [if_neg (by simpa using found)]
        rfl
      | some s =>
        have float := find?_some found
        have name : s.scalarName? = some "float" := by
          cases s with
          | float => rfl
          | _ => cases float
        rw [if_pos (any_eq_true.mpr ⟨s, mem_of_find?_eq_some found, float⟩)]
        simp [infer_scalar name, scalar]
    next => rfl

theorem inferAll_eq_map (vs : List Literal) : t.inferAll vs = vs.map t.infer := by
  induction vs with
  | nil => rfl
  | cons v vs ih => rw [inferAll, ih, map_cons]

theorem scalarName_of_infer {target : String} (h : t.infer v = .scalar target) :
    ∃ name, v.scalarName? = some name ∧ t.resolve name = target := by
  cases name : v.scalarName? with
  | some name =>
    rw [infer_scalar name] at h
    exact ⟨_, rfl, Descriptor.scalar.inj h⟩
  | none =>
    exfalso
    cases v with
    | list items =>
      rw [infer_list] at h
      cases h
    | tuple items =>
      rw [infer] at h
      cases h
    | string | integer | float | bool => cases name
    | name | call | expression =>
      rw [infer_untyped rfl rfl] at h
      cases h

theorem mem_scalarNames (h : v.scalarName? = some name) : name ∈ scalarNames := by
  cases v <;> cases h <;> decide

theorem Distinguishes.injective (h : t.Distinguishes) {a b : String} (ha : a ∈ scalarNames)
    (hb : b ∈ scalarNames) (eq : t.resolve a = t.resolve b) : a = b :=
  inj_on_of_nodup_map h ha hb eq

theorem exists_float (h : v.scalarName? = some "float") : ∃ f, v = .float f := by
  cases v with
  | float f => exact ⟨f, rfl⟩
  | _ => simp [Literal.scalarName?] at h

theorem conforms_scalar_iff (distinct : t.Distinguishes) (hs : sample.scalarName? = some name) :
    t.Conforms v (.scalar (t.resolve name)) ↔ Fits sample v := by
  have known := mem_scalarNames hs
  constructor
  · intro h
    generalize eq : t.resolve name = target at h
    cases h with
    | scalar own =>
      obtain ⟨name', hv, eq'⟩ := scalarName_of_infer own
      have same := distinct.injective (mem_scalarNames hv) known (eq'.trans eq.symm)
      exact .scalar hs (same ▸ hv)
    | widened i float =>
      obtain rfl := distinct.injective known (by decide) (eq.trans float)
      obtain ⟨f, rfl⟩ := exists_float hs
      exact .widened f i
  · intro h
    cases h with
    | untyped none => cases none.symm.trans hs
    | scalar hs' hv =>
      obtain rfl := Option.some.inj (hs.symm.trans hs')
      exact .scalar (infer_scalar hv)
    | widened f i =>
      cases hs
      exact .widened i rfl
    | list => cases hs
    | tuple => cases hs

theorem forall₂_map_iff {α β γ : Type} {R : α → γ → Prop} {S : β → α → Prop} {f : β → γ} {bs : List β}
    (h : ∀ b ∈ bs, ∀ a, R a (f b) ↔ S b a) (as : List α) :
    List.Forall₂ R as (bs.map f) ↔ List.Forall₂ S bs as := by
  induction bs generalizing as with
  | nil => simp
  | cons b bs ih =>
    obtain ⟨first, others⟩ := forall_mem_cons.mp h
    cases as with
    | nil => simp
    | cons a as => simp only [map_cons, List.forall₂_cons, first, ih others]

/-- A value is of the type that a sample shows exactly if it fits the sample. -/
theorem conforms_infer_iff (distinct : t.Distinguishes) (sample v : Literal) :
    t.Conforms v (t.infer sample) ↔ Fits sample v := by
  induction sample using Literal.induction generalizing v with
  | string | integer | float | bool =>
    rw [infer_scalar rfl]
    exact conforms_scalar_iff distinct rfl
  | name | call | expression =>
    rw [infer_untyped rfl rfl]
    exact iff_of_true (.unknown v) (.untyped rfl rfl)
  | list samples ih =>
    rw [infer_list]
    have items {us : List Literal} : (∀ u ∈ us,
        t.Conforms u (((sample? samples).map t.infer).getD .unknown)) ↔
          ∀ s ∈ sample? samples, ∀ u ∈ us, Fits s u := by
      cases hs : sample? samples with
      | none => exact iff_of_true (fun u _ => .unknown u) (fun s none => by cases none)
      | some s =>
        have inside := (Literal.sample_cases hs).1
        simp [ih s inside]
    constructor
    · intro h
      cases h with
      | list h => exact .list (items.mp h)
    · intro h
      cases h with
      | untyped _ single => cases single
      | scalar name => cases name
      | list h => exact .list (items.mpr h)
  | tuple samples ih =>
    rw [infer, inferAll_eq_map]
    constructor
    · intro h
      cases h with
      | tuple h => exact .tuple ((forall₂_map_iff ih _).mp h)
    · intro h
      cases h with
      | untyped _ single => cases single
      | scalar name => cases name
      | tuple h => exact .tuple ((forall₂_map_iff ih _).mpr h)

/-- Under every table that tells scalars apart, a value is of the type that it shows exactly if its
lists of lists and of tuples are even. -/
theorem infer_conforms_iff_even (distinct : t.Distinguishes) (v : Literal) :
    t.Conforms v (t.infer v) ↔ v.Even :=
  (conforms_infer_iff distinct v v).trans (Literal.fits_self_iff v)

/-- A tuple of a list of lists of integers, one of them empty, and a list that mixes lists and
strings. -/
theorem infer_conforms_iff_even_nested :
    let lists : List Literal := [.list [.integer 1], .list [], .list [.integer 2, .integer 3]]
    let v : Literal := .tuple [.list lists, .list [.list [.integer 1], .string "a"]]
    builtin.Distinguishes ∧ v.Even ∧ builtin.Conforms v (builtin.infer v) := by
  intro lists v
  have distinct : builtin.Distinguishes := by decide
  have integers : ∀ items : List Literal, (∀ u ∈ items, u.scalarName? = some "int") →
      Fits (.list [.integer 1]) (.list items) := by
    intro items h
    refine .list ?_
    rintro _ ⟨⟩ u hu
    exact .scalar rfl (h u hu)
  have even : Literal.Even (.list lists) := by
    refine .list ?_
    rintro _ ⟨⟩ _ u hu
    simp only [lists, mem_cons, not_mem_nil, or_false] at hu
    rcases hu with rfl | rfl | rfl <;> exact integers _ (by decide)
  have mixed : Literal.Even (.list [.list [.integer 1], .string "a"]) := by
    refine .list ?_
    rintro _ ⟨⟩
  have whole : v.Even :=
    .tuple (forall_mem_cons.mpr ⟨even, forall_mem_singleton.mpr mixed⟩)
  exact ⟨distinct, whole, (infer_conforms_iff_even distinct v).mpr whole⟩

/-- A list of a list of integers and a list of strings has the type of lists of lists of integers,
which it is not of. -/
theorem infer_list_of_uneven_lists :
    let v : Literal := .list [.list [.integer 1], .list [.string "a"]]
    builtin.Distinguishes ∧ builtin.infer v = .list (.list (.scalar "Int")) ∧
      ¬builtin.Conforms v (builtin.infer v) := by
  intro v
  have type : builtin.infer v = .list (.list (.scalar "Int")) := by decide
  refine ⟨by decide, type, fun conforms => ?_⟩
  have h : builtin.Conforms (.list [.list [.integer 1], .list [.string "a"]])
      (.list (.list (.scalar "Int"))) := type ▸ conforms
  cases h with
  | list inner =>
    cases inner (.list [.string "a"]) (mem_cons_of_mem _ mem_cons_self) with
    | list items =>
      cases items (.string "a") mem_cons_self with
      | scalar own => exact absurd own (by decide)

end ViewBridge.TypeTable
