namespace ViewBridge.Text

/-- Values by names, in the order of the names' characters. -/
structure Dictionary (α : Type) where
  entries : List (String × α)
  increasing : entries.Pairwise (fun x y => x.1 < y.1)

namespace Dictionary

variable {α : Type}

def empty : Dictionary α := ⟨[], .nil⟩

instance : Inhabited (Dictionary α) := ⟨empty⟩

instance [DecidableEq α] : DecidableEq (Dictionary α) := fun a b =>
  if h : a.entries = b.entries then .isTrue (by cases a; cases b; cases h; rfl)
  else .isFalse (fun e => h (e ▸ rfl))

def size (d : Dictionary α) : Nat := d.entries.length

def get? (d : Dictionary α) (name : String) : Option α :=
  (d.entries.find? (·.1 == name)).map (·.2)

/-- Puts a value at its place among ordered entries, over one of the same name. -/
def insertEntry (name : String) (value : α) : List (String × α) → List (String × α)
  | [] => [(name, value)]
  | entry :: entries =>
    if name < entry.1 then (name, value) :: entry :: entries
    else if name = entry.1 then (name, value) :: entries
    else entry :: insertEntry name value entries

theorem mem_insertEntry {name : String} {value : α} {entries : List (String × α)} {x : String × α}
    (h : x ∈ insertEntry name value entries) : x = (name, value) ∨ x ∈ entries := by
  induction entries with
  | nil => exact Or.inl (List.mem_singleton.mp h)
  | cons entry entries ih =>
    unfold insertEntry at h
    split at h
    · exact List.mem_cons.mp h
    · split at h
      · exact (List.mem_cons.mp h).imp_right (List.mem_cons_of_mem entry)
      · rcases List.mem_cons.mp h with rfl | h
        · exact Or.inr List.mem_cons_self
        · exact (ih h).imp_right (List.mem_cons_of_mem entry)

theorem insertEntry_increasing (name : String) (value : α) {entries : List (String × α)}
    (increasing : entries.Pairwise (fun x y => x.1 < y.1)) :
    (insertEntry name value entries).Pairwise (fun x y => x.1 < y.1) := by
  induction entries with
  | nil => exact List.pairwise_singleton _ _
  | cons entry entries ih =>
    have tail := List.pairwise_cons.mp increasing
    unfold insertEntry
    split
    next below =>
      refine List.pairwise_cons.mpr ⟨?_, increasing⟩
      intro x hx
      rcases List.mem_cons.mp hx with rfl | hx
      · exact below
      · exact String.lt_trans below (tail.1 x hx)
    next notBelow =>
      split
      next equal => exact List.pairwise_cons.mpr ⟨fun x hx => equal ▸ tail.1 x hx, tail.2⟩
      next different =>
        refine List.pairwise_cons.mpr ⟨?_, ih tail.2⟩
        intro x hx
        rcases mem_insertEntry hx with rfl | hx
        · apply Decidable.byContradiction
          intro notAbove
          exact different
            (String.le_antisymm (String.not_lt.mp notAbove) (String.not_lt.mp notBelow))
        · exact tail.1 x hx

/-- The dictionary with a value under a name, in place of the one that was there. -/
def insert (d : Dictionary α) (name : String) (value : α) : Dictionary α :=
  ⟨insertEntry name value d.entries, insertEntry_increasing name value d.increasing⟩

/-- The dictionary of a list of entries, of which the last under a name counts. -/
def ofList (entries : List (String × α)) : Dictionary α :=
  entries.foldl (fun d entry => d.insert entry.1 entry.2) empty

/-- The dictionary with all entries of another one put over its own. -/
def override (d other : Dictionary α) : Dictionary α :=
  other.entries.foldl (fun d entry => d.insert entry.1 entry.2) d

/-- The dictionary with a function applied to its values. -/
def mapValues {β : Type} (f : α → β) (d : Dictionary α) : Dictionary β :=
  ⟨d.entries.map fun entry => (entry.1, f entry.2),
    List.pairwise_map.mpr (d.increasing.imp fun h => h)⟩

end Dictionary

end ViewBridge.Text
