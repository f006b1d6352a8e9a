import Mathlib.Algebra.Group.Nat.Defs
import ViewBridge.Config.Document
import ViewBridge.Proofs.Json.Reread

namespace ViewBridge.Text.Dictionary

open List

variable {α : Type} {entries : List (String × α)}

theorem insertEntry_last {name : String} (h : ∀ entry ∈ entries, entry.1 < name) (value : α) :
    insertEntry name value entries = entries ++ [(name, value)] := by
  induction entries with
  | nil => rfl
  | cons entry entries ih =>
    obtain ⟨above, rest⟩ := forall_mem_cons.mp h
    have notBelow : ¬name < entry.1 := String.lt_asymm above
    have different : name ≠ entry.1 := (String.ne_of_lt above).symm
    rw [insertEntry, if_neg notBelow, if_neg different, ih rest, cons_append]

theorem entries_foldl_insert {d : Dictionary α}
    (h : (d.entries ++ entries).Pairwise (fun x y => x.1 < y.1)) :
    (entries.foldl (fun d entry => d.insert entry.1 entry.2) d).entries = d.entries ++ entries := by
  induction entries generalizing d with
  | nil => rw [foldl_nil, append_nil]
  | cons entry entries ih =>
    have below : ∀ other ∈ d.entries, other.1 < entry.1 :=
      fun other hm => (pairwise_append.mp h).2.2 other hm entry mem_cons_self
    have inserted : (d.insert entry.1 entry.2).entries = d.entries ++ [entry] :=
      insertEntry_last below entry.2
    have split : d.entries ++ entry :: entries = (d.entries ++ [entry]) ++ entries := by simp
    rw [foldl_cons, ih (by rwa [inserted, ← split]), inserted, split]

theorem ofList_entries (d : Dictionary α) : ofList d.entries = d := by
  have same : (ofList d.entries).entries = d.entries := entries_foldl_insert d.increasing
  obtain ⟨entries, increasing⟩ := d
  generalize ofList entries = e at same
  obtain ⟨others, _⟩ := e
  cases same
  rfl

end ViewBridge.Text.Dictionary

namespace ViewBridge

open List

namespace Codec

variable {δ : Type} (codec : Codec δ)

/-- The documents that values are made into: words of the machine, flags, texts, names of choices, and
maps and structures whose keys are distinct. -/
inductive Written : δ → Prop
  | natural {n : Nat} : n < 2 ^ 64 → Written (codec.natural n)
  | flag (b : Bool) : Written (codec.flag b)
  | text (s : String) : Written (codec.text s)
  | variant (name : String) : Written (codec.variant name)
  | map {entries : List (String × δ)} : (entries.map Prod.fst).Nodup →
      (∀ entry ∈ entries, Written entry.2) → Written (codec.map entries)
  | struct {fields : List (String × δ)} : (fields.map Prod.fst).Nodup →
      (∀ field ∈ fields, Written field.2) → Written (codec.struct fields)

/-- What is taken for granted about a format: a document is parsed from its own text, and each kind of
value is taken out of the document that it was made into. -/
structure Documented : Prop where
  parse_pretty {d : δ} : codec.Written d → ∃ text, codec.pretty d = some text ∧ codec.parse text = some d
  natural {n : Nat} : n < 2 ^ 64 → codec.natural? (codec.natural n) = some n
  flag (b : Bool) : codec.flag? (codec.flag b) = some b
  text (s : String) : codec.text? (codec.text s) = some s
  variant {names : List String} {name : String} : name ∈ names →
    codec.variant? names (codec.variant name) = some name
  map {entries : List (String × δ)} : (entries.map Prod.fst).Nodup →
    codec.map? (codec.map entries) = some entries
  struct {fields : List (String × δ)} : (fields.map Prod.fst).Nodup →
    ∃ value, codec.struct? (fields.map Prod.fst) (codec.struct fields) = some value ∧
      ∀ field ∈ fields, value field.1 = some field.2

end Codec

theorem ClassStyle.ofName?_name (style : ClassStyle) : ofName? style.name = some style := by
  cases style <;> rfl

namespace Config

section Codec

variable {δ : Type} {codec : Codec δ} (documented : codec.Documented)

theorem nodup_keys (d : Text.Dictionary String) :
    ((d.entries.map fun entry => (entry.1, codec.text entry.2)).map Prod.fst).Nodup := by
  rw [map_map]
  exact pairwise_map.mpr (d.increasing.imp String.ne_of_lt)

include documented

theorem decodeNames?_encodeNames (d : Text.Dictionary String) :
    decodeNames? codec (encodeNames codec d) = some d := by
  have texts (entries : List (String × String)) :
      (entries.map fun entry => (entry.1, codec.text entry.2)).mapM
        (fun entry => (codec.text? entry.2).map (entry.1, ·)) = some entries := by
    induction entries with
    | nil => rfl
    | cons entry entries ih =>
      rw [map_cons, mapM_cons, ih, documented.text]
      rfl
  rw [decodeNames?, encodeNames, documented.map (nodup_keys d)]
  simp [texts, Text.Dictionary.ofList_entries]

theorem decodeStyle?_name (style : ClassStyle) :
    decodeStyle? codec (codec.variant style.name) = some style := by
  have named : style.name ∈ ClassStyle.names := by cases style <;> decide
  rw [decodeStyle?, documented.variant named]
  exact style.ofName?_name

omit documented in
theorem written_struct {c : Config} (h : c.indentWidth < 2 ^ 64) :
    codec.Written (codec.struct (c.fields codec)) := by
  have names (d : Text.Dictionary String) : codec.Written (encodeNames codec d) := by
    refine .map (nodup_keys d) fun entry hm => ?_
    obtain ⟨entry, _, rfl⟩ := mem_map.mp hm
    exact .text entry.2
  refine .struct (show fieldNames.Nodup by decide) ?_
  simp only [fields, forall_mem_cons]
  exact ⟨.natural h, .flag _, .flag _, .flag _, .variant _, names _, names _, nofun⟩

theorem decode?_struct {c : Config} (h : c.indentWidth < 2 ^ 64) :
    decode? codec (codec.struct (c.fields codec)) = some c := by
  have distinct : ((c.fields codec).map Prod.fst).Nodup := show fieldNames.Nodup by decide
  obtain ⟨value, found, values⟩ := documented.struct distinct
  change codec.struct? fieldNames _ = _ at found
  simp only [fields, forall_mem_cons] at values
  obtain ⟨width, comments, structs, properties, style, widgets, types, _⟩ := values
  simp [decode?, found, width, comments, structs, properties, style, widgets, types, given,
    documented.natural h, documented.flag, decodeStyle?_name documented,
    decodeNames?_encodeNames documented]

end Codec

end Config

namespace Json

theorem Exact.of_written {j : Json} (h : codec.Written j) : j.Exact := by
  induction h with
  | natural => exact .natural _
  | flag b => exact .bool b
  | text s | variant s => exact .text s
  | map _ _ ih | struct _ _ ih => exact .record ih

theorem entries?_record (entries : List (String × Json)) :
    entries? (entries.map fun entry => (some entry.1, entry.2)) = some entries := by
  induction entries with
  | nil => rfl
  | cons entry entries ih =>
    unfold entries? at ih ⊢
    rw [map_cons, mapM_cons, ih]
    rfl

theorem lookup_of_mem {fields : List (String × Json)} {field : String × Json}
    (distinct : (fields.map Prod.fst).Nodup) (hm : field ∈ fields) :
    fields.lookup field.1 = some field.2 := by
  induction fields with
  | nil => cases hm
  | cons first fields ih =>
    obtain ⟨fresh, distinct⟩ := nodup_cons.mp distinct
    rcases mem_cons.mp hm with rfl | hm
    · exact lookup_cons_self
    · have other : (field.1 == first.1) = false :=
        beq_false_of_ne fun eq => fresh (eq ▸ mem_map_of_mem hm)
      rw [lookup_cons, other]
      exact ih distinct hm

/-- JSON keeps to what is told of a format. -/
theorem documented_codec : codec.Documented where
  parse_pretty h := ⟨_, rfl, read?_write spaced_prettyLayout (.of_written h) 0⟩
  natural h := if_pos h
  flag _ := rfl
  text _ := rfl
  variant h := if_pos (contains_iff_mem.mpr h)
  map _ := entries?_record _
  struct := by
    intro fields distinct
    have known : fields.filter (fun field => (fields.map Prod.fst).contains field.1) = fields :=
      filter_eq_self.mpr fun field hm => contains_iff_mem.mpr (mem_map_of_mem hm)
    refine ⟨(fields.lookup ·), ?_, fun field hm => ?_⟩
    · simp only [codec, record, struct?, entries?_record, bind, Option.bind, known]
      exact if_pos distinct
    · exact lookup_of_mem distinct hm

end Json

namespace Config

/-- The widest configuration, with marks, controls and far characters in its names. -/
def oddConfig : Config where
  indentWidth := 2 ^ 64 - 1
  includeComments := false
  classStyle := .wrapper
  widgets := .ofList
    [("\"\\/\n\u0001\u001f\u007f", ""), ("", "\u2028\r\t\u0008\u000c"), ("\x7d", "]")]
  types := .ofList [("𝔘", "é\u0000"), ("\ud7ff", "\ue000"), ("𝔘", "\\u0041")]

end Config

end ViewBridge
