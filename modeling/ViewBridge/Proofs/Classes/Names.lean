import ViewBridge.Classes.Parse
import ViewBridge.Proofs.Classes.Parting

namespace ViewBridge.Classes

open List

/-- Whether a text is a name that a declaration may have: no keyword is one. -/
def isName (text : String) : Bool :=
  match text.toList with
  | [] => false
  | c :: cs => Text.isNameStart c && cs.all Text.isNamePart && (keyword? text).isNone

theorem isName_iff {text : String} :
    isName text = true ↔ keyword? text = none ∧ ∃ c cs, text.toList = c :: cs ∧
      Text.isNameStart c = true ∧ ∀ d ∈ cs, Text.isNamePart d = true := by
  unfold isName
  cases text.toList with
  | nil => simp
  | cons c cs =>
    simp only [Bool.and_eq_true, all_eq_true, Option.isNone_iff_eq_none, List.cons.injEq]
    constructor
    · rintro ⟨⟨start, parts⟩, keyword⟩
      exact ⟨keyword, c, cs, ⟨rfl, rfl⟩, start, parts⟩
    · rintro ⟨keyword, _, _, ⟨rfl, rfl⟩, start, parts⟩
      exact ⟨⟨start, parts⟩, keyword⟩

section Words

variable {c : Char} {cs : List Char} {name : String} {n : Nat}

theorem isName_of_nameWord (hc : Text.isNameStart c = true)
    (h : nameWord c cs = .identifier name) : isName name = true := by
  unfold nameWord at h
  generalize ht : String.ofList (c :: cs.takeWhile Text.isNamePart) = text at h
  cases hk : keyword? text with
  | some w =>
    rw [hk] at h
    rcases keyword?_eq_some hk with rfl | rfl | rfl <;> cases h
  | none =>
    rw [hk] at h
    obtain rfl := Word.identifier.inj h
    refine isName_iff.mpr ⟨hk, c, cs.takeWhile Text.isNamePart, ?_, hc,
      fun d hd => mem_takeWhile_imp hd⟩
    rw [← ht, String.toList_ofList]

theorem operatorWord_ne_identifier (text name : String) : operatorWord text ≠ .identifier name := by
  unfold operatorWord
  repeat' split
  all_goals nofun

theorem isName_of_readWord {previous : Option Kind}
    (h : readWord previous c cs = .ok (.word (.identifier name) n)) : isName name = true := by
  have hr := readWord_reading previous c cs
  generalize readWord previous c cs = r at h hr
  cases hr with
  | string =>
    obtain ⟨said, n, eq⟩ := exists_string_of_readString h
    cases eq
  | number =>
    obtain ⟨w, n, eq, hw⟩ := exists_number_of_readNumber h
    cases eq
    cases hw
  | name hc => exact isName_of_nameWord hc (Lexeme.word.inj (Except.ok.inj h)).1
  | mark hw =>
    cases h
    cases hw
  | operator =>
    exact absurd (Lexeme.word.inj (Except.ok.inj h)).1 (operatorWord_ne_identifier _ name)
  | _ => cases h

end Words

def Named (ts : List Token) : Prop :=
  ∀ t ∈ ts, ∀ name, t.kind = .word (.identifier name) → isName name = true

theorem named_of_tokens {source : String} {ts : List Token} (h : tokens source = .ok ts) :
    Named ts := by
  intro t ht name hw
  obtain ⟨previous, c, cs, n, hr⟩ := Scanner.word_of_tokensOf h t ht _ hw
  exact isName_of_readWord hr

section Named

variable {s : Span} {name : String} {ts rest : List Token}

theorem Named.suffix (h : Named ts) (sub : rest <:+ ts) : Named rest :=
  fun t ht => h t (sub.subset ht)

theorem Named.tail {t : Token} (h : Named (t :: ts)) : Named ts := h.suffix (suffix_cons t ts)

theorem Named.head (h : Named (⟨.word (.identifier name), s⟩ :: ts)) : isName name = true :=
  h _ mem_cons_self name rfl

/-- The part of a dotted name from its first dot on, with the kinds of its tokens. -/
inductive DottedTail : String → List Kind → Prop
  | nil : DottedTail "" []
  | dot {name more ks} : isName name = true → DottedTail more ks →
      DottedTail ("." ++ name ++ more) (.word .dot :: .word (.identifier name) :: ks)

/-- A name with its dots, and the kinds of its tokens. -/
inductive Dotted : String → List Kind → Prop
  | name {name more ks} : isName name = true → DottedTail more ks →
      Dotted (name ++ more) (.word (.identifier name) :: ks)

/-- A value that is written out of names, other literals and brackets. -/
inductive Spellable : Literal → Prop
  | string (text) : Spellable (.string text)
  | integer (i) : Spellable (.integer i)
  | float (f) : Spellable (.float f)
  | bool (b) : Spellable (.bool b)
  | name {text ks} : Dotted text ks → Spellable (.name text)
  | list {items} : (∀ v ∈ items, Spellable v) → Spellable (.list items)
  | tuple {items} : (∀ v ∈ items, Spellable v) → Spellable (.tuple items)
  | call {callee ks args} : Dotted callee ks → (∀ v ∈ args, Spellable v) →
      Spellable (.call callee args)

theorem spellable_ofName {text : String} {ks : List Kind} (h : Dotted text ks) :
    Spellable (.ofName text) := by
  unfold Literal.ofName
  split
  next => exact .bool true
  next =>
    split
    next => exact .bool false
    next => exact .name h

/-- A field whose name is one of its own, with a default that can be written out. -/
structure NamedField (f : Field) : Prop where
  name : isName f.name = true
  reserved : isReservedName f.name = false
  default : ∀ v ∈ f.default, Spellable v

/-- A class that is named by names, as its bases and fields are, and whose fields have defaults that
can be written out. -/
structure NamedClass (c : ClassDef) : Prop where
  name : isName c.name = true
  bases : ∀ b ∈ c.bases, ∃ ks, Dotted b ks
  fields : ∀ f ∈ c.fields, NamedField f

end Named

end ViewBridge.Classes
