import ViewBridge.Json.Read
import ViewBridge.Json.Write
import ViewBridge.Proofs.Characters

namespace ViewBridge.Json

open List

open Text (isDigit)

variable {c : Char} {j : Json}

section Strings

theorem hexValue?_control {n : Nat} (h : n < 32) :
    hexValue? ['0', '0', hexDigit (n / 16), hexDigit (n % 16)] = some n := by
  have table : ∀ k : Fin 32,
      hexValue? ['0', '0', hexDigit (k.val / 16), hexDigit (k.val % 16)] = some k.val := by
    decide
  exact table ⟨n, h⟩

theorem unitOfCode_control (h : c.toNat < 32) : unitOfCode c.toNat = .char c := by
  have high : ¬(0xd800 ≤ c.toNat ∧ c.toNat < 0xdc00) := by omega
  have low : ¬(0xdc00 ≤ c.toNat ∧ c.toNat < 0xe000) := by omega
  rw [unitOfCode, if_neg high, if_neg low, Char.ofNat_toNat]

/-- How a character is written in a string. -/
inductive Escape (c : Char) : List Char → Prop
  | short {d} : d ≠ 'u' → shortEscape? d = some c → Escape c ['\\', d]
  | code : c.toNat < 32 →
      Escape c ['\\', 'u', '0', '0', hexDigit (c.toNat / 16), hexDigit (c.toNat % 16)]
  | plain : c ≠ '"' → c ≠ '\\' → ¬c.toNat < 32 → Escape c [c]

theorem escape_escapeChar (c : Char) : Escape c (escapeChar c) := by
  -- the seven characters with a short form stand in front of the controls
  by_cases named : c ∈ ['"', '\\', '\x08', '\x0c', '\n', '\r', '\t']
  · have table : ∀ c ∈ ['"', '\\', '\x08', '\x0c', '\n', '\r', '\t'],
        ∃ d, d ≠ 'u' ∧ shortEscape? d = some c ∧ escapeChar c = ['\\', d] := by
      simp only [forall_mem_cons]
      exact ⟨⟨'"', by decide⟩, ⟨'\\', by decide⟩, ⟨'b', by decide⟩, ⟨'f', by decide⟩,
        ⟨'n', by decide⟩, ⟨'r', by decide⟩, ⟨'t', by decide⟩, nofun⟩
    obtain ⟨d, notCode, escape, written⟩ := table c named
    rw [written]
    exact .short notCode escape
  · simp only [mem_cons, not_mem_nil, or_false, not_or] at named
    obtain ⟨notQuote, notBackslash, others⟩ := named
    simp only [escapeChar, notQuote, notBackslash, others, if_false]
    split
    next control => exact .code control
    next printable => exact .plain notQuote notBackslash printable

theorem stringUnits_escape {text : List Char} (h : Escape c text) (cs : List Char) :
    stringUnits (text ++ cs) = (stringUnits cs).map fun p => (.char c :: p.1, p.2) := by
  cases h with
  | @short d notCode escape =>
    have read : stringUnits ('\\' :: d :: cs) = (shortEscape? d).bind fun escaped =>
        (stringUnits cs).bind fun p => some (.char escaped :: p.1, p.2) := by
      rw [stringUnits]
      · rfl
      · exact fun _ _ _ _ _ eq _ => notCode eq
    rw [cons_append, cons_append, nil_append, read, escape, Option.bind_some]
    cases stringUnits cs <;> rfl
  | code control =>
    simp only [cons_append, nil_append]
    rw [stringUnits, hexValue?_control control, Option.bind_eq_bind, Option.bind_some,
      unitOfCode_control control]
    cases stringUnits cs <;> rfl
  | plain notQuote notBackslash printable =>
    have allowed : ¬(c = '\\' ∨ c.toNat < 32) := not_or.mpr ⟨notBackslash, printable⟩
    rw [cons_append, nil_append, stringUnits, if_neg allowed]
    · cases stringUnits cs <;> rfl
    · exact fun eq => notQuote eq
    · exact fun _ _ _ _ _ eq _ => notBackslash eq
    · exact fun _ _ eq _ => notBackslash eq

theorem stringUnits_quoted (text rest : List Char) :
    stringUnits (text.flatMap escapeChar ++ '"' :: rest) = some (text.map .char, rest) := by
  induction text with
  | nil => rw [flatMap_nil, nil_append, stringUnits, map_nil]
  | cons c text ih =>
    rw [flatMap_cons, append_assoc, stringUnits_escape (escape_escapeChar c), ih]
    rfl

theorem charsOfUnits?_chars (text : List Char) :
    charsOfUnits? (text.map .char) = some text := by
  induction text with
  | nil => rfl
  | cons c text ih => rw [map_cons, charsOfUnits?, ih, Option.map_some]

theorem readString?_quoted (s : String) (rest : List Char) :
    readString? (s.toList.flatMap escapeChar ++ '"' :: rest) = some (some s, rest) := by
  rw [readString?, stringUnits_quoted]
  simp [charsOfUnits?_chars]

end Strings

section Numbers

theorem length_toDigits_of_zero {n : Nat} (h : (Nat.toDigits 10 n).head? = some '0') :
    (Nat.toDigits 10 n).length = 1 := by
  have nonzero : ∀ n, 0 < n → (Nat.toDigits 10 n).head? ≠ some '0' := by
    intro n
    induction n using Nat.strongRecOn with
    | ind n ih =>
      intro positive
      by_cases small : n < 10
      · have digit : ∀ k : Fin 10, 0 < k.val → k.val.digitChar ≠ '0' := by decide
        rw [Nat.toDigits_of_lt_base small]
        exact fun eq => digit ⟨n, small⟩ positive (Option.some.inj eq)
      · have front : (Nat.toDigits 10 (n / 10)).head? ≠ some '0' :=
          ih (n / 10) (by omega) (by omega)
        obtain ⟨c, more, eq, _⟩ := (Decimal.isDigits_toDigits (n / 10)).exists_cons
        rw [Nat.toDigits_of_base_le (by decide) (by omega), eq]
        rwa [eq] at front
  by_cases zero : n = 0
  · rw [zero]
    rfl
  · exact absurd h (nonzero n (by omega))

/-- A text that does not go on a number. -/
def Follows (cs : List Char) : Prop :=
  ∀ c ∈ cs.head?, isDigit c = false ∧ c ≠ '.' ∧ c ≠ 'e' ∧ c ≠ 'E'

theorem readFraction?_follows {cs : List Char} (h : Follows cs) :
    readFraction? cs = some (false, cs) := by
  cases cs with
  | nil => rfl
  | cons c cs =>
    obtain ⟨_, notPoint, _⟩ := h c rfl
    rw [readFraction?]
    exact fun rest eq => notPoint (List.cons.inj eq).1

theorem readExponent?_follows {cs : List Char} (h : Follows cs) :
    readExponent? cs = some (false, cs) := by
  cases cs with
  | nil => rfl
  | cons c cs =>
    obtain ⟨_, _, notLower, notUpper⟩ := h c rfl
    unfold readExponent?
    exact if_neg (not_or.mpr ⟨notLower, notUpper⟩)

theorem readNumber?_digits (n : Nat) {rest : List Char} (h : Follows rest) :
    readNumber? (Nat.toDigits 10 n ++ rest) = some (.natural n, rest) := by
  have digits := Decimal.isDigits_toDigits n
  obtain ⟨taken, left⟩ := takeWhile_boundary digits.isDigit fun c hc => (h c hc).1
  have unsigned : readNumber? (Nat.toDigits 10 n ++ rest) =
      readMagnitude? false (Nat.toDigits 10 n ++ rest) := by
    obtain ⟨c, more, eq, hc⟩ := digits.exists_cons
    rw [eq, cons_append, readNumber?]
    rintro rest eq
    cases eq
    cases hc
  have padded : ¬((Nat.toDigits 10 n).head? = some '0' ∧ (Nat.toDigits 10 n).length ≠ 1) :=
    fun h => h.2 (length_toDigits_of_zero h.1)
  have value : Decimal.natOfDigits? 10 (Nat.toDigits 10 n) = some n := by
    rw [Decimal.natOfDigits?_of_isDigit digits.ne_nil digits.isDigit,
      Nat.ofDigitChars_toDigits (by decide) (Nat.le_refl 10)]
  rw [unsigned, readMagnitude?, taken, left, if_neg padded, value, readFraction?_follows h,
    Option.bind_eq_bind, Option.bind_some, Option.bind_eq_bind, Option.bind_some]
  dsimp only
  rw [readExponent?_follows h]
  rfl

end Numbers

section Space

theorem skipSpace_append {blanks : List Char} (h : ∀ c ∈ blanks, isSpace c = true)
    (cs : List Char) :
    skipSpace (blanks ++ cs) = skipSpace cs :=
  dropWhile_append_of_pos h

theorem skipSpace_cons (h : isSpace c = false) (cs : List Char) :
    skipSpace (c :: cs) = c :: cs := by
  rw [skipSpace, dropWhile_cons, h]
  rfl

/-- What stands between brackets is no longer part of a number. -/
theorem Follows.append {blanks cs : List Char} (hb : ∀ c ∈ blanks, isSpace c = true)
    (h : Follows cs) : Follows (blanks ++ cs) := by
  cases blanks with
  | nil => exact h
  | cons b blanks =>
    have space : isSpace b = true := hb b mem_cons_self
    simp only [isSpace, Bool.or_eq_true, beq_iff_eq] at space
    intro c hc
    cases hc
    rcases space with ((rfl | rfl) | rfl) | rfl <;> decide

theorem follows_cons {c : Char} (h : c ∈ [',', ']', '\x7d']) (cs : List Char) :
    Follows (c :: cs) := by
  intro d hd
  cases hd
  simp only [mem_cons, not_mem_nil, or_false] at h
  rcases h with rfl | rfl | rfl <;> decide

end Space

/-- A layout that puts nothing but space between the parts of a text. -/
structure Layout.Spaced (layout : Layout) : Prop where
  afterColon : ∀ c ∈ layout.afterColon.toList, isSpace c = true
  lineBreak (depth : Nat) : ∀ c ∈ (layout.lineBreak depth).toList, isSpace c = true

theorem spaced_prettyLayout : prettyLayout.Spaced where
  afterColon := by decide
  lineBreak depth := by
    intro c hc
    have cases : c = '\n' ∨ c = ' ' := by
      simp only [prettyLayout, String.toList_append, String.toList_ofList, mem_append] at hc
      exact hc.imp mem_singleton.mp eq_of_mem_replicate
    rcases cases with rfl | rfl <;> rfl

/-- A document that is read from its text, whatever may follow it. -/
def Rereads (layout : Layout) (j : Json) : Prop :=
  ∀ depth rest, Follows rest →
    readValue? ((write layout depth j).toList ++ rest) = some (j, rest)

section Values

variable {layout : Layout}

def readArray? (cs : List Char) : Option (Json × List Char) :=
  match skipSpace cs with
  | ']' :: rest => some (.array [], rest)
  | _ => (readItems? cs).map fun (items, rest) => (.array items, rest)

def readObject? (cs : List Char) : Option (Json × List Char) :=
  match skipSpace cs with
  | '\x7d' :: rest => some (.object [], rest)
  | _ => (readMembers? cs).map fun (members, rest) => (.object members, rest)

/-- Reads a value that starts with a certain character. -/
def readFrom? (c : Char) (rest : List Char) : Option (Json × List Char) :=
  if c = '"' then (readString? rest).map fun (text, rest) => (.string text, rest)
  else if c = '[' then readArray? rest
  else if c = '\x7b' then readObject? rest
  else if c = 'n' then readWord? "null" .null (c :: rest)
  else if c = 't' then readWord? "true" (.bool true) (c :: rest)
  else if c = 'f' then readWord? "false" (.bool false) (c :: rest)
  else readNumber? (c :: rest)

theorem readValue?_eq (cs : List Char) :
    readValue? cs = match skipSpace cs with
      | [] => none
      | c :: rest => readFrom? c rest := by
  rw [readValue?]
  split
  next eq => rw [eq]
  next c rest eq =>
    dsimp only
    rw [eq]
    rfl

theorem readValue?_append {blanks : List Char} (h : ∀ c ∈ blanks, isSpace c = true)
    (cs : List Char) : readValue? (blanks ++ cs) = readValue? cs := by
  rw [readValue?_eq, readValue?_eq, skipSpace_append h]

theorem readValue?_cons (h : isSpace c = false) (cs : List Char) :
    readValue? (c :: cs) = readFrom? c cs := by
  rw [readValue?_eq, skipSpace_cons h]

theorem writeItems_eq_map (depth : Nat) (items : List Json) :
    writeItems layout depth items = items.map (write layout depth) := by
  induction items with
  | nil => rfl
  | cons item items ih => rw [writeItems, ih, map_cons]

def memberText (layout : Layout) (depth : Nat) (member : Option String × Json) : String :=
  quote (member.1.getD "") ++ ":" ++ layout.afterColon ++ write layout depth member.2

theorem writeMembers_eq_map (depth : Nat) (members : List (Option String × Json)) :
    writeMembers layout depth members = members.map (memberText layout depth) := by
  induction members with
  | nil => rfl
  | cons member members ih => rw [writeMembers, ih, map_cons, memberText]

def entriesText (layout : Layout) (depth : Nat) (entries : List String) : List Char :=
  (',' :: (layout.lineBreak depth).toList).intercalate (entries.map String.toList)

theorem toList_enclosed (depth : Nat) (opening closing : String) {entries : List String}
    (h : entries ≠ []) :
    (enclosed layout depth opening closing entries).toList =
      opening.toList ++ ((layout.lineBreak (depth + 1)).toList ++
        (entriesText layout (depth + 1) entries ++
          ((layout.lineBreak depth).toList ++ closing.toList))) := by
  rw [enclosed, if_neg (by simpa using h)]
  simp [entriesText, String.toList_intercalate]

theorem entriesText_cons_cons (depth : Nat) (first second : String) (entries : List String) :
    entriesText layout depth (first :: second :: entries) =
      first.toList ++ (',' :: ((layout.lineBreak depth).toList ++
        entriesText layout depth (second :: entries))) := by
  simp [entriesText, intercalate_cons_cons]

section Entries

variable {cs rest : List Char} {items : List Json} {members : List (Option String × Json)}

/-- A member of an object is read at the start of a text. -/
def ReadsMember (cs : List Char) (member : Option String × Json) (rest : List Char) : Prop :=
  ∃ name mid value, skipSpace cs = '"' :: name ∧ readString? name = some (member.1, mid) ∧
    skipSpace mid = ':' :: value ∧ value.length < cs.length ∧
    readValue? value = some (member.2, rest)

/-- Entries that are read one by one are read all together up to what closes them. -/
structure ReadsEntries {α : Type} (one : List Char → α → List Char → Prop)
    (all : List Char → Option (List α × List Char)) (close : Char) : Prop where
  space : isSpace close = false
  follows (rest : List Char) : Follows (close :: rest)
  last {cs mid rest : List Char} {entry : α} : one cs entry mid →
    skipSpace mid = close :: rest → all cs = some ([entry], rest)
  more {cs mid more rest : List Char} {entry : α} {entries : List α} : one cs entry mid →
    skipSpace mid = ',' :: more → more.length < cs.length → all more = some (entries, rest) →
    all cs = some (entry :: entries, rest)

theorem readsEntries_items :
    ReadsEntries (fun cs item rest => readValue? cs = some (item, rest)) readItems? ']' where
  space := rfl
  follows := follows_cons (by decide)
  last read close := by
    rw [readItems?, read, Option.bind_eq_bind, Option.bind_some]
    dsimp only
    rw [close]
    rfl
  more read comma shorter others := by
    rw [readItems?]
    simp only [read, comma, shorter, others, Option.bind_eq_bind, Option.bind_some, if_true]
    rfl

theorem readsEntries_members : ReadsEntries ReadsMember readMembers? '\x7d' where
  space := rfl
  follows := follows_cons (by decide)
  last read close := by
    obtain ⟨name, behind, value, quote, key, colon, shorter, readValue⟩ := read
    rw [readMembers?]
    simp only [quote, key, colon, shorter, readValue, close, Option.bind_eq_bind, Option.bind_some,
      if_true]
    rfl
  more read comma shorter' others := by
    obtain ⟨name, behind, value, quote, key, colon, shorter, readValue⟩ := read
    rw [readMembers?]
    simp only [quote, key, colon, shorter, readValue, comma, shorter', others, Option.bind_eq_bind,
      Option.bind_some, if_true]
    rfl

theorem readArray?_items (read : readItems? cs = some (items, rest)) :
    readArray? cs = some (.array items, rest) := by
  unfold readArray?
  split
  next behind empty =>
    have none : readValue? cs = none := by
      rw [readValue?_eq, empty]
      rfl
    rw [readItems?, none] at read
    cases read
  next => rw [read, Option.map_some]

theorem readObject?_members (read : readMembers? cs = some (members, rest)) :
    readObject? cs = some (.object members, rest) := by
  unfold readObject?
  split
  next behind empty =>
    rw [readMembers?, empty] at read
    cases read
  next => rw [read, Option.map_some]

end Entries

variable (spaced : layout.Spaced) {depth : Nat} {lead blanks : List Char}
  (hl : ∀ c ∈ lead, isSpace c = true)

include spaced hl

theorem ReadsEntries.entriesText {α : Type} {one : List Char → α → List Char → Prop}
    {all : List Char → Option (List α × List Char)} {close : Char} (hr : ReadsEntries one all close)
    {text : α → String} {first : α} {others : List α} (hb : ∀ c ∈ blanks, isSpace c = true)
    (h : ∀ entry ∈ first :: others, ∀ lead rest, (∀ c ∈ lead, isSpace c = true) → Follows rest →
      one (lead ++ ((text entry).toList ++ rest)) entry rest) (rest : List Char) :
    all (lead ++ (Json.entriesText layout depth ((first :: others).map text) ++
      (blanks ++ close :: rest))) = some (first :: others, rest) := by
  induction others generalizing first lead with
  | nil =>
    have single : Json.entriesText layout depth [text first] = (text first).toList := by
      simp [Json.entriesText, List.intercalate]
    rw [map_singleton, single]
    refine hr.last (h first mem_cons_self lead _ hl (.append hb (hr.follows rest))) ?_
    rw [skipSpace_append hb, skipSpace_cons hr.space]
  | cons second others ih =>
    have later := ih (spaced.lineBreak depth) fun entry hm => h entry (mem_cons_of_mem first hm)
    rw [map_cons, map_cons, entriesText_cons_cons, append_assoc, cons_append,
      append_assoc]
    rw [map_cons] at later
    refine hr.more (h first mem_cons_self lead _ hl (follows_cons (by decide) _))
      (skipSpace_cons rfl _) ?_ later
    simp only [length_append, length_cons]
    omega

theorem readsMember_memberText {key : String} {value : Json} (h : Rereads layout value)
    {rest : List Char} (follows : Follows rest) :
    ReadsMember (lead ++ ((memberText layout depth (some key, value)).toList ++ rest))
      (some key, value) rest := by
  have text : (memberText layout depth (some key, value)).toList ++ rest =
      '"' :: (key.toList.flatMap escapeChar ++ '"' :: (':' :: (layout.afterColon.toList ++
        ((write layout depth value).toList ++ rest)))) := by
    simp [memberText, quote]
  have opening := skipSpace_append hl ((memberText layout depth (some key, value)).toList ++ rest)
  rw [text, skipSpace_cons rfl] at opening
  rw [text]
  refine ⟨_, _, _, opening, readString?_quoted key _, skipSpace_cons rfl _, ?_, ?_⟩
  · simp only [length_append, length_cons]
    omega
  · rw [readValue?_append spaced.afterColon]
    exact h depth rest follows

end Values

/-- The documents that their text tells in full: all numbers are natural ones, and every string has
a text. -/
inductive Exact : Json → Prop
  | null : Exact .null
  | bool (b : Bool) : Exact (.bool b)
  | natural (n : Nat) : Exact (.natural n)
  | text (s : String) : Exact (.text s)
  | array {items : List Json} : (∀ item ∈ items, Exact item) → Exact (.array items)
  | record {fields : List (String × Json)} : (∀ field ∈ fields, Exact field.2) →
      Exact (.record fields)

section Documents

variable {layout : Layout}

theorem rereads_word {word : String} {cs : List Char} (text : ∀ depth, write layout depth j = word)
    (chars : word.toList = c :: cs) (start : isSpace c = false)
    (read : ∀ rest, readFrom? c (cs ++ rest) = some (j, rest)) : Rereads layout j := by
  intro depth rest _
  rw [text, chars, cons_append, readValue?_cons start, read]

theorem rereads_natural (n : Nat) : Rereads layout (.natural n) := by
  intro depth rest follows
  have text : (write layout depth (.natural n)).toList = Nat.toDigits 10 n := by
    rw [write, show toString n = n.repr from rfl, Nat.repr_eq_ofList_toDigits,
      String.toList_ofList]
  have number := readNumber?_digits n follows
  obtain ⟨c, more, digits, hc⟩ := (Decimal.isDigits_toDigits n).exists_cons
  have ne : ∀ d ∈ [' ', '\n', '\t', '\r', '"', '[', '\x7b', 'n', 't', 'f'], c ≠ d :=
    fun d hd => ne_of_class hc (by revert d; decide)
  simp only [forall_mem_cons] at ne
  have start : isSpace c = false := by simp [isSpace, ne]
  rw [text, digits, cons_append, readValue?_cons start]
  rw [digits, cons_append] at number
  simp only [readFrom?, ne, if_false]
  exact number

theorem rereads_text (s : String) : Rereads layout (.text s) := by
  intro depth rest _
  have text : (write layout depth (.text s)).toList ++ rest =
      '"' :: (s.toList.flatMap escapeChar ++ '"' :: rest) := by
    simp [Json.text, write, quote]
  rw [text, readValue?_cons rfl, readFrom?, if_pos rfl, readString?_quoted]
  rfl

theorem rereads_array (spaced : layout.Spaced) {items : List Json}
    (h : ∀ item ∈ items, Rereads layout item) : Rereads layout (.array items) := by
  intro depth rest _
  cases items with
  | nil =>
    have text : (write layout depth (.array [])).toList ++ rest = '[' :: ']' :: rest := by
      simp [write, writeItems, enclosed]
    rw [text, readValue?_cons rfl]
    rfl
  | cons first others =>
    have text : (write layout depth (.array (first :: others))).toList ++ rest =
        '[' :: ((layout.lineBreak (depth + 1)).toList ++ (entriesText layout (depth + 1)
          ((first :: others).map (write layout (depth + 1))) ++
            ((layout.lineBreak depth).toList ++ ']' :: rest))) := by
      rw [write, writeItems_eq_map, toList_enclosed depth _ _ (by simp)]
      simp
    rw [text, readValue?_cons rfl]
    refine readArray?_items (readsEntries_items.entriesText spaced (spaced.lineBreak (depth + 1))
      (spaced.lineBreak depth) (fun item hi lead rest hl follows => ?_) rest)
    rw [readValue?_append hl]
    exact h item hi (depth + 1) rest follows

theorem rereads_record (spaced : layout.Spaced) {fields : List (String × Json)}
    (h : ∀ field ∈ fields, Rereads layout field.2) : Rereads layout (.record fields) := by
  intro depth rest _
  cases fields with
  | nil =>
    have text : (write layout depth (.record [])).toList ++ rest = '\x7b' :: '\x7d' :: rest := by
      simp [record, write, writeMembers, enclosed]
    rw [text, readValue?_cons rfl]
    rfl
  | cons first others =>
    have text : (write layout depth (.record (first :: others))).toList ++ rest =
        '\x7b' :: ((layout.lineBreak (depth + 1)).toList ++ (entriesText layout (depth + 1)
          (((first :: others).map fun field => (some field.1, field.2)).map
            (memberText layout (depth + 1))) ++
            ((layout.lineBreak depth).toList ++ '\x7d' :: rest))) := by
      rw [record, write, writeMembers_eq_map, toList_enclosed depth _ _ (by simp)]
      simp
    rw [text, readValue?_cons rfl]
    refine readObject?_members (readsEntries_members.entriesText spaced
      (spaced.lineBreak (depth + 1)) (spaced.lineBreak depth) (fun member hm lead rest hl follows => ?_)
      rest)
    obtain ⟨field, hf, rfl⟩ : ∃ field ∈ first :: others, (some field.1, field.2) = member :=
      mem_map.mp hm
    exact readsMember_memberText spaced hl (h field hf) follows

theorem Exact.rereads (spaced : layout.Spaced) (h : Exact j) : Rereads layout j := by
  induction h with
  | null => exact rereads_word (fun _ => rfl) rfl rfl fun _ => rfl
  | bool b =>
    cases b with
    | true => exact rereads_word (fun _ => rfl) rfl rfl fun _ => rfl
    | false => exact rereads_word (fun _ => rfl) rfl rfl fun _ => rfl
  | natural n => exact rereads_natural n
  | text s => exact rereads_text s
  | array _ ih => exact rereads_array spaced ih
  | record _ ih => exact rereads_record spaced ih

theorem read?_write (spaced : layout.Spaced) (h : Exact j) (depth : Nat) :
    read? (write layout depth j) = some j := by
  have read := h.rereads spaced depth [] nofun
  rw [append_nil] at read
  rw [read?, read]
  rfl

end Documents

end ViewBridge.Json
