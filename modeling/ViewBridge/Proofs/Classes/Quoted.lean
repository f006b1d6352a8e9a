import ViewBridge.Proofs.Characters
import ViewBridge.Proofs.Classes.Reading

namespace ViewBridge.Classes

open List

variable {raw : Bool} {front more : List Char} {q : Literal.QuotedText}

/-- The quotes that close a string. -/
def closing (quote : Char) (long : Bool) : List Char := List.replicate (if long then 3 else 1) quote

/-- A string from behind its opening quotes to its closing ones; a long one may span lines. -/
inductive Quoted (quote : Char) (long : Bool) : List Char → Prop
  | close : Quoted quote long (closing quote long)
  | escape {e cs} : Quoted quote long cs → Quoted quote long ('\\' :: e :: cs)
  | char {c cs} : c ≠ '\\' → ¬closing quote long <+: c :: cs → (c = '\n' → long = true) →
      Quoted quote long cs → Quoted quote long (c :: cs)

variable {quote : Char} {long : Bool} {escape : Char → List Char} {cs : List Char}

theorem Quoted.closing_suffix (h : Quoted quote long cs) : closing quote long <:+ cs := by
  induction h with
  | close => exact suffix_rfl
  | escape _ ih => exact ih.trans ((suffix_cons ..).trans (suffix_cons ..))
  | char _ _ _ _ ih => exact ih.trans (suffix_cons ..)

theorem Quoted.quote_mem (h : Quoted quote long cs) : quote ∈ cs := by
  refine h.closing_suffix.subset ?_
  cases long <;> simp [closing]

/-- How a text is read up to its closing quotes. -/
structure ReadsQuoted (quote : Char) (long : Bool) (escape : Char → List Char)
    (read : List Char → Option Literal.QuotedText) : Prop where
  nil : read [] = none
  slash : read ['\\'] = none
  close (more : List Char) : read (closing quote long ++ more) = some ⟨[], (closing quote long).length⟩
  escape (e : Char) (rest : List Char) : read ('\\' :: e :: rest) = (read rest).map (·.push (escape e) 2)
  char {c : Char} {rest : List Char} : c ≠ '\\' → ¬closing quote long <+: c :: rest →
    read (c :: rest) = if c = '\n' ∧ long = false then none else (read rest).map (·.push [c] 1)

theorem readsQuoted_quotedText? (escape : Char → List Char) (hq : quote ≠ '\\') :
    ReadsQuoted quote false escape (Literal.quotedText? escape quote) where
  nil := rfl
  slash := by simp [Literal.quotedText?, hq.symm]
  close more := by cases more <;> simp [closing, Literal.quotedText?]
  escape e rest := by simp [Literal.quotedText?, hq.symm]
  char {c rest} hc hp := by
    have inside : c ≠ quote := by
      rintro rfl
      exact hp (cons_prefix_cons.mpr ⟨rfl, nil_prefix⟩)
    cases rest <;> simp [Literal.quotedText?, hc, inside]

theorem closing_prefix_iff {c : Char} :
    closing quote true <+: c :: cs ↔ c = quote ∧ ∃ more, cs = quote :: quote :: more := by
  constructor
  · rintro ⟨more, eq⟩
    cases eq
    exact ⟨rfl, more, rfl⟩
  · rintro ⟨rfl, more, rfl⟩
    exact ⟨more, rfl⟩

theorem readsQuoted_longText? (escape : Char → List Char) (hq : quote ≠ '\\') :
    ReadsQuoted quote true escape (Literal.longText? escape quote) where
  nil := rfl
  slash := rfl
  close more := by simp [closing, Literal.longText?]
  escape e rest := by simp [Literal.longText?, hq.symm]
  char {c rest} hc hp := by
    cases rest with
    | nil => simp [Literal.longText?]
    | cons e rest =>
      have inside : ¬(c = quote ∧ e = quote ∧ rest.head? = some quote) := by
        rintro ⟨rfl, rfl, hr⟩
        obtain ⟨rest, rfl⟩ := head?_eq_some_iff.mp hr
        exact hp (closing_prefix_iff.mpr ⟨rfl, rest, rfl⟩)
      simp [Literal.longText?, hc, inside]

section ReadsQuoted

variable {read : List Char → Option Literal.QuotedText}

/-- What is read is quoted text; it stands for less than is written, where escapes are short. -/
theorem ReadsQuoted.exists_quoted (hr : ReadsQuoted quote long escape read) (h : read cs = some q) :
    ∃ body more, cs = body ++ more ∧ q.length = body.length ∧ Quoted quote long body ∧
      ((∀ c, (escape c).length ≤ 2) → q.text.length < body.length) := by
  induction hn : cs.length using Nat.strongRecOn generalizing cs q with
  | ind n ih =>
    by_cases closed : closing quote long <+: cs
    · obtain ⟨more, rfl⟩ := closed
      cases (hr.close more).symm.trans h
      exact ⟨_, more, rfl, rfl, .close, fun _ => by cases long <;> simp [closing]⟩
    rcases cs with _ | ⟨c, rest⟩
    · cases hr.nil.symm.trans h
    by_cases slash : c = '\\'
    · subst slash
      rcases rest with _ | ⟨e, rest⟩
      · cases hr.slash.symm.trans h
      obtain ⟨inner, hi, rfl⟩ := Option.map_eq_some_iff.mp ((hr.escape e rest).symm.trans h)
      obtain ⟨body, more, rfl, length, quoted, shorter⟩ := ih _ (by simp only [← hn, length_cons]; omega) hi rfl
      refine ⟨'\\' :: e :: body, more, rfl, ?_, .escape quoted, fun short => ?_⟩
      · simp only [Literal.QuotedText.push, length, length_cons]
        omega
      · have inner := shorter short
        have escaped := short e
        simp only [Literal.QuotedText.push, length_append, length_cons]
        omega
    · rw [hr.char slash closed] at h
      split at h
      next => cases h
      next inside =>
        obtain ⟨inner, hi, rfl⟩ := Option.map_eq_some_iff.mp h
        obtain ⟨body, more, rfl, length, quoted, shorter⟩ := ih _ (by simp [← hn]) hi rfl
        refine ⟨c :: body, more, rfl, ?_, .char slash (fun hp => closed (hp.trans ?_)) ?_ quoted,
          fun short => ?_⟩
        · simp only [Literal.QuotedText.push, length, length_cons]
          omega
        · exact prefix_append (c :: body) more
        · exact fun newline => by simpa [newline] using inside
        · have inner := shorter short
          simp only [Literal.QuotedText.push, length_append, length_cons, length_nil]
          omega

/-- Quoted text is read the same whatever stands behind it. -/
theorem Quoted.exists_read (h : Quoted quote long cs) (hr : ReadsQuoted quote long escape read) :
    ∃ q, q.length = cs.length ∧ ∀ more, read (cs ++ more) = some q := by
  induction h with
  | close => exact ⟨_, rfl, hr.close⟩
  | @escape e cs _ ih =>
    obtain ⟨q, length, read⟩ := ih
    refine ⟨q.push (escape e) 2, ?_, fun more => ?_⟩
    · simp only [Literal.QuotedText.push, length, length_cons]
      omega
    · rw [cons_append, cons_append, hr.escape, read]
      rfl
  | @char c cs hc hp hn quoted ih =>
    obtain ⟨q, length, read⟩ := ih
    refine ⟨q.push [c] 1, ?_, fun more => ?_⟩
    · simp only [Literal.QuotedText.push, length, length_cons]
      omega
    · have inside : ¬closing quote long <+: c :: (cs ++ more) := fun closed =>
        hp (prefix_of_prefix_length_le closed (prefix_append (c :: cs) more)
          (Nat.le_succ_of_le quoted.closing_suffix.length_le))
      rw [cons_append, hr.char hc inside, if_neg fun h => by simpa [h.2] using hn h.1, read]
      rfl

end ReadsQuoted

/-- A string from behind its first quote on. -/
inductive StringBody (quote : Char) : List Char → Prop
  | short {body} : Quoted quote false body → StringBody quote body
  | long {body} : Quoted quote true body → StringBody quote (quote :: quote :: body)

theorem Quoted.getLast? (h : Quoted quote long cs) : cs.getLast? = some quote := by
  obtain ⟨front, rfl⟩ := h.closing_suffix
  cases long <;> simp [closing, getLast?_append]

theorem StringBody.getLast? (h : StringBody quote cs) : cs.getLast? = some quote := by
  cases h with
  | short quoted => exact quoted.getLast?
  | long quoted =>
    rw [getLast?_cons, getLast?_cons, quoted.getLast?]
    rfl

/-- An empty string is not the start of a long one. -/
def Shut (quote : Char) (text more : List Char) : Prop :=
  text = [quote] → more.head? ≠ some quote

theorem short_escape (raw : Bool) (c : Char) :
    ((if raw then Literal.keepEscape else unescape) c).length ≤ 2 := by
  cases raw with
  | true => exact Nat.le_refl 2
  | false =>
    show (unescape c).length ≤ 2
    unfold unescape Literal.unescape
    repeat' split
    all_goals simp

theorem exists_of_readString {before n : Nat} {w : Word} (hq : quote ≠ '\\')
    (h : readString raw quote before cs = .ok (.word w n)) :
    ∃ text more, cs = text ++ more ∧ n = before + text.length ∧ StringBody quote text ∧
      Shut quote text more ∧ ∀ said, w = .string said → said.length < text.length := by
  have short := short_escape raw
  unfold readString at h
  simp only at h
  split at h
  next opening =>
    split at h
    next q hr =>
      obtain ⟨body, more, hd, length, quoted, shorter⟩ := (readsQuoted_longText? _ hq).exists_quoted hr
      have shorter := shorter short
      cases h
      refine ⟨quote :: quote :: body, more, ?_, ?_, .long quoted, nofun, ?_⟩
      · rw [← take_append_drop 2 cs, opening, hd]
        rfl
      · rw [length, length_cons, length_cons]
        omega
      · rintro _ ⟨⟩
        rw [String.length_ofList, length_cons, length_cons]
        omega
    next => cases h
  next opening =>
    split at h
    next q hr =>
      obtain ⟨body, more, rfl, length, quoted, shorter⟩ :=
        (readsQuoted_quotedText? _ hq).exists_quoted hr
      cases h
      refine ⟨body, more, rfl, by rw [length]; omega, .short quoted, ?_, ?_⟩
      · rintro rfl hm
        obtain ⟨rest, rfl⟩ := head?_eq_some_iff.mp hm
        exact opening rfl
      · rintro _ ⟨⟩
        rw [String.length_ofList]
        exact shorter short
    next => cases h

theorem Quoted.take_two (h : Quoted quote false cs) (hq : quote ≠ '\\') (shut : Shut quote cs more)
    : (cs ++ more).take 2 ≠ [quote, quote] := by
  intro eq
  cases h with
  | close =>
    have text : closing quote false ++ more = quote :: more := rfl
    rw [text] at eq
    cases more with
    | nil => cases eq
    | cons d more =>
      simp only [take_succ_cons, take_zero, List.cons.injEq, true_and, and_true] at eq
      exact shut rfl (by rw [eq]; rfl)
  | escape =>
    simp only [cons_append, take_succ_cons, List.cons.injEq] at eq
    exact hq eq.1.symm
  | @char c cs _ hp =>
    rw [cons_append, take_succ_cons] at eq
    obtain ⟨rfl, _⟩ := List.cons.inj eq
    exact hp (cons_prefix_cons.mpr ⟨rfl, nil_prefix⟩)

theorem StringBody.exists_readString (h : StringBody quote cs) (hq : quote ≠ '\\') (raw : Bool)
    (before : Nat) : ∃ text, ∀ more, Shut quote cs more → readString raw quote before (cs ++ more) =
      .ok (.word (.string text) (before + cs.length)) := by
  unfold readString
  simp only
  generalize (if raw then Literal.keepEscape else unescape) = escape
  cases h with
  | short quoted =>
    obtain ⟨q, length, read⟩ := quoted.exists_read (readsQuoted_quotedText? escape hq)
    refine ⟨String.ofList q.text, fun more shut => ?_⟩
    rw [if_neg (quoted.take_two hq shut), read]
    simp [length]
  | @long cs quoted =>
    obtain ⟨q, length, read⟩ := quoted.exists_read (readsQuoted_longText? escape hq)
    refine ⟨String.ofList q.text, fun more _ => ?_⟩
    have opening : (quote :: quote :: cs ++ more).take 2 = [quote, quote] := rfl
    have behind : (quote :: quote :: cs ++ more).drop 2 = cs ++ more := rfl
    rw [if_pos opening, behind, read]
    simp only [length, length_cons]
    congr 2
    omega

theorem Opening.isQuote {c quote : Char} (h : Opening c front raw quote) :
    quote = '\'' ∨ quote = '"' := by
  cases h with
  | bare hc => exact hc
  | marked _ _ hq => exact hq

theorem Opening.ne_slash {c quote : Char} (h : Opening c front raw quote) : quote ≠ '\\' := by
  rcases h.isQuote with rfl | rfl <;> decide

section OpensString

variable {c : Char}

theorem nameWord_ne_string (cs : List Char) (text : String) : nameWord c cs ≠ .string text := by
  unfold nameWord
  generalize String.ofList (c :: cs.takeWhile Text.isNamePart) = name
  cases hk : keyword? name with
  | none => nofun
  | some w => rcases keyword?_eq_some hk with rfl | rfl | rfl <;> nofun

theorem operatorWord_ne_string (name text : String) : operatorWord name ≠ .string text := by
  unfold operatorWord
  repeat' split
  all_goals nofun

/-- A string is read from the text behind its opening. -/
theorem readWord_opensString {previous : Option Kind} {said : String} {n : Nat}
    (h : readWord previous c cs = .ok (.word (.string said) n)) :
    ∃ front body raw quote, Opening c front raw quote ∧ cs = front ++ body ∧
      readString raw quote front.length body = .ok (.word (.string said) n) := by
  have hr := readWord_reading previous c cs
  generalize readWord previous c cs = r at h hr
  cases hr with
  | string opening eq => exact ⟨_, _, _, _, opening, eq, h⟩
  | number =>
    obtain ⟨w, n, eq, hw⟩ := exists_number_of_readNumber h
    cases eq
    cases hw
  | name => exact absurd (Lexeme.word.inj (Except.ok.inj h)).1 (nameWord_ne_string cs said)
  | mark hw =>
    cases h
    cases hw
  | operator =>
    exact absurd (Lexeme.word.inj (Except.ok.inj h)).1 (operatorWord_ne_string _ said)
  | _ => cases h

end OpensString

theorem readWord_name {previous : Option Kind} {c : Char} {cs : List Char}
    (hc : Text.isNameStart c = true) : readWord previous c cs = readIdentifier c cs := by
  have digit := isDigit_of_isNameStart hc
  have plain : c ≠ '\\' := ne_of_class hc (by decide)
  have single : c ≠ '\'' := ne_of_class hc (by decide)
  have double : c ≠ '"' := ne_of_class hc (by decide)
  have minus : c ≠ '-' := ne_of_class hc (by decide)
  have point : c ≠ '.' := ne_of_class hc (by decide)
  simp [readWord, plain, single, double, minus, point, digit, hc]

theorem Opening.readWord_eq {c quote : Char} (h : Opening c front raw quote)
    (previous : Option Kind) (body : List Char) :
    readWord previous c (front ++ body) = readString raw quote front.length body := by
  cases h with
  | bare hc =>
    have plain : c ≠ '\\' := by rcases hc with rfl | rfl <;> decide
    unfold readWord
    simp only [if_neg plain, if_pos hc]
    rfl
  | @marked name quote hc hn hq hm =>
    have stop : Text.isNamePart quote = false := by rcases hq with rfl | rfl <;> decide
    have boundary : ∀ d ∈ (quote :: body).head?, Text.isNamePart d = false := by
      intro d hd
      cases hd
      exact stop
    obtain ⟨taken, left⟩ := takeWhile_boundary hn boundary
    rw [append_assoc, singleton_append, readWord_name hc]
    unfold readIdentifier
    simp only [taken, left, if_pos (And.intro hq hm), length_append, length_singleton]

end ViewBridge.Classes
