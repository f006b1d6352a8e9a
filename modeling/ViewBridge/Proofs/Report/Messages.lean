import ViewBridge.Proofs.Classes.Reading
import ViewBridge.Proofs.Decimal.Digits
import ViewBridge.Proofs.Markup.Reading
import ViewBridge.Proofs.Source.Faults
import ViewBridge.Report.Diagnostic

namespace ViewBridge

open List

variable {fault : LexFault} {cs : List Char}

def OneLine (text : String) : Prop := '\n' ∉ text.toList

instance (text : String) : Decidable (OneLine text) := inferInstanceAs (Decidable (_ ∉ _))

theorem oneLine_append {a b : String} : OneLine (a ++ b) ↔ OneLine a ∧ OneLine b := by
  simp [OneLine]

@[simp] theorem oneLine_ofList : OneLine (String.ofList cs) ↔ '\n' ∉ cs := by
  simp [OneLine]

theorem newline_not_mem_of_forall {p : Char → Bool} (hp : p '\n' = false) (h : ∀ c ∈ cs, p c = true)
    : '\n' ∉ cs := by
  intro hm
  rw [h _ hm] at hp
  cases hp

theorem newline_not_mem_toDigits (n : Nat) : '\n' ∉ Nat.toDigits 10 n :=
  newline_not_mem_of_forall rfl fun _ hc => Decimal.isDigit_of_mem_toDigits hc

theorem oneLine_toString_nat (n : Nat) : OneLine (toString n) := by
  have shown : toString n = n.repr := rfl
  rw [shown, Nat.repr_eq_ofList_toDigits, oneLine_ofList]
  exact newline_not_mem_toDigits n

theorem oneLine_toString_toInt (i : Int64) : OneLine (toString i.toInt) := by
  unfold OneLine
  rw [Decimal.toList_toString_toInt]
  have digits := newline_not_mem_toDigits i.toInt.natAbs
  split
  · simpa using digits
  · exact digits

theorem oneLine_positional {whole : String} (h : OneLine whole) (d : Decimal.Scientific) :
    OneLine (d.positional whole) := by
  have digits : OneLine d.digits := oneLine_toString_nat d.coefficient
  have zeros (n : Nat) : OneLine (Decimal.zeros n) := by
    rw [OneLine, Decimal.toList_zeros]
    simp
  unfold Decimal.Scientific.positional
  split
  · simp only [oneLine_append, digits, zeros, true_and, h]
  · split
    · simp only [oneLine_append, oneLine_ofList]
      refine ⟨⟨?_, by decide⟩, ?_⟩
      · exact fun hm => digits (mem_of_mem_take hm)
      · exact fun hm => digits (mem_of_mem_drop hm)
    · simp only [oneLine_append, digits, zeros, and_true]
      decide

/-- A number without an exponent has no line end where its format adds none. -/
theorem oneLine_write {format : Decimal.FloatFormat} (whole : OneLine format.whole)
    (positional : ∀ d, format.isPositional d = true) (f : Float) : OneLine (format.write f) := by
  have sign : OneLine (if Decimal.isNegativeBits f.toBits then "-" else "") := by
    split <;> decide
  unfold Decimal.FloatFormat.write
  dsimp only
  split
  next => decide
  next =>
    rw [oneLine_append]
    exact ⟨sign, by decide⟩
  next =>
    rw [oneLine_append, oneLine_append]
    exact ⟨⟨sign, by decide⟩, whole⟩
  next rounding _ =>
    rw [if_pos (positional _), oneLine_append]
    exact ⟨sign, oneLine_positional whole _⟩

theorem oneLine_write_plain (f : Float) : OneLine (Decimal.plain.write f) :=
  oneLine_write (by decide) (fun _ => rfl) f

theorem oneLine_expected (expected : Expected) : OneLine expected.describe := by
  cases expected <;> simp [OneLine, Expected.describe]

def LexFault.quoted : LexFault → List Char
  | .invalidCharacter c | .unmatched c | .unclosed c => [c]
  | .afterNumber c number => c :: number.toList
  | .invalidNumber text | .integerOutOfRange text | .invalidRadixNumber text => text.toList
  | .inconsistentIndentation .. | .unterminatedString | .afterContinuation => []

theorem oneLine_reason (h : '\n' ∉ fault.quoted) : OneLine fault.reason := by
  rw [LexFault.reason.eq_def]
  cases fault with
  | inconsistentIndentation width expected => simp [OneLine, newline_not_mem_toDigits]
  | unterminatedString | afterContinuation => simp [OneLine]
  | invalidCharacter c | unmatched c | unclosed c =>
    have other : '\n' ≠ c := by simpa [LexFault.quoted] using h
    simp [OneLine, other]
  | afterNumber c number =>
    simp only [LexFault.quoted, mem_cons, not_or] at h
    simp [OneLine, h]
  | invalidNumber text | integerOutOfRange text | invalidRadixNumber text =>
    have text : '\n' ∉ text.toList := h
    simp [OneLine, text]

def Lexicon.QuotesLine {ω : Type} (read : Lexicon ω) : Prop :=
  ∀ previous c cs misread, c ≠ '\n' → read previous c cs = .error misread →
    '\n' ∉ misread.fault.quoted

theorem Scanner.Arises.oneLine {ω : Type} {read : Lexicon ω} (quotes : read.QuotesLine)
    (h : Arises read fault) : OneLine fault.reason := by
  apply oneLine_reason
  cases h with
  | indentation => exact not_mem_nil
  | unmatched b | unclosed b => cases b <;> decide
  | misread starts hm => exact quotes _ _ _ _ starts.ne.2.1 hm

theorem Text.isNameStart_newline : Text.isNameStart '\n' = false := by decide

theorem Text.isNamePart_newline : Text.isNamePart '\n' = false := by decide

theorem ne_newline_of_isNameStart {c : Char} (h : Text.isNameStart c = true) : c ≠ '\n' := by
  rintro rfl
  rw [Text.isNameStart_newline] at h
  cases h

end ViewBridge

namespace ViewBridge.Markup

open List

variable {c quote : Char} {cs rest : List Char} {misread : Misread} {n before : Nat} {text : String}
  {w : Word} {escape : Char → List Char}

theorem readString_quotes (h : readString escape quote before rest = .error misread) :
    '\n' ∉ misread.fault.quoted := by
  unfold readString at h
  split at h
  next => cases h
  next =>
    cases h
    exact not_mem_nil

theorem numberText_newline (cs : List Char) : '\n' ∉ (numberText cs).1 := by
  have digits (cs : List Char) : '\n' ∉ cs.takeWhile Text.isDigit :=
    newline_not_mem_of_forall rfl fun _ hc => mem_takeWhile_imp hc
  unfold numberText
  dsimp only
  split
  next =>
    split
    · exact digits cs
    · simp only [mem_append, mem_cons, not_or]
      exact ⟨digits cs, by decide, digits _⟩
  next => exact digits cs

theorem readNumber_quotes (h : readNumber c cs = .error misread) : '\n' ∉ misread.fault.quoted := by
  have value {text : List Char} {isFloat : Bool} (ht : '\n' ∉ text)
      (h : readNumber.value text isFloat = .error misread) : '\n' ∉ misread.fault.quoted := by
    unfold readNumber.value at h
    split at h
    all_goals
      split at h
      next => cases h
      next =>
        cases h
        simpa [LexFault.quoted] using ht
  have signed (digits : List Char) :
      '\n' ∉ (if c = '-' then (['-'], cs) else ([], c :: cs)).1 ++ (numberText digits).1 := by
    split <;> simp [numberText_newline]
  unfold readNumber at h
  dsimp only at h
  split at h
  next next _ =>
    split at h
    next start =>
      cases h
      simp only [LexFault.quoted, String.toList_ofList, mem_cons, not_or]
      exact ⟨(ne_newline_of_isNameStart start).symm, signed _⟩
    next => exact value (signed _) h
  next => exact value (signed _) h

theorem readWord_quotesLine : Lexicon.QuotesLine readWord := by
  intro previous c cs misread hc h
  have hr := readWord_reading previous c cs
  generalize readWord previous c cs = r at h hr
  cases hr with
  | string => exact readString_quotes h
  | number => exact readNumber_quotes h
  | unterminated =>
    cases h
    exact not_mem_nil
  | invalid =>
    cases h
    simpa [LexFault.quoted] using hc.symm
  | _ => cases h

theorem StartsName.oneLine {previous : Option Kind} (h : StartsName previous c cs) :
    '\n' ∉ c :: cs.takeWhile isIdentifierPart := by
  have parts : '\n' ∉ cs.takeWhile isIdentifierPart :=
    newline_not_mem_of_forall (by decide) fun _ hm => mem_takeWhile_imp hm
  have other : c ≠ '\n' := by
    rcases h with start | ⟨rfl, _⟩
    · exact ne_newline_of_isNameStart start
    · decide
  simp [parts, other.symm]

/-- The words that are kept as they are written have no line end in them. -/
theorem spelling_oneLine {previous : Option Kind}
    (h : readWord previous c cs = .ok (.word w n)) (hs : w.spelling? = some text) :
    OneLine text := by
  have hr := readWord_reading previous c cs
  generalize readWord previous c cs = r at h hr
  cases hr with
  | string =>
    obtain ⟨said, n, eq⟩ := exists_string_of_readString h
    cases eq
    cases hs
  | number =>
    obtain ⟨_, _, w, _, eq, number⟩ := exists_of_readNumber h
    cases eq
    cases number <;> cases hs
  | name start =>
    cases h
    cases hs
    exact oneLine_ofList.mpr (start.oneLine)
  | @format marks quote body rest start eq hq _ _ _ line =>
    cases h
    cases hs
    have other : quote ≠ '\n' := by rcases hq with rfl | rfl <;> decide
    have name := start.oneLine
    simp only [← eq, mem_cons, not_or] at name
    rw [oneLine_ofList]
    simp [name, line, other.symm]
  | operator start _ pair =>
    cases h
    cases hs
    rcases pair with rfl | ⟨d, rfl, pair⟩
    · refine oneLine_ofList.mpr ?_
      rw [mem_singleton]
      rintro rfl
      revert start
      decide
    · have all : ∀ op ∈ pairedOperators, OneLine op := by decide
      exact all _ (contains_iff_mem.mp pair)
  | @mark w hw =>
    cases h
    cases w <;> cases hw <;> cases hs
  | unterminated | invalid => cases h

theorem oneLine_describe_word (spelled : ∀ text, w.spelling? = some text → OneLine text) :
    OneLine w.describe ↔ ∀ text, w = .string text → OneLine text := by
  cases w with
  | string text => simp [Word.describe, OneLine]
  | identifier text | formatString text | operator text =>
    have text : '\n' ∉ text.toList := spelled text rfl
    simp [Word.describe, OneLine, text]
  | integer i =>
    have number : '\n' ∉ i.toInt.repr.toList := oneLine_toString_toInt i
    simp [Word.describe, OneLine, number]
  | float f =>
    have number : '\n' ∉ (Decimal.plain.write f).toList := oneLine_write_plain f
    simp [Word.describe, OneLine, number]
  | colon | comma | openAngle | closeAngle => simp [Word.describe, OneLine]

theorem oneLine_describe_iff {source : String} {ts : List Token} (h : tokens source = .ok ts)
    {t : Token} (ht : t ∈ ts) :
    OneLine (describe t.kind) ↔ ∀ text, t.kind = .word (.string text) → OneLine text := by
  obtain ⟨k, span⟩ := t
  cases k with
  | word w =>
    obtain ⟨previous, c, cs, n, read⟩ := Scanner.word_of_tokensOf h _ ht w rfl
    rw [describe, TokenKind.describe,
      oneLine_describe_word fun _ hs => spelling_oneLine read hs]
    simp
  | opening b | closing b => cases b <;> simp [describe, TokenKind.describe, OneLine] <;> decide
  | _ => simp [describe, TokenKind.describe, OneLine]

end ViewBridge.Markup

namespace ViewBridge.Classes

open List

variable {c quote : Char} {cs rest : List Char} {misread : Misread} {before n : Nat} {text : String}
  {w : Word}

theorem readString_quotes {raw : Bool} (h : readString raw quote before rest = .error misread) :
    '\n' ∉ misread.fault.quoted := by
  unfold readString at h
  dsimp only at h
  split at h
  all_goals
    split at h
    next => cases h
    next =>
      cases h
      exact not_mem_nil

theorem numeral_newline (isFloat : Bool) (cs : List Char) : '\n' ∉ (numeral isFloat cs).text := by
  fun_induction numeral isFloat cs with
  | case1 => simp
  | case2 isFloat c rest hc ih =>
    have other : c ≠ '\n' := by
      rintro rfl
      cases hc
    simp [Numeral.push, ih, other.symm]
  | case3 isFloat rest _ ih => simpa [Numeral.push] using ih
  | case4 isFloat c rest _ _ point ih =>
    obtain ⟨rfl, _⟩ := point
    simp [Numeral.push, ih]
  | case5 isFloat c _ _ _ mark sign after hs ih =>
    rcases mark with rfl | rfl <;> rcases hs with rfl | rfl <;> simp [Numeral.push, ih]
  | case6 isFloat c _ _ _ mark sign after hs ih =>
    rcases mark with rfl | rfl <;> simp [Numeral.push, ih]
  | case7 isFloat c _ _ _ mark => rcases mark with rfl | rfl <;> simp
  | case8 => simp

theorem readRadixNumber_quotes {negative : Bool} {radix : Nat}
    (h : readRadixNumber negative radix before rest = .error misread) :
    '\n' ∉ misread.fault.quoted := by
  unfold readRadixNumber at h
  dsimp only at h
  split at h
  next => cases h
  next =>
    cases h
    have taken : '\n' ∉ rest.takeWhile isRadixPart :=
      newline_not_mem_of_forall rfl fun _ hc => mem_takeWhile_imp hc
    simp only [LexFault.quoted, String.toList_ofList]
    exact fun hm => taken ((mem_filter.mp hm).1)

theorem readNumber_quotes (h : readNumber c cs = .error misread) : '\n' ∉ misread.fault.quoted := by
  have parts : ∃ sign digits, '\n' ∉ sign ∧
      (if c = '-' then (['-'], cs) else ([], c :: cs)) = (sign, digits) := by
    split
    · exact ⟨_, _, by decide, rfl⟩
    · exact ⟨_, _, not_mem_nil, rfl⟩
  obtain ⟨sign, digits, hs, eq⟩ := parts
  have text : '\n' ∉ ((numeral false digits).push sign sign.length).text := by
    simp [Numeral.push, hs, numeral_newline]
  unfold readNumber at h
  rw [eq] at h
  dsimp only at h
  split at h
  next => exact readRadixNumber_quotes h
  next =>
    split at h
    next next found =>
      cases h
      obtain ⟨_, letter⟩ := Option.filter_eq_some_iff.mp found
      have start : Text.isNameStart next = true := by simp [Text.isNameStart, letter]
      simp only [LexFault.quoted, String.toList_ofList, mem_cons, not_or]
      exact ⟨(ne_newline_of_isNameStart start).symm, text⟩
    next =>
      split at h
      all_goals
        split at h
        next => cases h
        next =>
          cases h
          simpa [LexFault.quoted] using text

theorem readWord_quotesLine : Lexicon.QuotesLine readWord := by
  intro previous c cs misread hc h
  have hr := readWord_reading previous c cs
  generalize readWord previous c cs = r at h hr
  cases hr with
  | unjoined =>
    cases h
    exact not_mem_nil
  | string => exact readString_quotes h
  | number => exact readNumber_quotes h
  | invalid =>
    cases h
    simpa [LexFault.quoted] using hc.symm
  | _ => cases h

theorem operatorRun_newline (cs : List Char) : '\n' ∉ operatorRun cs := by
  fun_induction operatorRun cs with
  | case1 => exact not_mem_nil
  | case2 c rest hc ih =>
    have other : c ≠ '\n' := by
      rintro rfl
      exact absurd hc.1 (by decide)
    simp [ih, other.symm]
  | case3 => exact not_mem_nil

/-- The words that are kept as they are written have no line end in them. -/
theorem spelling_oneLine {previous : Option Kind}
    (h : readWord previous c cs = .ok (.word w n)) (hs : w.spelling? = some text) :
    OneLine text := by
  have hr := readWord_reading previous c cs
  generalize readWord previous c cs = r at h hr
  cases hr with
  | string =>
    obtain ⟨said, n, eq⟩ := exists_string_of_readString h
    cases eq
    cases hs
  | number =>
    obtain ⟨w, n, eq, hw⟩ := exists_number_of_readNumber h
    cases eq
    cases w <;> cases hw <;> cases hs
  | name start =>
    cases h
    have parts : '\n' ∉ cs.takeWhile Text.isNamePart :=
      newline_not_mem_of_forall Text.isNamePart_newline fun _ hm => mem_takeWhile_imp hm
    rw [← keyword?_spelling hs, oneLine_ofList]
    simp [parts, (ne_newline_of_isNameStart start).symm]
  | @mark w _ hw =>
    cases h
    cases w <;> cases hw <;> cases hs
  | sign _ mem =>
    cases h
    cases hs
    generalize String.ofList _ = text at mem
    revert text
    decide
  | operator start =>
    cases h
    rw [← operatorWord_spelling hs, oneLine_ofList]
    have other : c ≠ '\n' := by
      rintro rfl
      revert start
      decide
    simp [operatorRun_newline, other.symm]
  | _ => cases h

theorem oneLine_describe_word (spelled : ∀ text, w.spelling? = some text → OneLine text) :
    OneLine w.describe := by
  cases w with
  | identifier text | operator text =>
    have text : '\n' ∉ text.toList := spelled text rfl
    simp [Word.describe, OneLine, text]
  | integer i =>
    have number : '\n' ∉ i.toInt.repr.toList := oneLine_toString_toInt i
    simp [Word.describe, OneLine, number]
  | float f =>
    have number : '\n' ∉ (Decimal.plain.write f).toList := oneLine_write_plain f
    simp [Word.describe, OneLine, number]
  | _ => simp [Word.describe, OneLine]

theorem oneLine_describe {source : String} {ts : List Token} (h : tokens source = .ok ts)
    {t : Token} (ht : t ∈ ts) : OneLine (describe t.kind) := by
  obtain ⟨k, span⟩ := t
  cases k with
  | word w =>
    obtain ⟨previous, c, cs, n, read⟩ := Scanner.word_of_tokensOf h _ ht w rfl
    exact oneLine_describe_word fun _ hs => spelling_oneLine read hs
  | opening b | closing b => cases b <;> simp [describe, TokenKind.describe, OneLine] <;> decide
  | _ => simp [describe, TokenKind.describe, OneLine]

end ViewBridge.Classes
