import ViewBridge.Markup.Token
import ViewBridge.Proofs.Source.Tiling

namespace ViewBridge.Markup

open List

variable {c quote : Char} {lexeme : Lexeme Word} {cs : List Char} {n : Nat}

/-- The text of a word that is kept as it is written. -/
def Word.spelling? : Word → Option String
  | .identifier text | .operator text | .formatString text => some text
  | _ => none

theorem exists_string_of_readString {escape : Char → List Char} {before : Nat} {rest : List Char}
    (h : readString escape quote before rest = .ok lexeme) : ∃ said n, lexeme = .word (.string said) n := by
  unfold readString at h
  split at h <;> cases h
  exact ⟨_, _, rfl⟩

/-- The number that a sign and the digits at the start of a text say. -/
inductive IsNumeral (sign digits : List Char) : Word → Prop
  | float {f} : (numberText digits).2 = true →
      Decimal.readFloat? (sign ++ (numberText digits).1) = some f → IsNumeral sign digits (.float f)
  | integer {i} : Decimal.readInt64? (sign ++ (numberText digits).1) = some i →
      IsNumeral sign digits (.integer i)

theorem exists_of_value {sign digits : List Char} (h : readNumber.value
      (sign ++ (numberText digits).1) (numberText digits).2 = .ok lexeme) :
    ∃ w, lexeme = .word w ((sign ++ (numberText digits).1).length - 1) ∧ IsNumeral sign digits w := by
  unfold readNumber.value at h
  split at h
  next point =>
    split at h <;> cases h
    next read => exact ⟨_, rfl, .float point read⟩
  next =>
    split at h <;> cases h
    next read => exact ⟨_, rfl, .integer read⟩

theorem exists_of_readNumber (h : readNumber c cs = .ok lexeme) :
    ∃ sign digits w, (if c = '-' then (['-'], cs) else ([], c :: cs)) = (sign, digits) ∧
      lexeme = .word w ((sign ++ (numberText digits).1).length - 1) ∧ IsNumeral sign digits w := by
  generalize parts : (if c = '-' then (['-'], cs) else ([], c :: cs)) = split
  suffices value : readNumber.value (split.1 ++ (numberText split.2).1) (numberText split.2).2 =
      .ok lexeme by
    obtain ⟨w, eq, number⟩ := exists_of_value value
    exact ⟨split.1, split.2, w, rfl, eq, number⟩
  unfold readNumber at h
  rw [parts] at h
  dsimp only at h
  split at h
  next =>
    split at h
    next => cases h
    next => exact h
  next => exact h

/-- A format string lies in one line, and its length does not depend on what follows it. -/
theorem exists_of_formatStringLength? (hq : quote = '\'' ∨ quote = '"')
    (h : formatStringLength? quote cs = some n) :
    ∃ body more, cs = body ++ more ∧ n = body.length ∧ '\n' ∉ body ∧ body.getLast? = some quote ∧
      ∀ rest, formatStringLength? quote (body ++ rest) = some body.length := by
  have newline : quote ≠ '\n' := by rcases hq with rfl | rfl <;> decide
  have slash : quote ≠ '\\' := by rcases hq with rfl | rfl <;> decide
  have closed (rest : List Char) : formatStringLength? quote (quote :: rest) = some 1 := by
    cases rest <;> simp [formatStringLength?, newline, slash]
  fun_induction formatStringLength? quote cs generalizing n with
  | case1 | case3 | case4 | case5 => cases h
  | case2 =>
    cases h
    exact ⟨[quote], [], rfl, rfl, by simpa using newline.symm, rfl, closed⟩
  | case6 e cs he hc ih =>
    obtain ⟨m, hm, rfl⟩ := Option.map_eq_some_iff.mp h
    obtain ⟨body, more, rfl, rfl, line, last, read⟩ := ih hm
    refine ⟨'\\' :: e :: body, more, rfl, rfl, by simp [line, Ne.symm he],
      by simp [getLast?_cons, last], fun rest => ?_⟩
    rw [cons_append, cons_append, formatStringLength?, if_neg hc, if_pos rfl, if_neg he,
      read]
    rfl
  | case7 e cs hc hs =>
    cases h
    exact ⟨[quote], e :: cs, rfl, rfl, by simpa using newline.symm, rfl, closed⟩
  | case8 c e cs hc hs hn ih =>
    obtain ⟨m, hm, rfl⟩ := Option.map_eq_some_iff.mp h
    obtain ⟨_ | ⟨d, body⟩, more, eq, rfl, line, last, read⟩ := ih hm
    · cases last
    refine ⟨c :: d :: body, more, by rw [eq]; rfl, rfl, by simp [line, Ne.symm hc], last,
      fun rest => ?_⟩
    have behind := read rest
    rw [cons_append] at behind ⊢
    rw [cons_append, formatStringLength?, if_neg hc, if_neg hs, if_neg hn, behind]
    rfl

def Word.isPunctuation : Word → Bool
  | .colon | .comma | .openAngle | .closeAngle => true
  | _ => false

/-- Where a name starts: a dotted one does behind a value. -/
def StartsName (previous : Option Kind) (c : Char) (cs : List Char) : Prop :=
  Text.isNameStart c = true ∨
    c = '.' ∧ previous.any endsValue = true ∧ cs.head?.any Text.isNameStart = true

/-- The ways to read a word of the markup, by its first character. -/
inductive Reading (previous : Option Kind) (c : Char) (cs : List Char) :
    Except Misread (Lexeme Word) → Prop
  | string {escape quote before rest} : Reading previous c cs (readString escape quote before rest)
  | number : (c = '-' ∧ cs.head?.any Text.isDigit ∧ !previous.any endsValue) ∨
      (c = '.' ∧ cs.head?.any Text.isDigit) ∨ Text.isDigit c →
      Reading previous c cs (readNumber c cs)
  | name : StartsName previous c cs →
      Reading previous c cs (.ok (.word (.identifier (String.ofList
        (c :: cs.takeWhile isIdentifierPart))) (cs.takeWhile isIdentifierPart).length))
  | format {marks quote body rest} : StartsName previous c cs →
      marks = cs.takeWhile isIdentifierPart → quote = '\'' ∨ quote = '"' →
      stringPrefixes.contains (String.ofList ((c :: marks).map Decimal.lowerAscii)) = true →
      ((c :: marks).map Decimal.lowerAscii).contains 'f' = true →
      cs = marks ++ quote :: (body ++ rest) → '\n' ∉ body →
      (∀ rest, formatStringLength? quote (body ++ rest) = some body.length) →
      Reading previous c cs (.ok (.word (.formatString (String.ofList (c :: marks ++ quote :: body)))
        (marks.length + 1 + body.length)))
  | unterminated : Reading previous c cs (.error ⟨.unterminatedString, 0, 0⟩)
  | mark {w} : w.isPunctuation = true → Reading previous c cs (.ok (.word w 0))
  | operator {text rest} : c = '<' ∨ c = '>' ∨ operatorChars.contains c = true → cs = text ++ rest →
      text = [] ∨ (∃ d, text = [d] ∧ pairedOperators.contains (String.ofList [c, d]) = true) →
      Reading previous c cs (.ok (.word (.operator (String.ofList (c :: text))) text.length))
  | invalid : Reading previous c cs (.error ⟨.invalidCharacter c, 0, 1⟩)

section Reading

variable {previous : Option Kind}

theorem readIdentifier_reading (hc : StartsName previous c cs) :
    Reading previous c cs (readIdentifier c cs) := by
  have split := takeWhile_append_dropWhile (p := isIdentifierPart) (l := cs)
  unfold readIdentifier
  dsimp only
  split
  next => exact .name hc
  next quote rest eq =>
    rw [eq] at split
    split
    next hq =>
      split
      next hf =>
        split
        next n hn =>
          obtain ⟨body, more, rfl, rfl, line, _, read⟩ := exists_of_formatStringLength? hq.1 hn
          rw [take_left]
          exact .format hc rfl hq.1 hq.2 hf split.symm line read
        next => exact .unterminated
      next => exact .string
    next => exact .name hc

theorem readOperator_reading (hc : c = '<' ∨ c = '>' ∨ operatorChars.contains c = true) :
    Reading previous c cs (.ok (readOperator c cs)) := by
  have single : Reading previous c cs (.ok (.word (.operator c.toString) 0)) :=
    .operator hc (nil_append cs).symm (.inl rfl)
  unfold readOperator
  split
  next next rest =>
    dsimp only
    split
    next pair => exact .operator hc (show _ = [next] ++ rest from rfl) (.inr ⟨next, rfl, pair⟩)
    next => exact single
  next => exact single

theorem readWord_reading (previous : Option Kind) (c : Char) (cs : List Char) :
    Reading previous c cs (readWord previous c cs) := by
  unfold readWord
  dsimp only
  refine iteInduction (fun _ => .string) fun _ => ?_
  refine iteInduction .number fun _ => ?_
  refine iteInduction readIdentifier_reading fun _ => ?_
  refine iteInduction (fun _ => .mark rfl) fun _ => ?_
  refine iteInduction (fun _ => .mark rfl) fun _ => ?_
  refine iteInduction (fun h => readOperator_reading (h.1.imp_right .inl)) fun _ => ?_
  refine iteInduction (fun _ => .mark rfl) fun _ => ?_
  refine iteInduction (fun _ => .mark rfl) fun _ => ?_
  exact iteInduction (fun h => readOperator_reading (.inr (.inr h))) fun _ => .invalid

theorem readWord_faithful : Lexicon.Faithful false Word.spelling? readWord := by
  intro previous c cs lexeme h
  have hr := readWord_reading previous c cs
  generalize readWord previous c cs = r at h hr
  cases hr with
  | string =>
    obtain ⟨said, n, rfl⟩ := exists_string_of_readString h
    exact fun _ hs => by cases hs
  | number =>
    obtain ⟨_, _, w, _, rfl, number⟩ := exists_of_readNumber h
    cases number <;> exact fun _ hs => by cases hs
  | name =>
    cases h
    intro s hs
    rw [take_takeWhile_length]
    exact Option.some.inj hs
  | @format marks quote body rest _ _ _ _ _ eq =>
    cases h
    intro s hs
    have taken : cs.take (marks.length + 1 + body.length) = marks ++ quote :: body := by
      rw [eq, Nat.add_assoc, take_length_add_append, Nat.add_comm 1, take_succ_cons,
        take_left]
    rw [taken]
    exact Option.some.inj hs
  | @mark w hw =>
    cases h
    intro s hs
    cases w <;> cases hw <;> cases hs
  | operator _ eq =>
    cases h
    subst eq
    intro s hs
    rw [take_left]
    exact Option.some.inj hs
  | unterminated | invalid => cases h

end Reading

end ViewBridge.Markup
