import ViewBridge.Proofs.Classes.Quoted
import ViewBridge.Text.Blank

namespace ViewBridge.Text

theorem mem_of_inRanges {code : Nat} {ranges : List (Nat × Nat)}
    (h : inRanges code ranges = true) :
    code ∈ ranges.flatMap fun r => List.range' r.1 (r.2 + 1 - r.1) := by
  induction ranges with
  | nil => cases h
  | cons r ranges ih =>
    obtain ⟨low, high⟩ := r
    unfold inRanges at h
    rw [List.flatMap_cons, List.mem_append]
    split at h
    next => cases h
    next above =>
      split at h
      next below =>
        left
        rw [List.mem_range'_1]
        omega
      next => exact .inr (ih h)

def blankCodes : List Nat := blankRanges.flatMap fun r => List.range' r.1 (r.2 + 1 - r.1)

theorem forall_blank {P : Char → Prop} (h : ∀ code ∈ blankCodes, P (Char.ofNat code)) {c : Char}
    (hc : isBlank c = true) : P c := by
  have code := h c.toNat (mem_of_inRanges hc)
  rwa [Char.ofNat_toNat] at code

end ViewBridge.Text

namespace ViewBridge.Classes

open List

variable {previous : Option Kind} {lexeme : Lexeme Word} {before : Nat}

/-- Characters at which every word but a string ends. -/
def isParting (c : Char) : Bool := Text.isBlank c || c == '#' || c == '\\'

/-- Characters that go on a word or decide what it is. -/
def goesOn (c : Char) : Bool :=
  Text.isNamePart c || Text.isDigit c || isRadixPart c || operatorChars.contains c ||
    ['.', '_', '\'', '"'].contains c

theorem goesOn_of_isParting {c : Char} (h : isParting c = true) : goesOn c = false := by
  simp only [isParting, Bool.or_eq_true, beq_iff_eq] at h
  rcases h with (h | rfl) | rfl
  · exact Text.forall_blank (P := (goesOn · = false)) (by decide +kernel) h
  · decide
  · decide

/-- A text that no word goes on into. -/
def Parted (cs : List Char) : Prop := ∀ c ∈ cs.head?, goesOn c = false

theorem parted_newline (cs : List Char) : Parted ('\n' :: cs) := by
  intro c hc
  cases hc
  decide

section Append

variable {p : Char → Bool} {c : Char} {cs more : List Char}

theorem Parted.stop (hm : Parted (c :: more)) (hp : ∀ c, p c = true → goesOn c = true) :
    p c = false := by
  by_contra on
  have parting := hm c rfl
  rw [hp c (by simpa using on)] at parting
  cases parting

theorem Parted.ne (hm : Parted (c :: more)) {d : Char} (hd : goesOn d = true) : c ≠ d := by
  rintro rfl
  have parting := hm c rfl
  rw [hd] at parting
  cases parting

theorem takeWhile_append_parted (hp : ∀ c, p c = true → goesOn c = true) (hm : Parted more) :
    (cs ++ more).takeWhile p = cs.takeWhile p := by
  cases more with
  | nil => rw [append_nil]
  | cons d more => exact takeWhile_append_stop cs more (hm.stop hp)

theorem dropWhile_append_parted (hp : ∀ c, p c = true → goesOn c = true) (hm : Parted more) :
    (cs ++ more).dropWhile p = cs.dropWhile p ++ more := by
  cases more with
  | nil => rw [append_nil, append_nil]
  | cons d more => exact dropWhile_append_stop cs more (hm.stop hp)

theorem any_head?_append_parted (hp : ∀ c, p c = true → goesOn c = true) (hm : Parted more) :
    (cs ++ more).head?.any p = cs.head?.any p := by
  cases cs with
  | cons => rfl
  | nil =>
    cases more with
    | nil => rfl
    | cons d more => exact hm.stop hp

theorem head?_append_parted (hc : goesOn c = true) (hm : Parted more) :
    (cs ++ more).head? = some c ↔ cs.head? = some c := by
  cases cs with
  | cons => rfl
  | nil =>
    refine ⟨fun h => ?_, nofun⟩
    obtain ⟨rest, rfl⟩ := head?_eq_some_iff.mp h
    exact absurd rfl (hm.ne hc)

theorem take_two_append_parted (hc : goesOn c = true) (hm : Parted more) :
    (cs ++ more).take 2 = [c, c] ↔ cs.take 2 = [c, c] := by
  match cs with
  | d :: e :: cs => simp
  | [d] =>
    cases more with
    | nil => rfl
    | cons e more => simp [hm.ne hc]
  | [] =>
    cases more with
    | nil => rfl
    | cons e more => simp [hm.ne hc]

end Append

section Parted

variable {c : Char} {cs more : List Char} {w : Word} {n : Nat}

theorem numeral_append_parted (hm : Parted more) (isFloat : Bool) (cs : List Char) :
    numeral isFloat (cs ++ more) = numeral isFloat cs := by
  have stop : ∀ isFloat, numeral isFloat more = ⟨[], 0, isFloat⟩ := by
    intro isFloat
    cases more with
    | nil => rfl
    | cons c more =>
      have digit : Text.isDigit c = false := hm.stop fun d hd => by simp [goesOn, hd]
      rw [numeral.eq_def]
      simp [digit, hm.ne (d := '_') (by decide), hm.ne (d := '.') (by decide),
        hm.ne (d := 'e') (by decide), hm.ne (d := 'E') (by decide)]
  fun_induction numeral isFloat cs with
  | case1 => exact stop _
  | case2 isFloat c rest hd ih =>
    rw [cons_append, numeral.eq_def]
    simp only [hd, ih, ↓reduceIte]
  | case3 isFloat rest hd ih =>
    rw [cons_append, numeral.eq_def]
    simp only [hd, ih, ↓reduceIte]
    rfl
  | case4 isFloat c rest hd hu hp ih =>
    rw [cons_append, numeral.eq_def]
    simp only [hd, hu, ih, if_pos hp]
    rfl
  | case5 isFloat c hd hu hp he sign after hs ih =>
    rw [cons_append, cons_append, numeral.eq_def]
    simp only [hd, hu, ih, if_neg hp, if_pos he, if_pos hs]
    rfl
  | case6 isFloat c hd hu hp he sign after hs ih =>
    rw [cons_append] at ih
    rw [cons_append, cons_append, numeral.eq_def]
    simp only [hd, hu, ih, if_neg hp, if_pos he, if_neg hs]
    rfl
  | case7 isFloat c hd hu hp he =>
    rw [cons_append, nil_append, numeral.eq_def]
    cases more with
    | nil =>
      simp only [hd, hu, if_neg hp, if_pos he]
      rfl
    | cons sign after =>
      have unsigned : ¬(sign = '+' ∨ sign = '-') :=
        fun h => h.elim (hm.ne (by decide)) (hm.ne (by decide))
      simp only [hd, hu, if_neg hp, if_pos he, if_neg unsigned, stop]
      rfl
  | case8 isFloat c rest hd hu hp he =>
    rw [cons_append, numeral.eq_def]
    simp only [hd, hu, if_neg hp, if_neg he]
    rfl

theorem length_numeral_le (isFloat : Bool) (cs : List Char) :
    (numeral isFloat cs).length ≤ cs.length := by
  fun_induction numeral isFloat cs with
  | case1 => exact Nat.le_refl 0
  | case7 => exact Nat.le_refl 1
  | case8 => exact Nat.zero_le _
  | _ =>
    simp only [Numeral.push, length_cons] at *
    omega

theorem operatorRun_append_parted (hm : Parted more) (cs : List Char) :
    operatorRun (cs ++ more) = operatorRun cs := by
  induction cs with
  | nil =>
    cases more with
    | nil => rfl
    | cons c more =>
      have stop : operatorChars.contains c = false :=
        hm.stop fun d hd => by simp only [goesOn, hd, Bool.or_true, Bool.true_or]
      rw [nil_append, operatorRun.eq_def]
      simp only [stop, Bool.false_eq_true, false_and, ↓reduceIte]
      rfl
  | cons c cs ih =>
    rw [cons_append, operatorRun.eq_def, operatorRun.eq_def (c :: cs)]
    simp only [ih, head?_append_parted (c := '>') (by decide) hm]

theorem two_le_of_radix {digits : List Char} {radix : Nat}
    (h : (if digits.head? = some '0' then digits[1]?.bind radix? else none) = some radix) :
    2 ≤ digits.length := by
  split at h
  next =>
    obtain ⟨d, hd, _⟩ := Option.bind_eq_some_iff.mp h
    exact (List.getElem?_eq_some_iff.mp hd).1
  next => cases h

theorem radix_append_parted (hm : Parted more) (digits : List Char) :
    (if (digits ++ more).head? = some '0' then (digits ++ more)[1]?.bind radix? else none) =
      if digits.head? = some '0' then digits[1]?.bind radix? else none := by
  match digits with
  | d :: e :: rest => rfl
  | [d] =>
    cases more with
    | nil => rfl
    | cons c more =>
      have plain : radix? c = none := by
        unfold radix?
        rw [if_neg (fun h => h.elim (hm.ne (by decide)) (hm.ne (by decide))),
          if_neg (fun h => h.elim (hm.ne (by decide)) (hm.ne (by decide))),
          if_neg (fun h => h.elim (hm.ne (by decide)) (hm.ne (by decide)))]
      simp [plain]
  | [] =>
    have none : (([] : List Char) ++ more).head? ≠ some '0' := by
      intro h
      obtain ⟨after, rfl⟩ := head?_eq_some_iff.mp h
      exact hm.ne (d := '0') (by decide) rfl
    rw [if_neg none]
    rfl

theorem readRadixNumber_append_parted (hm : Parted more) (negative : Bool) (radix before : Nat)
    (cs : List Char) : readRadixNumber negative radix before (cs ++ more) =
      readRadixNumber negative radix before cs := by
  have on : ∀ c, isRadixPart c = true → goesOn c = true := by
    intro c hc
    simp [goesOn, hc]
  unfold readRadixNumber
  rw [takeWhile_append_parted on hm]

theorem readNumber_append_parted (hm : Parted more) (c : Char) (cs : List Char) :
    readNumber c (cs ++ more) = readNumber c cs := by
  obtain ⟨sign, digits, length, signed⟩ := exists_signed cs c
  have alone := signed []
  rw [append_nil, append_nil] at alone
  unfold readNumber
  simp only [signed, alone, radix_append_parted hm]
  cases hr : (if digits.head? = some '0' then digits[1]?.bind radix? else none) with
  | some radix =>
    simp only [drop_append_of_le_length (two_le_of_radix hr), readRadixNumber_append_parted hm]
  | none =>
    have number := length_numeral_le false digits
    have read : ((numeral false digits).push sign sign.length).length =
        sign.length + (numeral false digits).length := rfl
    have next : ((digits.drop (numeral false digits).length ++ more).head?.filter
        Text.isAlphabetic) = (digits.drop (numeral false digits).length).head?.filter
          Text.isAlphabetic := by
      cases digits.drop (numeral false digits).length with
      | cons => rfl
      | nil =>
        cases more with
        | nil => rfl
        | cons c more =>
          have letter : Text.isAlphabetic c = false := hm.stop fun d hd => by
            simp [goesOn, Text.isNamePart, Text.isAlphanumeric, hd]
          simp [letter]
    simp only [numeral_append_parted hm, read, Nat.add_sub_cancel_left,
      drop_append_of_le_length number, next]

theorem readNumber_length_le (h : readNumber c cs = .ok (.word w n)) : n ≤ cs.length := by
  obtain ⟨sign, digits, length, signed⟩ := exists_signed cs c
  have alone := signed []
  rw [append_nil, append_nil] at alone
  unfold readNumber readRadixNumber at h
  simp only [alone] at h
  split at h
  next radix hr =>
    have two := two_le_of_radix hr
    have taken := length_takeWhile_le (p := isRadixPart) (digits.drop 2)
    rw [length_drop] at taken
    split at h <;> cases h
    omega
  next =>
    have number := length_numeral_le false digits
    have read : ((numeral false digits).push sign sign.length).length =
        sign.length + (numeral false digits).length := rfl
    split at h
    next => cases h
    next => split at h <;> split at h <;> cases h <;> omega

theorem readString_ne_word {raw : Bool} (hw : ∀ text, w ≠ .string text) :
    readString raw c before cs ≠ .ok (.word w n) := by
  intro h
  obtain ⟨said, m, eq⟩ := exists_string_of_readString h
  cases eq
  exact hw said rfl

theorem readWord_length_le (h : readWord previous c cs = .ok (.word w n)) : n ≤ cs.length := by
  by_cases hw : ∃ said, w = .string said
  · obtain ⟨said, rfl⟩ := hw
    obtain ⟨front, body, raw, quote, opening, rfl, string⟩ := readWord_opensString h
    obtain ⟨text, rest, rfl, rfl, _⟩ := exists_of_readString opening.ne_slash string
    simp only [length_append]
    omega
  have hr := readWord_reading previous c cs
  generalize readWord previous c cs = r at h hr
  cases hr with
  | string => exact absurd h (readString_ne_word (not_exists.mp hw))
  | number => exact readNumber_length_le h
  | name =>
    cases h
    exact length_takeWhile_le cs
  | mark _ hn =>
    cases h
    exact hn
  | sign eq =>
    cases h
    subst eq
    exact (prefix_append ..).length_le
  | operator =>
    cases h
    exact (operatorRun_isPrefix cs).length_le
  | _ => cases h

end Parted

/-- A reader that reads the same words but strings whatever comes behind a text that ends there. -/
def Settled (read : List Char → Except Misread (Lexeme Word)) (cs : List Char) : Prop :=
  ∀ more, Parted more → ∀ w n, (∀ text, w ≠ .string text) →
    (read (cs ++ more) = .ok (.word w n) ↔ read cs = .ok (.word w n))

section Settled

variable {read other : List Char → Except Misread (Lexeme Word)} {cs : List Char}

theorem Settled.of_eq (h : ∀ more, Parted more → read (cs ++ more) = read cs) : Settled read cs :=
  fun more hm w n _ => by rw [h more hm]

theorem Settled.ite {P : List Char → Prop} [∀ cs, Decidable (P cs)]
    (hP : ∀ more, Parted more → (P (cs ++ more) ↔ P cs)) (hr : Settled read cs)
    (ho : Settled other cs) : Settled (fun cs => if P cs then read cs else other cs) cs := by
  intro more hm w n hw
  simp only [hP more hm]
  split
  next => exact hr more hm w n hw
  next => exact ho more hm w n hw

theorem readIdentifier_settled (c : Char) (cs : List Char) : Settled (readIdentifier c) cs := by
  intro more hm w n hw
  have on : ∀ c, Text.isNamePart c = true → goesOn c = true := by
    intro c hc
    simp [goesOn, hc]
  unfold readIdentifier
  simp only [takeWhile_append_parted on hm, dropWhile_append_parted on hm]
  cases cs.dropWhile Text.isNamePart with
  | cons quote rest =>
    simp only [cons_append]
    split
    next => exact iff_of_false (readString_ne_word hw) (readString_ne_word hw)
    next => rfl
  | nil =>
    cases more with
    | nil => rfl
    | cons d more =>
      have bare : ¬((d = '\'' ∨ d = '"') ∧ stringPrefixes.contains (String.ofList
          ((c :: cs.takeWhile Text.isNamePart).map Decimal.lowerAscii)) = true) :=
        fun h => h.1.elim (hm.ne (by decide)) (hm.ne (by decide))
      simp only [nil_append, if_neg bare]

theorem readWord_settled (previous : Option Kind) (c : Char) (cs : List Char) :
    Settled (readWord previous c) cs := by
  have digits : ∀ d, Text.isDigit d = true → goesOn d = true := by
    intro d hd
    simp [goesOn, hd]
  unfold readWord
  refine .ite (fun _ _ => Iff.rfl) ?_ ?_
  · intro more hm w n hw
    unfold readContinuation
    constructor <;> intro h <;> split at h <;> cases h
  refine .ite (fun _ _ => Iff.rfl) ?_ ?_
  · exact fun _ _ _ _ hw => iff_of_false (readString_ne_word hw) (readString_ne_word hw)
  refine .ite (fun more hm => ?_) (.of_eq fun more hm => readNumber_append_parted hm c cs) ?_
  · simp only [any_head?_append_parted digits hm]
  refine .ite (fun _ _ => Iff.rfl) (readIdentifier_settled c cs) ?_
  refine .ite (fun _ _ => Iff.rfl) ?_ ?_
  · exact .ite (fun more hm => take_two_append_parted (by decide) hm) (.of_eq fun _ _ => rfl)
      (.of_eq fun _ _ => rfl)
  refine .ite (fun _ _ => Iff.rfl) (.of_eq fun _ _ => rfl) ?_
  refine .ite (fun _ _ => Iff.rfl) (.of_eq fun _ _ => rfl) ?_
  refine .ite (fun _ _ => Iff.rfl) (.of_eq fun _ _ => rfl) ?_
  refine .ite (fun _ _ => Iff.rfl) ?_ ?_
  · exact .ite (fun more hm => head?_append_parted (by decide) hm) (.of_eq fun _ _ => rfl)
      (.of_eq fun _ _ => rfl)
  refine .ite (fun _ _ => Iff.rfl) ?_ ?_
  · exact .ite (fun more hm => head?_append_parted (by decide) hm) (.of_eq fun _ _ => rfl)
      (.of_eq fun _ _ => rfl)
  refine .ite (fun more hm => ?_) (.of_eq fun _ _ => rfl) ?_
  · rw [head?_append_parted (by decide) hm]
  refine .ite (fun _ _ => Iff.rfl) (.of_eq fun more hm => ?_) (.of_eq fun _ _ => rfl)
  rw [operatorRun_append_parted hm]

end Settled

/-- Words but strings are read the same before any two texts that they do not go on into, behind
tokens that are operands both or neither. -/
theorem readWord_append_parted {previous' : Option Kind} {c : Char}
    {cs more more' : List Char} {w : Word} {n : Nat} (hw : ∀ text, w ≠ .string text)
    (hp : previous.any endsOperand = previous'.any endsOperand) (hm : Parted more)
    (hm' : Parted more') (h : readWord previous c (cs ++ more) = .ok (.word w n)) :
    readWord previous' c (cs ++ more') = .ok (.word w n) ∧ n ≤ cs.length := by
  have blind : readWord previous c = readWord previous' c := by
    funext cs
    unfold readWord
    rw [hp]
  have alone := (readWord_settled previous c cs more hm w n hw).mp h
  refine ⟨?_, readWord_length_le alone⟩
  rw [← blind]
  exact (readWord_settled previous c cs more' hm' w n hw).mpr alone

/-- Characters that a word or the join of two lines starts with. -/
def startsReading (c : Char) : Bool :=
  Text.isDigit c || Text.isNameStart c || operatorChars.contains c ||
    ['\\', '\'', '"', '.', ',', '@', ';', ':', '|'].contains c

theorem startsReading_of_readWord {c : Char} {cs : List Char}
    (h : readWord previous c cs = .ok lexeme) : startsReading c = true := by
  by_contra hc
  have mark {d : Char} (hd : startsReading d = true) : c ≠ d := by
    rintro rfl
    exact hc hd
  simp only [startsReading, Bool.or_eq_true, not_or, Bool.not_eq_true] at hc
  obtain ⟨⟨⟨digit, start⟩, operator⟩, _⟩ := hc
  have invalid : readWord previous c cs = .error ⟨.invalidCharacter c, 0, 1⟩ := by
    unfold readWord
    simp only [digit, start, operator, mark (d := '\\') (by decide), mark (d := '\'') (by decide),
      mark (d := '"') (by decide), mark (d := '.') (by decide), mark (d := ',') (by decide),
      mark (d := '@') (by decide), mark (d := ';') (by decide), mark (d := ':') (by decide),
      mark (d := '|') (by decide), mark (d := '-') (by decide), false_and, or_self, if_false,
      Bool.false_eq_true]
  rw [invalid] at h
  cases h

theorem isBlank_of_readWord {c : Char} {cs : List Char} (h : readWord previous c cs = .ok lexeme) :
    Text.isBlank c = false := by
  have start := startsReading_of_readWord h
  cases blank : Text.isBlank c with
  | false => rfl
  | true =>
    have none := Text.forall_blank (P := (startsReading · = false)) (by decide +kernel) blank
    rw [start] at none
    cases none

end ViewBridge.Classes
