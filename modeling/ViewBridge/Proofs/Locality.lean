import ViewBridge.Proofs.Classes.Parting
import ViewBridge.Proofs.Markup.Reading
import ViewBridge.Proofs.Source.Append

namespace ViewBridge

open List

variable {c : Char}

/-- Text that does not end in a line end ends before the line does. -/
theorem exists_rest {cs body more : List Char} (eq : cs ++ ['\n'] = body ++ more)
    (last : body.getLast? = some c) (hc : c ≠ '\n') :
    ∃ rest, cs = body ++ rest ∧ more = rest ++ ['\n'] := by
  rcases append_eq_append_iff.mp eq with ⟨line, rfl, tail⟩ | ⟨rest, rfl, tail⟩
  · cases line with
    | nil => exact ⟨[], by simp, tail.symm⟩
    | cons d line =>
      obtain ⟨rfl, nil⟩ := List.cons.inj tail
      obtain ⟨rfl, -⟩ := append_eq_nil_iff.mp nil.symm
      simp only [getLast?_append, getLast?_singleton, Option.some_or] at last
      exact absurd (Option.some.inj last).symm hc
  · exact ⟨rest, rfl, tail⟩

theorem any_eq_false_of_layout {ω : Type} {f : TokenKind ω → Bool} {p : Option (TokenKind ω)}
    (hf : ∀ k, k.isText = false → f k = false) (hp : ∀ k ∈ p, k.isText = false) :
    p.any f = false := by
  cases p with
  | none => rfl
  | some k => exact hf k (hp k rfl)

/-- A word read `before` characters behind its start ends before the line does and is the same
whatever comes behind the line. -/
def Ahead {ω : Type} (before : Nat) (read : List Char → Except Misread (Lexeme ω))
    (cs : List Char) : Prop :=
  ∀ w n, read (cs ++ ['\n']) = .ok (.word w n) →
    n ≤ before + cs.length ∧ ∀ more, read (cs ++ '\n' :: more) = .ok (.word w n)

section Ahead

variable {ω : Type} {before : Nat} {read other : List Char → Except Misread (Lexeme ω)}
  {cs : List Char}

theorem ahead_error {misread : List Char → Misread} : Ahead before (ω := ω) (.error <| misread ·) cs :=
  fun _ _ h => by cases h

theorem Ahead.of_eq (h : ∀ more, read (cs ++ '\n' :: more) = read cs)
    (within : ∀ w n, read cs = .ok (.word w n) → n ≤ before + cs.length) : Ahead before read cs :=
  fun w n line => ⟨within w n (h [] ▸ line), fun more => by rw [h, ← h [], line]⟩

theorem ahead_mark {w : ω} : Ahead before (fun _ => .ok (.word w 0)) cs := by
  refine .of_eq (fun _ => rfl) fun _ _ h => ?_
  cases h
  exact Nat.zero_le _

theorem Ahead.ite {P : List Char → Prop} [∀ cs, Decidable (P cs)]
    (hP : ∀ more, P (cs ++ '\n' :: more) ↔ P (cs ++ ['\n']))
    (hr : P (cs ++ ['\n']) → Ahead before read cs)
    (ho : ¬P (cs ++ ['\n']) → Ahead before other cs) :
    Ahead before (fun cs => if P cs then read cs else other cs) cs := by
  intro w n h
  simp only at h ⊢
  by_cases hp : P (cs ++ ['\n'])
  · rw [if_pos hp] at h
    obtain ⟨hn, hm⟩ := hr hp w n h
    exact ⟨hn, fun more => by rw [if_pos ((hP more).mpr hp), hm]⟩
  · rw [if_neg hp] at h
    obtain ⟨hn, hm⟩ := ho hp w n h
    exact ⟨hn, fun more => by rw [if_neg (mt (hP more).mp hp), hm]⟩

theorem Lexicon.local_of_ahead {lexicon : Lexicon ω}
    (h : ∀ previous c cs, Ahead 0 (lexicon previous c) cs) : lexicon.Local := by
  intro previous c cs w n hr
  obtain ⟨hn, hm⟩ := h previous c cs w n hr
  exact ⟨Nat.zero_add cs.length ▸ hn, hm⟩

end Ahead

namespace Markup

variable {c quote : Char} {cs : List Char} {n : Nat} {escape : Char → List Char}

theorem readString_ahead (hq : quote = '\'' ∨ quote = '"') (before : Nat) :
    Ahead before (readString escape quote before) cs := by
  have other : quote ≠ '\\' ∧ quote ≠ '\n' := by rcases hq with rfl | rfl <;> decide
  have reads := Classes.readsQuoted_quotedText? escape other.1
  intro w n h
  unfold readString at h
  split at h
  next q hs =>
    cases h
    obtain ⟨body, more, eq, length, quoted, _⟩ := reads.exists_quoted hs
    obtain ⟨q', _, read⟩ := quoted.exists_read reads
    rw [eq, read] at hs
    cases hs
    obtain ⟨rest, rfl, rfl⟩ := exists_rest eq quoted.getLast? other.2
    refine ⟨?_, fun more => by rw [readString, append_assoc, read]⟩
    rw [length, length_append]
    omega
  next => cases h

theorem readIdentifier_ahead : Ahead 0 (readIdentifier c) cs := by
  intro w n h
  have hp : isIdentifierPart '\n' = false := by decide
  have length := congrArg List.length (takeWhile_append_dropWhile (p := isIdentifierPart) (l := cs))
  have name : (cs.takeWhile isIdentifierPart).length ≤ 0 + cs.length := by
    rw [Nat.zero_add]
    exact length_takeWhile_le cs
  unfold readIdentifier at h ⊢
  simp only [takeWhile_append_stop _ _ hp, dropWhile_append_stop _ _ hp] at h ⊢
  cases hd : cs.dropWhile isIdentifierPart with
  | nil =>
    have bare : ¬('\n' = '\'' ∨ '\n' = '"') := by decide
    simp only [hd, nil_append, bare, false_and, ↓reduceIte] at h ⊢
    cases h
    exact ⟨name, fun _ => rfl⟩
  | cons quote rest =>
    simp only [hd, cons_append] at h ⊢
    split at h
    next hm =>
      have hq := hm.1
      simp only [if_pos hm]
      rw [hd, length_append, length_cons] at length
      split at h
      next hf =>
        simp only [if_pos hf]
        split at h
        next k hk =>
          cases h
          obtain ⟨body, more, eq, rfl, line, last, read⟩ := exists_of_formatStringLength? hq hk
          obtain ⟨rest, rfl, rfl⟩ :=
            exists_rest eq last (by rcases hq with rfl | rfl <;> decide)
          rw [length_append] at length
          refine ⟨by omega, fun more => ?_⟩
          simp only [append_assoc, read, take_left]
        next => cases h
      next hf =>
        obtain ⟨hl, hm⟩ := readString_ahead hq _ _ _ h
        refine ⟨by omega, fun more => ?_⟩
        rw [if_neg hf, hm]
    next hm =>
      cases h
      exact ⟨name, fun more => by rw [if_neg hm]⟩

theorem numberText_append_stop {d : Char} (hd : Text.isDigit d = false) (hp : d ≠ '.')
    (cs more : List Char) : numberText (cs ++ d :: more) = numberText cs := by
  unfold numberText
  simp only [takeWhile_append_stop _ _ hd, dropWhile_append_stop _ _ hd]
  cases cs.dropWhile Text.isDigit with
  | nil => simp [hp]
  | cons c rest =>
    by_cases hc : c = '.'
    · subst hc
      simp only [cons_append, takeWhile_append_stop _ _ hd]
    · simp [hc]

theorem length_numberText_le (cs : List Char) : (numberText cs).1.length ≤ cs.length := by
  have length := congrArg List.length (takeWhile_append_dropWhile (p := Text.isDigit) (l := cs))
  rw [length_append] at length
  unfold numberText
  split
  next rest hd =>
    have fraction := length_takeWhile_le (p := Text.isDigit) rest
    rw [hd, length_cons] at length
    simp only
    split
    next =>
      simp only
      omega
    next =>
      simp only [length_append, length_cons]
      omega
  next => exact length_takeWhile_le cs

theorem readNumber_append_stop {d : Char} (hd : d = '\n' ∨ d = '\r') (more : List Char) :
    readNumber c (cs ++ d :: more) = readNumber c cs := by
  have digit : Text.isDigit d = false := by rcases hd with rfl | rfl <;> decide
  have point : d ≠ '.' := by rcases hd with rfl | rfl <;> decide
  have name : Text.isNameStart d = false := by rcases hd with rfl | rfl <;> decide
  obtain ⟨sign, digits, _, signed⟩ := exists_signed cs c
  have alone := signed []
  rw [append_nil, append_nil] at alone
  have number := length_numberText_le digits
  unfold readNumber
  simp only [signed, alone, numberText_append_stop digit point, drop_append_of_le_length number]
  cases digits.drop (numberText digits).1.length with
  | nil => simp [name]
  | cons next rest => rfl

theorem readNumber_ahead : Ahead 0 (readNumber c) cs := by
  refine .of_eq (readNumber_append_stop (.inl rfl)) fun w n h => ?_
  obtain ⟨sign, digits, _, parts, eq, _⟩ := exists_of_readNumber h
  have number := length_numberText_le digits
  have length : sign.length + digits.length = cs.length + 1 := by
    split at parts <;> cases parts
    · exact Nat.add_comm ..
    · exact Nat.zero_add _
  cases eq
  rw [length_append]
  omega

theorem readOperator_append_stop {d : Char} (hd : d = '\n' ∨ d = '\r') (more : List Char) :
    readOperator c (cs ++ d :: more) = readOperator c cs := by
  cases cs with
  | nil =>
    have single : pairedOperators.contains (String.ofList [c, d]) = false := by
      by_contra hp
      have ends : ∀ text ∈ pairedOperators, '\n' ∉ text.toList ∧ '\r' ∉ text.toList := by decide
      have free := ends _ (contains_iff_mem.mp (eq_true_of_ne_false hp))
      rcases hd with rfl | rfl <;> simp at free
    simp only [nil_append, readOperator, single]
    rfl
  | cons next cs => rfl

theorem readOperator_ahead : Ahead 0 (fun cs => .ok (readOperator c cs)) cs := by
  refine .of_eq (fun more => congrArg _ (readOperator_append_stop (.inl rfl) more)) fun w n h => ?_
  unfold readOperator at h
  split at h
  next =>
    dsimp only at h
    split at h <;> cases h
    · exact Nat.le_add_left 1 _
    · exact Nat.zero_le _
  next =>
    cases h
    exact Nat.zero_le _

theorem readWord_local : readWord.Local := by
  refine Lexicon.local_of_ahead fun previous c cs => ?_
  have head := head?_append_cons (d := '\n') cs
  unfold readWord
  refine Ahead.ite (fun _ => Iff.rfl) (fun hc => readString_ahead hc 0) fun _ => ?_
  refine Ahead.ite (fun _ => by simp only [head]) (fun _ => readNumber_ahead) fun _ => ?_
  refine Ahead.ite (fun _ => by simp only [head]) (fun _ => readIdentifier_ahead) fun _ => ?_
  refine Ahead.ite (fun _ => Iff.rfl) (fun _ => ahead_mark) fun _ => ?_
  refine Ahead.ite (fun _ => Iff.rfl) (fun _ => ahead_mark) fun _ => ?_
  refine Ahead.ite (fun _ => by simp only [head]) (fun _ => readOperator_ahead) fun _ => ?_
  refine Ahead.ite (fun _ => Iff.rfl) (fun _ => ahead_mark) fun _ => ?_
  refine Ahead.ite (fun _ => Iff.rfl) (fun _ => ahead_mark) fun _ => ?_
  exact Ahead.ite (fun _ => Iff.rfl) (fun _ => readOperator_ahead) fun _ => ahead_error

theorem readWord_gapless : readWord.Gapless := by
  intro previous c cs n h
  have hr := readWord_reading previous c cs
  generalize readWord previous c cs = r at h hr
  cases hr with
  | string =>
    obtain ⟨said, n, eq⟩ := exists_string_of_readString h
    cases eq
  | number =>
    obtain ⟨_, _, _, _, eq, _⟩ := exists_of_readNumber h
    cases eq
  | _ => cases h

theorem readWord_layoutBlind : readWord.LayoutBlind := by
  intro p q hp hq
  have layout : ∀ k : Kind, k.isText = false → endsValue k = false := by
    intro k hk
    cases k with
    | word | opening | closing => cases hk
    | _ => rfl
  funext c cs
  unfold readWord
  rw [any_eq_false_of_layout layout hp, any_eq_false_of_layout layout hq]

end Markup

namespace Classes

theorem readWord_local : readWord.Local := by
  intro previous c cs w n h
  by_cases hw : ∃ said, w = .string said
  · obtain ⟨said, rfl⟩ := hw
    obtain ⟨front, body, raw, quote, opening, eq, string⟩ := readWord_opensString h
    obtain ⟨text, more, rfl, rfl, stringBody, shut, _⟩ :=
      exists_of_readString opening.ne_slash string
    have line : quote ≠ '\n' := by rcases opening.isQuote with rfl | rfl <;> decide
    rw [← append_assoc] at eq
    obtain ⟨rest, rfl, rfl⟩ := exists_rest eq
      (by rw [getLast?_append, stringBody.getLast?]; rfl) line
    obtain ⟨said', read⟩ := stringBody.exists_readString opening.ne_slash raw front.length
    cases (read _ shut).symm.trans string
    refine ⟨by simp only [length_append]; omega, fun more => ?_⟩
    rw [append_assoc, append_assoc, opening.readWord_eq]
    refine read _ fun single => ?_
    rw [head?_append_cons]
    exact fun eq => shut single (by rw [head?_append_cons, eq])
  · have settled := fun more => readWord_settled previous c cs _ (parted_newline more) w n
      (not_exists.mp hw)
    have alone := (settled []).mp h
    exact ⟨readWord_length_le alone, fun more => (settled more).mpr alone⟩

theorem readWord_layoutBlind : readWord.LayoutBlind := by
  intro p q hp hq
  have layout : ∀ k : Kind, k.isText = false → endsOperand k = false := by
    intro k hk
    cases k with
    | word | opening | closing => cases hk
    | _ => rfl
  funext c cs
  unfold readWord
  rw [any_eq_false_of_layout layout hp, any_eq_false_of_layout layout hq]

end Classes

end ViewBridge
