import ViewBridge.Proofs.Decimal.Digits
import ViewBridge.Proofs.Source.Step

namespace ViewBridge

open Scanner List

variable {c : Char} {p : Char → Bool}

-- A table of characters is checked entry by entry, never by running over all characters.
instance (priority := 2000) charsDecidable (p : Char → Prop) [DecidablePred p] (cs : List Char) :
    Decidable (∀ c ∈ cs, p c) :=
  List.decidableBAll p cs

theorem takeWhile_boundary {body rest : List Char} (inside : ∀ c ∈ body, p c = true)
    (boundary : ∀ c ∈ rest.head?, p c = false) :
    (body ++ rest).takeWhile p = body ∧ (body ++ rest).dropWhile p = rest := by
  rw [takeWhile_append_of_pos inside, dropWhile_append_of_pos inside]
  cases rest with
  | nil => simp
  | cons c rest =>
    have stop := boundary c (by simp)
    simp [stop]

section Append

variable {d : Char} (cs more : List Char)

theorem takeWhile_append_stop (hp : p d = false) :
    (cs ++ d :: more).takeWhile p = cs.takeWhile p := by
  induction cs with
  | nil => simp [hp]
  | cons c cs ih => simp only [cons_append, takeWhile_cons, ih]

theorem dropWhile_append_stop (hp : p d = false) :
    (cs ++ d :: more).dropWhile p = cs.dropWhile p ++ d :: more := by
  induction cs with
  | nil => simp [hp]
  | cons c cs ih =>
    simp only [cons_append, dropWhile_cons, ih]
    split <;> rfl

theorem head?_append_cons : (cs ++ d :: more).head? = some (cs.head?.getD d) := by
  cases cs <;> rfl

theorem length_takeWhile_le : (cs.takeWhile p).length ≤ cs.length :=
  ( takeWhile_prefix p).length_le

/-- A minus is cut off from the digits behind it. -/
theorem exists_signed (c : Char) : ∃ sign digits : List Char,
    sign.length + digits.length = cs.length + 1 ∧
      ∀ rest, (if c = '-' then (['-'], cs ++ rest) else ([], c :: (cs ++ rest))) =
        (sign, digits ++ rest) := by
  by_cases hc : c = '-'
  · exact ⟨['-'], cs, Nat.add_comm 1 _, fun rest => if_pos hc⟩
  · exact ⟨[], c :: cs, Nat.zero_add _, fun rest => if_neg hc⟩

end Append

theorem ne_of_class {d : Char} (hc : p c = true) (hd : p d = false) : c ≠ d := by
  rintro rfl
  rw [hc] at hd
  cases hd

/-- Characters that no word starts with. -/
def plainChars : List Char := [' ', '\t', '\r', '\n', '#', '(', '[', '\x7b', ')', ']', '\x7d']

theorem startsWord_of_class (hc : p c = true) (hp : ∀ d ∈ plainChars, p d = false) :
    StartsWord c := by
  have ne : ∀ d ∈ plainChars, c ≠ d := fun d hd => ne_of_class hc (hp d hd)
  simp only [plainChars, forall_mem_cons] at ne
  refine ⟨?_, ?_, ?_⟩ <;> simp [isLayoutChar, Bracket.ofOpenChar?, Bracket.ofCloseChar?, ne]

theorem startsWord_of_isNameStart (h : Text.isNameStart c = true) : StartsWord c :=
  startsWord_of_class h (by decide)

theorem startsWord_of_isDigit (h : Text.isDigit c = true) : StartsWord c :=
  startsWord_of_class h (by decide)

theorem isNameStart_of_isDigit (h : Text.isDigit c = true) : Text.isNameStart c = false := by
  have bounds := Decimal.isDigit_bounds h
  have ne : c ≠ '_' := by
    rintro rfl
    cases h
  have low : Text.isAlphabetic c = false := by
    unfold Text.isAlphabetic Text.alphabeticRanges
    rw [Text.rangesFrom, Text.inRanges, if_pos (by omega)]
  simp [Text.isNameStart, low, ne]

theorem isDigit_of_isNameStart (h : Text.isNameStart c = true) : Text.isDigit c = false := by
  cases hd : Text.isDigit c with
  | false => rfl
  | true =>
    rw [isNameStart_of_isDigit hd] at h
    cases h

end ViewBridge
