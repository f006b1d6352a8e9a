import Mathlib.Data.List.TakeWhile
import ViewBridge.Decimal.Layout
import ViewBridge.Decimal.Read

namespace ViewBridge.Decimal

open List

open Text (isDigit)

variable {c : Char} {cs fraction whole : List Char}

theorem isDigit_bounds (h : isDigit c = true) : 48 ≤ c.toNat ∧ c.toNat ≤ 57 := by
  simp only [isDigit, Bool.and_eq_true, decide_eq_true_eq] at h
  exact ⟨h.1, h.2⟩

theorem isDigit_of_mem_toDigits {n : Nat} (h : c ∈ Nat.toDigits 10 n) : isDigit c = true := by
  have hd := Nat.isDigit_of_mem_toDigits (by decide) (Nat.le_refl 10) h
  simp only [Char.isDigit, Bool.and_eq_true, decide_eq_true_eq] at hd
  simp only [isDigit, Bool.and_eq_true, decide_eq_true_eq]
  exact hd

theorem digitValue?_of_isDigit (h : isDigit c = true) :
    digitValue? c = some (c.toNat - '0'.toNat) := by
  simp [digitValue?, h]

/-- A row of digits writes the number that they stand for. -/
theorem natOfDigits?_of_isDigit (hne : cs ≠ []) (hd : ∀ c ∈ cs, isDigit c = true) :
    natOfDigits? 10 cs = some (Nat.ofDigitChars 10 cs 0) := by
  have fold : ∀ n, cs.foldlM (fun n c => do
      let d ← digitValue? c
      if d < 10 then some (10 * n + d) else none) n = some (Nat.ofDigitChars 10 cs n) := by
    clear hne
    induction cs with
    | nil => exact fun n => rfl
    | cons c cs ih =>
      intro n
      have hc := hd c (by simp)
      have small : c.toNat - '0'.toNat < 10 := by
        have := isDigit_bounds hc
        have zero : '0'.toNat = 48 := rfl
        omega
      simp only [foldlM_cons, digitValue?_of_isDigit hc, Option.bind_eq_bind, Option.bind_some,
        small, if_true]
      exact ih (fun d hm => hd d (by simp [hm])) _
  unfold natOfDigits?
  rw [if_neg (by simpa using hne)]
  exact fold 0

/-- Nothing, or a minus. -/
def IsSign (sign : List Char) : Prop := sign = [] ∨ sign = ['-']

/-- A row of digits that is not empty. -/
structure IsDigits (cs : List Char) : Prop where
  ne_nil : cs ≠ []
  isDigit : ∀ c ∈ cs, isDigit c = true

theorem isDigits_toDigits (n : Nat) : IsDigits (Nat.toDigits 10 n) :=
  ⟨Nat.toDigits_ne_nil, fun _ h => isDigit_of_mem_toDigits h⟩

theorem IsDigits.exists_cons (h : IsDigits cs) :
    ∃ c rest, cs = c :: rest ∧ Text.isDigit c = true := by
  cases cs with
  | nil => exact absurd rfl h.ne_nil
  | cons c rest => exact ⟨c, rest, rfl, h.isDigit c (by simp)⟩

theorem IsDigits.append {first second : List Char} (h : IsDigits first)
    (hs : ∀ c ∈ second, Text.isDigit c = true) : IsDigits (first ++ second) := by
  refine ⟨by simp [h.ne_nil], fun c hm => ?_⟩
  rcases mem_append.mp hm with hm | hm
  · exact h.isDigit c hm
  · exact hs c hm

theorem IsDigits.splitSign {s : List Char} (h : IsDigits cs) :
    splitSign (cs ++ s) = (false, cs ++ s) := by
  obtain ⟨c, more, rfl, hc⟩ := h.exists_cons
  unfold Decimal.splitSign
  split
  next eq =>
    cases eq
    cases hc
  next eq =>
    cases eq
    cases hc
  next => rfl

theorem readInt64?_eq_bind (cs : List Char) :
    readInt64? cs = (natOfDigits? 10 (splitSign cs).2).bind fun n =>
      int64OfInt? (if (splitSign cs).1 then -(n : Int) else n) := rfl

theorem readInt64?_digits (h : IsDigits cs) :
    readInt64? cs = int64OfInt? (Nat.ofDigitChars 10 cs 0) := by
  have split : splitSign cs = (false, cs) := by simpa using h.splitSign (s := [])
  rw [readInt64?_eq_bind, split, natOfDigits?_of_isDigit h.ne_nil h.isDigit, Option.bind_some]
  exact congrArg int64OfInt? (if_neg Bool.false_ne_true)

theorem readInt64?_minus (h : IsDigits cs) :
    readInt64? ('-' :: cs) = int64OfInt? (-(Nat.ofDigitChars 10 cs 0 : Int)) := by
  have split : splitSign ('-' :: cs) = (true, cs) := rfl
  rw [readInt64?_eq_bind, split, natOfDigits?_of_isDigit h.ne_nil h.isDigit, Option.bind_some]
  exact congrArg int64OfInt? (if_pos rfl)

theorem int64OfInt?_toInt (i : Int64) : int64OfInt? i.toInt = some i := by
  have low : Int64.minValue.toInt ≤ i.toInt := Int64.le_toInt i
  have high : i.toInt ≤ Int64.maxValue.toInt := Int64.toInt_le i
  rw [int64OfInt?, if_pos ⟨low, high⟩, Int64.ofInt_toInt]

/-- The text of an integer: a minus before a negative one, and digits. -/
theorem toList_toString_toInt (i : Int64) :
    (toString i.toInt).toList =
      if i.toInt < 0 then '-' :: Nat.toDigits 10 i.toInt.natAbs
      else Nat.toDigits 10 i.toInt.natAbs := by
  have shown : toString i.toInt = i.toInt.repr := rfl
  rw [shown, Int.repr_eq_if]
  by_cases h : i.toInt < 0
  · have eq : (-i.toInt).toNat = i.toInt.natAbs := by omega
    have negative : ¬0 ≤ i.toInt := by omega
    simp [h, negative, eq, Nat.repr_eq_ofList_toDigits]
  · have eq : i.toInt.toNat = i.toInt.natAbs := by omega
    have positive : 0 ≤ i.toInt := by omega
    simp [h, positive, eq, Nat.repr_eq_ofList_toDigits]

/-- An integer reads back from its text. -/
theorem readInt64?_toString (i : Int64) : readInt64? (toString i.toInt).toList = some i := by
  rw [toList_toString_toInt]
  by_cases h : i.toInt < 0
  · have eq : -(i.toInt.natAbs : Int) = i.toInt := by omega
    rw [if_pos h, readInt64?_minus (isDigits_toDigits _),
      Nat.ofDigitChars_toDigits (by decide) (Nat.le_refl 10), eq, int64OfInt?_toInt]
  · have eq : (i.toInt.natAbs : Int) = i.toInt := by omega
    rw [if_neg h, readInt64?_digits (isDigits_toDigits _),
      Nat.ofDigitChars_toDigits (by decide) (Nat.le_refl 10), eq, int64OfInt?_toInt]

def IsPointed (cs : List Char) : Prop :=
  ∃ whole fraction, IsDigits whole ∧ IsDigits fraction ∧ cs = whole ++ '.' :: fraction

theorem toList_zeros (n : Nat) : (zeros n).toList = List.replicate n '0' :=
  String.toList_ofList

theorem toList_digits (d : Scientific) : d.digits.toList = Nat.toDigits 10 d.coefficient := by
  have shown : d.digits = d.coefficient.repr := rfl
  rw [shown, Nat.repr_eq_ofList_toDigits, String.toList_ofList]

theorem isDigit_replicate_zero {n : Nat} (h : c ∈ List.replicate n '0') : isDigit c = true := by
  rw [eq_of_mem_replicate h]
  rfl

theorem isPointed_positional (d : Scientific) : IsPointed (d.positional ".0").toList := by
  have hd := isDigits_toDigits d.coefficient
  have length : d.digits.length = (Nat.toDigits 10 d.coefficient).length := by
    rw [← String.length_toList, toList_digits]
  unfold Scientific.positional
  split
  next h =>
    refine ⟨Nat.toDigits 10 d.coefficient ++ List.replicate d.exponent.toNat '0', ['0'],
      hd.append fun _ hc => isDigit_replicate_zero hc, ⟨by simp, by simp [isDigit]⟩, ?_⟩
    simp [toList_digits, toList_zeros]
  next h =>
    split
    next hp =>
      have inside : 0 < d.point.toNat ∧ d.point.toNat < (Nat.toDigits 10 d.coefficient).length := by
        unfold Scientific.point at hp ⊢
        omega
      refine ⟨(Nat.toDigits 10 d.coefficient).take d.point.toNat,
        (Nat.toDigits 10 d.coefficient).drop d.point.toNat,
        ⟨?_, fun c hm => hd.isDigit c (mem_of_mem_take hm)⟩,
        ⟨?_, fun c hm => hd.isDigit c (mem_of_mem_drop hm)⟩, ?_⟩
      · exact ne_nil_of_length_pos (by rw [length_take]; omega)
      · exact ne_nil_of_length_pos (by rw [length_drop]; omega)
      · simp [toList_digits]
    next hp =>
      refine ⟨['0'], List.replicate (-d.point).toNat '0' ++ Nat.toDigits 10 d.coefficient,
        ⟨by simp, by simp [isDigit]⟩, ⟨by simp [hd.ne_nil], fun c hm => ?_⟩, ?_⟩
      · rcases mem_append.mp hm with hm | hm
        · exact isDigit_replicate_zero hm
        · exact hd.isDigit c hm
      · simp [toList_digits, toList_zeros]

/-- The sign of a double as it is written. -/
def signOf (f : Float) : List Char := if isNegativeBits f.toBits then ['-'] else []

theorem isSign_signOf (f : Float) : IsSign (signOf f) := by
  unfold signOf
  split
  · exact .inr rfl
  · exact .inl rfl

/-- Whether a double is a number. -/
def IsFinite (f : Float) : Prop :=
  Magnitude.ofBits f.toBits ≠ .nan ∧ Magnitude.ofBits f.toBits ≠ .infinite

instance (f : Float) : Decidable (IsFinite f) := inferInstanceAs (Decidable (_ ∧ _))

theorem toList_sign (f : Float) :
    (if isNegativeBits f.toBits then "-" else "").toList = signOf f := by
  unfold signOf
  split <;> rfl

/-- A finite double is written as a sign and a pointed number. -/
theorem pointed_write_finite {f : Float} (h : IsFinite f) :
    ∃ number, IsPointed number ∧ (pointed.write f).toList = signOf f ++ number := by
  unfold FloatFormat.write
  simp only
  split
  next eq => exact absurd eq h.1
  next eq => exact absurd eq h.2
  next =>
    refine ⟨"0.0".toList, ⟨['0'], ['0'], isDigits_toDigits 0, isDigits_toDigits 0, rfl⟩, ?_⟩
    rw [String.toList_append, String.toList_append, toList_sign, append_assoc]
    rfl
  next rounding _ =>
    refine ⟨_, isPointed_positional rounding.shortest, ?_⟩
    have positional : pointed.isPositional rounding.shortest = true := rfl
    rw [if_pos positional, String.toList_append, toList_sign]
    rfl

/-- A double that is not finite is written as a name, which may have a sign. -/
theorem pointed_write_infinite {f : Float} (h : ¬IsFinite f) :
    (pointed.write f).toList = "NaN".toList ∨
      (pointed.write f).toList = signOf f ++ "inf".toList := by
  unfold FloatFormat.write
  simp only
  split
  next => exact .inl rfl
  next => exact .inr (by rw [String.toList_append, toList_sign])
  next eq => exact absurd ⟨by simp [eq], by simp [eq]⟩ h
  next eq => exact absurd ⟨by simp [eq], by simp [eq]⟩ h

theorem lowerAscii_of_isDigit (h : isDigit c = true) : lowerAscii c = c := by
  have := isDigit_bounds h
  have above : ¬('A' ≤ c ∧ c ≤ 'Z') := by
    intro hc
    have : 65 ≤ c.toNat := hc.1
    omega
  rw [lowerAscii, if_neg above]

theorem readMagnitude?_pointed (hw : IsDigits whole) (hf : IsDigits fraction) :
    readMagnitude? (whole ++ '.' :: fraction) =
      some (nearest (Nat.ofDigitChars 10 (whole ++ fraction) 0) (-(fraction.length : Int))) := by
  have taken : (whole ++ '.' :: fraction).takeWhile isDigit = whole := by
    simp [takeWhile_append_of_pos hw.isDigit, isDigit]
  have dropped : (whole ++ '.' :: fraction).dropWhile isDigit = '.' :: fraction := by
    simp [dropWhile_append_of_pos hw.isDigit, isDigit]
  have all : fraction.takeWhile isDigit = fraction := takeWhile_eq_self_iff.mpr hf.isDigit
  have none : fraction.dropWhile isDigit = [] := dropWhile_eq_nil_iff.mpr hf.isDigit
  have digits := hw.append hf.isDigit
  unfold readMagnitude?
  simp only [taken, dropped, all, none, natOfDigits?_of_isDigit digits.ne_nil digits.isDigit,
    Option.bind_eq_bind, Option.bind_some, Int.zero_sub]
  rfl

theorem readFloat?_of_splitSign {rest : List Char} {negative : Bool}
    (split : splitSign cs = (negative, c :: rest)) (hc : isDigit c = true) : readFloat? cs =
      (readMagnitude? (c :: rest)).map fun f => if negative then -f else f := by
  have named : ∀ name : String, (∀ d ∈ name.toList.head?, isDigit d = false) →
      String.ofList ((c :: rest).map lowerAscii) ≠ name := by
    rintro name hd rfl
    simp [lowerAscii_of_isDigit hc, hc] at hd
  unfold readFloat?
  rw [split]
  dsimp only
  congr 1
  split
  next eq => exact absurd eq (named "inf" (by rintro _ ⟨⟩; rfl))
  next eq => exact absurd eq (named "infinity" (by rintro _ ⟨⟩; rfl))
  next eq => exact absurd eq (named "nan" (by rintro _ ⟨⟩; rfl))
  next => rfl

/-- A pointed number reads as the double nearest to it. -/
theorem readFloat?_pointed {sign : List Char} (hs : IsSign sign) (hw : IsDigits whole)
    (hf : IsDigits fraction) : readFloat? (sign ++ (whole ++ '.' :: fraction)) =
      some (let f := nearest (Nat.ofDigitChars 10 (whole ++ fraction) 0) (-(fraction.length : Int))
        if sign = [] then f else -f) := by
  have read := readMagnitude?_pointed hw hf
  obtain ⟨c, rest, eq, hc⟩ := hw.exists_cons
  rw [eq, cons_append] at read
  rcases hs with rfl | rfl
  · have split : splitSign (whole ++ '.' :: fraction) = (false, c :: (rest ++ '.' :: fraction)) := by
      rw [hw.splitSign, eq, cons_append]
    rw [nil_append, readFloat?_of_splitSign split hc, read, eq]
    rfl
  · have split : splitSign ('-' :: (whole ++ '.' :: fraction)) =
        (true, c :: (rest ++ '.' :: fraction)) := by
      rw [eq, cons_append]
      rfl
    rw [cons_append, nil_append, readFloat?_of_splitSign split hc, read, eq]
    rfl

end ViewBridge.Decimal
