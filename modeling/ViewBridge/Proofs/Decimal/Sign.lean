import ViewBridge.Proofs.Decimal.Digits

namespace ViewBridge.Decimal

open Float.Model Float.Model.UnpackedFloat

variable {f : Float} {cs : List Char} {a b : UnpackedFloat} {u : UnpackedFloat}
  {motive : UnpackedFloat → Prop}

/-- Whether an unpacked number is defined and bears no minus. -/
def IsUnsigned : UnpackedFloat → Prop
  | .infinity sign | .zero sign | .finite sign _ _ _ => sign = .positive
  | .notANumber => False

def IsAboveZero : UnpackedFloat → Prop
  | .finite sign _ _ _ => sign = .positive
  | _ => False

instance : DecidablePred IsAboveZero
  | .finite .positive _ _ _ => .isTrue rfl
  | .finite .negative _ _ _ => .isFalse nofun
  | .infinity _ | .zero _ | .notANumber => .isFalse id

theorem dite_of_both {p : Prop} [Decidable p] {a : p → UnpackedFloat} {b : ¬p → UnpackedFloat}
    (ha : ∀ h, motive (a h)) (hb : ∀ h, motive (b h)) : motive (if h : p then a h else b h) := by
  by_cases h : p
  · rw [dif_pos h]
    exact ha h
  · rw [dif_neg h]
    exact hb h

theorem ite_of_both {p : Prop} [Decidable p] (ha : motive a) (hb : motive b) :
    motive (if p then a else b) :=
  dite_of_both (fun _ => ha) fun _ => hb

theorem isUnsigned_roundWithAccuracy (mantissa : Nat) (exponent : Int) (accuracy : Accuracy) :
    IsUnsigned (roundWithAccuracy .binary64 .positive mantissa exponent accuracy) := by
  unfold roundWithAccuracy
  exact dite_of_both (fun _ => rfl) fun _ => rfl

theorem isUnsigned_mul (ha : IsUnsigned a) (hb : IsAboveZero b) :
    IsUnsigned (mul .binary64 a b) := by
  cases b <;> cases hb
  cases a <;> cases ha
  all_goals first
    | exact isUnsigned_roundWithAccuracy _ _ _
    | rfl

theorem isUnsigned_div (ha : IsUnsigned a) (hb : IsAboveZero b) :
    IsUnsigned (div .binary64 a b) := by
  cases b <;> cases hb
  cases a <;> cases ha
  all_goals first
    | exact isUnsigned_roundWithAccuracy _ _ _
    | rfl

theorem isUnsigned_ofScientific (m : Nat) (e : Int) :
    IsUnsigned (UnpackedFloat.ofScientific .binary64 m e) := by
  unfold UnpackedFloat.ofScientific
  refine dite_of_both (fun _ => rfl) fun _ => ite_of_both rfl (ite_of_both rfl ?_)
  exact ite_of_both (isUnsigned_mul rfl rfl) (isUnsigned_div rfl rfl)

theorem isUnsigned_ofNat (n : Nat) : IsUnsigned (UnpackedFloat.ofNat .binary64 n) := by
  unfold UnpackedFloat.ofNat UnpackedFloat.ofInt UnpackedFloat.normalize
  split
  next h =>
    have negative := Int.compare_eq_lt.mp h
    omega
  next => rfl
  next => exact isUnsigned_roundWithAccuracy _ _ _

section Packed

variable {spec : Format}

theorem unpack_ne_nan_of_fields {bits : BitVec spec.numBits}
    (h : unpackExponent bits ≠ -1#_ ∨ unpackMantissa bits = 0#_) :
    UnpackedFloat.unpack spec bits ≠ .notANumber := by
  unfold UnpackedFloat.unpack
  by_cases full : unpackExponent bits = -1#_
  · have zero := h.resolve_left (not_not_intro full)
    rw [if_pos full, if_pos zero]
    simp
  · rw [if_neg full]
    refine ite_of_both (motive := (· ≠ .notANumber)) ?_ (by rintro ⟨⟩)
    exact dite_of_both (motive := (· ≠ .notANumber)) (fun _ => by rintro ⟨⟩) fun _ => by rintro ⟨⟩

theorem unpack_packComponents_ne_nan {sign : Sign} {exponent : BitVec spec.exponentBits}
    {mantissa : BitVec spec.mantissaBitsWithoutImplicit} (h : exponent ≠ -1#_ ∨ mantissa = 0#_) :
    UnpackedFloat.unpack spec (packComponents spec sign exponent mantissa) ≠ .notANumber := by
  apply unpack_ne_nan_of_fields
  rwa [unpackMantissa_packComponents, unpackExponent_packComponents]

theorem unpack_pack_ne_nan (h : u ≠ .notANumber) :
    UnpackedFloat.unpack spec (UnpackedFloat.pack spec u) ≠ .notANumber := by
  have infinite : ∀ s, UnpackedFloat.unpack spec (packedInfinity spec s) ≠ .notANumber :=
    fun s => unpack_packComponents_ne_nan (.inr rfl)
  have power : 2 ≤ 2 ^ spec.exponentBits := by
    calc 2 = 2 ^ 1 := rfl
      _ ≤ 2 ^ spec.exponentBits := Nat.pow_le_pow_right (by decide) (by have := spec.he; omega)
  have notFull : ∀ n, n + 1 < 2 ^ spec.exponentBits →
      BitVec.ofNat spec.exponentBits n ≠ -1#_ := by
    intro n hn full
    have top := congrArg BitVec.toNat full
    rw [BitVec.toNat_ofNat, Nat.mod_eq_of_lt (by omega), BitVec.neg_one_eq_allOnes,
      BitVec.toNat_allOnes] at top
    omega
  cases u with
  | notANumber => exact absurd rfl h
  | infinity s => exact infinite s
  | zero s => exact unpack_packComponents_ne_nan (.inr rfl)
  | finite s m e hm =>
    unfold UnpackedFloat.pack
    dsimp only
    split
    next => exact infinite s
    next bounded =>
      split
      next => exact unpack_packComponents_ne_nan (.inl (notFull _ (Nat.lt_of_not_le bounded)))
      next => exact unpack_packComponents_ne_nan (.inl (notFull 0 power))

end Packed

theorem toNat_packComponents_positive (exponent : BitVec 11) (mantissa : BitVec 52) :
    (packComponents .binary64 .positive exponent mantissa).toNat < 1 <<< 63 := by
  have clear : (packComponents .binary64 .positive exponent mantissa).toNat =
      (exponent ++ mantissa).toNat := by
    change (0#1 ++ exponent ++ mantissa).toNat = (exponent ++ mantissa).toNat
    rw [BitVec.toNat_append, BitVec.toNat_append, BitVec.toNat_append, BitVec.toNat_zero,
      Nat.zero_shiftLeft, Nat.zero_or]
  rw [clear]
  exact (exponent ++ mantissa).isLt

theorem toNat_pack_lt (h : IsUnsigned u) : (UnpackedFloat.pack .binary64 u).toNat < 1 <<< 63 := by
  cases u with
  | notANumber => cases h
  | infinity sign =>
    cases h
    exact toNat_packComponents_positive _ _
  | zero sign =>
    cases h
    exact toNat_packComponents_positive _ _
  | finite sign m e hm =>
    cases h
    unfold UnpackedFloat.pack
    dsimp only
    split
    next => exact toNat_packComponents_positive _ _
    next =>
      split
      next => exact toNat_packComponents_positive _ _
      next => exact toNat_packComponents_positive _ _

theorem isUnsigned_unpack {bits : BitVec 64} (h : bits.toNat < 1 <<< 63)
    (defined : UnpackedFloat.unpack .binary64 bits ≠ .notANumber) :
    IsUnsigned (UnpackedFloat.unpack .binary64 bits) := by
  have sign : Sign.ofBitVec (@unpackSign .binary64 bits) = .positive := by
    have zero : @unpackSign .binary64 bits = 0#1 := by
      apply BitVec.eq_of_toNat_eq
      change (bits.toNat >>> 63) % 2 = 0
      rw [Nat.shiftRight_eq_div_pow]
      omega
    rw [zero]
    rfl
  revert defined
  unfold UnpackedFloat.unpack
  refine ite_of_both (motive := fun u => u ≠ .notANumber → IsUnsigned u)
    (ite_of_both (motive := fun u => u ≠ .notANumber → IsUnsigned u) (fun _ => sign) (absurd rfl ·)) ?_
  refine ite_of_both (motive := fun u => u ≠ .notANumber → IsUnsigned u) ?_ fun _ => sign
  exact dite_of_both (motive := fun u => u ≠ .notANumber → IsUnsigned u) (fun _ _ => sign)
    fun _ _ => sign

def SignClear (f : Float) : Prop := f.toBits.toNat < 1 <<< 63

/-- Whether a double is a number or infinite. -/
def IsDefined (f : Float) : Prop := f.toModel.unpack ≠ .notANumber

theorem signOf_eq_nil (h : SignClear f) : signOf f = [] := by
  have clear : isNegativeBits f.toBits = false := decide_eq_false (Nat.not_le_of_lt h)
  rw [signOf, clear]
  rfl

theorem plain_pack (h : IsUnsigned u) : (UnpackedFloat.pack .binary64 u).toNat < 1 <<< 63 ∧
    UnpackedFloat.unpack .binary64 (UnpackedFloat.pack .binary64 u) ≠ .notANumber := by
  refine ⟨toNat_pack_lt h, unpack_pack_ne_nan ?_⟩
  rintro rfl
  cases h

theorem plain_ofScientific (m : Nat) (negative : Bool) (e : Nat) :
    SignClear (Float.ofScientific m negative e) ∧ IsDefined (Float.ofScientific m negative e) := by
  have powers : ∀ p ∈ Float.exactlyRepresentablePowersOfTen, IsAboveZero p.toModel.unpack := by
    decide
  unfold Float.ofScientific
  split
  next h =>
    have bound : e < Float.exactlyRepresentablePowersOfTen.size := by
      simp [Float.exactlyRepresentablePowersOfTen]
      omega
    have power := powers Float.exactlyRepresentablePowersOfTen[e] (Array.getElem_mem bound)
    obtain ⟨clear, defined⟩ := plain_pack (isUnsigned_ofNat m.toUInt64.toNat)
    have whole : IsUnsigned m.toUInt64.toFloat.toModel.unpack := isUnsigned_unpack clear defined
    split
    · exact plain_pack (isUnsigned_div whole power)
    · exact plain_pack (isUnsigned_mul whole power)
  next => exact plain_pack (isUnsigned_ofScientific m _)

theorem plain_nearest (coefficient : Nat) (exponent : Int) :
    SignClear (nearest coefficient exponent) ∧ IsDefined (nearest coefficient exponent) := by
  have zero : (0 : Float).toBits.toNat < 1 <<< 63 := by decide
  have infinite : (Float.ofBits 0x7ff0000000000000).toBits.toNat < 1 <<< 63 := by decide
  unfold nearest
  dsimp only
  split
  next => exact ⟨zero, UnpackedFloat.noConfusion⟩
  next =>
    split
    next => exact ⟨infinite, UnpackedFloat.noConfusion⟩
    next => split <;> exact plain_ofScientific _ _ _

theorem plain_readMagnitude? (h : readMagnitude? cs = some f) : SignClear f ∧ IsDefined f := by
  unfold readMagnitude? at h
  simp only at h
  obtain ⟨coefficient, _, h⟩ := Option.bind_eq_some_iff.mp h
  have plain : ∀ {exponent? : Option Int} {places : Int},
      (exponent?.bind fun e => some (nearest coefficient (e - places))) = some f →
        SignClear f ∧ IsDefined f := by
    intro exponent? places h
    obtain ⟨exponent, _, h⟩ := Option.bind_eq_some_iff.mp h
    obtain rfl := Option.some.inj h
    exact plain_nearest _ _
  split at h
  next => exact plain h
  next => split at h <;> exact plain h

/-- A text without a minus is read as a double without one. -/
theorem signClear_readFloat? (hs : (splitSign cs).1 = false) (h : readFloat? cs = some f) :
    SignClear f := by
  have infinite : (Float.ofBits 0x7ff0000000000000).toBits.toNat < 1 <<< 63 := by decide
  have undefined : (Float.ofBits 0x7ff8000000000000).toBits.toNat < 1 <<< 63 := by decide
  unfold readFloat? at h
  simp only [hs] at h
  obtain ⟨g, hg, rfl⟩ := Option.map_eq_some_iff.mp h
  have clear : SignClear g := by
    split at hg
    next =>
      obtain rfl := Option.some.inj hg
      exact infinite
    next =>
      obtain rfl := Option.some.inj hg
      exact infinite
    next =>
      obtain rfl := Option.some.inj hg
      exact undefined
    next => exact (plain_readMagnitude? hg).1
  simpa using clear

theorem toInt_of_int64OfInt? {n : Int} {i : Int64} (h : int64OfInt? n = some i) : i.toInt = n := by
  unfold int64OfInt? at h
  split at h
  next bounds =>
    obtain rfl := Option.some.inj h
    exact Int64.toInt_ofInt_of_le bounds.1 (Int.lt_add_one_of_le bounds.2)
  next => cases h

theorem readInt64?_nonneg {i : Int64} (hs : (splitSign cs).1 = false) (h : readInt64? cs = some i) :
    0 ≤ i.toInt := by
  rw [readInt64?_eq_bind] at h
  obtain ⟨n, _, h⟩ := Option.bind_eq_some_iff.mp h
  rw [hs] at h
  have value := toInt_of_int64OfInt? h
  simp only [Bool.false_eq_true, if_false] at value
  omega

theorem splitSign_unsigned (h : cs.head? ≠ some '-') : (splitSign cs).1 = false := by
  unfold splitSign
  split
  next => exact absurd rfl h
  next => rfl
  next => rfl

theorem compare_self (h : u ≠ .notANumber) : u.compare u = some .eq := by
  cases u with
  | notANumber => exact absurd rfl h
  | infinity sign => cases sign <;> rfl
  | zero sign => rfl
  | finite sign m e hm =>
    have same : (compare e e).then (compare m m) = .eq := by
      rw [Std.compare_self, Std.compare_self]
      rfl
    cases sign with
    | positive => exact congrArg some same
    | negative => exact congrArg (some ·.swap) same

theorem IsDefined.beq_self (h : IsDefined f) : (f == f) = true := by
  change (f.toModel.unpack.compare f.toModel.unpack == some .eq) = true
  rw [compare_self h]
  rfl

theorem isDefined_of_isFinite (h : IsFinite f) : IsDefined f := by
  have exponent : (@unpackExponent .binary64 f.toBits.toBitVec).toNat =
      (f.toBits.toNat >>> 52) % 0x800 := rfl
  have notFull : @unpackExponent .binary64 f.toBits.toBitVec ≠ -1#_ := by
    intro full
    rw [full] at exponent
    have top : (f.toBits.toNat >>> 52) % 0x800 = 2047 := exponent.symm
    obtain ⟨nan, infinite⟩ := h
    unfold Magnitude.ofBits at nan infinite
    simp only [top, if_true] at nan infinite
    split at nan
    next zero => exact infinite (if_pos zero)
    next => exact nan rfl
  exact unpack_ne_nan_of_fields (.inl notFull)

theorem IsDefined.neg (h : IsDefined f) : IsDefined (-f) := by
  refine @unpack_pack_ne_nan f.toModel.unpack.neg .binary64 ?_
  cases hu : f.toModel.unpack with
  | notANumber => exact absurd hu h
  | _ => nofun

theorem mem_splitSign {c : Char} (hm : c ≠ '-') (hp : c ≠ '+') (h : c ∈ cs) :
    c ∈ (splitSign cs).2 := by
  unfold splitSign
  split
  next => exact (List.mem_cons.mp h).resolve_left hm
  next => exact (List.mem_cons.mp h).resolve_left hp
  next => exact h

/-- A text with a point is never read as the undefined value. -/
theorem isDefined_readFloat? (hp : '.' ∈ cs) (h : readFloat? cs = some f) : IsDefined f := by
  have point := mem_splitSign (by decide) (by decide) hp
  have named : ∀ text : String, String.ofList ((splitSign cs).2.map lowerAscii) = text →
      '.' ∈ text.toList := by
    rintro _ rfl
    rw [String.toList_ofList]
    exact List.mem_map.mpr ⟨'.', point, by decide⟩
  unfold readFloat? at h
  simp only at h
  obtain ⟨g, hg, rfl⟩ := Option.map_eq_some_iff.mp h
  have defined : IsDefined g := by
    split at hg
    next eq => exact absurd (named _ eq) (by decide)
    next eq => exact absurd (named _ eq) (by decide)
    next eq => exact absurd (named _ eq) (by decide)
    next => exact (plain_readMagnitude? hg).2
  split
  · exact defined.neg
  · exact defined

end ViewBridge.Decimal
