namespace ViewBridge.Decimal

/-- A decimal number `coefficient · 10 ^ exponent`. -/
structure Scientific where
  coefficient : Nat
  exponent : Int
  deriving DecidableEq

/-- The reals that round to one binary number, as multiples of `1 / unit`: its value, the two ends,
and whether the ends belong to it. -/
structure Rounding where
  low : Nat
  value : Nat
  high : Nat
  unit : Nat
  closed : Bool
  deriving DecidableEq

/-- The rounding interval of `significand · 2 ^ exponent`. Its neighbour below is nearer than the
one above when `narrow` holds; an end is rounded here iff the significand is even. -/
def Rounding.ofBinary (significand : Nat) (exponent : Int) (narrow : Bool) : Rounding :=
  let scale := 1 <<< (exponent - 2).toNat
  { low := (4 * significand - if narrow then 1 else 2) * scale
    value := 4 * significand * scale
    high := (4 * significand + 2) * scale
    unit := 1 <<< (2 - exponent).toNat
    closed := significand % 2 == 0 }

/-- Whether the point `numerator / unit` rounds to the number, on a grid `scale` times as fine. -/
def Rounding.holds (r : Rounding) (scale numerator : Nat) : Bool :=
  if r.closed then r.low * scale ≤ numerator && numerator ≤ r.high * scale
  else r.low * scale < numerator && numerator < r.high * scale

/-- The multiple of `10 ^ exponent` nearest to the value among those that round to it, the upper
one of two equally near. -/
def Rounding.onGrid (r : Rounding) (exponent : Int) : Option Nat :=
  let scale := Nat.pow 10 (-exponent).toNat
  let step := r.unit * Nat.pow 10 exponent.toNat
  let below := r.value * scale / step
  match r.holds scale (below * step), r.holds scale ((below + 1) * step) with
  | true, true =>
    if 2 * (r.value * scale - below * step) < step then some below else some (below + 1)
  | true, false => some below
  | false, true => some (below + 1)
  | false, false => none

/-- The first of the grids `10 ^ exponent`, `10 ^ (exponent - 1)`, … that has such a multiple. -/
def Rounding.coarsest (r : Rounding) : Nat → Int → Scientific
  | 0, exponent => ⟨0, exponent⟩
  | fuel + 1, exponent =>
    match r.onGrid exponent with
    | some coefficient => ⟨coefficient, exponent⟩
    | none => r.coarsest fuel (exponent - 1)

/-- The decimal of fewest digits that rounds to the number, the nearest one of them. The search
starts at a power of ten above the value and ends within seventeen digits. -/
def Rounding.shortest (r : Rounding) : Scientific :=
  r.coarsest 24 (((r.value.log2 : Int) - r.unit.log2) * 30103 / 100000 + 2)

/-- A binary floating-point number by what it stands for. -/
inductive Magnitude where
  | nan
  | infinite
  | zero
  | finite (rounding : Rounding)
  deriving DecidableEq

/-- The magnitude of a double given by its bits. -/
def Magnitude.ofBits (bits : UInt64) : Magnitude :=
  let exponent : Nat := (bits.toNat >>> 52) % 0x800
  let fraction := bits.toNat % (1 <<< 52)
  if exponent = 2047 then if fraction = 0 then .infinite else .nan
  else if exponent = 0 then
    if fraction = 0 then .zero else .finite (.ofBinary fraction (-1074) false)
  else
    let significand := fraction + (1 <<< 52)
    .finite (.ofBinary significand ((exponent : Int) - 1075) (fraction = 0 ∧ 1 < exponent))

def isNegativeBits (bits : UInt64) : Bool := 1 <<< 63 ≤ bits.toNat

end ViewBridge.Decimal
