import ViewBridge.Decimal.Shortest

namespace ViewBridge.Decimal

def Scientific.digits (d : Scientific) : String := toString d.coefficient

/-- The place of the point: how many digits stand before it, or, when not positive, how many zeros
stand between it and the digits. -/
def Scientific.point (d : Scientific) : Int := d.digits.length + d.exponent

def zeros (n : Nat) : String := String.ofList (List.replicate n '0')

/-- A decimal written without an exponent; `whole` follows a number that has no fraction. -/
def Scientific.positional (whole : String) (d : Scientific) : String :=
  if 0 ≤ d.exponent then d.digits ++ zeros d.exponent.toNat ++ whole
  else if 0 < d.point then
    String.ofList (d.digits.toList.take d.point.toNat) ++ "." ++
      String.ofList (d.digits.toList.drop d.point.toNat)
  else "0." ++ zeros (-d.point).toNat ++ d.digits

/-- A decimal written with one digit before the point and an exponent. -/
def Scientific.exponential (d : Scientific) : String :=
  match d.digits.toList with
  | [] => ""
  | [digit] => digit.toString ++ "e" ++ toString (d.point - 1)
  | digit :: rest => digit.toString ++ "." ++ String.ofList rest ++ "e" ++ toString (d.point - 1)

/-- The decisions of a number format: what follows a number without a fraction, and from which to
which point a number is written without an exponent. -/
structure FloatFormat where
  whole : String
  smallest : Option Int := none
  largest : Option Int := none

def FloatFormat.isPositional (format : FloatFormat) (d : Scientific) : Bool :=
  format.smallest.all (· ≤ d.point) && format.largest.all (d.point ≤ ·)

/-- The text of a double in a format, with the fewest digits that read back. -/
def FloatFormat.write (format : FloatFormat) (f : Float) : String :=
  let sign := if isNegativeBits f.toBits then "-" else ""
  match Magnitude.ofBits f.toBits with
  | .nan => "NaN"
  | .infinite => sign ++ "inf"
  | .zero => sign ++ "0" ++ format.whole
  | .finite rounding =>
    let d := rounding.shortest
    sign ++ if format.isPositional d then d.positional format.whole else d.exponential

/-- Always positional, and nothing after a number without a fraction. -/
def plain : FloatFormat := { whole := "" }

/-- Always positional, and a point and zero after a number without a fraction. -/
def pointed : FloatFormat := { whole := ".0" }

/-- Pointed, with an exponent below a ten-thousandth and from ten to the sixteenth on. -/
def general : FloatFormat := { whole := ".0", smallest := some (-3), largest := some 16 }

end ViewBridge.Decimal
