import ViewBridge.Text.Word

namespace ViewBridge.Decimal

open Text (isDigit)

/-- The value of a digit in bases up to sixteen and beyond, letters following the digits. -/
def digitValue? (c : Char) : Option Nat :=
  if isDigit c then some (c.toNat - '0'.toNat)
  else if 'a' ≤ c ∧ c ≤ 'z' then some (c.toNat - 'a'.toNat + 10)
  else if 'A' ≤ c ∧ c ≤ 'Z' then some (c.toNat - 'A'.toNat + 10)
  else none

/-- The number that a nonempty row of digits writes in a base. -/
def natOfDigits? (base : Nat) (cs : List Char) : Option Nat :=
  if cs.isEmpty then none
  else cs.foldlM (fun n c => do
    let d ← digitValue? c
    if d < base then some (base * n + d) else none) 0

/-- An optional sign and the text after it. -/
def splitSign : List Char → Bool × List Char
  | '-' :: rest => (true, rest)
  | '+' :: rest => (false, rest)
  | cs => (false, cs)

def int64OfInt? (i : Int) : Option Int64 :=
  if Int64.minValue.toInt ≤ i ∧ i ≤ Int64.maxValue.toInt then some (Int64.ofInt i) else none

/-- Reads an optional sign and decimal digits as a 64-bit integer. -/
def readInt64? (cs : List Char) : Option Int64 := do
  let (negative, digits) := splitSign cs
  let n ← natOfDigits? 10 digits
  int64OfInt? (if negative then -(n : Int) else n)

/-- The double nearest to `coefficient · 10 ^ exponent`. Beyond the range of doubles the answer is
infinite or zero whatever the digits. -/
def nearest (coefficient : Nat) (exponent : Int) : Float :=
  let point := (Nat.toDigits 10 coefficient).length + exponent
  if coefficient = 0 ∨ point < -330 then 0
  else if 310 < point then Float.ofBits 0x7ff0000000000000
  else if exponent < 0 then Float.ofScientific coefficient true (-exponent).toNat
  else Float.ofScientific coefficient false exponent.toNat

/-- Digits with an optional point among, before or after them, and an optional exponent. -/
def readMagnitude? (cs : List Char) : Option Float := do
  let whole := cs.takeWhile isDigit
  let afterWhole := cs.dropWhile isDigit
  let (fraction, rest) :=
    match afterWhole with
    | '.' :: rest => (rest.takeWhile isDigit, rest.dropWhile isDigit)
    | rest => ([], rest)
  let coefficient ← natOfDigits? 10 (whole ++ fraction)
  let exponent : Int ←
    match rest with
    | [] => some 0
    | c :: rest =>
      if c = 'e' ∨ c = 'E' then
        let (negative, digits) := splitSign rest
        (natOfDigits? 10 digits).map fun n => if negative then -(n : Int) else n
      else none
  return nearest coefficient (exponent - fraction.length)

def lowerAscii (c : Char) : Char :=
  if 'A' ≤ c ∧ c ≤ 'Z' then Char.ofNat (c.toNat + 32) else c

/-- Reads an optional sign and a decimal number, or one of the names of infinity and of the
undefined value, in either case of letters. -/
def readFloat? (cs : List Char) : Option Float :=
  let (negative, rest) := splitSign cs
  let magnitude? :=
    match String.ofList (rest.map lowerAscii) with
    | "inf" | "infinity" => some (Float.ofBits 0x7ff0000000000000)
    | "nan" => some (Float.ofBits 0x7ff8000000000000)
    | _ => readMagnitude? rest
  magnitude?.map fun f => if negative then -f else f

end ViewBridge.Decimal
