import Orthotope.Binary

/-!
# Decimal text of binary numbers

`Decimal.shortest` finds the shortest decimal that reads back as a given number, and among those the
nearest one. The decimals that read back as a number fill an interval around it. Its ends lie half
way to the neighbours and belong to it if the significand is even. For one digit, two digits and so
on, the two decimals next to the number are tried.

`Decimal.plain` writes such a decimal without an exponent and `Decimal.scientific` with one.
`Decimal.text` chooses between them by the magnitude of the number.
-/

namespace Orthotope

/-- The number `digits` times ten to the power of `exponent`. -/
structure Decimal where
  digits : Nat
  exponent : Int
  deriving DecidableEq, Repr

namespace Decimal

/-- Ten to the power of `e`, or one if `e` is negative. -/
def powerOfTen (e : Int) : Nat := 10 ^ e.toNat

/-- The number of decimal digits of a number. -/
def digitCount (n : Nat) : Nat := (Nat.toDigits 10 n).length

/-- The decimal exponent of the first digit of a positive ratio. -/
def leadingExponent (num den : Nat) : Int :=
  if den ≤ num then (digitCount (num / den) : Int) - 1 else -(digitCount (den / num) : Int)

/-- The same number without zeros at the end of its digits, at most `fuel` of them. -/
def trim : Nat → Decimal → Decimal
  | 0, d => d
  | fuel + 1, d =>
    if d.digits ≠ 0 ∧ d.digits % 10 = 0 then trim fuel ⟨d.digits / 10, d.exponent + 1⟩ else d

/-- The bounds of the decimals that read back as a finite number other than zero, in quarters of the
last bit of its significand. -/
def bounds {f : Format} (x : Binary f) : Nat × Nat :=
  let m := x.significand
  (if m = f.hidden ∧ f.hidden < x.magnitude then 4 * m - 1 else 4 * m - 2, 4 * m + 2)

/-- The decimal next to a number on the grid of ten to the power of `k`, if one reads back as the
number. Of two, the nearer; of two equally near, the one with an even last digit. -/
def onGrid {f : Format} (x : Binary f) (k : Int) : Option Decimal :=
  let quarter := x.exponent - 2
  let unit := powerOfTen k * Binary.powerOfTwo (-quarter)
  let scale := powerOfTen (-k) * Binary.powerOfTwo quarter
  let value := 4 * x.significand * scale
  let low := (bounds x).1 * scale
  let high := (bounds x).2 * scale
  let inside (c : Nat) : Bool :=
    if x.significand % 2 = 0 then decide (low ≤ c * unit ∧ c * unit ≤ high)
    else decide (low < c * unit ∧ c * unit < high)
  let c := value / unit
  match inside c, inside (c + 1) with
  | true, true =>
    let middle := (2 * c + 1) * unit
    if 2 * value < middle ∨ (2 * value = middle ∧ c % 2 = 0) then some ⟨c, k⟩
    else some ⟨c + 1, k⟩
  | true, false => some ⟨c, k⟩
  | false, true => some ⟨c + 1, k⟩
  | false, false => none

/-- The shortest decimal that reads back as a finite number, without regard to its sign. -/
def shortest {f : Format} (x : Binary f) : Decimal :=
  if x.significand = 0 then ⟨0, 0⟩ else
  let lead := leadingExponent (x.significand * Binary.powerOfTwo x.exponent)
    (Binary.powerOfTwo (-x.exponent))
  match (List.range 18).findSome? fun (n : Nat) => onGrid x (lead - n) with
  | some d => trim 18 d
  | none => ⟨0, 0⟩

/-- A decimal without an exponent. There is always a digit on each side of the point. -/
def plain (d : Decimal) : String :=
  let digits := Nat.toDigits 10 d.digits
  let places := (-d.exponent).toNat
  if 0 ≤ d.exponent then
    String.ofList (if d.digits = 0 then digits else digits ++ List.replicate d.exponent.toNat '0')
      ++ ".0"
  else
    let padded := List.replicate (places + 1 - digits.length) '0' ++ digits
    let whole := padded.take (padded.length - places)
    String.ofList whole ++ "." ++ String.ofList (padded.drop (padded.length - places))

/-- The exponent of the first digit of a decimal. -/
def lead (d : Decimal) : Int := d.exponent + digitCount d.digits - 1

/-- A decimal with the point after its first digit, if more digits follow, and then the exponent of
the first digit with its sign. -/
def scientific (d : Decimal) : String :=
  let digits := match Nat.toDigits 10 d.digits with
    | [first] => [first]
    | first :: rest => first :: '.' :: rest
    | [] => []
  let sign := if 0 ≤ d.lead then "+" else "-"
  String.ofList digits ++ "e" ++ sign ++ toString d.lead.natAbs

/-- The exponents of a first digit, both included, for which no exponent is written. -/
structure PlainRange where
  lowest : Int
  highest : Int
  deriving DecidableEq, Repr

/-- A decimal, without an exponent if that of its first digit is in the range. -/
def text (range : PlainRange) (d : Decimal) : String :=
  if range.lowest ≤ d.lead ∧ d.lead ≤ range.highest then d.plain else d.scientific

end Decimal

/-- The decimal text of a finite number, the shortest that reads back. -/
def Binary.decimalText {f : Format} (range : Decimal.PlainRange) (x : Binary f) : String :=
  (if x.negative then "-" else "") ++ (Decimal.shortest x).text range

end Orthotope
