/-!
# Binary floating-point numbers

A `Binary f` is a bit pattern of the interchange format `f`, `double` or `single`: a sign, a biased
exponent and a fraction. Everything is computed on the pattern with exact integers, so that nothing
here is opaque to a proof: `Binary.ofRatio` rounds a ratio of two numbers to the nearest
representable one, a tie going to the even neighbour, and sums, products, quotients and changes of
format are that rounding applied to the exact result.

Two numbers compare through `Binary.rank`, an integer that grows with the value and is the same for
both zeros.
-/

-- Numbers are raised to powers as the core library does it, whatever else is imported.
attribute [instance (20000), default_instance (20000)] instPowNat

namespace Orthotope

/-- A binary interchange format: how many bits the significand has, the leading one included, and how
many the exponent has. -/
structure Format where
  precision : Nat
  exponentBits : Nat
  deriving DecidableEq, Repr

namespace Format

/-- The format of 64 bits. -/
def double : Format := ⟨53, 11⟩

/-- The format of 32 bits. -/
def single : Format := ⟨24, 8⟩

/-- The number of bits of a pattern. -/
@[reducible]
def width (f : Format) : Nat := f.precision + f.exponentBits

/-- The number of patterns of the fraction, which is also where the exponent begins. -/
def hidden (f : Format) : Nat := 2 ^ (f.precision - 1)

/-- The weight of the sign in a pattern. -/
def signWeight (f : Format) : Nat := 2 ^ (f.width - 1)

/-- The pattern of positive infinity. Every pattern without sign above it is not a number. -/
def infinity (f : Format) : Nat := (2 ^ f.exponentBits - 1) * f.hidden

/-- The exponent of the last bit of the smallest numbers. -/
def minExponent (f : Format) : Int :=
  3 - (2 : Int) ^ (f.exponentBits - 1) - f.precision

end Format

/-- A number in the format `f`, given by its bit pattern. -/
structure Binary (f : Format) where
  bits : BitVec f.width
  deriving DecidableEq, Repr

namespace Binary

variable {f g : Format}

/-- The pattern without its sign. -/
def magnitude (x : Binary f) : Nat := x.bits.toNat % f.signWeight

/-- Whether the sign is negative. -/
def negative (x : Binary f) : Bool := decide (f.signWeight ≤ x.bits.toNat)

/-- The pattern with the given sign and the given magnitude. -/
def ofMagnitude (f : Format) (negative : Bool) (magnitude : Nat) : Binary f :=
  ⟨BitVec.ofNat f.width (magnitude + if negative then f.signWeight else 0)⟩

/-- Not a number, in its usual pattern: a quiet one without a sign. -/
def nan (f : Format) : Binary f := ofMagnitude f false (f.infinity + f.hidden / 2)

/-- Whether the pattern is not a number. -/
def isNaN (x : Binary f) : Bool := decide (f.infinity < x.magnitude)

/-- Whether the number is one of the two infinities. -/
def isInfinite (x : Binary f) : Bool := decide (x.magnitude = f.infinity)

/-- Whether the pattern is neither an infinity nor not a number. -/
def isFinite (x : Binary f) : Bool := decide (x.magnitude < f.infinity)

/-- Whether the number is one of the two zeros. -/
def isZero (x : Binary f) : Bool := decide (x.magnitude = 0)

/-- An infinity. -/
def infinite (f : Format) (negative : Bool) : Binary f := ofMagnitude f negative f.infinity

/-- A zero. -/
def zero (f : Format) (negative : Bool) : Binary f := ofMagnitude f negative 0

/-- The significand of a finite number as a whole number. -/
def significand (x : Binary f) : Nat :=
  if x.magnitude < f.hidden then x.magnitude else x.magnitude % f.hidden + f.hidden

/-- The power of two that a finite number's significand is multiplied with. -/
def exponent (x : Binary f) : Int :=
  f.minExponent + ((x.magnitude / f.hidden - 1 : Nat) : Int)

/-- The significand with its sign. -/
def signed (x : Binary f) : Int :=
  if x.negative then -(x.significand : Int) else x.significand

/-- The number with the opposite sign. -/
def neg (x : Binary f) : Binary f := ofMagnitude f (!x.negative) x.magnitude

/-- An integer that orders the numbers. Both zeros have rank zero. -/
def rank (x : Binary f) : Int :=
  if x.negative then -(x.magnitude : Int) else x.magnitude

/-- Whether two numbers are equal. Not a number equals nothing, and both zeros are equal. -/
def equal (x y : Binary f) : Bool :=
  !x.isNaN && !y.isNaN && decide (x.rank = y.rank)

/-! ## Rounding -/

/-- The quotient rounded to the nearest whole number. A tie goes to the even one. -/
def roundQuotient (num den : Nat) : Nat :=
  let q := num / den
  let twice := 2 * (num % den)
  if den < twice ∨ (twice = den ∧ q % 2 = 1) then q + 1 else q

/-- Two to the power of `e`, or one if `e` is negative. -/
def powerOfTwo (e : Int) : Nat := 2 ^ e.toNat

/-- The exponent of the highest bit of the quotient of two positive numbers. -/
def logRatio (num den : Nat) : Int :=
  let e : Int := (num.log2 : Int) - den.log2
  if num * powerOfTwo (-e) < den * powerOfTwo e then e - 1 else e

/-- The number nearest to `num / den`, a tie going to the one with an even significand. What is too
large becomes infinite. -/
def ofRatio (f : Format) (negative : Bool) (num den : Nat) : Binary f :=
  if num = 0 then zero f negative else
  let e := max f.minExponent (logRatio num den + 1 - f.precision)
  let q := roundQuotient (num * powerOfTwo (-e)) (den * powerOfTwo e)
  ofMagnitude f negative (min f.infinity ((e - f.minExponent).toNat * f.hidden + q))

/-- The number nearest to `m` times two to the power of `e`. -/
def ofScaled (f : Format) (negative : Bool) (m : Nat) (e : Int) : Binary f :=
  ofRatio f negative (m * powerOfTwo e) (powerOfTwo (-e))

/-- The number nearest to an integer. -/
def ofInt (f : Format) (n : Int) : Binary f :=
  ofRatio f (decide (n < 0)) n.natAbs 1

/-! ## Arithmetic -/

/-- The sum. Opposite infinities have none, and a sum of zero is negative only if both are. -/
def add (x y : Binary f) : Binary f :=
  if x.isNaN || y.isNaN then nan f
  else if x.isInfinite then
    if y.isInfinite && x.negative != y.negative then nan f else x
  else if y.isInfinite then y
  else
    let e := min x.exponent y.exponent
    let sum := x.signed * powerOfTwo (x.exponent - e) + y.signed * powerOfTwo (y.exponent - e)
    if sum = 0 then zero f (x.negative && y.negative)
    else ofScaled f (decide (sum < 0)) sum.natAbs e

/-- The product of two finite numbers. -/
def mul (x y : Binary f) : Binary f :=
  ofScaled f (x.negative != y.negative) (x.significand * y.significand) (x.exponent + y.exponent)

/-- The quotient of two finite numbers, the second not zero. -/
def div (x y : Binary f) : Binary f :=
  let e := x.exponent - y.exponent
  ofRatio f (x.negative != y.negative) (x.significand * powerOfTwo e)
    (y.significand * powerOfTwo (-e))

/-- The integer part of a finite number. -/
def truncate (x : Binary f) : Int :=
  let n := x.significand * powerOfTwo x.exponent / powerOfTwo (-x.exponent)
  if x.negative then -(n : Int) else n

/-- The integer that a finite number is, if it is one. -/
def toInt? (x : Binary f) : Option Int :=
  if x.isFinite && x.significand * powerOfTwo x.exponent % powerOfTwo (-x.exponent) == 0 then
    some x.truncate
  else none

/-- The integer part, held between two bounds. What is not a number counts as zero. -/
def clamp (x : Binary f) (low high : Int) : Int :=
  if x.isNaN then 0
  else if x.isInfinite then if x.negative then low else high
  else max low (min high x.truncate)

/-- The number nearest to a number of another format. What is not a number stays so: it keeps its
sign and the leading bits of its fraction and becomes quiet. -/
def convert (g : Format) (x : Binary f) : Binary g :=
  if x.isNaN then
    let fraction := (x.magnitude - f.infinity) * g.hidden / f.hidden
    ofMagnitude g x.negative (g.infinity + (fraction ||| g.hidden / 2))
  else if x.isInfinite then infinite g x.negative
  else ofScaled g x.negative x.significand x.exponent

end Binary

end Orthotope
