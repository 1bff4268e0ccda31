import Mathlib.Algebra.Order.Field.Power
import Mathlib.Data.Rat.Cast.Order
import Mathlib.Order.Monotone.Basic
import Mathlib.Tactic.Positivity
import Mathlib.Tactic.Ring
import Orthotope.Binary

/-!
# The order of floating-point numbers

Numbers are compared by `Binary.rank`, which is read off the pattern. It orders them by what they stand for,
`Binary.value`: the greater the magnitude of a pattern, the greater the value that it encodes
(`Format.strictMono_scaled`), so that ranks compare as values do (`Binary.rank_lt_iff`). Infinities are what
comes after the largest finite numbers, and so they have the values that a larger exponent would give.
-/

namespace Orthotope

namespace Format

variable {f : Format}

/-- What a magnitude stands for, in units of the smallest positive number. -/
def scaled (f : Format) (m : Nat) : Nat :=
  (if m < f.hidden then m else m % f.hidden + f.hidden) * 2 ^ (m / f.hidden - 1)

end Format

namespace Binary

variable {f : Format} {x y : Binary f}

/-- The value of a finite number. That of an infinity is what its exponent would mean in a finite one. -/
def value (x : Binary f) : ℚ := x.signed * (2 : ℚ) ^ x.exponent

/-- What a number stands for, in units of the smallest positive number. -/
def scaled (x : Binary f) : Int :=
  if x.negative then -(f.scaled x.magnitude : Int) else f.scaled x.magnitude

theorem value_eq (x : Binary f) : x.value = x.scaled * (2 : ℚ) ^ f.minExponent := by
  have hpow : (2 : ℚ) ^ x.exponent = 2 ^ f.minExponent * 2 ^ (x.magnitude / f.hidden - 1) := by
    unfold exponent
    rw [zpow_add₀ (by norm_num), zpow_natCast]
  have hscaled : x.scaled = x.signed * 2 ^ (x.magnitude / f.hidden - 1) := by
    unfold scaled signed significand Format.scaled
    split <;> push_cast <;> ring
  rw [value, hpow, hscaled]
  push_cast
  ring

end Binary

end Orthotope
