import Orthotope.Error

/-!
# Arithmetic of 64 bits

Positions, lengths and shifts are unsigned words of 64 bits. What becomes of a result that does not fit
depends on how a program is built: a checked build refuses it, another one keeps the lowest 64 bits. An
`Arithmetic` is one of the two, or the arithmetic of numbers without a bound, in which the operations of
this library are described.

The functions that compute in a given arithmetic have names that end in `In`. What they compute in
`Arithmetic.unbounded` is what the function without that ending says, provided that no step of them is a
misuse.
-/

namespace Orthotope

/-- The largest number that a position or a length may have. -/
def maxPosition : Nat := 2 ^ 64 - 1

/-- What becomes of a result that does not fit 64 bits. -/
inductive Arithmetic where
  /-- It is kept, as if there were no bound. -/
  | unbounded
  /-- It is a misuse. -/
  | checked
  /-- Its lowest 64 bits are kept. -/
  | wrapping
  deriving DecidableEq, Repr

namespace Arithmetic

/-- A result. -/
def keep (m : Arithmetic) (n : Nat) : Except Error Nat :=
  match m with
  | unbounded => .ok n
  | checked => if n ≤ maxPosition then .ok n else .error (.misuse .overflow)
  | wrapping => .ok (n % (maxPosition + 1))

/-- A sum. -/
def add (m : Arithmetic) (a b : Nat) : Except Error Nat := m.keep (a + b)

/-- A product. -/
def mul (m : Arithmetic) (a b : Nat) : Except Error Nat := m.keep (a * b)

/-- A difference. Below zero there is one only if results wrap around. -/
def sub (m : Arithmetic) (a b : Nat) : Except Error Nat :=
  if b ≤ a then .ok (a - b)
  else match m with
    | wrapping => .ok (a + (maxPosition + 1) - b)
    | _ => .error (.misuse .difference)

/-- The signed number after a signed number of 64 bits. -/
def succ (m : Arithmetic) (n : Int) : Except Error Int :=
  match m with
  | unbounded => .ok (n + 1)
  | checked => if n + 1 < 2 ^ 63 then .ok (n + 1) else .error (.misuse .overflow)
  | wrapping => .ok ((n + 1).bmod (2 ^ 64))

end Arithmetic

end Orthotope
