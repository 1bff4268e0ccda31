import Orthotope.BitSet
import Orthotope.Channel

/-!
# Packed truth values

Truth values kept in a `BitSet`, one bit for each element. The nullable channel moves one element at
a time.
-/

namespace Orthotope.Bits

/-- Replaces one truth value after the other. -/
def assignAll (s : BitSet) (p : Nat) : List Bool → BitSet
  | [] => s
  | b :: bs => assignAll (s.mark p b) (p + 1) bs

/-- The truth values as a channel of `size` positions. -/
def channel (size : Nat) : Channel BitSet Bool where
  size := size
  get p := do
    Act.ofExcept (checkPos size p)
    Act.ofEffect (Effect.look (·.mem p))
  set p b := do
    Act.ofExcept (checkPos size p)
    Act.ofEffect (Effect.update (·.mark p b))
  read p count := readWithin size p count <|
    Effect.look fun s => .done ((List.range count).map fun i => s.mem (p + i))
  write p bs := writeWithin size p bs.length <|
    Act.ofEffect (Effect.update (assignAll · p bs))

/-- Access to the truth values of a cube of the given shape. A missing one is written as false. -/
def access (shape : List Nat) : Access BitSet Bool where
  raw := channel (sizeOf shape)
  nullable := ((channel (sizeOf shape)).orNull false).stepwise
  flush := pure ()

end Orthotope.Bits
