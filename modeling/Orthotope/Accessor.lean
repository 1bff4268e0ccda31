import Orthotope.Arithmetic

/-!
# Accessors

An `Accessor` says what a slice keeps of one axis: a single position, which removes the axis, or a
range of positions with a step. Positions may be negative, counting back from the end of the axis.

`Accessor.resolve` puts an accessor to an axis of a known length. The result, an `AxisSlice`, names
positions of that axis only.

Numbers are signed ones of 64 bits. An unsigned number that does not fit wraps around to a negative one
(`signedWord`). The position after the last one of an inclusive range is computed in a given arithmetic
(`Accessor.through`).
-/

namespace Orthotope

/-- What a slice keeps of one axis. -/
inductive Accessor where
  /-- The position `index`. The axis is dropped. -/
  | at (index : Int)
  /-- The positions from `start` on by `step`, below `stop` or up to the end of the axis. -/
  | range (start : Int) (stop : Option Int) (step : Int)
  deriving DecidableEq, Repr

/-- How a slice addresses one axis of a known length. -/
inductive AxisSlice where
  /-- The axis is fixed at a coordinate and does not appear in the slice. -/
  | fixed (coord : Nat)
  /-- Position `i` of the slice is position `start + i * step`, for each `i` below `count`. -/
  | range (start step count : Nat)
  deriving DecidableEq, Repr

/-- The signed number with the same 64 bits. -/
def signedWord (n : Int) : Int := n.bmod (2 ^ 64)

namespace Accessor

/-- The position that a number of at most 64 bits selects. -/
def atWord (index : Int) : Accessor := .at (signedWord index)

/-- The range from `start` up to and without `stop`. -/
def between (start stop : Int) : Accessor :=
  .range (signedWord start) (some (signedWord stop)) 1

/-- The range from `start` up to and including `stop`. The last position of an axis is `-1`, so that
this end is the end of the axis. -/
def through (m : Arithmetic) (start stop : Int) : Except Error Accessor := do
  let stop := signedWord stop
  if stop = -1 then return .range (signedWord start) none 1
  return .range (signedWord start) (some (← m.succ stop)) 1

/-- The range up to and without `stop`. -/
def before (stop : Int) : Accessor := .range 0 (some (signedWord stop)) 1

/-- The range from `start` on. -/
def since (start : Int) : Accessor := .range (signedWord start) none 1

/-- The whole axis. -/
def full : Accessor := .range 0 none 1

/-- The position of an index on an axis of the given length, counting back from the end if the index is
negative. It may lie beyond the end but not before the start. -/
def position? (length : Nat) (index : Int) : Option Nat :=
  if 0 ≤ index then some index.toNat
  else if index.natAbs ≤ length then some (length - index.natAbs)
  else none

/-- The end of a range on an axis of the given length: a position of the axis or its length. -/
def bound? (length : Nat) (index : Int) : Except Error Nat :=
  match position? length index with
  | some p => if p ≤ length then .ok p else .error .sliceRange
  | none => .error .sliceRange

/-- The number of positions from `start` on by `step` that lie below `stop`. -/
def count (start stop step : Nat) : Nat := (stop - start + step - 1) / step

/-- Puts an accessor to an axis of the given length. -/
def resolve (length : Nat) : Accessor → Except Error AxisSlice
  | .at index =>
    match position? length index with
    | some p => if p < length then .ok (.fixed p) else .error .sliceIndex
    | none => .error .sliceIndex
  | .range start stop step =>
    if step ≤ 0 then .error .sliceStep else do
      let first ← bound? length start
      let last ← match stop with
        | some stop => bound? length stop
        | none => .ok length
      return .range first step.toNat (count first last step.toNat)

end Accessor

/-- The slice of an axis that keeps it whole. -/
def AxisSlice.whole (length : Nat) : AxisSlice := .range 0 1 length

end Orthotope
