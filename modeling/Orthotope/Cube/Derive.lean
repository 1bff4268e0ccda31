import Orthotope.Cube

/-!
# Deriving cubes

The operations here make a view of a cube: `transpose`, `roll`, `rollAxes`, `rollFlat`, `slice`,
`mask` and `reshape`; `convert` makes a conversion. An operation that would change nothing gives the
cube itself. One that continues a view of its own kind is folded into it, so that chains of views grow
only when they must; if the two undo each other the result is the cube beneath.

Each takes the serial number that a new cube would bear. The result is new exactly if it bears that
number.
-/

namespace Orthotope

/-- A shift reduced to a number of positions on an axis of the given length. -/
def normalizeShift (shift : Int) (length : Nat) : Nat :=
  if length = 0 then 0 else (shift % (length : Int)).toNat

/-- The sum of two reduced shifts, reduced. -/
def addShifts (a b length : Nat) : Nat :=
  if length = 0 then 0 else if length ≤ a + b then a + b - length else a + b

/-- The reduced shift of each axis. -/
def normalizeShifts : List Int → List Nat → List Nat
  | s :: shifts, n :: shape => normalizeShift s n :: normalizeShifts shifts shape
  | _, _ => []

/-- The sum of two reduced shifts on each axis. -/
def combineShifts : List Nat → List Nat → List Nat → List Nat
  | a :: as, b :: bs, n :: shape => addShifts a b n :: combineShifts as bs shape
  | _, _, _ => []

/-- Spreads the shifts of some axes over all of them. `seen` are the axes met so far. -/
def spreadShifts (rank : Nat) (seen : List Nat) (all : List Int) :
    List (Int × Nat) → Except Error (List Int)
  | [] => .ok all
  | (shift, axis) :: rest =>
    if rank ≤ axis then .error (.rollAxis axis)
    else if axis ∈ seen then .error (.rollRepeat axis)
    else spreadShifts rank (axis :: seen) (all.set axis shift) rest

namespace AxisSlice

/-- A slice of a slice, as one slice. The entries of `outer` are for the ranges of `inner`. -/
def compose : (inner outer : List AxisSlice) → List AxisSlice
  | [], _ => []
  | fixed c :: inner, outer => fixed c :: compose inner outer
  | range start step _ :: inner, fixed c :: outer => fixed (start + c * step) :: compose inner outer
  | range start step _ :: inner, range start' step' count :: outer =>
    range (start + start' * step) (step * step') count :: compose inner outer
  | range start step count :: inner, [] => range start step count :: compose inner []

end AxisSlice

namespace Accessor

/-- Puts one accessor to each axis of a shape. Axes without an accessor are kept whole. -/
def resolveAll : List Nat → List Accessor → Except Error (List AxisSlice)
  | [], _ => .ok []
  | n :: shape, [] => do return .whole n :: (← resolveAll shape [])
  | n :: shape, a :: rest => do
    let first ← a.resolve n
    return first :: (← resolveAll shape rest)

end Accessor

namespace Dimension

/-- Keeps `count` positions from `start` on by `step`. -/
def every (d : Dimension) (start step count : Nat) : Except Error Dimension := do
  let marks ← (BitSet.empty d.length).insertAll ((List.range count).map fun i => start + i * step)
  return d.mask marks

/-- The axes that a slice leaves. -/
def slice : List Dimension → List AxisSlice → Except Error (List Dimension)
  | _ :: dims, .fixed _ :: axes => slice dims axes
  | d :: dims, .range start step count :: axes => do
    let first ← if step = 1 then d.sub start (start + count) else d.every start step count
    return first :: (← slice dims axes)
  | _, _ => .ok []

end Dimension

namespace Cube

variable {k : Kind}

/-- The cube with its axes in reverse order. Up to one axis there is nothing to do, and a transposed
view gives the cube beneath. -/
def transpose (serial : Nat) (c : Cube k) : Cube k :=
  if c.rank ≤ 1 then c
  else match c with
    | view _ inner _ .transposed => inner
    | c => view serial c c.dims.reverse .transposed

/-- The cube with each axis shifted in a circle by a reduced number of positions. -/
def rollBy (serial : Nat) (c : Cube k) (shifts : List Nat) : Cube k :=
  if shifts.all (· = 0) then c
  else match c with
    | view _ inner dims (.rolled current) =>
      let combined := combineShifts current shifts (shapeOf dims)
      if combined.all (· = 0) then inner else view serial inner dims (.rolled combined)
    | c => view serial c c.dims (.rolled shifts)

/-- The cube with each axis shifted in a circle. There must be one shift for each axis. -/
def roll (serial : Nat) (c : Cube k) (shifts : List Int) : Except Error (Cube k) :=
  if shifts.length = c.rank then .ok (c.rollBy serial (normalizeShifts shifts c.shape))
  else .error (.rank c.rank shifts.length)

/-- The cube with the given axes shifted in a circle, each by the shift at its place. -/
def rollAxes (serial : Nat) (c : Cube k) (shifts : List Int) (axes : List Nat) :
    Except Error (Cube k) := do
  if shifts.length ≠ axes.length then throw .rollCount
  let all ← spreadShifts c.rank [] (List.replicate c.rank 0) (shifts.zip axes)
  c.roll serial all

/-- The cube with its elements in row-major order shifted in a circle. -/
def rollFlat (serial : Nat) (c : Cube k) (shift : Int) : Cube k :=
  let size := c.size
  let reduced := normalizeShift shift size
  if reduced = 0 then c
  else match c with
    | view _ inner dims (.flatRolled current) =>
      let combined := addShifts current reduced size
      if combined = 0 then inner else view serial inner dims (.flatRolled combined)
    | c => view serial c c.dims (.flatRolled reduced)

/-- The part of a cube that a resolved slice keeps. -/
def sliceBy (serial : Nat) (c : Cube k) (axes : List AxisSlice) : Except Error (Cube k) := do
  let dims ← Dimension.slice c.dims axes
  return view serial c dims (.sliced axes)

/-- Part of a cube. There is one accessor for each of the first axes; the others are kept whole. -/
def slice (serial : Nat) (c : Cube k) (accessors : List Accessor) : Except Error (Cube k) := do
  if c.rank < accessors.length then throw .sliceRank
  let axes ← Accessor.resolveAll c.shape accessors
  if axes = c.shape.map AxisSlice.whole then return c
  match c with
  | view _ inner _ (.sliced current) => inner.sliceBy serial (AxisSlice.compose current axes)
  | c => c.sliceBy serial axes

/-- The positions of the first axis that are marked. The mask must be as long as that axis. -/
def mask (serial : Nat) (c : Cube k) (marks : BitSet) : Except Error (Cube k) :=
  match c.dims with
  | [] => .error (.rank 1 0)
  | first :: rest =>
    if marks.size ≠ first.length then .error (.axisLength 0 first.length marks.size)
    else if marks.isFull then .ok c
    else
      let dims := first.mask marks :: rest
      match c with
      | view _ inner _ (.masked current) =>
        .ok (view serial inner dims
          (.masked (marks.positions.map fun p => current.getD p 0).toArray))
      | c => .ok (view serial c dims (.masked marks.positions.toArray))

/-- The same elements in the same order with another shape, which must have as many elements. -/
def reshape (serial : Nat) (c : Cube k) (shape : List Nat) : Except Error (Cube k) :=
  if sizeOf shape ≠ c.size then .error .reshapeSize
  else if shape = c.shape then .ok c
  else
    let inner := match c with
      | view _ inner _ .reshaped => inner
      | c => c
    if shape = inner.shape then .ok inner
    else .ok (view serial inner (Dimension.ofShape shape) .reshaped)

/-- The cube with its elements converted to another kind. -/
def convert (serial : Nat) (c : Cube k) (target : Kind) : Cube target :=
  cast serial c target

end Cube

end Orthotope
