import Orthotope.Cube.Derive
import Orthotope.Machine.View

/-!
# Deriving cubes as it is computed

The operations of `Orthotope.Cube.Derive`, computed step by step in a given arithmetic. Each of them
that makes a view computes its size. The checks are those of `Orthotope.Machine.View`.
-/

namespace Orthotope

/-- The sum of two reduced shifts, reduced. -/
def addShiftsIn (m : Arithmetic) (a b length : Nat) : Except Error Nat := do
  if length = 0 then return 0
  let sum ← m.add a b
  if length ≤ sum then m.sub sum length else return sum

/-- The sum of two reduced shifts on each axis. -/
def combineShiftsIn (m : Arithmetic) : List Nat → List Nat → List Nat → Except Error (List Nat)
  | a :: as, b :: bs, n :: shape => do
    let first ← addShiftsIn m a b n
    return first :: (← combineShiftsIn m as bs shape)
  | _, _, _ => .ok []

/-- Spreads the shifts of some axes over all of them. `seen` are the axes met so far. -/
def spreadShiftsGuarded (rank : Nat) (seen : List Nat) (all : List Int) :
    List (Int × Nat) → Except Error (List Int)
  | [] => .ok all
  | (shift, axis) :: rest =>
    if rank ≤ axis then .error (.rollAxis axis)
    else if axis ∈ seen then .error (.rollRepeat axis)
    else if all.length ≤ axis then .error (.misuse .entry)
    else spreadShiftsGuarded rank (axis :: seen) (all.set axis shift) rest

/-- A slice of a slice, as one slice. There must be an entry of `outer` for each range of `inner`. -/
def AxisSlice.composeIn (m : Arithmetic) : (inner outer : List AxisSlice) →
    Except Error (List AxisSlice)
  | [], _ => .ok []
  | fixed c :: inner, outer => do return fixed c :: (← composeIn m inner outer)
  | range start step _ :: inner, fixed c :: outer => do
    let coord ← m.add start (← m.mul c step)
    return fixed coord :: (← composeIn m inner outer)
  | range start step _ :: inner, range start' step' count :: outer => do
    let first ← m.add start (← m.mul start' step)
    let stride ← m.mul step step'
    return range first stride count :: (← composeIn m inner outer)
  | range .. :: _, [] => .error (.misuse .entry)

namespace Dimension

/-- Keeps `count` positions from `start` on by `step`. -/
def everyIn (m : Arithmetic) (d : Dimension) (start step count : Nat) : Except Error Dimension := do
  let marks ← (List.range count).foldlM (fun marks i => do
    let p ← m.add start (← m.mul i step)
    marks.insert p) (BitSet.empty d.length)
  return d.mask marks

/-- The axes that a slice leaves. -/
def sliceIn (m : Arithmetic) : List Dimension → List AxisSlice → Except Error (List Dimension)
  | _ :: dims, .fixed _ :: axes => sliceIn m dims axes
  | d :: dims, .range start step count :: axes => do
    let first ← if step = 1 then do d.sub start (← m.add start count)
      else d.everyIn m start step count
    return first :: (← sliceIn m dims axes)
  | _, _ => .ok []

end Dimension

namespace Cube

variable {k : Kind}

/-- A new view, whose size is computed. -/
def newView (m : Arithmetic) (serial : Nat) (inner : Cube k) (dims : List Dimension)
    (transform : Transform) : Except Error (Cube k) := do
  let _ ← Orthotope.sizeIn m (shapeOf dims)
  return view serial inner dims transform

/-- The cube with its axes in reverse order. -/
def transposeIn (m : Arithmetic) (serial : Nat) (c : Cube k) : Except Error (Cube k) :=
  if c.rank ≤ 1 then .ok c
  else match c with
    | view _ inner _ .transposed => .ok inner
    | c => newView m serial c c.dims.reverse .transposed

/-- The cube with each axis shifted in a circle by a reduced number of positions. -/
def rollByIn (m : Arithmetic) (serial : Nat) (c : Cube k) (shifts : List Nat) :
    Except Error (Cube k) :=
  if shifts.all (· = 0) then .ok c
  else match c with
    | view _ inner dims (.rolled current) => do
      let combined ← combineShiftsIn m current shifts (shapeOf dims)
      if combined.all (· = 0) then return inner
      newView m serial inner dims (.rolled combined)
    | c => newView m serial c c.dims (.rolled shifts)

/-- The cube with each axis shifted in a circle. There must be one shift for each axis. -/
def rollIn (m : Arithmetic) (serial : Nat) (c : Cube k) (shifts : List Int) :
    Except Error (Cube k) :=
  if shifts.length = c.rank then c.rollByIn m serial (normalizeShifts shifts c.shape)
  else .error (.rank c.rank shifts.length)

/-- The cube with the given axes shifted in a circle, each by the shift at its place. -/
def rollAxesIn (m : Arithmetic) (serial : Nat) (c : Cube k) (shifts : List Int) (axes : List Nat) :
    Except Error (Cube k) := do
  if shifts.length ≠ axes.length then throw .rollCount
  let all ← spreadShiftsGuarded c.rank [] (List.replicate c.rank 0) (shifts.zip axes)
  c.rollIn m serial all

/-- The cube with its elements in row-major order shifted in a circle. -/
def rollFlatIn (m : Arithmetic) (serial : Nat) (c : Cube k) (shift : Int) : Except Error (Cube k) :=
  let size := c.sizeIn m
  let reduced := normalizeShift shift size
  if reduced = 0 then .ok c
  else match c with
    | view _ inner dims (.flatRolled current) => do
      let combined ← addShiftsIn m current reduced size
      if combined = 0 then return inner
      newView m serial inner dims (.flatRolled combined)
    | c => newView m serial c c.dims (.flatRolled reduced)

/-- The part of a cube that a resolved slice keeps. -/
def sliceByIn (m : Arithmetic) (serial : Nat) (c : Cube k) (axes : List AxisSlice) :
    Except Error (Cube k) := do
  let dims ← Dimension.sliceIn m c.dims axes
  newView m serial c dims (.sliced axes)

/-- Part of a cube. There is one accessor for each of the first axes; the others are kept whole. -/
def sliceIn (m : Arithmetic) (serial : Nat) (c : Cube k) (accessors : List Accessor) :
    Except Error (Cube k) := do
  if c.rank < accessors.length then throw .sliceRank
  let axes ← Accessor.resolveAll c.shape accessors
  if axes = c.shape.map AxisSlice.whole then return c
  match c with
  | view _ inner _ (.sliced current) =>
    inner.sliceByIn m serial (← AxisSlice.composeIn m current axes)
  | c => c.sliceByIn m serial axes

/-- The positions of the first axis that are marked. The mask must be as long as that axis. -/
def maskIn (m : Arithmetic) (serial : Nat) (c : Cube k) (marks : BitSet) : Except Error (Cube k) :=
  match c.dims with
  | [] => .error (.rank 1 0)
  | first :: rest =>
    if marks.size ≠ first.length then .error (.axisLength 0 first.length marks.size)
    else if marks.isFull then .ok c
    else
      let dims := first.mask marks :: rest
      match c with
      | view _ inner _ (.masked current) => do
        let positions ← marks.positions.mapM (entryOf current)
        newView m serial inner dims (.masked positions.toArray)
      | c => newView m serial c dims (.masked marks.positions.toArray)

/-- The same elements in the same order with another shape, which must have as many elements. -/
def reshapeIn (m : Arithmetic) (serial : Nat) (c : Cube k) (shape : List Nat) :
    Except Error (Cube k) := do
  if (← Orthotope.sizeIn m shape) ≠ c.sizeIn m then throw .reshapeSize
  if shape = c.shape then return c
  let inner := match c with
    | view _ inner _ .reshaped => inner
    | c => c
  if shape = inner.shape then return inner
  newView m serial inner (Dimension.ofShape shape) .reshaped

end Cube

end Orthotope
