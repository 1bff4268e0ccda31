import Orthotope.Layout

/-!
# Row-major addresses as they are computed

The addresses of `Orthotope.Layout`, computed step by step in a given arithmetic. A step that makes no
sense is a misuse: a place beyond the end of a table, a remainder by zero, or coordinates that are too
few or too many.

The size of a shape is computed once, when a cube is made, and stored with it. The lengths are
multiplied from the first on, so that a product may not fit even where the size does.
-/

namespace Orthotope

/-- The entry of a table at a place, which must be within the table. -/
def entry (xs : List Nat) (i : Nat) : Except Error Nat :=
  match xs[i]? with
  | some x => .ok x
  | none => .error (.misuse .entry)

/-- The entry of an array at a place, which must be within the array. -/
def entryOf (xs : Array Nat) (i : Nat) : Except Error Nat :=
  match xs[i]? with
  | some x => .ok x
  | none => .error (.misuse .entry)

/-- The number of elements of a cube of the given shape. -/
def sizeIn (m : Arithmetic) (shape : List Nat) : Except Error Nat := shape.foldlM m.mul 1

/-- The size that a cube of the given shape stores. A cube is made only if there is one. -/
def storedSize (m : Arithmetic) (shape : List Nat) : Nat :=
  match sizeIn m shape with
  | .ok n => n
  | .error _ => 0

/-- The row-major position of coordinates, which need not lie in the shape. There must be one for each
axis. -/
def offsetIn (m : Arithmetic) (shape coords : List Nat) : Except Error Nat :=
  if coords.length = shape.length then
    (shape.zip coords).foldlM (fun acc axis => do m.add (← m.mul acc axis.1) axis.2) 0
  else .error (.misuse .coordinateCount)

/-- The position of coordinates below the axes from `axis` on, when `acc` is the position along the
axes before them. -/
def offsetFromIn (m : Arithmetic) (axis acc : Nat) : List Nat → List Nat → Except Error Nat
  | n :: shape, i :: coords =>
    if i < n then do
      let next ← m.add (← m.mul acc n) i
      offsetFromIn m (axis + 1) next shape coords
    else .error (.coordinate axis i n)
  | _, _ => .ok acc

/-- The row-major position of coordinates. There must be one for each axis, and the first that lies
outside its axis is reported. -/
def offsetIn? (m : Arithmetic) (shape coords : List Nat) : Except Error Nat :=
  if coords.length = shape.length then offsetFromIn m 0 0 shape coords
  else .error (.rank shape.length coords.length)

/-- The coordinates of a position, found from the last axis on by dividing what is left of the position.
No axis may be empty. -/
def unravelGuarded : List Nat → Nat → Except Error (List Nat × Nat)
  | [], p => .ok ([], p)
  | n :: shape, p => do
    let (coords, left) ← unravelGuarded shape p
    if n = 0 then throw (.misuse .emptyAxis)
    return (left % n :: coords, left / n)

end Orthotope
