import Orthotope.Arithmetic

/-!
# Row-major addresses

A shape is a list of axis lengths. The element at a list of coordinates has a flat position in
row-major order, in which the last axis varies fastest: `offset` computes it, `offset?` checks the
coordinates first, `unravel` goes back, and `advance` steps to the next position.
-/

namespace Orthotope

/-- The number of elements of a cube of the given shape. -/
def sizeOf (shape : List Nat) : Nat :=
  shape.foldr (· * ·) 1

@[simp]
theorem sizeOf_nil : sizeOf [] = 1 := rfl

@[simp]
theorem sizeOf_cons (n : Nat) (shape : List Nat) : sizeOf (n :: shape) = n * sizeOf shape := rfl

/-- The row-major position of coordinates, which need not lie in the shape. -/
def offset (shape coords : List Nat) : Nat :=
  (shape.zip coords).foldl (fun acc axis => acc * axis.1 + axis.2) 0

/-- The position of coordinates below the axes from `axis` on, when `acc` is the position along the
axes before them. -/
def offsetFrom (axis acc : Nat) : List Nat → List Nat → Except Error Nat
  | n :: shape, i :: coords =>
    if i < n then offsetFrom (axis + 1) (acc * n + i) shape coords
    else .error (.coordinate axis i n)
  | _, _ => .ok acc

/-- The row-major position of coordinates. There must be one for each axis, and the first that lies
outside its axis is reported. -/
def offset? (shape coords : List Nat) : Except Error Nat :=
  if coords.length = shape.length then offsetFrom 0 0 shape coords
  else .error (.rank shape.length coords.length)

/-- The coordinates of a flat position. A position beyond the size wraps around on the first
axis. -/
def unravel : List Nat → Nat → List Nat
  | [], _ => []
  | n :: shape, p => p / sizeOf shape % n :: unravel shape p

/-- The coordinates of a flat position, provided that no axis is empty. -/
def unravel? (shape : List Nat) (p : Nat) : Except Error (List Nat) :=
  if 0 ∈ shape then .error (.misuse .emptyAxis) else .ok (unravel shape p)

/-- The coordinates that follow in row-major order, and whether there are any. After the last
position come the coordinates of the first. -/
def advance : List Nat → List Nat → Bool × List Nat
  | n :: shape, i :: coords =>
    match advance shape coords with
    | (true, rest) => (true, i :: rest)
    | (false, rest) => if i + 1 < n then (true, (i + 1) :: rest) else (false, 0 :: rest)
  | _, coords => (false, coords)

/-- The coordinates that follow, provided that every axis has one. Any beyond the axes stay as they
are. -/
def advance? (shape coords : List Nat) : Except Error (Bool × List Nat) :=
  if coords.length < shape.length then .error (.misuse .coordinateCount)
  else .ok (advance shape coords)

/-- Checks that `count` elements from `pos` on lie within `size`. -/
def checkRange (size pos count : Nat) : Except Error Unit :=
  if pos + count ≤ size then .ok () else .error (.position (min (pos + count) maxPosition) size)

/-- Checks that `pos` is a position of a cube of `size` elements. -/
def checkPos (size pos : Nat) : Except Error Unit :=
  if pos < size then .ok () else .error (.position pos size)

/-- Writes elements into an array from place `i` on. What does not fit is lost. -/
def overwrite {α : Type} (xs : Array α) (i : Nat) : List α → Array α
  | [] => xs
  | y :: ys => overwrite (xs.setIfInBounds i y) (i + 1) ys

end Orthotope
