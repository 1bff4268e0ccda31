import Orthotope.Channel
import Orthotope.Dimension

/-!
# Cubes

A `Cube k` is a handle to elements of kind `k`. It is a leaf, whose elements lie in a slot of some
store; a view of another cube; or another cube with its elements converted. It holds no elements
itself, so that writing through one cube is seen through every other over the same slot.

Cubes that are made separately are different objects even if they show the same elements. A view or a
conversion bears a serial number for that, and `Cube.same` says whether two handles are to one object.

`Cube.access` is the access to the elements, given the access to each slot.

The shape and the size are those of the axes. A size that is computed and kept when a cube is made is
`Cube.sizeIn`, and it is the same if it can be computed in 64 bits (`Cube.Sized.sizeIn_eq`).
-/

namespace Orthotope

/-- A handle to elements of one kind. -/
inductive Cube : Kind → Type where
  /-- The elements of a slot. -/
  | leaf (kind : Kind) (slot : Nat) (dims : List Dimension) : Cube kind
  /-- Another cube as a transform presents it. -/
  | view {kind : Kind} (serial : Nat) (inner : Cube kind) (dims : List Dimension)
      (transform : Transform) : Cube kind
  /-- Another cube with its elements converted. -/
  | cast {source : Kind} (serial : Nat) (inner : Cube source) (target : Kind) : Cube target

/-- What tells one cube object from another. -/
inductive Identity where
  | slot (slot : Nat)
  | serial (serial : Nat)
  deriving DecidableEq, Repr

namespace Cube

variable {k source : Kind} {σ : Type}

/-- The axes of a cube. -/
def dims : {k : Kind} → Cube k → List Dimension
  | _, leaf _ _ dims => dims
  | _, view _ _ dims _ => dims
  | _, cast _ inner _ => inner.dims

/-- The length of each axis. -/
def shape (c : Cube k) : List Nat := shapeOf c.dims

/-- The number of elements. -/
def size (c : Cube k) : Nat := sizeOf c.shape

/-- The number of axes. -/
def rank (c : Cube k) : Nat := c.dims.length

/-- The length of an axis. -/
def length (c : Cube k) (axis : Nat) : Except Error Nat :=
  match c.shape[axis]? with
  | some n => .ok n
  | none => .error (.misuse .axis)

/-- An axis. -/
def dimension (c : Cube k) (axis : Nat) : Except Error Dimension :=
  match c.dims[axis]? with
  | some d => .ok d
  | none => .error (.misuse .axis)

/-- The cube that a view shows. -/
def inner? : Cube k → Option (Cube k)
  | view _ inner _ _ => some inner
  | _ => none

/-- Whether a cube is a view. -/
def isView (c : Cube k) : Bool := c.inner?.isSome

/-- The number of views on top of a cube that is none. -/
def depth : {k : Kind} → Cube k → Nat
  | _, view _ inner _ _ => inner.depth + 1
  | _, _ => 0

/-- The slot of a leaf. -/
def slot? : Cube k → Option Nat
  | leaf _ slot _ => some slot
  | _ => none

/-- What tells a cube from others. -/
def identity : Cube k → Identity
  | leaf _ slot _ => .slot slot
  | view serial .. => .serial serial
  | cast serial .. => .serial serial

/-- Whether two handles are to one object. -/
def same (c : Cube k) (d : Cube source) : Bool := decide (c.identity = d.identity)

/-- The kind and the shape of a cube, and for a view its transform and the cube beneath. -/
def text : {k : Kind} → Cube k → String
  | k, view _ inner dims transform =>
    s!"Cube<{k.name}>{bracketed (shapeOf dims)} {transform.text} of {inner.text}"
  | k, leaf _ _ dims => s!"Cube<{k.name}>{bracketed (shapeOf dims)}"
  | k, cast _ inner _ => s!"Cube<{k.name}>{bracketed inner.shape}"

/-- The view that a transform of a cube gives. -/
def viewOver (inner : Cube k) (dims : List Dimension) (transform : Transform) : View :=
  ⟨inner.shape, shapeOf dims, transform⟩

/-- Access to the elements of a cube. `slots` gives access to the elements of a slot, for a leaf of the
given shape. -/
def access (slots : (k : Kind) → Nat → List Nat → Access σ k.Elem) :
    {k : Kind} → Cube k → Access σ k.Elem
  | _, leaf k slot dims => slots k slot (shapeOf dims)
  | _, view _ inner dims transform =>
    (inner.access slots).through (inner.viewOver dims transform)
  | _, cast _ inner target => (inner.access slots).convert target

/-- The event that tells of a new cube. Only views are told of. -/
def creation : Cube k → List Event
  | view _ inner dims transform => [.viewed transform.name (shapeOf dims) inner.shape]
  | _ => []

end Cube

end Orthotope
