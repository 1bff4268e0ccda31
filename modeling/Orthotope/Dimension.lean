import Orthotope.Index
import Orthotope.Layout

/-!
# Dimensions

A `Dimension` is one axis of a cube: a length together with the index that labels its positions. The
index is a label only: two dimensions are equal (`==`) if their lengths are.
-/

namespace Orthotope

/-- One axis of a cube. -/
structure Dimension where
  index : Index

namespace Dimension

/-- The number of positions on the axis. -/
def length (d : Dimension) : Nat := d.index.size

/-- The name of the axis, which is that of its index. -/
def name (d : Dimension) : String := d.index.name

instance : BEq Dimension := ⟨fun a b => a.length == b.length⟩

/-- The axis whose keys are its positions. -/
def natural (name : String) (length : Nat) : Dimension :=
  ⟨.whole (.natural name length)⟩

/-- The axis of a given length, with the usual name. -/
def ofLength (length : Nat) : Dimension := natural "D" length

/-- The axis of a given length, which must not be negative. -/
def ofInt (length : Int) : Except Error Dimension :=
  if length < 0 then .error (.negativeLength length) else .ok (ofLength length.toNat)

/-- The axis labelled by a base index. -/
def ofBase (base : Base) : Dimension := ⟨.whole base⟩

/-- The axis labelled by a base index, which must have the given number of positions. -/
def withLength (base : Base) (length : Nat) : Except Error Dimension :=
  if base.size = length then .ok (ofBase base) else .error (.indexSize length base.size)

/-- The axes of a shape, named `D0`, `D1` and so on. -/
def ofShape (shape : List Nat) : List Dimension :=
  shape.zipIdx.map fun (n, axis) => natural s!"D{axis}" n

/-- Keeps the positions marked in `mask`. -/
def mask (d : Dimension) (mask : BitSet) : Dimension := ⟨d.index.mask mask⟩

/-- Keeps the positions from `start` on and below `stop`, which must lie within the axis. -/
def sub (d : Dimension) (start stop : Nat) : Except Error Dimension :=
  (d.index.sub start stop).map Dimension.mk

/-- The name of the axis and its length in brackets. -/
def text (d : Dimension) : String := s!"{d.name}[{d.length}]"

end Dimension

/-- The lengths of the given axes. -/
def shapeOf (dims : List Dimension) : List Nat :=
  dims.map Dimension.length

theorem shapeOf_ofShape (shape : List Nat) : shapeOf (Dimension.ofShape shape) = shape := by
  simp only [shapeOf, Dimension.ofShape, List.map_map]
  rw [show (Dimension.length ∘ fun x : Nat × Nat => Dimension.natural s!"D{x.2}" x.1) = Prod.fst
    from rfl]
  exact List.zipIdx_map_fst 0 shape

end Orthotope
