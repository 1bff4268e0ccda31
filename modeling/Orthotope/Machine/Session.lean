import Orthotope.Machine.Derive
import Orthotope.Workspace

/-!
# Sessions as they are computed

The sessions of `Orthotope.Workspace` that depend on arithmetic. Storage is made for a size that is
computed from the shape (`Session.measured`), and whole cubes are read and written through their
elements as `Cube.accessIn` reaches them.
-/

namespace Orthotope

/-- Access to the elements of a cube over the store. -/
def Cube.elementsIn (m : Arithmetic) {k : Kind} (c : Cube k) : Access Store k.Elem :=
  c.accessIn m Store.access

namespace Session

variable {k : Kind} {α : Type}

/-! ## Making storage -/

/-- Makes something for a shape, whose size is computed first. -/
def measured (m : Arithmetic) (shape : List Nat) (make : (size : Nat) → Session α) : Session α := do
  make (← sizeIn m shape)

/-- A sparse cube without entries. The expected fraction of entries is checked before there is a size. -/
def sparseIn (m : Arithmetic) (k : Kind) (dims : List Dimension) (null : k.Elem)
    (loading : Binary .double) : Session (Cube k) := do
  checkLoading loading
  measured m (shapeOf dims) (sparseOf k dims null loading)

/-- A cube of nested lists. The size of their shape is stored with it. -/
def raggedIn (m : Arithmetic) (k : Kind) (items : Nested k.Elem) : Session (Cube k) := do
  let shape ← items.shape
  measured m shape fun _ => leaf (Dimension.ofShape shape) (.ragged items)

/-- A cube over a file that is made or emptied for it. -/
def createFileIn (m : Arithmetic) (k : Kind) (name : String) (shape : List Nat) : Session (Cube k) :=
  measured m shape (createFileOf k name shape)

/-- A cube over a file that is there. -/
def openFileIn (m : Arithmetic) (k : Kind) (name : String) (shape : List Nat) (writable : Bool) :
    Session (Cube k) :=
  measured m shape (openFileOf k name shape writable)

/-! ## Whole cubes -/

/-- A dense cube with the same axes and the same elements. -/
def toDenseIn (m : Arithmetic) (c : Cube k) : Session (Cube k) := do
  let copy ← measured m c.shape (filledOf k c.dims Dense.maxChunkShift)
  perform (copy.elements.raw.copyFrom (c.elementsIn m).raw)
  return copy

/-- Copies the elements of a cube of the same shape. -/
def copyFromIn (m : Arithmetic) (c source : Cube k) : Session Unit := do
  Channel.checkSameShape c.shape source.shape
  perform ((c.elementsIn m).raw.copyFrom (source.elementsIn m).raw)

/-- Whether two cubes have the same shape and the same elements. -/
def sameContentIn (m : Arithmetic) (c d : Cube k) : Session Bool := do
  if c.shape ≠ d.shape then return false
  perform ((c.elementsIn m).raw.sameContent (d.elementsIn m).raw k.same)

/-- The shape of a cube and its elements, read block by block. -/
def toDocumentIn (m : Arithmetic) (c : Cube k) : Session (Document k) := do
  let data ← perform ((c.elementsIn m).raw.foldBlocks (fun acc xs => return acc ++ xs) [])
  return ⟨c.shape, data⟩

/-- Whether the positions of a cube of one axis are true. -/
def truthsIn (m : Arithmetic) (c : Cube .bool) : Session (List Bool) := do
  if c.rank ≠ 1 then throw (.rank 1 c.rank)
  perform (c.elementsIn m).raw.toList

/-- The positions of the first axis at which another cube, of one axis, is true. -/
def maskByIn (m : Arithmetic) (c : Cube k) (marks : Cube .bool) : Session (Cube k) := do
  let bs ← truthsIn m marks
  derive fun serial => c.maskIn m serial (.ofBools bs)

end Session

end Orthotope
