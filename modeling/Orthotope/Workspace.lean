import Orthotope.Content
import Orthotope.Cube.Derive
import Orthotope.Document
import Orthotope.Store

/-!
# Workspaces

A `Workspace` is everything that cubes are made in: the store, a supply of serial numbers and the
events reported so far. A `Session α` works in one and may fail.

`Session.derive` makes the cubes of `Orthotope.Cube.Derive`, and the functions from `Session.filled`
to `Session.probe` make storage and the leaf cubes over it.
-/

namespace Orthotope

/-- Everything that cubes are made in. -/
structure Workspace where
  store : Store := {}
  /-- The serial number of the next cube. -/
  serial : Nat := 0
  events : Array Event := #[]

/-- Work in a workspace that may fail. -/
abbrev Session : Type → Type := ExceptT Error (StateM Workspace)

namespace Session

variable {k : Kind} {α : Type}

/-- Runs an effect on the store. -/
def observe (e : Effect Store α) : Session α :=
  ExceptT.lift fun w =>
    let store := w.store
    let rest := { w with store := {} }
    let done := e store
    (done.value, { rest with store := done.state, events := rest.events.append done.events.toArray })

/-- Runs an effect on the store that may fail. -/
def perform (a : Act Store α) : Session α := do
  match ← observe a.run with
  | .ok x => return x
  | .error e => throw e

/-- Reports an event. -/
def report (event : Event) : Session Unit :=
  modify fun w => { w with events := w.events.push event }

/-- Makes a cube from others. If it is new it takes a serial number, and its making is reported. -/
def derive (make : Nat → Except Error (Cube k)) : Session (Cube k) := do
  let serial := (← get).serial
  let c ← make serial
  if c.identity = .serial serial then
    modify fun w => { w with serial := serial + 1 }
    c.creation.forM report
  return c

/-- Makes a leaf cube over new storage. -/
def leaf (dims : List Dimension) (content : Leaf k) : Session (Cube k) :=
  modifyGet fun w =>
    let store := w.store
    let rest := { w with store := {} }
    let (slot, store) := store.add content
    (.leaf k slot dims, { rest with store })

/-- The storage of a leaf cube. -/
def content? (c : Cube k) : Session (Option (Leaf k)) := do
  match c.slot? with
  | some slot => return (← get).store.leaf? k slot
  | none => return none

/-- Empties the slot of a leaf cube. -/
def discard (c : Cube k) : Session Unit :=
  match c.slot? with
  | some slot => modify fun w => { w with store := w.store.clear slot }
  | none => pure ()

/-! ## Making storage

Storage is made for a number of elements, which the functions that end in `Of` are told. The others make it
for the size of the shape. -/

/-- A dense cube of `size` null elements. -/
def filledOf (k : Kind) (dims : List Dimension) (chunkShift size : Nat) : Session (Cube k) := do
  let content := Dense.filled k.null chunkShift size
  report (.allocated k.name (shapeOf dims) content.chunks.size)
  leaf dims (.dense content)

/-- A dense cube whose elements are all null. -/
def filled (k : Kind) (dims : List Dimension) (chunkShift : Nat) : Session (Cube k) :=
  filledOf k dims chunkShift (sizeOf (shapeOf dims))

/-- A dense cube of the given elements. There must be `size` of them. -/
def ofListOf (k : Kind) (dims : List Dimension) (items : List k.Elem) (size : Nat) :
    Session (Cube k) := do
  if items.length ≠ size then throw .dataLength
  leaf dims (.dense (.ofList items))

/-- A dense cube of the given elements. There must be as many as the axes say. -/
def ofList (k : Kind) (dims : List Dimension) (items : List k.Elem) : Session (Cube k) :=
  ofListOf k dims items (sizeOf (shapeOf dims))

/-- A dense cube that takes over `size` elements as one chunk. -/
def wrapOf (k : Kind) (dims : List Dimension) (items : List k.Elem) (size : Nat) :
    Session (Cube k) := do
  let capacity := 2 ^ Dense.maxChunkShift
  if capacity < size then throw (.chunkCapacity size capacity)
  if items.length ≠ size then throw .dataLength
  leaf dims (.dense (.wrapped items))

/-- A dense cube that takes over the given elements as one chunk. -/
def wrap (k : Kind) (dims : List Dimension) (items : List k.Elem) : Session (Cube k) :=
  wrapOf k dims items (sizeOf (shapeOf dims))

/-- The expected fraction of entries must be a number. -/
def checkLoading (loading : Binary .double) : Session Unit := do
  if loading.isNaN then throw (.argument "sparse loading is NaN")

/-- A sparse cube of `size` positions without entries. -/
def sparseOf (k : Kind) (dims : List Dimension) (null : k.Elem) (loading : Binary .double)
    (size : Nat) : Session (Cube k) :=
  leaf dims (.sparse (.empty null size loading))

/-- A sparse cube without entries. -/
def sparse (k : Kind) (dims : List Dimension) (null : k.Elem) (loading : Binary .double) :
    Session (Cube k) := do
  checkLoading loading
  sparseOf k dims null loading (sizeOf (shapeOf dims))

/-- A cube of nested lists. -/
def ragged (k : Kind) (items : Nested k.Elem) : Session (Cube k) := do
  let shape ← items.shape
  leaf (Dimension.ofShape shape) (.ragged items)

/-- A cube of `size` packed truth values, all false. -/
def bitsOf (dims : List Dimension) (size : Nat) : Session (Cube .bool) :=
  leaf dims (.bits (.empty size))

/-- A cube of packed truth values, all false. -/
def bits (dims : List Dimension) : Session (Cube .bool) := bitsOf dims (sizeOf (shapeOf dims))

/-- A cube of the marks of a bit set, which must have `size` positions. -/
def ofBitsOf (shape : List Nat) (marks : BitSet) (size : Nat) : Session (Cube .bool) := do
  if marks.size ≠ size then throw .dataLength
  leaf (Dimension.ofShape shape) (.bits marks)

/-- A cube of the marks of a bit set, which must have as many positions as the shape. -/
def ofBits (shape : List Nat) (marks : BitSet) : Session (Cube .bool) :=
  ofBitsOf shape marks (sizeOf shape)

/-- A cube over a file that is made or emptied for `size` elements. -/
def createFileOf (k : Kind) (name : String) (shape : List Nat) (size : Nat) : Session (Cube k) := do
  let (bytes, files) ← (← get).store.files.create name k size
  modify fun w => { w with store := { w.store with files } }
  report (.fileCreated bytes name)
  leaf (Dimension.ofShape shape) (.mapped ⟨name, true⟩)

/-- A cube over a file that is made or emptied for it. -/
def createFile (k : Kind) (name : String) (shape : List Nat) : Session (Cube k) :=
  createFileOf k name shape (sizeOf shape)

/-- A cube over a file that is there, of `size` elements. -/
def openFileOf (k : Kind) (name : String) (shape : List Nat) (writable : Bool) (size : Nat) :
    Session (Cube k) := do
  let files ← (← get).store.files.open name k size writable
  modify fun w => { w with store := { w.store with files } }
  report (.fileOpened writable name)
  leaf (Dimension.ofShape shape) (.mapped ⟨name, writable⟩)

/-- A cube over a file that is there. -/
def openFile (k : Kind) (name : String) (shape : List Nat) (writable : Bool) : Session (Cube k) :=
  openFileOf k name shape writable (sizeOf shape)

/-- A cube that logs its calls and refuses some positions. -/
def probe (k : Kind) (shape : List Nat) (items : List k.Elem) (refused : List Nat) (bulk : Bool) :
    Session (Cube k) :=
  leaf (Dimension.ofShape shape) (.probe ⟨items.toArray, refused, bulk, #[]⟩)

/-- Replaces the contents of a file or makes it. -/
def putFile (name : String) (bytes : Array UInt8) : Session Unit :=
  modify fun w => { w with store := { w.store with files := w.store.files.insert name bytes } }

/-- The contents of a file, if it is there. -/
def fileBytes (name : String) : Session (Option (Array UInt8)) := do
  return (← get).store.files[name]?

/-! ## Whole cubes -/

/-- A dense cube with the same axes and the same elements. -/
def toDense (c : Cube k) : Session (Cube k) := do
  let copy ← filled k c.dims Dense.maxChunkShift
  perform (copy.elements.raw.copyFrom c.elements.raw)
  return copy

/-- Copies the elements of a cube of the same shape. -/
def copyFrom (c source : Cube k) : Session Unit := do
  Channel.checkSameShape c.shape source.shape
  perform (c.elements.raw.copyFrom source.elements.raw)

/-- Whether two cubes have the same shape and the same elements. -/
def sameContent (c d : Cube k) : Session Bool := do
  if c.shape ≠ d.shape then return false
  perform (c.elements.raw.sameContent d.elements.raw k.same)

/-- The shape of a cube and its elements, read block by block. -/
def toDocument (c : Cube k) : Session (Document k) := do
  let data ← perform (c.elements.raw.foldBlocks (fun acc xs => return acc ++ xs) [])
  return ⟨c.shape, data⟩

/-- Whether the positions of a cube of one axis are true. -/
def truths (c : Cube .bool) : Session (List Bool) := do
  if c.rank ≠ 1 then throw (.rank 1 c.rank)
  perform c.elements.raw.toList

/-- The positions of the first axis at which another cube, of one axis, is true. -/
def maskBy (c : Cube k) (marks : Cube .bool) : Session (Cube k) := do
  let bs ← truths marks
  derive fun serial => c.mask serial (.ofBools bs)

/-- Takes the log of a probe, which is empty afterwards. -/
def takeLog (c : Cube k) : Session (Option (Array Call)) := do
  match c.slot?, ← content? c with
  | some slot, some (.probe p) =>
    modify fun w => { w with store := w.store.put slot (.probe { p with log := #[] } : Leaf k) }
    return some p.log
  | _, _ => return none

end Session

end Orthotope
