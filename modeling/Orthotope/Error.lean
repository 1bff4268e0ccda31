/-!
# Causes of failure

`Error` lists every reason for which an operation of this library refuses a request. A cause holds
the numbers that describe it and no text. `Error.detail` words a cause, and `Error.message` puts the
name of its family (`Error.family`) in front of it.

A `Misuse` is a request that no caller may make, such as a bit position beyond the end of a bit set.
It is a cause like the others, so that a theorem can say when one arises.
-/

namespace Orthotope

/-- A request outside the domain of an operation. -/
inductive Misuse where
  /-- A bit position at or beyond the size of the bit set. -/
  | bitPosition
  /-- An axis at or beyond the rank. -/
  | axis
  /-- A position decomposed along an axis of length zero. -/
  | emptyAxis
  /-- Fewer coordinates than axes where each axis needs one. -/
  | coordinateCount
  /-- A slot without storage. -/
  | slot
  /-- A byte string that is not as long as the element is wide. -/
  | byteWidth
  /-- A place at or beyond the end of a table. -/
  | entry
  /-- A difference that would be below zero. -/
  | difference
  /-- A step of a loop that does not advance. -/
  | standstill
  /-- A number of more than 64 bits. -/
  | overflow
  deriving DecidableEq, Repr

/-- Why a request is refused. -/
inductive Error where
  /-- The number of indices, shifts or axes differs from the rank. -/
  | rank (expected actual : Nat)
  /-- The ranks agree but the lengths of `axis` do not. -/
  | axisLength (axis expected actual : Nat)
  /-- The coordinate `index` lies outside `axis`, whose length is `length`. -/
  | coordinate (axis index length : Nat)
  /-- The position `flat` in row-major order lies outside a cube of `size` elements. -/
  | position (flat size : Nat)
  /-- A slice has more accessors than the cube has axes. -/
  | sliceRank
  /-- An index in a slice lies outside its axis. -/
  | sliceIndex
  /-- A range in a slice lies outside its axis. -/
  | sliceRange
  /-- The step of a range in a slice is not positive. -/
  | sliceStep
  /-- A roll has more shifts than axes, or fewer. -/
  | rollCount
  /-- A roll names an axis beyond the rank. -/
  | rollAxis (axis : Nat)
  /-- A roll names an axis twice. -/
  | rollRepeat (axis : Nat)
  /-- The new shape of a reshape has another number of elements. -/
  | reshapeSize
  /-- The number of elements given differs from the size of the shape. -/
  | dataLength
  /-- The elements given do not fit one chunk. -/
  | chunkCapacity (length max : Nat)
  /-- The length of an axis is negative. -/
  | negativeLength (length : Int)
  /-- The length asked of an axis differs from the size of its index. -/
  | indexSize (length size : Nat)
  /-- An index is given the same key twice. -/
  | duplicateKey
  /-- An index is given no keys. -/
  | noKeys
  /-- The range from `start` up to `stop` does not lie within an index of `size` positions. -/
  | indexRange (start stop size : Nat)
  /-- Nested lists do not have the same depth everywhere. -/
  | unevenDepth
  /-- A write to storage that can only be read. -/
  | readOnly
  /-- An argument outside its domain. -/
  | argument (text : String)
  /-- There is no file of this name. -/
  | fileMissing (name : String)
  /-- The file `name` holds fewer bytes than the shape needs. -/
  | fileShort (name : String) (bytes needed : Nat)
  /-- Any other failure of the file system. -/
  | file (text : String)
  /-- A request that no caller may make. -/
  | misuse (cause : Misuse)
  deriving DecidableEq, Repr

namespace Error

/-- The text of a cause, without the name of its family. -/
def detail : Error → String
  | rank expected actual => s!"expected {expected} dims but got {actual}"
  | axisLength axis expected actual => s!"length of axis {axis} is {actual} but expected {expected}"
  | coordinate axis index length =>
    s!"index {index} is out of bounds for axis {axis} with length {length}"
  | position flat size => s!"position {flat} is out of bounds for size {size}"
  | sliceRank => "slice has too many accessors"
  | sliceIndex => "slice index is invalid"
  | sliceRange => "slice range is invalid"
  | sliceStep => "slice step is invalid"
  | rollCount => "shift and axis counts differ"
  | rollAxis axis => s!"roll axis {axis} is invalid"
  | rollRepeat axis => s!"roll axis {axis} is given more than once"
  | reshapeSize => "new shape has a different length"
  | dataLength => "data length mismatch"
  | chunkCapacity length max => s!"data length {length} exceeds the chunk capacity {max}"
  | negativeLength length => s!"negative dimension length {length}"
  | indexSize length size => s!"dimension length {length} differs from index size {size}"
  | duplicateKey => "index contains duplicate keys"
  | noKeys => "index has no keys"
  | indexRange start stop size => s!"range [{start}, {stop}) is invalid for index of size {size}"
  | unevenDepth => "nested data has inconsistent depth"
  | readOnly => "cube is read-only"
  | argument text => text
  | fileMissing name => s!"{name} does not exist"
  | fileShort name bytes needed => s!"{name} has {bytes} bytes but the shape needs {needed}"
  | file text => text
  | misuse .bitPosition => "bit position out of range"
  | misuse .coordinateCount => "fewer coordinates than axes"
  | misuse .axis => "axis out of range"
  | misuse .emptyAxis => "axis of length zero"
  | misuse .slot => "slot without storage"
  | misuse .byteWidth => "byte string of the wrong width"
  | misuse .entry => "table entry out of range"
  | misuse .difference => "difference below zero"
  | misuse .standstill => "loop does not advance"
  | misuse .overflow => "number of more than 64 bits"

/-- The name of the family that a cause belongs to, if its message begins with one. -/
def family : Error → Option String
  | rank .. | axisLength .. => some "dimension error"
  | coordinate .. | position .. => some "index error"
  | sliceRank | sliceIndex | sliceRange | sliceStep => some "slice error"
  | rollCount | rollAxis _ | rollRepeat _ => some "roll error"
  | reshapeSize => some "reshape error"
  | dataLength | chunkCapacity .. | negativeLength _ | indexSize .. | duplicateKey | noKeys
  | indexRange .. | unevenDepth => some "invalid data"
  | argument _ => some "invalid argument"
  | fileMissing _ | fileShort .. | file _ => some "io error"
  | readOnly | misuse _ => none

/-- The line that reports a failure. -/
def message (e : Error) : String :=
  match e.family with
  | some name => s!"{name}: {e.detail}"
  | none => e.detail

/-- The text of the narrower cause inside a failure. A refused argument and a write to read-only
storage have none. -/
def source : Error → Option String
  | readOnly | argument _ | misuse _ => none
  | e => some e.detail

end Error

end Orthotope
