import Orthotope.Channel
import Std.Data.HashMap

/-!
# Files mapped as cubes

A file of bytes can be mapped as a cube. It holds the elements in row-major order, each in the bytes
of `Kind.toBytes`, with nothing before, between or after them that matters. All mappings of a file
share its bytes, and a file that is longer than its cube keeps the rest.

`Files.create` makes or empties a file, `Files.open` maps one that is there, extending it with zeros
if it may be written and is too short. A mapping that may only be read refuses every write.
-/

namespace Orthotope

/-- The contents of the files, by name. -/
abbrev Files : Type := Std.HashMap String (Array UInt8)

/-- A file mapped as a cube. -/
structure Mapping where
  file : String
  writable : Bool
  deriving DecidableEq, Repr

namespace Files

/-- The number of bytes of `size` elements, which must be a number that a file length may have. -/
def byteCount (k : Kind) (size : Nat) : Except Error Nat :=
  if size * k.width ≤ maxPosition then .ok (size * k.width)
  else .error (.argument s!"{size} elements are too many to map")

/-- Makes or empties a file and gives it the length that `size` elements need, all bytes zero. -/
def create (files : Files) (name : String) (k : Kind) (size : Nat) : Except Error (Nat × Files) := do
  let bytes ← byteCount k size
  return (bytes, files.insert name (Array.replicate bytes 0))

/-- Prepares a file that is there for a mapping of `size` elements. -/
def «open» (files : Files) (name : String) (k : Kind) (size : Nat) (writable : Bool) :
    Except Error Files := do
  let needed ← byteCount k size
  match files[name]? with
  | none => .error (.fileMissing name)
  | some bytes =>
    if needed ≤ bytes.size then .ok files
    else if writable then
      .ok (files.insert name (bytes ++ Array.replicate (needed - bytes.size) 0))
    else .error (.fileShort name bytes.size needed)

/-- The contents of a file, empty if there is none. -/
def contents (files : Files) (name : String) : Array UInt8 := files.getD name #[]

end Files

namespace Mapping

/-- The bytes from place `i` on, `count` of them. -/
def bytesAt (bytes : Array UInt8) (i count : Nat) : List UInt8 :=
  (bytes.extract i (i + count)).toList

/-- The element at a position. -/
def item (k : Kind) (bytes : Array UInt8) (p : Nat) : k.Elem :=
  k.ofBytes (bytesAt bytes (p * k.width) k.width)

/-- Stretches of `width` bytes, `count` of them, one behind the other. -/
def chunks (width : Nat) : (count : Nat) → List UInt8 → List (List UInt8)
  | 0, _ => []
  | count + 1, bytes => bytes.take width :: chunks width count (bytes.drop width)

/-- The elements from a position on, `count` of them. Their bytes are taken at once, and then divided. -/
def items (k : Kind) (bytes : Array UInt8) (p count : Nat) : List k.Elem :=
  (chunks k.width count (bytesAt bytes (p * k.width) (count * k.width))).map k.ofBytes

/-- Writes elements from a position on. -/
def overwrite (k : Kind) (bytes : Array UInt8) (p : Nat) (xs : List k.Elem) : Array UInt8 :=
  Orthotope.overwrite bytes (p * k.width) (xs.flatMap k.toBytes)

/-- Changes the bytes of the file, unless it may only be read. -/
def change (m : Mapping) (f : Array UInt8 → Array UInt8) : Act Files Unit :=
  if m.writable then Act.ofEffect (Effect.update fun files => files.modify m.file f)
  else throw .readOnly

/-- The elements as a channel of `size` positions. -/
def channel (m : Mapping) (k : Kind) (size : Nat) : Channel Files k.Elem where
  size := size
  get p := do
    Act.ofExcept (checkPos size p)
    Act.ofEffect (Effect.look fun files => item k (files.contents m.file) p)
  set p x := do
    Act.ofExcept (checkPos size p)
    m.change fun bytes => overwrite k bytes p [x]
  read p count := readWithin size p count <|
    Effect.look fun files => .done (items k (files.contents m.file) p count)
  write p xs := writeWithin size p xs.length (m.change fun bytes => overwrite k bytes p xs)

/-- Access to the elements of a cube of the given shape. The nullable channel moves one element at a
time, and a missing one is written as the null value. -/
def access (m : Mapping) (k : Kind) (shape : List Nat) : Access Files k.Elem where
  raw := m.channel k (sizeOf shape)
  nullable := ((m.channel k (sizeOf shape)).orNull k.null).stepwise
  flush := pure ()

end Mapping

end Orthotope
