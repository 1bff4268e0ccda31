import Orthotope.Document.Scan
import Orthotope.Layout

/-!
# Cubes as documents

A `Document k` is the shape of a cube and its elements in row-major order. `Document.text` writes it
as a JSON object with the fields `shape` and `data`, and `Document.read` reads one.

Reading goes from left to right and reports the first problem that it meets. `Draft` holds what has
been read so far. `Draft.add` takes one more entry of the object: it looks at the name before it asks
for the value. `Draft.finish` checks that nothing is missing, and `Draft.ofEntries` puts the two
together for entries that are given one by one.
-/

namespace Orthotope

/-- The shape of a cube and its elements in row-major order. -/
structure Document (k : Kind) where
  shape : List Nat
  data : List k.Elem

/-- The fields of a document. -/
inductive Field where
  | shape
  | data
  deriving DecidableEq, Repr

/-- The values of a field. -/
@[reducible]
def Field.Value (k : Kind) : Field → Type
  | shape => List Nat
  | data => List k.Elem

/-- The fields of a document that have been read. -/
structure Draft (k : Kind) where
  shape : Option (List Nat) := none
  data : Option (List k.Elem) := none

namespace Draft

variable {k : Kind}

/-- The field that a name opens. It must have a meaning and not have been read before. -/
def field (d : Draft k) (name : String) : Except Fault Field :=
  match name with
  | "data" => if d.data.isSome then .error (.repeatedField name) else .ok .data
  | "shape" => if d.shape.isSome then .error (.repeatedField name) else .ok .shape
  | _ => .error (.unknownField name)

/-- Puts the value of a field in its place. -/
def put (d : Draft k) : (f : Field) → f.Value k → Draft k
  | .shape, shape => { d with shape := some shape }
  | .data, data => { d with data := some data }

/-- Takes the entry of the given name. `value` says what comes of its value when it is read as that of
a field, and what is left to read then. -/
def add {α : Type} (d : Draft k) (name : String)
    (value : (f : Field) → Except Fault (f.Value k × α)) : Except Fault (Draft k × α) := do
  let f ← d.field name
  let (x, rest) ← value f
  return (d.put f x, rest)

/-- The document, if both fields have been read and agree. -/
def finish (d : Draft k) : Except Fault (Document k) :=
  match d.shape, d.data with
  | none, _ => .error (.missingField "shape")
  | _, none => .error (.missingField "data")
  | some shape, some data =>
    if data.length = sizeOf shape then .ok ⟨shape, data⟩ else .error .dataLength

/-- The document whose entries are given: the name of each, and what comes of its value when it is
read as that of a field. -/
def ofEntries (d : Draft k) :
    List (String × ((f : Field) → Except Fault (f.Value k))) → Except Fault (Document k)
  | [] => d.finish
  | (name, value) :: rest => do
    let (d, _) ← d.add name fun f => return (← value f, ())
    ofEntries d rest

end Draft

namespace Document

variable {k : Kind}

/-! ## Values -/

/-- A length on an axis. -/
def length? : Scan.Number → Option Nat
  | .natural n => some n
  | _ => none

/-- The whole number that lies between two bounds. -/
def whole? (low high : Int) (n : Scan.Number) : Option Int :=
  let value : Option Int := match n with
    | .natural n => some n
    | .negative n => some (-(n : Int))
    | .real _ => none
  value.filter fun n => decide (low ≤ n ∧ n ≤ high)

/-- The floating-point number nearest to a number. -/
def nearest (f : Format) : Scan.Number → Binary f
  | .natural n => Binary.ofInt f n
  | .negative n => Binary.ofInt f (-(n : Int))
  | .real x => x.convert f

/-- Reads an element. -/
def element : (k : Kind) → List Char → Except Fault (k.Elem × List Char)
  | .f64 => Scan.numeric fun n => some (nearest .double n)
  | .f32 => Scan.numeric fun n => some (nearest .single n)
  | .i64 => Scan.numeric fun n => (whole? (-2 ^ 63) (2 ^ 63 - 1) n).map Int64.ofInt
  | .i32 => Scan.numeric fun n => (whole? (-2 ^ 31) (2 ^ 31 - 1) n).map Int32.ofInt
  | .bool => fun cs => do
    match cs with
    | 't' :: rest => return (true, ← Scan.expect "rue".toList rest)
    | 'f' :: rest => return (false, ← Scan.expect "alse".toList rest)
    | cs => Scan.wrongType cs

/-! ## Reading -/

/-- The characters after the colon that follows a name. -/
def afterColon (cs : List Char) : Except Fault (List Char) :=
  match Scan.skipBlanks cs with
  | [] => .error .truncated
  | ':' :: rest => .ok rest
  | _ => .error .malformed

/-- Reads the value of a field, after its name. -/
def value (k : Kind) (cs : List Char) : (f : Field) → Except Fault (f.Value k × List Char)
  | .shape => do Scan.list (Scan.numeric length?) (← afterColon cs)
  | .data => do Scan.list (element k) (← afterColon cs)

/-- Reads the fields of an object, after its opening brace or after a field, and what is missing then.
`first` says that there was no field yet. At most `fuel` fields are read. -/
def fields (d : Draft k) (first : Bool) (cs : List Char) :
    (fuel : Nat) → Except Fault (Document k × List Char)
  | 0 => .error .malformed
  | fuel + 1 => do
    let next ← match Scan.skipBlanks cs with
      | [] => throw .truncated
      | '}' :: rest => return (← d.finish, rest)
      | ',' :: rest =>
        if first then throw .malformed
        else match Scan.skipBlanks rest with
          | [] => throw .truncated
          | next => pure next
      | next => if first then pure next else throw .malformed
    match next with
    | '"' :: rest =>
      let (name, rest) ← Scan.string [] none rest
      let (d, rest) ← d.add name (value k rest)
      fields d false rest fuel
    | _ => throw .malformed

/-- Reads a document. Nothing but blanks may come after it. -/
def read (k : Kind) (text : String) : Except Fault (Document k) := do
  match Scan.skipBlanks text.toList with
  | [] => throw .truncated
  | '{' :: rest =>
    let (document, rest) ← fields {} true rest (rest.length + 1)
    if (Scan.skipBlanks rest).isEmpty then return document else throw .malformed
  | cs => throw (.notObject (← Scan.describe cs))

/-! ## Writing -/

/-- The text of an element. A floating-point number that is not finite has none and becomes `null`. -/
def elementText : (k : Kind) → k.Elem → String
  | .f64, x => if x.isFinite then Scan.realText x else "null"
  | .f32, x => if x.isFinite then Scan.realText x else "null"
  | .i64, n => toString n.toInt
  | .i32, n => toString n.toInt
  | .bool, b => if b then "true" else "false"

/-- Texts between brackets, without blanks. -/
def compact (xs : List String) : String := "[" ++ ",".intercalate xs ++ "]"

/-- The text of a document, without blanks. -/
def text (d : Document k) : String :=
  "\x7b\"shape\":" ++ compact (d.shape.map toString) ++ ",\"data\":" ++
    compact (d.data.map (elementText k)) ++ "\x7d"

end Document

end Orthotope
